import Ride.Processor.Fixed
import Ride.Processor.Safety
import Ride.Verifier.Slot

/-!
# The calls of `verifier_verify_hash`

`on_file_read` calls `verifier_verify_hash` for every file that it has read to the
end, whatever the state of the connection is.  The call uses `verifier->conn`,
which is null before `on_socket_connect`, and it uses the return value of
`verifier_quic_get_slot` as the number of a slot, also where this is an error of
`ngtcp2_conn_open_bidi_stream`.

`Client` puts the event loop of a processor and the stream slots of its verifier
together, and a run collects the calls.  `verify_calls_ok_iff` says when all of
them are in order.  `verify_calls_out_of_order` has two runs: in one a file is
read before the connection is there, in the other no stream can be opened.
-/

namespace Ride

open CodeLib CodeLib.Machine

namespace Sys

variable {B : Blake3} {n : Nat} {i : Fin n} {s t : Sys B n}

/-! ## The calls from `on_file_read` -/

/-- The slot for which a step calls `verifier_verify_hash`: its read has reached
the end of the file. -/
def verifies (s : Sys B n) : SysStep n → Option (Answers × Fin n)
  | .dispatch ans =>
    if s.halted = none ∧ s.todo = [] then
      s.cq.current.bind fun cqe =>
        let req := s.req cqe.userData.req
        if req.callback = some .onFileRead ∧ cqe.res = 0 then
          req.data2.map fun i => (ans, i)
        else none
    else none
  | _ => none

/-- The bytes of the path that the call passes: `data2` of them, which is the
argument `pathlen`.  Where this is more than the path has, `memcpy` reads on
behind it, and `pathname` has the path alone. -/
def pathname (s : Sys B n) (i : Fin n) : Bytes :=
  ((s.path i).getD []).take (sizeT (s.reqs i).data2)

/-- The digest that the call passes. -/
def digest (s : Sys B n) (i : Fin n) : Bytes :=
  B.finalize (s.lastHasher i)

/-- What a step that reaps a completion does, as far as the calls go. -/
theorem verifies_dispatch (hlive : s.halted = none) (htodo : s.todo = [])
    {cqe : Cqe (Name n)} (hcur : s.cq.current = some cqe) (ans : Answers) :
    s.verifies (.dispatch ans) =
      if (s.req cqe.userData.req).callback = some .onFileRead ∧ cqe.res = 0 then
        (s.req cqe.userData.req).data2.map fun i => (ans, i)
      else none := by
  simp only [verifies, if_pos (And.intro hlive htodo), hcur, Option.bind_some]

/-- The answers of the call are those of the step. -/
theorem verifies_answers {a : SysStep n} {v : Answers × Fin n}
    (h : s.verifies a = some v) : a = .dispatch v.1 := by
  cases a with
  | dispatch ans =>
    simp only [verifies, Option.ite_none_right_eq_some, Option.bind_eq_some_iff,
      Option.map_eq_some_iff] at h
    obtain ⟨-, cqe, -, -, i, -, rfl⟩ := h
    rfl
  | _ => exact absurd h (by simp [verifies])

/-- Only a live run makes calls. -/
theorem live_of_verifies {a : SysStep n} {v : Answers × Fin n}
    (hcall : s.verifies a = some v) : s.halted = none := by
  by_contra hno
  rw [verifies_answers hcall] at hcall
  simp only [verifies, hno, false_and, if_false] at hcall
  exact absurd hcall (by simp)

theorem verifierVerifyHash_iff (s : Sys B n) (ans : Answers) :
    s.verifierVerifyHash ans = true ↔ s.conn = true ∧ ans.openStream = 0 := by
  simp [verifierVerifyHash]

/-- A step means one of two things for the verifier: no call and no line of the
output; or a call of `verifier_verify_hash` behind a new line, where the run goes
on exactly if the connection is there and the stream could be opened. -/
inductive Verifying (s : Sys B n) (a : SysStep n) (t : Sys B n) : Prop
  | quiet (hno : s.verifies a = none)
      (hrecords : t.records.length = s.records.length) : Verifying s a t
  | call (ans : Answers) (i : Fin n) (hcall : s.verifies a = some (ans, i))
      (hrecords : t.records.length = s.records.length + 1)
      (hend : ¬ (s.conn = true ∧ ans.openStream = 0) →
        t.halted = some .fault) : Verifying s a t

theorem SlotOutcome.verifying {stage : Stage} {cqe : Cqe (Name n)}
    {ans : Answers} (hlive : s.halted = none) (htodo : s.todo = [])
    (hcur : s.cq.current = some cqe) (hreq : cqe.userData.req = .slot i)
    (hheld : (s.deliver cqe).Held i stage)
    (hout : SlotOutcome (s.deliver cqe) i ans t) :
    Verifying s (.dispatch ans) t := by
  have hrecords := (s.deliver_reaped cqe).records
  have hconn := (s.deliver_reaped cqe).conn
  obtain ⟨res, flags, hslot⟩ := s.deliver_req cqe (.slot i)
  have hcall : ((s.deliver cqe).reqs i).req.callback =
      (s.req (.slot i)).callback := by
    show ((s.deliver cqe).req (.slot i)).callback = _
    rw [hslot]
  have hdata2 : (s.req (.slot i)).data2 = some i := by
    have hheld2 : ((s.deliver cqe).req (.slot i)).data2 = some i := hheld.data2
    rw [hslot] at hheld2
    exact hheld2
  have hres : ((s.deliver cqe).reqs i).req.result = cqe.res := by
    simp [Sys.deliver_slot hreq, withResult, setSlot]
  have hiff := verifies_dispatch hlive htodo hcur ans
  rw [hreq, ← hcall, ← hres] at hiff
  -- a callback that is not at the end of a file makes no call
  have hquiet : ¬ (((s.deliver cqe).reqs i).req.callback = some .onFileRead ∧
      ((s.deliver cqe).reqs i).req.result = 0) →
      s.verifies (.dispatch ans) = none := fun hnot => hiff.trans (if_neg hnot)
  have hmade : ((s.deliver cqe).reqs i).req.callback = some .onFileRead →
      ((s.deliver cqe).reqs i).req.result = 0 →
      s.verifies (.dispatch ans) = some (ans, i) := by
    intro hread hzero
    rw [hiff, if_pos ⟨hread, hzero⟩, hdata2]
    rfl
  cases hout with
  | openFailed hfits =>
    refine .quiet (hquiet ?_) (congrArg List.length hrecords)
    simp [hfits.callback]
  | opened hfits =>
    refine .quiet (hquiet ?_) (congrArg List.length hrecords)
    simp [hfits.callback]
  | readFailed hfits hneg =>
    refine .quiet (hquiet ?_) (congrArg List.length hrecords)
    rintro ⟨-, hzero⟩
    omega
  | readMore hfits hr hpos =>
    refine .quiet (hquiet ?_) (congrArg List.length hrecords)
    rintro ⟨-, hzero⟩
    omega
  | printed hfits hzero hdel hverify =>
    refine .call ans i (hmade hfits.callback hzero) ?_ ?_
    · simp [Sys.freed, hrecords]
    · intro hbad
      rw [verifierVerifyHash_iff, hconn] at hverify
      exact absurd hverify hbad
  | verifyFailed hfits hzero =>
    refine .call ans i (hmade hfits.callback hzero) ?_ fun _ => rfl
    simp [Sys.halt, hrecords]
  | updated hfits =>
    refine .quiet (hquiet ?_) (congrArg List.length hrecords)
    simp [hfits.callback]

theorem Inv.verifying (h : Inv none s) (hfixed : s.FixedOps)
    (hlive : s.halted = none) (a : SysStep n) :
    Verifying s a (s.step a) := by
  have heff := h.effect hlive a
  generalize s.step a = t at heff ⊢
  cases heff with
  | stutter _ hbusy hloop =>
    rcases hloop with rfl | rfl | ⟨ans, rfl⟩
    · exact .quiet rfl rfl
    · exact .quiet rfl rfl
    · exact .quiet (if_neg fun hidle => hbusy hidle.2) rfl
  | idle => exact .quiet rfl rfl
  | kernel act hto => exact .quiet rfl (by cases hto <;> rfl)
  | reaper _ cq hwf hsame hloop =>
    refine .quiet ?_ rfl
    rcases hloop with rfl | rfl <;> rfl
  | submit => exact .quiet rfl rfl
  | flush ans htodo hout =>
    refine .quiet rfl ?_
    cases hout with
    | ended hend => exact congrArg List.length hend.records
    | _ => rfl
  | dispatch ans htodo hout =>
    cases hout with
    | idle hcur =>
      refine .quiet ?_ rfl
      simp [verifies, hcur]
    | slot cqe hcur hreq hheld hout =>
      exact hout.verifying hlive htodo hcur hreq hheld
    | fixed cqe hcur hr hinv hidle hout =>
      have hrecords := (s.deliver_reaped cqe).records
      refine .quiet ?_ ?_
      · rw [verifies_dispatch hlive htodo hcur, if_neg]
        rintro ⟨hcall, -⟩
        exact hfixed.reqs _ hr (Or.inr (Or.inr hcall))
      · rw [← hrecords]
        cases hout with
        | ended hend => exact congrArg List.length hend.records
        | _ => rfl

end Sys

/-! ## The event loop with the stream slots -/

/-- A processor, and the stream slots of its verifier. -/
structure Client (B : Blake3) (n : Nat) where
  sys : Sys B n
  verifier : Verifier

/-- A step of the processor, with the stream that the library opens if it opens
one, or a step of a flush of the verifier. -/
inductive ClientStep (n : Nat) where
  | sys (a : SysStep n) (streamId : Int)
  | verifier (a : VerifierStep)

/-- The library returns zero or an error, which is a negative `int`. -/
def SysStep.StreamResult {n : Nat} : SysStep n → Prop
  | .dispatch ans => INT_MIN ≤ ans.openStream ∧ ans.openStream ≤ 0
  | _ => True

instance {n : Nat} : DecidablePred (SysStep.StreamResult (n := n)) := fun a =>
  match a with
  | .dispatch _ => inferInstanceAs (Decidable (_ ∧ _))
  | .kernel _ => isTrue trivial
  | .load => isTrue trivial
  | .proceed _ => isTrue trivial
  | .publish => isTrue trivial

/-- The step is an act of the kernel. -/
def SysStep.OfKernel {n : Nat} : SysStep n → Prop
  | .kernel _ => True
  | _ => False

instance {n : Nat} : DecidablePred (SysStep.OfKernel (n := n)) := fun a =>
  match a with
  | .kernel _ => isTrue trivial
  | .load => isFalse not_false
  | .dispatch _ => isFalse not_false
  | .proceed _ => isFalse not_false
  | .publish => isFalse not_false

/-- A call of `verifier_verify_hash`: whether the connection is there, what
`ngtcp2_conn_open_bidi_stream` returns, the slot number that both calls of
`verifier_quic_slot_writev` get, and the slots before and after the call. -/
structure VerifyCall where
  conn : Bool
  rv : Int
  slotId : Nat
  before : Fin MAX_CONCURRENT_WRITES → QuicStream
  after : Fin MAX_CONCURRENT_WRITES → QuicStream

/-- The connection is there, the slot is one of the slots, and without a stream
no slot is changed. -/
structure VerifyCall.Ok (c : VerifyCall) : Prop where
  conn : c.conn = true
  slotId : c.slotId < MAX_CONCURRENT_WRITES
  unchanged : c.rv ≠ 0 → c.after = c.before

namespace Client

variable {B : Blake3} {n : Nat}

/-- The event loop moves while no flush is running, the kernel at any time. -/
def Enabled (x : Client B n) (a : SysStep n) : Prop :=
  (x.verifier.phase = .idle ∨ a.OfKernel) ∧ a.StreamResult

instance (x : Client B n) : DecidablePred x.Enabled :=
  fun _ => inferInstanceAs (Decidable ((_ ∨ _) ∧ _))

/-- The verifier behind the call that a step makes. -/
def verified (x : Client B n) (ans : Answers) (i : Fin n) (streamId : Int) :
    Verifier :=
  x.verifier.verifierVerifyHash ans.openStream streamId (x.sys.pathname i)
    (x.sys.digest i)

/-- One step.  A flush is one of the verifier's own steps. -/
def step (x : Client B n) : ClientStep n → Client B n
  | .sys a streamId =>
    if x.Enabled a then
      { sys := x.sys.step a
        verifier := match x.sys.verifies a with
          | none => x.verifier
          | some (ans, i) => x.verified ans i streamId }
    else x
  | .verifier a =>
    if Verifier.Flushes a then { x with verifier := x.verifier.step a } else x

/-- The call for a slot. -/
def call (x : Client B n) (streamId : Int) (v : Answers × Fin n) :
    VerifyCall where
  conn := x.sys.conn
  rv := v.1.openStream
  slotId := sizeT (x.verifier.verifierQuicGetSlot v.1.openStream streamId).1
  before := x.verifier.hashReqSlots
  after := (x.verified v.1 v.2 streamId).hashReqSlots

/-- The call of `verifier_verify_hash` that a step makes. -/
def calls (x : Client B n) : ClientStep n → List VerifyCall
  | .sys a streamId =>
    if x.Enabled a then (x.sys.verifies a).toList.map (x.call streamId) else []
  | .verifier _ => []

/-- A file that has been read to the end finds the connection there, and gets a
stream. -/
def Ready (x : Client B n) : ClientStep n → Prop
  | .sys a _ => x.Enabled a → ∀ v ∈ x.sys.verifies a,
      x.sys.conn = true ∧ v.1.openStream = 0
  | .verifier _ => True

instance (x : Client B n) : DecidablePred x.Ready := fun a =>
  match a with
  | .sys _ _ => inferInstanceAs (Decidable (_ → ∀ v ∈ _, _))
  | .verifier _ => isTrue trivial

/-- `verifier_init`, in a processor that starts. -/
def start (B : Blake3) {n : Nat} [NeZero n] (boot : Sys.Boot n) : Client B n :=
  ⟨Sys.processorRun B boot, .verifierInit⟩

/-! ## The slot number -/

/-- The return value of `verifier_quic_get_slot` is the number of a slot exactly
when the stream was opened. -/
theorem slotId_lt_iff (v : Verifier) {rv : Int} (streamId : Int)
    (hrange : INT_MIN ≤ rv ∧ rv ≤ 0) :
    sizeT (v.verifierQuicGetSlot rv streamId).1 < MAX_CONCURRENT_WRITES ↔
      rv = 0 := by
  by_cases hrv : rv = 0
  · subst hrv
    exact iff_of_true (by simp [Verifier.verifierQuicGetSlot, sizeT,
      MAX_CONCURRENT_WRITES]) rfl
  · have hbig := sizeT_of_neg hrange.1 (by omega)
    simp only [Verifier.verifierQuicGetSlot, if_pos hrv, hrv, iff_false,
      MAX_CONCURRENT_WRITES]
    omega

/-- A call is in order exactly when the connection is there and the stream was
opened. -/
theorem call_ok_iff (x : Client B n) (streamId : Int) {v : Answers × Fin n}
    (hrange : INT_MIN ≤ v.1.openStream ∧ v.1.openStream ≤ 0) :
    (x.call streamId v).Ok ↔ x.sys.conn = true ∧ v.1.openStream = 0 := by
  have hslot := slotId_lt_iff x.verifier streamId hrange
  constructor
  · rintro ⟨hconn, hlt, -⟩
    exact ⟨hconn, hslot.mp hlt⟩
  · rintro ⟨hconn, hzero⟩
    exact ⟨hconn, hslot.mpr hzero, fun hne => absurd hzero hne⟩

theorem Enabled.range {x : Client B n} {a : SysStep n} {v : Answers × Fin n}
    (h : x.Enabled a) (hv : x.sys.verifies a = some v) :
    INT_MIN ≤ v.1.openStream ∧ v.1.openStream ≤ 0 := by
  have hresult := h.2
  rw [Sys.verifies_answers hv] at hresult
  exact hresult

/-- The calls of a step are in order exactly when the step is ready. -/
theorem calls_ok_iff (x : Client B n) (a : ClientStep n) :
    (∀ c ∈ x.calls a, c.Ok) ↔ x.Ready a := by
  cases a with
  | verifier a => exact iff_of_true (by simp [calls]) trivial
  | sys a streamId =>
    unfold calls Ready
    by_cases henabled : x.Enabled a
    · simp only [if_pos henabled, List.forall_mem_map, Option.mem_toList]
      constructor
      · intro hok _ v hv
        exact (x.call_ok_iff streamId (henabled.range hv)).mp (hok v hv)
      · intro hready v hv
        exact (x.call_ok_iff streamId (henabled.range hv)).mpr
          (hready henabled v hv)
    · simp [henabled]

/-! ## The runs -/

/-- What is known of a run and its calls: there is one call for every line of the
output, and a call that is not in order ends the run. -/
structure Recorded (x : Client B n × List VerifyCall) : Prop where
  live : Sys.Live (fun _ => True) x.1.sys
  length : x.2.length = x.1.sys.records.length
  fault : (∃ c ∈ x.2, ¬ c.Ok) → x.1.sys.halted = some .fault

theorem Recorded.of_same {x y : Client B n × List VerifyCall}
    (h : Recorded x) (hsys : y.1.sys = x.1.sys) (hcalls : y.2 = x.2) :
    Recorded y := by
  refine ⟨?_, ?_, ?_⟩ <;> rw [hsys]
  · exact h.live
  · rw [hcalls]
    exact h.length
  · rw [hcalls]
    exact h.fault

/-- A step of the processor that calls `verifier_verify_hash` or not. -/
theorem Recorded.sys {x y : Client B n × List VerifyCall} (h : Recorded x)
    {a : SysStep n} {streamId : Int} (henabled : x.1.Enabled a)
    (hlive : x.1.sys.halted = none) (hsys : y.1.sys = x.1.sys.step a)
    (hcalls : y.2 = x.2 ++ (x.1.sys.verifies a).toList.map (x.1.call streamId)) :
    Recorded y := by
  have hnone : ¬ ∃ c ∈ x.2, ¬ c.Ok := by
    intro hbad
    rw [h.fault hbad] at hlive
    exact absurd hlive (by simp)
  have hnext := h.live.step (fun _ _ _ _ _ _ _ => trivial) a
  rcases (h.live.good.inv hlive).verifying (h.live.fixed hlive) hlive a with
    ⟨hno, hrecords⟩ | ⟨ans, i, hcall, hrecords, hend⟩
  · rw [hno, Option.toList_none, List.map_nil, List.append_nil] at hcalls
    refine ⟨by rw [hsys]; exact hnext, ?_, ?_⟩
    · rw [hcalls, hsys, hrecords]
      exact h.length
    · rw [hcalls]
      exact fun hbad => absurd hbad hnone
  · rw [hcall, Option.toList_some, List.map_singleton] at hcalls
    refine ⟨by rw [hsys]; exact hnext, ?_, ?_⟩
    · rw [hcalls, hsys, hrecords, List.length_append, h.length]
      rfl
    · rintro ⟨c, hc, hbad⟩
      rw [hcalls, List.mem_append, List.mem_singleton] at hc
      rcases hc with hold | rfl
      · exact absurd ⟨c, hold, hbad⟩ hnone
      · rw [x.1.call_ok_iff streamId (henabled.range hcall)] at hbad
        rw [hsys]
        exact hend hbad

theorem Recorded.step {x : Client B n × List VerifyCall} (h : Recorded x)
    (a : ClientStep n) : Recorded (traced Client.step calls x a) := by
  cases a with
  | verifier a =>
    refine h.of_same ?_ (List.append_nil _)
    simp only [traced, Client.step]
    split_ifs <;> rfl
  | sys a streamId =>
    by_cases henabled : x.1.Enabled a
    · have hstep : (x.1.step (.sys a streamId)).sys = x.1.sys.step a := by
        simp only [Client.step, if_pos henabled]
      have hcalls : x.1.calls (.sys a streamId) =
          (x.1.sys.verifies a).toList.map (x.1.call streamId) :=
        if_pos henabled
      by_cases hlive : x.1.sys.halted = none
      · exact h.sys henabled hlive hstep (congrArg _ hcalls)
      · have hno : x.1.sys.verifies a = none := by
          cases a with
          | dispatch ans => exact if_neg fun hidle => hlive hidle.1
          | _ => rfl
        refine h.of_same (hstep.trans (Sys.step_of_halted hlive a)) ?_
        simp only [traced, hcalls, hno, Option.toList_none, List.map_nil,
          List.append_nil]
    · refine h.of_same ?_ ?_
      · simp only [traced, Client.step, if_neg henabled]
      · simp only [traced, calls, if_neg henabled, List.append_nil]

/-- In every run of a processor and its verifier, every line of the output leads
to one call of `verifier_verify_hash`, all the calls are in order exactly when
every file that is read to the end finds the connection there and gets a stream,
and a call that is not in order ends in a fault. -/
theorem verify_calls_ok_iff [NeZero n] (boot : Sys.Boot n)
    (sched : List (ClientStep n)) :
    let x := run (traced step calls) (start B boot, []) sched
    x.2.length = x.1.sys.records.length ∧
      ((∀ c ∈ x.2, c.Ok) ↔ Meets step Ready (start B boot) sched) ∧
      ((∃ c ∈ x.2, ¬ c.Ok) → x.1.sys.halted = some .fault) := by
  intro x
  have hrec : Recorded x :=
    run_invariant (fun x a h => h.step a)
      ⟨Sys.live_processorRun boot trivial, rfl, by simp⟩ sched
  have hok : (∀ c ∈ x.2, c.Ok) ↔ (∀ c ∈ ([] : List VerifyCall), c.Ok) ∧
      Meets (traced step calls) (fun x a => x.1.Ready a) (start B boot, [])
        sched := by
    refine run_iff_meets (I := fun _ => True) (A := fun _ => True)
      (P := fun x : Client B n × List VerifyCall => ∀ c ∈ x.2, c.Ok)
      (fun _ _ _ => trivial) (fun _ _ _ => trivial) ?_ trivial trivial
    intro x a _ _
    show (∀ c ∈ x.2 ++ x.1.calls a, c.Ok) ↔ _
    rw [List.forall_mem_append, calls_ok_iff]
  refine ⟨hrec.length, ?_, hrec.fault⟩
  rw [hok, meets_traced step calls Ready]
  exact and_iff_right (by simp)

/-- The steps of a processor whose verifier gets the stream `0`. -/
def onStream (sched : List (SysStep n)) : List (ClientStep n) :=
  sched.map fun a => .sys a 0

theorem verify_calls_ok_in_printedRun :
    let x := run (traced step calls) (start .concat (Sys.Boot.zeroed 1), [])
      (onStream Sys.printedRun)
    x.1.sys.records.length = 1 ∧ x.2.length = x.1.sys.records.length ∧
      ∀ c ∈ x.2, c.Ok := by
  have hcalls := verify_calls_ok_iff (B := .concat) (Sys.Boot.zeroed 1)
    (onStream Sys.printedRun)
  exact ⟨by decide +kernel, hcalls.1, hcalls.2.1.mpr (by decide +kernel)⟩

/-- An empty file is opened and read while the socket is still created. -/
def earlyFile : List (SysStep 1) :=
  let ans := Sys.Answers.event [47]
  [.proceed ans, .proceed ans, .kernel .consume, .kernel .consume] ++
  [.kernel (.notify 0 1 2)] ++ Sys.reapOne ans 1 ++
  [.kernel .consume, .kernel (.openDone 2 8 ⟨[], by decide⟩ 0)] ++
  Sys.reapOne ans 1 ++
  [.kernel .consume, .kernel (.fill 2 0), .kernel (.complete 2 0 0)] ++
  Sys.reapOne ans 0

/-- The connection is there, and no stream can be opened for the file. -/
def blockedFile : List (SysStep 1) :=
  Sys.printedRun.take 41 ++
  [.dispatch { Sys.Answers.event [47] with openStream := -206 }]

/-- A file that is read before the connection is there leads to a call with a
null connection, and a file for which no stream can be opened leads to a call
with a slot number far outside of the slots. -/
theorem verify_calls_out_of_order :
    let x := run (traced step calls) (start .concat (Sys.Boot.zeroed 1), [])
      (onStream earlyFile)
    let y := run (traced step calls) (start .concat (Sys.Boot.zeroed 1), [])
      (onStream blockedFile)
    x.2.map VerifyCall.conn = [false] ∧ x.1.sys.halted = some .fault ∧
      y.2.map VerifyCall.conn = [true] ∧
      y.2.map VerifyCall.slotId = [18446744073709551410] ∧
      y.1.sys.halted = some .fault := by
  decide +kernel

end Client

end Ride
