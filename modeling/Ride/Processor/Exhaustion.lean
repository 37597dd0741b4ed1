import Ride.Processor.Fixed
import Ride.Processor.Safety

/-!
# When the slots run out

`processor_get_req` ends the process where no slot is free.  Two callers take
slots: `on_queue_event` for every event that it takes from the queue, and
`verifier_flush_egress` for every update of the timer.  Neither of them looks at
the free list first, so that `burst_exhausts_slots` is a run of two events that
kills a processor with one slot.

A slot is given back for every task that ends, and none is lost:
`Sys.Balanced`.  So the process survives exactly as long as fewer tasks than
slots are under way whenever one more begins: `slots_suffice_iff`.
-/

namespace Ride

open CodeLib CodeLib.Machine

namespace Sys

variable {B : Blake3} {n : Nat} {i : Fin n} {s t : Sys B n}

/-! ## The calls of `processor_get_req` -/

/-- `on_queue_event` goes on behind `queue_consume_try`, because there is no
token, or because there are a token and an event. -/
def GoesOn (ans : Answers) : Prop :=
  ans.efdError = false ∧ (ans.efd = 0 ∨ ans.queue.head ≠ ans.queue.tail)

instance (ans : Answers) : Decidable (GoesOn ans) :=
  inferInstanceAs (Decidable (_ ∧ (_ ∨ _)))

/-- The step calls `processor_get_req`: from `on_queue_event`, which is called
back for a completion that is no error, or from `verifier_flush_egress`, which
finds the timer armed. -/
def CallsGetReq (s : Sys B n) : SysStep n → Prop
  | .dispatch ans => s.todo = [] ∧ ∃ cqe ∈ s.cq.current,
      (s.req cqe.userData.req).callback = some .onQueueEvent ∧
        0 ≤ cqe.res ∧ GoesOn ans
  | .proceed ans => s.todo.head? = some .flushEgress ∧
      ans.flush.toNat < 2 ^ 63 ∧ s.timerReq.opcode = .timeout
  | _ => False

instance (s : Sys B n) : DecidablePred s.CallsGetReq := fun a =>
  match a with
  | .dispatch _ => inferInstanceAs (Decidable (_ ∧ ∃ cqe ∈ _, _))
  | .proceed _ => inferInstanceAs (Decidable (_ ∧ _ ∧ _))
  | .kernel _ => isFalse not_false
  | .load => isFalse not_false
  | .publish => isFalse not_false

/-- The step calls `processor_get_req` with an empty list. -/
def Exhausts (s : Sys B n) (a : SysStep n) : Prop :=
  s.halted = none ∧ s.CallsGetReq a ∧ s.reqsList = none

instance (s : Sys B n) : DecidablePred s.Exhausts :=
  fun _ => inferInstanceAs (Decidable (_ ∧ _ ∧ _))

theorem processorGetReq_empty (h : s.reqsList = none) :
    s.processorGetReq = .error .exit := by
  rw [processorGetReq, h]

theorem onQueueEvent_empty {r : ReqPtr n} {ans : Answers}
    (hlist : s.reqsList = none) (hres : 0 ≤ (s.req r).result)
    (hgo : GoesOn ans) : (s.onQueueEvent r ans).halted = some .exit := by
  have hget : ∀ events, { s with
      dequeued := events }.processorGetReq = .error .exit :=
    fun _ => processorGetReq_empty hlist
  unfold Sys.onQueueEvent
  simp only [if_neg (Int.not_lt.mpr hres), hgo.1, Bool.false_eq_true, if_false]
  obtain ⟨hagain, hevent⟩ := consumption_ret ans
  unfold consumption at hagain hevent
  split_ifs with hret hnone
  · simp only [Sys.openEvent, hget]
    rfl
  · simp only [Sys.openEvent, processorGetReq_empty hlist]
    rfl
  · rw [hevent] at hret
    rw [hagain] at hnone
    exact absurd ⟨hnone, hgo.2.resolve_left hnone⟩ hret

theorem verifierFlushEgress_empty {ans : Answers} (hlist : s.reqsList = none)
    (hflush : ans.flush.toNat < 2 ^ 63) (htimer : s.timerReq.opcode = .timeout) :
    (s.verifierFlushEgress ans).halted = some .exit := by
  have hget : ∀ expiry, { s with expiry := expiry }.processorGetReq =
      .error .exit := fun _ => processorGetReq_empty hlist
  unfold Sys.verifierFlushEgress armTimer
  simp only [if_neg (Nat.not_le.mpr hflush), htimer, if_true, hget]
  rfl

/-- Such a step is the last one of the process. -/
theorem Exhausts.exit {a : SysStep n} (h : s.Exhausts a) :
    (s.step a).halted = some .exit := by
  obtain ⟨hlive, hcalls, hlist⟩ := h
  have hrun : ¬ s.halted.isSome := by simp [hlive]
  unfold Sys.step
  rw [if_neg hrun]
  cases a with
  | kernel act => exact hcalls.elim
  | load => exact hcalls.elim
  | publish => exact hcalls.elim
  | dispatch ans =>
    obtain ⟨htodo, cqe, hcur, hcall, hres, hgo⟩ := hcalls
    simp only [if_pos htodo]
    have hreq : (s.deliver cqe).req cqe.userData.req =
        { s.req cqe.userData.req with
          result := cqe.res, resultFlags := cqe.flags } := req_setReq_self ..
    have hempty := (s.deliver_reaped cqe).reqsList.trans hlist
    rw [dispatch_eq hcur, Sys.call]
    simp only [hreq, hcall]
    exact onQueueEvent_empty hempty (by rw [hreq]; exact hres) hgo
  | proceed ans =>
    obtain ⟨hhead, hflush, htimer⟩ := hcalls
    obtain ⟨rest, htodo⟩ := List.head?_eq_some_iff.mp hhead
    simp only [Sys.proceed, htodo]
    exact verifierFlushEgress_empty hlist hflush htimer

/-! ## The tasks under way -/

/-- The tasks that have begun: a slot was handed out for each. -/
def begun (s : Sys B n) : Nat := ∑ i, s.gens i

/-- The tasks that have ended: a slot was given back for each. -/
def ended (s : Sys B n) : Nat := s.frees.length

/-- No slot is lost. -/
def Balanced (s : Sys B n) : Prop :=
  (s.begun : Int) + s.nrFreeReqs = s.ended + n

theorem Balanced.prepared (h : s.Balanced) {slot : Slot B.State n}
    {ticket : Option Nat} {events : List Event}
    {strings : Nat → Option (Bytes × Fin n)} {nextString : Nat}
    {expiry : Int × Int} {rest : List (Cmd n)} :
    (s.prepared i slot ticket events strings nextString expiry
      rest).Balanced := by
  have hsum := sum_update_add s.gens i (s.gens i + 1)
  unfold Balanced begun ended at h ⊢
  simp only [Sys.prepared]
  omega

theorem Balanced.freed (h : s.Balanced) {slot : Slot B.State n}
    {strings : Nat → Option (Bytes × Fin n)} {fds : Int → Option (Fd n)}
    {records : List Record} {errors : List (Option Nat)} :
    (s.freed i slot strings fds records errors).Balanced := by
  unfold Balanced begun ended at h ⊢
  simp only [Sys.freed, List.length_append, List.length_singleton]
  omega

theorem Balanced.dispatched (h : s.Balanced) {ans : Answers}
    (hout : Dispatched s ans t) (hrun : t.halted = none) : t.Balanced := by
  have hdel : ∀ cqe, (s.deliver cqe).Balanced := by
    intro cqe
    have hdel := s.deliver_reaped cqe
    unfold Balanced begun ended
    rw [hdel.nrFreeReqs, hdel.gens, hdel.frees]
    exact h
  cases hout with
  | idle => exact h
  | slot cqe hcur hreq hheld hout =>
    cases hout with
    | verifyFailed => exact absurd hrun (by simp [Sys.halt])
    | opened => exact hdel cqe
    | readMore => exact hdel cqe
    | _ => exact (hdel cqe).freed
  | fixed cqe hcur hfixed hinv hidle hout =>
    cases hout with
    | ended hend => exact absurd hrun hend.halted
    | taken => exact (hdel cqe).prepared
    | _ => exact hdel cqe

theorem Balanced.step (h : s.Balanced) (hinv : Inv none s)
    (hlive : s.halted = none) (a : SysStep n)
    (hrun : (s.step a).halted = none) : (s.step a).Balanced := by
  have heff := hinv.effect hlive a
  generalize s.step a = t at heff hrun ⊢
  cases heff with
  | kernel act hto => cases hto <;> exact h
  | dispatch ans htodo hout => exact h.dispatched hout hrun
  | flush ans htodo hout =>
    cases hout with
    | ended hend => exact absurd hrun hend.halted
    | armed => exact h
    | updating => exact Balanced.prepared h
  | _ => exact h

theorem balanced_processorRun [NeZero n] (boot : Boot n) :
    (processorRun B boot).Balanced := by
  simp [Balanced, begun, ended, processorRun]

/-- Fewer tasks than slots are under way, where one more begins. -/
def HasSpare (s : Sys B n) (a : SysStep n) : Prop :=
  s.halted = none → s.CallsGetReq a → s.begun < s.ended + n

instance (s : Sys B n) : DecidablePred s.HasSpare :=
  fun _ => inferInstanceAs (Decidable (_ → _ → _))

/-- A slot is free exactly when fewer tasks than slots are under way. -/
theorem Balanced.reqsList_iff (h : s.Balanced) (hinv : Inv none s) :
    s.reqsList ≠ none ↔ s.begun < s.ended + n := by
  have hcount : 0 ≤ s.nrFreeReqs := by
    obtain ⟨l, -, -, -, hlen⟩ := hinv.list
    omega
  rw [Ne, hinv.list.head_none_iff]
  unfold Balanced at h
  omega

/-- In every run, `processor_get_req` is never called with an empty list exactly
when fewer tasks than slots are under way whenever one more begins. -/
theorem slots_suffice_iff [NeZero n] (boot : Boot n)
    (sched : List (SysStep n)) :
    Meets Sys.step (fun s a => ¬ s.Exhausts a) (processorRun B boot) sched ↔
      Meets Sys.step HasSpare (processorRun B boot) sched := by
  refine meets_congr (I := Live Balanced) ?_ ?_
    (live_processorRun boot (balanced_processorRun boot)) sched
  · intro s a h
    exact h.step (fun s a hinv _ hlive hrun hbal =>
      hbal.step hinv hlive a hrun) a
  · intro s a h
    constructor
    · intro hno hlive hcalls
      rw [← (h.prop hlive).reqsList_iff (h.good.inv hlive)]
      exact fun hempty => hno ⟨hlive, hcalls, hempty⟩
    · rintro hspare ⟨hlive, hcalls, hempty⟩
      have hlt := hspare hlive hcalls
      rw [← (h.prop hlive).reqsList_iff (h.good.inv hlive)] at hlt
      exact hlt hempty

theorem slots_suffice_in_printedRun :
    Meets Sys.step (fun s a => ¬ s.Exhausts a)
      (processorRun .concat (Boot.zeroed 1)) printedRun :=
  (slots_suffice_iff (Boot.zeroed 1) printedRun).mpr (by decide +kernel)

/-- The second of two events is notified while the first one is opened. -/
def twoEvents : List (SysStep 1) :=
  let ans := Answers.event [47]
  [.proceed ans, .proceed ans, .kernel .consume, .kernel .consume] ++
  [.kernel (.notify 0 1 2)] ++ reapOne ans 1 ++
  [.kernel (.notify 0 1 2), .load]

/-- The verifier receives a packet while a file is opened, and is about to update
its timer. -/
def eventAndPacket : List (SysStep 1) :=
  let ans := Answers.event [47]
  printedRun.take 24 ++
  [.kernel (.complete 1 5 0), .load, .dispatch ans, .proceed ans]

/-- A processor with one slot does not survive a second event, nor an update of
the timer, as long as the first event has the slot. -/
theorem burst_exhausts_slots :
    let ans := Answers.event [47]
    let s := run Sys.step (processorRun .concat (Boot.zeroed 1)) twoEvents
    let t := run Sys.step (processorRun .concat (Boot.zeroed 1)) eventAndPacket
    s.Exhausts (.dispatch ans) ∧
      (s.step (.dispatch ans)).halted = some .exit ∧
      t.Exhausts (.proceed ans) ∧
      (t.step (.proceed ans)).halted = some .exit := by
  intro ans s t
  have hevent : s.Exhausts (.dispatch ans) := by decide +kernel
  have hpacket : t.Exhausts (.proceed ans) := by decide +kernel
  exact ⟨hevent, hevent.exit, hpacket, hpacket.exit⟩

end Sys

end Ride
