import Ride.Verifier.Rounds

/-!
# The slot of a message

What becomes of the slot `0` between two calls of `verifier_verify_hash`, and
when a call finds room in it.

* `partial_writes_resume`: a message that was just filled in goes out byte by
  byte in order, whatever part the library takes of each offer, and the slot is
  reset when nothing is left.
* `buffer_in_bounds_iff`: the array `data` overflows exactly when a call finds
  too much data of earlier messages in the slot.  The lengths are set to zero by
  a later round of the loop only, so that messages can pile up.
  `buffer_overflown_by_second_message` is such a run.
-/

namespace Ride

open CodeLib.Machine

namespace Verifier

variable {v : Verifier}

/-! ## A message that goes out -/

/-- The flags of `ngtcp2_conn_writev_stream`. -/
def NGTCP2_WRITE_STREAM_FLAG_MORE : UInt32 := 1

def NGTCP2_WRITE_STREAM_FLAG_FIN : UInt32 := 2

/-- The value that `verifier_prep_vec` stores through `pfin`. -/
def pfin (v : Verifier) : Bool :=
  if v.slot.streamId ≠ -1 ∧ v.slot.nwrite < v.slot.datalen then true else false

/-- The flags that `verifier_flush_out` passes with its offer. -/
def writevFlags (v : Verifier) : UInt32 :=
  if v.pfin then NGTCP2_WRITE_STREAM_FLAG_MORE ||| NGTCP2_WRITE_STREAM_FLAG_FIN
  else NGTCP2_WRITE_STREAM_FLAG_MORE

/-- The step is no call of `verifier_verify_hash`, the only one that opens a
stream or copies to the slot. -/
def Flushes : VerifierStep → Prop
  | .verifyHash .. => False
  | _ => True

instance : DecidablePred Flushes := fun a =>
  match a with
  | .verifyHash .. => isFalse not_false
  | .flushEgress => isTrue trivial
  | .writev _ => isTrue trivial

/-- The library has taken the first `k` bytes of the message in `s`, which is
the slot as it was filled.  `before` is what the stream had accepted then. -/
structure SentUpTo (s : QuicStream) (before : Bytes) (k : Nat) (v : Verifier) :
    Prop where
  le : k ≤ s.datalen
  accepted : v.accepted s.streamId = before ++ s.data.take k
  slot : v.slot = { s with nwrite := k } ∨
    (k = s.datalen ∧ v.slot = resetSlot s)
  no_fault : v.phase ≠ .fault

/-- The message in `s` goes out in order.  Every offer is what is left of it, up
to its end, and carries the flag for the end of the stream.  Behind the reset
nothing is offered. -/
structure Resumes (s : QuicStream) (before : Bytes) (v : Verifier) : Prop where
  sent : ∃ k, SentUpTo s before k v
  offers : ∀ o ∈ v.verifierPrepVec.1, o.1 = s.streamId ∧
    o.2 = (s.data.take s.datalen).drop v.slot.nwrite ∧
    v.slot.nwrite + o.2.length = s.datalen ∧
    v.writevFlags &&& NGTCP2_WRITE_STREAM_FLAG_FIN ≠ 0
  done : v.slot = resetSlot s → v.verifierPrepVec.1 = none

theorem SentUpTo.of_phase {s : QuicStream} {before : Bytes} {k : Nat}
    (h : SentUpTo s before k v) {phase : VerifierPhase}
    (hphase : phase ≠ .fault) : SentUpTo s before k { v with phase := phase } :=
  ⟨h.le, h.accepted, h.slot, hphase⟩

/-- A round moves the end of what was sent. -/
theorem SentUpTo.round {s : QuicStream} {before : Bytes} {k : Nat}
    (h : SentUpTo s before k v) {u : Verifier} (hround : Round v u) :
    ∃ k', SentUpTo s before k' u := by
  cases hround with
  | same phase hphase hnone => exact ⟨k, h.of_phase hphase⟩
  | reset phase hphase hid hdone =>
    rcases h.slot with hslot | ⟨-, hslot⟩
    · rw [hslot] at hdone
      have hk : k = s.datalen := Nat.le_antisymm h.le hdone
      refine ⟨k, h.le, h.accepted, Or.inr ⟨hk, ?_⟩, hphase⟩
      show (v.setSlot (resetSlot v.slot)).slot = _
      rw [slot_setSlot, hslot]
      rfl
    · rw [hslot] at hid
      exact absurd rfl hid
  | took phase hphase hid hlt w hw =>
    rcases h.slot with hslot | ⟨-, hslot⟩
    · rw [hslot] at hlt hw ⊢
      have hlen : w ≤ s.datalen - k := by
        refine Nat.le_trans hw ?_
        rw [QuicStream.unsent]
        exact List.length_take_le _ _
      have hlt : k < s.datalen := hlt
      refine ⟨k + w, by omega, ?_, Or.inl ?_, hphase⟩
      · show Function.update v.accepted s.streamId _ s.streamId = _
        rw [Function.update_self, h.accepted, List.append_assoc]
        congr 1
        show s.data.take k ++ ((s.data.drop k).take (s.datalen - k)).take w = _
        rw [List.take_take, Nat.min_eq_left hlen, ← List.take_add]
      · show (v.setSlot (v.slot.advance w)).slot = _
        rw [slot_setSlot, hslot]
        rfl
    · rw [hslot] at hid
      exact absurd rfl hid

theorem SentUpTo.step {s : QuicStream} {before : Bytes}
    (h : ∃ k, SentUpTo s before k v) {a : VerifierStep} (ha : Flushes a) :
    ∃ k, SentUpTo s before k (v.step a) := by
  obtain ⟨k, hk⟩ := h
  have hto := v.stepTo_step a
  generalize v.step a = u at hto ⊢
  cases hto with
  | stutter => exact ⟨k, hk⟩
  | verifyHash streamId pathname hash hphase hfresh => exact ha.elim
  | flushEgress hphase => exact ⟨k, hk.of_phase (by simp)⟩
  | round r hphase hround => exact hk.round hround

/-- Where something is offered, the slot is not reset. -/
theorem SentUpTo.slot_of_open {s : QuicStream} {before : Bytes} {k : Nat}
    (h : SentUpTo s before k v) (hopen : v.slot.streamId ≠ -1) :
    v.slot = { s with nwrite := k } := by
  rcases h.slot with hslot | ⟨-, hslot⟩
  · exact hslot
  · rw [hslot] at hopen
    exact absurd rfl hopen

theorem SentUpTo.resumes {s : QuicStream} {before : Bytes} {k : Nat}
    (h : SentUpTo s before k v) (hlen : s.datalen ≤ STREAM_DATA_SIZE) :
    Resumes s before v := by
  refine ⟨⟨k, h⟩, ?_, ?_⟩
  · intro o ho
    rcases v.verifierPrepVec_cases with ⟨hopen, hlt, heq⟩ | ⟨-, -, heq⟩ |
      ⟨-, heq⟩ <;> rw [heq] at ho
    · obtain rfl : (v.slot.streamId, v.slot.unsent) = o := Option.some.inj ho
      have hslot := h.slot_of_open hopen
      have hfin : v.pfin = true := if_pos ⟨hopen, hlt⟩
      have hle := h.le
      have hdata := s.data_length
      refine ⟨by rw [hslot], ?_, ?_, ?_⟩
      · show v.slot.unsent = _
        rw [hslot, QuicStream.unsent, List.drop_take]
      · show v.slot.nwrite + v.slot.unsent.length = _
        rw [hslot, QuicStream.unsent, List.length_take, List.length_drop]
        show k + min (s.datalen - k) (s.data.length - k) = s.datalen
        omega
      · rw [writevFlags, hfin]
        decide
    · exact absurd ho (by simp)
    · exact absurd ho (by simp)
  · intro hreset
    rcases v.verifierPrepVec_cases with ⟨hopen, -, -⟩ | ⟨-, -, heq⟩ |
      ⟨-, heq⟩
    · rw [hreset] at hopen
      exact absurd rfl hopen
    · rw [heq]
    · rw [heq]

/-- From a slot that was just filled, every run of flushes sends the message in
order, and never uses the null pointer. -/
theorem partial_writes_resume (v : Verifier)
    (hlen : v.slot.datalen ≤ STREAM_DATA_SIZE) (hnew : v.slot.nwrite = 0)
    (hphase : v.phase ≠ .fault) (sched : List VerifierStep)
    (hflush : ∀ a ∈ sched, Flushes a) :
    Resumes v.slot (v.accepted v.slot.streamId)
      (run Verifier.step v sched) := by
  have hstart : SentUpTo v.slot (v.accepted v.slot.streamId) 0 v := by
    refine ⟨Nat.zero_le _, ?_, Or.inl ?_, hphase⟩
    · rw [List.take_zero, List.append_nil]
    · rw [← hnew]
  obtain ⟨k, hk⟩ := run_invariant_of_meets
    (P := fun u => ∃ k, SentUpTo v.slot (v.accepted v.slot.streamId) k u)
    (fun _ _ h ha => SentUpTo.step h ha) ⟨0, hstart⟩
    (meets_of_forall hflush v)
  exact hk.resumes hlen

/-- A message that just went to the slot, and then in three parts to the
library. -/
def filledRun : List VerifierStep :=
  [.verifyHash 0 [47, 97] (List.replicate 32 1)]

def partialRun : List VerifierStep :=
  [.writev (.writeMore 20), .writev (.packet (-1) true), .writev .zero,
    .flushEgress, .writev (.packet 13 false), .flushEgress,
    .writev (.packet 1 true), .writev .zero]

theorem partial_writes_resume_in_partialRun :
    let v := run Verifier.step verifierInit filledRun
    let u := run Verifier.step v partialRun
    Resumes v.slot (v.accepted v.slot.streamId) u ∧ v.slot.datalen = 34 ∧
      v.slot.streamId = 0 ∧ u.accepted 0 = v.slot.data.take 34 ∧
      u.slot = resetSlot v.slot :=
  ⟨partial_writes_resume _ (by decide +kernel) (by decide +kernel)
      (by decide +kernel) partialRun (by decide +kernel),
    by decide +kernel⟩

/-! ## Room for a message -/

/-- The steps of the verifier with an open connection, and the calls of
`verifier_verify_hash` that get no stream from the library.  `rv` is what
`ngtcp2_conn_open_bidi_stream` returns then. -/
inductive SlotStep where
  | call (a : VerifierStep)
  | refused (rv : Int) (pathname hash : Bytes)

/-- Errors of the library are negative. -/
def slotStep (v : Verifier) : SlotStep → Verifier
  | .call a => v.step a
  | .refused rv pathname hash =>
    if v.phase = .idle ∧ rv < 0 then
      v.verifierVerifyHash rv (-1) pathname hash
    else v

/-- A call of `verifier_verify_hash` gets a stream, and its message fits behind
the data that the slot holds. -/
def HasRoom (v : Verifier) : SlotStep → Prop
  | .call (.verifyHash streamId pathname hash) =>
    v.phase = .idle ∧ 0 ≤ streamId ∧ streamId ∉ v.opened →
      v.slot.datalen + hash.length + pathname.length ≤ STREAM_DATA_SIZE
  | .call _ => True
  | .refused rv _ _ => ¬ (v.phase = .idle ∧ rv < 0)

/-- The lengths of the slot are in range, and a slot without a stream is
empty. -/
structure SlotBounds (v : Verifier) : Prop where
  nwrite_le : v.slot.nwrite ≤ v.slot.datalen
  datalen_le : v.slot.datalen ≤ STREAM_DATA_SIZE
  closed : v.slot.streamId = -1 → v.slot.datalen = 0 ∧ v.slot.nwrite = 0

theorem slotBounds_verifierInit : verifierInit.SlotBounds :=
  ⟨Nat.le_refl _, Nat.zero_le _, fun _ => ⟨rfl, rfl⟩⟩

/-- Of the fields of the verifier, the bounds read the slot alone. -/
theorem SlotBounds.congr {u : Verifier} (h : v.SlotBounds)
    (hslot : u.slot = v.slot) : u.SlotBounds := by
  refine ⟨?_, ?_, ?_⟩ <;> rw [hslot]
  · exact h.nwrite_le
  · exact h.datalen_le
  · exact h.closed

theorem SlotBounds.round (h : v.SlotBounds) {u : Verifier}
    (hround : Round v u) : u.SlotBounds := by
  cases hround with
  | same phase hphase hnone => exact h.congr rfl
  | reset phase hphase hid hdone =>
    have hreset : (v.setSlot (resetSlot v.slot)).SlotBounds := by
      refine ⟨?_, ?_, ?_⟩ <;> rw [slot_setSlot]
      · exact Nat.le_refl 0
      · exact Nat.zero_le _
      · exact fun _ => ⟨rfl, rfl⟩
    exact hreset.congr rfl
  | took phase hphase hid hlt w hw =>
    have hlen : v.slot.unsent.length ≤ v.slot.datalen - v.slot.nwrite :=
      List.length_take_le ..
    have htook : (v.took v.slot.streamId v.slot.unsent w).SlotBounds := by
      refine ⟨?_, ?_, ?_⟩ <;> rw [slot_took]
      · show v.slot.nwrite + w ≤ v.slot.datalen
        omega
      · exact h.datalen_le
      · exact fun hno => absurd hno hid
    exact htook.congr rfl

/-- A call sets the number of the stream, whether or not the message fits, and
the lengths are what was copied. -/
theorem SlotBounds.verifyHash (h : v.SlotBounds) {streamId : Int}
    (hid : 0 ≤ streamId) (pathname hash : Bytes) :
    (v.verifierVerifyHash 0 streamId pathname hash).SlotBounds := by
  have hopen : streamId ≠ -1 := by omega
  by_cases hfit : v.slot.datalen + (hash ++ pathname).length ≤ STREAM_DATA_SIZE
  · have hcopied : (v.setSlot ((openedSlot v.slot streamId).append
        (hash ++ pathname) hfit)).SlotBounds := by
      refine ⟨?_, ?_, ?_⟩ <;> rw [slot_setSlot]
      · exact Nat.le_trans h.nwrite_le (Nat.le_add_right ..)
      · exact hfit
      · exact fun hno => absurd hno hopen
    rw [v.verifierVerifyHash_of_fits streamId hfit]
    exact hcopied.congr rfl
  · have hopened : (v.setSlot (openedSlot v.slot streamId)).SlotBounds := by
      refine ⟨?_, ?_, ?_⟩ <;> rw [slot_setSlot]
      · exact h.nwrite_le
      · exact h.datalen_le
      · exact fun hno => absurd hno hopen
    rw [v.verifierVerifyHash_of_not_fits streamId hfit]
    exact hopened.congr rfl

theorem SlotBounds.slotStep (h : v.SlotBounds) (a : SlotStep) :
    (v.slotStep a).SlotBounds := by
  cases a with
  | call a =>
    show (v.step a).SlotBounds
    have hto := v.stepTo_step a
    generalize v.step a = u at hto ⊢
    cases hto with
    | stutter => exact h
    | verifyHash streamId pathname hash hphase hfresh =>
      exact h.verifyHash hfresh.1 pathname hash
    | flushEgress hphase => exact h.congr rfl
    | round r hphase hround => exact h.round hround
  | refused rv pathname hash =>
    simp only [Verifier.slotStep]
    split_ifs with hcall
    · rw [v.verifierVerifyHash_of_refused hcall.2]
      exact h.congr rfl
    · exact h

theorem no_fault_of_flushes (hphase : v.phase ≠ .fault) {a : VerifierStep}
    (ha : Flushes a) : (v.step a).phase ≠ .fault := by
  have hto := v.stepTo_step a
  generalize v.step a = u at hto ⊢
  cases hto with
  | stutter => exact hphase
  | verifyHash _ _ _ hidle hfresh => exact ha.elim
  | flushEgress hidle => simp
  | round r _ hround => exact hround.phase_ne_fault

/-- A step goes wrong exactly where a call finds no room. -/
theorem fault_slotStep_iff (hphase : v.phase ≠ .fault) (a : SlotStep) :
    (v.slotStep a).phase ≠ .fault ↔ v.HasRoom a := by
  cases a with
  | call a =>
    show (v.step a).phase ≠ .fault ↔ _
    cases a with
    | verifyHash streamId pathname hash =>
      show _ ↔ (_ → _)
      rw [Nat.add_assoc, ← List.length_append, step_verifyHash]
      split_ifs with hcall
      · rw [forall_prop_of_true hcall]
        by_cases hfit : v.slot.datalen + (hash ++ pathname).length ≤
            STREAM_DATA_SIZE
        · rw [v.verifierVerifyHash_of_fits streamId hfit]
          exact iff_of_true (by simp) hfit
        · rw [v.verifierVerifyHash_of_not_fits streamId hfit]
          exact iff_of_false (by simp) hfit
      · exact iff_of_true hphase fun hyes => absurd hyes hcall
    | flushEgress => exact iff_of_true (no_fault_of_flushes hphase trivial) trivial
    | writev r => exact iff_of_true (no_fault_of_flushes hphase trivial) trivial
  | refused rv pathname hash =>
    show _ ↔ ¬ _
    simp only [slotStep]
    split_ifs with hcall
    · rw [v.verifierVerifyHash_of_refused hcall.2]
      exact iff_of_false (by simp) (not_not_intro hcall)
    · exact iff_of_true hphase hcall

/-- After a fault nothing runs. -/
theorem slotStep_of_fault (hphase : v.phase = .fault) (a : SlotStep) :
    v.slotStep a = v := by
  cases a with
  | call a => cases a <;> simp [slotStep, Verifier.step, hphase]
  | refused rv pathname hash => simp [slotStep, hphase]

/-- A run stays inside the buffer exactly when every call of
`verifier_verify_hash` finds room in the slot. -/
theorem buffer_in_bounds_iff (sched : List SlotStep) :
    let v := run slotStep verifierInit sched
    (v.SlotBounds ∧ v.phase ≠ .fault) ↔
      Meets slotStep HasRoom verifierInit sched := by
  intro v
  have hstart : verifierInit.SlotBounds ∧ verifierInit.phase ≠ .fault :=
    ⟨slotBounds_verifierInit, by simp [verifierInit]⟩
  refine (run_iff_meets (I := SlotBounds) (A := fun _ => True)
    (P := fun v => v.SlotBounds ∧ v.phase ≠ .fault)
    (fun v a h => h.slotStep a) (fun _ _ _ => trivial) ?_
    slotBounds_verifierInit trivial).trans (and_iff_right hstart)
  intro v a hbounds _
  rw [and_iff_right (hbounds.slotStep a), and_iff_right hbounds]
  by_cases hphase : v.phase = .fault
  · rw [slotStep_of_fault hphase]
    exact iff_of_false (not_not_intro hphase) (fun h => h.1 hphase)
  · rw [fault_slotStep_iff hphase, and_iff_right hphase]

/-- Two messages with paths of 127 bytes, and the library takes nothing of the
first one. -/
def overflowRun : List SlotStep :=
  [.call (.verifyHash 0 (List.replicate 127 47) (List.replicate 32 1)),
    .call (.writev .zero),
    .call (.verifyHash 4 (List.replicate 127 47) (List.replicate 32 2))]

/-- The second message is copied over the end of the buffer. -/
theorem buffer_overflown_by_second_message :
    let v := run slotStep verifierInit (overflowRun.take 2)
    let u := run slotStep verifierInit overflowRun
    v.slot.datalen = 159 ∧ 159 + 32 + 127 > STREAM_DATA_SIZE ∧
      u.phase = .fault ∧ ¬ (u.SlotBounds ∧ u.phase ≠ .fault) := by
  have hfault : (run slotStep verifierInit overflowRun).phase = .fault := by
    decide +kernel
  exact ⟨by decide +kernel, by decide, hfault, fun h => h.2 hfault⟩

end Verifier

end Ride
