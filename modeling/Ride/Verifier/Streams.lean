import Ride.Verifier.Rounds

/-!
# One stream, one message

A message is copied behind the data of the slot `0`, and the slot gets the number
of the new stream, whether or not the last message was sent.  What was left of
the last message then goes out on the new stream.  `message_on_foreign_stream` is
such a run.

Where the slot is drained before every call of `verifier_verify_hash`, the bytes
that were accepted for a stream and the bytes that are left in the slot are the
message of the stream.  `Verifier.Inv` is this invariant, and
`streams_carry_messages_when_drained` is the result.
-/

namespace Ride

open CodeLib.Machine

namespace Verifier

variable {v : Verifier}

/-! ## The invariant -/

/-- The slot holds bytes that are to go out on the stream. -/
def Writing (v : Verifier) (id : Int) : Prop :=
  v.slot.streamId = id ∧ v.slot.nwrite < v.slot.datalen

/-- Every stream has accepted a beginning of its message, and a stream that is
not being written has accepted all of it.  Nothing goes out on a stream that was
not opened for a message. -/
structure OneMessage (v : Verifier) : Prop where
  carried : ∀ id msg, v.message id = some msg → v.accepted id <+: msg
  whole : ∀ id msg, v.message id = some msg → ¬ v.Writing id →
    v.accepted id = msg
  foreign : ∀ id, v.message id = none → v.accepted id = []

/-- What a stream has accepted and what the slot holds for it are its
message. -/
structure Inv (v : Verifier) : Prop where
  nwrite_le : v.slot.nwrite ≤ v.slot.datalen
  datalen_le : v.slot.datalen ≤ STREAM_DATA_SIZE
  no_fault : v.phase ≠ .fault
  opened : ∀ id, v.message id ≠ none → id ∈ v.opened ∧ 0 ≤ id
  writing : v.slot.nwrite < v.slot.datalen →
    v.message v.slot.streamId =
      some (v.accepted v.slot.streamId ++ v.slot.unsent)
  whole : ∀ id msg, v.message id = some msg → ¬ v.Writing id →
    v.accepted id = msg
  foreign : ∀ id, v.message id = none → v.accepted id = []

theorem Inv.oneMessage (h : v.Inv) : v.OneMessage := by
  refine ⟨?_, h.whole, h.foreign⟩
  intro id msg hmsg
  by_cases hid : v.Writing id
  · obtain ⟨rfl, hlt⟩ := hid
    rw [h.writing hlt, Option.some.injEq] at hmsg
    rw [← hmsg]
    exact List.prefix_append _ _
  · exact h.whole id msg hmsg hid ▸ List.prefix_rfl

theorem inv_verifierInit : verifierInit.Inv :=
  ⟨Nat.le_refl _, Nat.zero_le _, by simp [verifierInit],
    fun _ hno => absurd rfl hno, fun hlt => absurd hlt (Nat.lt_irrefl 0),
    fun _ _ hmsg => absurd hmsg (by simp [verifierInit]), fun _ _ => rfl⟩

/-- A change of the phase alone. -/
theorem Inv.of_phase (h : v.Inv) {phase : VerifierPhase}
    (hphase : phase ≠ .fault) : { v with phase := phase }.Inv :=
  ⟨h.nwrite_le, h.datalen_le, hphase, h.opened, h.writing, h.whole, h.foreign⟩

/-! ## A new message -/

/-- The bytes behind a copy to the end of the data. -/
theorem unsent_append (s : QuicStream) (bytes : Bytes)
    (hfit : s.datalen + bytes.length ≤ STREAM_DATA_SIZE)
    (hle : s.nwrite ≤ s.datalen) :
    (s.append bytes hfit).unsent = s.unsent ++ bytes := by
  have hdata : s.datalen + bytes.length ≤ s.data.length := by
    rw [s.data_length]
    exact hfit
  have hlen : (s.data.take s.datalen).length = s.datalen := by
    rw [List.length_take]
    omega
  show ((memcpy s.data s.datalen bytes).drop s.nwrite).take
    (s.datalen + bytes.length - s.nwrite) = _
  rw [← List.drop_take, take_memcpy hdata, List.drop_append_of_le_length
    (by rw [hlen]; exact hle), List.drop_take, QuicStream.unsent]

theorem unsent_of_drained {s : QuicStream} (h : s.nwrite = s.datalen) :
    s.unsent = [] := by
  rw [QuicStream.unsent, h, Nat.sub_self, List.take_zero]

/-- A call of `verifier_verify_hash` finds the slot drained, and the message
fits behind the data that the slot has held. -/
def SlotDrained (v : Verifier) : VerifierStep → Prop
  | .verifyHash _ pathname hash => v.phase = .idle →
      v.slot.nwrite = v.slot.datalen ∧
        v.slot.datalen + hash.length + pathname.length ≤ STREAM_DATA_SIZE
  | _ => True

instance (v : Verifier) : DecidablePred v.SlotDrained := fun a =>
  match a with
  | .verifyHash _ _ _ => inferInstanceAs (Decidable (_ → _ ∧ _))
  | .flushEgress => isTrue trivial
  | .writev _ => isTrue trivial

theorem Inv.verifyHash (h : v.Inv) {streamId : Int} (hid : 0 ≤ streamId)
    (hfresh : streamId ∉ v.opened) {pathname hash : Bytes}
    (hdrained : v.slot.nwrite = v.slot.datalen)
    (hfit : v.slot.datalen + hash.length + pathname.length ≤
      STREAM_DATA_SIZE) :
    (v.verifierVerifyHash 0 streamId pathname hash).Inv := by
  rw [Nat.add_assoc, ← List.length_append] at hfit
  obtain ⟨s, hs⟩ : ∃ s, s = (openedSlot v.slot streamId).append
    (hash ++ pathname) hfit := ⟨_, rfl⟩
  have hsid : s.streamId = streamId := hs ▸ rfl
  have hnwrite : s.nwrite = v.slot.nwrite := hs ▸ rfl
  have hdatalen : s.datalen = v.slot.datalen + (hash ++ pathname).length :=
    hs ▸ rfl
  have hrest : s.unsent = hash ++ pathname := by
    have hunsent := unsent_append (openedSlot v.slot streamId)
      (hash ++ pathname) hfit h.nwrite_le
    rw [← hs, unsent_of_drained (s := openedSlot v.slot streamId) hdrained,
      List.nil_append] at hunsent
    exact hunsent
  rw [v.verifierVerifyHash_of_fits streamId hfit, ← hs]
  have hnew : v.message streamId = none := by
    by_contra hno
    exact hfresh (h.opened streamId hno).1
  have hidle : ∀ id, ¬ v.Writing id := by
    rintro id ⟨-, hlt⟩
    omega
  refine ⟨?_, ?_, by simp, ?_, ?_, ?_, ?_⟩
  · show (v.setSlot s).slot.nwrite ≤ (v.setSlot s).slot.datalen
    rw [slot_setSlot]
    omega
  · show (v.setSlot s).slot.datalen ≤ _
    rw [slot_setSlot, hdatalen]
    exact hfit
  · intro id hmsg
    by_cases heqid : id = streamId
    · subst heqid
      exact ⟨List.mem_cons_self .., hid⟩
    · simp only [Function.update_of_ne heqid] at hmsg
      obtain ⟨hmem, hpos⟩ := h.opened id hmsg
      exact ⟨List.mem_cons_of_mem _ hmem, hpos⟩
  · intro _
    show Function.update v.message streamId _ (v.setSlot s).slot.streamId =
      some (v.accepted (v.setSlot s).slot.streamId ++ (v.setSlot s).slot.unsent)
    rw [slot_setSlot, hsid, Function.update_self, h.foreign _ hnew, hrest,
      List.nil_append]
  · intro id msg hmsg hnot
    by_cases heqid : id = streamId
    · subst heqid
      simp only [Function.update_self, Option.some.injEq] at hmsg
      have hzero : (hash ++ pathname).length = 0 := by
        by_contra hpos
        refine hnot ⟨?_, ?_⟩
        · show (v.setSlot s).slot.streamId = id
          rw [slot_setSlot, hsid]
        · show (v.setSlot s).slot.nwrite < (v.setSlot s).slot.datalen
          rw [slot_setSlot]
          omega
      rw [← hmsg, List.length_eq_zero_iff.mp hzero]
      exact h.foreign _ hnew
    · simp only [Function.update_of_ne heqid] at hmsg
      exact h.whole id msg hmsg (hidle id)
  · intro id hmsg
    by_cases heqid : id = streamId
    · subst heqid
      simp only [Function.update_self] at hmsg
      exact absurd hmsg (by simp)
    · simp only [Function.update_of_ne heqid] at hmsg
      exact h.foreign id hmsg

/-! ## The loop -/

theorem Inv.length_unsent (h : v.Inv) :
    v.slot.unsent.length = v.slot.datalen - v.slot.nwrite := by
  have hle := h.datalen_le
  rw [QuicStream.unsent, List.length_take, List.length_drop,
    v.slot.data_length]
  omega

/-- The slot is reset when nothing is left of it. -/
theorem Inv.reset (h : v.Inv) (hdone : v.slot.datalen ≤ v.slot.nwrite) :
    (v.setSlot (resetSlot v.slot)).Inv := by
  refine ⟨?_, ?_, h.no_fault, h.opened, ?_, ?_, h.foreign⟩
  · rw [slot_setSlot]
    exact Nat.le_refl 0
  · rw [slot_setSlot]
    exact Nat.zero_le _
  · rw [slot_setSlot]
    exact fun hlt => absurd hlt (Nat.lt_irrefl 0)
  · intro id msg hmsg _
    exact h.whole id msg hmsg fun hwriting =>
      Nat.not_lt.mpr hdone hwriting.2

theorem unsent_advance (s : QuicStream) (w : Nat) :
    (s.advance w).unsent = s.unsent.drop w := by
  show (s.data.drop (s.nwrite + w)).take (s.datalen - (s.nwrite + w)) = _
  rw [QuicStream.unsent, List.drop_take, List.drop_drop, Nat.sub_sub]

/-- The library takes a part of what is left. -/
theorem Inv.took (h : v.Inv) (hlt : v.slot.nwrite < v.slot.datalen) {w : Nat}
    (hw : w ≤ v.slot.unsent.length) :
    (v.took v.slot.streamId v.slot.unsent w).Inv := by
  have hlen := h.length_unsent
  have hmsg := h.writing hlt
  have hacc : (v.took v.slot.streamId v.slot.unsent w).accepted
      v.slot.streamId = v.accepted v.slot.streamId ++ v.slot.unsent.take w :=
    Function.update_self ..
  refine ⟨?_, ?_, h.no_fault, h.opened, ?_, ?_, ?_⟩
  · rw [slot_took]
    show v.slot.nwrite + w ≤ v.slot.datalen
    omega
  · rw [slot_took]
    exact h.datalen_le
  · intro _
    rw [slot_took, unsent_advance]
    show v.message v.slot.streamId = some
      ((v.took v.slot.streamId v.slot.unsent w).accepted v.slot.streamId ++ _)
    rw [hacc, List.append_assoc, List.take_append_drop]
    exact hmsg
  · intro id msg hid hnot
    by_cases heq : id = v.slot.streamId
    · subst heq
      -- nothing is left, so the library has taken all of it
      have hall : v.slot.unsent.take w = v.slot.unsent := by
        apply List.take_of_length_le
        by_contra hmore
        refine hnot ⟨?_, ?_⟩
        · rw [slot_took]
          rfl
        · rw [slot_took]
          show v.slot.nwrite + w < v.slot.datalen
          omega
      rw [hacc, hall]
      exact Option.some.inj (hmsg.symm.trans hid)
    · show Function.update v.accepted v.slot.streamId _ id = msg
      rw [Function.update_of_ne heq]
      exact h.whole id msg hid fun hwriting => heq hwriting.1.symm
  · intro id hid
    have heq : id ≠ v.slot.streamId := by
      rintro rfl
      have hid : v.message v.slot.streamId = none := hid
      rw [hmsg] at hid
      exact absurd hid (by simp)
    show Function.update v.accepted v.slot.streamId _ id = []
    rw [Function.update_of_ne heq]
    exact h.foreign id hid

theorem Inv.round (h : v.Inv) {u : Verifier} (hround : Round v u) : u.Inv := by
  cases hround with
  | same phase hphase hnone => exact h.of_phase hphase
  | reset phase hphase hid hdone => exact (h.reset hdone).of_phase hphase
  | took phase hphase hid hlt w hw => exact (h.took hlt hw).of_phase hphase

/-! ## The runs -/

theorem Inv.step (h : v.Inv) (a : VerifierStep) (hdrained : v.SlotDrained a) :
    (v.step a).Inv := by
  have hto := v.stepTo_step a
  generalize v.step a = u at hto ⊢
  cases hto with
  | stutter => exact h
  | verifyHash streamId pathname hash hphase hfresh =>
    obtain ⟨hempty, hfit⟩ := hdrained hphase
    exact h.verifyHash hfresh.1 hfresh.2 hempty hfit
  | flushEgress hphase => exact h.of_phase (by simp)
  | round r hphase hround => exact h.round hround

/-- In every run in which `verifier_verify_hash` finds the slot drained and the
message fits, every stream carries its own message and no other bytes. -/
theorem streams_carry_messages_when_drained (sched : List VerifierStep)
    (hdrained : Meets Verifier.step SlotDrained verifierInit sched) :
    let v := run Verifier.step verifierInit sched
    v.OneMessage ∧ v.phase ≠ .fault := by
  intro v
  have hinv : v.Inv :=
    run_invariant_of_meets (fun _ a h => h.step a) inv_verifierInit hdrained
  exact ⟨hinv.oneMessage, hinv.no_fault⟩

/-- Two messages, and the library takes the first one in two parts. -/
def drainedRun : List VerifierStep :=
  [.verifyHash 0 [47, 97] (List.replicate 32 1), .writev (.writeMore 20),
    .writev .zero, .flushEgress, .writev (.packet 14 true), .writev .zero,
    .verifyHash 4 [47, 98] (List.replicate 32 2), .writev (.packet 34 false)]

theorem streams_carry_messages_in_drainedRun :
    let v := run Verifier.step verifierInit drainedRun
    v.accepted 0 = List.replicate 32 1 ++ [47, 97] ∧
      v.accepted 4 = List.replicate 32 2 ++ [47, 98] ∧
      v.OneMessage ∧ v.phase ≠ .fault :=
  ⟨by decide +kernel, by decide +kernel,
    streams_carry_messages_when_drained drainedRun (by decide +kernel)⟩

/-- The library takes nothing of the first message before the second one
comes. -/
def blockedRun : List VerifierStep :=
  [.verifyHash 0 [47, 97] (List.replicate 32 1), .writev .zero,
    .verifyHash 4 [47, 98] (List.replicate 32 2), .writev (.packet 68 true),
    .writev .zero]

/-- Both messages go out on the stream of the second one, and the stream of the
first one carries nothing. -/
theorem message_on_foreign_stream :
    let v := run Verifier.step verifierInit blockedRun
    v.message 0 = some (List.replicate 32 1 ++ [47, 97]) ∧ v.accepted 0 = [] ∧
      v.message 4 = some (List.replicate 32 2 ++ [47, 98]) ∧
      v.accepted 4 = List.replicate 32 1 ++ [47, 97] ++
        (List.replicate 32 2 ++ [47, 98]) ∧
      v.slot.nwrite = v.slot.datalen := by
  decide +kernel

end Verifier

end Ride
