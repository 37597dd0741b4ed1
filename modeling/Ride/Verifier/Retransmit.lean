import Ride.Verifier.Slot

/-!
# Bytes that may be sent again

The library keeps no copy of the bytes that it takes.  It remembers where they
are in the buffer of the slot, and reads them once more when a packet is lost,
until the peer acknowledges them.  `verifier_prep_vec` resets the slot as soon as
the library has taken all of it, and no callback tells the verifier about an
acknowledgement, so that the next message is copied over bytes that may still be
read.  `message_overwritten_before_ack` is such a run.

`Session` is the verifier with the bytes that are not acknowledged.  A loss needs
no step of its own: the library may read such a byte again in every state, and
`stream_data_intact_iff` is about every state of a run.
-/

namespace Ride

open CodeLib.Machine

/-- A byte that the library has taken: its place in the stream, and the place in
the array `data` that the library reads it from. -/
structure SentByte where
  stream : Int
  offset : Nat
  pos : Nat
deriving DecidableEq

/-- The verifier, and the bytes that the peer has not acknowledged. -/
structure Session where
  verifier : Verifier
  unacked : List SentByte

/-- A step of the verifier, or an acknowledgement of a range of a stream. -/
inductive SessionStep where
  | call (a : Verifier.SlotStep)
  | ack (stream : Int) (first last : Nat)

namespace Session

open Verifier

variable {s : Session}

/-- `verifier_init`, before any byte is sent. -/
def start : Session := ⟨verifierInit, []⟩

/-- The bytes that the library takes in the step from `v` to `u`.  The offer
starts at `data + nwrite` and goes to the stream of the slot. -/
def newlySent (v u : Verifier) : List SentByte :=
  let stream := v.slot.streamId
  let before := (v.accepted stream).length
  (List.range ((u.accepted stream).length - before)).map fun i =>
    ⟨stream, before + i, v.slot.nwrite + i⟩

/-- One step.  The peer may acknowledge any range at any time. -/
def step (s : Session) : SessionStep → Session
  | .call a =>
    let u := s.verifier.slotStep a
    ⟨u, newlySent s.verifier u ++ s.unacked⟩
  | .ack stream first last =>
    { s with unacked := s.unacked.filter fun b =>
        !(b.stream = stream ∧ first ≤ b.offset ∧ b.offset < last) }

/-- The byte that the library reads when it sends `b` again. -/
def retransmitted (s : Session) (b : SentByte) : Option UInt8 :=
  s.verifier.slot.data[b.pos]?

/-- The byte that the library took at first. -/
def firstSent (s : Session) (b : SentByte) : Option UInt8 :=
  (s.verifier.accepted b.stream)[b.offset]?

/-- The byte can be sent again. -/
def ByteIntact (s : Session) (b : SentByte) : Prop :=
  ∃ c, s.retransmitted b = some c ∧ s.firstSent b = some c

/-- What is sent again is what was sent at first, and no copy left the
buffer. -/
structure Intact (s : Session) : Prop where
  bytes : ∀ b ∈ s.unacked, s.ByteIntact b
  no_fault : s.verifier.phase ≠ .fault

/-- A call copies no other byte over one that is not acknowledged. -/
def Spares (s : Session) : SlotStep → Prop
  | .call (.verifyHash streamId pathname hash) =>
    s.verifier.phase = .idle ∧ 0 ≤ streamId ∧ streamId ∉ s.verifier.opened →
      ∀ b ∈ s.unacked, s.verifier.slot.datalen ≤ b.pos →
        ∀ c ∈ (hash ++ pathname)[b.pos - s.verifier.slot.datalen]?,
          s.retransmitted b = some c
  | _ => True

instance (s : Session) : DecidablePred s.Spares := fun a =>
  match a with
  | .call (.verifyHash _ _ _) =>
    inferInstanceAs (Decidable (_ → ∀ b ∈ s.unacked, _ → ∀ c ∈ _, _))
  | .call .flushEgress => isTrue trivial
  | .call (.writev _) => isTrue trivial
  | .refused _ _ _ => isTrue trivial

/-- A call finds room for its message behind the data of the slot, and what is
there is acknowledged. -/
def RoomAndAcked (s : Session) : SessionStep → Prop
  | .call a => s.verifier.HasRoom a ∧ s.Spares a
  | .ack .. => True

/-! ## The bytes of a round -/

/-- Nothing is sent where the streams stay as they are. -/
theorem newlySent_of_accepted {v u : Verifier} (h : u.accepted = v.accepted) :
    newlySent v u = [] := by
  simp only [newlySent, h, Nat.sub_self, List.range_zero, List.map_nil]

/-- Of a step that changes neither the buffer nor the streams. -/
theorem Intact.of_same (h : s.Intact) {u : Verifier}
    (hdata : u.slot.data = s.verifier.slot.data)
    (hacc : u.accepted = s.verifier.accepted) (hphase : u.phase ≠ .fault) :
    Intact ⟨u, newlySent s.verifier u ++ s.unacked⟩ := by
  refine ⟨?_, hphase⟩
  rw [newlySent_of_accepted hacc, List.nil_append]
  intro b hb
  obtain ⟨c, hread, hfirst⟩ := h.bytes b hb
  refine ⟨c, ?_, ?_⟩
  · show u.slot.data[b.pos]? = some c
    rw [hdata]
    exact hread
  · show (u.accepted b.stream)[b.offset]? = some c
    rw [hacc]
    exact hfirst

/-- The bytes that the library takes are the bytes that it will read again. -/
theorem Intact.took (h : s.Intact) {w : Nat}
    (hw : w ≤ s.verifier.slot.unsent.length) {phase : VerifierPhase}
    (hphase : phase ≠ .fault) :
    let u : Verifier := { s.verifier.took s.verifier.slot.streamId
      s.verifier.slot.unsent w with phase := phase }
    Intact ⟨u, newlySent s.verifier u ++ s.unacked⟩ := by
  intro u
  have hslot : u.slot.data = s.verifier.slot.data := by
    show (s.verifier.setSlot (s.verifier.slot.advance w)).slot.data = _
    rw [slot_setSlot]
    rfl
  have hself : u.accepted s.verifier.slot.streamId =
      s.verifier.accepted s.verifier.slot.streamId ++
        s.verifier.slot.unsent.take w := Function.update_self ..
  refine ⟨?_, hphase⟩
  intro b hb
  rcases List.mem_append.mp hb with hnew | hold
  · obtain ⟨i, hi, rfl⟩ := List.mem_map.mp hnew
    rw [List.mem_range, hself, List.length_append, Nat.add_sub_cancel_left,
      List.length_take, Nat.min_eq_left hw] at hi
    have hget : s.verifier.slot.unsent[i]? =
        s.verifier.slot.data[s.verifier.slot.nwrite + i]? := by
      have hlt : i < s.verifier.slot.datalen - s.verifier.slot.nwrite :=
        Nat.lt_of_lt_of_le hi (Nat.le_trans hw (List.length_take_le ..))
      rw [QuicStream.unsent, List.getElem?_take_of_lt hlt, List.getElem?_drop]
    obtain ⟨c, hsome⟩ : ∃ c, s.verifier.slot.unsent[i]? = some c :=
      ⟨_, List.getElem?_eq_getElem (Nat.lt_of_lt_of_le hi hw)⟩
    refine ⟨c, ?_, ?_⟩
    · show u.slot.data[s.verifier.slot.nwrite + i]? = _
      rw [hslot, ← hget, hsome]
    · show (u.accepted s.verifier.slot.streamId)[_ + i]? = _
      rw [hself, List.getElem?_append_right (Nat.le_add_right ..),
        Nat.add_sub_cancel_left, List.getElem?_take_of_lt hi, hsome]
  · obtain ⟨c, hread, hfirst⟩ := h.bytes b hold
    refine ⟨c, ?_, ?_⟩
    · show u.slot.data[b.pos]? = some c
      rw [hslot]
      exact hread
    · show (u.accepted b.stream)[b.offset]? = some c
      by_cases hid : b.stream = s.verifier.slot.streamId
      · have hfirst : (s.verifier.accepted b.stream)[b.offset]? = some c :=
          hfirst
        rw [hid] at hfirst ⊢
        obtain ⟨hlt, -⟩ := List.getElem?_eq_some_iff.mp hfirst
        rw [hself, List.getElem?_append_left hlt]
        exact hfirst
      · show (Function.update s.verifier.accepted _ _ b.stream)[_]? = some c
        rw [Function.update_of_ne hid]
        exact hfirst

/-! ## A new message -/

/-- A message that fits leaves exactly the bytes intact that it spares. -/
theorem intact_verifyHash_iff (h : s.Intact) {streamId : Int}
    {pathname hash : Bytes} (hfit : s.verifier.slot.datalen +
      (hash ++ pathname).length ≤ STREAM_DATA_SIZE) :
    let u := s.verifier.verifierVerifyHash 0 streamId pathname hash
    Intact ⟨u, newlySent s.verifier u ++ s.unacked⟩ ↔
      ∀ b ∈ s.unacked, s.verifier.slot.datalen ≤ b.pos →
        ∀ c ∈ (hash ++ pathname)[b.pos - s.verifier.slot.datalen]?,
          s.retransmitted b = some c := by
  intro u
  have hu := s.verifier.verifierVerifyHash_of_fits streamId hfit
  have hacc : u.accepted = s.verifier.accepted := by
    simp only [u, hu]
    rfl
  have hphase : u.phase ≠ .fault := by simp [u, hu]
  have hdata : u.slot.data = memcpy s.verifier.slot.data
      s.verifier.slot.datalen (hash ++ pathname) := by
    simp only [u, hu]
    show (s.verifier.setSlot _).slot.data = _
    rw [slot_setSlot]
    rfl
  have hread (b : SentByte) : u.slot.data[b.pos]? =
      if s.verifier.slot.datalen ≤ b.pos ∧ b.pos <
        s.verifier.slot.datalen + (hash ++ pathname).length then
        (hash ++ pathname)[b.pos - s.verifier.slot.datalen]?
      else s.retransmitted b := by
    rw [hdata, getElem?_memcpy (s.verifier.slot.data_length ▸ hfit)]
    rfl
  rw [newlySent_of_accepted hacc, List.nil_append]
  constructor
  · intro hnew b hb hpos c hc
    obtain ⟨d, hd, hfirst⟩ := hnew.bytes b hb
    obtain ⟨e, hold, hfirst'⟩ := h.bytes b hb
    have hlt := (List.getElem?_eq_some_iff.mp hc).1
    have hd : u.slot.data[b.pos]? = some d := hd
    rw [hread, if_pos ⟨hpos, by omega⟩, hc, Option.some.injEq] at hd
    have hfirst : (u.accepted b.stream)[b.offset]? = some d := hfirst
    rw [hacc] at hfirst
    rw [hold, ← hfirst', hd]
    exact hfirst
  · intro hspared
    refine ⟨?_, hphase⟩
    intro b hb
    obtain ⟨e, hold, hfirst⟩ := h.bytes b hb
    refine ⟨e, ?_, ?_⟩
    · show u.slot.data[b.pos]? = some e
      rw [hread]
      split_ifs with hover
      · have hsome := List.getElem?_eq_getElem (l := hash ++ pathname)
          (i := b.pos - s.verifier.slot.datalen) (by omega)
        have hsame := hspared b hb hover.1 _ hsome
        rw [hsome, ← hsame]
        exact hold
      · exact hold
    · show (u.accepted b.stream)[b.offset]? = some e
      rw [hacc]
      exact hfirst

/-! ## The runs -/

theorem Intact.ack (h : s.Intact) (stream : Int) (first last : Nat) :
    (s.step (.ack stream first last)).Intact :=
  ⟨fun b hb => h.bytes b (List.mem_of_mem_filter hb), h.no_fault⟩

/-- A flush copies nothing to the buffer. -/
theorem Intact.flushes (h : s.Intact) {a : VerifierStep} (ha : Flushes a) :
    (s.step (.call (.call a))).Intact := by
  have hto := s.verifier.stepTo_step a
  simp only [step, slotStep]
  generalize s.verifier.step a = u at hto ⊢
  cases hto with
  | stutter => exact h.of_same rfl rfl h.no_fault
  | verifyHash streamId pathname hash hphase hfresh => exact ha.elim
  | flushEgress hphase => exact h.of_same rfl rfl (by simp)
  | round r hphase hround =>
    cases hround with
    | same phase hok hnone => exact h.of_same rfl rfl hok
    | reset phase hok hid hdone =>
      refine h.of_same ?_ rfl hok
      show (s.verifier.setSlot _).slot.data = _
      rw [slot_setSlot]
      rfl
    | took phase hok hid hlt w hw => exact h.took hw hok

theorem intact_call_iff (h : s.Intact) (a : SlotStep) :
    (s.step (.call a)).Intact ↔ s.verifier.HasRoom a ∧ s.Spares a := by
  -- without room the step is a fault, and neither side holds
  rw [← fault_slotStep_iff h.no_fault a]
  by_cases hroom : (s.verifier.slotStep a).phase ≠ .fault
  case neg =>
    exact iff_of_false (fun hnew : Intact _ => hroom hnew.no_fault)
      (fun hok => hroom hok.1)
  rw [and_iff_right hroom]
  have hfit := (fault_slotStep_iff h.no_fault a).mp hroom
  cases a with
  | call a =>
    cases a with
    | verifyHash streamId pathname hash =>
      have hfit : _ → _ := hfit
      show Intact ⟨s.verifier.step _, newlySent _ (s.verifier.step _) ++ _⟩ ↔
        (_ → _)
      rw [step_verifyHash]
      split_ifs with hcall
      · have hfit := hfit hcall
        rw [Nat.add_assoc, ← List.length_append] at hfit
        rw [forall_prop_of_true hcall]
        exact intact_verifyHash_iff h hfit
      · exact iff_of_true (h.of_same rfl rfl h.no_fault)
          fun hyes => absurd hyes hcall
    | flushEgress => exact iff_of_true (h.flushes trivial) trivial
    | writev r => exact iff_of_true (h.flushes trivial) trivial
  | refused rv pathname hash =>
    refine iff_of_true ?_ trivial
    have hsame : s.verifier.slotStep (.refused rv pathname hash) =
      s.verifier := if_neg hfit
    simp only [step, hsame]
    exact h.of_same rfl rfl h.no_fault

/-- In every state of a run, what the library would send again is what it sent
at first, exactly when every call of `verifier_verify_hash` finds room for its
message and copies it over acknowledged bytes. -/
theorem stream_data_intact_iff (sched : List SessionStep) :
    (∀ pre, pre <+: sched → (run step start pre).Intact) ↔
      Meets step RoomAndAcked start sched := by
  refine states_iff_meets ?_ ⟨fun b hb => absurd hb (by simp [start]),
    by simp [start, verifierInit]⟩ sched
  intro s a h
  cases a with
  | call a => exact intact_call_iff h a
  | ack stream first last => exact iff_of_true (h.ack ..) trivial

/-- A message goes out, and the next one comes before the acknowledgement. -/
def lossyRun : List SessionStep :=
  [.call (.call (.verifyHash 0 [47, 97] (List.replicate 32 1))),
    .call (.call (.writev (.packet 34 true))), .call (.call (.writev .zero)),
    .call (.call (.verifyHash 4 [47, 98] (List.replicate 32 2)))]

/-- The library sends the digest of the second message on the stream of the
first one. -/
theorem message_overwritten_before_ack :
    let s := run step start lossyRun
    let b : SentByte := ⟨0, 0, 0⟩
    b ∈ s.unacked ∧ s.firstSent b = some 1 ∧ s.retransmitted b = some 2 ∧
      ¬ s.Intact := by
  have hbyte : let s := run step start lossyRun
      (⟨0, 0, 0⟩ : SentByte) ∈ s.unacked ∧ s.firstSent ⟨0, 0, 0⟩ = some 1 ∧
        s.retransmitted ⟨0, 0, 0⟩ = some 2 := by
    decide +kernel
  obtain ⟨hmem, hfirst, hread⟩ := hbyte
  refine ⟨hmem, hfirst, hread, ?_⟩
  intro h
  obtain ⟨c, hc, hc'⟩ := h.bytes _ hmem
  rw [hread, Option.some.injEq] at hc
  rw [hfirst, Option.some.injEq] at hc'
  exact absurd (hc.trans hc'.symm) (by decide)

end Session

end Ride
