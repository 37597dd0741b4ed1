import Ride.CodeLib.Machine
import Ride.Verifier.Model

/-!
# What a step of the verifier can do

`Verifier.Round` lists the effects of a round of the loop in
`verifier_flush_out` when the library keeps its contract: the slot stays as it
is, the slot is reset because nothing is left of it, or the library takes a part
of what is left.  `verifierVerifyHash_of_fits` and its companions are the effects
of a call of `verifier_verify_hash`, and `Verifier.StepTo` lists the effects of a
step.  The proofs about runs are by cases on these, and look at the source
functions no further.
-/

namespace Ride

namespace Verifier

variable {v : Verifier}

/-! ## The loop -/

/-- The slot behind the reset of `verifier_prep_vec`. -/
def resetSlot (s : QuicStream) : QuicStream :=
  { s with streamId := -1, datalen := 0, nwrite := 0 }

/-- The effects of a round.  None of them is a fault. -/
inductive Round (v : Verifier) : Verifier → Prop where
  | same (phase : VerifierPhase) (hphase : phase ≠ .fault)
      (hnone : v.slot.streamId = -1 ∨ v.slot.nwrite < v.slot.datalen) :
      Round v { v with phase := phase }
  | reset (phase : VerifierPhase) (hphase : phase ≠ .fault)
      (hid : v.slot.streamId ≠ -1) (hdone : v.slot.datalen ≤ v.slot.nwrite) :
      Round v { v.setSlot (resetSlot v.slot) with phase := phase }
  | took (phase : VerifierPhase) (hphase : phase ≠ .fault)
      (hid : v.slot.streamId ≠ -1) (hlt : v.slot.nwrite < v.slot.datalen)
      (w : Nat) (hw : w ≤ v.slot.unsent.length) :
      Round v { v.took v.slot.streamId v.slot.unsent w with phase := phase }

theorem Round.phase_ne_fault {u : Verifier} (hround : Round v u) :
    u.phase ≠ .fault := by
  cases hround <;> assumption

/-- What `verifier_prep_vec` offers, and what it leaves of the slot. -/
theorem verifierPrepVec_cases (v : Verifier) :
    (v.slot.streamId ≠ -1 ∧ v.slot.nwrite < v.slot.datalen ∧
      v.verifierPrepVec = (some (v.slot.streamId, v.slot.unsent), v)) ∨
    (v.slot.streamId ≠ -1 ∧ v.slot.datalen ≤ v.slot.nwrite ∧
      v.verifierPrepVec = (none, v.setSlot (resetSlot v.slot))) ∨
    (v.slot.streamId = -1 ∧ v.verifierPrepVec = (none, v)) := by
  unfold verifierPrepVec
  simp only
  split_ifs with hoffer hid
  · exact Or.inl ⟨hoffer.1, hoffer.2, rfl⟩
  · refine Or.inr (Or.inl ⟨hid, ?_, rfl⟩)
    exact Nat.le_of_not_lt fun hlt => hoffer ⟨hid, hlt⟩
  · exact Or.inr (Or.inr ⟨not_not.mp hid, rfl⟩)

theorem Round.prep (v : Verifier) {phase : VerifierPhase}
    (hphase : phase ≠ .fault) :
    Round v { v.verifierPrepVec.2 with phase := phase } := by
  rcases v.verifierPrepVec_cases with ⟨-, hlt, heq⟩ | ⟨hid, hdone, heq⟩ |
    ⟨hid, heq⟩ <;> rw [heq]
  · exact .same phase hphase (Or.inr hlt)
  · exact .reset phase hphase hid hdone
  · exact .same phase hphase (Or.inl hid)

/-- The phase that a flush ends with. -/
theorem flushed_eq (v : Verifier) (caller : Flusher) (failed : Bool) :
    ∃ phase, phase ≠ .fault ∧
      v.flushed caller failed = { v with phase := phase } := by
  unfold flushed
  split_ifs
  · exact ⟨.exited, by simp, rfl⟩
  · exact ⟨.idle, by simp, rfl⟩

/-- What the library takes of an offer, within its contract. -/
theorem take_offer {w : Nat}
    (hw : ∃ o ∈ v.verifierPrepVec.1, w ≤ o.2.length) :
    v.slot.streamId ≠ -1 ∧ v.slot.nwrite < v.slot.datalen ∧
      w ≤ v.slot.unsent.length ∧
      v.verifierPrepVec.2.take v.verifierPrepVec.1 w =
        some (v.took v.slot.streamId v.slot.unsent w) := by
  obtain ⟨o, ho, hle⟩ := hw
  rcases v.verifierPrepVec_cases with ⟨hid, hlt, heq⟩ | ⟨-, -, heq⟩ |
    ⟨-, heq⟩ <;> rw [heq] at ho ⊢
  · obtain rfl : (v.slot.streamId, v.slot.unsent) = o := Option.some.inj ho
    exact ⟨hid, hlt, hle, rfl⟩
  · exact absurd ho (by simp)
  · exact absurd ho (by simp)

/-- A positive count needs an offer. -/
theorem offer_of_pos {offer : Option (Int × Bytes)} {w : Int}
    {sent : Bool} (h : (Writev.packet w sent).Within offer) (hpos : 0 < w) :
    ∃ o ∈ offer, w.toNat ≤ o.2.length := by
  cases offer with
  | none =>
    have hle : w ≤ (0 : Nat) := h
    omega
  | some o =>
    have hle : w ≤ (o.2.length : Nat) := h
    exact ⟨o, rfl, by omega⟩

/-- A round within the contract has one of the effects. -/
theorem round_verifierFlushRound {caller : Flusher} {r : Writev}
    (hphase : v.phase = .flushing caller) (hr : r.Within v.verifierPrepVec.1) :
    Round v (v.verifierFlushRound caller r) := by
  have hrunning : v.phase ≠ .fault := by simp [hphase]
  have hkept : ∀ u : Verifier, u.phase = v.phase →
      { u with phase := v.phase } = u := by
    rintro u hu
    rw [← hu]
  have hprep : v.verifierPrepVec.2.phase = v.phase := by
    rcases v.verifierPrepVec_cases with ⟨-, -, heq⟩ | ⟨-, -, heq⟩ |
      ⟨-, heq⟩ <;> rw [heq]
    rfl
  unfold verifierFlushRound
  cases r with
  | writeMore w =>
    obtain ⟨hid, hlt, hw, htake⟩ := take_offer hr
    simp only [htake, Option.getD_some]
    rw [← hkept (v.took v.slot.streamId v.slot.unsent w) rfl]
    exact .took _ hrunning hid hlt w hw
  | error =>
    obtain ⟨phase, hok, heq⟩ := v.verifierPrepVec.2.flushed_eq caller true
    simp only [heq]
    exact .prep v hok
  | zero =>
    obtain ⟨phase, hok, heq⟩ := v.verifierPrepVec.2.flushed_eq caller false
    simp only [heq]
    exact .prep v hok
  | packet w sent =>
    by_cases hpos : 0 < w
    · obtain ⟨hid, hlt, hw, htake⟩ := take_offer (offer_of_pos hr hpos)
      simp only [if_pos hpos, htake]
      split_ifs
      · rw [← hkept (v.took v.slot.streamId v.slot.unsent w.toNat) rfl]
        exact .took _ hrunning hid hlt _ hw
      · obtain ⟨phase, hok, heq⟩ :=
          (v.took v.slot.streamId v.slot.unsent w.toNat).flushed_eq caller false
        rw [heq]
        exact .took phase hok hid hlt _ hw
    · simp only [if_neg hpos]
      split_ifs
      · rw [← hkept v.verifierPrepVec.2 hprep]
        exact .prep v hrunning
      · obtain ⟨phase, hok, heq⟩ :=
          v.verifierPrepVec.2.flushed_eq caller false
        rw [heq]
        exact .prep v hok

/-! ## A new message -/

/-- A copy to the slot `0`, which fits or not. -/
theorem verifierQuicSlotWritev_zero {s : QuicStream} (hs : v.slot = s)
    (bytes : Bytes) :
    v.verifierQuicSlotWritev 0 bytes =
      if hfit : s.datalen + bytes.length ≤ STREAM_DATA_SIZE then
        some (v.setSlot (s.append bytes hfit))
      else none := by
  subst hs
  unfold verifierQuicSlotWritev
  rw [dif_pos (by decide)]
  rfl

/-- The slot with the number of a new stream, before the copies. -/
def openedSlot (s : QuicStream) (streamId : Int) : QuicStream :=
  { s with streamId := streamId }

/-- `verifier_verify_hash` copies the message behind the data of the slot. -/
theorem verifierVerifyHash_of_fits (v : Verifier) (streamId : Int)
    {pathname hash : Bytes}
    (hfit : v.slot.datalen + (hash ++ pathname).length ≤ STREAM_DATA_SIZE) :
    v.verifierVerifyHash 0 streamId pathname hash =
      { v.setSlot ((openedSlot v.slot streamId).append (hash ++ pathname) hfit)
        with
        phase := .flushing .verifyHash
        opened := streamId :: v.opened
        message := Function.update v.message streamId
          (some (hash ++ pathname)) } := by
  let s₀ := openedSlot v.slot streamId
  let v₀ : Verifier := { v.setSlot s₀ with opened := streamId :: v.opened }
  have hlen := hfit
  rw [List.length_append, ← Nat.add_assoc] at hlen
  have hfit₁ : s₀.datalen + hash.length ≤ STREAM_DATA_SIZE :=
    Nat.le_of_add_right_le hlen
  have hfit₂ : (s₀.append hash hfit₁).datalen + pathname.length ≤
      STREAM_DATA_SIZE := hlen
  have hget : v.verifierQuicGetSlot 0 streamId = (0, v₀) := rfl
  have hs₀ : v₀.slot = s₀ := slot_setSlot v s₀
  have hhash := v₀.verifierQuicSlotWritev_zero hs₀ hash
  rw [dif_pos hfit₁] at hhash
  have hpath := (v₀.setSlot (s₀.append hash hfit₁)).verifierQuicSlotWritev_zero
    (slot_setSlot ..) pathname
  rw [dif_pos hfit₂, s₀.append_append hfit hfit₁ hfit₂] at hpath
  simp only [verifierVerifyHash, hget, hhash, Option.bind_some, hpath]
  simp [v₀, s₀, setSlot]

/-- A message that does not fit is copied over the end of the buffer. -/
theorem verifierVerifyHash_of_not_fits (v : Verifier) (streamId : Int)
    {pathname hash : Bytes}
    (hfit : ¬ v.slot.datalen + (hash ++ pathname).length ≤ STREAM_DATA_SIZE) :
    v.verifierVerifyHash 0 streamId pathname hash =
      { v.setSlot (openedSlot v.slot streamId) with
        phase := .fault
        opened := streamId :: v.opened } := by
  let s₀ := openedSlot v.slot streamId
  let v₀ : Verifier := { v.setSlot s₀ with opened := streamId :: v.opened }
  have hget : v.verifierQuicGetSlot 0 streamId = (0, v₀) := rfl
  have hs₀ : v₀.slot = s₀ := slot_setSlot v s₀
  have hnone : ((v₀.verifierQuicSlotWritev 0 hash).bind fun v =>
      v.verifierQuicSlotWritev 0 pathname) = none := by
    rw [verifierQuicSlotWritev_zero hs₀]
    split_ifs with hfit₁
    · rw [Option.bind_some, verifierQuicSlotWritev_zero (slot_setSlot ..)]
      refine dif_neg fun hlen => hfit ?_
      rw [List.length_append, ← Nat.add_assoc]
      exact hlen
    · rfl
  simp only [verifierVerifyHash, hget, hnone]
  rfl

/-- Without a stream, the error is taken for the number of a slot. -/
theorem verifierVerifyHash_of_refused (v : Verifier) {rv : Int} (hrv : rv < 0)
    (streamId : Int) (pathname hash : Bytes) :
    v.verifierVerifyHash rv streamId pathname hash =
      { v with phase := .fault } := by
  have hget : v.verifierQuicGetSlot rv streamId = (rv, v) :=
    if_pos (Int.ne_of_lt hrv)
  have hnone : v.verifierQuicSlotWritev rv hash = none :=
    dif_neg fun hslot => absurd hslot.1 (Int.not_le.mpr hrv)
  simp only [verifierVerifyHash, hget, hnone, Option.bind_none]

/-! ## The steps -/

theorem step_verifyHash (v : Verifier) (streamId : Int)
    (pathname hash : Bytes) :
    v.step (.verifyHash streamId pathname hash) =
      if v.phase = .idle ∧ 0 ≤ streamId ∧ streamId ∉ v.opened then
        v.verifierVerifyHash 0 streamId pathname hash
      else v := by
  unfold Verifier.step
  split
  · rename_i heq hphase
    cases heq
    simp only [hphase, true_and]
  · rename_i heq hphase
    cases heq
  · rename_i heq hphase
    cases heq
  · rename_i hother _ _
    rw [if_neg]
    exact fun hcall => hother _ _ _ rfl hcall.1

/-- What a step can do. -/
inductive StepTo (v : Verifier) : VerifierStep → Verifier → Prop where
  | stutter (a : VerifierStep) : StepTo v a v
  | verifyHash (streamId : Int) (pathname hash : Bytes)
      (hphase : v.phase = .idle)
      (hfresh : 0 ≤ streamId ∧ streamId ∉ v.opened) :
      StepTo v (.verifyHash streamId pathname hash)
        (v.verifierVerifyHash 0 streamId pathname hash)
  | flushEgress (hphase : v.phase = .idle) :
      StepTo v .flushEgress { v with phase := .flushing .flushEgress }
  | round (r : Writev) {u : Verifier} {caller : Flusher}
      (hphase : v.phase = .flushing caller) (hround : Round v u) :
      StepTo v (.writev r) u

theorem stepTo_step (v : Verifier) (a : VerifierStep) :
    StepTo v a (v.step a) := by
  unfold Verifier.step
  split
  · rename_i hphase
    split_ifs with hfresh
    · exact .verifyHash _ _ _ hphase hfresh
    · exact .stutter _
  · rename_i hphase
    exact .flushEgress hphase
  · rename_i hphase
    split_ifs with hr
    · exact .round _ hphase (round_verifierFlushRound hphase hr)
    · exact .stutter _
  · exact .stutter _

end Verifier

end Ride
