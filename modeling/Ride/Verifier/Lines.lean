import Ride.Verifier.Messages

/-!
# A line and its call

`on_file_read` prints a line for a file, and right behind it calls
`verifier_verify_hash` with the digest and the path of the line.  `Sys.Prints`
says what this means for a step: nothing is printed and nothing is called, or one
line is printed and one call is made for it.
-/

namespace Ride

open CodeLib CodeLib.Machine

namespace Sys

variable {B : Blake3} {n : Nat} {i : Fin n} {s t : Sys B n}

/-- A step prints nothing and makes no call, or it prints a line and makes the
call with the digest and the path of this line. -/
inductive Prints (s : Sys B n) (a : SysStep n) (t : Sys B n) : Prop
  | quiet (hno : s.verifies a = none) (hrecords : t.records = s.records)
  | call (v : Answers × Fin n) (r : Record) (hcall : s.verifies a = some v)
      (hrecords : t.records = s.records ++ [r]) (hhash : r.hash = s.digest v.2)
      (hfile : s.path v.2 = some r.file) (hne : r.file ≠ [])

theorem SlotOutcome.records_cases {ans : Answers}
    (hout : SlotOutcome s i ans t) :
    t.records = s.records ∨ ∃ r, t.records = s.records ++ [r] ∧
      r.hash = s.digest i ∧ s.path i = some r.file ∧ r.file ≠ [] := by
  cases hout with
  | openFailed | opened | readFailed | readMore | updated => exact Or.inl rfl
  | printed hfits | verifyFailed hfits =>
    exact Or.inr ⟨_, rfl, rfl, path_eq hfits.data hfits.string, hfits.path_ne⟩

theorem path_deliver (s : Sys B n) (cqe : Cqe (Name n)) (i : Fin n) :
    (s.deliver cqe).path i = s.path i := by
  obtain ⟨res, flags, hslot⟩ := s.deliver_reqs_at cqe i
  simp only [Sys.path, hslot, (s.deliver_reaped cqe).strings]

theorem digest_deliver (s : Sys B n) (cqe : Cqe (Name n)) (i : Fin n) :
    (s.deliver cqe).digest i = s.digest i := by
  obtain ⟨res, flags, hslot⟩ := s.deliver_reqs_at cqe i
  simp only [Sys.digest, lastHasher, hslot]

/-- A completion of a slot can only lead to a call for this slot. -/
theorem Held.verifies_slot {stage : Stage} {cqe : Cqe (Name n)} {ans : Answers}
    {v : Answers × Fin n} (hheld : (s.deliver cqe).Held i stage)
    (hcur : s.cq.current = some cqe) (hreq : cqe.userData.req = .slot i)
    (hcall : s.verifies (.dispatch ans) = some v) : v.2 = i := by
  have hdata2 : (s.req (.slot i)).data2 = some i := by
    obtain ⟨res, flags, hslot⟩ := s.deliver_req cqe (.slot i)
    have hheld2 : ((s.deliver cqe).req (.slot i)).data2 = some i := hheld.data2
    rw [hslot] at hheld2
    exact hheld2
  simp only [verifies, hcur, hreq, hdata2, Option.bind_some, Option.map_some,
    Option.ite_none_right_eq_some, Option.some.injEq] at hcall
  obtain ⟨-, -, rfl⟩ := hcall
  rfl

/-- Only a callback of a slot prints. -/
theorem Inv.records_step (h : Inv none s) (hlive : s.halted = none)
    (a : SysStep n) :
    (s.step a).records = s.records ∨ ∃ i r, (∀ v ∈ s.verifies a, v.2 = i) ∧
      (s.step a).records = s.records ++ [r] ∧ r.hash = s.digest i ∧
      s.path i = some r.file ∧ r.file ≠ [] := by
  have heff := h.effect hlive a
  generalize s.step a = t at heff ⊢
  cases heff with
  | stutter | idle | reaper | submit => exact Or.inl rfl
  | kernel act hto => exact Or.inl (by cases hto <;> rfl)
  | flush ans htodo hout =>
    refine Or.inl ?_
    cases hout with
    | ended hend => exact hend.records
    | _ => rfl
  | dispatch ans htodo hout =>
    cases hout with
    | idle hcur => exact Or.inl rfl
    | slot cqe hcur hreq hheld hout =>
      rw [← (s.deliver_reaped cqe).records]
      rcases hout.records_cases with hsame | ⟨r, hrecords, hhash, hfile⟩
      · exact Or.inl hsame
      · rw [digest_deliver] at hhash
        rw [path_deliver] at hfile
        exact Or.inr ⟨_, r, fun v hcall => hheld.verifies_slot hcur hreq hcall,
          hrecords, hhash, hfile⟩
    | fixed cqe hcur hr hinv hidle hout =>
      refine Or.inl ?_
      rw [← (s.deliver_reaped cqe).records]
      cases hout with
      | ended hend => exact hend.records
      | _ => rfl

theorem Inv.prints (h : Inv none s) (hfixed : s.FixedOps)
    (hlive : s.halted = none) (a : SysStep n) : Prints s a (s.step a) := by
  rcases h.verifying hfixed hlive a with
    ⟨hno, hlength⟩ | ⟨ans, i, hcall, hlength, -⟩
  · rcases h.records_step hlive a with hsame | ⟨-, r, -, hrecords, -⟩
    · exact .quiet hno hsame
    · rw [hrecords, List.length_append, List.length_singleton] at hlength
      omega
  · rcases h.records_step hlive a with hsame | ⟨j, r, hj, hrecords, hhash, hfile⟩
    · rw [hsame] at hlength
      omega
    · obtain rfl : i = j := hj _ hcall
      exact .call (ans, i) r hcall hrecords hhash hfile.1 hfile.2

/-- The lines of a processor stay. -/
theorem Live.records_step {P : Sys B n → Prop} (h : Live P s) (a : SysStep n) :
    s.records <+: (s.step a).records := by
  by_cases hlive : s.halted = none
  · rcases (h.good.inv hlive).prints (h.fixed hlive) hlive a with
      ⟨-, hsame⟩ | ⟨-, r, -, hrecords, -⟩
    · rw [hsame]
    · rw [hrecords]
      exact List.prefix_append _ _
  · rw [step_of_halted hlive]

/-- The path that the call passes is the one of the line. -/
theorem Live.pathname_eq (h : Live LengthOk s) {a : SysStep n}
    {v : Answers × Fin n} {file : Bytes} (hcall : s.verifies a = some v)
    (hok : ∀ event ∈ s.dequeued, event.LengthOk)
    (hfile : s.path v.2 = some file) : s.pathname v.2 = file := by
  have hlive := live_of_verifies hcall
  obtain ⟨k, event, opened, hfor⟩ := (h.good.inv hlive).callFor
    (h.fixed hlive) (h.prop hlive) hcall
  rw [hfor.pathname (hok event (List.mem_of_getElem? hfor.dequeued))]
  exact Option.some.inj (hfor.path.symm.trans hfile)

end Sys

end Ride
