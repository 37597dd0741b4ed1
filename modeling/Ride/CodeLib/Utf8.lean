import Mathlib.Data.List.Basic
import Mathlib.Tactic.Common

/-!
# UTF-8 in an ASCII context

The bytes below 128 stand for themselves in UTF-8, and they are part of no other
character.  So a text is valid between two pieces of ASCII exactly when it is
valid on its own, which is `utf8_between`.
-/

namespace CodeLib

/-- The bytes are valid UTF-8. -/
def Utf8 (bytes : List UInt8) : Prop := bytes.toByteArray.IsValidUTF8

instance (bytes : List UInt8) : Decidable (Utf8 bytes) :=
  inferInstanceAs (Decidable bytes.toByteArray.IsValidUTF8)

/-- All bytes are below 128. -/
def Ascii (bytes : List UInt8) : Prop := ∀ b ∈ bytes, b < 128

/-- The bytes of a character: it is ASCII, or none of its bytes is. -/
theorem utf8EncodeChar_cases (c : Char) :
    String.utf8EncodeChar c = [UInt8.ofNat c.toNat] ∨
      (128 ≤ c.toNat ∧ ∀ b ∈ String.utf8EncodeChar c, 128 ≤ b) := by
  have hbyte : ∀ v : Nat, 128 ≤ v → v < 256 → 128 ≤ UInt8.ofNat v := by
    intro v hlow hhigh
    rw [UInt8.le_iff_toNat_le, UInt8.toNat_ofNat_of_lt' hhigh]
    exact hlow
  unfold String.utf8EncodeChar
  simp only
  split_ifs with h1 h2 h3
  · exact Or.inl rfl
  · refine Or.inr ⟨Nat.lt_of_not_le h1, ?_⟩
    simp only [List.forall_mem_cons, List.not_mem_nil, false_implies,
      implies_true, and_true]
    refine ⟨hbyte _ ?_ ?_, hbyte _ ?_ ?_⟩ <;> omega
  · refine Or.inr ⟨Nat.lt_of_not_le h1, ?_⟩
    simp only [List.forall_mem_cons, List.not_mem_nil, false_implies,
      implies_true, and_true]
    refine ⟨hbyte _ ?_ ?_, hbyte _ ?_ ?_, hbyte _ ?_ ?_⟩ <;> omega
  · refine Or.inr ⟨Nat.lt_of_not_le h1, ?_⟩
    simp only [List.forall_mem_cons, List.not_mem_nil, false_implies,
      implies_true, and_true]
    refine ⟨hbyte _ ?_ ?_, hbyte _ ?_ ?_, hbyte _ ?_ ?_, hbyte _ ?_ ?_⟩ <;>
      omega

theorem utf8_iff {bytes : List UInt8} :
    Utf8 bytes ↔ ∃ chars : List Char,
      bytes = chars.flatMap String.utf8EncodeChar := by
  constructor
  · rintro ⟨chars, heq⟩
    exact ⟨chars, List.toByteArray_inj.mp heq⟩
  · rintro ⟨chars, rfl⟩
    exact ⟨chars, rfl⟩

theorem Utf8.append {a b : List UInt8} (ha : Utf8 a) (hb : Utf8 b) :
    Utf8 (a ++ b) := by
  obtain ⟨cs, rfl⟩ := utf8_iff.mp ha
  obtain ⟨ds, rfl⟩ := utf8_iff.mp hb
  rw [← List.flatMap_append]
  exact utf8_iff.mpr ⟨_, rfl⟩

/-- A character with an ASCII byte is this byte. -/
theorem utf8EncodeChar_of_ascii {c : Char} {b : UInt8}
    (hmem : b ∈ String.utf8EncodeChar c) (hb : b < 128) :
    String.utf8EncodeChar c = [b] := by
  rcases utf8EncodeChar_cases c with hone | ⟨-, hhigh⟩
  · rw [hone, List.mem_singleton] at hmem
    rw [hone, hmem]
  · exact absurd (hhigh b hmem) (UInt8.not_le.mpr hb)

theorem utf8_singleton {b : UInt8} (hb : b < 128) : Utf8 [b] := by
  have hchar : (Char.ofUInt8 b).toNat = b.toNat := UInt8.toNat_toUInt32 b
  refine utf8_iff.mpr ⟨[Char.ofUInt8 b], ?_⟩
  rcases utf8EncodeChar_cases (Char.ofUInt8 b) with hone | ⟨hhigh, -⟩
  · rw [List.flatMap_singleton, hone, hchar, UInt8.ofNat_toNat]
  · rw [hchar] at hhigh
    exact absurd (UInt8.lt_iff_toNat_lt.mp hb) (Nat.not_lt.mpr hhigh)

theorem utf8_of_ascii {a : List UInt8} (ha : Ascii a) : Utf8 a := by
  induction a with
  | nil => exact utf8_iff.mpr ⟨[], rfl⟩
  | cons b rest ih =>
    obtain ⟨hb, hrest⟩ := List.forall_mem_cons.mp ha
    exact (utf8_singleton hb).append (ih hrest)

/-- At an ASCII byte, a text can be cut. -/
theorem utf8_cut {b : UInt8} (hb : b < 128) {x y : List UInt8} :
    Utf8 (x ++ b :: y) ↔ Utf8 x ∧ Utf8 y := by
  constructor
  · intro h
    obtain ⟨chars, heq⟩ := utf8_iff.mp h
    clear h
    induction chars generalizing x with
    | nil => exact absurd heq (by simp)
    | cons c rest ih =>
      rw [List.flatMap_cons] at heq
      have hc : Utf8 (String.utf8EncodeChar c) := utf8_iff.mpr ⟨[c], by simp⟩
      rcases List.append_eq_append_iff.mp heq with
        ⟨later, hsplit, hrest⟩ | ⟨later, rfl, hrest⟩
      · cases later with
        | nil =>
          rw [List.append_nil] at hsplit
          rw [hsplit] at hc
          exact ⟨hc, (ih (x := []) hrest).2⟩
        | cons d later =>
          -- the byte is in the first character, so it is this character
          obtain ⟨rfl, hy⟩ := List.cons_eq_cons.mp hrest
          have hone := utf8EncodeChar_of_ascii (c := c)
            (by rw [hsplit]; simp) hb
          rw [hone, eq_comm, List.append_eq_cons_iff] at hsplit
          rcases hsplit with ⟨rfl, hnil⟩ | ⟨x', rfl, hno⟩
          · rw [(List.cons_eq_cons.mp hnil).2] at hy
            exact ⟨utf8_iff.mpr ⟨[], rfl⟩, utf8_iff.mpr ⟨rest, hy⟩⟩
          · exact absurd hno (by simp)
      · obtain ⟨hlater, hy⟩ := ih hrest.symm
        exact ⟨hc.append hlater, hy⟩
  · rintro ⟨hx, hy⟩
    exact hx.append ((utf8_singleton hb).append hy)

/-- A text between two pieces of ASCII. -/
theorem utf8_between {a c : List UInt8} (ha : Ascii a) (hc : Ascii c)
    (x : List UInt8) : Utf8 (a ++ (x ++ c)) ↔ Utf8 x := by
  induction a with
  | nil =>
    rw [List.nil_append]
    cases c with
    | nil => rw [List.append_nil]
    | cons b rest =>
      obtain ⟨hb, hrest⟩ := List.forall_mem_cons.mp hc
      rw [utf8_cut hb]
      exact and_iff_left (utf8_of_ascii hrest)
  | cons b rest ih =>
    obtain ⟨hb, hrest⟩ := List.forall_mem_cons.mp ha
    have hcut := utf8_cut hb (x := []) (y := rest ++ (x ++ c))
    rw [List.cons_append, ← ih hrest]
    exact hcut.trans (and_iff_right (utf8_iff.mpr ⟨[], rfl⟩))

end CodeLib
