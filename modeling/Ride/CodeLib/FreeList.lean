import Mathlib.Algebra.BigOperators.Fin
import Mathlib.Data.List.FinRange
import Mathlib.Data.List.Nodup
import Mathlib.Logic.Function.Basic

/-!
# Free lists

An allocator of fixed objects keeps the free ones on a list that is linked
through the objects themselves.  `Chain` reads the links as a list, and
`FreeList` says that the list is what it should be: without repetitions, with
exactly the free objects on it, and as long as the counter says.

`FreeList.pop` and `FreeList.push` are the two operations, `FreeList.congr` is
the frame rule, `sum_update_add` is about counters of the objects, and
`chain_drop_finRange` is the list of an array in which every object is linked to
the next one.
-/

namespace CodeLib

variable {ι : Type*}

/-- The links lead from `head` through the objects of the list, and no
further. -/
def Chain (next : ι → Option ι) : Option ι → List ι → Prop
  | none, [] => True
  | some i, j :: rest => i = j ∧ Chain next (next i) rest
  | none, _ :: _ => False
  | some _, [] => False

theorem Chain.congr {next next' : ι → Option ι} {head : Option ι}
    {l : List ι} (h : Chain next head l)
    (hsame : ∀ i ∈ l, next' i = next i) : Chain next' head l := by
  induction l generalizing head with
  | nil => cases head <;> simp_all [Chain]
  | cons j rest ih =>
    cases head with
    | none => exact h
    | some i =>
      obtain ⟨rfl, hrest⟩ := h
      refine ⟨rfl, ?_⟩
      rw [hsame i (List.mem_cons_self ..)]
      exact ih hrest fun k hk => hsame k (List.mem_cons_of_mem i hk)

theorem Chain.of_some {next : ι → Option ι} {i : ι} {l : List ι}
    (h : Chain next (some i) l) :
    ∃ rest, l = i :: rest ∧ Chain next (next i) rest := by
  cases l with
  | nil => exact h.elim
  | cons j rest =>
    obtain ⟨rfl, hrest⟩ := h
    exact ⟨rest, rfl, hrest⟩

/-- The list that starts at `head` holds exactly the free objects, each of them
once, and there are `count` of them. -/
def FreeList (next : ι → Option ι) (head : Option ι) (free : ι → Prop)
    (count : Int) : Prop :=
  ∃ l, Chain next head l ∧ l.Nodup ∧ (∀ i, i ∈ l ↔ free i) ∧
    (l.length : Int) = count

theorem FreeList.congr {next next' : ι → Option ι} {head : Option ι}
    {free free' : ι → Prop} {count : Int} (h : FreeList next head free count)
    (hnext : ∀ i, free i → next' i = next i) (hfree : ∀ i, free' i ↔ free i) :
    FreeList next' head free' count := by
  obtain ⟨l, hchain, hnodup, hmem, hlen⟩ := h
  refine ⟨l, hchain.congr ?_, hnodup, ?_, hlen⟩
  · intro i hi
    exact hnext i ((hmem i).mp hi)
  · intro i
    rw [hmem, hfree]

/-- The list is empty exactly when the counter is zero. -/
theorem FreeList.head_none_iff {next : ι → Option ι} {head : Option ι}
    {free : ι → Prop} {count : Int} (h : FreeList next head free count) :
    head = none ↔ count = 0 := by
  obtain ⟨l, hchain, -, -, hlen⟩ := h
  cases head with
  | none =>
    cases l with
    | nil => exact iff_of_true rfl hlen.symm
    | cons j rest => exact hchain.elim
  | some i =>
    obtain ⟨rest, rfl, -⟩ := hchain.of_some
    rw [List.length_cons] at hlen
    exact iff_of_false (by simp) (by omega)

/-- The first object is free. -/
theorem FreeList.head_free {next : ι → Option ι} {i : ι} {free : ι → Prop}
    {count : Int} (h : FreeList next (some i) free count) : free i := by
  obtain ⟨l, hchain, -, hmem, -⟩ := h
  obtain ⟨rest, rfl, -⟩ := hchain.of_some
  exact (hmem i).mp (List.mem_cons_self ..)

/-- The first object is taken.  Its own link may change after that. -/
theorem FreeList.pop {next next' : ι → Option ι} {i : ι}
    {free free' : ι → Prop} {count : Int}
    (h : FreeList next (some i) free count)
    (hnext : ∀ j, j ≠ i → next' j = next j)
    (hfree : ∀ j, free' j ↔ free j ∧ j ≠ i) :
    FreeList next' (next i) free' (count - 1) := by
  obtain ⟨l, hchain, hnodup, hmem, hlen⟩ := h
  obtain ⟨rest, rfl, hrest⟩ := hchain.of_some
  obtain ⟨hnot, hnodup'⟩ := List.nodup_cons.mp hnodup
  refine ⟨rest, hrest.congr ?_, hnodup', ?_, ?_⟩
  · intro j hj
    apply hnext
    rintro rfl
    exact hnot hj
  · intro j
    rw [hfree, ← hmem, List.mem_cons]
    constructor
    · intro hj
      refine ⟨Or.inr hj, ?_⟩
      rintro rfl
      exact hnot hj
    · rintro ⟨rfl | hj, hne⟩
      · exact absurd rfl hne
      · exact hj
  · rw [List.length_cons] at hlen
    omega

/-- An object that is not free is put in front. -/
theorem FreeList.push {next next' : ι → Option ι} {head : Option ι} {i : ι}
    {free free' : ι → Prop} {count : Int} (h : FreeList next head free count)
    (hi : ¬ free i) (hlink : next' i = head)
    (hnext : ∀ j, j ≠ i → next' j = next j)
    (hfree : ∀ j, free' j ↔ free j ∨ j = i) :
    FreeList next' (some i) free' (count + 1) := by
  obtain ⟨l, hchain, hnodup, hmem, hlen⟩ := h
  have hnot : i ∉ l := fun hl => hi ((hmem i).mp hl)
  refine ⟨i :: l, ⟨rfl, ?_⟩, List.nodup_cons.mpr ⟨hnot, hnodup⟩, ?_, ?_⟩
  · rw [hlink]
    apply hchain.congr
    intro j hj
    apply hnext
    rintro rfl
    exact hnot hj
  · intro j
    rw [hfree, ← hmem, List.mem_cons, or_comm]
  · rw [List.length_cons]
    omega

/-- A counter that is kept for every object moves the sum by the same amount. -/
theorem sum_update_add {n : Nat} (f : Fin n → Nat) (i : Fin n) (v : Nat) :
    ∑ j, Function.update f i v j + f i = ∑ j, f j + v := by
  rw [Finset.sum_update_of_mem (Finset.mem_univ i),
    ← Finset.add_sum_erase Finset.univ f (Finset.mem_univ i),
    Finset.sdiff_singleton_eq_erase]
  omega

/-- The object behind the number `k`, if there is one. -/
def linkAt (n k : Nat) : Option (Fin n) :=
  if h : k < n then some ⟨k, h⟩ else none

/-- In an array where every object is linked to the next one, the list from the
number `k` on is the rest of the array. -/
theorem chain_drop_finRange (n : Nat) (k : Nat) (hk : k ≤ n) :
    Chain (fun i : Fin n => linkAt n (i.val + 1)) (linkAt n k)
      ((List.finRange n).drop k) := by
  induction hrest : n - k generalizing k with
  | zero =>
    have hend : k = n := by omega
    subst hend
    rw [linkAt, dif_neg (by omega), List.drop_of_length_le (by simp)]
    trivial
  | succ m ih =>
    have hlt : k < n := by omega
    have hlen : k < (List.finRange n).length := by
      rw [List.length_finRange]
      exact hlt
    rw [List.drop_eq_getElem_cons hlen, linkAt, dif_pos hlt]
    refine ⟨by simp, ?_⟩
    exact ih (k + 1) hlt (by omega)

end CodeLib
