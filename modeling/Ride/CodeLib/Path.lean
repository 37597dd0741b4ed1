import Mathlib.Data.List.Basic
import Mathlib.Tactic.Common

/-!
# Absolute paths

A canonical path is a list of components, each behind a separator.  The empty
list is the root, and its path is the separator alone, so that a separator
behind the path of a directory is the beginning of what lies below it, except for
the root.

* `join` and `render` are the text of a list of components.
* `join_sep_prefix_iff` says which paths begin with the path of a directory and
  a separator.
-/

namespace CodeLib.Path

variable {α : Type*} {sep : α}

/-- The components, each behind a separator. -/
def join (sep : α) (cs : List (List α)) : List α :=
  cs.flatMap fun c => sep :: c

/-- The path of a list of components. -/
def render (sep : α) : List (List α) → List α
  | [] => [sep]
  | c :: cs => join sep (c :: cs)

/-- A component is not empty, and holds no separator. -/
def Component (sep : α) (c : List α) : Prop :=
  c ≠ [] ∧ sep ∉ c

@[simp] theorem join_nil : join sep [] = [] := rfl

@[simp] theorem join_cons (c : List α) (cs : List (List α)) :
    join sep (c :: cs) = sep :: (c ++ join sep cs) := rfl

theorem join_append (cs ds : List (List α)) :
    join sep (cs ++ ds) = join sep cs ++ join sep ds :=
  List.flatMap_append

theorem render_of_ne_nil {cs : List (List α)} (h : cs ≠ []) :
    render sep cs = join sep cs := by
  cases cs with
  | nil => exact absurd rfl h
  | cons c cs => rfl

/-- A text of components is empty, or begins with a separator. -/
theorem sep_prefix_join {cs : List (List α)} (h : cs ≠ []) :
    [sep] <+: join sep cs := by
  cases cs with
  | nil => exact absurd rfl h
  | cons c cs => exact (List.prefix_cons_inj sep).mpr List.nil_prefix

/-- Two separators never stand side by side. -/
theorem not_sep_sep_prefix_join {cs : List (List α)}
    (h : ∀ c ∈ cs, Component sep c) : ¬ [sep, sep] <+: join sep cs := by
  intro hpre
  cases cs with
  | nil => simp at hpre
  | cons c cs =>
    obtain ⟨hne, hsep⟩ := h c List.mem_cons_self
    cases c with
    | nil => exact hne rfl
    | cons x c =>
      rw [join_cons, List.prefix_cons_inj, List.cons_append,
        List.cons_prefix_cons] at hpre
      exact hsep (hpre.1 ▸ List.mem_cons_self)

/-- Up to the first separator, a text and its prefix agree. -/
theorem prefix_up_to_sep {c d x : List α} {ds : List (List α)} (hc : sep ∉ c)
    (hd : sep ∉ d) :
    c ++ sep :: x <+: d ++ join sep ds ↔ c = d ∧ sep :: x <+: join sep ds := by
  induction c generalizing d with
  | nil =>
    cases d with
    | nil => simp
    | cons y d =>
      refine iff_of_false ?_ (fun h => absurd h.1 (by simp))
      intro hpre
      rw [List.nil_append, List.cons_append, List.cons_prefix_cons] at hpre
      exact hd (hpre.1 ▸ List.mem_cons_self)
  | cons z c ih =>
    rw [List.mem_cons, not_or] at hc
    cases d with
    | nil =>
      refine iff_of_false ?_ (fun h => absurd h.1 (by simp))
      intro hpre
      cases ds with
      | nil => simp at hpre
      | cons e ds =>
        rw [List.nil_append, join_cons, List.cons_append,
          List.cons_prefix_cons] at hpre
        exact hc.1 hpre.1.symm
    | cons y d =>
      rw [List.mem_cons, not_or] at hd
      rw [List.cons_append, List.cons_append, List.cons_prefix_cons,
        ih hc.2 hd.2, List.cons.injEq, and_assoc]

/-- A path begins with another one and a separator exactly when it has more
components behind those of the other one. -/
theorem join_sep_prefix_iff {cs ds : List (List α)}
    (hcs : ∀ c ∈ cs, Component sep c) (hds : ∀ d ∈ ds, Component sep d) :
    join sep cs ++ [sep] <+: join sep ds ↔ ∃ es, es ≠ [] ∧ ds = cs ++ es := by
  constructor
  · intro hpre
    induction cs generalizing ds with
    | nil =>
      refine ⟨ds, ?_, rfl⟩
      rintro rfl
      simp at hpre
    | cons c cs ih =>
      cases ds with
      | nil => simp at hpre
      | cons d ds =>
        rw [List.forall_mem_cons] at hcs hds
        obtain ⟨x, hx⟩ : ∃ x, join sep cs ++ [sep] = sep :: x := by
          cases cs with
          | nil => exact ⟨[], rfl⟩
          | cons c' cs => exact ⟨c' ++ join sep cs ++ [sep], by simp⟩
        rw [join_cons, join_cons, List.cons_append, List.prefix_cons_inj,
          List.append_assoc, hx, prefix_up_to_sep hcs.1.2 hds.1.2, ← hx] at hpre
        obtain ⟨es, hne, heq⟩ := ih hcs.2 hds.2 hpre.2
        exact ⟨es, hne, by rw [heq, hpre.1, List.cons_append]⟩
  · rintro ⟨es, hne, rfl⟩
    rw [join_append, List.prefix_append_right_inj]
    exact sep_prefix_join hne

end CodeLib.Path
