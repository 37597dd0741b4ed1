import Ride.CodeLib.Machine

/-!
# Store buffers

A processor with total store order puts its stores in a buffer, and they reach
the memory later, one after the other and in order.  The processor itself reads
through its buffer.  The other processors only read the memory.

`Buffered` is the memory and the buffer of the one processor whose stores can
be late.  A store is an update of the memory, so that the view of the processor
is the run of its buffered stores, and the rules of `Machine` for runs apply to
a buffer.  A store moves the view and not the memory (`view_push`), and a store
that reaches the memory moves the memory and not the view (`view_drain`).
`view_write` is for another processor that writes to a place of its own.
-/

namespace CodeLib

open Machine

variable {M S : Type*}

/-- The memory, and the stores of one processor that it does not show yet,
oldest first. -/
structure Buffered (M S : Type*) where
  mem : M
  buffer : List S

namespace Buffered

variable (apply : M → S → M)

/-- The memory as the processor itself reads it. -/
def view (b : Buffered M S) : M := run apply b.mem b.buffer

/-- The processor makes a store. -/
def push (b : Buffered M S) (s : S) : Buffered M S :=
  { b with buffer := b.buffer ++ [s] }

/-- The oldest store reaches the memory. -/
def drain (b : Buffered M S) : Buffered M S :=
  match b.buffer with
  | [] => b
  | s :: rest => ⟨apply b.mem s, rest⟩

/-- A full barrier: all the stores reach the memory. -/
def fence (b : Buffered M S) : Buffered M S := ⟨b.view apply, []⟩

/-- Every store of the buffer meets a condition on the memory that it is going
to find. -/
def Orderly (C : M → S → Prop) (b : Buffered M S) : Prop :=
  Meets apply C b.mem b.buffer

variable {apply}

@[simp] theorem view_push (b : Buffered M S) (s : S) :
    (b.push s).view apply = apply (b.view apply) s :=
  run_append apply b.mem b.buffer [s]

@[simp] theorem view_drain (b : Buffered M S) :
    (b.drain apply).view apply = b.view apply := by
  obtain ⟨mem, _ | ⟨s, rest⟩⟩ := b <;> rfl

@[simp] theorem view_fence (b : Buffered M S) :
    (b.fence apply).view apply = b.view apply := rfl

theorem mem_of_mem_drain {b : Buffered M S} {s : S}
    (h : s ∈ (b.drain apply).buffer) : s ∈ b.buffer := by
  obtain ⟨mem, _ | ⟨first, rest⟩⟩ := b
  · exact h
  · exact List.mem_cons_of_mem first h

theorem orderly_push {C : M → S → Prop} {b : Buffered M S} {s : S} :
    (b.push s).Orderly apply C ↔ b.Orderly apply C ∧ C (b.view apply) s :=
  meets_append_singleton

theorem Orderly.drain {C : M → S → Prop} {b : Buffered M S}
    (h : b.Orderly apply C) : (b.drain apply).Orderly apply C := by
  obtain ⟨mem, _ | ⟨s, rest⟩⟩ := b
  · exact h
  · exact h.2

/-- What the stores keep, the memory keeps while they arrive. -/
theorem Orderly.drain_mem {C : M → S → Prop} {P : M → Prop}
    (hstep : ∀ m s, P m → C m s → P (apply m s)) {b : Buffered M S}
    (h : b.Orderly apply C) (hmem : P b.mem) : P (b.drain apply).mem := by
  obtain ⟨mem, _ | ⟨s, rest⟩⟩ := b
  · exact hmem
  · exact hstep mem s hmem h.1

theorem orderly_fence {C : M → S → Prop} (b : Buffered M S) :
    (b.fence apply).Orderly apply C := trivial

/-- What the stores of an orderly buffer keep, the view has from the memory. -/
theorem Orderly.view {C : M → S → Prop} {P : M → Prop}
    (hstep : ∀ m s, P m → C m s → P (apply m s)) {b : Buffered M S}
    (h : b.Orderly apply C) (hmem : P b.mem) : P (b.view apply) :=
  run_invariant_of_meets hstep hmem h

/-- Another processor writes to the memory, and its write commutes with every
store. -/
theorem view_write {f : M → M} (hcomm : ∀ m s, f (apply m s) = apply (f m) s)
    (b : Buffered M S) :
    ({ b with mem := f b.mem } : Buffered M S).view apply = f (b.view apply) :=
  List.foldl_hom f fun m s => (hcomm m s).symm

/-- The buffer stays orderly under the write of another processor, where `I`
holds of the memory and the stores keep it. -/
theorem Orderly.write {C : M → S → Prop} {I : M → Prop} {f : M → M}
    (hcomm : ∀ m s, f (apply m s) = apply (f m) s)
    (hkeep : ∀ m s, I m → C m s → I (apply m s))
    (hC : ∀ m s, I m → C m s → C (f m) s) {b : Buffered M S}
    (h : b.Orderly apply C) (hI : I b.mem) :
    ({ b with mem := f b.mem } : Buffered M S).Orderly apply C := by
  obtain ⟨mem, buffer⟩ := b
  simp only [Orderly] at h hI ⊢
  induction buffer generalizing mem with
  | nil => trivial
  | cons s rest ih =>
    refine ⟨hC mem s hI h.1, ?_⟩
    rw [← hcomm]
    exact ih (apply mem s) h.2 (hkeep mem s hI h.1)

end Buffered

end CodeLib
