import Mathlib.Data.List.Basic
import Mathlib.Data.Nat.ModEq
import Mathlib.Logic.Function.Basic
import Mathlib.Tactic.Common

/-!
# Windows of a circular array

A circular array keeps the entry of position `p` in the cell `p % size`.  The
window that starts at `start` and has `count` entries is the list of the cells
of the positions `start`, `start + 1` and so on.  A ring buffer of any kind is
such a window, whatever its own counters look like.

`window_push` and `window_cons` are the two moves of a ring buffer: a write to
the cell behind the window, and a read of the first cell.
-/

namespace CodeLib

variable {α : Type*}

/-- The `count` entries from the position `start` on. -/
def window (cells : Nat → α) (size start count : Nat) : List α :=
  (List.range count).map fun i => cells ((start + i) % size)

@[simp] theorem window_zero (cells : Nat → α) (size start : Nat) :
    window cells size start 0 = [] := rfl

@[simp] theorem length_window (cells : Nat → α) (size start count : Nat) :
    (window cells size start count).length = count := by
  simp [window]

/-- The last entry of a window is the entry of its last position. -/
theorem window_succ (cells : Nat → α) (size start count : Nat) :
    window cells size start (count + 1) =
      window cells size start count ++ [cells ((start + count) % size)] := by
  simp [window, List.range_succ]

/-- The first entry of a window is the entry of its start, and the rest is the
window from the next position. -/
theorem window_cons (cells : Nat → α) (size start count : Nat) :
    window cells size start (count + 1) =
      cells (start % size) :: window cells size (start + 1) count := by
  simp only [window, List.range_succ_eq_map, List.map_cons, List.map_map,
    Nat.add_zero]
  congr 1
  refine List.map_congr_left fun i _ => ?_
  simp [Function.comp, Nat.add_comm, Nat.add_left_comm]

/-- Only the cell of the start matters. -/
theorem window_mod (cells : Nat → α) (size start count : Nat) :
    window cells size (start % size) count = window cells size start count := by
  simp [window, Nat.mod_add_mod]

/-- Two positions less than `size` apart have different cells. -/
theorem cell_ne {size start i j : Nat} (hij : i < j) (hj : j < size) :
    (start + i) % size ≠ (start + j) % size := by
  intro h
  have hmod : j % size = i % size := (Nat.ModEq.add_left_cancel' start h).symm
  rw [Nat.mod_eq_of_lt hj, Nat.mod_eq_of_lt (by omega)] at hmod
  omega

/-- A write to the cell behind a window that is not full keeps the window. -/
theorem window_update {size start count : Nat} (hcount : count < size)
    (cells : Nat → α) (x : α) :
    window (Function.update cells ((start + count) % size) x) size start count =
      window cells size start count := by
  refine List.map_congr_left fun i hi => ?_
  exact Function.update_of_ne (cell_ne (List.mem_range.mp hi) hcount) _ _

/-- A write to the cell behind a window that is not full makes the window
longer by the entry that is written. -/
theorem window_push {size start count : Nat} (hcount : count < size)
    (cells : Nat → α) (x : α) :
    window (Function.update cells ((start + count) % size) x) size start
      (count + 1) = window cells size start count ++ [x] := by
  rw [window_succ, window_update hcount, Function.update_self]

end CodeLib
