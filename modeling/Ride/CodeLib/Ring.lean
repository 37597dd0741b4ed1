import Ride.CodeLib.Window

/-!
# Rings with free-running 32-bit counters

A ring of this kind is shared by two parties.  Its size is a power of two, its
head and its tail only count up, and both wrap at `2 ^ 32`.  The entry of a
counter value is in the cell `value & mask`, and the entries between the head
and the tail are the content.

`RingMask` carries the facts about the mask, so that no lemma about a ring
takes them as hypotheses.  `dist` is the number of entries, and `ringView` is
the list of them.  The size divides `2 ^ 32`, and therefore a cell does not
notice that a counter wraps: `index_eq` turns the mask into a remainder, and the
window lemmas do the rest.
-/

namespace CodeLib

variable {α : Type*}

/-- The mask of a ring with `2 ^ bits` cells, and no more than `2 ^ 31`. -/
structure RingMask where
  val : UInt32
  bits : Nat
  bits_le : bits ≤ 31
  val_eq : val.toNat = 2 ^ bits - 1

namespace RingMask

/-- The number of cells. -/
def size (m : RingMask) : Nat := 2 ^ m.bits

theorem size_pos (m : RingMask) : 0 < m.size :=
  Nat.two_pow_pos m.bits

theorem size_le (m : RingMask) : m.size ≤ 2 ^ 31 :=
  Nat.pow_le_pow_right (by decide) m.bits_le

theorem size_dvd (m : RingMask) : m.size ∣ 2 ^ 32 :=
  Nat.pow_dvd_pow 2 (Nat.le_succ_of_le m.bits_le)

theorem val_succ (m : RingMask) : m.val.toNat + 1 = m.size := by
  have hpos := m.size_pos
  rw [m.val_eq, ← size]
  omega

/-- The cell of a counter value. -/
def index (m : RingMask) (x : UInt32) : Nat :=
  (x &&& m.val).toNat

theorem index_eq (m : RingMask) (x : UInt32) :
    m.index x = x.toNat % m.size := by
  rw [index, UInt32.toNat_and, m.val_eq, Nat.and_two_pow_sub_one_eq_mod, ← size]

end RingMask

/-! ## The distance of two counters -/

/-- The number of steps from `head` to `tail`, across the wrap. -/
def dist (head tail : UInt32) : Nat :=
  (tail - head).toNat

theorem dist_eq (head tail : UInt32) :
    dist head tail = (2 ^ 32 - head.toNat + tail.toNat) % 2 ^ 32 :=
  UInt32.toNat_sub tail head

@[simp] theorem dist_self (x : UInt32) : dist x x = 0 := by
  simp [dist]

theorem dist_eq_zero {head tail : UInt32} : dist head tail = 0 ↔ head = tail := by
  have h1 := head.toNat_lt
  have h2 := tail.toNat_lt
  rw [dist_eq, ← UInt32.toNat_inj]
  omega

/-- A tail that moves by one makes the distance longer by one. -/
theorem dist_add_one {head tail : UInt32} (h : dist head tail < 2 ^ 32 - 1) :
    dist head (tail + 1) = dist head tail + 1 := by
  have h1 := head.toNat_lt
  have h2 := tail.toNat_lt
  rw [dist_eq] at h
  rw [dist_eq, dist_eq, UInt32.toNat_add, UInt32.toNat_one]
  omega

/-- A head that moves by one over an entry makes the distance shorter by one. -/
theorem dist_head_succ {head tail : UInt32} (h : head ≠ tail) :
    dist (head + 1) tail + 1 = dist head tail := by
  have h1 := head.toNat_lt
  have h2 := tail.toNat_lt
  rw [Ne, ← UInt32.toNat_inj] at h
  rw [dist_eq, dist_eq, UInt32.toNat_add, UInt32.toNat_one]
  omega

/-- A counter between the head and the tail splits the distance. -/
theorem dist_split {head mid tail : UInt32}
    (h : dist head mid ≤ dist head tail) :
    dist head tail = dist head mid + dist mid tail := by
  have h1 := head.toNat_lt
  have h2 := mid.toNat_lt
  have h3 := tail.toNat_lt
  rw [dist_eq, dist_eq] at h
  rw [dist_eq, dist_eq, dist_eq]
  omega

/-- The test `tail - head > mask` holds exactly when every cell is taken. -/
theorem mask_lt_iff (m : RingMask) (head tail : UInt32) :
    m.val < tail - head ↔ m.size ≤ dist head tail := by
  have hsucc := m.val_succ
  rw [UInt32.lt_iff_toNat_lt, dist]
  omega

/-- The cell of the tail is the cell that lies `dist` steps behind the head. -/
theorem index_tail (m : RingMask) (head tail : UInt32) :
    m.index tail = (head.toNat + dist head tail) % m.size := by
  have h1 := head.toNat_lt
  have h2 := tail.toNat_lt
  have hsum : (head.toNat + dist head tail) % 2 ^ 32 = tail.toNat := by
    rw [dist_eq]
    omega
  rw [m.index_eq, ← hsum, Nat.mod_mod_of_dvd _ m.size_dvd]

/-! ## The content of a ring -/

/-- The entries between the head and the tail. -/
def ringView (cells : Nat → α) (m : RingMask) (head tail : UInt32) : List α :=
  window cells m.size head.toNat (dist head tail)

@[simp] theorem length_ringView (cells : Nat → α) (m : RingMask)
    (head tail : UInt32) :
    (ringView cells m head tail).length = dist head tail :=
  length_window _ _ _ _

@[simp] theorem ringView_self (cells : Nat → α) (m : RingMask) (x : UInt32) :
    ringView cells m x x = [] := by
  simp [ringView]

/-- A write to the cell of the tail keeps the content, as long as a cell is
free. -/
theorem ringView_write {m : RingMask} {head tail : UInt32}
    (h : dist head tail < m.size) (cells : Nat → α) (x : α) :
    ringView (Function.update cells (m.index tail) x) m head tail =
      ringView cells m head tail := by
  rw [ringView, index_tail m head tail]
  exact window_update h cells x

/-- Behind the content lies what was last written to the cell of the tail. -/
theorem ringView_push {m : RingMask} {head tail : UInt32}
    (h : dist head tail < m.size) (cells : Nat → α) :
    ringView cells m head (tail + 1) =
      ringView cells m head tail ++ [cells (m.index tail)] := by
  have hle := m.size_le
  rw [ringView, dist_add_one (by omega), window_succ, ← index_tail]
  rfl

/-- The first entry is in the cell of the head, and the others are the content
from the next counter value on. -/
theorem ringView_pop {m : RingMask} {head tail : UInt32} (h : head ≠ tail)
    (cells : Nat → α) :
    ringView cells m head tail =
      cells (m.index head) :: ringView cells m (head + 1) tail := by
  have hwrap : (head + 1).toNat % m.size = (head.toNat + 1) % m.size := by
    rw [UInt32.toNat_add, UInt32.toNat_one, Nat.mod_mod_of_dvd _ m.size_dvd]
  rw [ringView, ← dist_head_succ h, window_cons, ← m.index_eq, ringView,
    ← window_mod _ _ (head.toNat + 1), ← hwrap, window_mod]

end CodeLib
