import Mathlib.Data.List.Basic
import Mathlib.Tactic.Common

/-!
# Events and C strings

`struct event` of `ride.h` is what the BPF program puts in its ring buffer,
what the producer copies to the shared queue, and what a processor takes from
it.  The path is a C string in a buffer of `MAX_FILENAME_LEN` bytes, so that
`cString` is the path a reader of the buffer sees.

`sizeT` is the conversion that an `int` goes through where the code uses it as a
length or as an index.
-/

namespace Ride

/-- A block of memory. -/
abbrev Bytes := List UInt8

/-- `MAX_FILENAME_LEN` of `ride.h`. -/
def MAX_FILENAME_LEN : Nat := 128

/-- `struct event`.  The length is a `long`, and nothing in the type relates it
to the path. -/
structure Event where
  path : Bytes
  pathLen : Int
  path_length : path.length = MAX_FILENAME_LEN
deriving DecidableEq

/-- The event that `memset` leaves behind. -/
def Event.zero : Event where
  path := List.replicate MAX_FILENAME_LEN 0
  pathLen := 0
  path_length := List.length_replicate

/-- The string that a reader of a buffer sees: the bytes before the first
`NUL`.  The BPF program stores a `NUL` in the last byte of every path, so a
reader of a path stays in the buffer. -/
def cString (buf : Bytes) : Bytes :=
  buf.takeWhile (· ≠ 0)

@[simp] theorem cString_zero : cString Event.zero.path = [] := rfl

/-- The event that carries a path as the BPF program stores it: the path, the
terminator, and zeros up to the end of the buffer. -/
def Event.ofPath (path : Bytes) : Event where
  path := (path ++ List.replicate MAX_FILENAME_LEN 0).take MAX_FILENAME_LEN
  pathLen := path.length
  path_length := by simp

/-- `INT_MIN`. -/
def INT_MIN : Int := -2147483648

/-- The conversion of an `int` to `size_t`, which has 64 bits. -/
def sizeT (x : Int) : Nat :=
  (x % 18446744073709551616).toNat

theorem sizeT_of_nonneg {x : Int} (h0 : 0 ≤ x)
    (h1 : x < 18446744073709551616) :
    sizeT x = x.toNat := by
  rw [sizeT, Int.emod_eq_of_lt h0 h1]

/-- A negative number is a very large one. -/
theorem sizeT_of_neg {x : Int} (h0 : INT_MIN ≤ x) (h1 : x < 0) :
    9223372036854775808 ≤ sizeT x := by
  rw [INT_MIN] at h0
  rw [sizeT]
  omega

end Ride
