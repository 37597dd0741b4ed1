import Ride.Event

/-!
# The hasher

`hasher.c` wraps the incremental interface of BLAKE3.  `Blake3` is what the
program relies on: a state that absorbs bytes, and the law that two updates are
one update with both pieces.  `Blake3.hash` is the digest of a whole content.
-/

namespace Ride

/-- The interface of the BLAKE3 library.  `zero` is the state that zeroed memory
holds before the first call of `blake3_hasher_init`. -/
structure Blake3 where
  State : Type
  zero : State
  init : State
  update : State → Bytes → State
  finalize : State → Bytes
  update_update : ∀ h a b, update (update h a) b = update h (a ++ b)

namespace Blake3

/-- The digest of a whole content. -/
def hash (B : Blake3) (content : Bytes) : Bytes :=
  B.finalize (B.update B.init content)

/-- The state has absorbed the bytes since it was initialised.  Right after the
initialisation there is nothing to absorb, and the state need not be an update
of itself, so the statement is about the next update. -/
def Absorbed (B : Blake3) (h : B.State) (bytes : Bytes) : Prop :=
  ∀ next, B.update h next = B.update B.init (bytes ++ next)

theorem absorbed_init (B : Blake3) : B.Absorbed B.init [] := by
  intro next
  rw [List.nil_append]

theorem Absorbed.update {B : Blake3} {h : B.State} {bytes : Bytes}
    (habs : B.Absorbed h bytes) (next : Bytes) :
    B.Absorbed (B.update h next) (bytes ++ next) := by
  intro last
  rw [B.update_update, habs, List.append_assoc]

/-- An empty update behind the last byte makes the digest of the content. -/
theorem Absorbed.finalize {B : Blake3} {h : B.State} {bytes : Bytes}
    (habs : B.Absorbed h bytes) :
    B.finalize (B.update h []) = B.hash bytes := by
  rw [habs, List.append_nil, hash]

/-- A hasher that keeps what it absorbs.  The law has a model. -/
def concat : Blake3 where
  State := Bytes
  zero := []
  init := []
  update := fun h next => h ++ next
  finalize := fun h => h
  update_update := List.append_assoc

end Blake3

end Ride
