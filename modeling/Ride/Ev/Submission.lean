import Ride.CodeLib.Ring

/-!
# The submission ring

`ev_iou_req` puts a request in the submission ring of `io_uring`, and the
kernel takes the entries from the other end.  The kernel owns `head`, and the
event loop owns `tail`.

`evIouReq` is the call as one step, and `kernelTake` is one step of the kernel.
`evIouReq_full`, `evIouReq_room`, `kernelTake_empty` and `kernelTake_cons` are
their specification in terms of `SubmissionRing.pending`, the list of the
entries that the kernel has not taken yet.  `Ride.Ev.SubmissionRun` cuts the
call into its loads and stores.

A request is a block of memory with a name, and the entry carries the name in
`user_data`.  `W` is the type of a 64-bit word that may hold an address.
-/

namespace Ride

open CodeLib

/-- The operations of `io_uring` that the program submits.  The value zero is
`IORING_OP_NOP`. -/
inductive Opcode where
  | nop
  | pollAdd
  | timeout
  | timeoutRemove
  | connect
  | openat
  | read
  | socket
deriving DecidableEq

/-- The part of `ev_io_req_t` that the event loop reads and writes. -/
structure IoReq (W : Type) where
  opcode : Opcode
  off : W
  addr : W
  fd : Int
  len : UInt32
  flags : UInt32
  result : Int
  resultFlags : UInt32
deriving DecidableEq

/-- `struct io_uring_sqe`, as far as the program sets it.  The name in
`user_data` is `none` where the word is zero. -/
structure Sqe (W P : Type) where
  opcode : Opcode
  flags : UInt8
  fd : Int
  off : W
  addr : W
  len : UInt32
  poll32Events : UInt32
  userData : Option P
deriving DecidableEq

/-- The entry that a request stands for. -/
def sqeOf {W P : Type} (name : P) (req : IoReq W) : Sqe W P where
  opcode := req.opcode
  flags := 0
  fd := req.fd
  off := req.off
  addr := req.addr
  len := req.len
  poll32Events := req.flags
  userData := some name

/-- `ev_err_t`. -/
def EV_FULL : Nat := 1

/-- The submission ring: `struct ev__iou_ring` and the array of entries. -/
structure SubmissionRing (W P : Type) where
  mask : RingMask
  head : UInt32
  tail : UInt32
  sqes : Nat → Sqe W P

variable {W P : Type}

/-! ## The call as one step -/

namespace SubmissionRing

/-- The published entries that the kernel has not taken, oldest first. -/
def pending (r : SubmissionRing W P) : List (Sqe W P) :=
  ringView r.sqes r.mask r.head r.tail

/-- No more entries are published than there are cells. -/
def Wf (r : SubmissionRing W P) : Prop :=
  dist r.head r.tail ≤ r.mask.size

@[simp] theorem length_pending (r : SubmissionRing W P) :
    r.pending.length = dist r.head r.tail :=
  length_ringView _ _ _ _

/-- `ev__iou_submit` publishes the entry behind the tail.  The wake-up of the
kernel thread does not touch the ring. -/
def evIouSubmit (r : SubmissionRing W P) : SubmissionRing W P :=
  { r with tail := r.tail + 1 }

/-- `ev_iou_req`: the return value and the ring. -/
def evIouReq (r : SubmissionRing W P) (name : P) (req : IoReq W) :
    Nat × SubmissionRing W P :=
  if r.mask.val < r.tail - r.head then
    (EV_FULL, r)
  else
    (0, evIouSubmit { r with
      sqes := Function.update r.sqes (r.mask.index r.tail) (sqeOf name req) })

/-- The kernel takes the oldest published entry. -/
def kernelTake (r : SubmissionRing W P) :
    Option (Sqe W P × SubmissionRing W P) :=
  if r.head = r.tail then none
  else some (r.sqes (r.mask.index r.head), { r with head := r.head + 1 })

/-- A call on a full ring is refused and changes nothing. -/
theorem evIouReq_full {r : SubmissionRing W P}
    (h : r.mask.size ≤ r.pending.length) (name : P) (req : IoReq W) :
    r.evIouReq name req = (EV_FULL, r) := by
  rw [length_pending] at h
  exact if_pos ((mask_lt_iff r.mask r.head r.tail).mpr h)

/-- A call on a ring with room puts the entry of the request behind the
others. -/
theorem evIouReq_room {r : SubmissionRing W P}
    (h : r.pending.length < r.mask.size) (name : P) (req : IoReq W) :
    (r.evIouReq name req).1 = 0 ∧
      (r.evIouReq name req).2.mask = r.mask ∧
      (r.evIouReq name req).2.Wf ∧
      (r.evIouReq name req).2.pending = r.pending ++ [sqeOf name req] := by
  rw [length_pending] at h
  have hle := r.mask.size_le
  have hroom : ¬ r.mask.val < r.tail - r.head := by
    rw [mask_lt_iff]
    omega
  unfold evIouReq
  rw [if_neg hroom]
  refine ⟨rfl, rfl, ?_, ?_⟩
  · show dist r.head (r.tail + 1) ≤ r.mask.size
    rw [dist_add_one (by omega)]
    omega
  · show ringView (Function.update r.sqes (r.mask.index r.tail)
      (sqeOf name req)) r.mask r.head (r.tail + 1) = _
    rw [ringView_push h, ringView_write h, Function.update_self]
    rfl

/-- The kernel finds nothing in an empty ring. -/
theorem kernelTake_empty {r : SubmissionRing W P} (h : r.pending = []) :
    r.kernelTake = none := by
  have hlen : r.pending.length = 0 := by rw [h, List.length_nil]
  rw [length_pending, dist_eq_zero] at hlen
  exact if_pos hlen

/-- The kernel takes the first entry of the list. -/
theorem kernelTake_cons {r : SubmissionRing W P} {first : Sqe W P}
    {rest : List (Sqe W P)} (hwf : r.Wf) (h : r.pending = first :: rest) :
    ∃ r', r.kernelTake = some (first, r') ∧ r'.mask = r.mask ∧ r'.Wf ∧
      r'.pending = rest := by
  have hne : r.head ≠ r.tail := by
    intro heq
    rw [pending, heq, ringView_self] at h
    exact absurd h (List.cons_ne_nil _ _).symm
  have hpop : r.pending =
      r.sqes (r.mask.index r.head) ::
        ringView r.sqes r.mask (r.head + 1) r.tail :=
    ringView_pop hne r.sqes
  rw [h, List.cons.injEq] at hpop
  refine ⟨{ r with head := r.head + 1 }, ?_, rfl, ?_, hpop.2.symm⟩
  · rw [kernelTake, if_neg hne, hpop.1]
  · have hdist := dist_head_succ hne
    have hle : dist r.head r.tail ≤ r.mask.size := hwf
    show dist (r.head + 1) r.tail ≤ r.mask.size
    omega

end SubmissionRing

end Ride
