import Ride.CodeLib.Ring

/-!
# The completion ring

The kernel appends completions to the completion ring of `io_uring`, and
`ev_loop_run` reaps them.  The kernel owns `tail`, and the event loop owns
`head`.  The loop takes a snapshot of `tail`, walks a local index from `head` to
the snapshot, and stores `head` only after the whole batch.

`Reaper` is the ring and the position of the loop in it.  `load`, `current`,
`advance` and `publish` are the steps of the loop, and `post` is the step of the
kernel.  `Reaper.unreaped` is the list of the completions that no callback has
been given yet, and each step has one lemma in terms of it:

* `unreaped_load` and `unreaped_publish`: the list stays as it is;
* `unreaped_cons`: the entry at the index is the first one of the list;
* `unreaped_post`: an accepted completion is the last one of the list.
-/

namespace Ride

open CodeLib

/-- `struct io_uring_cqe`. -/
structure Cqe (P : Type) where
  userData : P
  res : Int
  flags : UInt32
deriving DecidableEq

/-- The completion ring: `struct ev__iou_ring` and the array of entries. -/
structure CompletionRing (P : Type) where
  mask : RingMask
  head : UInt32
  tail : UInt32
  cqes : Nat → Cqe P

/-- Where `ev_loop_run` is: in the poll, or in the walk, with its index and its
snapshot of the tail. -/
inductive LoopPos where
  | polling
  | reaping (i tail : UInt32)
deriving DecidableEq

/-- The completion ring and the loop that reaps it. -/
structure Reaper (P : Type) where
  ring : CompletionRing P
  pos : LoopPos

variable {P : Type}

namespace Reaper

/-! ## The steps of the loop and of the kernel -/

/-- The poll returns, and the walk starts at `head` with a snapshot of the tail.
The return value of the poll does not matter: the loop stores it in a
`uint32_t`, which is never below zero. -/
def load (r : Reaper P) : Reaper P :=
  match r.pos with
  | .polling => { r with pos := .reaping r.ring.head r.ring.tail }
  | .reaping _ _ => r

/-- The entry at the index of the walk. -/
def current (r : Reaper P) : Option (Cqe P) :=
  match r.pos with
  | .polling => none
  | .reaping i tail =>
    if i = tail then none else some (r.ring.cqes (r.ring.mask.index i))

/-- The index moves to the next entry. -/
def advance (r : Reaper P) : Reaper P :=
  match r.pos with
  | .polling => r
  | .reaping i tail =>
    if i = tail then r else { r with pos := .reaping (i + 1) tail }

/-- The walk is over, and `head` becomes the snapshot of the tail. -/
def publish (r : Reaper P) : Reaper P :=
  match r.pos with
  | .polling => r
  | .reaping i tail =>
    if i = tail then
      { r with ring := { r.ring with head := tail }, pos := .polling }
    else r

/-- The kernel has a free entry: it only knows the published `head`. -/
def room (r : Reaper P) : Bool :=
  r.ring.tail - r.ring.head ≤ r.ring.mask.val

/-- The kernel appends a completion when there is room. -/
def post (r : Reaper P) (cqe : Cqe P) : Reaper P :=
  if r.room then
    { r with
      ring := { r.ring with
        tail := r.ring.tail + 1
        cqes := Function.update r.ring.cqes (r.ring.mask.index r.ring.tail)
          cqe } }
  else r

/-! ## The completions that wait for their callback -/

/-- The first completion without a callback: the index, or `head` between two
batches. -/
def front (r : Reaper P) : UInt32 :=
  match r.pos with
  | .polling => r.ring.head
  | .reaping i _ => i

/-- The completions that no callback has been given, oldest first. -/
def unreaped (r : Reaper P) : List (Cqe P) :=
  ringView r.ring.cqes r.ring.mask r.front r.ring.tail

/-- The number of entries that the walk still has before it. -/
def todo (r : Reaper P) : Nat :=
  match r.pos with
  | .polling => 0
  | .reaping i tail => dist i tail

/-- The counters are in the order `head`, index, snapshot, `tail`, and no more
entries are in use than there are. -/
structure Wf (r : Reaper P) : Prop where
  tail_le : dist r.ring.head r.ring.tail ≤ r.ring.mask.size
  pos_le : ∀ i tail, r.pos = .reaping i tail →
    dist r.ring.head i ≤ dist r.ring.head tail ∧
      dist r.ring.head tail ≤ dist r.ring.head r.ring.tail

/-- An empty ring, with any counter value and any content. -/
def start (mask : RingMask) (counter : UInt32) (cqes : Nat → Cqe P) :
    Reaper P where
  ring := ⟨mask, counter, counter, cqes⟩
  pos := .polling

theorem wf_start (mask : RingMask) (counter : UInt32) (cqes : Nat → Cqe P) :
    (start mask counter cqes).Wf where
  tail_le := by simp [start]
  pos_le := by
    intro i tail hpos
    exact absurd hpos (by simp [start])

@[simp] theorem unreaped_start (mask : RingMask) (counter : UInt32)
    (cqes : Nat → Cqe P) : (start mask counter cqes).unreaped = [] :=
  ringView_self _ _ _

/-- What is unreaped is what lies between `head` and `tail`, without what the
walk has passed. -/
theorem Wf.dist_front {r : Reaper P} (h : r.Wf) :
    dist r.ring.head r.ring.tail =
      dist r.ring.head r.front + dist r.front r.ring.tail := by
  apply dist_split
  unfold front
  cases hpos : r.pos with
  | polling => simp
  | reaping i tail =>
    obtain ⟨hi, htail⟩ := h.pos_le i tail hpos
    exact Nat.le_trans hi htail

theorem length_unreaped (r : Reaper P) :
    r.unreaped.length = dist r.front r.ring.tail :=
  length_ringView _ _ _ _

theorem room_iff (r : Reaper P) :
    r.room = true ↔ dist r.ring.head r.ring.tail < r.ring.mask.size := by
  have hfull := mask_lt_iff r.ring.mask r.ring.head r.ring.tail
  rw [room, decide_eq_true_iff, ← UInt32.not_lt, hfull]
  omega

/-! ## One lemma for each step -/

@[simp] theorem unreaped_load (r : Reaper P) : r.load.unreaped = r.unreaped := by
  cases hpos : r.pos <;> simp [load, unreaped, front, hpos]

theorem Wf.load {r : Reaper P} (h : r.Wf) : r.load.Wf := by
  cases hpos : r.pos with
  | reaping i tail => simpa only [Reaper.load, hpos] using h
  | polling =>
    simp only [Reaper.load, hpos]
    refine ⟨h.tail_le, ?_⟩
    rintro i tail ⟨⟩
    exact ⟨by simp, Nat.le_refl _⟩

/-- The walk ends at its snapshot, and `head` becomes the index. -/
@[simp] theorem unreaped_publish (r : Reaper P) :
    r.publish.unreaped = r.unreaped := by
  cases hpos : r.pos with
  | polling => simp only [publish, hpos]
  | reaping i tail =>
    simp only [publish, hpos]
    split_ifs with hend
    · simp only [unreaped, front, hpos, hend]
    · rfl

theorem Wf.publish {r : Reaper P} (h : r.Wf) : r.publish.Wf := by
  cases hpos : r.pos with
  | polling => simpa only [Reaper.publish, hpos] using h
  | reaping i tail =>
    simp only [Reaper.publish, hpos]
    split_ifs with hend
    · have hsplit := h.dist_front
      have hle := h.tail_le
      simp only [front, hpos, hend] at hsplit
      refine ⟨?_, ?_⟩
      · show dist tail r.ring.tail ≤ r.ring.mask.size
        omega
      · rintro j t ⟨⟩
    · exact h

/-- The entry at the index comes first, and the next index has the others. -/
theorem unreaped_cons {r : Reaper P} {cqe : Cqe P} (h : r.Wf)
    (hcur : r.current = some cqe) :
    r.unreaped = cqe :: r.advance.unreaped := by
  cases hpos : r.pos with
  | polling => simp [current, hpos] at hcur
  | reaping i tail =>
    simp only [current, hpos] at hcur
    split_ifs at hcur with hend
    rw [Option.some.injEq] at hcur
    obtain ⟨hi, htail⟩ := h.pos_le i tail hpos
    have hne : i ≠ r.ring.tail := by
      -- an index at the tail would lie behind the snapshot
      intro heq
      have hsplit := dist_split hi
      have hpos' : dist i tail ≠ 0 := mt dist_eq_zero.mp hend
      rw [← heq] at htail
      omega
    have hpop := ringView_pop (m := r.ring.mask) hne r.ring.cqes
    simp only [unreaped, front, advance, hpos, if_neg hend]
    rw [hpop, hcur]

theorem Wf.advance {r : Reaper P} (h : r.Wf) : r.advance.Wf := by
  cases hpos : r.pos with
  | polling => simpa only [Reaper.advance, hpos] using h
  | reaping i tail =>
    simp only [Reaper.advance, hpos]
    split_ifs with hend
    · exact h
    · obtain ⟨hi, htail⟩ := h.pos_le i tail hpos
      refine ⟨h.tail_le, ?_⟩
      rintro j t ⟨⟩
      have hsplit := dist_split hi
      have hne : dist i tail ≠ 0 := mt dist_eq_zero.mp hend
      have hsize := r.ring.mask.size_le
      have hle := h.tail_le
      have hsucc : dist r.ring.head (i + 1) = dist r.ring.head i + 1 :=
        dist_add_one (by omega)
      refine ⟨?_, htail⟩
      show dist r.ring.head (i + 1) ≤ dist r.ring.head tail
      omega

/-- The kernel appends behind the others, and overwrites none of them. -/
theorem unreaped_post {r : Reaper P} (h : r.Wf) (cqe : Cqe P) :
    (r.post cqe).unreaped =
      r.unreaped ++ (if r.room then [cqe] else []) := by
  unfold post
  split_ifs with hroom
  · rw [room_iff] at hroom
    have hsplit := h.dist_front
    have hfree : dist r.front r.ring.tail < r.ring.mask.size := by omega
    show ringView (Function.update r.ring.cqes
      (r.ring.mask.index r.ring.tail) cqe) r.ring.mask r.front
      (r.ring.tail + 1) = _
    rw [ringView_push hfree, ringView_write hfree, Function.update_self]
    rfl
  · rw [List.append_nil]

theorem Wf.post {r : Reaper P} (h : r.Wf) (cqe : Cqe P) : (r.post cqe).Wf := by
  unfold Reaper.post
  split_ifs with hroom
  · rw [room_iff] at hroom
    have hsize := r.ring.mask.size_le
    have hsucc : dist r.ring.head (r.ring.tail + 1) =
        dist r.ring.head r.ring.tail + 1 := dist_add_one (by omega)
    refine ⟨?_, ?_⟩
    · show dist r.ring.head (r.ring.tail + 1) ≤ r.ring.mask.size
      omega
    · intro i tail hpos
      obtain ⟨hi, htail⟩ := h.pos_le i tail hpos
      refine ⟨hi, ?_⟩
      show dist r.ring.head tail ≤ dist r.ring.head (r.ring.tail + 1)
      omega
  · exact h

theorem post_pos (r : Reaper P) (cqe : Cqe P) : (r.post cqe).pos = r.pos := by
  unfold post
  split_ifs <;> rfl

theorem post_frame (r : Reaper P) (cqe : Cqe P) :
    (r.post cqe).ring.mask = r.ring.mask ∧
      (r.post cqe).ring.head = r.ring.head := by
  unfold post
  split_ifs <;> exact ⟨rfl, rfl⟩

theorem current_isSome (r : Reaper P) : r.current.isSome ↔ 0 < r.todo := by
  cases hpos : r.pos with
  | polling => simp [current, todo, hpos]
  | reaping i tail =>
    simp only [current, todo, hpos, Nat.pos_iff_ne_zero]
    rw [Ne, dist_eq_zero]
    split_ifs <;> simp_all

/-- The kernel does not change the entry at the index. -/
theorem current_post {r : Reaper P} (h : r.Wf) {cqe : Cqe P}
    (hcur : r.current = some cqe) (next : Cqe P) :
    (r.post next).current = some cqe := by
  have hsome : (r.post next).current.isSome := by
    have hbefore : 0 < r.todo := by
      rw [← current_isSome, hcur]
      rfl
    rw [current_isSome]
    unfold todo at hbefore ⊢
    rwa [post_pos]
  obtain ⟨kept, hkept⟩ := Option.isSome_iff_exists.mp hsome
  have hafter := unreaped_cons (h.post next) hkept
  rw [unreaped_post h, unreaped_cons h hcur, List.cons_append,
    List.cons.injEq] at hafter
  rw [hkept, hafter.1]

end Reaper

end Ride
