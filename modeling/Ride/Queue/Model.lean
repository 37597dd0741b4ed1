import Ride.CodeLib.Window
import Ride.Event

/-!
# The shared event queue

`queue.c` keeps the events between the producer and the processors in an array
of `QUEUE_SIZE` cells with two wrapping indices.  `queueAdd` writes at `head`,
and `queueConsumeTry` reads at `tail`.  Both take `queue_lock` for their whole
body, so each one is one step of any run.

A consumer first takes a token from its own eventfd.  The eventfds are
non-blocking semaphores, so a read takes one from the counter, and fails with
`EAGAIN` at zero.

`Queue.pending` is the list that the array holds.  The two spec lemmas,
`queueAdd_cases` and `queueConsumeTry_cases`, say everything that a call can do
to it, and no later module unfolds the two functions.
-/

namespace Ride

open CodeLib

/-- `QUEUE_SIZE` of `queue.h`. -/
def QUEUE_SIZE : Nat := 8192

/-- `EAGAIN` of `errno.h`. -/
def EAGAIN : Nat := 11

/-- `struct queue`.  The indices are `int`, and never negative. -/
structure Queue where
  events : Nat → Event
  head : Nat
  tail : Nat

/-! ## The source functions -/

/-- `queue_init` resets the indices and leaves the cells. -/
def queueInit (queue : Queue) : Queue :=
  { queue with head := 0, tail := 0 }

/-- `queue_add`: the return value and the queue after the call. -/
def queueAdd (queue : Queue) (event : Event) : Nat × Queue :=
  if (queue.head + 1) % QUEUE_SIZE = queue.tail then
    (1, queue)
  else
    (0, { queue with
      events := Function.update queue.events queue.head event
      head := (queue.head + 1) % QUEUE_SIZE })

/-- `eventfd_read` on a non-blocking semaphore.  The answer is `none` where the
call fails with `EAGAIN`. -/
def eventfdRead (efd : Nat) : Option Nat :=
  if efd = 0 then none else some (efd - 1)

/-- What a call of `queue_consume_try` leaves behind: its return value, the
caller's event, the queue and the counter of the caller's eventfd. -/
structure Consumption where
  ret : Nat
  event : Event
  queue : Queue
  efd : Nat

/-- `queue_consume_try`.  The event is the caller's buffer, and only a
successful call writes it. -/
def queueConsumeTry (queue : Queue) (event : Event) (efd : Nat) : Consumption :=
  match eventfdRead efd with
  | none => ⟨EAGAIN, event, queue, efd⟩
  | some efd =>
    if queue.head = queue.tail then
      -- the token is gone, whether or not there was an event for it
      ⟨1, event, queue, efd⟩
    else
      ⟨0, queue.events queue.tail,
        { queue with tail := (queue.tail + 1) % QUEUE_SIZE }, efd⟩

/-! ## The list that the array holds -/

/-- Both indices are in range. -/
structure Queue.Wf (queue : Queue) : Prop where
  head_lt : queue.head < QUEUE_SIZE
  tail_lt : queue.tail < QUEUE_SIZE

/-- The number of cells between `tail` and `head`. -/
def Queue.count (queue : Queue) : Nat :=
  (queue.head + QUEUE_SIZE - queue.tail) % QUEUE_SIZE

/-- The events that wait in the queue, oldest first. -/
def Queue.pending (queue : Queue) : List Event :=
  window queue.events QUEUE_SIZE queue.tail queue.count

@[simp] theorem Queue.length_pending (queue : Queue) :
    queue.pending.length = queue.count :=
  length_window _ _ _ _

theorem Queue.count_lt (queue : Queue) : queue.count < QUEUE_SIZE :=
  Nat.mod_lt _ (by decide)

theorem Queue.Wf.head_eq {queue : Queue} (h : queue.Wf) :
    (queue.tail + queue.count) % QUEUE_SIZE = queue.head := by
  have hhead := h.head_lt
  have htail := h.tail_lt
  simp only [Queue.count, QUEUE_SIZE] at *
  omega

/-- The test of `queue_add` holds exactly when one cell is left. -/
theorem Queue.Wf.full_iff {queue : Queue} (h : queue.Wf) :
    (queue.head + 1) % QUEUE_SIZE = queue.tail ↔
      queue.count = QUEUE_SIZE - 1 := by
  have hhead := h.head_lt
  have htail := h.tail_lt
  simp only [Queue.count, QUEUE_SIZE] at *
  omega

/-- The test of `queue_consume_try` holds exactly when nothing waits. -/
theorem Queue.Wf.empty_iff {queue : Queue} (h : queue.Wf) :
    queue.head = queue.tail ↔ queue.count = 0 := by
  have hhead := h.head_lt
  have htail := h.tail_lt
  simp only [Queue.count, QUEUE_SIZE] at *
  omega

theorem queueInit_wf (queue : Queue) : (queueInit queue).Wf :=
  ⟨Nat.zero_lt_succ _, Nat.zero_lt_succ _⟩

@[simp] theorem queueInit_pending (queue : Queue) :
    (queueInit queue).pending = [] := by
  simp [Queue.pending, Queue.count, queueInit]

/-! ## What a call can do -/

/-- A call of `queue_add` either finds `QUEUE_SIZE - 1` events and changes
nothing, or puts the event behind the others. -/
theorem queueAdd_cases {queue : Queue} (h : queue.Wf) (event : Event) :
    (queue.pending.length = QUEUE_SIZE - 1 ∧ queueAdd queue event = (1, queue)) ∨
      (queue.pending.length < QUEUE_SIZE - 1 ∧ (queueAdd queue event).1 = 0 ∧
        (queueAdd queue event).2.Wf ∧
        (queueAdd queue event).2.pending = queue.pending ++ [event]) := by
  rw [Queue.length_pending]
  have hlt := queue.count_lt
  unfold queueAdd
  by_cases hfull : (queue.head + 1) % QUEUE_SIZE = queue.tail
  · rw [if_pos hfull]
    exact Or.inl ⟨h.full_iff.mp hfull, rfl⟩
  · rw [if_neg hfull]
    have hcount : queue.count < QUEUE_SIZE - 1 := by
      have := mt h.full_iff.mpr hfull
      omega
    refine Or.inr ⟨hcount, rfl, ⟨Nat.mod_lt _ (by decide), h.tail_lt⟩, ?_⟩
    have hnext : ((queue.head + 1) % QUEUE_SIZE + QUEUE_SIZE - queue.tail)
        % QUEUE_SIZE = queue.count + 1 := by
      have h1 := h.head_lt
      have h2 := h.tail_lt
      simp only [Queue.count, QUEUE_SIZE] at *
      omega
    have hpush : window (Function.update queue.events
        ((queue.tail + queue.count) % QUEUE_SIZE) event) QUEUE_SIZE queue.tail
        (queue.count + 1) = queue.pending ++ [event] :=
      window_push hlt queue.events event
    rw [h.head_eq, ← hnext] at hpush
    exact hpush

/-- A call of `queue_consume_try` fails without a token, spends a token on an
empty queue, or takes the oldest event. -/
theorem queueConsumeTry_cases {queue : Queue} (h : queue.Wf) (event : Event)
    (efd : Nat) :
    (efd = 0 ∧ queueConsumeTry queue event efd = ⟨EAGAIN, event, queue, efd⟩) ∨
    (0 < efd ∧ queue.pending = [] ∧
      queueConsumeTry queue event efd = ⟨1, event, queue, efd - 1⟩) ∨
    (0 < efd ∧ ∃ oldest rest queue', queue.pending = oldest :: rest ∧
      queue'.Wf ∧ queue'.pending = rest ∧
      queueConsumeTry queue event efd = ⟨0, oldest, queue', efd - 1⟩) := by
  rcases Nat.eq_zero_or_pos efd with rfl | hefd
  · exact Or.inl ⟨rfl, rfl⟩
  have hread : eventfdRead efd = some (efd - 1) := if_neg (by omega)
  unfold queueConsumeTry
  rw [hread]
  by_cases hempty : queue.head = queue.tail
  · refine Or.inr (Or.inl ⟨hefd, ?_, if_pos hempty⟩)
    rw [Queue.pending, h.empty_iff.mp hempty, window_zero]
  · have hcount : queue.count = queue.count - 1 + 1 := by
      have := mt h.empty_iff.mpr hempty
      omega
    refine Or.inr (Or.inr ⟨hefd, queue.events queue.tail,
      window queue.events QUEUE_SIZE (queue.tail + 1) (queue.count - 1), _,
      ?_, ?_, ?_, if_neg hempty⟩)
    · have hcons := window_cons queue.events QUEUE_SIZE queue.tail
        (queue.count - 1)
      rw [← hcount, Nat.mod_eq_of_lt h.tail_lt] at hcons
      exact hcons
    · exact ⟨h.head_lt, Nat.mod_lt _ (by decide)⟩
    · have hnext : (queue.head + QUEUE_SIZE - (queue.tail + 1) % QUEUE_SIZE)
          % QUEUE_SIZE = queue.count - 1 := by
        have h1 := h.head_lt
        have h2 := h.tail_lt
        simp only [Queue.count, QUEUE_SIZE] at *
        omega
      rw [Queue.pending, Queue.count, hnext]
      exact window_mod _ _ _ _

/-- Every call spends a token where there is one. -/
theorem queueConsumeTry_efd (queue : Queue) (event : Event) (efd : Nat) :
    (queueConsumeTry queue event efd).efd = efd - 1 := by
  unfold queueConsumeTry eventfdRead
  by_cases hzero : efd = 0
  · rw [if_pos hzero, hzero]
  · rw [if_neg hzero]
    show (if queue.head = queue.tail then _ else _ : Consumption).efd = _
    split_ifs <;> rfl

end Ride
