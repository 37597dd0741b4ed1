import Ride.CodeLib.Machine
import Ride.Queue.Model

/-!
# The event queue is a bounded FIFO

The producer and any number of consumers call the queue in any order, and
`queue_lock` makes each call one step.  A run is therefore a list of calls.
The eventfd of a consumer is not part of this module: a call carries the
counter that its eventfd has at that moment, whatever it is.

There are two descriptions of a run.

* `fifoStep` is the abstract queue: a list that holds at most
  `QUEUE_SIZE - 1` events.  `queueStep_simulates` compares the answers of the
  two, call by call.
* `QueueRun` adds the history of a run: the events that were added, and the
  events that the consumers took, in lock order.  `QueueRun.Inv` is the
  invariant that ties the history to the cells of the array.
-/

namespace Ride

open CodeLib.Machine

/-- One call, made under `queue_lock`. -/
inductive QueueCall where
  | add (event : Event)
  | consumeTry (consumer efd : Nat)

/-- What the caller sees: the return value, and the event that a consumer
finds in its buffer. -/
structure QueueAnswer where
  ret : Nat
  event : Event

/-- One call on the array.  A consumer clears its event before the call, as
`on_queue_event` does. -/
def queueStep (queue : Queue) : QueueCall → QueueAnswer × Queue
  | .add event =>
    let (ret, queue) := queueAdd queue event
    (⟨ret, event⟩, queue)
  | .consumeTry _ efd =>
    let c := queueConsumeTry queue .zero efd
    (⟨c.ret, c.event⟩, c.queue)

/-- One call on the abstract queue. -/
def fifoStep (pending : List Event) : QueueCall → QueueAnswer × List Event
  | .add event =>
    if pending.length = QUEUE_SIZE - 1 then (⟨1, event⟩, pending)
    else (⟨0, event⟩, pending ++ [event])
  | .consumeTry _ efd =>
    if efd = 0 then (⟨EAGAIN, .zero⟩, pending)
    else match pending with
      | [] => (⟨1, .zero⟩, [])
      | oldest :: rest => (⟨0, oldest⟩, rest)

/-- The array stands for the list that it holds. -/
def Queue.Represents (queue : Queue) (pending : List Event) : Prop :=
  queue.Wf ∧ queue.pending = pending

theorem queueStep_simulates :
    Simulates Queue.Represents queueStep fifoStep := by
  rintro queue _ call ⟨hwf, rfl⟩
  cases call with
  | add event =>
    rcases queueAdd_cases hwf event with ⟨hlen, hadd⟩ | ⟨hlen, hret, hwf', hpend⟩
    · simp only [queueStep, fifoStep, hadd, if_pos hlen]
      exact ⟨trivial, hwf, rfl⟩
    · simp only [queueStep, fifoStep, if_neg (Nat.ne_of_lt hlen), hret]
      exact ⟨trivial, hwf', hpend⟩
  | consumeTry consumer efd =>
    rcases queueConsumeTry_cases hwf .zero efd with
      ⟨rfl, hc⟩ | ⟨hefd, hnil, hc⟩ |
      ⟨hefd, oldest, rest, queue', hcons, hwf', hpend, hc⟩
    · simp only [queueStep, fifoStep, hc, if_pos]
      exact ⟨trivial, hwf, rfl⟩
    · simp only [queueStep, fifoStep, hc, hnil, if_neg (Nat.ne_of_gt hefd)]
      exact ⟨trivial, hwf, hnil⟩
    · simp only [queueStep, fifoStep, hc, hcons, if_neg (Nat.ne_of_gt hefd)]
      exact ⟨trivial, hwf', hpend⟩

/-! ## The history of a run -/

/-- The queue with the events added so far and the events taken so far. -/
structure QueueRun where
  queue : Queue
  added : List Event
  consumed : List Event

/-- A run starts with `queue_init`, on an array with any content. -/
def QueueRun.start (queue : Queue) : QueueRun :=
  ⟨queueInit queue, [], []⟩

/-- One call, with its successes recorded. -/
def QueueRun.step (r : QueueRun) (call : QueueCall) : QueueRun :=
  let (answer, queue) := queueStep r.queue call
  match call with
  | .add event =>
    { r with
      queue := queue
      added := if answer.ret = 0 then r.added ++ [event] else r.added }
  | .consumeTry _ _ =>
    { r with
      queue := queue
      consumed :=
        if answer.ret = 0 then r.consumed ++ [answer.event] else r.consumed }

/-- Every added event was taken or is in the array, in the order of the adds. -/
structure QueueRun.Inv (r : QueueRun) : Prop where
  wf : r.queue.Wf
  conserved : r.added = r.consumed ++ r.queue.pending

theorem QueueRun.inv_start (queue : Queue) : (QueueRun.start queue).Inv :=
  ⟨queueInit_wf queue, by simp [QueueRun.start]⟩

theorem QueueRun.inv_step (r : QueueRun) (call : QueueCall) (h : r.Inv) :
    (r.step call).Inv := by
  obtain ⟨hwf, hcons⟩ := h
  cases call with
  | add event =>
    rcases queueAdd_cases hwf event with ⟨-, hadd⟩ | ⟨-, hret, hwf', hpend⟩
    · constructor
      · simpa [QueueRun.step, queueStep, hadd] using hwf
      · simpa [QueueRun.step, queueStep, hadd] using hcons
    · constructor
      · simpa [QueueRun.step, queueStep] using hwf'
      · simp [QueueRun.step, queueStep, hret, hpend, hcons]
  | consumeTry consumer efd =>
    rcases queueConsumeTry_cases hwf .zero efd with
      ⟨-, hc⟩ | ⟨-, -, hc⟩ | ⟨-, oldest, rest, queue', hfirst, hwf', hpend, hc⟩
    · constructor
      · simpa [QueueRun.step, queueStep, hc] using hwf
      · simpa [QueueRun.step, queueStep, hc, EAGAIN] using hcons
    · constructor
      · simpa [QueueRun.step, queueStep, hc] using hwf
      · simpa [QueueRun.step, queueStep, hc] using hcons
    · constructor
      · simpa [QueueRun.step, queueStep, hc] using hwf'
      · simp [QueueRun.step, queueStep, hc, hcons, hfirst, hpend]

/-- The answer `1` of `queue_add`, with the queue left as it was, means exactly
that no cell is left. -/
theorem queueAdd_refuses_iff {queue : Queue} (h : queue.Wf) (event : Event) :
    queueAdd queue event = (1, queue) ↔
      queue.pending.length = QUEUE_SIZE - 1 := by
  rcases queueAdd_cases h event with ⟨hlen, hadd⟩ | ⟨hlen, hret, -, -⟩
  · exact ⟨fun _ => hlen, fun _ => hadd⟩
  · refine ⟨fun hadd => ?_, fun hfull => absurd hfull (Nat.ne_of_lt hlen)⟩
    rw [hadd] at hret
    exact absurd hret Nat.one_ne_zero

/-- The queue is a FIFO of capacity `QUEUE_SIZE - 1`.  For every order of calls
the answers are those of the abstract queue.  In every state the indices are in
range, an add is refused exactly when `QUEUE_SIZE - 1` events wait, the events
taken so far are a prefix of the events added so far, and the array holds the
rest. -/
theorem queue_refines_fifo (queue : Queue) (calls : List QueueCall) :
    let r := run QueueRun.step (.start queue) calls
    outputs queueStep (queueInit queue) calls = outputs fifoStep [] calls ∧
      r.queue.head < QUEUE_SIZE ∧ r.queue.tail < QUEUE_SIZE ∧
      r.queue.pending.length ≤ QUEUE_SIZE - 1 ∧
      (∀ event, queueAdd r.queue event = (1, r.queue) ↔
        r.queue.pending.length = QUEUE_SIZE - 1) ∧
      r.consumed <+: r.added ∧ r.added = r.consumed ++ r.queue.pending := by
  intro r
  have hinv : r.Inv :=
    run_invariant QueueRun.inv_step (QueueRun.inv_start queue) calls
  have hlt := r.queue.count_lt
  refine ⟨?_, hinv.wf.head_lt, hinv.wf.tail_lt, ?_,
    queueAdd_refuses_iff hinv.wf, ?_, hinv.conserved⟩
  · exact queueStep_simulates.outputs_eq
      ⟨queueInit_wf queue, queueInit_pending queue⟩ calls
  · rw [Queue.length_pending]
    omega
  · exact ⟨r.queue.pending, hinv.conserved.symm⟩

end Ride
