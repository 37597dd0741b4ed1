import Ride.CodeLib.FreeList
import Ride.CodeLib.Machine
import Ride.Queue.Model

/-!
# Tokens and events

The main thread hands every event to the processors in two steps.
`ride_ringbuf_handle` adds the event to the shared queue, and then writes `1`
to one of the eventfds, which it picks round robin.  There is one eventfd for
each processor, and all of them are semaphores.  A processor spends a token of
its own eventfd to take an event, and the event need not be the one that its
token was written for.

`Dispatch` is the state of this part: the queue, the counters, and the point
of `ride_ringbuf_handle` that the producer has reached.  `Dispatch.Covered` is
the counting invariant.  It holds between the two steps of the producer too,
because the invariant then counts the token that is still to come.
-/

namespace Ride

open CodeLib CodeLib.Machine

/-- The largest value of an eventfd counter. -/
def EVENTFD_MAX : Nat := 2 ^ 64 - 2

/-- `eventfd_write(efd, 1)` on a non-blocking eventfd.  The answer is `none`
where the counter has no room. -/
def eventfdWrite (efd : Nat) : Option Nat :=
  if efd < EVENTFD_MAX then some (efd + 1) else none

/-- Where the producer is: outside `ride_ringbuf_handle`, or between its two
calls, with the outcome of `queue_add`. -/
inductive Producer where
  | idle
  | added (stored : Bool)
deriving DecidableEq

/-- The token that the producer still owes for an event in the queue. -/
def Producer.owed : Producer → Nat
  | .idle => 0
  | .added stored => if stored then 1 else 0

/-- The queue, the eventfd counters of `k` processors and the producer.
`efdNext` holds the bits of the `int` counter of the round robin. -/
structure Dispatch (k : Nat) where
  queue : Queue
  efds : Fin k → Nat
  efdNext : UInt32
  producer : Producer
  exited : Bool

/-- The steps: the two calls of the producer, and the call that each consumer
makes. -/
inductive DispatchStep (k : Nat) where
  | queueAdd (event : Event)
  | eventfdWrite
  | queueConsumeTry (consumer : Fin k)

namespace Dispatch

variable {k : Nat} [NeZero k]

/-- The state that `ride_run` sets up. -/
def start (k : Nat) (queue : Queue) : Dispatch k where
  queue := queueInit queue
  efds := fun _ => 0
  efdNext := 0
  producer := .idle
  exited := false

/-- `efd_next % queue_eventfd_len`.  The length is unsigned, so the counter is
read as unsigned as well. -/
def target (d : Dispatch k) : Fin k :=
  Fin.ofNat k d.efdNext.toNat

/-- The first call of `ride_ringbuf_handle`.  Its return value is not used
there; `stored` keeps it for the invariant. -/
def handleAdd (d : Dispatch k) (event : Event) : Dispatch k :=
  match d.producer with
  | .idle =>
    let (ret, queue) := queueAdd d.queue event
    { d with queue := queue, producer := .added (ret = 0) }
  | .added _ => d

/-- The second call of `ride_ringbuf_handle`. -/
def handleWrite (d : Dispatch k) : Dispatch k :=
  match d.producer with
  | .idle => d
  | .added _ =>
    match eventfdWrite (d.efds d.target) with
    | none => { d with exited := true }
    | some efd =>
      { d with
        efds := Function.update d.efds d.target efd
        efdNext := d.efdNext + 1
        producer := .idle }

/-- The call of `queue_consume_try` that the processor `i` makes. -/
def consume (d : Dispatch k) (i : Fin k) : Dispatch k :=
  let c := queueConsumeTry d.queue .zero (d.efds i)
  { d with queue := c.queue, efds := Function.update d.efds i c.efd }

/-- One step of any party.  Nothing moves once the process has exited. -/
def step (d : Dispatch k) (a : DispatchStep k) : Dispatch k :=
  if d.exited then d
  else match a with
    | .queueAdd event => d.handleAdd event
    | .eventfdWrite => d.handleWrite
    | .queueConsumeTry i => d.consume i

/-- The first step of the producer. -/
theorem step_queueAdd {d : Dispatch k} (hlive : d.exited = false)
    (hidle : d.producer = .idle) (event : Event) :
    d.step (.queueAdd event) = { d with
      queue := (queueAdd d.queue event).2
      producer := .added ((queueAdd d.queue event).1 = 0) } := by
  rw [step, if_neg (by simp [hlive])]
  simp only [handleAdd, hidle]

/-- The second step of the producer, where the eventfd has room. -/
theorem step_eventfdWrite {d : Dispatch k} (hlive : d.exited = false)
    {stored : Bool} (hadded : d.producer = .added stored) {efd : Nat}
    (hwrite : eventfdWrite (d.efds d.target) = some efd) :
    d.step .eventfdWrite = { d with
      efds := Function.update d.efds d.target efd
      efdNext := d.efdNext + 1
      producer := .idle } := by
  rw [step, if_neg (by simp [hlive])]
  simp only [handleWrite, hadded, hwrite]

/-- Both steps of the producer for one event. -/
theorem run_handle {d : Dispatch k} (hidle : d.producer = .idle)
    (hlive : d.exited = false) (event : Event) {efd : Nat}
    (hwrite : eventfdWrite (d.efds d.target) = some efd) :
    run step d [.queueAdd event, .eventfdWrite] = { d with
      queue := (queueAdd d.queue event).2
      efds := Function.update d.efds d.target efd
      efdNext := d.efdNext + 1
      producer := .idle } := by
  rw [run_cons, run_cons, run_nil, step_queueAdd hlive hidle event]
  refine step_eventfdWrite ?_ rfl ?_
  · exact hlive
  · exact hwrite

/-! ## The counting invariant -/

/-- The tokens of all the eventfds together. -/
def tokens (d : Dispatch k) : Nat :=
  ∑ i, d.efds i

/-- The events in the queue are covered by the tokens in the eventfds and the
token that the producer owes. -/
structure Covered (d : Dispatch k) : Prop where
  wf : d.queue.Wf
  covered : d.queue.pending.length ≤ d.tokens + d.producer.owed

omit [NeZero k] in
theorem covered_start (queue : Queue) : (start k queue).Covered :=
  ⟨queueInit_wf queue, by simp [start]⟩

omit [NeZero k] in
/-- An event that is stored is covered by the token that the producer now
owes, and an event that is rejected needs no cover. -/
theorem Covered.handleAdd {d : Dispatch k} (h : d.Covered) (event : Event) :
    (d.handleAdd event).Covered := by
  obtain ⟨hwf, hcov⟩ := h
  unfold Dispatch.handleAdd
  cases hp : d.producer with
  | added stored =>
    rw [hp] at hcov
    exact ⟨hwf, by rw [hp]; exact hcov⟩
  | idle =>
    rw [hp] at hcov
    rcases queueAdd_cases hwf event with ⟨-, hadd⟩ | ⟨-, hret, hwf', hpend⟩
    · rw [hadd]
      exact ⟨hwf, hcov⟩
    · refine ⟨hwf', ?_⟩
      simp only [hpend, hret, List.length_append, List.length_singleton,
        Producer.owed, tokens] at hcov ⊢
      simpa using hcov

theorem Covered.handleWrite {d : Dispatch k} (h : d.Covered) :
    d.handleWrite.Covered := by
  obtain ⟨hwf, hcov⟩ := h
  unfold Dispatch.handleWrite
  cases hp : d.producer with
  | idle => exact ⟨hwf, hcov⟩
  | added stored =>
    by_cases hroom : d.efds d.target < EVENTFD_MAX
    · have hsum := sum_update_add d.efds d.target (d.efds d.target + 1)
      have howed : (Producer.added stored).owed ≤ 1 := by
        cases stored <;> decide
      rw [hp] at hcov
      simp only [eventfdWrite, if_pos hroom]
      refine ⟨hwf, ?_⟩
      show d.queue.pending.length ≤
        ∑ j, Function.update d.efds d.target (d.efds d.target + 1) j + 0
      unfold tokens at hcov
      omega
    · rw [hp] at hcov
      simp only [eventfdWrite, if_neg hroom]
      exact ⟨hwf, hcov⟩

omit [NeZero k] in
/-- A consumer that takes an event spends a token, whoever the token was
written for.  A token spent on an empty queue costs no cover. -/
theorem Covered.consume {d : Dispatch k} (h : d.Covered) (i : Fin k) :
    (d.consume i).Covered := by
  obtain ⟨hwf, hcov⟩ := h
  rcases queueConsumeTry_cases hwf .zero (d.efds i) with
    ⟨-, hc⟩ | ⟨-, hnil, hc⟩ | ⟨hefd, oldest, rest, queue', hfirst, hwf', hpend, hc⟩
  · refine ⟨by simpa [Dispatch.consume, hc] using hwf, ?_⟩
    simpa [Dispatch.consume, hc, tokens] using hcov
  · refine ⟨by simpa [Dispatch.consume, hc] using hwf, ?_⟩
    simp only [Dispatch.consume, hc, hnil, List.length_nil]
    exact Nat.zero_le _
  · refine ⟨by simpa [Dispatch.consume, hc] using hwf', ?_⟩
    have hsum := sum_update_add d.efds i (d.efds i - 1)
    have hlen : d.queue.pending.length = rest.length + 1 := by
      rw [hfirst, List.length_cons]
    simp only [Dispatch.consume, hc, hpend, tokens] at hcov ⊢
    omega

theorem Covered.step {d : Dispatch k} (h : d.Covered) (a : DispatchStep k) :
    (d.step a).Covered := by
  unfold Dispatch.step
  split
  · exact h
  · cases a with
    | queueAdd event => exact h.handleAdd event
    | eventfdWrite => exact h.handleWrite
    | queueConsumeTry i => exact h.consume i

/-- In every state of every interleaving of the producer with `k` consumers,
the events in the queue are at most the tokens in the eventfds, plus the one
token that the producer owes between a successful `queue_add` and its
`eventfd_write`. -/
theorem tokens_cover_events (queue : Queue) (steps : List (DispatchStep k)) :
    let d := run step (start k queue) steps
    d.queue.pending.length ≤
      ∑ i, d.efds i + (if d.producer = .added true then 1 else 0) := by
  intro d
  have hcov : d.Covered :=
    run_invariant (fun _ a h => h.step a) (covered_start queue) steps
  have howed : d.producer.owed = if d.producer = .added true then 1 else 0 := by
    cases d.producer with
    | idle => rfl
    | added stored => cases stored <;> rfl
  rw [← howed]
  exact hcov.covered

/-- Two processors: the first token goes to processor `0`, and processor `1`
finds none, while the token of the second event is still owed. -/
theorem tokens_cover_events_two :
    let d := run step (start 2 ⟨fun _ => .zero, 0, 0⟩)
      [.queueAdd .zero, .eventfdWrite, .queueAdd (.ofPath [47, 97]),
        .queueConsumeTry 1, .queueConsumeTry 0]
    d.queue.pending.length ≤
      ∑ i, d.efds i + (if d.producer = .added true then 1 else 0) :=
  tokens_cover_events _ _

end Dispatch

end Ride
