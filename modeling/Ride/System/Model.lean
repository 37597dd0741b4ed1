import Ride.Dispatch.Tokens
import Ride.Processor.Kernel

/-!
# The producer and the processors together

`ride_run` starts one thread for each processor, and goes on as the producer.
The threads share the event queue, and each processor polls its own eventfd.
`System` puts `Dispatch` and the processors together: a processor that reaps a
completion of its poll calls `queue_consume_try` on the shared queue and on its
own eventfd.

The kernel turns writes to a polled eventfd into completions of the poll.  In
between they are notifications, and `System.notes` counts the ones that are
pending for each eventfd.  A write leaves at least one, and a write that finds
one may be merged with it.  Nothing else is asked of the kernel: notifications
may come late, and also without a write.
-/

namespace Ride

/-- The operation is the poll of the queue. -/
def Op.Polls {n : Nat} (op : Op n) : Prop :=
  op.name.req = .queuePoll ∧ op.kind = .poll

instance {n : Nat} : DecidablePred (Op.Polls (n := n)) := fun op =>
  inferInstanceAs (Decidable (op.name.req = .queuePoll ∧ op.kind = .poll))

namespace Sys

variable {B : Blake3} {n : Nat}

/-- The kernel watches the eventfd of the processor. -/
def Armed (s : Sys B n) : Prop :=
  ∃ op ∈ s.ops, op.Polls

instance (s : Sys B n) : Decidable s.Armed :=
  inferInstanceAs (Decidable (∃ op ∈ s.ops, op.Polls))

/-- The notifications that are pending for the eventfd of a processor after a
step of it.  A completion of the poll delivers one, and the last completion of
the poll leaves none. -/
def notesAfter (s : Sys B n) (notes : Nat) : SysStep n → Nat
  | .kernel (.notify j _ flags) =>
    if (∃ op ∈ s.ops[j]?, op.Polls) ∧ hasMore flags ∧ s.cq.room then notes - 1
    else notes
  | .kernel (.complete j _ flags) =>
    if (∃ op ∈ s.ops[j]?, op.Polls) ∧ hasMore flags = false ∧ s.cq.room then 0
    else notes
  | _ => notes

/-- The step runs `on_queue_event` up to its call of `queue_consume_try`. -/
def Consumes (s : Sys B n) : SysStep n → Prop
  | .dispatch ans => s.todo = [] ∧ ans.efdError = false ∧
      ∃ cqe ∈ s.cq.current, 0 ≤ cqe.res ∧
        (s.req cqe.userData.req).callback = some .onQueueEvent
  | _ => False

instance (s : Sys B n) : DecidablePred s.Consumes := fun a =>
  match a with
  | .dispatch _ => inferInstanceAs (Decidable (_ ∧ _ ∧ ∃ cqe ∈ _, _))
  | .kernel _ => isFalse not_false
  | .load => isFalse not_false
  | .proceed _ => isFalse not_false
  | .publish => isFalse not_false

end Sys

/-- The queue and the eventfd that a callback finds. -/
def SysStep.withQueue {n : Nat} (queue : Queue) (efd : Nat) :
    SysStep n → SysStep n
  | .dispatch ans => .dispatch { ans with queue := queue, efd := efd }
  | a => a

/-- The producer with the queue and the eventfds, the processors, and the poll
notifications that are pending for each eventfd. -/
structure System (B : Blake3) (k n : Nat) where
  dispatch : Dispatch k
  processors : Fin k → Sys B n
  notes : Fin k → Nat

/-- The steps: the two calls of the producer, a notification that no write has
led to, and the steps of a processor and of the kernel for it. -/
inductive SystemStep (k n : Nat) where
  | queueAdd (event : Event)
  | eventfdWrite (merged : Bool)
  | raise (i : Fin k)
  | processor (i : Fin k) (a : SysStep n)

namespace System

variable {B : Blake3} {k n : Nat}

/-- The process has not exited. -/
def Running (s : System B k n) : Prop :=
  s.dispatch.exited = false ∧ ∀ i, (s.processors i).halted = none

instance (s : System B k n) : Decidable s.Running :=
  inferInstanceAs (Decidable (_ ∧ ∀ i, (s.processors i).halted = none))

/-- The state that `ride_run` sets up. -/
def start (B : Blake3) [NeZero n] (queue : Queue) (boot : Fin k → Sys.Boot n) :
    System B k n where
  dispatch := .start k queue
  processors := fun i => .processorRun B (boot i)
  notes := fun _ => 0

section Steps

variable [NeZero k]

/-- The next write of the producer goes through. -/
def Writes (s : System B k n) : Prop :=
  s.dispatch.producer ≠ .idle ∧
    s.dispatch.efds s.dispatch.target < EVENTFD_MAX

instance (s : System B k n) : Decidable s.Writes :=
  inferInstanceAs (Decidable (_ ∧ _))

/-- The second call of `ride_ringbuf_handle`, and what the kernel makes of it. -/
def eventfdWrite (s : System B k n) (merged : Bool) : System B k n :=
  let i := s.dispatch.target
  { s with
    dispatch := s.dispatch.handleWrite
    notes :=
      if s.Writes ∧ (s.processors i).Armed ∧ ¬ (merged ∧ 0 < s.notes i) then
        Function.update s.notes i (s.notes i + 1)
      else s.notes }

/-- A step of a processor, or of the kernel for it. -/
def processorStep (s : System B k n) (i : Fin k) (a : SysStep n) :
    System B k n where
  dispatch := if (s.processors i).Consumes a then s.dispatch.consume i
    else s.dispatch
  processors := Function.update s.processors i ((s.processors i).step
    (a.withQueue s.dispatch.queue (s.dispatch.efds i)))
  notes := Function.update s.notes i ((s.processors i).notesAfter (s.notes i) a)

/-- One step of any party.  An exit of one thread ends all of them. -/
def step (s : System B k n) (a : SystemStep k n) : System B k n :=
  if s.Running then
    match a with
    | .queueAdd event => { s with dispatch := s.dispatch.handleAdd event }
    | .eventfdWrite merged => s.eventfdWrite merged
    | .raise i =>
      if (s.processors i).Armed then
        { s with notes := Function.update s.notes i (s.notes i + 1) }
      else s
    | .processor i a => s.processorStep i a
  else s

end Steps

end System

end Ride
