import Ride.Bpf.Ring
import Ride.System.Model

/-!
# The whole process

`Process` puts the program together: the runs of the BPF program and their ring
buffer, the main thread, the shared queue with the eventfds, and the processors.

`ride_run` starts the threads, and then its thread is the reader of the ring
buffer.  It tests `quit`, calls `ring_buffer__poll`, and tests again.  Inside of
`ring_buffer__poll` the samples go to `ride_ringbuf_handle` one by one, and the
consumer position moves behind a sample when the handler has returned.

A signal sets `quit`.  The main thread then leaves its loop for good, writes to
`quit_efd`, which no processor looks at, and waits for threads that do not
return.  So `MainPhase` has no phase behind `joining`.
-/

namespace Ride

/-- Where the main thread is: before the test of `quit`, in `ring_buffer__poll`,
behind the loop, or in `pthread_join`. -/
inductive MainPhase where
  | testing
  | polling
  | stopping
  | joining
deriving DecidableEq

/-- The ring of the BPF program, the threads, and the flag. -/
structure Process (B : Blake3) (k n : Nat) where
  ring : BpfRing
  system : System B k n
  main : MainPhase
  quit : Bool

/-- The steps: those of the runs of the BPF program; a signal; those of the main
thread; and those of the processors and of the kernel for them. -/
inductive ProcessStep (k n : Nat) where
  | reserve (o : OpenCall)
  | store (i : Nat)
  | commit (i : Nat)
  | signal
  | test
  | handle
  | write (merged : Bool)
  | skip
  | pollReturns (err : Int)
  | stop
  | raise (i : Fin k)
  | processor (i : Fin k) (a : SysStep n)

/-- `EINTR` of `errno.h`. -/
def EINTR : Int := 4

namespace Process

variable {B : Blake3} {k n : Nat}

/-- The state that `ride_run` has set up before its loop. -/
def start (B : Blake3) [NeZero n] (cells : Nat → Event) (queue : Queue)
    (boot : Fin k → Sys.Boot n) : Process B k n where
  ring := .start cells
  system := .start B queue boot
  main := .testing
  quit := false

section Steps

variable [NeZero k]

/-- The main thread is in `ring_buffer__poll`, between two samples. -/
def Reading (p : Process B k n) : Prop :=
  p.system.Running ∧ p.main = .polling ∧ p.system.dispatch.producer = .idle

instance (p : Process B k n) : Decidable p.Reading :=
  inferInstanceAs (Decidable (_ ∧ _ ∧ _))

/-- A step of the BPF program or of its reader. -/
def ringStep (w : Watch) (p : Process B k n) (a : BpfStep) : Process B k n :=
  { p with ring := p.ring.step w a }

/-- The test of `quit`. -/
def test (p : Process B k n) : Process B k n :=
  if p.system.Running ∧ p.main = .testing then
    { p with main := if p.quit then .stopping else .polling }
  else p

/-- `ring_buffer__poll` calls `ride_ringbuf_handle`, which calls `queue_add`. -/
def handle (p : Process B k n) : Process B k n :=
  match p.ring.sample with
  | none => p
  | some e =>
    if p.Reading then
      { p with
        ring := p.ring.handle
        system := p.system.step (.queueAdd e.2) }
    else p

/-- `ride_ringbuf_handle` writes to an eventfd and returns, and the reader moves
on.  An error of the write ends the process. -/
def write (p : Process B k n) (merged : Bool) : Process B k n :=
  if p.main = .polling ∧ p.system.dispatch.producer ≠ .idle then
    let system := p.system.step (.eventfdWrite merged)
    { p with
      ring := if system.dispatch.exited then p.ring else p.ring.advance
      system := system }
  else p

/-- The reader passes over a record that was discarded. -/
def skip (p : Process B k n) : Process B k n :=
  if p.Reading then { p with ring := p.ring.advance } else p

/-- `ring_buffer__poll` returns.  An error other than `EINTR` ends the loop. -/
def pollReturns (p : Process B k n) (err : Int) : Process B k n :=
  if p.Reading then
    { p with main := if err < 0 ∧ err ≠ -EINTR then .stopping else .testing }
  else p

/-- The write to `quit_efd`, behind the loop. -/
def stop (p : Process B k n) : Process B k n :=
  if p.system.Running ∧ p.main = .stopping then { p with main := .joining }
  else p

/-- One step of any party. -/
def step (w : Watch) (p : Process B k n) : ProcessStep k n → Process B k n
  | .reserve o => p.ringStep w (.reserve o)
  | .store i => p.ringStep w (.store i)
  | .commit i => p.ringStep w (.commit i)
  | .signal => { p with quit := true }
  | .test => p.test
  | .handle => p.handle
  | .write merged => p.write merged
  | .skip => p.skip
  | .pollReturns err => p.pollReturns err
  | .stop => p.stop
  | .raise i => { p with system := p.system.step (.raise i) }
  | .processor i a => { p with system := p.system.step (.processor i a) }

/-- The run of the BPF program that a step starts. -/
def starts (w : Watch) (p : Process B k n) : ProcessStep k n → List OpenCall
  | .reserve o => p.ring.starts w (.reserve o)
  | _ => []

/-- The runs of the BPF program that get a record, in order. -/
def opens (w : Watch) (p : Process B k n) (sched : List (ProcessStep k n)) :
    List OpenCall :=
  CodeLib.Machine.trace (step w) (starts w) p sched

end Steps

end Process

end Ride
