import Ride.Process.Model
import Ride.Processor.Safety
import Ride.System.Ledger

/-!
# The way of an event

An event is submitted by a run of the BPF program, read by the main thread, added
to the queue, and taken by a processor.  `Flow` is the account of all the events
over all the parts, and every step of every party keeps it.

`events_conserved` reads it off: for every order of the steps, the events that the
processors have taken and those that wait in the queue are, in this order, events
that the main thread has read; the rest of what it has read was dropped, and this
needs a moment at which the queue was full.
-/

namespace Ride

open CodeLib CodeLib.Machine

namespace Process

variable {B : Blake3} {k n : Nat} [NeZero k] {w : Watch} {p : Process B k n}
  {s : BpfState} {taken : List (Fin k × OpenCall × Event)}
  {waiting dropped : List (OpenCall × Event)}

/-! ## The account -/

/-- The ring, the queue and the processors, with the state of the BPF program in
which every run is over, the events that were taken, those that wait and those
that were dropped. -/
structure Flow (w : Watch) (p : Process B k n) (s : BpfState)
    (taken : List (Fin k × OpenCall × Event))
    (waiting dropped : List (OpenCall × Event)) : Prop where
  ring : BpfRing.Linearized w p.ring s
  ledger : p.system.Ledger taken waiting
  order : (taken.map Prod.snd ++ waiting).Sublist p.ring.delivered
  count : (taken.map Prod.snd ++ waiting ++ dropped).Perm p.ring.delivered

omit [NeZero k] in
theorem flow_start (w : Watch) (B : Blake3) [NeZero n] (cells : Nat → Event)
    (queue : Queue) (boot : Fin k → Sys.Boot n) :
    Flow w (start B cells queue boot) ⟨cells, []⟩ [] [] [] where
  ring := BpfRing.linearized_start w cells
  ledger := System.ledger_start B queue boot
  order := List.Sublist.refl []
  count := List.Perm.refl []

omit [NeZero k] in
/-- A step that delivers nothing and leaves the queue and the histories. -/
theorem Flow.congr (h : Flow w p s taken waiting dropped) {q : Process B k n}
    {t : BpfState} (hring : BpfRing.Linearized w q.ring t)
    (hdelivered : q.ring.delivered = p.ring.delivered)
    (hledger : q.system.Ledger taken waiting) :
    Flow w q t taken waiting dropped where
  ring := hring
  ledger := hledger
  order := by rw [hdelivered]; exact h.order
  count := by rw [hdelivered]; exact h.count

theorem advance_delivered (r : BpfRing) : r.advance.delivered = r.delivered := by
  unfold BpfRing.advance
  split <;> rfl

omit [NeZero k] in
/-- A run of the BPF program delivers nothing by itself. -/
theorem Flow.ringStep (h : Flow w p s taken waiting dropped) (a : BpfStep)
    (ha : a ≠ .handle) :
    Flow w (p.ringStep w a) (run (BpfState.ride w) s (p.ring.starts w a)) taken
      waiting dropped := by
  refine h.congr (h.ring.step a) ?_ h.ledger
  cases a with
  | reserve o =>
    simp only [Process.ringStep, BpfRing.step, BpfRing.reserve]
    split <;> rfl
  | store i =>
    simp only [Process.ringStep, BpfRing.step, BpfRing.store]
    split <;> rfl
  | commit i =>
    simp only [Process.ringStep, BpfRing.step, BpfRing.commit]
    split <;> rfl
  | handle => exact absurd rfl ha
  | advance => exact advance_delivered p.ring

theorem handle_delivered {r : BpfRing} {e : OpenCall × Event}
    (h : r.sample = some e) : r.handle.delivered = r.delivered ++ [e] := by
  unfold BpfRing.sample at h
  split at h
  · rename_i hrecords
    rw [← Option.some.inj h]
    simp only [BpfRing.handle, hrecords]
  · exact absurd h (by simp)

/-- The event that is read goes to the queue, or it is dropped because the queue
is full. -/
theorem Flow.handle (h : Flow w p s taken waiting dropped) :
    ∃ waiting' dropped', Flow w p.handle s taken waiting' dropped' ∧
      (dropped' = dropped ∨
        p.system.dispatch.queue.pending.length = QUEUE_SIZE - 1) := by
  unfold Process.handle
  split
  · exact ⟨waiting, dropped, h, Or.inl rfl⟩
  rename_i e hsample
  split_ifs with hreading
  swap
  · exact ⟨waiting, dropped, h, Or.inl rfl⟩
  have hdelivered := handle_delivered hsample
  rcases h.ledger.queueAdd hreading.1 hreading.2.2 e with hadd | ⟨hfull, hdrop⟩
  · refine ⟨waiting ++ [e], dropped, ⟨h.ring.handle, hadd, ?_, ?_⟩, Or.inl rfl⟩
    · rw [hdelivered, ← List.append_assoc]
      exact h.order.append (List.Sublist.refl [e])
    · rw [hdelivered, ← List.append_assoc, List.append_assoc]
      refine (List.perm_append_comm.append_left _).trans ?_
      rw [← List.append_assoc]
      exact h.count.append_right [e]
  · refine ⟨waiting, dropped ++ [e], ⟨h.ring.handle, hdrop, ?_, ?_⟩,
      Or.inr hfull⟩
    · rw [hdelivered]
      exact h.order.trans (List.sublist_append_left _ _)
    · rw [hdelivered, ← List.append_assoc]
      exact h.count.append_right [e]

/-- A processor takes the oldest of the events that wait, or none. -/
theorem Flow.processor (h : Flow w p s taken waiting dropped) (i : Fin k)
    (a : SysStep n) :
    ∃ taken' waiting', Flow w
      { p with system := p.system.step (.processor i a) } s taken' waiting'
      dropped := by
  rcases h.ledger.processor i a with hledger | ⟨e, rest, rfl, hledger⟩
  · exact ⟨taken, waiting, h.congr h.ring rfl hledger⟩
  · have hsame : (taken ++ [(i, e)]).map Prod.snd ++ rest =
        taken.map Prod.snd ++ e :: rest := by
      rw [List.map_append, List.map_singleton, List.append_assoc]
      rfl
    refine ⟨taken ++ [(i, e)], rest, h.ring, hledger, ?_, ?_⟩
    · rw [hsame]
      exact h.order
    · rw [hsame]
      exact h.count

theorem Flow.write (h : Flow w p s taken waiting dropped) (merged : Bool) :
    Flow w (p.write merged) s taken waiting dropped := by
  unfold Process.write
  split_ifs
  · refine h.congr ?_ ?_ (h.ledger.eventfdWrite merged)
    · simp only
      split_ifs
      · exact h.ring
      · exact h.ring.advance
    · simp only
      split_ifs
      · rfl
      · exact advance_delivered p.ring
  · exact h

/-- One step of any party.  Only a full queue drops an event. -/
theorem Flow.step (h : Flow w p s taken waiting dropped)
    (a : ProcessStep k n) :
    ∃ taken' waiting' dropped', Flow w (p.step w a)
      (run (BpfState.ride w) s (p.starts w a)) taken' waiting' dropped' ∧
      (dropped' = dropped ∨
        p.system.dispatch.queue.pending.length = QUEUE_SIZE - 1) := by
  have hsame : ∀ {q : Process B k n}, Flow w q s taken waiting dropped →
      ∃ taken' waiting' dropped', Flow w q s taken' waiting' dropped' ∧
        (dropped' = dropped ∨
          p.system.dispatch.queue.pending.length = QUEUE_SIZE - 1) :=
    fun hq => ⟨taken, waiting, dropped, hq, Or.inl rfl⟩
  cases a with
  | reserve o =>
    exact ⟨taken, waiting, dropped, h.ringStep (.reserve o) (by simp),
      Or.inl rfl⟩
  | store i => exact hsame (h.ringStep (.store i) (by simp))
  | commit i => exact hsame (h.ringStep (.commit i) (by simp))
  | signal => exact hsame (h.congr h.ring rfl h.ledger)
  | test =>
    refine hsame ?_
    simp only [Process.step, Process.test]
    split_ifs <;> exact h.congr h.ring rfl h.ledger
  | handle =>
    obtain ⟨waiting', dropped', hflow, hfull⟩ := h.handle
    exact ⟨taken, waiting', dropped', hflow, hfull⟩
  | write merged => exact hsame (h.write merged)
  | skip =>
    refine hsame ?_
    simp only [Process.step, Process.skip]
    split_ifs
    · exact h.congr h.ring.advance (advance_delivered p.ring) h.ledger
    · exact h
  | pollReturns err =>
    refine hsame ?_
    simp only [Process.step, Process.pollReturns]
    split_ifs <;> exact h.congr h.ring rfl h.ledger
  | stop =>
    refine hsame ?_
    simp only [Process.step, Process.stop]
    split_ifs <;> exact h.congr h.ring rfl h.ledger
  | raise i => exact hsame (h.congr h.ring rfl (h.ledger.raise i))
  | processor i a =>
    obtain ⟨taken', waiting', hflow⟩ := h.processor i a
    exact ⟨taken', waiting', dropped, hflow, Or.inl rfl⟩

omit [NeZero k] in
/-- What was taken was submitted, in the same order. -/
theorem Flow.taken_submitted (h : Flow w p s taken waiting dropped) :
    (taken.map Prod.snd).Sublist s.submitted := by
  have hdelivered : p.ring.delivered <+: s.submitted :=
    ⟨_, h.ring.submitted.symm⟩
  exact ((List.sublist_append_left _ _).trans h.order).trans
    hdelivered.sublist

/-! ## The runs -/

/-- The account of a run.  Something was dropped only if the queue was full at
some moment of the run. -/
theorem flow_run (w : Watch) (B : Blake3) [NeZero n] (cells : Nat → Event)
    (queue : Queue) (boot : Fin k → Sys.Boot n)
    (sched : List (ProcessStep k n)) :
    ∃ taken waiting dropped,
      Flow w (run (step w) (start B cells queue boot) sched)
        (run (BpfState.ride w) ⟨cells, []⟩
          (opens w (start B cells queue boot) sched))
        taken waiting dropped ∧
      (dropped ≠ [] → ∃ pre, pre <+: sched ∧
        (run (step w) (start B cells queue boot)
          pre).system.dispatch.queue.pending.length = QUEUE_SIZE - 1) := by
  refine run_history (P := fun sched p => ∃ taken waiting dropped,
    Flow w p (run (BpfState.ride w) ⟨cells, []⟩
      (opens w (start B cells queue boot) sched))
      taken waiting dropped ∧
    (dropped ≠ [] → ∃ pre, pre <+: sched ∧
      (run (step w) (start B cells queue boot)
        pre).system.dispatch.queue.pending.length = QUEUE_SIZE - 1)) ?_ ?_ sched
  · exact ⟨[], [], [], flow_start w B cells queue boot, fun hno => absurd rfl hno⟩
  · rintro sched a ⟨taken, waiting, dropped, hflow, hdrops⟩
    obtain ⟨taken', waiting', dropped', hflow', hfull⟩ := hflow.step a
    refine ⟨taken', waiting', dropped', ?_, ?_⟩
    · rw [opens, trace_append_singleton, run_append]
      exact hflow'
    · intro hne
      rcases hfull with rfl | hfull
      · obtain ⟨pre, hpre, hlen⟩ := hdrops hne
        exact ⟨pre, hpre.trans (List.prefix_append sched [a]), hlen⟩
      · exact ⟨sched, List.prefix_append sched [a], hfull⟩

/-- For every order of the steps of the BPF program, the main thread, the
processors and the kernel: what the main thread has read is a prefix of what the
runs of the BPF program submit, in the order of their reservations.  What the
processors have taken together, followed by what waits in the queue, is in the
same order; each event has gone to one processor; and the rest of what was read
was dropped, which needs a moment at which the queue was full. -/
theorem events_conserved (w : Watch) (B : Blake3) [NeZero n]
    (cells : Nat → Event) (queue : Queue) (boot : Fin k → Sys.Boot n)
    (sched : List (ProcessStep k n)) :
    let p := run (step w) (start B cells queue boot) sched
    let s := run (BpfState.ride w) ⟨cells, []⟩
      (opens w (start B cells queue boot) sched)
    ∃ (taken : List (Fin k × OpenCall × Event))
      (waiting dropped : List (OpenCall × Event)),
      p.ring.delivered <+: s.submitted ∧
      (taken.map Prod.snd ++ waiting).Sublist p.ring.delivered ∧
      (taken.map Prod.snd ++ waiting ++ dropped).Perm p.ring.delivered ∧
      p.system.dispatch.queue.pending = waiting.map Prod.snd ∧
      (∀ i, (p.system.processors i).dequeued =
        (taken.filter (·.1 = i)).map fun x => x.2.2) ∧
      (dropped ≠ [] → ∃ pre, pre <+: sched ∧
        (run (step w) (start B cells queue boot)
          pre).system.dispatch.queue.pending.length = QUEUE_SIZE - 1) := by
  intro p s
  obtain ⟨taken, waiting, dropped, hflow, hdrops⟩ :=
    flow_run w B cells queue boot sched
  exact ⟨taken, waiting, dropped, ⟨_, hflow.ring.submitted.symm⟩, hflow.order,
    hflow.count, hflow.ledger.pending, hflow.ledger.split, hdrops⟩

/-- The file `/w/a` is opened, the event goes through the queue, and the processor
opens and prints the file. -/
def lineRun : List (ProcessStep 1 1) :=
  [.reserve openA, .store 0, .commit 0, .test, .handle, .write false] ++
    Sys.printedRun.map (.processor (Fin.last 0))

theorem events_conserved_in_lineRun :
    let p := run (step watchW) (start .concat (fun _ => .zero)
      ⟨fun _ => .zero, 0, 0⟩ fun _ => Sys.Boot.zeroed 1) lineRun
    p.ring.delivered.map Prod.snd = [.ofPath [47, 119, 47, 97]] ∧
      (p.system.processors 0).dequeued = [.ofPath [47, 119, 47, 97]] ∧
      ∃ (taken : List (Fin 1 × OpenCall × Event))
        (waiting dropped : List (OpenCall × Event)),
        (taken.map Prod.snd ++ waiting ++ dropped).Perm p.ring.delivered ∧
        ∀ i, (p.system.processors i).dequeued =
          (taken.filter (·.1 = i)).map fun x => x.2.2 := by
  refine ⟨by decide +kernel, by decide +kernel, ?_⟩
  obtain ⟨taken, waiting, dropped, -, -, hcount, -, hsplit, -⟩ :=
    events_conserved watchW .concat (fun _ => .zero) ⟨fun _ => .zero, 0, 0⟩
      (fun _ => Sys.Boot.zeroed 1) lineRun
  exact ⟨taken, waiting, dropped, hcount, hsplit⟩

end Process

end Ride
