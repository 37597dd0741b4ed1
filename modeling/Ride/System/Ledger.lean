import Ride.Processor.Run
import Ride.System.Model

/-!
# Who takes which event

The processors take their events from one queue, each in its own callbacks.
`Sys.takes` is the event that a step of a processor takes, and `past_step` says
that nothing else changes the history of a processor, also in a step that ends
the run.

`System.Ledger` is the account over all the processors: the events that were
taken, in the order of the calls and with the processor that took each of them,
and the events that wait.
-/

namespace Ride

open CodeLib CodeLib.Machine

namespace Sys

variable {B : Blake3} {n : Nat} {s : Sys B n}

/-! ## The event that a step takes -/

/-- The events that were taken and the files that were opened. -/
def past (s : Sys B n) : List Event × List Opening :=
  (s.dequeued, s.opens)

/-- The event that a step takes from the queue. -/
def takes (s : Sys B n) : SysStep n → List Event
  | .dispatch ans =>
    let c := queueConsumeTry ans.queue .zero ans.efd
    if s.halted = none ∧ s.Consumes (.dispatch ans) ∧ c.ret = 0 then [c.event]
    else []
  | _ => []

theorem openEvent_past (s : Sys B n) (r : ReqPtr n) (event : Event)
    (ticket : Option Nat) (ans : Answers) :
    (s.openEvent r event ticket ans).past = s.past := by
  unfold openEvent
  split
  · rfl
  · rename_i i t hget
    have ht : t.past = s.past := by
      unfold processorGetReq at hget
      split at hget
      · exact absurd hget (by simp)
      · split_ifs at hget
        rw [← (Prod.mk.inj (Except.ok.inj hget)).2]
        rfl
    split_ifs
    · exact ht
    · exact ht

theorem onQueueEvent_past (s : Sys B n) (r : ReqPtr n) (ans : Answers) :
    (s.onQueueEvent r ans).past = (s.dequeued ++
      if 0 ≤ (s.req r).result ∧ ans.efdError = false ∧
        (queueConsumeTry ans.queue .zero ans.efd).ret = 0 then
        [(queueConsumeTry ans.queue .zero ans.efd).event] else [], s.opens) := by
  by_cases htakes : 0 ≤ (s.req r).result ∧ ans.efdError = false ∧
      (queueConsumeTry ans.queue .zero ans.efd).ret = 0
  · rw [if_pos htakes]
    obtain ⟨hres, herr, hret⟩ := htakes
    simp only [onQueueEvent, if_neg (not_lt.mpr hres), herr, hret, if_true]
    exact openEvent_past ..
  · rw [if_neg htakes, List.append_nil]
    unfold onQueueEvent
    simp only
    split_ifs with hneg hbad herr hret
    · rfl
    · rfl
    · rfl
    · exact absurd ⟨not_lt.mp hneg, Bool.eq_false_iff.mpr herr, hret⟩ htakes
    · exact openEvent_past ..
    · rfl

theorem freePath_past {i : Fin n} {t : Sys B n}
    (h : s.freePath i = some t) : t.past = s.past := by
  unfold freePath at h
  simp only at h
  split at h
  · rw [← Option.some.inj h]
    rfl
  · split at h
    · exact absurd h (by simp)
    · rw [← Option.some.inj h]
      rfl

theorem releaseRead_past (s : Sys B n) (r : ReqPtr n) (i : Fin n) :
    (s.releaseRead r i).past = s.past := by
  unfold releaseRead
  split
  · rfl
  · rename_i t hfree
    show t.past = _
    exact freePath_past hfree

theorem logError_past {i : Fin n} {t : Sys B n}
    (h : s.logError i = some t) : t.past = s.past := by
  obtain ⟨-, -, rfl⟩ := Option.map_eq_some_iff.mp h
  rfl

theorem onFileRead_past (s : Sys B n) (r : ReqPtr n) (ans : Answers) :
    (s.onFileRead r ans).past = s.past := by
  unfold onFileRead
  simp only
  split
  · rfl
  · split_ifs
    · split
      · rfl
      · rename_i t hlog
        rw [releaseRead_past]
        exact logError_past hlog
    · split
      · rfl
      · split
        · rfl
        · rename_i t hprint
          obtain ⟨-, -, rfl⟩ := Option.map_eq_some_iff.mp hprint
          split_ifs
          · exact releaseRead_past ..
          · rfl
    · split
      · rfl
      · simp only [setReq]
        split <;> rfl

theorem setReq_past (s : Sys B n) (r : ReqPtr n) (req : EvIoReq n) :
    (s.setReq r req).past = s.past := by
  cases r <;> rfl

theorem onFileOpen_past (s : Sys B n) (r : ReqPtr n) :
    (s.onFileOpen r).past = s.past := by
  unfold onFileOpen
  simp only
  split
  · rfl
  · split_ifs
    · split
      · rfl
      · rename_i t hfree
        obtain ⟨u, hlog, hfree⟩ := Option.bind_eq_some_iff.mp hfree
        show t.past = _
        rw [freePath_past hfree, logError_past hlog]
    · exact setReq_past ..

theorem verifierFlushEgress_past (s : Sys B n) (ans : Answers) :
    (s.verifierFlushEgress ans).past = s.past := by
  unfold verifierFlushEgress armTimer
  simp only
  split_ifs
  · rfl
  · split
    · rfl
    · rename_i i t hget
      unfold processorGetReq at hget
      split at hget
      · exact absurd hget (by simp)
      · split_ifs at hget
        rw [← (Prod.mk.inj (Except.ok.inj hget)).2]
        rfl
  · rfl

/-- Only `on_queue_event` takes an event. -/
theorem call_past (s : Sys B n) (r : ReqPtr n) (ans : Answers)
    (h : (s.req r).callback ≠ some .onQueueEvent) :
    (s.call r ans).past = s.past := by
  unfold call
  split
  · rfl
  · rename_i hcall
    exact absurd hcall h
  · exact onFileOpen_past ..
  · exact onFileRead_past ..
  · unfold onSocketCreate
    split_ifs <;> rfl
  · unfold onSocketConnect
    split_ifs <;> rfl
  · unfold onSocketRead
    split_ifs <;> rfl
  · rfl
  · unfold onSocketTimeoutUpdate
    split <;> rfl

theorem dispatch_past (hlive : s.halted = none) (htodo : s.todo = [])
    (ans : Answers) :
    (s.dispatch ans).past =
      (s.dequeued ++ s.takes (.dispatch ans), s.opens) := by
  cases hcur : s.cq.current with
  | none => simp [dispatch, takes, Consumes, hcur, past]
  | some cqe =>
    have hdequeued := (s.deliver_reaped cqe).dequeued
    have hopens := (s.deliver_reaped cqe).opens
    have hreq : (s.deliver cqe).req cqe.userData.req =
        { s.req cqe.userData.req with
          result := cqe.res, resultFlags := cqe.flags } := req_setReq_self ..
    rw [dispatch_eq hcur]
    by_cases hcall : (s.req cqe.userData.req).callback = some .onQueueEvent
    · have hstep : (s.deliver cqe).call cqe.userData.req ans =
          (s.deliver cqe).onQueueEvent cqe.userData.req ans := by
        simp only [call, hreq, hcall]
      rw [hstep, onQueueEvent_past, hdequeued, hopens, hreq]
      simp [takes, Consumes, hlive, htodo, hcur, hcall, and_assoc, and_comm,
        and_left_comm]
    · rw [call_past _ _ _ (by rw [hreq]; exact hcall), past, hdequeued, hopens]
      simp [takes, Consumes, hcur, hcall]

/-- A step adds the event that it takes to the history, and nothing else.  Files
are only opened by the kernel. -/
theorem past_step (s : Sys B n) (a : SysStep n) :
    (s.step a).dequeued = s.dequeued ++ s.takes a ∧
      s.opens <+: (s.step a).opens := by
  have hpast : ∀ {t : Sys B n}, t.past = (s.dequeued ++ s.takes a, s.opens) →
      t.dequeued = s.dequeued ++ s.takes a ∧ s.opens <+: t.opens := by
    intro t ht
    obtain ⟨hdequeued, hopens⟩ := Prod.mk.inj ht
    exact ⟨hdequeued, hopens ▸ List.prefix_rfl⟩
  by_cases hlive : s.halted = none
  swap
  · have hnone : s.takes a = [] := by
      cases a with
      | dispatch ans => exact if_neg fun hno => hlive hno.1
      | _ => rfl
    rw [step_of_halted hlive, hnone, List.append_nil]
    exact ⟨rfl, List.prefix_rfl⟩
  have hgo : ¬ s.halted.isSome := by simp [hlive]
  cases a with
  | kernel act =>
    have hto := s.kernelTo_kernel act
    have hstep : s.step (.kernel act) = s.kernel act := if_neg hgo
    simp only [hstep, takes, List.append_nil]
    generalize s.kernel act = t at hto
    cases hto with
    | opened => exact ⟨rfl, List.prefix_append ..⟩
    | _ => exact ⟨rfl, List.prefix_rfl⟩
  | load =>
    refine hpast ?_
    simp only [step, if_neg hgo, takes, List.append_nil]
    split_ifs <;> rfl
  | dispatch ans =>
    refine hpast ?_
    by_cases htodo : s.todo = []
    · simp only [step, if_neg hgo, if_pos htodo]
      exact dispatch_past hlive htodo ans
    · simp [step, hlive, takes, Consumes, htodo, past]
  | proceed ans =>
    refine hpast ?_
    simp only [step, if_neg hgo, takes, List.append_nil, proceed]
    split
    · rfl
    · rfl
    · exact verifierFlushEgress_past ..
  | publish =>
    refine hpast ?_
    simp only [step, if_neg hgo, takes, List.append_nil]
    split_ifs <;> rfl

end Sys

namespace System

variable {B : Blake3} {k n : Nat} [NeZero k] {s : System B k n} {α : Type}

/-! ## The account of all the processors -/

/-- The queue holds the events that wait, and the history of every processor is
its part of the events that were taken.  The events carry a mark, which nothing
here looks at. -/
structure Ledger (s : System B k n) (taken : List (Fin k × α × Event))
    (waiting : List (α × Event)) : Prop where
  wf : s.dispatch.queue.Wf
  pending : s.dispatch.queue.pending = waiting.map Prod.snd
  split : ∀ i, (s.processors i).dequeued =
    (taken.filter (·.1 = i)).map fun x => x.2.2

variable {taken : List (Fin k × α × Event)} {waiting : List (α × Event)}

omit [NeZero k] in
theorem ledger_start (B : Blake3) [NeZero n] (queue : Queue)
    (boot : Fin k → Sys.Boot n) :
    (start B queue boot).Ledger (α := α) [] [] where
  wf := queueInit_wf queue
  pending := queueInit_pending queue
  split := fun _ => rfl

omit [NeZero k] in
/-- A step that leaves the queue and the histories. -/
theorem Ledger.congr (h : s.Ledger taken waiting) {t : System B k n}
    (hqueue : t.dispatch.queue = s.dispatch.queue)
    (hprocessors : t.processors = s.processors) : t.Ledger taken waiting where
  wf := by rw [hqueue]; exact h.wf
  pending := by rw [hqueue]; exact h.pending
  split := by rw [hprocessors]; exact h.split

/-- `queue_add` puts the event behind the ones that wait, or drops it because
the queue is full. -/
theorem Ledger.queueAdd (h : s.Ledger taken waiting) (hrun : s.Running)
    (hidle : s.dispatch.producer = .idle) (e : α × Event) :
    (s.step (.queueAdd e.2)).Ledger taken (waiting ++ [e]) ∨
      s.dispatch.queue.pending.length = QUEUE_SIZE - 1 ∧
        (s.step (.queueAdd e.2)).Ledger taken waiting := by
  have hqueue : (s.step (.queueAdd e.2)).dispatch.queue =
      (Ride.queueAdd s.dispatch.queue e.2).2 := by
    simp only [step, if_pos hrun, Dispatch.handleAdd, hidle]
  have hprocessors : (s.step (.queueAdd e.2)).processors = s.processors := by
    simp only [step, if_pos hrun]
  rcases queueAdd_cases h.wf e.2 with ⟨hfull, hadd⟩ | ⟨-, -, hwf, hpending⟩
  · rw [hadd] at hqueue
    exact Or.inr ⟨hfull, h.congr hqueue hprocessors⟩
  · refine Or.inl ⟨?_, ?_, ?_⟩
    · rw [hqueue]
      exact hwf
    · rw [hqueue, hpending, h.pending, List.map_append, List.map_singleton]
    · rw [hprocessors]
      exact h.split

theorem Ledger.eventfdWrite (h : s.Ledger taken waiting) (merged : Bool) :
    (s.step (.eventfdWrite merged)).Ledger taken waiting := by
  by_cases hrun : s.Running
  · refine h.congr ?_ ?_
    · simp only [step, if_pos hrun, System.eventfdWrite, Dispatch.handleWrite]
      split
      · rfl
      · split <;> rfl
    · simp only [step, if_pos hrun, System.eventfdWrite]
  · rw [step, if_neg hrun]
    exact h

theorem Ledger.raise (h : s.Ledger taken waiting) (i : Fin k) :
    (s.step (.raise i)).Ledger taken waiting := by
  unfold step
  split_ifs
  · simp only
    split_ifs
    · exact h.congr rfl rfl
    · exact h
  · exact h

omit [NeZero k] in
/-- What the queue gives to a processor that takes an event, or does not. -/
theorem takes_withQueue (s : System B k n) (i : Fin k) (a : SysStep n)
    (hlive : (s.processors i).halted = none) :
    (s.processors i).takes (a.withQueue s.dispatch.queue (s.dispatch.efds i)) =
      if (s.processors i).Consumes a ∧ (queueConsumeTry s.dispatch.queue .zero
          (s.dispatch.efds i)).ret = 0 then
        [(queueConsumeTry s.dispatch.queue .zero (s.dispatch.efds i)).event]
      else [] := by
  cases a with
  | dispatch ans =>
    simp only [SysStep.withQueue, Sys.takes, hlive, true_and]
    rfl
  | _ => exact (if_neg fun hno => hno.1.elim).symm

/-- A step of a processor takes the oldest of the events that wait, or none. -/
theorem Ledger.processor (h : s.Ledger taken waiting) (i : Fin k)
    (a : SysStep n) :
    (s.step (.processor i a)).Ledger taken waiting ∨
      ∃ e rest, waiting = e :: rest ∧
        (s.step (.processor i a)).Ledger (taken ++ [(i, e)]) rest := by
  by_cases hrun : s.Running
  swap
  · rw [step, if_neg hrun]
    exact Or.inl h
  have hstep : s.step (.processor i a) = s.processorStep i a := if_pos hrun
  have htakes := takes_withQueue s i a (hrun.2 i)
  have hother : ∀ j, j ≠ i → (s.processorStep i a).processors j =
      s.processors j := fun j hj => Function.update_of_ne hj ..
  have hself : ((s.processorStep i a).processors i).dequeued =
      (s.processors i).dequeued ++ (s.processors i).takes
        (a.withQueue s.dispatch.queue (s.dispatch.efds i)) := by
    simp only [processorStep, Function.update_self]
    exact (Sys.past_step ..).1
  have hqueue : (s.processorStep i a).dispatch.queue =
      if (s.processors i).Consumes a then (queueConsumeTry s.dispatch.queue .zero
        (s.dispatch.efds i)).queue else s.dispatch.queue := by
    simp only [processorStep]
    split_ifs <;> rfl
  rw [hstep]
  -- a step that leaves the queue takes nothing
  have hnone : (s.processorStep i a).dispatch.queue = s.dispatch.queue →
      (s.processors i).takes (a.withQueue s.dispatch.queue
        (s.dispatch.efds i)) = [] →
      (s.processorStep i a).Ledger taken waiting := by
    intro hsame hnil
    refine ⟨by rw [hsame]; exact h.wf, by rw [hsame]; exact h.pending, ?_⟩
    intro j
    by_cases hj : j = i
    · rw [hj, hself, hnil, List.append_nil]
      exact h.split i
    · rw [hother j hj]
      exact h.split j
  by_cases hconsumes : (s.processors i).Consumes a
  swap
  · rw [if_neg hconsumes] at hqueue
    rw [if_neg fun hno => hconsumes hno.1] at htakes
    exact Or.inl (hnone hqueue htakes)
  rw [if_pos hconsumes] at hqueue
  rcases queueConsumeTry_cases h.wf .zero (s.dispatch.efds i) with
    ⟨-, hc⟩ | ⟨-, -, hc⟩ | ⟨-, oldest, rest, queue', hfirst, hwf, hrest, hc⟩
  · rw [hc] at htakes hqueue
    exact Or.inl (hnone hqueue (htakes.trans (if_neg (by simp [EAGAIN]))))
  · rw [hc] at htakes hqueue
    exact Or.inl (hnone hqueue (htakes.trans (if_neg (by simp))))
  · rw [hc] at htakes hqueue
    rw [if_pos ⟨hconsumes, rfl⟩] at htakes
    have hpending := h.pending
    rw [hfirst] at hpending
    obtain ⟨e, later, rfl, he, hlater⟩ := List.map_eq_cons_iff.mp hpending.symm
    refine Or.inr ⟨e, later, rfl, ?_, ?_, ?_⟩
    · rw [hqueue]
      exact hwf
    · rw [hqueue, hlater]
      exact hrest
    · intro j
      rw [List.filter_append, List.map_append]
      by_cases hj : j = i
      · rw [hj, hself, htakes, h.split i]
        simp [he]
      · rw [hother j hj, h.split j]
        simp [Ne.symm hj]

end System

end Ride
