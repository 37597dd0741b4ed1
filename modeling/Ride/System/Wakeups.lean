import Ride.Processor.Poll
import Ride.Processor.Safety
import Ride.System.Model

/-!
# Wake-ups

`on_queue_event` takes one event for each completion of its poll.  Where two
writes to an eventfd are merged into one notification, two tokens have one
wake-up between them, and the second event stays in the queue until other
traffic arrives.  `event_stranded_by_merged_write` is such a run.

Where every write gets a notification of its own, every token in an eventfd has
a wake-up attached: a notification, or a completion that was not reaped.
`System.Awake` is this invariant.  With `Dispatch.Covered` it follows that the
queue is empty when no wake-up is left.
-/

namespace Ride

open CodeLib CodeLib.Machine

namespace Sys

variable {B : Blake3} {n : Nat} {s : Sys B n}

/-! ## The completions of the poll -/

/-- The completion leads to a call of `queue_consume_try`. -/
def Wakes (c : Cqe (Name n)) : Prop :=
  c.userData.req = .queuePoll ∧ 0 ≤ c.res

instance : DecidablePred (Wakes (n := n)) := fun c =>
  inferInstanceAs (Decidable (c.userData.req = .queuePoll ∧ 0 ≤ c.res))

/-- The completions of the poll that were not reaped, errors apart. -/
def pollCqes (s : Sys B n) : Nat :=
  s.cq.unreaped.countP fun c => Wakes c

theorem pollCqes_post {t : Sys B n} (hcq : s.cq.Wf) {cqe : Cqe (Name n)}
    (hroom : s.cq.room) (ht : t.cq = s.cq.post cqe) :
    t.pollCqes = s.pollCqes + if Wakes cqe then 1 else 0 := by
  rw [pollCqes, ht, Reaper.unreaped_post hcq, if_pos hroom, List.countP_append,
    List.countP_singleton, pollCqes]
  simp

/-- The completions of a poll keep its wake-ups: a notification is delivered as
a completion that is not an error, and the last completion loses none. -/
def DeliversAll (s : Sys B n) (notes : Nat) : SysStep n → Prop
  | .kernel (.notify j res _) =>
    (∃ op ∈ s.ops[j]?, op.Polls) → 0 ≤ res
  | .kernel (.complete j res _) =>
    (∃ op ∈ s.ops[j]?, op.Polls) → 0 ≤ res ∧ notes ≤ 1
  | _ => True

instance (s : Sys B n) (notes : Nat) :
    DecidablePred (s.DeliversAll notes) := fun a =>
  match a with
  | .kernel (.notify _ res _) => inferInstanceAs (Decidable (_ → 0 ≤ res))
  | .kernel (.complete _ res _) =>
    inferInstanceAs (Decidable (_ → 0 ≤ res ∧ notes ≤ 1))
  | .kernel .consume => isTrue trivial
  | .kernel (.scribble ..) => isTrue trivial
  | .kernel (.fill ..) => isTrue trivial
  | .kernel (.openDone ..) => isTrue trivial
  | .load => isTrue trivial
  | .dispatch _ => isTrue trivial
  | .proceed _ => isTrue trivial
  | .publish => isTrue trivial

theorem pollCqes_kernel_le (hcq : s.cq.Wf) (act : KernelAct n) :
    s.pollCqes ≤ (s.kernel act).pollCqes := by
  rcases (kernel_frame s act).2 with hsame | ⟨cqe, hroom, hpost⟩
  · rw [pollCqes, pollCqes, hsame]
  · rw [pollCqes_post hcq hroom hpost]
    exact Nat.le_add_right ..

/-- The kernel loses no wake-up. -/
theorem kernel_wakes (hcq : s.cq.Wf) {notes : Nat} {act : KernelAct n}
    (h : s.DeliversAll notes (.kernel act)) :
    notes + s.pollCqes ≤
      s.notesAfter notes (.kernel act) + (s.kernel act).pollCqes := by
  have hle := pollCqes_kernel_le hcq act
  cases act with
  | notify j res flags =>
    simp only [notesAfter]
    split_ifs with hdone
    · obtain ⟨⟨⟨name, kind⟩, hop, hname, hkind⟩, hmore, hroom⟩ := hdone
      obtain rfl : kind = .poll := hkind
      have hop' : s.ops[j]? = some ⟨name, .poll⟩ := hop
      have hwakes : Wakes (⟨name, res, flags⟩ : Cqe (Name n)) :=
        ⟨hname, h ⟨_, hop, hname, rfl⟩⟩
      have hpost : (s.kernel (.notify j res flags)).cq =
          s.cq.post ⟨name, res, flags⟩ := by
        simp only [Sys.kernel, Sys.notify, hop', if_pos (And.intro hmore hroom)]
      rw [pollCqes_post hcq hroom hpost, if_pos hwakes]
      omega
    · omega
  | complete j res flags =>
    simp only [notesAfter]
    split_ifs with hdone
    · obtain ⟨⟨⟨name, kind⟩, hop, hname, hkind⟩, hlast, hroom⟩ := hdone
      obtain rfl : kind = .poll := hkind
      have hop' : s.ops[j]? = some ⟨name, .poll⟩ := hop
      obtain ⟨hres, hnotes⟩ := h ⟨_, hop, hname, rfl⟩
      have hwakes : Wakes (⟨name, res, flags⟩ : Cqe (Name n)) := ⟨hname, hres⟩
      have hallows : (OpKind.poll (n := n)).Allows res flags := hlast
      have hpost : (s.kernel (.complete j res flags)).cq =
          s.cq.post ⟨name, res, flags⟩ := by
        simp only [Sys.kernel, Sys.complete, hop',
          if_pos (And.intro hallows hroom)]
      rw [pollCqes_post hcq hroom hpost, if_pos hwakes]
      omega
    · omega
  | _ =>
    simp only [notesAfter]
    omega

/-! ## The steps of a processor -/

theorem pollCqes_deliver (hcq : s.cq.Wf) {cqe : Cqe (Name n)}
    (hcur : s.cq.current = some cqe) :
    s.pollCqes = (s.deliver cqe).pollCqes + if Wakes cqe then 1 else 0 := by
  rw [pollCqes, Reaper.unreaped_cons hcq hcur, List.countP_cons, pollCqes,
    (s.deliver_reaped cqe).cq]
  simp

/-- A read of the eventfd that fails for another reason than `EAGAIN` ends the
run. -/
theorem halted_of_efdError (hpoll : s.PollInv) {cqe : Cqe (Name n)}
    (hwakes : Wakes cqe) {ans : Answers} (herr : ans.efdError = true) :
    ((s.deliver cqe).call cqe.userData.req ans).halted ≠ none := by
  obtain ⟨hreq, hres⟩ := hwakes
  have hcall : (s.deliver cqe).call cqe.userData.req ans =
      (s.deliver cqe).halt .exit := by
    rw [hreq]
    simp only [Sys.call, Sys.req, deliver, hreq, setReq, hpoll.callback,
      onQueueEvent, if_neg (not_lt.mpr hres), herr, if_true]
  rw [hcall]
  exact Option.some_ne_none _

/-- A callback that spends a token has spent a wake-up. -/
theorem dispatch_wakes (h : s.Alive) (hrun : s.halted = none)
    (htodo : s.todo = []) {notes : Nat} {ans : Answers} (queue : Queue)
    {efd : Nat} (hefd : efd ≤ notes + s.pollCqes)
    (hrun' : (s.dispatch { ans with queue := queue, efd := efd }).halted =
      none) :
    (if s.Consumes (.dispatch ans) then efd - 1 else efd) ≤
      notes + (s.dispatch { ans with queue := queue, efd := efd }).pollCqes := by
  have hinv := h.good.inv hrun
  have hpoll := h.poll hrun
  cases hcur : s.cq.current with
  | none =>
    simp only [Sys.dispatch, hcur]
    split_ifs <;> omega
  | some cqe =>
    have hquiet := (hinv.dispatched htodo
      { ans with queue := queue, efd := efd }).quiet hcur
    rw [dispatch_eq hcur] at hquiet hrun' ⊢
    have hcount := pollCqes_deliver hinv.cq hcur
    rw [pollCqes, hquiet.cq, ← pollCqes]
    by_cases hwakes : Wakes cqe
    · have herr : ans.efdError = false := by
        cases herr : ans.efdError with
        | false => rfl
        | true => exact absurd hrun' (halted_of_efdError hpoll hwakes herr)
      have hconsumes : s.Consumes (.dispatch ans) := by
        refine ⟨htodo, herr, cqe, hcur, hwakes.2, ?_⟩
        rw [hwakes.1]
        exact hpoll.callback
      rw [if_pos hwakes] at hcount
      rw [if_pos hconsumes]
      omega
    · rw [if_neg hwakes] at hcount
      split_ifs <;> omega

/-- A step of a processor that spends a token spends a wake-up with it, and no
other step loses one. -/
theorem step_wakes (h : s.Alive) (hrun : s.halted = none) {notes : Nat}
    {a : SysStep n} (hdel : s.DeliversAll notes a) (queue : Queue) {efd : Nat}
    (hefd : efd ≤ notes + s.pollCqes)
    (hrun' : (s.step (a.withQueue queue efd)).halted = none) :
    (if s.Consumes a then efd - 1 else efd) ≤
      s.notesAfter notes a + (s.step (a.withQueue queue efd)).pollCqes := by
  have hnot : ¬ s.halted.isSome := by simp [hrun]
  unfold Sys.step at hrun' ⊢
  rw [if_neg hnot] at hrun' ⊢
  cases a with
  | kernel act =>
    have hno : ¬ s.Consumes (.kernel act) := not_false
    rw [if_neg hno]
    exact hefd.trans (kernel_wakes (h.good.inv hrun).cq hdel)
  | load =>
    have hno : ¬ s.Consumes .load := not_false
    rw [if_neg hno]
    show efd ≤ notes + (if s.todo = [] then _ else s).pollCqes
    split_ifs
    · rw [pollCqes, Reaper.unreaped_load]
      exact hefd
    · exact hefd
  | publish =>
    have hno : ¬ s.Consumes .publish := not_false
    rw [if_neg hno]
    show efd ≤ notes + (if s.todo = [] then _ else s).pollCqes
    split_ifs
    · rw [pollCqes, Reaper.unreaped_publish]
      exact hefd
    · exact hefd
  | proceed ans =>
    have hno : ¬ s.Consumes (.proceed ans) := not_false
    have hsame : (s.proceed ans).cq = s.cq := by
      unfold Sys.proceed
      split
      · rfl
      · rfl
      · rename_i htodo
        have hinv := (h.good.inv hrun).flushEgress htodo
        exact (hinv.verifierFlushEgress ans).quiet.cq
    rw [if_neg hno]
    show efd ≤ notes + (s.proceed ans).pollCqes
    rw [pollCqes, hsame]
    exact hefd
  | dispatch ans =>
    simp only [SysStep.withQueue] at hrun' ⊢
    by_cases htodo : s.todo = []
    · rw [if_pos htodo] at hrun' ⊢
      exact dispatch_wakes h hrun htodo queue hefd hrun'
    · have hno : ¬ s.Consumes (.dispatch ans) := fun hc => htodo hc.1
      rw [if_neg htodo, if_neg hno]
      exact hefd

end Sys

namespace System

variable {B : Blake3} {k n : Nat} {s : System B k n}

/-! ## The invariant -/

/-- Every token in an eventfd has a wake-up attached. -/
structure Awake (s : System B k n) : Prop where
  covered : s.dispatch.Covered
  alive : ∀ i, (s.processors i).Alive
  tokens : s.Running →
    ∀ i, s.dispatch.efds i ≤ s.notes i + (s.processors i).pollCqes

theorem awake_start [NeZero n] (queue : Queue) (boot : Fin k → Sys.Boot n) :
    (start B queue boot).Awake :=
  ⟨Dispatch.covered_start queue, fun i => Sys.alive_processorRun (boot i),
    fun _ _ => Nat.zero_le _⟩

/-- What a call of `queue_consume_try` leaves of the tokens. -/
theorem efds_consume (d : Dispatch k) (i j : Fin k) :
    (d.consume i).efds j = if j = i then d.efds i - 1 else d.efds j := by
  show Function.update d.efds i _ j = _
  rw [queueConsumeTry_efd]
  exact Function.update_apply ..

section Steps

variable [NeZero k]

/-- A write is made while the kernel watches the eventfd, and gets a
notification of its own; and the completions of the polls keep the
notifications. -/
def OwnWakeup (s : System B k n) : SystemStep k n → Prop
  | .eventfdWrite merged => s.dispatch.producer ≠ .idle →
      (s.processors s.dispatch.target).Armed ∧
        (merged = true → s.notes s.dispatch.target = 0)
  | .processor i a => (s.processors i).DeliversAll (s.notes i) a
  | _ => True

instance (s : System B k n) : DecidablePred s.OwnWakeup := fun a =>
  match a with
  | .eventfdWrite _ => inferInstanceAs (Decidable (_ → _ ∧ (_ → _)))
  | .processor i a =>
    inferInstanceAs (Decidable ((s.processors i).DeliversAll (s.notes i) a))
  | .queueAdd _ => isTrue trivial
  | .raise _ => isTrue trivial

omit [NeZero k] in
theorem Awake.queueAdd (h : s.Awake) (event : Event) :
    { s with dispatch := s.dispatch.handleAdd event }.Awake := by
  have hsame : (s.dispatch.handleAdd event).efds = s.dispatch.efds ∧
      (s.dispatch.handleAdd event).exited = s.dispatch.exited := by
    unfold Dispatch.handleAdd
    split <;> exact ⟨rfl, rfl⟩
  refine ⟨h.covered.handleAdd event, h.alive, ?_⟩
  intro hrun
  simp only [hsame.1]
  exact h.tokens ⟨hsame.2.symm.trans hrun.1, hrun.2⟩

theorem Awake.eventfdWrite (h : s.Awake) (hrun : s.Running) {merged : Bool}
    (hown : s.OwnWakeup (.eventfdWrite merged)) :
    (s.eventfdWrite merged).Awake := by
  refine ⟨h.covered.handleWrite, h.alive, ?_⟩
  intro hrun' i
  have htok := h.tokens hrun i
  by_cases hwrites : s.Writes
  · obtain ⟨harmed, hfresh⟩ := hown hwrites.1
    have hnote : ¬ (merged = true ∧ 0 < s.notes s.dispatch.target) := by
      rintro ⟨hmerged, hpos⟩
      rw [hfresh hmerged] at hpos
      exact absurd hpos (Nat.lt_irrefl 0)
    have hefds : s.dispatch.handleWrite.efds = Function.update s.dispatch.efds
        s.dispatch.target (s.dispatch.efds s.dispatch.target + 1) := by
      unfold Dispatch.handleWrite
      cases hp : s.dispatch.producer with
      | idle => exact absurd hp hwrites.1
      | added stored => simp only [Ride.eventfdWrite, if_pos hwrites.2]
    simp only [System.eventfdWrite, hefds,
      if_pos (And.intro hwrites (And.intro harmed hnote))]
    by_cases hi : i = s.dispatch.target
    · subst hi
      rw [Function.update_self, Function.update_self]
      omega
    · rw [Function.update_of_ne hi, Function.update_of_ne hi]
      exact htok
  · have hefds : s.dispatch.handleWrite.efds = s.dispatch.efds := by
      unfold Dispatch.handleWrite
      cases hp : s.dispatch.producer with
      | idle => rfl
      | added stored =>
        have hfull : ¬ s.dispatch.efds s.dispatch.target < EVENTFD_MAX := by
          intro hlt
          exact hwrites ⟨by rw [hp]; simp, hlt⟩
        simp only [Ride.eventfdWrite, if_neg hfull]
    have hno : ¬ (s.Writes ∧ (s.processors s.dispatch.target).Armed ∧
        ¬ (merged = true ∧ 0 < s.notes s.dispatch.target)) :=
      fun hall => hwrites hall.1
    simp only [System.eventfdWrite, hefds, if_neg hno]
    exact htok

theorem Awake.processorStep (h : s.Awake) (hrun : s.Running) {i : Fin k}
    {a : SysStep n} (hown : s.OwnWakeup (.processor i a)) :
    (s.processorStep i a).Awake := by
  refine ⟨?_, ?_, ?_⟩
  · simp only [System.processorStep]
    split_ifs
    · exact h.covered.consume i
    · exact h.covered
  · intro j
    simp only [System.processorStep, Function.update_apply]
    split_ifs
    · exact (h.alive i).step _
    · exact h.alive j
  · intro hrun' j
    have htok := h.tokens hrun j
    by_cases hj : j = i
    · subst hj
      have hstill := hrun'.2 j
      simp only [System.processorStep, Function.update_self] at hstill ⊢
      have hwakes := Sys.step_wakes (h.alive j) (hrun.2 j) hown _ htok hstill
      split_ifs at hwakes ⊢
      · rw [efds_consume, if_pos rfl]
        exact hwakes
      · exact hwakes
    · simp only [System.processorStep, Function.update_of_ne hj]
      split_ifs
      · rw [efds_consume, if_neg hj]
        exact htok
      · exact htok

theorem Awake.step (h : s.Awake) (a : SystemStep k n) (hown : s.OwnWakeup a) :
    (s.step a).Awake := by
  unfold System.step
  by_cases hrun : s.Running
  · rw [if_pos hrun]
    cases a with
    | queueAdd event => exact h.queueAdd event
    | eventfdWrite merged => exact h.eventfdWrite hrun hown
    | raise i =>
      show (if (s.processors i).Armed then _ else s).Awake
      split_ifs
      · refine ⟨h.covered, h.alive, ?_⟩
        intro _ j
        have htok := h.tokens hrun j
        simp only [Function.update_apply]
        split_ifs with hj
        · subst hj
          omega
        · exact htok
      · exact h
    | processor i a => exact h.processorStep hrun hown
  · rw [if_neg hrun]
    exact h

/-! ## The result -/

/-- The producer is idle, and no processor has a wake-up left. -/
def Quiescent (s : System B k n) : Prop :=
  s.Running ∧ s.dispatch.producer = .idle ∧
    ∀ i, s.notes i = 0 ∧
      ∀ cqe ∈ (s.processors i).cq.unreaped, cqe.userData.req ≠ .queuePoll

instance (s : System B k n) : Decidable s.Quiescent :=
  inferInstanceAs (Decidable (_ ∧ _ ∧ ∀ _, _ ∧ ∀ cqe ∈ _, _))

omit [NeZero k] in
theorem Awake.pending_eq_nil (h : s.Awake) (hquiet : s.Quiescent) :
    s.dispatch.queue.pending = [] := by
  obtain ⟨hrun, hidle, hnone⟩ := hquiet
  have hcqes : ∀ i, (s.processors i).pollCqes = 0 := by
    intro i
    rw [Sys.pollCqes, List.countP_eq_zero]
    intro cqe hcqe hwakes
    rw [decide_eq_true_eq] at hwakes
    exact (hnone i).2 cqe hcqe hwakes.1
  have hefds : ∀ i, s.dispatch.efds i = 0 := by
    intro i
    have htok := h.tokens hrun i
    rw [(hnone i).1, hcqes] at htok
    exact Nat.le_zero.mp htok
  have hcov := h.covered.covered
  rw [hidle, Dispatch.tokens, Finset.sum_eq_zero fun i _ => hefds i] at hcov
  exact List.length_eq_zero_iff.mp (Nat.le_zero.mp hcov)

/-- In every run in which every write gets a wake-up of its own, the queue is
empty in every quiescent state. -/
theorem queue_empty_when_quiescent [NeZero n] (queue : Queue)
    (boot : Fin k → Sys.Boot n) (sched : List (SystemStep k n))
    (hown : Meets System.step OwnWakeup (start B queue boot) sched) :
    let s := run System.step (start B queue boot) sched
    s.Quiescent → s.dispatch.queue.pending = [] := by
  intro s hquiet
  have hawake : s.Awake :=
    run_invariant_of_meets (fun _ a h => h.step a) (awake_start queue boot) hown
  exact hawake.pending_eq_nil hquiet

end Steps

/-- A processor submits its poll and its socket, and the kernel takes both. -/
def armOne (i : Fin k) : List (SystemStep k n) :=
  let ans := Sys.Answers.event []
  [.proceed ans, .proceed ans, .kernel .consume, .kernel .consume].map
    (.processor i)

/-- The kernel delivers a notification, and the processor reaps it. -/
def wakeOne (i : Fin k) : List (SystemStep k n) :=
  (.kernel (.notify 0 1 2) :: Sys.reapOne (Sys.Answers.event []) 1).map
    (.processor i)

/-- Two processors, and one event for each of them. -/
def spreadRun : List (SystemStep 2 1) :=
  armOne 0 ++ armOne 1 ++
  [.queueAdd (.ofPath [47, 97]), .eventfdWrite false,
    .queueAdd (.ofPath [47, 98]), .eventfdWrite false] ++
  wakeOne 1 ++ wakeOne 0

theorem queue_empty_after_spreadRun :
    let s := run System.step (start .concat ⟨fun _ => .zero, 0, 0⟩
      fun _ => Sys.Boot.zeroed 1) spreadRun
    (∀ i, (s.processors i).dequeued.length = 1) ∧ s.Quiescent ∧
      s.dispatch.queue.pending = [] :=
  ⟨by decide +kernel, by decide +kernel,
    queue_empty_when_quiescent _ _ spreadRun (by decide +kernel)
      (by decide +kernel)⟩

/-- One processor and two events.  The second write is merged with the
notification of the first one. -/
def mergedRun : List (SystemStep 1 2) :=
  armOne 0 ++
  [.queueAdd (.ofPath [47, 97]), .eventfdWrite false,
    .queueAdd (.ofPath [47, 98]), .eventfdWrite true] ++
  wakeOne 0

/-- The processor has taken one event, and nothing wakes it for the other. -/
theorem event_stranded_by_merged_write :
    let s := run System.step (start .concat ⟨fun _ => .zero, 0, 0⟩
      fun _ => Sys.Boot.zeroed 2) mergedRun
    s.Quiescent ∧ s.dispatch.queue.pending = [.ofPath [47, 98]] ∧
      s.dispatch.efds 0 = 1 := by
  decide +kernel

end System

end Ride
