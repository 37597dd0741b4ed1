import Ride.Processor.Run

/-!
# The poll of the queue

`Sys.PollInv` is about the poll of the queue: something that keeps it going is
always on its way, unless a submission of it was refused.  `Sys.Alive` puts it
together with the invariant of the slots.
-/

namespace Ride

open CodeLib CodeLib.Machine

/-- The poll of the queue goes on behind it.  A completion with the flag
`IORING_CQE_F_MORE` leaves the poll to its operation. -/
def Pending.Live {n : Nat} : Pending n → Prop
  | .cqe c => Sys.hasMore c.flags = false
  | _ => True

/-- Its opcode is the one of the poll. -/
def Pending.Polls {n : Nat} : Pending n → Prop
  | .sqe q => q.opcode = .pollAdd
  | .op o => o.kind = .poll
  | _ => True

namespace Sys

variable {B : Blake3} {n : Nat} {i : Fin n} {s t : Sys B n}

/-! ## The poll of the queue -/

/-- Everything on its way for the poll has the opcode of the poll, and unless a
submission of the poll was refused, something keeps it going. -/
structure PollInv (s : Sys B n) : Prop where
  opcode : s.queuePollReq.opcode = .pollAdd
  callback : s.queuePollReq.callback = some .onQueueEvent
  polls : ∀ p ∈ s.transit, p.For .queuePoll → p.Polls
  live : .queuePoll ∈ s.refused ∨
    ∃ p ∈ s.transit, p.For .queuePoll ∧ p.Live

/-- Nothing has changed for the poll. -/
theorem PollInv.of_transit (h : s.PollInv) (hreq : t.queuePollReq = s.queuePollReq)
    (href : t.refused = s.refused) (htransit : t.transit = s.transit) :
    t.PollInv :=
  ⟨by rw [hreq]; exact h.opcode, by rw [hreq]; exact h.callback,
    by rw [htransit]; exact h.polls, by rw [href, htransit]; exact h.live⟩

/-- One thing on its way has become another one of the same request. -/
theorem PollInv.moved (h : s.PollInv) {p p' : Pending n}
    (hreq : t.queuePollReq = s.queuePollReq) (href : t.refused = s.refused)
    (hmove : Moves s t p p') (htarget : p'.target = p.target)
    (hp : p.For .queuePoll → p.Polls → p'.Polls ∧ p'.Live) : t.PollInv := by
  have hfor : p'.For .queuePoll ↔ p.For .queuePoll := by
    rw [Pending.For, Pending.For, htarget]
  refine ⟨by rw [hreq]; exact h.opcode, by rw [hreq]; exact h.callback, ?_, ?_⟩
  · intro q hq hqfor
    rcases hmove.of_mem hq with rfl | hold
    · have hpfor := hfor.mp hqfor
      exact (hp hpfor (h.polls p hmove.mem hpfor)).1
    · exact h.polls q hold hqfor
  · rcases h.live with hrefused | ⟨q, hq, hqfor, hlive⟩
    · exact Or.inl (by rw [href]; exact hrefused)
    · by_cases hqp : q = p
      · subst hqp
        obtain ⟨rest, -, ht⟩ := hmove
        refine Or.inr ⟨p', ?_, hfor.mpr hqfor,
          (hp hqfor (h.polls q hq hqfor)).2⟩
        rw [ht]
        exact Multiset.mem_cons_self ..
      · exact Or.inr ⟨q, hmove.mem_of_ne hq hqp, hqfor, hlive⟩

/-- Something that does not belong to the poll is gone. -/
theorem PollInv.dropped (h : s.PollInv) {p : Pending n}
    (hreq : t.queuePollReq = s.queuePollReq)
    (href : ∀ r ∈ s.refused, r ∈ t.refused)
    (hdrop : s.transit = p ::ₘ t.transit) (hp : ¬ p.For .queuePoll) :
    t.PollInv := by
  refine ⟨by rw [hreq]; exact h.opcode, by rw [hreq]; exact h.callback, ?_, ?_⟩
  · intro q hq
    apply h.polls q
    rw [hdrop]
    exact Multiset.mem_cons_of_mem hq
  · rcases h.live with hrefused | ⟨q, hq, hqfor, hlive⟩
    · exact Or.inl (href _ hrefused)
    · rw [hdrop, Multiset.mem_cons] at hq
      rcases hq with rfl | hq
      · exact absurd hqfor hp
      · exact Or.inr ⟨q, hq, hqfor, hlive⟩

/-- Submissions or completions are added. -/
theorem PollInv.added (h : s.PollInv) (ps : Multiset (Pending n))
    (hreq : t.queuePollReq = s.queuePollReq) (href : t.refused = s.refused)
    (hadd : t.transit = ps + s.transit) (hps : ∀ p ∈ ps, p.Polls) :
    t.PollInv := by
  refine ⟨by rw [hreq]; exact h.opcode, by rw [hreq]; exact h.callback, ?_, ?_⟩
  · intro q hq hqfor
    rw [hadd, Multiset.mem_add] at hq
    rcases hq with hq | hq
    · exact hps q hq
    · exact h.polls q hq hqfor
  · rcases h.live with hrefused | ⟨q, hq, hqfor, hlive⟩
    · exact Or.inl (by rw [href]; exact hrefused)
    · refine Or.inr ⟨q, ?_, hqfor, hlive⟩
      rw [hadd]
      exact Multiset.mem_add.mpr (Or.inr hq)

/-- A submission to come has no opcode yet. -/
theorem cmds_polls (cmds : List (Cmd n)) :
    ∀ p ∈ (cmds.filterMap Cmd.pending : Multiset (Pending n)), p.Polls := by
  intro p hp
  rw [Multiset.mem_coe, List.mem_filterMap] at hp
  obtain ⟨cmd, -, hcmd⟩ := hp
  cases cmd with
  | flushEgress => exact absurd hcmd (by simp [Cmd.pending])
  | submit r =>
    obtain rfl : Pending.cmd r = p := Option.some.inj hcmd
    trivial

/-! ## The kernel and the poll -/

/-- An operation that is no poll does not belong to the poll. -/
theorem PollInv.kind (h : s.PollInv) {k : Nat} {op : Op n}
    (hop : s.ops[k]? = some op) (hfor : (Pending.op op).For .queuePoll) :
    op.kind = .poll :=
  h.polls _ (op_mem_transit hop) hfor

/-- The last completion of a poll has no flag `IORING_CQE_F_MORE`, and no other
operation belongs to the poll. -/
theorem PollInv.kernel (h : s.PollInv) (hsq : s.sq.Wf) (hcq : s.cq.Wf)
    {act : KernelAct n} (hto : KernelTo s act t) : t.PollInv := by
  cases hto with
  | same => exact h
  | @dropped sqe sq htake hname =>
    refine h.dropped (p := .sqe sqe) rfl (fun _ hr => hr) ?_ ?_
    · rw [transit, (take_inRings hsq htake).1, Multiset.add_cons]
      rfl
    · simp [Pending.For, Pending.target, hname]
  | @taken sqe sq name htake hname =>
    refine h.moved rfl rfl (consume_moves hsq htake _) ?_ ?_
    · simp only [Pending.target, hname, Option.map_some]
    · intro _ hpolls
      have hpolls : sqe.opcode = .pollAdd := hpolls
      refine ⟨?_, trivial⟩
      show s.opKind sqe = .poll
      simp only [opKind, hpolls]
  | scribbled buffers => exact h.of_transit rfl rfl rfl
  | filled hop buffers =>
    refine h.moved rfl rfl (set_moves hop rfl rfl rfl rfl) rfl ?_
    intro hfor _
    exact absurd (h.kind hop hfor) (by simp)
  | opened hop hfd hfree hroom =>
    refine h.moved rfl rfl (post_moves hcq hop hroom rfl rfl rfl rfl) rfl ?_
    intro hfor _
    exact absurd (h.kind hop hfor) (by simp)
  | @notified k name res flags hop hroom =>
    refine h.added {.cqe ⟨name, res, flags⟩} rfl rfl ?_ ?_
    · rw [Multiset.singleton_add]
      exact notify_transit hcq hroom rfl rfl rfl rfl
    · intro p hp
      rw [Multiset.mem_singleton.mp hp]
      trivial
  | @completed k name kind res flags hop hallows hroom =>
    refine h.moved rfl rfl (post_moves hcq hop hroom rfl rfl rfl rfl) rfl ?_
    intro hfor hpolls
    have hkind : kind = .poll := hpolls
    rw [hkind] at hallows
    exact ⟨trivial, hallows⟩

/-! ## The loop and the poll -/

/-- A callback of the poll that ends with a completion without
`IORING_CQE_F_MORE` submits the poll again, or ends the run. -/
theorem FixedOutcome.rearms {r : ReqPtr n} {ans : Answers}
    (hout : FixedOutcome s r ans t)
    (hcall : (s.req r).callback = some .onQueueEvent)
    (hlast : hasMore (s.req r).resultFlags = false)
    (hrun : t.halted = none) : .submit .queuePoll ∈ t.todo := by
  cases hout with
  | ended hend => exact absurd hrun hend.halted
  | waits todo hwait htodo hrearm => simp [hrearm hcall hlast]
  | taken event events ticket rest hhead hnew hrest hrearm =>
    simp [Sys.prepared, hrearm hlast]
  | created hother => exact absurd (hcall.symm.trans hother) (by simp)
  | connected hother => exact absurd (hcall.symm.trans hother) (by simp)
  | received hother => exact absurd (hcall.symm.trans hother) (by simp)

/-- A completion that the loop reaps is gone, and submissions are added. -/
theorem PollInv.reaped (h : s.PollInv) (hcq : s.cq.Wf) (htodo : s.todo = [])
    {cqe : Cqe (Name n)} (hcur : s.cq.current = some cqe)
    (hquiet : Quiet (s.deliver cqe) t)
    (hrearm : cqe.userData.req = .queuePoll → hasMore cqe.flags = false →
      .submit .queuePoll ∈ t.todo) : t.PollInv := by
  have hdrop := deliver_transit hcq hcur
  have hdel := s.deliver_reaped cqe
  have hadd : t.transit = (t.todo.filterMap Cmd.pending :
      Multiset (Pending n)) + (s.deliver cqe).transit := by
    rw [transit, hquiet.inRings, transit, hdel.todo, htodo]
    simp
  obtain ⟨res, flags, hreq⟩ := s.deliver_req cqe .queuePoll
  have hpoll : t.queuePollReq =
      { s.queuePollReq with result := res, resultFlags := flags } :=
    hquiet.queuePollReq.trans hreq
  refine ⟨by rw [hpoll]; exact h.opcode, by rw [hpoll]; exact h.callback,
    ?_, ?_⟩
  · intro q hq hqfor
    rw [hadd, Multiset.mem_add] at hq
    rcases hq with hq | hq
    · exact cmds_polls _ q hq
    · apply h.polls q _ hqfor
      rw [hdrop]
      exact Multiset.mem_cons_of_mem hq
  · rcases h.live with hrefused | ⟨q, hq, hqfor, hlive⟩
    · exact Or.inl (by rw [hquiet.refused, hdel.refused]; exact hrefused)
    · right
      rw [hdrop, Multiset.mem_cons] at hq
      rcases hq with rfl | hq
      · -- the completion that kept the poll going is reaped here
        refine ⟨.cmd .queuePoll, ?_, rfl, trivial⟩
        rw [hadd, Multiset.mem_add, Multiset.mem_coe, List.mem_filterMap]
        exact Or.inl ⟨.submit .queuePoll,
          hrearm (Option.some.inj hqfor) hlive, rfl⟩
      · refine ⟨q, ?_, hqfor, hlive⟩
        rw [hadd]
        exact Multiset.mem_add.mpr (Or.inr hq)

theorem PollInv.dispatched (h : s.PollInv) (hcq : s.cq.Wf)
    (htodo : s.todo = []) {ans : Answers} (hout : Dispatched s ans t)
    (hrun : t.halted = none) : t.PollInv := by
  cases hout with
  | idle => exact h
  | slot cqe hcur hreq hheld hout =>
    refine h.reaped hcq htodo hcur hout.quiet ?_
    intro hpoll
    exact absurd (hreq.symm.trans hpoll) (by simp)
  | fixed cqe hcur hfixed hinv hidle hout =>
    refine h.reaped hcq htodo hcur hout.quiet ?_
    intro hpoll hlast
    have hreq : (s.deliver cqe).req cqe.userData.req =
        { s.req cqe.userData.req with
          result := cqe.res, resultFlags := cqe.flags } := req_setReq_self ..
    refine hout.rearms ?_ (by rw [hreq]; exact hlast) hrun
    rw [hreq, hpoll]
    exact h.callback

theorem PollInv.submit (h : s.PollInv) {r : ReqPtr n} {rest : List (Cmd n)}
    (htodo : s.todo = .submit r :: rest) :
    ({ s with todo := rest }.submit r).PollInv := by
  by_cases hroom : s.sq.pending.length < s.sq.mask.size
  · obtain ⟨hmove, -, href⟩ := submit_moves htodo hroom
    refine h.moved rfl href hmove rfl ?_
    intro hfor _
    obtain rfl : r = .queuePoll := Option.some.inj hfor
    exact ⟨h.opcode, trivial⟩
  · obtain ⟨hdrop, -, href⟩ := submit_refused htodo (Nat.le_of_not_lt hroom)
    by_cases hr : r = .queuePoll
    · subst hr
      refine ⟨h.opcode, h.callback, ?_, Or.inl ?_⟩
      · intro q hq
        apply h.polls q
        rw [hdrop]
        exact Multiset.mem_cons_of_mem hq
      · rw [href]
        exact List.mem_append_right _ (List.mem_singleton_self _)
    · refine h.dropped rfl ?_ hdrop fun hfor => hr (Option.some.inj hfor)
      intro r' hr'
      rw [href]
      exact List.mem_append_left _ hr'

/-- What is to come after `verifier_flush_egress`. -/
theorem FlushOutcome.todo {ans : Answers} (hout : FlushOutcome s ans t)
    (hrun : t.halted = none) : ∃ cmd, t.todo = cmd :: s.todo := by
  cases hout with
  | ended hend => exact absurd hrun hend.halted
  | armed => exact ⟨_, rfl⟩
  | updating => exact ⟨_, rfl⟩

theorem PollInv.flush (h : s.PollInv) {ans : Answers} {rest : List (Cmd n)}
    (htodo : s.todo = .flushEgress :: rest)
    (hout : FlushOutcome { s with todo := rest } ans t)
    (hrun : t.halted = none) : t.PollInv := by
  have hquiet := hout.quiet
  obtain ⟨cmd, hcmd⟩ := hout.todo hrun
  refine h.added ([cmd].filterMap Cmd.pending : List (Pending n))
    hquiet.queuePollReq hquiet.refused ?_ (cmds_polls [cmd])
  rw [transit, transit, hcmd, hquiet.inRings, htodo, ← List.singleton_append,
    List.filterMap_append, ← Multiset.coe_add, Multiset.add_assoc]
  rfl

/-! ## The runs -/

/-- The invariant of a run, with the poll. -/
structure Alive (s : Sys B n) : Prop where
  good : s.Good
  poll : s.halted = none → s.PollInv

theorem PollInv.effect (h : s.PollInv) (hinv : Inv none s) {a : SysStep n}
    (heff : Effect s a t) (hrun : t.halted = none) : t.PollInv := by
  cases heff with
  | stutter => exact h
  | idle => exact h
  | kernel act hto => exact h.kernel hinv.sq hinv.cq hto
  | reaper _ cq hwf hsame =>
    refine h.of_transit rfl rfl ?_
    rw [transit, transit, inRings, inRings, hsame]
  | dispatch ans htodo hout => exact h.dispatched hinv.cq htodo hout hrun
  | submit ans htodo => exact h.submit htodo
  | flush ans htodo hout => exact h.flush htodo hout hrun

theorem Alive.step (h : s.Alive) (a : SysStep n) : (s.step a).Alive := by
  refine ⟨h.good.step a, ?_⟩
  by_cases hrun : s.halted = none
  · have hinv := h.good.inv hrun
    exact (h.poll hrun).effect hinv (hinv.effect hrun a)
  · rw [step_of_halted hrun]
    exact h.poll

theorem alive_processorRun [NeZero n] (boot : Boot n) :
    (processorRun B boot).Alive := by
  refine ⟨Good.of_inv (inv_processorRun boot), fun _ => ⟨rfl, rfl, ?_, ?_⟩⟩
  · intro p hp _
    rw [transit_processorRun] at hp
    simp only [Multiset.insert_eq_cons, Multiset.mem_cons,
      Multiset.mem_singleton] at hp
    rcases hp with rfl | rfl <;> trivial
  · refine Or.inr ⟨.cmd .queuePoll, ?_, rfl, trivial⟩
    rw [transit_processorRun]
    exact Multiset.mem_cons_self ..

end Sys

end Ride
