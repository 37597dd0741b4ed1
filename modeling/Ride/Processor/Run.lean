import Ride.Processor.Requests
import Ride.CodeLib.Machine

/-!
# Every run of a processor keeps the invariant

A completion gives its slot to the callback of the slot, a submission that the
ring accepts becomes an entry, and one that it refuses is lost.  `Good.step` puts
all the steps together, `inv_processorRun` is the state that `processor_run`
starts with, and `good_run` is the result: every state of every run is
`Sys.Good`.
-/

namespace Ride

open CodeLib CodeLib.Machine

namespace Sys

variable {B : Blake3} {n : Nat} {i : Fin n} {s t : Sys B n}

/-! ## The completions -/

/-- The result of a completion is stored in its request. -/
def deliver (s : Sys B n) (cqe : Cqe (Name n)) : Sys B n :=
  { s with cq := s.cq.advance }.setReq cqe.userData.req
    { s.req cqe.userData.req with result := cqe.res, resultFlags := cqe.flags }

theorem dispatch_eq {cqe : Cqe (Name n)} (hcur : s.cq.current = some cqe)
    (ans : Answers) :
    s.dispatch ans = (s.deliver cqe).call cqe.userData.req ans := by
  simp only [dispatch, hcur]
  rfl

/-- From `s` to `t`, a completion was reaped, and nothing but the requests has
changed. -/
structure Reaped (s t : Sys B n) : Prop where
  cq : t.cq = s.cq.advance
  sq : t.sq = s.sq
  ops : t.ops = s.ops
  todo : t.todo = s.todo
  reqsList : t.reqsList = s.reqsList
  nrFreeReqs : t.nrFreeReqs = s.nrFreeReqs
  buffers : t.buffers = s.buffers
  strings : t.strings = s.strings
  nextString : t.nextString = s.nextString
  fds : t.fds = s.fds
  gens : t.gens = s.gens
  tickets : t.tickets = s.tickets
  dequeued : t.dequeued = s.dequeued
  records : t.records = s.records
  errors : t.errors = s.errors
  frees : t.frees = s.frees
  opens : t.opens = s.opens
  refused : t.refused = s.refused
  conn : t.conn = s.conn
  expiry : t.expiry = s.expiry
  halted : t.halted = s.halted

theorem deliver_reaped (s : Sys B n) (cqe : Cqe (Name n)) :
    Reaped s (s.deliver cqe) := by
  unfold deliver
  cases cqe.userData.req <;> constructor <;> rfl

/-- Of a request, the result alone may have changed. -/
theorem deliver_req (s : Sys B n) (cqe : Cqe (Name n)) (r : ReqPtr n) :
    ∃ res flags, (s.deliver cqe).req r =
      { s.req r with result := res, resultFlags := flags } := by
  by_cases hr : r = cqe.userData.req
  · subst hr
    exact ⟨_, _, req_setReq_self ..⟩
  · exact ⟨_, _, req_setReq_of_ne hr ..⟩

theorem deliver_transit (hwf : s.cq.Wf) {cqe : Cqe (Name n)}
    (hcur : s.cq.current = some cqe) :
    s.transit = .cqe cqe ::ₘ (s.deliver cqe).transit := by
  have hdel := s.deliver_reaped cqe
  have hsame : (s.deliver cqe).transit =
      { s with cq := s.cq.advance }.transit := by
    simp only [transit, inRings, hdel.cq, hdel.sq, hdel.ops, hdel.todo]
  rw [hsame]
  exact advance_transit hwf hcur

theorem deliver_reqOk (hs : ∀ r, s.ReqOk r) (cqe : Cqe (Name n))
    (r : ReqPtr n) : (s.deliver cqe).ReqOk r := by
  have hreq := hs cqe.userData.req
  have hadvance : ∀ r', { s with cq := s.cq.advance }.ReqOk r' :=
    fun r' => ⟨(hs r').data2, (hs r').addr⟩
  refine reqOk_setReq hadvance ?_ ?_ r
  · exact hreq.data2
  · exact hreq.addr

theorem deliver_reqs {cqe : Cqe (Name n)}
    (hfixed : cqe.userData.req.container = none) :
    (s.deliver cqe).reqs = s.reqs := by
  unfold deliver
  cases hr : cqe.userData.req with
  | slot j =>
    rw [hr] at hfixed
    exact absurd hfixed (by simp [ReqPtr.container])
  | _ => rfl

/-- Of a slot, the result of its request alone may have changed. -/
theorem deliver_reqs_at (s : Sys B n) (cqe : Cqe (Name n)) (j : Fin n) :
    ∃ res flags, (s.deliver cqe).reqs j = { s.reqs j with
      req := { (s.reqs j).req with result := res, resultFlags := flags } } := by
  unfold deliver
  cases cqe.userData.req with
  | slot i =>
    by_cases hj : j = i
    · subst hj
      exact ⟨_, _, Function.update_self ..⟩
    · exact ⟨_, _, Function.update_of_ne hj ..⟩
  | _ => exact ⟨_, _, rfl⟩

theorem Reaped.sameSlab (h : Reaped s t) (hreqs : t.reqs = s.reqs) :
    SameSlab s t where
  reqs := hreqs
  reqsList := h.reqsList
  nrFreeReqs := h.nrFreeReqs
  strings := h.strings
  nextString := h.nextString
  gens := h.gens
  tickets := h.tickets
  dequeued := h.dequeued
  records := h.records
  errors := h.errors
  frees := h.frees
  halted := h.halted
  opens o ho := by
    rw [h.opens]
    exact ho
  refused r hr := by
    rw [h.refused]
    exact hr

/-- A completion of a fixed request leaves the slots alone. -/
theorem Inv.deliver_fixed (h : Inv none s) {cqe : Cqe (Name n)}
    (hcur : s.cq.current = some cqe)
    (hfixed : cqe.userData.req.container = none) :
    Inv none (s.deliver cqe) := by
  have hdrop := deliver_transit h.cq hcur
  have hother : ∀ j, ¬ (Pending.cqe cqe).For (.slot j) := by
    intro j hfor
    rw [Option.some.inj hfor] at hfixed
    exact absurd hfixed (by simp [ReqPtr.container])
  have hdel := s.deliver_reaped cqe
  have hs := hdel.sameSlab (deliver_reqs hfixed)
  refine h.of_slab hs (by rw [hdel.sq]; exact h.sq)
    (by rw [hdel.cq]; exact h.cq.advance) (deliver_reqOk h.reqs cqe) ?_ ?_
  · intro p hp j hj
    apply h.aims p _ j hj
    rw [hdrop]
    exact Multiset.mem_cons_of_mem hp
  · intro j hj
    refine (h.slots j hj).keeps (hs.keeps j ?_) (by rw [hdel.buffers])
      (outstanding_of_cons_ne hdrop (hother j)).symm
    intro fd file hfd
    rw [hdel.fds]
    exact hfd

/-- A stage does not look at the result in the request. -/
theorem Fits.result {stage : Stage} (h : s.Fits i stage) (res : Int)
    (flags : UInt32) (cq : Reaper (Name n)) :
    { s with
      cq := cq
      reqs := Function.update s.reqs i { s.reqs i with
        req := { (s.reqs i).req with result := res, resultFlags := flags } }
      }.Fits i stage := by
  cases stage with
  | opening path id =>
    have h : s.OpensFile i path id := h
    refine ⟨?_, ?_, ?_, ?_, h.string, h.task⟩ <;>
      simp only [Function.update_self]
    · exact h.callback
    · exact h.opcode
    · exact h.addr
    · exact h.data
  | reading path id file off =>
    have h : s.ReadsFile i path id file off := h
    refine ⟨?_, ?_, ?_, ?_, ?_, h.off_le, ?_, h.string, h.task, ?_, h.opened,
      h.path_ne, ?_⟩ <;> simp only [Function.update_self]
    · exact h.callback
    · exact h.opcode
    · exact h.addr
    · exact h.len
    · exact h.off_eq
    · exact h.data
    · exact h.fd
    · exact h.absorbed
  | updating =>
    have h : s.UpdatesTimer i := h
    refine ⟨?_, ?_, h.ticket⟩ <;> simp only [Function.update_self]
    · exact h.callback
    · exact h.opcode

/-- The slot of the completion that is reaped is held by its callback. -/
theorem Inv.advanced (h : Inv none s) {cqe : Cqe (Name n)}
    (hcur : s.cq.current = some cqe) (hslot : cqe.userData.req = .slot i) :
    Inv (some i) { s with cq := s.cq.advance } := by
  have hdrop := advance_transit h.cq hcur
  have hs := sameMemory_rings s s.sq s.cq.advance s.ops s.buffers s.fds
  have hheld : Inv (some i) s :=
    ⟨h.sq, h.cq, h.list, h.slab, h.reqs, h.aims, fun j _ => h.slots j (by simp),
      h.tasks, h.fresh, h.output⟩
  refine hheld.of_same hs h.sq h.cq.advance ?_ ?_
  · intro p hp j hj
    apply h.aims p _ j hj
    rw [hdrop]
    exact Multiset.mem_cons_of_mem hp
  · intro j hj
    refine (h.slots j (by simp)).keeps (hs.keeps j fun _ _ hfd => hfd) rfl
      (outstanding_of_cons_ne hdrop ?_).symm
    rw [Pending.For, Pending.target, hslot, Option.some.injEq,
      ReqPtr.slot.injEq]
    exact fun heq => hj (congrArg some heq)

/-- The slot with the result of a completion in its request. -/
def withResult (s : Sys B n) (i : Fin n) (res : Int) (flags : UInt32) :
    Sys B n :=
  s.setSlot i { s.reqs i with
    req := { (s.reqs i).req with result := res, resultFlags := flags } }

theorem onlySlot_withResult (h : Inv (some i) s) (res : Int) (flags : UInt32) :
    OnlySlot i s (s.withResult i res flags) := by
  have hreq := h.reqs (.slot i)
  refine OnlySlot.of_update rfl rfl rfl hreq.data2 ?_ rfl rfl rfl rfl rfl rfl
    rfl (fun _ _ => rfl) rfl (fun _ _ => rfl) (fun _ _ => rfl)
    (fun _ _ _ _ hid => hid) (fun _ _ _ _ hfd => hfd) rfl List.prefix_rfl rfl
  intro j hj
  exact (ReqPtr.slot.inj (hreq.addr j hj)).symm

theorem Inv.withResult (h : Inv (some i) s) (res : Int) (flags : UInt32) :
    Inv (some i) (s.withResult i res flags) := by
  have ho := onlySlot_withResult h res flags
  have hnext : ∀ j, ((s.withResult i res flags).reqs j).next =
      (s.reqs j).next ∧ ((s.withResult i res flags).reqs j).inFlight =
        (s.reqs j).inFlight := by
    intro j
    by_cases hj : j = i
    · subst hj
      simp [Sys.withResult, setSlot]
    · rw [ho.other j hj]
      exact ⟨rfl, rfl⟩
  refine h.of_onlySlot ?_ ho ?_ (fun hno => absurd rfl hno) ?_ h.fresh ?_
  · intro j hj heq
    exact hj (Option.some.inj heq).symm
  · refine h.list.congr (fun j _ => (hnext j).1) ?_
    intro j
    rw [(hnext j).2]
  · exact h.tasks.congr (fun j => (hnext j).2) rfl rfl rfl rfl
  · exact ⟨h.output.records, h.output.nodup, h.output.frees, h.output.asserts⟩

theorem deliver_slot {cqe : Cqe (Name n)} (hslot : cqe.userData.req = .slot i) :
    s.deliver cqe =
      { s with cq := s.cq.advance }.withResult i cqe.res cqe.flags := by
  unfold deliver
  rw [hslot]
  rfl

/-- A completion of a slot gives the slot to its callback. -/
theorem Inv.deliver_slot (h : Inv none s) (htodo : s.todo = [])
    {cqe : Cqe (Name n)} (hcur : s.cq.current = some cqe)
    (hslot : cqe.userData.req = .slot i) :
    ∃ stage, (s.deliver cqe).Held i stage := by
  have hdrop := deliver_transit h.cq hcur
  have hmem : Pending.cqe cqe ∈ s.transit := by
    rw [hdrop]
    exact Multiset.mem_cons_self ..
  have hfor : (Pending.cqe cqe).For (.slot i) := by
    rw [Pending.For, Pending.target, hslot]
  obtain ⟨hfly, stage, hfits, hone, hc⟩ :=
    (h.slots i (by simp)).of_mem hmem hfor
  have hnone : (s.deliver cqe).outstanding (.slot i) = 0 := by
    rw [outstanding_of_cons hdrop hfor] at hone
    exact (Multiset.cons_inj_right _).mp hone
  have hinv := (h.advanced hcur hslot).withResult cqe.res cqe.flags
  have hfits' := hfits.result cqe.res cqe.flags s.cq.advance
  rw [Sys.deliver_slot hslot] at hnone ⊢
  have hself : ({ s with cq := s.cq.advance }.withResult i cqe.res
      cqe.flags).reqs i = { s.reqs i with req := { (s.reqs i).req with
        result := cqe.res, resultFlags := cqe.flags } } :=
    Function.update_self ..
  refine ⟨stage, hinv, ?_, hfits', hnone, htodo, ?_⟩
  · rw [hself]
    exact hfly
  · cases stage with
    | opening path id =>
      simp only [Result, hself]
      exact hc.2
    | reading path id file off =>
      simp only [Result, hself]
      rcases hc.2 with hneg | ⟨r, hr, hdel⟩
      · exact Or.inl hneg
      · exact Or.inr ⟨r, hr, hdel.reads, hdel.stored⟩
    | updating => trivial

/-- What happens to the completion that the loop reaps. -/
inductive Dispatched (s : Sys B n) (ans : Answers) : Sys B n → Prop where
  | idle (hcur : s.cq.current = none) : Dispatched s ans s
  | slot {t : Sys B n} {i : Fin n} {stage : Stage} (cqe : Cqe (Name n))
      (hcur : s.cq.current = some cqe) (hreq : cqe.userData.req = .slot i)
      (hheld : (s.deliver cqe).Held i stage)
      (hout : SlotOutcome (s.deliver cqe) i ans t) : Dispatched s ans t
  | fixed {t : Sys B n} (cqe : Cqe (Name n))
      (hcur : s.cq.current = some cqe)
      (hfixed : cqe.userData.req.container = none)
      (hinv : Inv none (s.deliver cqe)) (hidle : (s.deliver cqe).todo = [])
      (hout : FixedOutcome (s.deliver cqe) cqe.userData.req ans t) :
      Dispatched s ans t

theorem Inv.dispatched (h : Inv none s) (htodo : s.todo = [])
    (ans : Answers) : Dispatched s ans (s.dispatch ans) := by
  cases hcur : s.cq.current with
  | none =>
    simp only [Sys.dispatch, hcur]
    exact .idle hcur
  | some cqe =>
    rw [dispatch_eq hcur]
    have hidle := (s.deliver_reaped cqe).todo.trans htodo
    cases hr : cqe.userData.req with
    | slot i =>
      obtain ⟨stage, hheld⟩ := h.deliver_slot htodo hcur hr
      exact .slot cqe hcur hr hheld (hheld.call ans)
    | _ =>
      have hfixed : cqe.userData.req.container = none := by
        rw [hr]
        rfl
      have hinv := h.deliver_fixed hcur hfixed
      refine .fixed cqe hcur hfixed hinv hidle ?_
      rw [hr]
      exact hinv.call_fixed hidle rfl ans

/-- The callback of a completion leaves the rings alone. -/
theorem Dispatched.quiet {ans : Answers} (hout : Dispatched s ans t)
    {cqe : Cqe (Name n)} (hcur : s.cq.current = some cqe) :
    Quiet (s.deliver cqe) t := by
  cases hout with
  | idle hnone => exact absurd (hnone.symm.trans hcur) (by simp)
  | slot cqe' hcur' hreq hheld hout =>
    obtain rfl := Option.some.inj (hcur'.symm.trans hcur)
    exact hout.quiet
  | fixed cqe' hcur' hfixed hinv hidle hout =>
    obtain rfl := Option.some.inj (hcur'.symm.trans hcur)
    exact hout.quiet

theorem Inv.dispatch (h : Inv none s) (htodo : s.todo = []) (ans : Answers) :
    (s.dispatch ans).Good := by
  have hout := h.dispatched htodo ans
  generalize s.dispatch ans = t at hout ⊢
  cases hout with
  | idle hcur => exact Good.of_inv h
  | slot cqe hcur hreq hheld hout => exact hout.good hheld
  | fixed cqe hcur hfixed hinv hidle hout => exact hout.good hinv hidle

/-! ## The submissions -/

/-- A submission changes the ring and the history of refusals only. -/
theorem sameMemory_submit (s : Sys B n) (r : ReqPtr n) (rest : List (Cmd n)) :
    SameMemory s ({ s with todo := rest }.submit r) := by
  refine ⟨⟨rfl, rfl, rfl, rfl, rfl, rfl, rfl, rfl, rfl, rfl, rfl, rfl,
    fun _ ho => ho, ?_⟩, rfl⟩
  intro r' hr'
  show r' ∈ (if _ then s.refused ++ [r] else s.refused)
  split_ifs
  · exact List.mem_append_left _ hr'
  · exact hr'

theorem Inv.submit (h : Inv none s) {r : ReqPtr n} {rest : List (Cmd n)}
    (htodo : s.todo = .submit r :: rest) :
    Inv none ({ s with todo := rest }.submit r) := by
  have hs := sameMemory_submit s r rest
  by_cases hroom : s.sq.pending.length < s.sq.mask.size
  · obtain ⟨hmove, hwf, -⟩ := submit_moves htodo hroom
    refine h.moved hs hwf h.cq hmove rfl ?_ (fun _ _ _ hfd => hfd)
      (fun _ _ => rfl) ?_
    · intro i hi
      have hr := (h.reqs r).addr i hi
      rw [hr]
      rfl
    · intro i stage hfor _ _
      obtain rfl : r = .slot i := Option.some.inj hfor
      cases stage <;> rfl
  · obtain ⟨hdrop, hsq, href⟩ := submit_refused htodo (Nat.le_of_not_lt hroom)
    refine h.of_same hs (by rw [hsq]; exact h.sq) h.cq ?_ ?_
    · intro p hp i hi
      apply h.aims p _ i hi
      rw [hdrop]
      exact Multiset.mem_cons_of_mem hp
    · intro i hi
      have hslot := h.slots i hi
      have hkeeps := hs.keeps i fun _ _ hfd => hfd
      by_cases hr : r = .slot i
      · subst hr
        -- The slot stays in flight, and nothing will ever complete for it.
        have hmem : Pending.cmd (.slot i) ∈ s.transit := by
          rw [hdrop]
          exact Multiset.mem_cons_self ..
        have hfor : (Pending.cmd (.slot i)).For (.slot i) := rfl
        obtain ⟨hfly, stage, hfits, hone, -⟩ := hslot.of_mem hmem hfor
        rw [outstanding_of_cons hdrop hfor] at hone
        have hnone := (Multiset.cons_inj_right _).mp hone
        refine ⟨fun hfree => ?_, fun _ => ⟨stage, hfits.keeps hkeeps,
          Or.inl ⟨hnone, ?_⟩⟩⟩
        · rw [hkeeps.slot, hfly] at hfree
          exact absurd hfree (by decide)
        · rw [href]
          exact List.mem_append_right _ (List.mem_singleton_self _)
      · refine hslot.keeps hkeeps rfl (outstanding_of_cons_ne hdrop ?_).symm
        intro hfor
        exact hr (Option.some.inj hfor)

/-- The commands that are left are the ones to come. -/
theorem Inv.flushEgress (h : Inv none s) {rest : List (Cmd n)}
    (htodo : s.todo = .flushEgress :: rest) :
    Inv none { s with todo := rest } := by
  have htransit : { s with todo := rest }.transit = s.transit := by
    rw [transit, transit, htodo]
    rfl
  refine h.of_fixed (sameSlab_fixed s _ _ _ _ _ _ _ _) rfl rfl rfl rfl rfl
    (fun r => ⟨(h.reqs r).data2, (h.reqs r).addr⟩) ?_
  intro j
  rw [outstanding, outstanding, htransit]

theorem Inv.proceed (h : Inv none s) (ans : Answers) :
    (s.proceed ans).Good := by
  unfold Sys.proceed
  split
  · exact Good.of_inv h
  · rename_i htodo
    exact Good.of_inv (h.submit htodo)
  · rename_i htodo
    have hinv := h.flushEgress htodo
    exact (hinv.verifierFlushEgress ans).good hinv

/-! ## The runs -/

/-- The loop may look at the tail and move the head between callbacks. -/
theorem Inv.of_reaper (h : Inv none s) {cq : Reaper (Name n)} (hcq : cq.Wf)
    (hsame : cq.unreaped = s.cq.unreaped) : Inv none { s with cq := cq } := by
  have hs := sameMemory_rings s s.sq cq s.ops s.buffers s.fds
  have hrings : { s with cq := cq }.inRings = s.inRings := by
    rw [inRings, inRings, hsame]
  have htransit : { s with cq := cq }.transit = s.transit := by
    rw [transit, transit, hrings]
  refine h.of_same hs h.sq hcq (h.aims_of_rings hrings) ?_
  intro i hi
  refine (h.slots i hi).keeps (hs.keeps i fun _ _ hfd => hfd) rfl ?_
  rw [outstanding, outstanding, htransit]

/-- What a step of a run that has not ended can do. -/
inductive StepTo (s : Sys B n) : SysStep n → Sys B n → Prop where
  | stutter (a : SysStep n) (hbusy : s.todo ≠ [])
      (hloop : a = .load ∨ a = .publish ∨ ∃ ans, a = .dispatch ans) :
      StepTo s a s
  | kernel (act : KernelAct n) : StepTo s (.kernel act) (s.kernel act)
  | reaper (a : SysStep n) (cq : Reaper (Name n)) (hwf : s.cq.Wf → cq.Wf)
      (hsame : cq.unreaped = s.cq.unreaped) (hloop : a = .load ∨ a = .publish) :
      StepTo s a { s with cq := cq }
  | dispatch (ans : Answers) (htodo : s.todo = []) :
      StepTo s (.dispatch ans) (s.dispatch ans)
  | proceed (ans : Answers) : StepTo s (.proceed ans) (s.proceed ans)

theorem step_of_halted (h : s.halted ≠ none) (a : SysStep n) :
    s.step a = s :=
  if_pos (Option.isSome_iff_ne_none.mpr h)

theorem stepTo_step (h : s.halted = none) (a : SysStep n) :
    StepTo s a (s.step a) := by
  have hnot : ¬ s.halted.isSome := by simp [h]
  unfold Sys.step
  rw [if_neg hnot]
  cases a with
  | kernel act => exact .kernel act
  | load =>
    show StepTo s _ (if s.todo = [] then _ else s)
    split_ifs with htodo
    · exact .reaper _ _ Reaper.Wf.load s.cq.unreaped_load (Or.inl rfl)
    · exact .stutter _ htodo (by simp)
  | dispatch ans =>
    show StepTo s _ (if s.todo = [] then _ else s)
    split_ifs with htodo
    · exact .dispatch ans htodo
    · exact .stutter _ htodo (by simp)
  | proceed ans => exact .proceed ans
  | publish =>
    show StepTo s _ (if s.todo = [] then _ else s)
    split_ifs with htodo
    · exact .reaper _ _ Reaper.Wf.publish s.cq.unreaped_publish (Or.inr rfl)
    · exact .stutter _ htodo (by simp)

theorem Inv.stepTo (h : Inv none s) {a : SysStep n} (hto : StepTo s a t) :
    t.Good := by
  cases hto with
  | stutter => exact Good.of_inv h
  | kernel act => exact Good.of_inv (h.kernel act)
  | reaper _ cq hwf hsame => exact Good.of_inv (h.of_reaper (hwf h.cq) hsame)
  | dispatch ans htodo => exact h.dispatch htodo ans
  | proceed ans => exact h.proceed ans

theorem Good.step (h : s.Good) (a : SysStep n) : (s.step a).Good := by
  by_cases hrun : s.halted = none
  · exact (h.inv hrun).stepTo (stepTo_step hrun a)
  · rw [step_of_halted hrun]
    exact h

/-- At the start only the poll and the socket are to come. -/
theorem transit_processorRun [NeZero n] (boot : Boot n) :
    (processorRun B boot).transit = {.cmd .queuePoll, .cmd .conn} := by
  have hsq : (processorRun B boot).sq.pending = [] := by
    rw [← List.length_eq_zero_iff, SubmissionRing.length_pending]
    exact dist_self _
  have hcq : (processorRun B boot).cq.unreaped = [] :=
    Reaper.unreaped_start ..
  rw [transit, inRings, hsq, hcq]
  rfl

theorem inv_processorRun [NeZero n] (boot : Boot n) :
    Inv none (processorRun B boot) := by
  have hcmd : ∀ p ∈ (processorRun B boot).transit, p = .cmd .queuePoll ∨
      p = .cmd .conn := by
    intro p hp
    rw [transit_processorRun] at hp
    simpa using hp
  refine ⟨?_, Reaper.wf_start .., ?_, fun i => ⟨rfl, rfl⟩, ?_, ?_, ?_, ?_,
    fun _ _ => rfl, ?_⟩
  · show dist boot.sqCounter boot.sqCounter ≤ _
    rw [dist_self]
    exact Nat.zero_le _
  · refine ⟨List.finRange n, ?_, List.nodup_finRange n, ?_, ?_⟩
    · have hchain := chain_drop_finRange n 0 (Nat.zero_le n)
      rw [List.drop_zero, linkAt, dif_pos (Nat.pos_of_neZero n)] at hchain
      exact hchain
    · intro i
      exact ⟨fun _ => rfl, fun _ => List.mem_finRange i⟩
    · rw [List.length_finRange]
      rfl
  · intro r
    cases r with
    | _ => exact ⟨rfl, fun _ hi => absurd hi (by simp [processorRun, Sys.req,
        setupSlot, processorPreparePollReqs, verifierConnect, EvIoReq.zero,
        Word.num])⟩
  · intro p hp i hi
    rcases hcmd p hp with rfl | rfl <;> exact hi.elim
  · intro i _
    refine ⟨fun _ => ?_, fun hbusy => absurd hbusy (by
      simp [processorRun, setupSlot])⟩
    rw [outstanding, Multiset.filter_eq_nil]
    intro p hp hfor
    rcases hcmd p hp with rfl | rfl <;> exact absurd hfor (by
      simp [Pending.For, Pending.target])
  · have hidle : ∀ i, ((processorRun B boot).reqs i).inFlight = false :=
      fun _ => rfl
    refine ⟨?_, ?_, ?_, ?_⟩
    · intro i k hbusy
      rw [hidle] at hbusy
      exact absurd hbusy (by decide)
    · intro i k hbusy
      rw [hidle] at hbusy
      exact absurd hbusy (by decide)
    · intro i j k hbusy
      rw [hidle] at hbusy
      exact absurd hbusy (by decide)
    · intro k hk
      exact absurd hk (Nat.not_lt_zero k)
  · refine ⟨?_, List.nodup_nil, ?_, ?_⟩
    · intro r hr
      exact absurd hr List.not_mem_nil
    · intro f hf
      exact absurd hf List.not_mem_nil
    · exact fun hno => absurd hno (by simp [processorRun])

/-- Every state of every run is good. -/
theorem good_run [NeZero n] (boot : Boot n) (sched : List (SysStep n)) :
    (run Sys.step (processorRun B boot) sched).Good :=
  run_invariant (fun _ a h => h.step a) (Good.of_inv (inv_processorRun boot))
    sched

/-! ## What a step does -/

/-- The effects of a step of a run that has not ended. -/
inductive Effect (s : Sys B n) : SysStep n → Sys B n → Prop where
  | stutter (a : SysStep n) (hbusy : s.todo ≠ [])
      (hloop : a = .load ∨ a = .publish ∨ ∃ ans, a = .dispatch ans) :
      Effect s a s
  | idle (ans : Answers) (htodo : s.todo = []) : Effect s (.proceed ans) s
  | kernel {t : Sys B n} (act : KernelAct n) (hto : KernelTo s act t) :
      Effect s (.kernel act) t
  | reaper (a : SysStep n) (cq : Reaper (Name n)) (hwf : cq.Wf)
      (hsame : cq.unreaped = s.cq.unreaped) (hloop : a = .load ∨ a = .publish) :
      Effect s a { s with cq := cq }
  | dispatch {t : Sys B n} (ans : Answers) (htodo : s.todo = [])
      (hout : Dispatched s ans t) : Effect s (.dispatch ans) t
  | submit (ans : Answers) {r : ReqPtr n} {rest : List (Cmd n)}
      (htodo : s.todo = .submit r :: rest) :
      Effect s (.proceed ans) ({ s with todo := rest }.submit r)
  | flush {t : Sys B n} (ans : Answers) {rest : List (Cmd n)}
      (htodo : s.todo = .flushEgress :: rest)
      (hout : FlushOutcome { s with todo := rest } ans t) :
      Effect s (.proceed ans) t

theorem Inv.effect (h : Inv none s) (hrun : s.halted = none) (a : SysStep n) :
    Effect s a (s.step a) := by
  have hto := stepTo_step hrun a
  generalize s.step a = t at hto ⊢
  cases hto with
  | stutter _ hbusy hloop => exact .stutter a hbusy hloop
  | kernel act => exact .kernel act (s.kernelTo_kernel act)
  | reaper _ cq hwf hsame hloop => exact .reaper a cq (hwf h.cq) hsame hloop
  | dispatch ans htodo => exact .dispatch ans htodo (h.dispatched htodo ans)
  | proceed ans =>
    unfold Sys.proceed
    split
    · rename_i htodo
      exact .idle ans htodo
    · rename_i htodo
      exact .submit ans htodo
    · rename_i htodo
      exact .flush ans htodo ((h.flushEgress htodo).verifierFlushEgress ans)

end Sys

end Ride
