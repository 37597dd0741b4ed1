import Ride.Processor.Callbacks

/-!
# The callbacks of the fixed requests keep the invariant

The poll of the queue, the socket of the verifier and its timer have one request
each, outside of the slab.  Their callbacks leave the slots in flight alone, and
some of them take a slot from the free list for an event or for an update of the
timer.

`Sys.FixedOutcome` lists the states that such a callback can leave behind, and
`Sys.FlushOutcome` those of `verifier_flush_egress`.  Every one of them is
`Sys.Good`.  No callback touches the rings, it only tells what is to be submitted:
`Sys.Quiet`.
-/

namespace Ride

open CodeLib

namespace Sys

variable {B : Blake3} {n : Nat} {i : Fin n} {s t : Sys B n}

/-! ## The callbacks of the fixed requests -/

/-- A step that changes fixed requests and what is to come for them. -/
theorem Inv.of_fixed (h : Inv none s) (hs : SameSlab s t)
    (hsq : t.sq = s.sq) (hops : t.ops = s.ops) (hcq : t.cq = s.cq)
    (hbuf : t.buffers = s.buffers) (hfds : t.fds = s.fds)
    (hreqs : ∀ r, t.ReqOk r)
    (hout : ∀ j, t.outstanding (.slot j) = s.outstanding (.slot j)) :
    Inv none t := by
  have hrings : t.inRings = s.inRings := by
    rw [inRings, inRings, hsq, hops, hcq]
  refine h.of_slab hs (by rw [hsq]; exact h.sq) (by rw [hcq]; exact h.cq) hreqs
    (h.aims_of_rings hrings) ?_
  intro j hj
  refine (h.slots j hj).keeps (hs.keeps j ?_) (by rw [hbuf]) (hout j)
  intro fd file hfd
  rw [hfds]
  exact hfd

/-- The fixed requests, the verifier and what is to come are not part of the
slab. -/
theorem sameSlab_fixed (s : Sys B n)
    (queuePollReq connReq recvReq timerReq : EvIoReq n) (expiry : Int × Int)
    (sockFd : Int) (conn : Bool) (todo : List (Cmd n)) :
    SameSlab s { s with
      queuePollReq := queuePollReq
      connReq := connReq
      recvReq := recvReq
      timerReq := timerReq
      expiry := expiry
      sockFd := sockFd
      conn := conn
      todo := todo } :=
  ⟨rfl, rfl, rfl, rfl, rfl, rfl, rfl, rfl, rfl, rfl, rfl, rfl,
    fun _ ho => ho, fun _ hr => hr⟩

/-- What is to come for fixed requests is not for a slot. -/
theorem outstanding_fixed (hS : s.todo = []) (hrings : t.inRings = s.inRings)
    (hT : ∀ j, .submit (.slot j) ∉ t.todo) (j : Fin n) :
    t.outstanding (.slot j) = s.outstanding (.slot j) := by
  rw [outstanding_todo_nil hS, outstanding_of_not_mem (hT j), hrings]

@[simp] theorem req_setReq_self (s : Sys B n) (r : ReqPtr n)
    (req : EvIoReq n) : (s.setReq r req).req r = req := by
  cases r <;> simp [setReq, setSlot, Sys.req]

theorem req_setReq_of_ne {r r' : ReqPtr n} (hne : r' ≠ r) (s : Sys B n)
    (req : EvIoReq n) : (s.setReq r req).req r' = s.req r' := by
  cases r <;> cases r' <;> first
    | rfl
    | exact absurd rfl hne
    | skip
  rename_i j j'
  have hne : j' ≠ j := by
    rintro rfl
    exact hne rfl
  simp only [setReq, setSlot, Sys.req, Function.update_of_ne hne]

/-- A fixed request that changes keeps its `data2` and names no buffer. -/
theorem reqOk_setReq (hs : ∀ r, s.ReqOk r) {r : ReqPtr n} {req : EvIoReq n}
    (hdata2 : req.data2 = r.container)
    (haddr : ∀ j, req.addr.block = .buffer j → r = .slot j) (r' : ReqPtr n) :
    (s.setReq r req).ReqOk r' := by
  by_cases hr : r' = r
  · subst hr
    refine ⟨?_, ?_⟩ <;> rw [req_setReq_self]
    · exact hdata2
    · exact haddr
  · refine ⟨?_, ?_⟩ <;> rw [req_setReq_of_ne hr]
    · exact (hs r').data2
    · exact (hs r').addr

/-! ## The callbacks leave the rings alone -/

/-- From `s` to `t`, the rings, the poll and the history of refusals have not
changed. -/
structure Quiet (s t : Sys B n) : Prop where
  sq : t.sq = s.sq
  ops : t.ops = s.ops
  cq : t.cq = s.cq
  queuePollReq : t.queuePollReq = s.queuePollReq
  refused : t.refused = s.refused

theorem Quiet.inRings (h : Quiet s t) : t.inRings = s.inRings := by
  rw [Sys.inRings, Sys.inRings, h.sq, h.ops, h.cq]

theorem SlotOutcome.quiet {ans : Answers} (hout : SlotOutcome s i ans t) :
    Quiet s t := by
  cases hout <;> exact ⟨rfl, rfl, rfl, rfl, rfl⟩

/-- From `s` to `t`, the run has ended without a new line of the output. -/
structure Ended (s t : Sys B n) : Prop where
  halted : t.halted ≠ none
  output : s.Output → t.Output
  records : t.records = s.records
  todo : t.todo = s.todo
  quiet : Quiet s t

/-! ## What the callback of a fixed request does -/

/-- The request that `on_socket_create` prepares. -/
def connectReq (s : Sys B n) (sockFd : Int) : EvIoReq n :=
  { s.connReq with
    opcode := .connect
    fd := sockFd
    addr := .addr .remoteAddr
    off := .num SOCKADDR_IN_SIZE
    len := 0
    flags := 0
    callback := some .onSocketConnect }

/-- The request that `on_socket_connect` prepares. -/
def receiveReq (s : Sys B n) : EvIoReq n :=
  { s.recvReq with
    opcode := .read
    fd := s.sockFd
    addr := .addr .readbuf
    off := .num 0
    len := UInt32.ofNat READBUF_SIZE
    flags := 0
    callback := some .onSocketRead }

/-- What `queue_consume_try` answers to `on_queue_event`. -/
def consumption (ans : Answers) : Consumption :=
  queueConsumeTry ans.queue .zero ans.efd

/-- The three answers: no token, a token without an event, and an event. -/
theorem consumption_ret (ans : Answers) :
    ((consumption ans).ret = EAGAIN ↔ ans.efd = 0) ∧
      ((consumption ans).ret = 0 ↔
        ans.efd ≠ 0 ∧ ans.queue.head ≠ ans.queue.tail) := by
  unfold consumption queueConsumeTry eventfdRead
  by_cases hefd : ans.efd = 0
  · simp [hefd, EAGAIN]
  · by_cases hempty : ans.queue.head = ans.queue.tail <;>
      simp [hefd, hempty, EAGAIN]

/-- `on_queue_event` reads the eventfd and finds no token. -/
def Spurious (s : Sys B n) (r : ReqPtr n) (ans : Answers) : Prop :=
  (s.req r).callback = some .onQueueEvent ∧ 0 ≤ (s.req r).result ∧
    ans.efdError = false ∧ ans.efd = 0

/-- `on_queue_event` reads the eventfd and gets an event. -/
def Dequeues (s : Sys B n) (r : ReqPtr n) (ans : Answers) : Prop :=
  (s.req r).callback = some .onQueueEvent ∧ 0 ≤ (s.req r).result ∧
    ans.efdError = false ∧ ans.efd ≠ 0 ∧ ans.queue.head ≠ ans.queue.tail

/-- `on_queue_event` gets an event, and has no slot for it or no copy of its
path. -/
def Loses (s : Sys B n) (r : ReqPtr n) (ans : Answers) : Prop :=
  s.Dequeues r ans ∧ (s.reqsList = none ∨ ans.strdup = false)

theorem Dequeues.not_spurious {r : ReqPtr n} {ans : Answers}
    (h : s.Dequeues r ans) : ¬ s.Spurious r ans :=
  fun hspur => h.2.2.2.1 hspur.2.2.2

theorem Spurious.not_loses {r : ReqPtr n} {ans : Answers}
    (h : s.Spurious r ans) : ¬ s.Loses r ans :=
  fun hloses => hloses.1.not_spurious h

/-- What the run has done in the callback of a fixed request in which it ends:
nothing, it has lost an event, or it has taken a slot without an event. -/
inductive ExitTo (s : Sys B n) (r : ReqPtr n) (ans : Answers) (t : Sys B n) :
    Prop where
  | plain (hkeeps : ¬ s.Loses r ans)
      (hfull : s.Spurious r ans → s.reqsList = none)
      (hdequeued : t.dequeued = s.dequeued) (hgens : t.gens = s.gens)
      (hnext : t.nextString = s.nextString)
  | lost (hloses : s.Loses r ans) (event : Event)
      (hdequeued : t.dequeued = s.dequeued ++ [event])
  | spurious (hspur : s.Spurious r ans) (hfree : s.reqsList ≠ none)
      (hdequeued : t.dequeued = s.dequeued) (hgens : t.gens ≠ s.gens)

/-- The states that the callback of a fixed request can leave behind. -/
inductive FixedOutcome (s : Sys B n) (r : ReqPtr n) (ans : Answers) :
    Sys B n → Prop where
  | ended {t : Sys B n} (hend : Ended s t) (hexit : ExitTo s r ans t) :
      FixedOutcome s r ans t
  | waits (todo : List (Cmd n)) (hwait : ¬ s.Spurious r ans)
      (htodo : todo = [] ∨ todo = [.submit .queuePoll])
      (hrearm : (s.req r).callback = some .onQueueEvent →
        hasMore (s.req r).resultFlags = false → todo = [.submit .queuePoll])
      (hkeeps : ¬ s.Loses r ans) :
      FixedOutcome s r ans { s with todo := todo }
  | created (hcall : (s.req r).callback = some .onSocketCreate)
      (sockFd : Int) :
      FixedOutcome s r ans { s with
        sockFd := sockFd
        connReq := s.connectReq sockFd
        todo := [.submit .conn] }
  | connected (hcall : (s.req r).callback = some .onSocketConnect) :
      FixedOutcome s r ans { s with
        conn := true
        recvReq := s.receiveReq
        todo := [.submit .recv, .flushEgress] }
  | received (hcall : (s.req r).callback = some .onSocketRead) :
      FixedOutcome s r ans { s with todo := [.submit .recv, .flushEgress] }
  | taken {i : Fin n} (event : Event) (events : List Event)
      (ticket : Option Nat) (rest : List (Cmd n))
      (hhead : s.reqsList = some i)
      (hnew : (s.Spurious r ans ∧ events = [] ∧ ticket = none ∧
          event = .zero) ∨
        (¬ s.Spurious r ans ∧ events = [event] ∧
          ticket = some s.dequeued.length))
      (hrest : rest = [] ∨ rest = [.submit .queuePoll])
      (hrearm : hasMore (s.req r).resultFlags = false →
        rest = [.submit .queuePoll])
      (hkeeps : ¬ s.Loses r ans) :
      FixedOutcome s r ans (s.prepared i (s.openSlot i event) ticket events
        (Function.update s.strings s.nextString
          (some (cString event.path, i)))
        (s.nextString + 1) s.expiry rest)

/-- An exit in front of `queue_consume_try`, or in another callback. -/
theorem FixedOutcome.halt {r : ReqPtr n} {ans : Answers} {how : Halt}
    (hhow : how ≠ .assertion)
    (hno : ¬ ((s.req r).callback = some .onQueueEvent ∧
      0 ≤ (s.req r).result ∧ ans.efdError = false)) :
    FixedOutcome s r ans (s.halt how) := by
  refine .ended ⟨by simp [Sys.halt], ?_, rfl, rfl, ⟨rfl, rfl, rfl, rfl, rfl⟩⟩
    (.plain ?_ ?_ rfl rfl rfl)
  · intro h
    exact (Good.halt h hhow).output
  · rintro ⟨⟨hcall, hres, herror, -⟩, -⟩
    exact hno ⟨hcall, hres, herror⟩
  · exact fun hspur => absurd ⟨hspur.1, hspur.2.1, hspur.2.2.1⟩ hno

/-- The callback is not `on_queue_event`. -/
theorem FixedOutcome.halt_other {r : ReqPtr n} {ans : Answers} {how : Halt}
    {callback : Option Callback} (hhow : how ≠ .assertion)
    (hcall : (s.req r).callback = callback)
    (hother : callback ≠ some .onQueueEvent) :
    FixedOutcome s r ans (s.halt how) :=
  .halt hhow fun hqueue => hother (hcall.symm.trans hqueue.1)

theorem armPoll_cases (s : Sys B n) (r : ReqPtr n) :
    s.armPoll r = [] ∨ s.armPoll r = [.submit .queuePoll] := by
  rw [armPoll]
  split_ifs
  · exact Or.inl rfl
  · exact Or.inr rfl

theorem armPoll_last {r : ReqPtr n} (h : hasMore (s.req r).resultFlags = false) :
    s.armPoll r = [.submit .queuePoll] :=
  if_neg (by simp [h])

/-- A slot is handed out without a look at the flags of a completion. -/
theorem handOut_resultFlags (s : Sys B n) (i : Fin n) (r : ReqPtr n) :
    ((s.handOut i).req r).resultFlags = (s.req r).resultFlags := by
  cases r with
  | slot j =>
    by_cases hj : j = i
    · subst hj
      simp [handOut, Sys.req]
    · simp [handOut, Sys.req, Function.update_of_ne hj]
  | _ => rfl

/-- A slot that is handed out is counted. -/
theorem gens_handOut_ne (s : Sys B n) (i : Fin n) :
    (s.handOut i).gens ≠ s.gens := by
  intro heq
  have hat : s.gens i + 1 = s.gens i := by
    simpa [handOut] using congrFun heq i
  omega

/-- The second half of `on_queue_event`, behind `queue_consume_try`. -/
theorem Inv.openEvent (h : Inv none s) (r : ReqPtr n) (ans : Answers)
    (event : Event) (events : List Event) (ticket : Option Nat)
    (hnew : (s.Spurious r ans ∧ events = [] ∧ ticket = none ∧ event = .zero) ∨
      (s.Dequeues r ans ∧ events = [event] ∧
        ticket = some s.dequeued.length)) :
    FixedOutcome s r ans
      ({ s with dequeued := s.dequeued ++ events }.openEvent r event ticket
        ans) := by
  have hget := processorGetReq_cases
    (s := { s with dequeued := s.dequeued ++ events }) h.list
  rcases hget with ⟨hempty, herr⟩ | ⟨i, hhead, hfree, hok⟩
  · simp only [Sys.openEvent, herr]
    refine .ended ⟨by simp [Sys.halt], fun hout => ?_, rfl, rfl,
      ⟨rfl, rfl, rfl, rfl, rfl⟩⟩ ?_
    · exact (Good.halt (hout.dequeue events) (by decide)).output
    · rcases hnew with ⟨hspur, rfl, -⟩ | ⟨hdeq, rfl, -⟩
      · exact .plain hspur.not_loses (fun _ => hempty) (List.append_nil _) rfl rfl
      · exact .lost ⟨hdeq, Or.inl hempty⟩ event rfl
  by_cases hdup : ans.strdup = true
  · rw [openEvent_eq hdup hok]
    refine .taken event events ticket _ hhead ?_ (armPoll_cases ..) ?_ ?_
    · exact hnew.imp_right fun hevent => ⟨hevent.1.not_spurious, hevent.2⟩
    · intro hlast
      apply armPoll_last
      rw [handOut_resultFlags]
      exact hlast
    · rintro ⟨-, hempty | hnodup⟩
      · exact absurd (hhead.symm.trans hempty) (by simp)
      · exact absurd (hdup.symm.trans hnodup) (by simp)
  · simp only [Sys.openEvent, hok, if_neg hdup]
    refine .ended ⟨by simp [Sys.halt], fun hout => ?_, rfl, rfl,
      ⟨rfl, rfl, rfl, rfl, rfl⟩⟩ ?_
    · have hdeq := hout.dequeue events
      refine (Good.halt ?_ (by decide)).output
      exact ⟨hdeq.records, hdeq.nodup, hdeq.frees, hdeq.asserts⟩
    · rcases hnew with ⟨hspur, rfl, -⟩ | ⟨hdeq, rfl, -⟩
      · refine .spurious hspur ?_ (List.append_nil _) (gens_handOut_ne s i)
        exact fun hempty => absurd (hhead.symm.trans hempty) (by simp)
      · exact .lost ⟨hdeq, Or.inr (Bool.eq_false_iff.mpr hdup)⟩ event rfl

theorem Inv.onQueueEvent (h : Inv none s) {r : ReqPtr n} (ans : Answers)
    (hcall : (s.req r).callback = some .onQueueEvent) :
    FixedOutcome s r ans (s.onQueueEvent r ans) := by
  unfold Sys.onQueueEvent
  simp only
  split_ifs with hneg hfatal herror hret hagain
  · exact .halt (by decide) fun hno => Int.not_le.mpr hneg hno.2.1
  · refine .waits _ ?_ (Or.inr rfl) (fun _ _ => rfl) ?_
    · exact fun hspur => Int.not_le.mpr hneg hspur.2.1
    · exact fun hloses => Int.not_le.mpr hneg hloses.1.2.1
  · exact .halt (by decide) fun hno => absurd (herror.symm.trans hno.2.2) (by simp)
  · have hevent := (consumption_ret ans).2.mp hret
    exact h.openEvent r ans _ _ _ (Or.inr ⟨⟨hcall, Int.not_lt.mp hneg,
      Bool.eq_false_iff.mpr herror, hevent⟩, rfl, rfl⟩)
  · have hzero : (consumption ans).event = .zero := by
      unfold consumption queueConsumeTry
      unfold queueConsumeTry at hret
      split
      · rfl
      · rename_i efd hread
        simp only [hread] at hret ⊢
        split_ifs at hret ⊢ with hempty
        · rfl
        · exact absurd rfl hret
    have hopen := h.openEvent r ans (consumption ans).event [] none (Or.inl
      ⟨⟨hcall, Int.not_lt.mp hneg, by simpa using herror,
        (consumption_ret ans).1.mp hagain⟩, rfl, rfl, hzero⟩)
    rw [List.append_nil] at hopen
    exact hopen
  · refine .waits _ ?_ (armPoll_cases ..) (fun _ => armPoll_last) ?_
    · exact fun hspur => hagain ((consumption_ret ans).1.mpr hspur.2.2.2)
    · exact fun hloses => hret ((consumption_ret ans).2.mpr hloses.1.2.2.2)

theorem outcome_onSocketCreate {r : ReqPtr n} (ans : Answers)
    (hcall : (s.req r).callback = some .onSocketCreate) :
    FixedOutcome s r ans (s.onSocketCreate r ans) := by
  unfold Sys.onSocketCreate
  split_ifs
  · exact .halt_other (by decide) hcall (by simp)
  · exact .created hcall _
  · exact .halt_other (by decide) hcall (by simp)

theorem outcome_onSocketConnect {r : ReqPtr n} (ans : Answers)
    (hcall : (s.req r).callback = some .onSocketConnect) :
    FixedOutcome s r ans (s.onSocketConnect r ans) := by
  unfold Sys.onSocketConnect
  split_ifs
  · exact .halt_other (by decide) hcall (by simp)
  · exact .connected hcall
  · exact .halt_other (by decide) hcall (by simp)

theorem outcome_onSocketRead {r : ReqPtr n} (ans : Answers)
    (hcall : (s.req r).callback = some .onSocketRead) :
    FixedOutcome s r ans (s.onSocketRead r) := by
  unfold Sys.onSocketRead
  split_ifs
  · exact .halt_other (by decide) hcall (by simp)
  · exact .received hcall

/-- A fixed request lies in no slot, so a callback for slots ends the run. -/
theorem Inv.call_fixed (h : Inv none s) (htodo : s.todo = []) {r : ReqPtr n}
    (hr : r.container = none) (ans : Answers) :
    FixedOutcome s r ans (s.call r ans) := by
  have hdata2 : (s.req r).data2 = none := ((h.reqs r).data2).trans hr
  unfold Sys.call
  split
  · rename_i hcall
    exact .halt_other (by decide) hcall (by simp)
  · rename_i hcall
    exact h.onQueueEvent ans hcall
  · rename_i hcall
    simp only [onFileOpen, hdata2]
    exact .halt_other (by decide) hcall (by simp)
  · rename_i hcall
    simp only [onFileRead, hdata2]
    exact .halt_other (by decide) hcall (by simp)
  · rename_i hcall
    exact outcome_onSocketCreate ans hcall
  · rename_i hcall
    exact outcome_onSocketConnect ans hcall
  · rename_i hcall
    exact outcome_onSocketRead ans hcall
  · rename_i hcall
    have hsame : s = { s with todo := [] } := by rw [← htodo]
    rw [hsame]
    have hother : (s.req r).callback ≠ some .onQueueEvent := by simp [hcall]
    exact .waits [] (fun hspur => hother hspur.1) (Or.inl rfl)
      (fun hqueue => absurd hqueue hother) (fun hloses => hother hloses.1.1)
  · rename_i hcall
    simp only [onSocketTimeoutUpdate, hdata2]
    exact .halt_other (by decide) hcall (by simp)

theorem FixedOutcome.quiet {r : ReqPtr n} {ans : Answers}
    (hout : FixedOutcome s r ans t) : Quiet s t := by
  cases hout with
  | ended hend => exact hend.quiet
  | _ => exact ⟨rfl, rfl, rfl, rfl, rfl⟩

/-! ## The callbacks of the fixed requests keep the invariant -/

/-- Every callback of a fixed request leaves a good state. -/
theorem FixedOutcome.good {r : ReqPtr n} {ans : Answers} (h : Inv none s)
    (htodo : s.todo = []) (hout : FixedOutcome s r ans t) : t.Good := by
  cases hout with
  | ended hend =>
    exact ⟨hend.output h.output, fun hrun => absurd hrun hend.halted⟩
  | waits todo hwait hcmds =>
    refine Good.of_inv (h.of_fixed (sameSlab_fixed s _ _ _ _ _ _ _ _) rfl rfl
      rfl rfl rfl (fun r => ⟨(h.reqs r).data2, (h.reqs r).addr⟩)
      (outstanding_fixed htodo rfl ?_))
    rcases hcmds with rfl | rfl <;> simp
  | created hcall sockFd =>
    refine Good.of_inv (h.of_fixed (sameSlab_fixed s _ _ _ _ _ _ _ _) rfl rfl
      rfl rfl rfl ?_ (outstanding_fixed htodo rfl (by simp)))
    intro r
    have hr := h.reqs r
    cases r with
    | conn =>
      refine ⟨hr.data2, ?_⟩
      intro j hj
      exact absurd hj (by simp [Sys.req, connectReq, Word.addr])
    | _ => exact ⟨hr.data2, hr.addr⟩
  | connected hcall =>
    refine Good.of_inv (h.of_fixed (sameSlab_fixed s _ _ _ _ _ _ _ _) rfl rfl
      rfl rfl rfl ?_ (outstanding_fixed htodo rfl (by simp)))
    intro r
    have hr := h.reqs r
    cases r with
    | recv =>
      refine ⟨hr.data2, ?_⟩
      intro j hj
      exact absurd hj (by simp [Sys.req, receiveReq, Word.addr])
    | _ => exact ⟨hr.data2, hr.addr⟩
  | received hcall =>
    exact Good.of_inv (h.of_fixed (sameSlab_fixed s _ _ _ _ _ _ _ _) rfl rfl
      rfl rfl rfl (fun r => ⟨(h.reqs r).data2, (h.reqs r).addr⟩)
      (outstanding_fixed htodo rfl (by simp)))
  | taken event events ticket rest hhead hnew hrest =>
    refine Good.of_inv (h.openPrepared htodo hhead ?_ ?_)
    · rcases hnew with ⟨-, hnew⟩ | ⟨-, hnew⟩
      · exact Or.inl hnew
      · exact Or.inr hnew
    · rcases hrest with rfl | rfl <;> simp

/-! ## `verifier_flush_egress` -/

/-- The slot that `verifier_flush_egress` prepares for an update of the
timer. -/
def updateSlot (s : Sys B n) (i : Fin n) : Slot B.State n :=
  { s.reqs i with
    inFlight := true
    req := { (s.reqs i).req with
      result := 0
      data2 := some i
      opcode := .timeoutRemove
      flags := IORING_TIMEOUT_UPDATE
      addr := .addr .verifier
      off := .addr .expiry
      callback := some .onSocketTimeoutUpdate
      fd := 0
      len := 1 } }

theorem Inv.updateTimer (h : Inv none s) (hhead : s.reqsList = some i)
    (expiry : Int × Int) :
    Inv none (s.prepared i (s.updateSlot i) none [] s.strings s.nextString
      expiry s.todo) := by
  refine h.prepared hhead .updating rfl rfl rfl ?_ rfl
    (fun _ _ _ _ hid => hid) h.fresh (Or.inl ⟨rfl, rfl⟩) (fun _ hj => hj)
    (fun _ _ => rfl) ?_
  · intro j hj
    exact absurd hj (by simp [updateSlot, Word.addr])
  · refine ⟨?_, ?_, ?_⟩ <;>
      simp only [Sys.prepared, Function.update_self, updateSlot]

/-- The value that `verifier_flush_egress` stores in `expiry`. -/
def newExpiry (ans : Answers) : Int × Int :=
  let timeoutNsec : Int := ans.flush.toNat
  let timeoutSec := timeoutNsec / NGTCP2_SECONDS
  (timeoutSec, timeoutNsec - timeoutSec * NGTCP2_SECONDS)

/-- The request that arms the timer. -/
def armedTimer (s : Sys B n) : EvIoReq n :=
  { s.timerReq with
    opcode := .timeout
    addr := .addr .expiry
    off := .num 0
    flags := 0
    callback := some .onSocketTimeout
    fd := 0
    len := 1 }

/-- The states that `verifier_flush_egress` can leave behind. -/
inductive FlushOutcome (s : Sys B n) (ans : Answers) : Sys B n → Prop where
  | ended {t : Sys B n} (hend : Ended s t) (hreq : t.req = s.req)
      (hstrings : t.strings = s.strings) (hdequeued : t.dequeued = s.dequeued) :
      FlushOutcome s ans t
  | armed (htimer : s.timerReq.opcode ≠ .timeout) :
      FlushOutcome s ans { s with
        expiry := newExpiry ans
        timerReq := s.armedTimer
        todo := .submit .timer :: s.todo }
  | updating {i : Fin n} (htimer : s.timerReq.opcode = .timeout)
      (hhead : s.reqsList = some i) :
      FlushOutcome s ans (s.prepared i (s.updateSlot i) none [] s.strings
        s.nextString (newExpiry ans) s.todo)

theorem Inv.verifierFlushEgress (h : Inv none s) (ans : Answers) :
    FlushOutcome s ans (s.verifierFlushEgress ans) := by
  unfold Sys.verifierFlushEgress
  split_ifs with hfail
  · refine .ended ⟨by simp [Sys.halt], fun hout => ?_, rfl, rfl,
      ⟨rfl, rfl, rfl, rfl, rfl⟩⟩ rfl rfl rfl
    exact (Good.halt hout (by decide)).output
  simp only [armTimer]
  split_ifs with htimer
  · have hget := processorGetReq_cases (s := { s with expiry := newExpiry ans })
      h.list
    rcases hget with ⟨hempty, herr⟩ | ⟨i, hhead, hfree, hok⟩
    · simp only [newExpiry] at herr
      simp only [herr]
      refine .ended ⟨by simp [Sys.halt], fun hout => ?_, rfl, rfl,
        ⟨rfl, rfl, rfl, rfl, rfl⟩⟩ rfl rfl rfl
      refine (Good.halt ?_ (by decide)).output
      exact ⟨hout.records, hout.nodup, hout.frees, hout.asserts⟩
    · simp only [newExpiry] at hok
      simp only [hok]
      have hstate : FlushOutcome s ans _ := .updating htimer hhead
      simpa [Sys.prepared, handOut, setSlot, updateSlot, newExpiry]
        using hstate
  · exact .armed htimer

theorem FlushOutcome.quiet {ans : Answers} (hout : FlushOutcome s ans t) :
    Quiet s t := by
  cases hout with
  | ended hend => exact hend.quiet
  | _ => exact ⟨rfl, rfl, rfl, rfl, rfl⟩

/-- `verifier_flush_egress` leaves a good state. -/
theorem FlushOutcome.good {ans : Answers} (h : Inv none s)
    (hout : FlushOutcome s ans t) : t.Good := by
  cases hout with
  | ended hend =>
    exact ⟨hend.output h.output, fun hrun => absurd hrun hend.halted⟩
  | armed htimer =>
    refine Good.of_inv (h.of_fixed (sameSlab_fixed s _ _ _ _ _ _ _ _) rfl rfl
      rfl rfl rfl ?_ ?_)
    · intro r
      have hr := h.reqs r
      cases r with
      | timer =>
        refine ⟨hr.data2, ?_⟩
        intro j hj
        exact absurd hj (by simp [Sys.req, armedTimer, Word.addr])
      | _ => exact ⟨hr.data2, hr.addr⟩
    · intro j
      refine outstanding_of_cons_ne (p := .cmd .timer) ?_ ?_
      · simp only [transit, List.filterMap_cons, Cmd.pending,
          ← Multiset.cons_coe, Multiset.cons_add]
        rfl
      · intro hfor
        exact absurd (Option.some.inj hfor) (by simp)
  | updating htimer hhead =>
    exact Good.of_inv (h.updateTimer hhead (newExpiry ans))

end Sys

end Ride
