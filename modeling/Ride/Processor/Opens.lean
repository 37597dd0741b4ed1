import Ride.Processor.Exhaustion
import Ride.Processor.Orphans

/-!
# The files that are opened

`on_queue_event` opens a file for every event that it takes from the queue.  Three
things go wrong.

* Where there was no token, the return value `EAGAIN` of `queue_consume_try` does
  not end the callback, which goes on with the zeroed event and the empty path.
* Where no slot is free, or `strdup` fails, the process exits behind the dequeue.
* Where the ring is full, `ev_iou_req` answers `EV_FULL` and writes no entry, and
  nobody looks at the answer.

`opens_differ_from_dequeues` has a run for each.

`Sys.submitsOpen` is the path of the open that a step puts into the ring, and the
traced run collects them.  `Sys.OpensTo` lists what one step does to the opens and
to the events.  `opens_match_dequeues_iff` is the result: the opens of a run are
those of its events exactly when every step is one of `Sys.Serves`.
-/

namespace Ride

open CodeLib CodeLib.Machine

namespace Sys

variable {B : Blake3} {n : Nat} {i : Fin n} {s t : Sys B n}

/-! ## The opens that are submitted -/

/-- The string at an address. -/
def stringAt (s : Sys B n) (addr : Word n) : Option Bytes :=
  match addr.block with
  | .path id => (s.strings id).map Prod.fst
  | _ => none

/-- The path of the open that a command submits. -/
def opensPath (s : Sys B n) : Cmd n → Option Bytes
  | .submit r =>
    if (s.req r).opcode = .openat then s.stringAt (s.req r).addr else none
  | .flushEgress => none

/-- The opens that the running callback is about to submit. -/
def toOpen (s : Sys B n) : List Bytes :=
  s.todo.filterMap s.opensPath

/-- A command does not get `EV_FULL`. -/
def Accepts (s : Sys B n) : Cmd n → Prop
  | .submit r => (s.sq.evIouReq ⟨r, s.gen r⟩ (s.req r).toIoReq).1 ≠ EV_FULL
  | .flushEgress => True

instance (s : Sys B n) : DecidablePred s.Accepts := fun cmd =>
  match cmd with
  | .submit _ => inferInstanceAs (Decidable (_ ≠ _))
  | .flushEgress => isTrue trivial

/-- The open that a step puts into the ring. -/
def submitsOpen (s : Sys B n) : SysStep n → List Bytes
  | .proceed _ =>
    if s.halted = none then
      ((s.todo.take 1).filter (s.Accepts ·)).filterMap s.opensPath
    else []
  | _ => []

/-- The path of an event, as `strdup` copies it. -/
def eventPaths (s : Sys B n) : List Bytes :=
  s.dequeued.map fun event => cString event.path

/-- `on_queue_event` is called back for a completion that is no error, and reads
the eventfd. -/
def ReadsEventfd (s : Sys B n) (ans : Answers) : Prop :=
  s.halted = none ∧ s.todo = [] ∧ ∃ cqe ∈ s.cq.current,
    (s.req cqe.userData.req).callback = some .onQueueEvent ∧ 0 ≤ cqe.res ∧
      ans.efdError = false

instance (s : Sys B n) : DecidablePred s.ReadsEventfd := fun _ =>
  inferInstanceAs (Decidable (_ ∧ _ ∧ ∃ cqe ∈ _, _))

/-- A call of `queue_consume_try` finds a token, or no slot is free and the process
exits before it takes one.  A slot is free for an event, and `strdup` copies its
path.  The submission of an open finds room in the ring. -/
def Serves (s : Sys B n) : SysStep n → Prop
  | .dispatch ans => s.ReadsEventfd ans →
      if ans.efd = 0 then s.reqsList = none
      else ans.queue.head ≠ ans.queue.tail →
        s.reqsList ≠ none ∧ ans.strdup = true
  | .proceed _ => s.halted = none →
      ∀ cmd ∈ s.todo.head?, s.opensPath cmd ≠ none → s.Accepts cmd
  | _ => True

instance (s : Sys B n) : DecidablePred s.Serves := fun a =>
  match a with
  | .dispatch ans =>
    inferInstanceAs (Decidable (_ → if ans.efd = 0 then _ else _ → _))
  | .proceed _ => inferInstanceAs (Decidable (_ → ∀ cmd ∈ _, _ → _))
  | .kernel _ => isTrue trivial
  | .load => isTrue trivial
  | .publish => isTrue trivial

/-- From `s` to `t`, a callback that takes no event from the queue takes no slot
and copies no path. -/
def LeavesSlots (s : Sys B n) (a : SysStep n) (t : Sys B n) : Prop :=
  ∀ ans, a = .dispatch ans → t.dequeued = s.dequeued →
    t.gens = s.gens ∧ t.nextString = s.nextString

/-- The same for a step. -/
def TakesNothing (s : Sys B n) (a : SysStep n) : Prop :=
  s.LeavesSlots a (s.step a)

/-! ## What a step does to the opens -/

/-- What the requests and the strings do not show, the opens to come do not
show. -/
theorem toOpen_congr (htodo : t.todo = s.todo) (hreq : t.req = s.req)
    (hstrings : t.strings = s.strings) : t.toOpen = s.toOpen := by
  unfold toOpen opensPath stringAt
  rw [htodo, hreq, hstrings]

/-- A request that is no open adds nothing. -/
theorem opensPath_of_ne {r : ReqPtr n} (h : (s.req r).opcode ≠ .openat) :
    s.opensPath (.submit r) = none :=
  if_neg h

/-- A slot with a submission to come is in flight. -/
theorem Inv.not_mem_of_free (h : Inv none s)
    (hfree : (s.reqs i).inFlight = false) : .submit (.slot i) ∉ s.todo :=
  not_mem_todo ((h.slots i (by simp)).free hfree)

/-- What a step of a live run does to the opens and to the events, also where the
run ends in it: nothing, an event and its open; or an event that is lost, an open
that is refused, or a slot without an event. -/
inductive OpensTo (s : Sys B n) (a : SysStep n) (t : Sys B n) : Prop where
  | same (hserves : s.Serves a) (hleaves : s.LeavesSlots a t)
      (hopen : s.submitsOpen a ++ t.toOpen = s.toOpen)
      (hdequeued : t.dequeued = s.dequeued)
  | event (hserves : s.Serves a) (event : Event)
      (hopen : s.submitsOpen a ++ t.toOpen =
        s.toOpen ++ [cString event.path])
      (hdequeued : t.dequeued = s.dequeued ++ [event])
  | lost (hno : ¬ s.Serves a) (event : Event)
      (hopen : s.submitsOpen a ++ t.toOpen = s.toOpen)
      (hdequeued : t.dequeued = s.dequeued ++ [event])
  | refused (hno : ¬ s.Serves a) (path : Bytes)
      (hopen : path :: (s.submitsOpen a ++ t.toOpen) = s.toOpen)
      (hdequeued : t.dequeued = s.dequeued)
  | spurious (hno : ¬ s.Serves a) (htakes : ¬ s.LeavesSlots a t)

theorem readsEventfd_iff (hlive : s.halted = none) (htodo : s.todo = [])
    {cqe : Cqe (Name n)} (hcur : s.cq.current = some cqe) (ans : Answers) :
    s.ReadsEventfd ans ↔
      ((s.deliver cqe).req cqe.userData.req).callback = some .onQueueEvent ∧
        0 ≤ ((s.deliver cqe).req cqe.userData.req).result ∧
        ans.efdError = false := by
  have hreq : (s.deliver cqe).req cqe.userData.req =
      { s.req cqe.userData.req with
        result := cqe.res, resultFlags := cqe.flags } := req_setReq_self ..
  rw [hreq]
  constructor
  · rintro ⟨-, -, c, hc, hrest⟩
    obtain rfl := Option.some.inj (hcur.symm.trans hc)
    exact hrest
  · intro hrest
    exact ⟨hlive, htodo, cqe, hcur, hrest⟩

/-- The completion that is reaped decides whether its event is served. -/
theorem serves_iff (hlive : s.halted = none) (htodo : s.todo = [])
    {cqe : Cqe (Name n)} (hcur : s.cq.current = some cqe) (ans : Answers) :
    s.Serves (.dispatch ans) ↔
      ¬ (s.deliver cqe).Loses cqe.userData.req ans ∧
        ((s.deliver cqe).Spurious cqe.userData.req ans →
          (s.deliver cqe).reqsList = none) := by
  have hiff := readsEventfd_iff hlive htodo hcur ans
  rw [(s.deliver_reaped cqe).reqsList]
  unfold Loses Dequeues Spurious
  rw [(s.deliver_reaped cqe).reqsList]
  show (s.ReadsEventfd ans → _) ↔ _
  rw [hiff]
  by_cases hefd : ans.efd = 0
  · simp only [hefd, if_true, ne_eq, not_true_eq_false, false_and, and_false,
      not_false_eq_true, true_and, and_true]
  · simp only [hefd, if_false, ne_eq, not_false_eq_true, true_and, and_false,
      false_implies, and_true]
    constructor
    · rintro hserves ⟨⟨hcall, hres, herror, hevent⟩, hno⟩
      obtain ⟨hfree, hdup⟩ := hserves ⟨hcall, hres, herror⟩ hevent
      rcases hno with hempty | hnodup
      · exact hfree hempty
      · exact absurd (hdup.symm.trans hnodup) (by simp)
    · rintro hkeeps ⟨hcall, hres, herror⟩ hevent
      refine ⟨fun hempty => hkeeps ⟨⟨hcall, hres, herror, hevent⟩,
        Or.inl hempty⟩, ?_⟩
      by_contra hdup
      exact hkeeps ⟨⟨hcall, hres, herror, hevent⟩,
        Or.inr (Bool.eq_false_iff.mpr hdup)⟩

/-- Other callbacks do not look at the queue. -/
theorem serves_of_other (hlive : s.halted = none) (htodo : s.todo = [])
    {cqe : Cqe (Name n)} (hcur : s.cq.current = some cqe) (ans : Answers)
    (hother : ((s.deliver cqe).req cqe.userData.req).callback ≠
      some .onQueueEvent) : s.Serves (.dispatch ans) :=
  (serves_iff hlive htodo hcur ans).mpr
    ⟨fun hloses => hother hloses.1.1, fun hspur => absurd hspur.1 hother⟩

/-- The callback of a slot is not `on_queue_event`. -/
theorem Held.callback_ne {stage : Stage} (h : s.Held i stage) :
    (s.req (.slot i)).callback ≠ some .onQueueEvent := by
  intro hcall
  have hcall : (s.reqs i).req.callback = some .onQueueEvent := hcall
  have hfits := h.fits
  cases stage with
  | opening path id =>
    have hfits : s.OpensFile i path id := hfits
    exact absurd (hcall.symm.trans hfits.callback) (by simp)
  | reading path id file off =>
    have hfits : s.ReadsFile i path id file off := hfits
    exact absurd (hcall.symm.trans hfits.callback) (by simp)
  | updating =>
    have hfits : s.UpdatesTimer i := hfits
    exact absurd (hcall.symm.trans hfits.callback) (by simp)

theorem toOpen_nil (htodo : s.todo = []) : s.toOpen = [] := by
  rw [toOpen, htodo]
  rfl

/-- The callback of a slot prepares a read, or nothing. -/
theorem SlotOutcome.toOpen {stage : Stage} {ans : Answers}
    (h : s.Held i stage) (hout : SlotOutcome s i ans t) :
    t.toOpen = [] ∧ t.dequeued = s.dequeued ∧ t.gens = s.gens ∧
      t.nextString = s.nextString := by
  have hresumed : ∀ slot : Slot B.State n, slot.req.opcode = .read →
      (s.resumed i slot).toOpen = [] := by
    intro slot hread
    simp [Sys.toOpen, Sys.resumed, opensPath, Sys.req, hread]
  cases hout with
  | opened => exact ⟨hresumed _ rfl, rfl, rfl, rfl⟩
  | readMore hfits => exact ⟨hresumed _ hfits.opcode, rfl, rfl, rfl⟩
  | _ => exact ⟨Sys.toOpen_nil h.todo, rfl, rfl, rfl⟩

/-- Where only fixed requests are to come, no open is. -/
theorem filterMap_fixed (h : ∀ r, r.container = none → ¬ (s.req r).ForFile)
    {cmds : List (Cmd n)} (hcmds : ∀ r, .submit r ∈ cmds → r.container = none) :
    cmds.filterMap s.opensPath = [] := by
  rw [List.filterMap_eq_nil_iff]
  intro cmd hmem
  cases cmd with
  | flushEgress => rfl
  | submit r =>
    exact opensPath_of_ne fun hopen => h r (hcmds r hmem) (Or.inl hopen)

/-- The slot that was prepared for an event opens the path of the event. -/
theorem toOpen_prepared {event : Event} {events : List Event}
    {ticket : Option Nat} {rest : List (Cmd n)} :
    let t := s.prepared i (s.openSlot i event) ticket events
      (Function.update s.strings s.nextString (some (cString event.path, i)))
      (s.nextString + 1) s.expiry rest
    t.toOpen = cString event.path :: rest.filterMap t.opensPath := by
  intro t
  have hpath : t.opensPath (.submit (.slot i)) = some (cString event.path) := by
    simp [t, opensPath, stringAt, Sys.req, Sys.prepared, openSlot, Word.addr]
  exact List.filterMap_cons_some hpath

/-- What the callback of a fixed request does to the opens and to the events. -/
inductive Opens (s : Sys B n) (r : ReqPtr n) (ans : Answers) (t : Sys B n) :
    Prop where
  | none (hkeeps : ¬ s.Loses r ans)
      (hfull : s.Spurious r ans → s.reqsList = none) (hopen : t.toOpen = [])
      (hdequeued : t.dequeued = s.dequeued) (hgens : t.gens = s.gens)
      (hnext : t.nextString = s.nextString)
  | event (hkeeps : ¬ s.Loses r ans) (hnot : ¬ s.Spurious r ans)
      (event : Event) (hopen : t.toOpen = [cString event.path])
      (hdequeued : t.dequeued = s.dequeued ++ [event])
  | lost (hloses : s.Loses r ans) (event : Event) (hopen : t.toOpen = [])
      (hdequeued : t.dequeued = s.dequeued ++ [event])
  | spurious (hspur : s.Spurious r ans) (hfree : s.reqsList ≠ .none)
      (hdequeued : t.dequeued = s.dequeued) (hgens : t.gens ≠ s.gens)

/-- A callback for another request prepares no open. -/
theorem Opens.of_other {r : ReqPtr n} {ans : Answers} {callback : Callback}
    (hcall : (s.req r).callback = some callback)
    (hother : callback ≠ .onQueueEvent) (hopen : t.toOpen = [])
    (hdequeued : t.dequeued = s.dequeued) (hgens : t.gens = s.gens)
    (hnext : t.nextString = s.nextString) : Opens s r ans t := by
  have hne : (s.req r).callback ≠ some .onQueueEvent := by
    rw [hcall]
    exact fun heq => hother (Option.some.inj heq)
  exact .none (fun hloses => hne hloses.1.1) (fun hspur => absurd hspur.1 hne)
    hopen hdequeued hgens hnext

/-- The callback of a fixed request prepares an open exactly where it takes a
slot. -/
theorem FixedOutcome.opens {r : ReqPtr n} {ans : Answers}
    (hout : FixedOutcome s r ans t) (hlive : s.halted = none)
    (htodo : s.todo = [])
    (hfixed : t.halted = none → ∀ r, r.container = none →
      ¬ (t.req r).ForFile) : Opens s r ans t := by
  have hpoll : ∀ cmds : List (Cmd n), cmds = [] ∨ cmds = [.submit .queuePoll] →
      ∀ r, .submit r ∈ cmds → r.container = none := by
    rintro cmds (rfl | rfl) <;> simp [ReqPtr.container]
  cases hout with
  | ended hend hexit =>
    have hopen := Sys.toOpen_nil (hend.todo.trans htodo)
    cases hexit with
    | plain hkeeps hfull hdequeued hgens hnext =>
      exact .none hkeeps hfull hopen hdequeued hgens hnext
    | lost hloses event hdequeued => exact .lost hloses event hopen hdequeued
    | spurious hspur hfree hdequeued hgens =>
      exact .spurious hspur hfree hdequeued hgens
  | waits todo hwait hcmds hrearm hkeeps =>
    exact .none hkeeps (fun hspur => absurd hspur hwait)
      (filterMap_fixed (hfixed hlive) (hpoll todo hcmds)) rfl rfl rfl
  | created hcall sockFd =>
    exact .of_other hcall (by decide)
      (filterMap_fixed (hfixed hlive) (by simp [ReqPtr.container])) rfl rfl rfl
  | connected hcall =>
    exact .of_other hcall (by decide)
      (filterMap_fixed (hfixed hlive) (by simp [ReqPtr.container])) rfl rfl rfl
  | received hcall =>
    exact .of_other hcall (by decide)
      (filterMap_fixed (hfixed hlive) (by simp [ReqPtr.container])) rfl rfl rfl
  | @taken i event events ticket rest hhead hnew hrest hrearm hkeeps =>
    rcases hnew with ⟨hspur, rfl, -, rfl⟩ | ⟨hnot, rfl, -⟩
    · refine .spurious hspur ?_ (List.append_nil _) (gens_handOut_ne s i)
      exact fun hempty => absurd (hhead.symm.trans hempty) (by simp)
    · exact .event hkeeps hnot event (toOpen_prepared.trans (congrArg _
        (filterMap_fixed (hfixed hlive) (hpoll rest hrest)))) rfl

theorem FixedOps.opens_dispatched (h : s.FixedOps) (hlive : s.halted = none)
    (htodo : s.todo = []) {ans : Answers} (hout : Dispatched s ans t) :
    OpensTo s (.dispatch ans) t := by
  have hfixed : t.halted = none → ∀ r, r.container = none →
      ¬ (t.req r).ForFile := fun hrun r =>
    h.reqTo ((Effect.dispatch ans htodo hout).reqTo hrun r)
  have hnil := toOpen_nil htodo
  have hdel := s.deliver_reaped
  cases hout with
  | idle hcur =>
    refine .same ?_ (fun _ _ _ => ⟨rfl, rfl⟩) rfl rfl
    rintro ⟨-, -, cqe, hc, -⟩
    exact absurd (hcur.symm.trans hc) (by simp)
  | slot cqe hcur hreq hheld hout =>
    obtain ⟨hopen, hsame, hgens, hnext⟩ := hout.toOpen hheld
    refine .same ?_ (fun _ _ _ => ?_) (hopen.trans hnil.symm)
      (hsame.trans (hdel cqe).dequeued)
    · refine serves_of_other hlive htodo hcur ans ?_
      rw [hreq]
      exact hheld.callback_ne
    · exact ⟨hgens.trans (hdel cqe).gens, hnext.trans (hdel cqe).nextString⟩
  | fixed cqe hcur hreq hinv hidle hout =>
    have hiff := serves_iff hlive htodo hcur ans
    have hopens := hout.opens ((hdel cqe).halted.trans hlive) hidle hfixed
    cases hopens with
    | none hkeeps hfull hopen hdequeued hgens hnext =>
      refine .same (hiff.mpr ⟨hkeeps, hfull⟩) (fun _ _ _ => ?_)
        (hopen.trans hnil.symm) (hdequeued.trans (hdel cqe).dequeued)
      exact ⟨hgens.trans (hdel cqe).gens, hnext.trans (hdel cqe).nextString⟩
    | event hkeeps hnot event hopen hdequeued =>
      refine .event (hiff.mpr ⟨hkeeps, fun hspur => absurd hspur hnot⟩) event
        ?_ ?_
      · rw [hnil]
        exact hopen
      · rw [hdequeued, (hdel cqe).dequeued]
    | lost hloses event hopen hdequeued =>
      refine .lost (fun hserves => (hiff.mp hserves).1 hloses) event
        (hopen.trans hnil.symm) ?_
      rw [hdequeued, (hdel cqe).dequeued]
    | spurious hspur hfree hdequeued hgens =>
      refine .spurious (fun hserves => hfree ((hiff.mp hserves).2 hspur)) ?_
      intro hleaves
      have hsame := (hleaves ans rfl (hdequeued.trans (hdel cqe).dequeued)).1
      exact hgens (hsame.trans (hdel cqe).gens.symm)

/-- `verifier_flush_egress` leaves the opens to come alone. -/
theorem FlushOutcome.toOpen {ans : Answers} (h : Inv none s)
    (hfixed : ∀ r, r.container = none → ¬ (s.req r).ForFile)
    (hout : FlushOutcome s ans t) :
    t.toOpen = s.toOpen ∧ t.dequeued = s.dequeued := by
  cases hout with
  | ended hend hreq hstrings hdequeued =>
    exact ⟨toOpen_congr hend.todo hreq hstrings, hdequeued⟩
  | armed htimer =>
    refine ⟨?_, rfl⟩
    refine (List.filterMap_cons_none ?_).trans ?_
    · exact opensPath_of_ne (by simp [Sys.req, armedTimer])
    · apply List.filterMap_congr
      intro cmd _
      cases cmd with
      | flushEgress => rfl
      | submit r =>
        by_cases hr : r = .timer
        · subst hr
          rw [opensPath_of_ne (by simp [Sys.req, armedTimer]),
            opensPath_of_ne fun hopen => hfixed .timer rfl (Or.inl hopen)]
        · cases r <;> first
            | rfl
            | exact absurd rfl hr
  | @updating i htimer hhead =>
    have hlist := h.list
    rw [hhead] at hlist
    refine ⟨?_, List.append_nil _⟩
    refine (List.filterMap_cons_none ?_).trans ?_
    · exact opensPath_of_ne (by simp [Sys.req, Sys.prepared, updateSlot])
    · apply List.filterMap_congr
      intro cmd hmem
      cases cmd with
      | flushEgress => rfl
      | submit r =>
        cases r with
        | slot j =>
          have hj : j ≠ i := by
            rintro rfl
            exact h.not_mem_of_free hlist.head_free hmem
          simp only [opensPath, Sys.req, Sys.prepared,
            Function.update_of_ne hj]
          rfl
        | _ => rfl

/-- A submission takes the first open that is to come into the ring, or loses
it. -/
theorem opens_submit (hlive : s.halted = none) {ans : Answers} {r : ReqPtr n}
    {rest : List (Cmd n)} (htodo : s.todo = .submit r :: rest) :
    OpensTo s (.proceed ans) ({ s with todo := rest }.submit r) := by
  have hleaves : s.LeavesSlots (.proceed ans)
      ({ s with todo := rest }.submit r) := fun _ hno => nomatch hno
  have hrest : ({ s with todo := rest }.submit r).toOpen =
      rest.filterMap s.opensPath := rfl
  have hserves : (s.opensPath (.submit r) ≠ none → s.Accepts (.submit r)) →
      s.Serves (.proceed ans) := by
    intro hroom _ cmd hcmd
    rw [htodo, List.head?_cons, Option.mem_some] at hcmd
    exact hcmd ▸ hroom
  have hsubmits : s.submitsOpen (.proceed ans) =
      if s.Accepts (.submit r) then [.submit r].filterMap s.opensPath
      else [] := by
    simp only [submitsOpen, if_pos hlive, htodo, List.take_succ_cons,
      List.take_zero]
    by_cases haccepts : s.Accepts (.submit r)
    · rw [if_pos haccepts, List.filter_cons_of_pos (by simpa using haccepts)]
      rfl
    · rw [if_neg haccepts, List.filter_cons_of_neg (by simpa using haccepts)]
      rfl
  have hall : s.toOpen =
      [.submit r].filterMap s.opensPath ++ rest.filterMap s.opensPath := by
    rw [Sys.toOpen, htodo]
    exact @List.filterMap_append _ _ [.submit r] rest s.opensPath
  by_cases haccepts : s.Accepts (.submit r)
  · refine .same (hserves fun _ => haccepts) hleaves ?_ rfl
    rw [hsubmits, if_pos haccepts, hrest, hall]
  · cases hpath : s.opensPath (.submit r) with
    | none =>
      refine .same (hserves fun hno => absurd hpath hno) hleaves ?_ rfl
      rw [hsubmits, if_neg haccepts, hrest, hall,
        List.filterMap_cons_none hpath]
      rfl
    | some path =>
      refine .refused (fun hno => ?_) path ?_ rfl
      · refine haccepts (hno hlive _ ?_ (by simp [hpath]))
        rw [htodo]
        rfl
      · rw [hsubmits, if_neg haccepts, hrest, hall,
          List.filterMap_cons_some hpath]
        rfl

theorem Inv.opens_step (h : Inv none s) (hfixed : s.FixedOps)
    (hlive : s.halted = none) (a : SysStep n) : OpensTo s a (s.step a) := by
  have heff := h.effect hlive a
  generalize s.step a = t at heff ⊢
  cases heff with
  | stutter _ hbusy hloop =>
    refine .same ?_ (fun _ _ _ => ⟨rfl, rfl⟩) ?_ rfl <;>
      rcases hloop with rfl | rfl | ⟨ans, rfl⟩
    · trivial
    · trivial
    · exact fun hreads => absurd hreads.2.1 hbusy
    all_goals rfl
  | idle ans htodo =>
    refine .same ?_ (fun _ hno => nomatch hno) ?_ rfl
    · intro _ cmd hcmd
      rw [htodo] at hcmd
      exact nomatch hcmd
    · simp [submitsOpen, htodo]
  | kernel act hto =>
    refine .same trivial (fun _ hno => nomatch hno) ?_ (by cases hto <;> rfl)
    exact toOpen_congr (by cases hto <;> rfl) hto.req (by cases hto <;> rfl)
  | reaper _ cq hwf hsame hloop =>
    rcases hloop with rfl | rfl <;> exact .same trivial
      (fun _ hno => nomatch hno) (toOpen_congr rfl rfl rfl) rfl
  | dispatch ans htodo hout => exact hfixed.opens_dispatched hlive htodo hout
  | submit ans htodo => exact opens_submit hlive htodo
  | @flush _ ans rest htodo hout =>
    obtain ⟨hopen, hdeq⟩ := hout.toOpen (h.flushEgress htodo) hfixed.reqs
    refine .same ?_ (fun _ hno => nomatch hno) ?_ hdeq
    · intro _ cmd hcmd _
      rw [htodo, List.head?_cons, Option.mem_some] at hcmd
      exact hcmd ▸ trivial
    · simp only [submitsOpen, if_pos hlive, htodo, List.take_succ_cons,
        List.take_zero]
      rw [hopen, Sys.toOpen, Sys.toOpen, htodo]
      rfl

/-! ## The runs -/

/-- The opens that were submitted and those to come are those of the events. -/
def OpensMatch (x : Sys B n × List Bytes) : Prop :=
  x.2 ++ x.1.toOpen = x.1.eventPaths

/-- There are no more opens than events. -/
def OpensCovered (x : Sys B n × List Bytes) : Prop :=
  Live (fun _ => True) x.1 ∧
    (x.1.halted = none → (x.2 ++ x.1.toOpen).length ≤ x.1.dequeued.length)

/-- The opens behind a step of a live run. -/
theorem OpensCovered.opensTo {x : Sys B n × List Bytes} (h : OpensCovered x)
    (hlive : x.1.halted = none) (a : SysStep n) :
    OpensTo x.1 a (x.1.step a) :=
  (h.1.good.inv hlive).opens_step (h.1.fixed hlive) hlive a

theorem live_of_step {a : SysStep n} (h : (s.step a).halted = none) :
    s.halted = none := by
  by_contra hdead
  rw [step_of_halted hdead] at h
  exact hdead h

theorem OpensCovered.step {x : Sys B n × List Bytes} (h : OpensCovered x)
    (a : SysStep n) (htakes : x.1.TakesNothing a) :
    OpensCovered (traced Sys.step submitsOpen x a) := by
  refine ⟨h.1.step (fun _ _ _ _ _ _ _ => trivial) a, fun hrun => ?_⟩
  have hlive := live_of_step hrun
  have hle := h.2 hlive
  show (x.2 ++ x.1.submitsOpen a ++ (x.1.step a).toOpen).length ≤
    (x.1.step a).dequeued.length
  rw [List.append_assoc, List.length_append]
  rw [List.length_append] at hle
  cases h.opensTo hlive a with
  | same _ _ hopen hdequeued =>
    rw [hopen, hdequeued]
    exact hle
  | event _ event hopen hdequeued =>
    rw [hopen, hdequeued, List.length_append, List.length_append]
    simp only [List.length_singleton]
    omega
  | lost _ event hopen hdequeued =>
    rw [hopen, hdequeued, List.length_append]
    omega
  | refused _ path hopen hdequeued =>
    rw [← hopen, List.length_cons] at hle
    rw [hdequeued]
    omega
  | spurious _ hno => exact absurd htakes hno

/-- Behind a step the opens match the events, and nothing was taken without an
event, exactly when they did before and the step is one of `Serves`. -/
theorem OpensCovered.match_iff {x : Sys B n × List Bytes} (h : OpensCovered x)
    (a : SysStep n) :
    OpensMatch (traced Sys.step submitsOpen x a) ∧ x.1.TakesNothing a ↔
      OpensMatch x ∧ x.1.Serves a := by
  by_cases hlive : x.1.halted = none
  case neg =>
    have hsame : traced Sys.step submitsOpen x a = x := by
      have hnone : x.1.submitsOpen a = [] := by
        cases a <;> simp [submitsOpen, hlive]
      rw [traced, hnone, step_of_halted hlive, List.append_nil]
    rw [hsame]
    refine and_congr_right fun _ => iff_of_true ?_ ?_
    · intro ans _ _
      rw [step_of_halted hlive]
      exact ⟨rfl, rfl⟩
    · cases a with
      | dispatch ans => exact fun hreads => absurd hreads.1 hlive
      | proceed ans => exact fun hrun => absurd hrun hlive
      | _ => trivial
  have hle := h.2 hlive
  have hmatch : OpensMatch (traced Sys.step submitsOpen x a) ↔
      x.2 ++ (x.1.submitsOpen a ++ (x.1.step a).toOpen) =
        (x.1.step a).dequeued.map fun event => cString event.path := by
    rw [← List.append_assoc]
    rfl
  rw [hmatch]
  unfold OpensMatch
  -- where the step is not one of `Serves`, the opens are too few from then on
  cases h.opensTo hlive a with
  | same hserves hleaves hopen hdequeued =>
    rw [hopen, hdequeued]
    exact and_congr Iff.rfl (iff_of_true hleaves hserves)
  | event hserves event hopen hdequeued =>
    rw [hopen, hdequeued, ← List.append_assoc, List.map_append, List.map_cons,
      List.map_nil, List.append_left_inj]
    refine and_congr Iff.rfl (iff_of_true ?_ hserves)
    intro ans _ hsame
    rw [hdequeued] at hsame
    exact absurd (congrArg List.length hsame) (by simp)
  | lost hno event hopen hdequeued =>
    refine iff_of_false (fun hand => ?_) fun hand => hno hand.2
    have hlen := congrArg List.length hand.1
    rw [hopen, hdequeued, List.length_map, List.length_append] at hlen
    rw [List.length_append] at hle hlen
    rw [List.length_singleton] at hlen
    omega
  | refused hno path hopen hdequeued =>
    refine iff_of_false (fun hand => ?_) fun hand => hno hand.2
    have hlen := congrArg List.length hand.1
    rw [← hopen, List.length_append, List.length_cons] at hle
    rw [hdequeued, List.length_map, List.length_append] at hlen
    omega
  | spurious hno htakes =>
    exact iff_of_false (fun hand => htakes hand.2) fun hand => hno hand.2

/-- In every run whose end is between callbacks or behind the end of the process,
the opens that were put into the ring are those of the events that were dequeued,
in the same order, and no callback without an event has taken a slot or copied a
path, exactly when every step is one of `Serves`. -/
theorem opens_match_dequeues_iff [NeZero n] (boot : Boot n)
    (sched : List (SysStep n)) :
    let x := run (traced Sys.step submitsOpen) (processorRun B boot, []) sched
    x.1.todo = [] →
    ((x.2 = x.1.eventPaths ∧
        Meets Sys.step TakesNothing (processorRun B boot) sched) ↔
      Meets Sys.step Serves (processorRun B boot) sched) := by
  intro x htodo
  have hstart : Live (fun _ => True) (processorRun B boot) :=
    live_processorRun boot trivial
  have hnone : (processorRun B boot).toOpen = [] :=
    filterMap_fixed (hstart.fixed rfl).reqs
      (by simp [processorRun, ReqPtr.container])
  have hrun : OpensMatch x ∧ Meets (traced Sys.step submitsOpen)
        (fun x a => x.1.TakesNothing a) (processorRun B boot, []) sched ↔
      OpensMatch (processorRun B boot, []) ∧ Meets (traced Sys.step submitsOpen)
        (fun x a => x.1.Serves a) (processorRun B boot, []) sched :=
    run_and_meets_iff (I := OpensCovered) (fun x a h htakes => h.step a htakes)
      (fun x a h => h.match_iff a) ⟨hstart, fun _ => by simp [hnone]⟩ sched
  have hempty : OpensMatch (processorRun B boot, []) := by
    rw [OpensMatch, hnone]
    rfl
  have hend : OpensMatch x ↔ x.2 = x.1.eventPaths := by
    rw [OpensMatch, toOpen_nil htodo, List.append_nil]
  rw [← hend, ← meets_traced Sys.step submitsOpen TakesNothing
    (processorRun B boot, []), ← meets_traced Sys.step submitsOpen Serves
    (processorRun B boot, [])]
  exact hrun.trans (and_iff_right hempty)

theorem opens_match_dequeues_in_printedRun :
    let x := run (traced Sys.step submitsOpen)
      (processorRun .concat (Boot.zeroed 1), []) printedRun
    x.1.eventPaths = [[47]] ∧ x.2 = x.1.eventPaths ∧
      Meets Sys.step TakesNothing (processorRun .concat (Boot.zeroed 1))
        printedRun :=
  ⟨by decide +kernel, (opens_match_dequeues_iff (Boot.zeroed 1) printedRun
    (by decide +kernel)).mpr (by decide +kernel)⟩

/-- The poll completes once, and the eventfd holds no token. -/
def spuriousRun : List (SysStep 1) :=
  let ans := { Answers.event [47] with efd := 0 }
  [.proceed ans, .proceed ans, .kernel .consume, .kernel .consume] ++
  [.kernel (.notify 0 1 2)] ++ reapOne ans 1

/-- Without a token nothing is dequeued, and yet a slot is taken, a path is copied,
and an open of the empty path is submitted.  With one slot the process exits behind
the dequeue of a second event, and with a full ring the open of the last of 129
events is refused. -/
theorem opens_differ_from_dequeues :
    let x := run (traced Sys.step submitsOpen)
      (processorRun .concat (Boot.zeroed 1), []) spuriousRun
    let y := run (traced Sys.step submitsOpen)
      (processorRun .concat (Boot.zeroed 1), [])
      (twoEvents ++ [.dispatch (Answers.event [47])])
    let z := run (traced Sys.step submitsOpen)
      (processorRun .concat (Boot.zeroed 256), []) burstRun
    (x.1.todo = [] ∧ x.1.dequeued = [] ∧ x.2 = [[]] ∧ x.1.gens 0 = 1 ∧
        x.1.nextString = 1) ∧
      (y.1.todo = [] ∧ y.1.halted = some .exit ∧
        y.1.eventPaths = [[47], [47]] ∧ y.2 = [[47]]) ∧
      (z.1.todo = [] ∧ z.1.dequeued.length = 129 ∧ z.2.length = 128) := by
  decide +kernel

end Sys

end Ride
