import Ride.Processor.Fixed
import Ride.Processor.Safety

/-!
# The tasks of a processor

A task begins when `on_queue_event` takes a slot for an event, and it ends when
the slot goes back to the list: with a line of the output, or with a logged
error.  The updates of the timer take slots too, and so does a completion of the
poll without a token, but they are no tasks: their slots have no ticket.

`Sys.TaskTo` lists what a step can do to the tasks, and `Effect.taskTo` says that
the list is complete.  Two results are read off it.

* `event_in_one_place` counts: every event that was taken from the queue has a
  slot, an error or a line, and exactly one of them.
* `Sys.LengthOk` says that the length in a slot is the one of its event, so that
  `verifier_verify_hash` gets the path as it is if the event is well formed.
-/

namespace Ride

open CodeLib CodeLib.Machine

namespace Sys

variable {B : Blake3} {n : Nat} {i : Fin n} {s t : Sys B n}

/-! ## What a step does to the tasks -/

/-- The slot is on the same side of the list, with the same length of the
path. -/
def SameTask (s t : Sys B n) (j : Fin n) : Prop :=
  (t.reqs j).inFlight = (s.reqs j).inFlight ∧ (t.reqs j).data2 = (s.reqs j).data2

/-- What ends a task: a line, an error, or nothing if there was no event. -/
inductive TaskEnds (s t : Sys B n) (ticket : Option Nat) : Prop where
  | line (r : Record) (hticket : r.ticket = ticket)
      (hrecords : t.records = s.records ++ [r]) (herrors : t.errors = s.errors) :
      TaskEnds s t ticket
  | error (hrecords : t.records = s.records)
      (herrors : t.errors = s.errors ++ [ticket]) : TaskEnds s t ticket
  | nothing (hticket : ticket = none) (hrecords : t.records = s.records)
      (herrors : t.errors = s.errors) : TaskEnds s t ticket

/-- What a new task is for: no event, or the next one, with its length in the
slot. -/
inductive TaskBegins (s : Sys B n) (slot : Slot B.State n) :
    List Event → Option Nat → Prop where
  | nothing : TaskBegins s slot [] none
  | event (event : Event) (hlen : slot.data2 = event.pathLen) :
      TaskBegins s slot [event] (some s.dequeued.length)

/-- A step leaves the tasks alone, begins one, or ends one. -/
inductive TaskTo (s t : Sys B n) : Prop where
  | same (hslots : ∀ j, SameTask s t j) (htickets : t.tickets = s.tickets)
      (hdequeued : t.dequeued = s.dequeued) (hrecords : t.records = s.records)
      (herrors : t.errors = s.errors) : TaskTo s t
  | begun (i : Fin n) (events : List Event) (ticket : Option Nat)
      (hfree : (s.reqs i).inFlight = false) (hbusy : (t.reqs i).inFlight = true)
      (hother : ∀ j, j ≠ i → SameTask s t j)
      (hnew : TaskBegins s (t.reqs i) events ticket)
      (htickets : t.tickets = Function.update s.tickets i ticket)
      (hdequeued : t.dequeued = s.dequeued ++ events)
      (hrecords : t.records = s.records) (herrors : t.errors = s.errors) :
      TaskTo s t
  | ended (i : Fin n) (hbusy : (s.reqs i).inFlight = true)
      (hfree : (t.reqs i).inFlight = false)
      (hother : ∀ j, j ≠ i → SameTask s t j) (htickets : t.tickets = s.tickets)
      (hdequeued : t.dequeued = s.dequeued)
      (hsettles : TaskEnds s t (s.tickets i)) : TaskTo s t

theorem SameTask.of_eq (h : t.reqs = s.reqs) (j : Fin n) : SameTask s t j := by
  rw [SameTask, h]
  exact ⟨rfl, rfl⟩

theorem TaskTo.of_reqs (hreqs : t.reqs = s.reqs)
    (htickets : t.tickets = s.tickets) (hdequeued : t.dequeued = s.dequeued)
    (hrecords : t.records = s.records) (herrors : t.errors = s.errors) :
    TaskTo s t :=
  .same (SameTask.of_eq hreqs) htickets hdequeued hrecords herrors

theorem SameTask.of_update {slot : Slot B.State n}
    (h : t.reqs = Function.update s.reqs i slot) {j : Fin n} (hj : j ≠ i) :
    SameTask s t j := by
  rw [SameTask, h, Function.update_of_ne hj]
  exact ⟨rfl, rfl⟩

/-- A slot that its callback prepares for the next submission keeps its task. -/
theorem taskTo_resumed (slot : Slot B.State n)
    (hfly : slot.inFlight = (s.reqs i).inFlight)
    (hlen : slot.data2 = (s.reqs i).data2) : TaskTo s (s.resumed i slot) := by
  refine .same (fun j => ?_) rfl rfl rfl rfl
  by_cases hj : j = i
  · subst hj
    rw [SameTask, Sys.resumed]
    simp only [Function.update_self]
    exact ⟨hfly, hlen⟩
  · exact SameTask.of_update rfl hj

/-- The callback of a slot. -/
theorem SlotOutcome.taskTo {stage : Stage} {ans : Answers}
    (h : s.Held i stage) (hout : SlotOutcome s i ans t)
    (hrun : t.halted = none) : TaskTo s t := by
  have hfreed : ∀ {hasher data2 strings fds records errors},
      TaskEnds s (s.freed i (s.releasedSlot i hasher data2) strings fds records
        errors) (s.tickets i) →
      TaskTo s (s.freed i (s.releasedSlot i hasher data2) strings fds records
        errors) := by
    intro hasher data2 strings fds records errors hsettles
    refine .ended i h.inFlight ?_ (fun j hj => SameTask.of_update rfl hj) rfl rfl
      hsettles
    simp only [Sys.freed, Function.update_self, releasedSlot]
  cases hout with
  | openFailed hfits hneg => exact hfreed (.error rfl rfl)
  | opened hfits => exact taskTo_resumed _ rfl rfl
  | readFailed hfits hneg => exact hfreed (.error rfl rfl)
  | readMore hfits => exact taskTo_resumed _ rfl rfl
  | printed hfits =>
    exact hfreed (.line (s.printedLine i _) rfl rfl rfl)
  | verifyFailed => exact absurd hrun (by simp [Sys.halt])
  | updated hfits => exact hfreed (.nothing hfits.ticket rfl rfl)

/-- The first slot of the list is prepared for a task. -/
theorem taskTo_prepared (h : Inv none s) (hhead : s.reqsList = some i)
    {slot : Slot B.State n} {ticket : Option Nat} {events : List Event}
    (hfly : slot.inFlight = true) (hnew : TaskBegins s slot events ticket)
    (strings : Nat → Option (Bytes × Fin n)) (nextString : Nat)
    (expiry : Int × Int) (rest : List (Cmd n)) :
    TaskTo s (s.prepared i slot ticket events strings nextString expiry
      rest) := by
  have hlist := h.list
  rw [hhead] at hlist
  have hself : (s.prepared i slot ticket events strings nextString expiry
      rest).reqs i = slot := Function.update_self ..
  refine .begun i events ticket hlist.head_free ?_
    (fun j hj => SameTask.of_update rfl hj) ?_ rfl rfl rfl rfl
  · rw [hself]
    exact hfly
  · rw [hself]
    exact hnew

/-- The callback of a fixed request. -/
theorem FixedOutcome.taskTo {r : ReqPtr n} {ans : Answers} (h : Inv none s)
    (hout : FixedOutcome s r ans t) (hrun : t.halted = none) : TaskTo s t := by
  cases hout with
  | ended hend => exact absurd hrun hend.halted
  | taken event events ticket rest hhead hnew hrest =>
    refine taskTo_prepared h hhead rfl ?_ _ _ _ _
    rcases hnew with ⟨-, rfl, rfl, -⟩ | ⟨-, rfl, rfl⟩
    · exact .nothing
    · exact .event event rfl
  | _ => exact .of_reqs rfl rfl rfl rfl rfl

theorem FlushOutcome.taskTo {ans : Answers} (h : Inv none s)
    (hout : FlushOutcome s ans t) (hrun : t.halted = none) : TaskTo s t := by
  cases hout with
  | ended hend => exact absurd hrun hend.halted
  | armed htimer => exact .of_reqs rfl rfl rfl rfl rfl
  | updating htimer hhead =>
    exact taskTo_prepared h hhead rfl .nothing _ _ _ _

/-- Storing the result of a completion is no matter to the tasks. -/
theorem TaskTo.of_deliver {cqe : Cqe (Name n)} (h : TaskTo (s.deliver cqe) t) :
    TaskTo s t := by
  have hdel := s.deliver_reaped cqe
  have hslot : ∀ j, ((s.deliver cqe).reqs j).inFlight = (s.reqs j).inFlight ∧
      ((s.deliver cqe).reqs j).data2 = (s.reqs j).data2 := by
    intro j
    obtain ⟨res, flags, hreqs⟩ := s.deliver_reqs_at cqe j
    rw [hreqs]
    exact ⟨rfl, rfl⟩
  have hsame : ∀ {j}, SameTask (s.deliver cqe) t j → SameTask s t j := by
    intro j hj
    exact ⟨hj.1.trans (hslot j).1, hj.2.trans (hslot j).2⟩
  cases h with
  | same hslots htickets hdequeued hrecords herrors =>
    exact .same (fun j => hsame (hslots j)) (htickets.trans hdel.tickets)
      (hdequeued.trans hdel.dequeued) (hrecords.trans hdel.records)
      (herrors.trans hdel.errors)
  | begun i events ticket hfree hbusy hother hnew htickets hdequeued hrecords
      herrors =>
    rw [hdel.tickets] at htickets
    rw [hdel.dequeued] at hdequeued
    refine .begun i events ticket ((hslot i).1.symm.trans hfree) hbusy
      (fun j hj => hsame (hother j hj)) ?_ htickets hdequeued
      (hrecords.trans hdel.records) (herrors.trans hdel.errors)
    cases hnew with
    | nothing => exact .nothing
    | event event hlen =>
      rw [hdel.dequeued]
      exact .event event hlen
  | ended i hbusy hfree hother htickets hdequeued hsettles =>
    refine .ended i ((hslot i).1.symm.trans hbusy) hfree
      (fun j hj => hsame (hother j hj)) (htickets.trans hdel.tickets)
      (hdequeued.trans hdel.dequeued) ?_
    rw [hdel.tickets] at hsettles
    cases hsettles with
    | line r hticket hrecords herrors =>
      rw [hdel.records] at hrecords
      exact .line r hticket hrecords (herrors.trans hdel.errors)
    | error hrecords herrors =>
      rw [hdel.errors] at herrors
      exact .error (hrecords.trans hdel.records) herrors
    | nothing hticket hrecords herrors =>
      exact .nothing hticket (hrecords.trans hdel.records)
        (herrors.trans hdel.errors)

/-- What a step of a live run does to the tasks. -/
theorem Effect.taskTo (h : Inv none s) {a : SysStep n} (heff : Effect s a t)
    (hrun : t.halted = none) : TaskTo s t := by
  cases heff with
  | kernel act hto => cases hto <;> exact .of_reqs rfl rfl rfl rfl rfl
  | dispatch ans htodo hout =>
    cases hout with
    | idle => exact .of_reqs rfl rfl rfl rfl rfl
    | slot cqe hcur hreq hheld hout => exact (hout.taskTo hheld hrun).of_deliver
    | fixed cqe hcur hfixed hinv hidle hout =>
      exact (hout.taskTo hinv hrun).of_deliver
  | flush ans htodo hout =>
    have hinv := h.flushEgress htodo
    cases hout.taskTo hinv hrun with
    | same hslots htickets hdequeued hrecords herrors =>
      exact .same hslots htickets hdequeued hrecords herrors
    | begun i events ticket hfree hbusy hother hnew htickets hdequeued hrecords
        herrors =>
      refine .begun i events ticket hfree hbusy hother ?_ htickets hdequeued
        hrecords herrors
      cases hnew with
      | nothing => exact .nothing
      | event event hlen => exact .event event hlen
    | ended i hbusy hfree hother htickets hdequeued hsettles =>
      refine .ended i hbusy hfree hother htickets hdequeued ?_
      cases hsettles with
      | line r hticket hrecords herrors => exact .line r hticket hrecords herrors
      | error hrecords herrors => exact .error hrecords herrors
      | nothing hticket hrecords herrors =>
        exact .nothing hticket hrecords herrors
  | _ => exact .of_reqs rfl rfl rfl rfl rfl

/-! ## Every event is in one place -/

/-- The slot works for the event with the number `k`. -/
def holds (s : Sys B n) (k : Nat) (i : Fin n) : Nat :=
  if (s.reqs i).inFlight = true ∧ s.tickets i = some k then 1 else 0

/-- The places where the event with the number `k` is: the slots that work for
it, the errors, and the lines of the output. -/
def places (s : Sys B n) (k : Nat) : Nat :=
  ∑ i, s.holds k i + s.errors.count (some k) +
    (s.records.map Record.ticket).count (some k)

/-- Every event that was taken is in one place, and no other number is in
any. -/
def Conserved (s : Sys B n) : Prop :=
  ∀ k, s.places k = if k < s.dequeued.length then 1 else 0

theorem holds_of_same {j : Fin n} (h : SameTask s t j)
    (hticket : t.tickets j = s.tickets j) (k : Nat) :
    t.holds k j = s.holds k j := by
  rw [holds, holds, h.1, hticket]

theorem holds_of_free {k : Nat} (h : (s.reqs i).inFlight = false) :
    s.holds k i = 0 :=
  if_neg fun hbusy => absurd (h.symm.trans hbusy.1) (by decide)

theorem holds_of_busy {k : Nat} (h : (s.reqs i).inFlight = true) :
    s.holds k i = [s.tickets i].count (some k) := by
  rw [holds, List.count_singleton]
  simp only [h, true_and, beq_iff_eq]

/-- A slot that changes sides changes the sum by what it held before and what it
holds now. -/
theorem sum_holds {k : Nat} (hother : ∀ j, j ≠ i → SameTask s t j)
    (htickets : ∀ j, j ≠ i → t.tickets j = s.tickets j) :
    ∑ j, t.holds k j + s.holds k i = ∑ j, s.holds k j + t.holds k i := by
  have hupdate : t.holds k = Function.update (s.holds k) i (t.holds k i) := by
    funext j
    by_cases hj : j = i
    · rw [hj, Function.update_self]
    · rw [Function.update_of_ne hj]
      exact holds_of_same (hother j hj) (htickets j hj) k
  have hsum := sum_update_add (s.holds k) i (t.holds k i)
  rwa [← hupdate] at hsum

theorem TaskEnds.count {ticket : Option Nat} (h : TaskEnds s t ticket) (k : Nat) :
    t.errors.count (some k) + (t.records.map Record.ticket).count (some k) =
      s.errors.count (some k) + (s.records.map Record.ticket).count (some k) +
        [ticket].count (some k) := by
  cases h with
  | line r hticket hrecords herrors =>
    rw [hrecords, herrors, List.map_append, List.count_append, ← hticket]
    simp only [List.map_cons, List.map_nil]
    omega
  | error hrecords herrors =>
    rw [hrecords, herrors, List.count_append]
    omega
  | nothing hticket hrecords herrors =>
    rw [hrecords, herrors, hticket]
    rfl

theorem TaskBegins.count {slot : Slot B.State n} {events : List Event}
    {ticket : Option Nat} (h : TaskBegins s slot events ticket) (k : Nat) :
    (if k < (s.dequeued ++ events).length then 1 else 0) =
      (if k < s.dequeued.length then 1 else 0) + [ticket].count (some k) := by
  cases h with
  | nothing =>
    rw [List.append_nil]
    rfl
  | event event hlen =>
    rw [List.length_append, List.length_singleton, List.count_singleton]
    simp only [beq_iff_eq, Option.some.injEq]
    split_ifs <;> omega

theorem Conserved.taskTo (h : s.Conserved) (hto : TaskTo s t) :
    t.Conserved := by
  intro k
  have hk := h k
  unfold places at hk ⊢
  cases hto with
  | same hslots htickets hdequeued hrecords herrors =>
    rw [hdequeued, hrecords, herrors, ← hk]
    congr 2
    exact Finset.sum_congr rfl fun j _ =>
      holds_of_same (hslots j) (by rw [htickets]) k
  | begun i events ticket hfree hbusy hother hnew htickets hdequeued hrecords
      herrors =>
    have hsum := sum_holds (k := k) hother fun j hj => by
      rw [htickets, Function.update_of_ne hj]
    rw [holds_of_free hfree, holds_of_busy hbusy, htickets,
      Function.update_self] at hsum
    rw [hdequeued, hnew.count, hrecords, herrors]
    omega
  | ended i hbusy hfree hother htickets hdequeued hsettles =>
    have hsum := sum_holds (k := k) hother fun j _ => by rw [htickets]
    have hcount := hsettles.count k
    rw [holds_of_free hfree, holds_of_busy hbusy] at hsum
    rw [hdequeued]
    omega

theorem conserved_processorRun [NeZero n] (boot : Boot n) :
    (processorRun B boot).Conserved := by
  intro k
  simp [places, holds, processorRun, setupSlot]

/-- In every live state of every run, every event that the processor has taken
from the queue is in exactly one place: a slot works for it, its task has ended
with a logged error, or a line of the output is for it.  None is lost, and none is
there twice. -/
theorem event_in_one_place [NeZero n] (boot : Boot n)
    (sched : List (SysStep n))
    (hlive : (run Sys.step (processorRun B boot) sched).halted = none) :
    let s := run Sys.step (processorRun B boot) sched
    ∀ k, s.places k = if k < s.dequeued.length then 1 else 0 :=
  (live_run (P := Conserved)
    (fun _ a hinv _ halive hrun h => h.taskTo ((hinv.effect halive a).taskTo
      hinv hrun))
    boot (conserved_processorRun boot) sched).prop hlive

theorem event_in_one_place_in_printedRun :
    let s := run Sys.step (processorRun .concat (Boot.zeroed 1)) printedRun
    s.dequeued.length = 1 ∧ s.records.length = 1 ∧
      ∀ k, s.places k = if k < s.dequeued.length then 1 else 0 :=
  ⟨by decide +kernel, by decide +kernel, event_in_one_place (Boot.zeroed 1)
    printedRun (by decide +kernel)⟩

/-! ## The lengths of the paths -/

/-- A slot that works for an event has the length of the path of the event. -/
def LengthOk (s : Sys B n) : Prop :=
  ∀ i k event, (s.reqs i).inFlight = true → s.tickets i = some k →
    s.dequeued[k]? = some event → (s.reqs i).data2 = event.pathLen

theorem lengthOk_processorRun [NeZero n] (boot : Boot n) :
    (processorRun B boot).LengthOk := by
  intro i k event hfly
  exact absurd hfly (by simp [processorRun, setupSlot])

theorem LengthOk.taskTo (h : s.LengthOk) (htasks : s.Tasks)
    (hto : TaskTo s t) : t.LengthOk := by
  intro j k event hfly hticket hevent
  -- an event that was there before is still the same
  have hold : ∀ {more}, SameTask s t j → t.tickets j = s.tickets j →
      t.dequeued = s.dequeued ++ more → (t.reqs j).data2 = event.pathLen := by
    intro more hsame htick hdeq
    rw [hsame.1] at hfly
    rw [htick] at hticket
    rw [hdeq, List.getElem?_append_left (htasks.lt j k hfly hticket)] at hevent
    rw [hsame.2]
    exact h j k event hfly hticket hevent
  cases hto with
  | same hslots htickets hdequeued hrecords herrors =>
    exact hold (hslots j) (by rw [htickets])
      (hdequeued.trans (List.append_nil _).symm)
  | begun i events ticket hfree hbusy hother hnew htickets hdequeued hrecords
      herrors =>
    by_cases hj : j = i
    · subst hj
      rw [htickets, Function.update_self] at hticket
      cases hnew with
      | nothing => exact absurd hticket (by simp)
      | event event' hlen =>
        obtain rfl := Option.some.inj hticket
        rw [hdequeued, List.getElem?_concat_length] at hevent
        rw [hlen, Option.some.inj hevent]
    · exact hold (hother j hj) (by rw [htickets, Function.update_of_ne hj])
        hdequeued
  | ended i hbusy hfree hother htickets hdequeued hsettles =>
    have hj : j ≠ i := by
      rintro rfl
      exact absurd (hfree.symm.trans hfly) (by decide)
    exact hold (hother j hj) (by rw [htickets])
      (hdequeued.trans (List.append_nil _).symm)

end Sys

end Ride
