import Ride.Processor.Poll
import Ride.Processor.Safety

/-!
# No slot is orphaned while the ring has room

No caller of `ev_iou_req` looks at its return value.  A submission that the full
ring refuses is lost: its slot stays in flight, and nothing that could complete
for it is left.  `slot_orphaned_by_full_ring` is a run in which this happens.

Where the submissions of slots and of the poll find room, nothing is lost.
`Sys.Inv` has the slots already, and `Sys.PollInv` has the poll.
`no_slot_orphaned_with_room` puts the two together.
-/

namespace Ride

open CodeLib CodeLib.Machine

namespace Sys

variable {B : Blake3} {n : Nat} {i : Fin n} {s t : Sys B n}

/-! ## The submissions that must not be lost -/

/-- Slots and the poll are lost when a submission of them is refused. -/
def Vital : ReqPtr n → Prop
  | .slot _ => True
  | .queuePoll => True
  | _ => False

instance : DecidablePred (Vital (n := n)) := fun r =>
  match r with
  | .slot _ => isTrue trivial
  | .queuePoll => isTrue trivial
  | .conn => isFalse not_false
  | .recv => isFalse not_false
  | .timer => isFalse not_false

/-- The request that the running callback submits next. -/
def nextSubmit : List (Cmd n) → Option (ReqPtr n)
  | .submit r :: _ => some r
  | _ => none

/-- A step that calls `ev_iou_req` for a slot or for the poll finds room in the
submission ring. -/
def RoomForVital (s : Sys B n) : SysStep n → Prop
  | .proceed _ => ∀ r ∈ nextSubmit s.todo, Vital r →
      s.sq.pending.length < s.sq.mask.size
  | _ => True

instance (s : Sys B n) : DecidablePred s.RoomForVital := fun a =>
  match a with
  | .proceed _ => inferInstanceAs (Decidable (∀ r ∈ _, _))
  | .kernel _ => isTrue trivial
  | .load => isTrue trivial
  | .dispatch _ => isTrue trivial
  | .publish => isTrue trivial

/-- A submission that finds room is not refused. -/
theorem submit_vital (s : Sys B n) (ans : Answers) {r r' : ReqPtr n}
    {rest : List (Cmd n)} (htodo : s.todo = .submit r :: rest)
    (hroom : s.RoomForVital (.proceed ans))
    (hr : r' ∈ ({ s with todo := rest }.submit r).refused) :
    r' ∈ s.refused ∨ ¬ Vital r' := by
  by_cases hspace : s.sq.pending.length < s.sq.mask.size
  · rw [(submit_moves htodo hspace).2.2] at hr
    exact Or.inl hr
  · rw [(submit_refused htodo (Nat.le_of_not_lt hspace)).2.2,
      List.mem_append, List.mem_singleton] at hr
    rcases hr with hr | rfl
    · exact Or.inl hr
    · refine Or.inr fun hvital => hspace (hroom r' ?_ hvital)
      rw [htodo]
      rfl

/-- The invariant of a run in which the vital submissions find room. -/
structure Unrefused (s : Sys B n) : Prop where
  alive : s.Alive
  refused : ∀ r ∈ s.refused, ¬ Vital r

theorem Unrefused.effect (h : s.Unrefused) {a : SysStep n}
    (hroom : s.RoomForVital a) (heff : Effect s a t) :
    ∀ r ∈ t.refused, ¬ Vital r := by
  cases heff with
  | stutter => exact h.refused
  | idle => exact h.refused
  | kernel act hto => cases hto <;> exact h.refused
  | reaper => exact h.refused
  | dispatch ans htodo hout =>
    cases hout with
    | idle => exact h.refused
    | slot cqe hcur hreq hheld hout =>
      rw [hout.quiet.refused, (s.deliver_reaped cqe).refused]
      exact h.refused
    | fixed cqe hcur hfixed hinv hidle hout =>
      rw [hout.quiet.refused, (s.deliver_reaped cqe).refused]
      exact h.refused
  | submit ans htodo =>
    intro r hr
    rcases submit_vital s ans htodo hroom hr with hold | hnot
    · exact h.refused r hold
    · exact hnot
  | flush ans htodo hout =>
    rw [hout.quiet.refused]
    exact h.refused

theorem Unrefused.step (h : s.Unrefused) (a : SysStep n)
    (hroom : s.RoomForVital a) : (s.step a).Unrefused := by
  refine ⟨h.alive.step a, ?_⟩
  by_cases hrun : s.halted = none
  · exact h.effect hroom ((h.alive.good.inv hrun).effect hrun a)
  · rw [step_of_halted hrun]
    exact h.refused

/-! ## The result -/

/-- Every slot in flight is named exactly once, the poll is named, and every
event that was taken from the queue has a slot that is named once, an error or a
line of the output. -/
structure NoOrphans (s : Sys B n) : Prop where
  slots : ∀ i, (s.reqs i).inFlight = true → s.countNaming (.slot i) = 1
  poll : 0 < s.countNaming .queuePoll
  events : ∀ k < s.dequeued.length,
    (∃ i, (s.reqs i).inFlight = true ∧ s.tickets i = some k ∧
      s.countNaming (.slot i) = 1) ∨
    some k ∈ s.errors ∨ ∃ r ∈ s.records, r.ticket = some k

/-- Between callbacks everything is in the rings. -/
theorem countNaming_of_idle (htodo : s.todo = []) (r : ReqPtr n) :
    s.countNaming r = (s.outstanding r).card := by
  rw [countNaming, Multiset.countP_eq_card_filter, outstanding, transit, htodo]
  simp

theorem Unrefused.noOrphans (h : s.Unrefused) (hrun : s.halted = none)
    (htodo : s.todo = []) : s.NoOrphans := by
  have hinv := h.alive.good.inv hrun
  have hslots : ∀ i, (s.reqs i).inFlight = true →
      s.countNaming (.slot i) = 1 := by
    intro i hfly
    obtain ⟨stage, -, hcar⟩ := (hinv.slots i (by simp)).busy hfly
    rw [countNaming_of_idle htodo]
    rcases hcar with ⟨-, hrefused⟩ | ⟨p, hp, -⟩
    · exact absurd trivial (h.refused _ hrefused)
    · rw [hp, Multiset.card_singleton]
  refine ⟨hslots, ?_, ?_⟩
  · rw [countNaming_of_idle htodo, Multiset.card_pos_iff_exists_mem]
    rcases (h.alive.poll hrun).live with hrefused | ⟨p, hp, hfor, -⟩
    · exact absurd trivial (h.refused _ hrefused)
    · exact ⟨p, mem_outstanding.mpr ⟨hp, hfor⟩⟩
  · intro k hk
    rcases hinv.tasks.accounted k hk with ⟨i, hfly, hticket⟩ | hdone
    · exact Or.inl ⟨i, hfly, hticket, hslots i hfly⟩
    · exact Or.inr hdone

/-- In every run in which the submissions of slots and of the poll find room,
nothing is orphaned between callbacks. -/
theorem no_slot_orphaned_with_room [NeZero n] (boot : Boot n)
    (sched : List (SysStep n))
    (hroom : Meets Sys.step RoomForVital (processorRun B boot) sched) :
    let s := run Sys.step (processorRun B boot) sched
    s.halted = none → s.todo = [] → s.NoOrphans := by
  intro s hrun htodo
  have hstart : (processorRun B boot).Unrefused :=
    ⟨alive_processorRun boot, fun r hr => absurd hr List.not_mem_nil⟩
  have hkept : s.Unrefused :=
    run_invariant_of_meets (fun _ a h => h.step a) hstart hroom
  exact hkept.noOrphans hrun htodo

theorem no_slot_orphaned_in_printedRun :
    let s := run Sys.step (processorRun .concat (Boot.zeroed 1)) printedRun
    s.dequeued.length = 1 ∧ s.NoOrphans :=
  ⟨by decide +kernel, no_slot_orphaned_with_room (Boot.zeroed 1) printedRun
    (by decide +kernel) (by decide +kernel) (by decide +kernel)⟩

/-- One more notification than the ring has entries, reaped in one batch while
the kernel takes no entry. -/
def burstRun : List (SysStep 256) :=
  let ans := Answers.event [47]
  [.proceed ans, .proceed ans, .kernel .consume, .kernel .consume] ++
  List.replicate 129 (.kernel (.notify 0 1 2)) ++ [.load] ++
  (List.replicate 129 [.dispatch ans, .proceed ans]).flatten

/-- The submission of the last event is refused: its slot is in flight, nothing
names it, and the event has neither an error nor a line of the output. -/
theorem slot_orphaned_by_full_ring :
    let s := run Sys.step (processorRun .concat (Boot.zeroed 256)) burstRun
    s.halted = none ∧ s.todo = [] ∧ (s.reqs 128).inFlight = true ∧
      s.tickets 128 = some 128 ∧ s.countNaming (.slot 128) = 0 ∧
      s.dequeued.length = 129 ∧ s.errors = [] ∧ s.records = [] := by
  decide +kernel

end Sys

end Ride
