import Ride.Processor.Fixed
import Ride.Processor.Safety
import Ride.System.Ledger

/-!
# What an event costs

`on_file_read` asks for the next piece of a file until a read returns nothing.
Every read that it asks for begins behind the bytes that it has, so an event takes
at most two completions more than its file has bytes, one for the open and one for
the read at the end, in every run and however short the reads are.  Whether the
kernel completes a read at all is another matter.
-/

namespace Ride

open CodeLib CodeLib.Machine

namespace Sys

variable {B : Blake3} {n : Nat} {i : Fin n} {s t : Sys B n}

/-! ## What a step does to the reads -/

/-- The completions that the slot can have behind it: the open, and one for every
byte in front of its offset. -/
def passed (s : Sys B n) (i : Fin n) : Nat :=
  if (s.reqs i).req.callback = some .onFileRead then
    1 + (s.reqs i).req.off.off.toNat
  else 0

/-- The ticket of the slot whose completion a step dispatches. -/
def served (s : Sys B n) : SysStep n → List (Option Nat)
  | .dispatch _ =>
    if s.halted = none ∧ s.todo = [] then
      s.cq.current.toList.flatMap fun cqe => match cqe.userData.req with
        | .slot i => [s.tickets i]
        | _ => []
    else []
  | _ => []

/-- The slot is on the same side of the list, and its file at the same
place. -/
def SamePlace (s t : Sys B n) (j : Fin n) : Prop :=
  (t.reqs j).inFlight = (s.reqs j).inFlight ∧ t.passed j = s.passed j

/-- A step runs the callback of no slot, and may begin a task, or it runs the
callback of a slot, which moves on or ends its task. -/
inductive ServedTo (s t : Sys B n) : List (Option Nat) → Prop where
  | quiet (hslots : ∀ j, SamePlace s t j) (htickets : t.tickets = s.tickets)
      (hdequeued : t.dequeued = s.dequeued) : ServedTo s t []
  | begun (i : Fin n) (events : List Event) (ticket : Option Nat)
      (hother : ∀ j, j ≠ i → SamePlace s t j)
      (hnew : ticket = none ∨ ticket = some s.dequeued.length ∧ events ≠ [])
      (htickets : t.tickets = Function.update s.tickets i ticket)
      (hdequeued : t.dequeued = s.dequeued ++ events) : ServedTo s t []
  | moved (i : Fin n) (hbusy : (s.reqs i).inFlight = true)
      (hother : ∀ j, j ≠ i → SamePlace s t j)
      (hmoves : (t.reqs i).inFlight = true → s.passed i < t.passed i)
      (htickets : t.tickets = s.tickets)
      (hdequeued : t.dequeued = s.dequeued) : ServedTo s t [s.tickets i]

theorem SamePlace.of_reqs {j : Fin n} (h : t.reqs j = s.reqs j) :
    SamePlace s t j := by
  rw [SamePlace, passed, passed, h]
  exact ⟨rfl, rfl⟩

theorem SamePlace.of_update {slot : Slot B.State n}
    (h : t.reqs = Function.update s.reqs i slot) {j : Fin n} (hj : j ≠ i) :
    SamePlace s t j :=
  .of_reqs (by rw [h, Function.update_of_ne hj])

theorem samePlace_deliver (s : Sys B n) (cqe : Cqe (Name n)) (j : Fin n) :
    SamePlace s (s.deliver cqe) j := by
  obtain ⟨res, flags, hreqs⟩ := s.deliver_reqs_at cqe j
  rw [SamePlace, passed, passed, hreqs]
  exact ⟨rfl, rfl⟩

theorem SamePlace.of_deliver {cqe : Cqe (Name n)} {j : Fin n}
    (h : SamePlace (s.deliver cqe) t j) : SamePlace s t j :=
  have hdel := s.samePlace_deliver cqe j
  ⟨h.1.trans hdel.1, h.2.trans hdel.2⟩

theorem ReadsFile.passed_eq {path : Bytes} {id off : Nat} {file : File}
    (h : s.ReadsFile i path id file off) : s.passed i = 1 + off := by
  have hle := h.off_le
  have hlt := file.size_lt
  rw [passed, if_pos h.callback, h.off_eq, Word.num, UInt64.toNat_ofNat',
    Nat.mod_eq_of_lt (by omega)]

theorem passed_of_callback (h : (s.reqs i).req.callback ≠ some .onFileRead) :
    s.passed i = 0 :=
  if_neg h

/-- The callback of a slot moves on or ends the task. -/
theorem SlotOutcome.servedTo {stage : Stage} {ans : Answers}
    (h : s.Held i stage) (hout : SlotOutcome s i ans t)
    (hrun : t.halted = none) : ServedTo s t [s.tickets i] := by
  have hfreed : ∀ {hasher data2 strings fds records errors},
      ServedTo s (s.freed i (s.releasedSlot i hasher data2) strings fds records
        errors) [s.tickets i] := by
    intro hasher data2 strings fds records errors
    refine .moved i h.inFlight (fun j hj => .of_update rfl hj) ?_ rfl rfl
    intro hfly
    simp [Sys.freed, releasedSlot] at hfly
  cases hout with
  | openFailed | readFailed | printed | updated => exact hfreed
  | verifyFailed => exact absurd hrun (by simp [Sys.halt])
  | opened hfits =>
    refine .moved i h.inFlight (fun j hj => .of_update rfl hj) (fun _ => ?_)
      rfl rfl
    rw [passed_of_callback (s := s) (by simp [hfits.callback]), passed,
      Sys.resumed]
    simp only [Function.update_self, readSlot, if_true]
    omega
  | @readMore path id off r file hfits hres hpos hdel =>
    refine .moved i h.inFlight (fun j hj => .of_update rfl hj) (fun _ => ?_)
      rfl rfl
    have hle : off + r ≤ file.content.length := by
      have hoff := hfits.off_le
      have hr := hdel.reads.2.1
      omega
    have hlt := file.size_lt
    rw [hfits.passed_eq, passed, Sys.resumed]
    simp only [Function.update_self, moreSlot, hfits.callback, if_true]
    rw [UInt64.toNat_add, UInt64.toNat_ofNat', UInt64.toNat_ofNat',
      Nat.mod_eq_of_lt (a := off) (by omega), Nat.mod_eq_of_lt (a := r) (by omega),
      Nat.mod_eq_of_lt (by omega)]
    omega

/-- The first slot of the list is prepared for a task. -/
theorem servedTo_prepared {slot : Slot B.State n} {ticket : Option Nat}
    {events : List Event}
    (hnew : ticket = none ∨ ticket = some s.dequeued.length ∧ events ≠ [])
    (strings : Nat → Option (Bytes × Fin n)) (nextString : Nat)
    (expiry : Int × Int) (rest : List (Cmd n)) :
    ServedTo s (s.prepared i slot ticket events strings nextString expiry rest)
      [] :=
  .begun i events ticket (fun _ hj => .of_update rfl hj) hnew rfl rfl

theorem ServedTo.of_reqs (hreqs : t.reqs = s.reqs)
    (htickets : t.tickets = s.tickets) (hdequeued : t.dequeued = s.dequeued) :
    ServedTo s t [] :=
  .quiet (fun j => .of_reqs (by rw [hreqs])) htickets hdequeued

theorem FixedOutcome.servedTo {r : ReqPtr n} {ans : Answers}
    (hout : FixedOutcome s r ans t) (hrun : t.halted = none) :
    ServedTo s t [] := by
  cases hout with
  | ended hend => exact absurd hrun hend.halted
  | taken event events ticket rest hhead hnew hrest =>
    refine servedTo_prepared ?_ _ _ _ _
    rcases hnew with ⟨-, rfl, rfl, -⟩ | ⟨-, rfl, rfl⟩
    · exact Or.inl rfl
    · exact Or.inr ⟨rfl, List.cons_ne_nil _ _⟩
  | _ => exact .of_reqs rfl rfl rfl

theorem FlushOutcome.servedTo {ans : Answers} (hout : FlushOutcome s ans t)
    (hrun : t.halted = none) : ServedTo s t [] := by
  cases hout with
  | ended hend => exact absurd hrun hend.halted
  | armed htimer => exact .of_reqs rfl rfl rfl
  | updating htimer hhead => exact servedTo_prepared (Or.inl rfl) _ _ _ _

/-- Storing the result of a completion moves no slot. -/
theorem ServedTo.of_deliver {cqe : Cqe (Name n)} {tickets : List (Option Nat)}
    (h : ServedTo (s.deliver cqe) t tickets) : ServedTo s t tickets := by
  have hdel := s.deliver_reaped cqe
  cases h with
  | quiet hslots htickets hdequeued =>
    exact .quiet (fun j => (hslots j).of_deliver) (htickets.trans hdel.tickets)
      (hdequeued.trans hdel.dequeued)
  | begun i events ticket hother hnew htickets hdequeued =>
    rw [hdel.tickets] at htickets
    rw [hdel.dequeued] at hnew hdequeued
    exact .begun i events ticket (fun j hj => (hother j hj).of_deliver) hnew
      htickets hdequeued
  | moved i hbusy hother hmoves htickets hdequeued =>
    obtain ⟨hfly, hpassed⟩ := s.samePlace_deliver cqe i
    rw [hdel.tickets] at htickets ⊢
    rw [hpassed] at hmoves
    exact .moved i (hfly.symm.trans hbusy) (fun j hj => (hother j hj).of_deliver)
      hmoves htickets (hdequeued.trans hdel.dequeued)

/-! ## The slot of a completion -/

theorem served_slot {cqe : Cqe (Name n)} (hlive : s.halted = none)
    (htodo : s.todo = []) (hcur : s.cq.current = some cqe)
    (hreq : cqe.userData.req = .slot i) (ans : Answers) :
    s.served (.dispatch ans) = [s.tickets i] := by
  simp only [served, if_pos (And.intro hlive htodo), hcur, Option.toList_some,
    List.flatMap_singleton, hreq]

theorem served_fixed {cqe : Cqe (Name n)} (hcur : s.cq.current = some cqe)
    (hreq : cqe.userData.req.container = none) (ans : Answers) :
    s.served (.dispatch ans) = [] := by
  simp only [served, hcur, Option.toList_some, List.flatMap_singleton]
  cases hr : cqe.userData.req with
  | slot i => exact absurd (hr ▸ hreq) (by simp [ReqPtr.container])
  | _ => simp only [ite_self]

/-- What a step of a live run does to the reads. -/
theorem Effect.servedTo (hlive : s.halted = none) {a : SysStep n}
    (heff : Effect s a t) (hrun : t.halted = none) :
    ServedTo s t (s.served a) := by
  cases heff with
  | stutter _ hbusy hloop =>
    have hnone : s.served a = [] := by
      rcases hloop with rfl | rfl | ⟨ans, rfl⟩
      · rfl
      · rfl
      · exact if_neg fun hidle => hbusy hidle.2
    rw [hnone]
    exact .of_reqs rfl rfl rfl
  | idle ans htodo => exact .of_reqs rfl rfl rfl
  | kernel act hto =>
    show ServedTo s t []
    cases hto <;> exact .of_reqs rfl rfl rfl
  | reaper _ cq hwf hsame hloop =>
    have hnone : s.served a = [] := by rcases hloop with rfl | rfl <;> rfl
    rw [hnone]
    exact .of_reqs rfl rfl rfl
  | submit ans htodo =>
    exact .of_reqs rfl rfl rfl
  | flush ans htodo hout =>
    show ServedTo s t []
    cases hout.servedTo hrun with
    | quiet hslots htickets hdequeued => exact .quiet hslots htickets hdequeued
    | begun i events ticket hother hnew htickets hdequeued =>
      exact .begun i events ticket hother hnew htickets hdequeued
  | dispatch ans htodo hout =>
    cases hout with
    | idle hcur =>
      have hnone : s.served (.dispatch ans) = [] := by simp [served, hcur]
      rw [hnone]
      exact .of_reqs rfl rfl rfl
    | slot cqe hcur hreq hheld hout =>
      rw [served_slot hlive htodo hcur hreq, ← (s.deliver_reaped cqe).tickets]
      exact (hout.servedTo hheld hrun).of_deliver
    | fixed cqe hcur hfixed hinv hidle hout =>
      rw [served_fixed hcur hfixed]
      exact (hout.servedTo hrun).of_deliver

/-- A slot whose completion is dispatched has not gone beyond the end of its
file. -/
theorem Held.passed_le {stage : Stage} (h : s.Held i stage) :
    s.passed i = 0 ∨ ∃ path file, ⟨s.tickets i, path, file⟩ ∈ s.opens ∧
      s.passed i ≤ 1 + file.content.length := by
  have hfits := h.fits
  cases stage with
  | opening path id =>
    have hopen : s.OpensFile i path id := hfits
    exact Or.inl (passed_of_callback (by simp [hopen.callback]))
  | updating =>
    have hupdate : s.UpdatesTimer i := hfits
    exact Or.inl (passed_of_callback (by simp [hupdate.callback]))
  | reading path id file off =>
    have hread : s.ReadsFile i path id file off := hfits
    refine Or.inr ⟨path, file, hread.opened, ?_⟩
    rw [hread.passed_eq]
    exact Nat.add_le_add_left hread.off_le 1

/-- A step that runs the callback of a slot. -/
theorem Inv.served_cases (h : Inv none s) (hlive : s.halted = none)
    (a : SysStep n) :
    s.served a = [] ∨ ∃ i, s.served a = [s.tickets i] ∧
      (s.reqs i).inFlight = true ∧ (s.passed i = 0 ∨
        ∃ path file, ⟨s.tickets i, path, file⟩ ∈ s.opens ∧
          s.passed i ≤ 1 + file.content.length) := by
  cases a with
  | dispatch ans =>
    by_cases htodo : s.todo = []
    · have hout := h.dispatched htodo ans
      generalize s.dispatch ans = t at hout
      cases hout with
      | idle hcur => exact Or.inl (by simp [served, hcur])
      | slot cqe hcur hreq hheld hout =>
        obtain ⟨hfly, hpassed⟩ := s.samePlace_deliver cqe _
        refine Or.inr ⟨_, served_slot hlive htodo hcur hreq ans,
          hfly.symm.trans hheld.inFlight, ?_⟩
        have hle := hheld.passed_le
        rw [hpassed, (s.deliver_reaped cqe).tickets,
          (s.deliver_reaped cqe).opens] at hle
        exact hle
      | fixed cqe hcur hfixed hinv hidle hout =>
        exact Or.inl (served_fixed hcur hfixed ans)
    · exact Or.inl (if_neg fun hidle => htodo hidle.2)
  | _ => exact Or.inl rfl

/-! ## The runs -/

/-- At most one, or two more than the bytes of a file that was opened for the
event. -/
def Bounded (s : Sys B n) (k count : Nat) : Prop :=
  count ≤ 1 ∨ ∃ path file, ⟨some k, path, file⟩ ∈ s.opens ∧
    count ≤ file.content.length + 2

/-- The completions that an event has cost, in a run with its dispatches. -/
structure Counted (x : Sys B n × List (Option Nat)) : Prop where
  live : Live (fun _ => True) x.1
  fresh : x.1.halted = none → ∀ k, x.1.dequeued.length ≤ k →
    x.2.count (some k) = 0
  busy : x.1.halted = none → ∀ i k, (x.1.reqs i).inFlight = true →
    x.1.tickets i = some k → x.2.count (some k) ≤ x.1.passed i
  bounded : ∀ k, x.1.Bounded k (x.2.count (some k))

theorem count_singleton_ne {k : Nat} {ticket : Option Nat}
    (h : ticket ≠ some k) : [ticket].count (some k) = 0 :=
  List.count_eq_zero_of_not_mem fun hmem => h (List.mem_singleton.mp hmem).symm

theorem Counted.fresh_step {x : Sys B n × List (Option Nat)} (h : Counted x)
    (hlive : x.1.halted = none) {tickets : List (Option Nat)}
    (hto : ServedTo x.1 t tickets) (k : Nat) (hk : t.dequeued.length ≤ k) :
    (x.2 ++ tickets).count (some k) = 0 := by
  rw [List.count_append]
  cases hto with
  | quiet hslots htickets hdequeued =>
    rw [hdequeued] at hk
    rw [h.fresh hlive k hk]
    rfl
  | begun i events ticket hother hnew htickets hdequeued =>
    rw [hdequeued, List.length_append] at hk
    rw [h.fresh hlive k (by omega)]
    rfl
  | moved i hbusy hother hmoves htickets hdequeued =>
    rw [hdequeued] at hk
    rw [h.fresh hlive k hk, count_singleton_ne]
    intro hticket
    have hlt := (h.live.good.inv hlive).tasks.lt i k hbusy hticket
    omega

theorem Counted.busy_step {x : Sys B n × List (Option Nat)} (h : Counted x)
    (hlive : x.1.halted = none) {tickets : List (Option Nat)}
    (hto : ServedTo x.1 t tickets) {j : Fin n} {k : Nat}
    (hfly : (t.reqs j).inFlight = true) (hticket : t.tickets j = some k) :
    (x.2 ++ tickets).count (some k) ≤ t.passed j := by
  rw [List.count_append]
  cases hto with
  | quiet hslots htickets hdequeued =>
    rw [(hslots j).1] at hfly
    rw [htickets] at hticket
    rw [(hslots j).2]
    exact h.busy hlive j k hfly hticket
  | begun i events ticket hother hnew htickets hdequeued =>
    rw [htickets] at hticket
    by_cases hj : j = i
    · -- a new task has the number of the next event
      subst hj
      rw [Function.update_self] at hticket
      rcases hnew with hnone | ⟨hnext, -⟩
      · exact absurd (hnone.symm.trans hticket) (by simp)
      · obtain rfl := Option.some.inj (hnext.symm.trans hticket)
        rw [h.fresh hlive _ le_rfl]
        exact Nat.zero_le _
    · rw [Function.update_of_ne hj] at hticket
      rw [(hother j hj).1] at hfly
      rw [(hother j hj).2]
      exact h.busy hlive j k hfly hticket
  | moved i hbusy hother hmoves htickets hdequeued =>
    rw [htickets] at hticket
    by_cases hj : j = i
    · subst hj
      have hcount := h.busy hlive j k hbusy hticket
      have hlt := hmoves hfly
      rw [hticket, List.count_singleton_self]
      omega
    · -- no other slot works for the event
      rw [(hother j hj).1] at hfly
      have hne : x.1.tickets i ≠ some k := fun hi => hj
        ((h.live.good.inv hlive).tasks.inj j i k hfly hbusy hticket hi)
      rw [count_singleton_ne hne, (hother j hj).2]
      exact h.busy hlive j k hfly hticket

theorem Counted.bounded_step {x : Sys B n × List (Option Nat)} (h : Counted x)
    (hlive : x.1.halted = none) (a : SysStep n) (k : Nat) :
    (x.1.step a).Bounded k ((x.2 ++ x.1.served a).count (some k)) := by
  have hopens := (x.1.past_step a).2.subset
  have hold : (x.2 ++ x.1.served a).count (some k) = x.2.count (some k) →
      (x.1.step a).Bounded k ((x.2 ++ x.1.served a).count (some k)) := by
    intro hsame
    rw [hsame]
    refine (h.bounded k).imp_right ?_
    rintro ⟨path, file, hmem, hle⟩
    exact ⟨path, file, hopens hmem, hle⟩
  rcases (h.live.good.inv hlive).served_cases hlive a with
    hnone | ⟨i, hserved, hbusy, hplace⟩
  · exact hold (by rw [hnone, List.append_nil])
  · by_cases hticket : x.1.tickets i = some k
    · have hcount := h.busy hlive i k hbusy hticket
      rw [hserved, hticket, List.count_append, List.count_singleton_self]
      rcases hplace with hzero | ⟨path, file, hmem, hle⟩
      · exact Or.inl (by omega)
      · rw [hticket] at hmem
        exact Or.inr ⟨path, file, hopens hmem, by omega⟩
    · refine hold ?_
      rw [hserved, List.count_append, count_singleton_ne hticket]
      rfl

theorem Counted.step {x : Sys B n × List (Option Nat)} (h : Counted x)
    (a : SysStep n) : Counted (traced Sys.step served x a) := by
  by_cases hlive : x.1.halted = none
  · have heff := (h.live.good.inv hlive).effect hlive a
    refine ⟨h.live.step (fun _ _ _ _ _ _ _ => trivial) a, ?_, ?_,
      h.bounded_step hlive a⟩
    · intro hrun
      exact h.fresh_step hlive (heff.servedTo hlive hrun)
    · intro hrun i k hfly hticket
      exact h.busy_step hlive (heff.servedTo hlive hrun) hfly hticket
  · have hnone : x.1.served a = [] := by
      cases a with
      | dispatch ans => exact if_neg fun hidle => hlive hidle.1
      | _ => rfl
    have hsame : traced Sys.step served x a = x := by
      rw [traced, step_of_halted hlive, hnone, List.append_nil]
    rw [hsame]
    exact h

/-- In every run of a processor, an event costs at most one completion, or, where a
file was opened for it, at most two more than the file has bytes, however short the
reads are. -/
theorem completions_bounded [NeZero n] (boot : Boot n)
    (sched : List (SysStep n)) (k : Nat) :
    let x := run (traced Sys.step served) (processorRun B boot, []) sched
    x.2.count (some k) ≤ 1 ∨ ∃ path file, ⟨some k, path, file⟩ ∈ x.1.opens ∧
      x.2.count (some k) ≤ file.content.length + 2 := by
  intro x
  have hcounted : Counted x :=
    run_invariant (fun _ a h => h.step a)
      ⟨live_processorRun boot trivial, fun _ _ _ => rfl,
        fun _ _ _ _ _ => Nat.zero_le _, fun _ => Or.inl (Nat.zero_le _)⟩ sched
  exact hcounted.bounded k

/-- The file of three bytes is opened, read, and read at its end. -/
theorem completions_bounded_in_printedRun :
    let x := run (traced Sys.step served)
      (processorRun .concat (Boot.zeroed 1), []) printedRun
    x.2.count (some 0) = 3 ∧ (x.2.count (some 0) ≤ 1 ∨ ∃ path file,
      ⟨some 0, path, file⟩ ∈ x.1.opens ∧
        x.2.count (some 0) ≤ file.content.length + 2) :=
  ⟨by decide +kernel, completions_bounded (Boot.zeroed 1) printedRun 0⟩

end Sys

end Ride
