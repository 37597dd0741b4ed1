import Mathlib.Data.Fintype.Sum
import Ride.Processor.Fixed
import Ride.Processor.Orphans

/-!
# A ring that is large enough

The submission ring has 128 entries, and `-c` can ask for up to 256 tasks.  This
module has the number of tasks up to which no submission is ever refused.

The requests of a processor form lines, and each line has one thing on its way
at most: a slot, the poll of the queue, the socket with its connect and its
reads, and the timer.  Notifications of the poll do not count, for the operation
behind them goes on.  There are `n + 3` lines, and this is all that the ring has
to hold.

* `Pending.InLine` assigns what is on its way to a line, and
  `length_pending_lt` is the bound for a step that submits.
* `Sys.Lined` is the invariant.  No step lengthens a line, apart from the flush
  that arms the timer (`Lined.effect`).  The poll is submitted again behind an
  error without a look at `IORING_CQE_F_MORE`, so that the invariant needs an
  assumption about the kernel: a poll that reports an error is over.
* `no_submission_refused` is the result.
-/

namespace Ride

open CodeLib CodeLib.Machine

/-! ## Lines -/

/-- The lines of the requests outside of the slab. -/
inductive FixedLine where
  | poll
  | socket
  | timer
deriving DecidableEq

instance : Fintype FixedLine :=
  ⟨{.poll, .socket, .timer}, fun l => by cases l <;> decide⟩

/-- The line of a request.  The connect follows the socket, and the reads follow
the connect. -/
def ReqPtr.line {n : Nat} : ReqPtr n → Fin n ⊕ FixedLine
  | .slot i => .inl i
  | .queuePoll => .inr .poll
  | .conn => .inr .socket
  | .recv => .inr .socket
  | .timer => .inr .timer

namespace ReqPtr

variable {n : Nat}

@[simp] theorem line_slot (i : Fin n) : (slot i).line = .inl i := rfl

@[simp] theorem line_queuePoll : (queuePoll (n := n)).line = .inr .poll := rfl

@[simp] theorem line_conn : (conn (n := n)).line = .inr .socket := rfl

@[simp] theorem line_recv : (recv (n := n)).line = .inr .socket := rfl

@[simp] theorem line_timer : (timer (n := n)).line = .inr .timer := rfl

end ReqPtr

namespace Pending

variable {n : Nat}

/-- It is not a notification of the poll. -/
def Counts : Pending n → Prop
  | .cqe c => c.userData.req = .queuePoll → Sys.hasMore c.flags = false
  | _ => True

/-- It is the turn of the line. -/
def InLine (l : Fin n ⊕ FixedLine) (p : Pending n) : Prop :=
  p.target.map ReqPtr.line = some l ∧ p.Counts

instance : DecidablePred (Counts (n := n)) := fun p =>
  match p with
  | .cqe _ => inferInstanceAs (Decidable (_ → _))
  | .cmd _ => isTrue trivial
  | .sqe _ => isTrue trivial
  | .op _ => isTrue trivial

instance (l : Fin n ⊕ FixedLine) : DecidablePred (InLine l) := fun p =>
  inferInstanceAs (Decidable (_ ∧ p.Counts))

/-- What belongs to a request is in the line of the request. -/
theorem InLine.exists_for {l : Fin n ⊕ FixedLine} {p : Pending n}
    (h : p.InLine l) : ∃ r, p.For r ∧ r.line = l :=
  Option.map_eq_some_iff.mp h.1

theorem InLine.of_target {l : Fin n ⊕ FixedLine} {p p' : Pending n}
    (htarget : p'.target = p.target) (hcounts : p.Counts) (h : p'.InLine l) :
    p.InLine l :=
  ⟨htarget ▸ h.1, hcounts⟩

end Pending

/-- Where every key has one element at most, there are no more elements than
keys. -/
theorem card_le_of_countP_le_one {α ι : Type} [Fintype ι] [DecidableEq ι]
    (key : α → Option ι) (m : Multiset α) (hkey : ∀ a ∈ m, key a ≠ none)
    (hone : ∀ i, m.countP (fun a => key a = some i) ≤ 1) :
    m.card ≤ Fintype.card ι := by
  have hle : m.map key ≤ (Finset.univ : Finset ι).val.map some := by
    rw [Multiset.le_iff_count]
    intro x
    cases x with
    | none =>
      rw [Multiset.count_eq_zero_of_notMem]
      · exact Nat.zero_le _
      · intro hmem
        obtain ⟨a, ha, hnone⟩ := Multiset.mem_map.mp hmem
        exact hkey a ha hnone
    | some i =>
      have huniv : ((Finset.univ : Finset ι).val.map some).count (some i) = 1 :=
        Multiset.count_eq_one_of_mem
          (Finset.univ.nodup.map (Option.some_injective ι))
          (Multiset.mem_map_of_mem some (Finset.mem_univ i))
      rw [huniv, Multiset.count_map, ← Multiset.countP_eq_card_filter]
      simpa only [eq_comm] using hone i
  have hcard := Multiset.card_le_card hle
  rwa [Multiset.card_map, Multiset.card_map] at hcard

namespace Sys

variable {B : Blake3} {n : Nat} {i : Fin n} {s t : Sys B n}

/-- The number of things on their way for a line. -/
def inLine (s : Sys B n) (l : Fin n ⊕ FixedLine) : Nat :=
  s.transit.countP (Pending.InLine l)

theorem inLine_of_cons {p : Pending n} (h : s.transit = p ::ₘ t.transit)
    (l : Fin n ⊕ FixedLine) :
    s.inLine l = t.inLine l + if p.InLine l then 1 else 0 := by
  rw [inLine, h, Multiset.countP_cons]
  rfl

theorem Moves.inLine_le {p p' : Pending n} (h : Moves s t p p')
    {l : Fin n ⊕ FixedLine} (hle : p'.InLine l → p.InLine l) :
    t.inLine l ≤ s.inLine l := by
  obtain ⟨rest, hs, ht⟩ := h
  rw [inLine, inLine, hs, ht, Multiset.countP_cons, Multiset.countP_cons]
  split
  case isTrue hp' => rw [if_pos (hle hp')]
  case isFalse => exact Nat.add_le_add_left (Nat.zero_le _) _

/-- A slot has one thing on its way at most. -/
theorem Inv.inLine_slot (h : Inv none s) (i : Fin n) :
    s.inLine (.inl i) ≤ 1 := by
  have hcard : (s.outstanding (.slot i)).card ≤ 1 := by
    have hslot := h.slots i (by simp)
    cases hfly : (s.reqs i).inFlight with
    | false => simp [hslot.free hfly]
    | true =>
      obtain ⟨stage, -, hcar⟩ := hslot.busy hfly
      rcases hcar with ⟨hnone, -⟩ | ⟨p, hp, -⟩
      · simp [hnone]
      · simp [hp]
  refine le_trans ?_ hcard
  rw [inLine, Multiset.countP_eq_card_filter]
  refine Multiset.card_le_card (Multiset.monotone_filter_right _ fun p hp => ?_)
  obtain ⟨r, hfor, hline⟩ := hp.exists_for
  rwa [show r = .slot i by cases r <;> simp_all] at hfor

/-- A submission to come and the entries of the ring are in different lines. -/
theorem length_pending_lt (h : Inv none s)
    (hnamed : ∀ q, .sqe q ∈ s.transit → q.userData ≠ none)
    (hone : ∀ l, s.inLine (.inr l) ≤ 1) {r : ReqPtr n} {rest : List (Cmd n)}
    (htodo : s.todo = .submit r :: rest) : s.sq.pending.length < n + 3 := by
  let m : Multiset (Pending n) :=
    .cmd r ::ₘ (s.sq.pending.map Pending.sqe : Multiset (Pending n))
  have hle : m ≤ s.transit := by
    rw [transit, htodo, List.filterMap_cons]
    simp only [Cmd.pending, ← Multiset.cons_coe, Multiset.cons_add, inRings]
    refine Multiset.cons_le_cons _ ?_
    rw [Multiset.add_assoc]
    exact (Multiset.le_add_right _ _).trans (Multiset.le_add_left _ _)
  have hsent : ∀ p ∈ m, p.Counts ∧ p.target ≠ none := by
    intro p hp
    rcases Multiset.mem_cons.mp hp with rfl | hsqe
    · exact ⟨trivial, Option.some_ne_none r⟩
    · obtain ⟨q, -, rfl⟩ := List.mem_map.mp (Multiset.mem_coe.mp hsqe)
      refine ⟨trivial, fun hnone => ?_⟩
      exact hnamed q (Multiset.mem_of_le hle hp) (Option.map_eq_none_iff.mp hnone)
  have hcard := card_le_of_countP_le_one (fun p => p.target.map ReqPtr.line) m
    (fun p hp hnone => (hsent p hp).2 (Option.map_eq_none_iff.mp hnone)) ?_
  · have htotal : Fintype.card (Fin n ⊕ FixedLine) = n + 3 := by
      rw [Fintype.card_sum, Fintype.card_fin]
      rfl
    rw [htotal, Multiset.card_cons, Multiset.coe_card, List.length_map] at hcard
    exact hcard
  · intro l
    have hsame : m.countP (fun p => p.target.map ReqPtr.line = some l) =
        m.countP (Pending.InLine l) :=
      Multiset.countP_congr rfl fun p hp =>
        propext ⟨fun hline => ⟨hline, (hsent p hp).1⟩, fun hline => hline.1⟩
    rw [hsame]
    refine (Multiset.countP_le_of_le _ hle).trans ?_
    cases l with
    | inl i => exact h.inLine_slot i
    | inr l => exact hone l

/-! ## The requests outside of the slab -/

/-- The requests outside of the slab call back what they are for, and only the
request of the poll asks for a poll. -/
structure FixedReqs (s : Sys B n) : Prop where
  queue : ∀ r, r.container = none →
    (s.req r).callback = some .onQueueEvent → r = .queuePoll
  socket : ∀ r, r.container = none →
    (s.req r).callback = some .onSocketCreate ∨
      (s.req r).callback = some .onSocketConnect ∨
      (s.req r).callback = some .onSocketRead → r.line = .inr .socket
  polls : ∀ r, (s.req r).opcode = .pollAdd → r = .queuePoll
  pollSqe : ∀ q, .sqe q ∈ s.transit → q.opcode = .pollAdd →
    (Pending.sqe q).For .queuePoll
  pollOp : ∀ o, .op o ∈ s.transit → o.kind = .poll → o.name.req = .queuePoll
  named : ∀ q, .sqe q ∈ s.transit → q.userData ≠ none

theorem opKind_eq_poll {sqe : Sqe (Word n) (Name n)}
    (h : s.opKind sqe = .poll) : sqe.opcode = .pollAdd := by
  unfold opKind at h
  split at h
  · split at h <;> cases h
  · split at h <;> cases h
  · assumption
  · cases h

theorem FixedReqs.effect (h : s.FixedReqs) (hinv : Inv none s) {a : SysStep n}
    (heff : Effect s a t) (hrun : t.halted = none) : t.FixedReqs := by
  refine ⟨?_, ?_, ?_, ?_, ?_, ?_⟩
  · intro r hr hcall
    cases heff.reqTo hrun r with
    | same r _ _ hsame => exact h.queue r hr (hsame.symm.trans hcall)
    | connects _ hcall' | receives _ hcall' | arms _ hcall' =>
      cases hcall'.symm.trans hcall
    | opens i | reads i | updates i => cases hr
  · intro r hr hcall
    cases heff.reqTo hrun r with
    | same r _ _ hsame => exact h.socket r hr (hsame ▸ hcall)
    | connects | receives => rfl
    | arms _ hcall' => simp [hcall'] at hcall
    | opens i | reads i | updates i => cases hr
  · intro r hop
    cases heff.reqTo hrun r with
    | same r hsame => exact h.polls r (hsame.symm.trans hop)
    | opens i hop' | reads i hop' | updates i hop' | connects hop'
    | receives hop' | arms hop' => cases hop'.symm.trans hop
  · intro q hq hop
    rcases heff.fresh hinv hq with hold | hnew
    · exact h.pollSqe q hold hop
    · cases hnew with
      | sqe r => exact congrArg some (h.polls r hop)
  · intro o ho hkind
    rcases heff.fresh hinv ho with hold | hnew
    · exact h.pollOp o hold hkind
    · cases hnew with
      | @op sqe name hmem hname =>
        have hfor := h.pollSqe sqe hmem (opKind_eq_poll hkind)
        rw [Pending.For, Pending.target, hname] at hfor
        exact Option.some.inj hfor
      | read filled => cases hkind
  · intro q hq
    rcases heff.fresh hinv hq with hold | hnew
    · exact h.named q hold
    · cases hnew with
      | sqe r => exact Option.some_ne_none _

theorem fixedReqs_processorRun [NeZero n] (boot : Boot n) :
    (processorRun B boot).FixedReqs := by
  have htransit : ∀ p ∈ (processorRun B boot).transit,
      p = .cmd .queuePoll ∨ p = .cmd .conn := by
    intro p hp
    rw [transit_processorRun] at hp
    simpa using hp
  refine ⟨?_, ?_, ?_, ?_, ?_, ?_⟩
  · intro r hr hcall
    cases r <;> simp_all [Sys.req, processorRun, ReqPtr.container,
      verifierConnect, EvIoReq.zero]
  · intro r hr hcall
    cases r <;> simp_all [Sys.req, processorRun, ReqPtr.container,
      ReqPtr.line, processorPreparePollReqs, EvIoReq.zero]
  · intro r hop
    cases r <;> simp_all [Sys.req, processorRun, setupSlot, verifierConnect,
      EvIoReq.zero]
  · intro q hq
    rcases htransit _ hq with hp | hp <;> cases hp
  · intro o ho
    rcases htransit _ ho with hp | hp <;> cases hp
  · intro q hq
    rcases htransit _ hq with hp | hp <;> cases hp

/-! ## No step lengthens a line -/

/-- The poll goes on behind a notification, and a notification is no error. -/
def Notifies (s : Sys B n) : Prop :=
  ∀ c, .cqe c ∈ s.transit → c.userData.req = .queuePoll →
    hasMore c.flags = true → 0 ≤ c.res

/-- A poll that reports an error is over. -/
def ErrorsFinal : SysStep n → Prop
  | .kernel (.notify _ res _) => 0 ≤ res
  | _ => True

instance : DecidablePred (ErrorsFinal (n := n)) := fun a =>
  match a with
  | .kernel (.notify _ res _) => inferInstanceAs (Decidable (0 ≤ res))
  | .kernel .consume => isTrue trivial
  | .kernel (.scribble ..) => isTrue trivial
  | .kernel (.fill ..) => isTrue trivial
  | .kernel (.openDone ..) => isTrue trivial
  | .kernel (.complete ..) => isTrue trivial
  | .load => isTrue trivial
  | .dispatch _ => isTrue trivial
  | .proceed _ => isTrue trivial
  | .publish => isTrue trivial

theorem notify_of_last (s : Sys B n) (k : Nat) (res : Int) {flags : UInt32}
    (h : hasMore flags = false) : s.kernel (.notify k res flags) = s := by
  simp only [Sys.kernel, Sys.notify, h]
  split <;> simp

/-- What the kernel does lengthens no line. -/
theorem KernelTo.inLine_le (h : Inv none s) (hreqs : s.FixedReqs)
    {act : KernelAct n} (hto : KernelTo s act t)
    (hmore : ∀ k res flags, act = .notify k res flags → hasMore flags = true)
    (l : FixedLine) : t.inLine (.inr l) ≤ s.inLine (.inr l) := by
  cases hto with
  | same => exact le_rfl
  | @dropped sqe sq htake hname =>
    have hdrop : s.transit = .sqe sqe ::ₘ { s with sq := sq }.transit := by
      rw [transit, (take_inRings h.sq htake).1, Multiset.add_cons]
      rfl
    rw [inLine_of_cons hdrop]
    exact Nat.le_add_right _ _
  | @taken sqe sq name htake hname =>
    refine (consume_moves h.sq htake _).inLine_le (.of_target ?_ trivial)
    simp only [Pending.target, hname, Option.map_some]
  | scribbled => exact le_rfl
  | filled hop buffers =>
    apply Moves.inLine_le
    · exact set_moves hop rfl rfl rfl rfl
    · exact .of_target rfl trivial
  | opened hop hfd hfree hroom =>
    apply Moves.inLine_le
    · exact post_moves h.cq hop hroom rfl rfl rfl rfl
    · exact .of_target rfl trivial
  | @notified k name res flags hop hroom =>
    have hadd := notify_transit
      (t := { s with cq := s.cq.post ⟨name, res, flags⟩ }) h.cq hroom rfl rfl
      rfl rfl
    have hname : name.req = .queuePoll :=
      hreqs.pollOp ⟨name, .poll⟩ (op_mem_transit hop) rfl
    have hnot : ¬ (Pending.cqe ⟨name, res, flags⟩).InLine (.inr l) := by
      intro hin
      have hlast := hin.2 hname
      rw [hmore k res flags rfl] at hlast
      cases hlast
    rw [inLine_of_cons hadd, if_neg hnot]
    exact le_rfl
  | completed hop hallows hroom =>
    apply Moves.inLine_le
    · exact post_moves h.cq hop hroom rfl rfl rfl rfl
    · exact .of_target rfl trivial

/-- The label `arm` submits the poll behind its last completion only. -/
theorem last_of_mem_armPoll {r r' : ReqPtr n} (h : .submit r' ∈ s.armPoll r) :
    hasMore (s.req r).resultFlags = false := by
  unfold armPoll at h
  split at h
  case isTrue => cases h
  case isFalse hlast => exact Bool.eq_false_iff.mpr hlast

section Callbacks

variable {r : ReqPtr n} {ans : Answers}
  (hlist : FreeList (fun j => (s.reqs j).next) s.reqsList
    (fun j => (s.reqs j).inFlight = false) s.nrFreeReqs)
  (hidle : s.todo = [])
include hlist hidle

theorem last_of_mem_openEvent {event : Event} {ticket : Option Nat}
    (hmem : .submit .queuePoll ∈ (s.openEvent r event ticket ans).todo) :
    hasMore (s.req r).resultFlags = false := by
  unfold openEvent at hmem
  rcases processorGetReq_cases hlist with ⟨-, herr⟩ | ⟨i, -, -, hok⟩
  · rw [herr] at hmem
    exact absurd (hidle ▸ hmem) List.not_mem_nil
  · rw [hok] at hmem
    dsimp only at hmem
    split at hmem
    · rw [List.mem_cons] at hmem
      rcases hmem with hslot | harm
      · cases hslot
      · rw [← handOut_resultFlags s i r]
        exact last_of_mem_armPoll harm
    · exact absurd (hidle ▸ hmem) List.not_mem_nil

theorem last_of_mem_onQueueEvent
    (hmem : .submit .queuePoll ∈ (s.onQueueEvent r ans).todo) :
    hasMore (s.req r).resultFlags = false ∨ (s.req r).result < 0 := by
  by_cases hneg : (s.req r).result < 0
  · exact Or.inr hneg
  refine Or.inl ?_
  unfold onQueueEvent at hmem
  dsimp only at hmem
  rw [if_neg hneg] at hmem
  split at hmem
  · exact absurd (hidle ▸ hmem) List.not_mem_nil
  split at hmem
  · have hlast := last_of_mem_openEvent (by exact hlist) (by exact hidle) hmem
    exact hlast
  split at hmem
  · exact last_of_mem_openEvent hlist hidle hmem
  · exact last_of_mem_armPoll hmem

/-- A callback submits the poll again behind the last completion of the poll, or
behind an error. -/
theorem last_of_mem_call (hfile : ¬ (s.req r).ForFile)
    (hdata : (s.req r).data2 = none)
    (hmem : .submit .queuePoll ∈ (s.call r ans).todo) :
    (s.req r).callback = some .onQueueEvent ∧
      (hasMore (s.req r).resultFlags = false ∨ (s.req r).result < 0) := by
  have hhalt : ∀ how, .submit .queuePoll ∉ (s.halt how).todo := by
    intro how hin
    exact absurd (hidle ▸ hin) List.not_mem_nil
  cases hcall : (s.req r).callback with
  | none =>
    simp only [call, hcall] at hmem
    exact absurd hmem (hhalt _)
  | some callback =>
    cases callback with
    | onQueueEvent =>
      simp only [call, hcall] at hmem
      exact ⟨rfl, last_of_mem_onQueueEvent hlist hidle hmem⟩
    | onFileOpen => exact absurd (Or.inr (Or.inl hcall)) hfile
    | onFileRead => exact absurd (Or.inr (Or.inr hcall)) hfile
    | onSocketCreate =>
      simp only [call, hcall, onSocketCreate] at hmem
      split_ifs at hmem <;> simp [Sys.halt, hidle] at hmem
    | onSocketConnect =>
      simp only [call, hcall, onSocketConnect] at hmem
      split_ifs at hmem <;> simp [Sys.halt, hidle] at hmem
    | onSocketRead =>
      simp only [call, hcall, onSocketRead] at hmem
      split_ifs at hmem <;> simp [Sys.halt, hidle] at hmem
    | onSocketTimeout =>
      simp only [call, hcall, hidle] at hmem
      cases hmem
    | onSocketTimeoutUpdate =>
      simp only [call, hcall, onSocketTimeoutUpdate, hdata] at hmem
      exact absurd hmem (hhalt _)

end Callbacks

/-- The number of submissions to come for a line. -/
def cmdsInLine (l : FixedLine) (todo : List (Cmd n)) : Nat :=
  (todo.filterMap Cmd.pending : Multiset (Pending n)).countP
    (Pending.InLine (.inr l))

@[simp] theorem cmdsInLine_nil (l : FixedLine) :
    cmdsInLine (n := n) l [] = 0 := rfl

@[simp] theorem cmdsInLine_flushEgress (l : FixedLine) (rest : List (Cmd n)) :
    cmdsInLine l (.flushEgress :: rest) = cmdsInLine l rest := rfl

@[simp] theorem cmdsInLine_submit (l : FixedLine) (r : ReqPtr n)
    (rest : List (Cmd n)) :
    cmdsInLine l (.submit r :: rest) =
      cmdsInLine l rest + if r.line = .inr l then 1 else 0 := by
  have hline : (Pending.cmd r).InLine (.inr l) ↔ r.line = .inr l :=
    ⟨fun h => Option.some.inj h.1, fun h => ⟨congrArg some h, trivial⟩⟩
  rw [cmdsInLine, cmdsInLine, List.filterMap_cons]
  simp only [Cmd.pending, ← Multiset.cons_coe, Multiset.countP_cons, hline]

/-- A callback that submits no more for the line of its completion than the
completion was lengthens no line. -/
theorem inLine_reaped (hcq : s.cq.Wf) (htodo : s.todo = [])
    {cqe : Cqe (Name n)} (hcur : s.cq.current = some cqe)
    (hquiet : Quiet (s.deliver cqe) t) {l : FixedLine}
    (hcmds : cmdsInLine l t.todo ≤
      if (Pending.cqe cqe).InLine (.inr l) then 1 else 0) :
    t.inLine (.inr l) ≤ s.inLine (.inr l) := by
  have hdel := s.deliver_reaped cqe
  have hadd : t.transit = (t.todo.filterMap Cmd.pending :
      Multiset (Pending n)) + (s.deliver cqe).transit := by
    rw [transit, hquiet.inRings, transit, hdel.todo, htodo]
    simp
  have hsum : t.inLine (.inr l) =
      cmdsInLine l t.todo + (s.deliver cqe).inLine (.inr l) := by
    rw [inLine, hadd, Multiset.countP_add]
    rfl
  rw [hsum, inLine_of_cons (deliver_transit hcq hcur)]
  omega

/-- The callback of a slot submits its own slot. -/
theorem SlotOutcome.cmdsInLine (hidle : s.todo = []) {ans : Answers}
    (hout : SlotOutcome s i ans t) (l : FixedLine) :
    cmdsInLine l t.todo = 0 := by
  cases hout with
  | opened | readMore => simp [Sys.resumed]
  | _ => simp [Sys.freed, Sys.halt, hidle]

/-- The callback of a fixed request submits for its own line, and once. -/
theorem FixedOutcome.cmdsInLine {r : ReqPtr n} {ans : Answers}
    (hout : FixedOutcome s r ans t) (hrun : t.halted = none)
    (hsocket : (s.req r).callback = some .onSocketCreate ∨
      (s.req r).callback = some .onSocketConnect ∨
      (s.req r).callback = some .onSocketRead → r.line = .inr .socket)
    (hpoll : .submit .queuePoll ∈ t.todo → r = .queuePoll) (l : FixedLine) :
    Sys.cmdsInLine l t.todo = 0 ∨
      (Sys.cmdsInLine l t.todo = 1 ∧ r.line = .inr l ∧
        (r = .queuePoll → .submit .queuePoll ∈ t.todo)) := by
  have hother : r.line = .inr .socket → r ≠ .queuePoll := by
    rintro hline rfl
    cases hline
  cases hout with
  | ended hend => exact absurd hrun hend.halted
  | waits todo hwait htodo hrearm =>
    rcases htodo with rfl | rfl
    · exact Or.inl rfl
    · obtain rfl := hpoll (List.mem_singleton_self _)
      cases l <;> simp
  | created hcall sockFd =>
    have hline := hsocket (Or.inl hcall)
    cases l <;> simp [hline, hother hline]
  | connected hcall =>
    have hline := hsocket (Or.inr (Or.inl hcall))
    cases l <;> simp [hline, hother hline]
  | received hcall =>
    have hline := hsocket (Or.inr (Or.inr hcall))
    cases l <;> simp [hline, hother hline]
  | taken event events ticket rest hhead hnew hrest hrearm =>
    rcases hrest with rfl | rfl
    · simp [Sys.prepared]
    · obtain rfl := hpoll (List.mem_cons_of_mem _ (List.mem_singleton_self _))
      cases l <;> simp [Sys.prepared]

theorem Dispatched.inLine_le (h : Inv none s) (hfixed : s.FixedOps)
    (hreqs : s.FixedReqs) (hnotify : s.Notifies) (htodo : s.todo = [])
    {ans : Answers} (hout : Dispatched s ans t) (ht : t = s.dispatch ans)
    (hrun : t.halted = none) (l : FixedLine) :
    t.inLine (.inr l) ≤ s.inLine (.inr l) := by
  cases hout with
  | idle => exact le_rfl
  | slot cqe hcur hreq hheld hout =>
    refine inLine_reaped h.cq htodo hcur hout.quiet ?_
    rw [hout.cmdsInLine ((s.deliver_reaped cqe).todo.trans htodo)]
    exact Nat.zero_le _
  | fixed cqe hcur hfix hinv hidle hout =>
    refine inLine_reaped h.cq htodo hcur hout.quiet ?_
    have hreq : (s.deliver cqe).req cqe.userData.req =
        { s.req cqe.userData.req with
          result := cqe.res, resultFlags := cqe.flags } := req_setReq_self ..
    have hlast : .submit .queuePoll ∈ t.todo →
        cqe.userData.req = .queuePoll ∧ hasMore cqe.flags = false := by
      intro hmem
      rw [ht, dispatch_eq hcur] at hmem
      obtain ⟨hcall, hend⟩ := last_of_mem_call hinv.list hidle
        (by rw [hreq]; exact hfixed.reqs _ hfix)
        ((hinv.reqs _).data2.trans hfix) hmem
      rw [hreq] at hcall hend
      have hqueue := hreqs.queue _ hfix hcall
      refine ⟨hqueue, ?_⟩
      cases hmore : hasMore cqe.flags with
      | false => rfl
      | true =>
        have hpos := hnotify cqe (deliver_transit h.cq hcur ▸
          Multiset.mem_cons_self ..) hqueue hmore
        rcases hend with hlast | hneg
        · exact absurd (hmore.symm.trans hlast) (by decide)
        · exact absurd hneg (Int.not_lt.mpr hpos)
    have hsocket := hreqs.socket _ hfix
    rcases hout.cmdsInLine hrun (by rw [hreq]; exact hsocket)
      (fun hmem => (hlast hmem).1) l with hnone | ⟨hcount, hline, hmem⟩
    · rw [hnone]
      exact Nat.zero_le _
    · have hin : (Pending.cqe cqe).InLine (.inr l) :=
        ⟨congrArg some hline, fun hqueue => (hlast (hmem hqueue)).2⟩
      rw [hcount, if_pos hin]

/-! ## The invariant -/

theorem cqe_mem_transit {c : Cqe (Name n)} :
    .cqe c ∈ s.transit ↔ c ∈ s.cq.unreaped := by
  have hcmd : Pending.cqe c ∉ (s.todo.filterMap Cmd.pending :
      Multiset (Pending n)) := by
    rw [Multiset.mem_coe, List.mem_filterMap]
    rintro ⟨cmd, -, hcmd⟩
    cases cmd <;> cases hcmd
  rw [transit, Multiset.mem_add, or_iff_right hcmd]
  simp [inRings]

/-- Only the kernel posts completions. -/
theorem Effect.unreaped {a : SysStep n} (h : Inv none s) (heff : Effect s a t)
    (hloop : ∀ act, a ≠ .kernel act) {c : Cqe (Name n)}
    (hc : c ∈ t.cq.unreaped) : c ∈ s.cq.unreaped := by
  have hreaped : ∀ {cqe}, s.cq.current = some cqe →
      Quiet (s.deliver cqe) t → c ∈ s.cq.unreaped := by
    intro cqe hcur hquiet
    rw [hquiet.cq, (s.deliver_reaped cqe).cq] at hc
    rw [Reaper.unreaped_cons h.cq hcur]
    exact List.mem_cons_of_mem _ hc
  cases heff with
  | stutter | idle | submit => exact hc
  | kernel act => exact absurd rfl (hloop act)
  | reaper _ cq hwf hsame => exact hsame ▸ hc
  | dispatch ans htodo hout =>
    cases hout with
    | idle => exact hc
    | slot cqe hcur hreq hheld hout => exact hreaped hcur hout.quiet
    | fixed cqe hcur hfixed hinv hidle hout => exact hreaped hcur hout.quiet
  | flush ans htodo hout => rw [hout.quiet.cq] at hc; exact hc

/-- The kernel posts a notification, or the last completion of the poll. -/
theorem Notifies.kernel (h : s.Notifies) (hinv : Inv none s) (hpoll : s.PollInv)
    {act : KernelAct n} (hto : KernelTo s act t)
    (hfinal : ErrorsFinal (.kernel act)) : t.Notifies := by
  have hpost : ∀ {cqe : Cqe (Name n)}, s.cq.room → t.cq = s.cq.post cqe →
      (cqe.userData.req = .queuePoll → hasMore cqe.flags = true →
        0 ≤ cqe.res) → t.Notifies := by
    intro cqe hroom hcq hnew c hc hname hmore
    rw [cqe_mem_transit, hcq, Reaper.unreaped_post hinv.cq, if_pos hroom,
      List.mem_append, List.mem_singleton] at hc
    rcases hc with hold | rfl
    · exact h c (cqe_mem_transit.mpr hold) hname hmore
    · exact hnew hname hmore
  have hsame : t.cq = s.cq → t.Notifies := by
    intro hcq c hc
    rw [cqe_mem_transit, hcq] at hc
    exact h c (cqe_mem_transit.mpr hc)
  cases hto with
  | same | dropped | taken | scribbled | filled => exact hsame rfl
  | opened hop hfd hfree hroom => exact hpost hroom rfl fun _ _ => hfd
  | notified hop hroom => exact hpost hroom rfl fun _ _ => hfinal
  | completed hop hallows hroom =>
    refine hpost hroom rfl fun hname hmore => ?_
    have hkind := hpoll.kind hop (congrArg some hname)
    dsimp only at hkind
    rw [hkind] at hallows
    exact absurd (hmore.symm.trans hallows) (by decide)

theorem KernelTo.mask {act : KernelAct n} (hto : KernelTo s act t) :
    t.sq.mask = s.sq.mask := by
  have htake : ∀ {sqe sq}, s.sq.kernelTake = some (sqe, sq) →
      sq.mask = s.sq.mask := by
    intro sqe sq htake
    unfold SubmissionRing.kernelTake at htake
    split at htake
    · cases htake
    · obtain ⟨-, rfl⟩ := Prod.mk.inj (Option.some.inj htake)
      rfl
  cases hto with
  | dropped h => exact htake h
  | taken h => exact htake h
  | _ => rfl

theorem Effect.mask {a : SysStep n} (heff : Effect s a t) :
    t.sq.mask = s.sq.mask := by
  cases heff with
  | stutter | idle | reaper => rfl
  | kernel act hto => exact hto.mask
  | dispatch ans htodo hout =>
    cases hout with
    | idle => rfl
    | slot cqe hcur hreq hheld hout =>
      rw [hout.quiet.sq, (s.deliver_reaped cqe).sq]
    | fixed cqe hcur hfixed hinv hidle hout =>
      rw [hout.quiet.sq, (s.deliver_reaped cqe).sq]
  | @submit ans r rest htodo =>
    show (s.sq.evIouReq ⟨r, s.gen r⟩ (s.req r).toIoReq).2.mask = s.sq.mask
    unfold SubmissionRing.evIouReq
    split <;> rfl
  | flush ans htodo hout => rw [hout.quiet.sq]

/-- Each line has one thing on its way at most, and the timer has none until it
is armed. -/
structure Lined (m : RingMask) (s : Sys B n) : Prop where
  mask : s.sq.mask = m
  reqs : s.FixedReqs
  notifies : s.Notifies
  one : ∀ l, s.inLine (.inr l) ≤ 1
  timer : s.timerReq.opcode ≠ .timeout → s.inLine (.inr .timer) = 0

/-- What is new behind a flush. -/
theorem inLine_flush {ans : Answers} {rest : List (Cmd n)}
    (htodo : s.todo = .flushEgress :: rest)
    (hout : FlushOutcome { s with todo := rest } ans t) {cmd : Cmd n}
    (hcmd : t.todo = cmd :: rest) (l : FixedLine) :
    t.inLine (.inr l) = cmdsInLine l [cmd] + s.inLine (.inr l) := by
  have hadd : t.transit = ([cmd].filterMap Cmd.pending :
      Multiset (Pending n)) + s.transit := by
    rw [transit, transit, hcmd, hout.quiet.inRings, htodo,
      ← List.singleton_append, List.filterMap_append, ← Multiset.coe_add,
      Multiset.add_assoc]
    rfl
  rw [inLine, hadd, Multiset.countP_add]
  rfl

variable {m : RingMask}

/-- A step that lengthens no line. -/
theorem Lined.of_le (h : s.Lined m) {a : SysStep n} (hinv : Inv none s)
    (heff : Effect s a t) (hrun : t.halted = none) (hnotify : t.Notifies)
    (hle : ∀ l, t.inLine (.inr l) ≤ s.inLine (.inr l)) : t.Lined m := by
  refine ⟨heff.mask.trans h.mask, h.reqs.effect hinv heff hrun, hnotify,
    fun l => (hle l).trans (h.one l), fun htimer => ?_⟩
  have hopcode : s.timerReq.opcode ≠ .timeout := by
    intro hold
    have hto := heff.reqTo hrun .timer
    cases hto with
    | same _ hop => exact htimer (hop.trans hold)
    | arms hop => exact htimer hop
  exact Nat.le_zero.mp ((hle .timer).trans (h.timer hopcode).le)

/-- The first flush arms the timer, and the others take a slot. -/
theorem Lined.flush (h : s.Lined m) (hinv : Inv none s) {ans : Answers}
    {rest : List (Cmd n)} (htodo : s.todo = .flushEgress :: rest)
    (hout : FlushOutcome { s with todo := rest } ans t)
    (hrun : t.halted = none) : t.Lined m := by
  have heff : Effect s (.proceed ans) t := .flush ans htodo hout
  have hnotify : t.Notifies := by
    intro c hc
    rw [cqe_mem_transit] at hc
    exact h.notifies c (cqe_mem_transit.mpr
      (heff.unreaped hinv (fun act => by simp) hc))
  have hline := fun l (cmd : Cmd n) (hcmd : t.todo = cmd :: rest) =>
    inLine_flush htodo hout hcmd l
  cases hout with
  | ended hend => exact absurd hrun hend.halted
  | armed htimer =>
    refine ⟨h.mask, h.reqs.effect hinv heff hrun, hnotify, fun l => ?_,
      fun hno => absurd rfl hno⟩
    rw [hline l _ rfl]
    have hone := h.one l
    cases l with
    | timer => simp [h.timer htimer]
    | _ => simpa using hone
  | updating htimer hhead =>
    refine h.of_le hinv heff hrun hnotify fun l => ?_
    rw [hline l _ rfl]
    simp

theorem step_kernel (hrun : s.halted = none) (act : KernelAct n) :
    s.step (.kernel act) = s.kernel act :=
  if_neg (by simp [hrun])

theorem step_dispatch (hrun : s.halted = none) (htodo : s.todo = [])
    (ans : Answers) : s.step (.dispatch ans) = s.dispatch ans :=
  (if_neg (by simp [hrun])).trans (if_pos htodo)

theorem Lined.step (h : s.Lined m) (hinv : Inv none s) (hfixed : s.FixedOps)
    (hpoll : s.PollInv) (hrun : s.halted = none) {a : SysStep n}
    (hfinal : ErrorsFinal a) (hlive : (s.step a).halted = none) :
    (s.step a).Lined m := by
  have heff := hinv.effect hrun a
  have hnotify : (∀ act, a ≠ .kernel act) → (s.step a).Notifies := by
    intro hloop c hc
    rw [cqe_mem_transit] at hc
    exact h.notifies c (cqe_mem_transit.mpr (heff.unreaped hinv hloop hc))
  generalize ht : s.step a = t at heff hlive hnotify ⊢
  have hkeep := h.of_le hinv heff hlive
  cases heff with
  | stutter | idle => exact h
  | kernel act hto =>
    by_cases hmore : ∀ k res flags, act = .notify k res flags →
        hasMore flags = true
    · exact hkeep (h.notifies.kernel hinv hpoll hto hfinal)
        (hto.inLine_le hinv h.reqs hmore)
    · simp only [not_forall, exists_prop] at hmore
      obtain ⟨k, res, flags, rfl, hlast⟩ := hmore
      rw [← ht, step_kernel hrun,
        notify_of_last s k res (Bool.eq_false_iff.mpr hlast)]
      exact h
  | reaper _ cq hwf hsame hloop =>
    refine hkeep (hnotify ?_) fun l => le_of_eq ?_
    · rintro act rfl
      rcases hloop with hloop | hloop <;> cases hloop
    · rw [inLine, inLine, transit, transit, inRings, inRings, hsame]
  | dispatch ans htodo hout =>
    refine hkeep (hnotify fun act => by simp) ?_
    exact hout.inLine_le hinv hfixed h.reqs h.notifies htodo
      (ht.symm.trans (step_dispatch hrun htodo ans)) hlive
  | @submit ans r rest htodo =>
    refine hkeep (hnotify fun act => by simp) fun l => ?_
    by_cases hroom : s.sq.pending.length < s.sq.mask.size
    · exact (submit_moves htodo hroom).1.inLine_le (.of_target rfl trivial)
    · rw [inLine_of_cons (submit_refused htodo (Nat.le_of_not_lt hroom)).1]
      exact Nat.le_add_right _ _
  | flush ans htodo hout => exact h.flush hinv htodo hout hlive

theorem lined_processorRun [NeZero n] (boot : Boot n) :
    (processorRun B boot).Lined boot.sqMask := by
  have hcqe : ∀ c, Pending.cqe c ∉ (processorRun B boot).transit := by
    intro c hc
    rw [transit_processorRun] at hc
    simp at hc
  have hline : ∀ l, (processorRun B boot).inLine (.inr l) =
      ({.cmd .queuePoll, .cmd .conn} : Multiset (Pending n)).countP
        (Pending.InLine (.inr l)) := by
    intro l
    rw [inLine, transit_processorRun]
  refine ⟨rfl, fixedReqs_processorRun boot,
    fun c hc => absurd hc (hcqe c), ?_, ?_⟩
  · intro l
    rw [hline]
    cases l with
    | poll | socket => exact le_rfl
    | timer => exact Nat.zero_le 1
  · intro _
    rw [hline]
    rfl

/-! ## The result -/

/-- The invariant of a run of a processor whose ring is large enough. -/
structure Roomy (m : RingMask) (s : Sys B n) : Prop where
  alive : s.Alive
  fixed : s.halted = none → s.FixedOps
  lined : s.halted = none → s.Lined m
  refused : s.refused = []

/-- No submission is refused, for all the lines fit into the ring. -/
theorem Effect.refused {a : SysStep n} (hinv : Inv none s) (h : s.Lined m)
    (hsize : n + 3 ≤ m.size) (heff : Effect s a t) : t.refused = s.refused := by
  cases heff with
  | stutter | idle | reaper => rfl
  | kernel act hto => cases hto <;> rfl
  | dispatch ans htodo hout =>
    cases hout with
    | idle => rfl
    | slot cqe hcur hreq hheld hout =>
      rw [hout.quiet.refused, (s.deliver_reaped cqe).refused]
    | fixed cqe hcur hfixed hinv hidle hout =>
      rw [hout.quiet.refused, (s.deliver_reaped cqe).refused]
  | submit ans htodo =>
    have hlen := length_pending_lt hinv h.reqs.named h.one htodo
    have hroom : s.sq.pending.length < s.sq.mask.size := by
      rw [h.mask]
      omega
    exact (submit_moves htodo hroom).2.2
  | flush ans htodo hout => rw [hout.quiet.refused]

theorem Roomy.step (hsize : n + 3 ≤ m.size) (h : s.Roomy m) (a : SysStep n)
    (hfinal : ErrorsFinal a) : (s.step a).Roomy m := by
  by_cases hrun : s.halted = none
  · have hinv := h.alive.good.inv hrun
    have heff := hinv.effect hrun a
    have hlined := h.lined hrun
    exact ⟨h.alive.step a, (h.fixed hrun).effect hinv heff,
      hlined.step hinv (h.fixed hrun) (h.alive.poll hrun) hrun hfinal,
      (heff.refused hinv hlined hsize).trans h.refused⟩
  · rw [step_of_halted hrun]
    exact h

/-- A processor with three tasks fewer than its ring has entries never has a
submission refused, whatever the kernel does and however late it takes the
entries, as long as a poll that reports an error is over.  So nothing is
orphaned.  With the 128 entries of the source this is so up to 125 tasks, and
the default is 32. -/
theorem no_submission_refused [NeZero n] (boot : Boot n)
    (sched : List (SysStep n)) (hsize : n + 3 ≤ boot.sqMask.size)
    (hfinal : ∀ a ∈ sched, ErrorsFinal a) :
    let s := run Sys.step (processorRun B boot) sched
    s.refused = [] ∧ (s.halted = none → s.todo = [] → s.NoOrphans) := by
  intro s
  have hstart : (processorRun B boot).Roomy boot.sqMask :=
    ⟨alive_processorRun boot, fun _ => fixedOps_processorRun boot,
      fun _ => lined_processorRun boot, rfl⟩
  have hroomy : s.Roomy boot.sqMask :=
    run_invariant_of_meets (C := fun _ a => ErrorsFinal a)
      (fun _ a h ha => h.step hsize a ha) hstart (meets_of_forall hfinal _)
  refine ⟨hroomy.refused, fun hrun htodo => ?_⟩
  refine Unrefused.noOrphans ⟨hroomy.alive, fun r hr => ?_⟩ hrun htodo
  rw [hroomy.refused] at hr
  cases hr

theorem no_submission_refused_in_printedRun :
    let s := run Sys.step (processorRun .concat (Boot.zeroed 1)) printedRun
    s.dequeued.length = 1 ∧ s.refused = [] := by
  refine ⟨by decide +kernel, ?_⟩
  exact (no_submission_refused (Boot.zeroed 1) printedRun (by decide +kernel)
    (by decide +kernel)).1

end Sys

end Ride
