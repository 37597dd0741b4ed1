import Ride.Processor.Poll

/-!
# What a step brings on its way

`Sys.Fresh` lists the commands, entries, operations and completions that a step
can bring on their way.  A property of everything that is on its way then has to
be checked for these only.  `Sys.ReqTo` lists what a step can make of a request in
the same way.  `Sys.FixedOps` follows from the two: the requests outside of the slab
have nothing to do with files.
-/

namespace Ride

open CodeLib CodeLib.Machine

/-- The request opens a file, or one of the callbacks for files is its own. -/
def EvIoReq.ForFile {n : Nat} (req : EvIoReq n) : Prop :=
  req.opcode = .openat ∨ req.callback = some .onFileOpen ∨
    req.callback = some .onFileRead

/-- It asks the kernel to open a file. -/
def Pending.Opens {n : Nat} : Pending n → Prop
  | .sqe q => q.opcode = .openat
  | .op ⟨_, .openat _⟩ => True
  | _ => False

namespace Sys

variable {B : Blake3} {n : Nat} {i : Fin n} {s t : Sys B n}

/-- A step can only bring these things on their way. -/
inductive Fresh (s : Sys B n) : Pending n → Prop where
  | cmd (r : ReqPtr n) : Fresh s (.cmd r)
  | sqe (r : ReqPtr n) :
      Fresh s (.sqe (sqeOf ⟨r, s.gen r⟩ (s.req r).toIoReq))
  | op {sqe : Sqe (Word n) (Name n)} {name : Name n}
      (hmem : .sqe sqe ∈ s.transit) (hname : sqe.userData = some name) :
      Fresh s (.op ⟨name, s.opKind sqe⟩)
  | read {name : Name n} {file : File} {off len : Nat} {buf : Word n}
      (filled : Option Nat) :
      Fresh s (.op ⟨name, .read file off len buf filled⟩)
  | cqe (c : Cqe (Name n)) : Fresh s (.cqe c)

/-- Where the rings hold no more than before, only commands are new. -/
theorem fresh_of_inRings (hrings : ∀ p ∈ t.inRings, p ∈ s.transit)
    {p : Pending n} (hp : p ∈ t.transit) : p ∈ s.transit ∨ s.Fresh p := by
  rw [transit, Multiset.mem_add] at hp
  rcases hp with hcmd | hring
  · rw [Multiset.mem_coe, List.mem_filterMap] at hcmd
    obtain ⟨cmd, -, hcmd⟩ := hcmd
    cases cmd with
    | flushEgress => exact absurd hcmd (by simp [Cmd.pending])
    | submit r =>
      obtain rfl : Pending.cmd r = p := Option.some.inj hcmd
      exact Or.inr (.cmd r)
  · exact Or.inl (hrings p hring)

theorem mem_transit_of_inRings {p : Pending n} (hp : p ∈ s.inRings) :
    p ∈ s.transit :=
  Multiset.mem_add.mpr (Or.inr hp)

theorem fresh_of_moves {p p' q : Pending n} (hq : q ∈ t.transit)
    (hmove : Moves s t p p') (hfresh : s.Fresh p') :
    q ∈ s.transit ∨ s.Fresh q := by
  rcases hmove.of_mem hq with rfl | hold
  · exact Or.inr hfresh
  · exact Or.inl hold

theorem KernelTo.fresh (h : Inv none s) {act : KernelAct n}
    (hto : KernelTo s act t) {p : Pending n} (hp : p ∈ t.transit) :
    p ∈ s.transit ∨ s.Fresh p := by
  cases hto with
  | same => exact Or.inl hp
  | dropped htake hname =>
    refine Or.inl ?_
    rw [transit, (take_inRings h.sq htake).1, Multiset.add_cons]
    exact Multiset.mem_cons_of_mem hp
  | @taken sqe sq name htake hname =>
    have hmove := consume_moves h.sq htake ⟨name, s.opKind sqe⟩
    exact fresh_of_moves hp hmove (.op hmove.mem hname)
  | scribbled buffers => exact Or.inl hp
  | filled hop buffers =>
    exact fresh_of_moves hp (set_moves hop rfl rfl rfl rfl) (.read _)
  | opened hop hfd hfree hroom =>
    exact fresh_of_moves hp (post_moves h.cq hop hroom rfl rfl rfl rfl)
      (.cqe _)
  | @notified k name res flags hop hroom =>
    have hadd := notify_transit
      (t := { s with cq := s.cq.post ⟨name, res, flags⟩ }) h.cq hroom rfl rfl
      rfl rfl
    rw [hadd, Multiset.mem_cons] at hp
    rcases hp with rfl | hold
    · exact Or.inr (.cqe _)
    · exact Or.inl hold
  | completed hop hallows hroom =>
    exact fresh_of_moves hp (post_moves h.cq hop hroom rfl rfl rfl rfl)
      (.cqe _)

/-- What is new after the result of a completion was stored. -/
theorem fresh_of_deliver (hcq : s.cq.Wf) {cqe : Cqe (Name n)}
    (hcur : s.cq.current = some cqe) (hquiet : Quiet (s.deliver cqe) t)
    {p : Pending n} (hp : p ∈ t.transit) : p ∈ s.transit ∨ s.Fresh p := by
  refine fresh_of_inRings (fun q hq => ?_) hp
  rw [hquiet.inRings] at hq
  rw [deliver_transit hcq hcur]
  exact Multiset.mem_cons_of_mem (mem_transit_of_inRings hq)

theorem Effect.fresh (h : Inv none s) {a : SysStep n} (heff : Effect s a t)
    {p : Pending n} (hp : p ∈ t.transit) : p ∈ s.transit ∨ s.Fresh p := by
  cases heff with
  | stutter => exact Or.inl hp
  | idle => exact Or.inl hp
  | kernel act hto => exact hto.fresh h hp
  | reaper _ cq hwf hsame =>
    refine fresh_of_inRings (fun q hq => mem_transit_of_inRings ?_) hp
    rw [inRings, hsame] at hq
    exact hq
  | dispatch ans htodo hout =>
    cases hout with
    | idle => exact Or.inl hp
    | slot cqe hcur hreq hheld hout =>
      exact fresh_of_deliver h.cq hcur hout.quiet hp
    | fixed cqe hcur hfixed hinv hidle hout =>
      exact fresh_of_deliver h.cq hcur hout.quiet hp
  | @submit ans r rest htodo =>
    by_cases hroom : s.sq.pending.length < s.sq.mask.size
    · exact fresh_of_moves hp (submit_moves htodo hroom).1 (.sqe r)
    · have hdrop := (submit_refused htodo (Nat.le_of_not_lt hroom)).1
      rw [hdrop]
      exact Or.inl (Multiset.mem_cons_of_mem hp)
  | flush ans htodo hout =>
    refine fresh_of_inRings (fun q hq => mem_transit_of_inRings ?_) hp
    rw [hout.quiet.inRings] at hq
    exact hq

/-! ## What a step makes of a request -/

/-- A step of a live run leaves the operation of a request as it is, or
prepares the request for one of the operations of `processor.c` and
`verifier.c`. -/
inductive ReqTo (s : Sys B n) : ReqPtr n → EvIoReq n → Prop where
  | same (r : ReqPtr n) {req : EvIoReq n}
      (hop : req.opcode = (s.req r).opcode) (haddr : req.addr = (s.req r).addr)
      (hcall : req.callback = (s.req r).callback) : ReqTo s r req
  | opens (i : Fin n) {req : EvIoReq n} (hop : req.opcode = .openat) :
      ReqTo s (.slot i) req
  | reads (i : Fin n) {req : EvIoReq n} (hop : req.opcode = .read) :
      ReqTo s (.slot i) req
  | updates (i : Fin n) {req : EvIoReq n} (hop : req.opcode = .timeoutRemove)
      (haddr : req.addr = .addr .verifier) : ReqTo s (.slot i) req
  | connects {req : EvIoReq n} (hop : req.opcode = .connect)
      (hcall : req.callback = some .onSocketConnect) : ReqTo s .conn req
  | receives {req : EvIoReq n} (hop : req.opcode = .read)
      (hcall : req.callback = some .onSocketRead) : ReqTo s .recv req
  | arms {req : EvIoReq n} (hop : req.opcode = .timeout)
      (hcall : req.callback = some .onSocketTimeout) : ReqTo s .timer req

/-- Where a step rewrites one slot, another request is the same. -/
theorem reqTo_update {slot : Slot B.State n}
    (hreqs : t.reqs = Function.update s.reqs i slot)
    (hfixed : ∀ r, r.container = none → t.req r = s.req r)
    (hslot : ReqTo s (.slot i) slot.req) (r : ReqPtr n) :
    ReqTo s r (t.req r) := by
  cases r with
  | slot j =>
    by_cases hj : j = i
    · subst hj
      have hreq : t.req (.slot j) = slot.req := by
        rw [Sys.req, hreqs, Function.update_self]
      rw [hreq]
      exact hslot
    · have hreq : t.req (.slot j) = s.req (.slot j) := by
        rw [Sys.req, hreqs, Function.update_of_ne hj, Sys.req]
      rw [hreq]
      exact .same _ rfl rfl rfl
  | _ =>
    rw [hfixed _ rfl]
    exact .same _ rfl rfl rfl

/-- Storing the result of a completion is no matter to the operation. -/
theorem ReqTo.of_deliver {cqe : Cqe (Name n)} {r : ReqPtr n} {req : EvIoReq n}
    (h : ReqTo (s.deliver cqe) r req) : ReqTo s r req := by
  cases h with
  | same r hop haddr hcall =>
    obtain ⟨res, flags, heq⟩ := s.deliver_req cqe r
    rw [heq] at hop haddr hcall
    exact .same r hop haddr hcall
  | opens i hop => exact .opens i hop
  | reads i hop => exact .reads i hop
  | updates i hop haddr => exact .updates i hop haddr
  | connects hop hcall => exact .connects hop hcall
  | receives hop hcall => exact .receives hop hcall
  | arms hop hcall => exact .arms hop hcall

theorem SlotOutcome.reqTo {ans : Answers} (hout : SlotOutcome s i ans t)
    (r : ReqPtr n) : ReqTo s r (t.req r) := by
  have hfixed : ∀ r, r.container = none → t.req r = s.req r := by
    intro r hr
    cases r with
    | slot j => exact absurd hr (by simp [ReqPtr.container])
    | _ => cases hout <;> rfl
  cases hout with
  | opened => exact reqTo_update rfl hfixed (.reads i rfl) r
  | _ =>
    refine reqTo_update rfl hfixed ?_ r
    exact .same _ rfl rfl rfl

theorem FixedOutcome.reqTo {r' : ReqPtr n} {ans : Answers}
    (hout : FixedOutcome s r' ans t) (hrun : t.halted = none) (r : ReqPtr n) :
    ReqTo s r (t.req r) := by
  cases hout with
  | ended hend => exact absurd hrun hend.halted
  | waits => exact .same r rfl rfl rfl
  | created hcall sockFd =>
    cases r with
    | conn => exact .connects rfl rfl
    | _ => exact .same _ rfl rfl rfl
  | connected hcall =>
    cases r with
    | recv => exact .receives rfl rfl
    | _ => exact .same _ rfl rfl rfl
  | received => exact .same r rfl rfl rfl
  | @taken i =>
    refine reqTo_update rfl (fun r hr => ?_) (.opens i rfl) r
    cases r with
    | slot j => exact absurd hr (by simp [ReqPtr.container])
    | _ => rfl

theorem FlushOutcome.reqTo {ans : Answers} (hout : FlushOutcome s ans t)
    (hrun : t.halted = none) (r : ReqPtr n) : ReqTo s r (t.req r) := by
  cases hout with
  | ended hend => exact absurd hrun hend.halted
  | armed htimer =>
    cases r with
    | timer => exact .arms rfl rfl
    | _ => exact .same _ rfl rfl rfl
  | @updating i htimer hhead =>
    refine reqTo_update rfl (fun r hr => ?_) (.updates i rfl rfl) r
    cases r with
    | slot j => exact absurd hr (by simp [ReqPtr.container])
    | _ => rfl

theorem KernelTo.req {act : KernelAct n} (hto : KernelTo s act t) :
    t.req = s.req := by
  cases hto <;> rfl

theorem Effect.reqTo {a : SysStep n} (heff : Effect s a t)
    (hrun : t.halted = none) (r : ReqPtr n) : ReqTo s r (t.req r) := by
  cases heff with
  | kernel act hto =>
    rw [hto.req]
    exact .same r rfl rfl rfl
  | dispatch ans htodo hout =>
    cases hout with
    | idle => exact .same r rfl rfl rfl
    | slot cqe hcur hreq hheld hout => exact (hout.reqTo r).of_deliver
    | fixed cqe hcur hfixed hinv hidle hout =>
      exact (hout.reqTo hrun r).of_deliver
  | flush ans htodo hout =>
    cases hout.reqTo hrun r with
    | same r hop haddr hcall => exact .same r hop haddr hcall
    | opens i hop => exact .opens i hop
    | reads i hop => exact .reads i hop
    | updates i hop haddr => exact .updates i hop haddr
    | connects hop hcall => exact .connects hop hcall
    | receives hop hcall => exact .receives hop hcall
    | arms hop hcall => exact .arms hop hcall
  | _ => exact .same r rfl rfl rfl

/-! ## The fixed requests open no file -/

/-- No request outside of the slab is for a file, and nothing on its way for
such a request opens one. -/
structure FixedOps (s : Sys B n) : Prop where
  reqs : ∀ r, r.container = none → ¬ (s.req r).ForFile
  transit : ∀ p ∈ s.transit, ∀ r, p.For r → r.container = none → ¬ p.Opens

/-- What is new on its way asks for the opcode of its request. -/
theorem FixedOps.fresh (h : s.FixedOps) {p : Pending n} (hp : s.Fresh p)
    {r : ReqPtr n} (hfor : p.For r) (hr : r.container = none) : ¬ p.Opens := by
  cases hp with
  | cmd r => exact not_false
  | sqe r' =>
    obtain rfl : r' = r := Option.some.inj hfor
    exact fun hno => h.reqs r' hr (Or.inl hno)
  | @op sqe name hmem hname =>
    have hsqe : (Pending.sqe sqe).For r := by
      have hfor : some name.req = some r := hfor
      rw [Pending.For, Pending.target, hname]
      exact hfor
    have hno : sqe.opcode ≠ .openat := h.transit _ hmem r hsqe hr
    unfold opKind
    split
    · contradiction
    · split <;> exact not_false
    · exact not_false
    · exact not_false
  | read filled => exact not_false
  | cqe c => exact not_false

theorem FixedOps.reqTo (h : s.FixedOps) {r : ReqPtr n} {req : EvIoReq n}
    (hto : ReqTo s r req) (hr : r.container = none) : ¬ req.ForFile := by
  unfold EvIoReq.ForFile
  cases hto with
  | same r hop haddr hcall =>
    rw [hop, hcall]
    exact h.reqs r hr
  | connects hop hcall | receives hop hcall | arms hop hcall =>
    simp [hop, hcall]
  | opens i | reads i | updates i =>
    exact absurd hr (by simp [ReqPtr.container])

theorem FixedOps.effect (h : s.FixedOps) (hinv : Inv none s) {a : SysStep n}
    (heff : Effect s a t) (hrun : t.halted = none) : t.FixedOps := by
  refine ⟨?_, ?_⟩
  · intro r hr
    exact h.reqTo (heff.reqTo hrun r) hr
  · intro p hp r hfor hr
    rcases heff.fresh hinv hp with hold | hnew
    · exact h.transit p hold r hfor hr
    · exact h.fresh hnew hfor hr

theorem fixedOps_processorRun [NeZero n] (boot : Boot n) :
    (processorRun B boot).FixedOps := by
  refine ⟨?_, ?_⟩
  · intro r hr
    cases r with
    | slot j => exact absurd hr (by simp [ReqPtr.container])
    | _ => exact fun hno => absurd hno (by simp [EvIoReq.ForFile, Sys.req,
        processorRun, processorPreparePollReqs, verifierConnect,
        EvIoReq.zero])
  · intro p hp r _ _
    rw [transit_processorRun] at hp
    simp only [Multiset.insert_eq_cons, Multiset.mem_cons,
      Multiset.mem_singleton] at hp
    rcases hp with rfl | rfl <;> exact not_false

/-! ## The runs -/

/-- A property of live runs, with what is known of every such run. -/
structure Live (P : Sys B n → Prop) (s : Sys B n) : Prop where
  good : s.Good
  fixed : s.halted = none → s.FixedOps
  prop : s.halted = none → P s

theorem live_processorRun [NeZero n] {P : Sys B n → Prop} (boot : Boot n)
    (h : P (processorRun B boot)) : Live P (processorRun B boot) :=
  ⟨Good.of_inv (inv_processorRun boot), fun _ => fixedOps_processorRun boot,
    fun _ => h⟩

section Live

variable {P : Sys B n → Prop}
  (hstep : ∀ s a, Inv none s → s.FixedOps → s.halted = none →
    (s.step a).halted = none → P s → P (s.step a))
include hstep

theorem Live.step (h : Live P s) (a : SysStep n) : Live P (s.step a) := by
  by_cases halive : s.halted = none
  · have hinv := h.good.inv halive
    have hfixed := h.fixed halive
    exact ⟨h.good.step a, hfixed.effect hinv (hinv.effect halive a),
      fun hrun => hstep s a hinv hfixed halive hrun (h.prop halive)⟩
  · rw [step_of_halted halive]
    exact h

/-- What the live steps keep holds as long as a run is alive. -/
theorem live_run [NeZero n] (boot : Boot n) (h : P (processorRun B boot))
    (sched : List (SysStep n)) :
    Live P (run Sys.step (processorRun B boot) sched) :=
  run_invariant (fun _ a hlive => hlive.step hstep a)
    (live_processorRun boot h) sched

end Live

end Sys

end Ride
