import Ride.Processor.Fixed
import Ride.Processor.Safety

/-!
# The timer of the connection

`verifier_flush_egress` computes how long it is until the connection wants to be
called again.  It asks the kernel for a timeout when it is called for the first
time, and asks it to move that timeout from then on.  It is the field `opcode` of
`timer_req` that tells the two cases apart.

The update never finds the timeout.  The kernel looks for a timeout whose
`user_data` is the `addr` of the update, and this is the address of the verifier,
but the `user_data` of the timeout is the address of its `timer_req`.  And nothing
resets the opcode when the timeout fires, so that it is never asked for again.
`timer_not_updated` has a run for each of the two.

`Timed` is the processor together with a clock and the timeouts of the kernel.  The
timespec in `expiry` is a time span.  The flush means it from the time of its own
call, and the kernel counts it from the time at which it takes the entry, so that a
timeout is later than it was meant by what lies in between, which is `Timed.lag`.
All deadlines are times of the clock.

`TimerAt` says where the request of the timer is, and `TimerAt.effect` that a step
keeps this unless it is a flush that changes the deadline of a pending timeout or
comes after the timeout has fired.  `timer_follows_expiry` is the result.
-/

namespace Ride

open CodeLib CodeLib.Machine

/-! ## The timeouts of the kernel -/

/-- A timeout that is pending, with the time at which it fires. -/
structure Timeout (n : Nat) where
  userData : ReqPtr n
  deadline : Int
deriving DecidableEq

/-- `sizeof(ev_io_req_t)`. -/
def EV_IO_REQ_SIZE : UInt64 := 72

/-- The address of a request of `struct verifier`, which begins with two
pointers. -/
def ReqPtr.inVerifier {n : Nat} : ReqPtr n → Option (Word n)
  | .conn => some ⟨.verifier, 16⟩
  | .recv => some ⟨.verifier, 16 + EV_IO_REQ_SIZE⟩
  | .timer => some ⟨.verifier, 16 + 2 * EV_IO_REQ_SIZE⟩
  | _ => none

/-- No request begins where the verifier begins. -/
theorem ReqPtr.inVerifier_ne {n : Nat} (r : ReqPtr n) :
    r.inVerifier ≠ some (.addr .verifier) := by
  cases r <;> simp [inVerifier, Word.addr, EV_IO_REQ_SIZE]

namespace Sys

variable {B : Blake3} {n : Nat} {i : Fin n} {s t : Sys B n}

/-- The span of a `struct __kernel_timespec`, in nanoseconds. -/
def nanoseconds (ts : Int × Int) : Int := ts.1 * NGTCP2_SECONDS + ts.2

/-- The `struct __kernel_timespec` at an address. -/
def timespecAt (s : Sys B n) (addr : Word n) : Option (Int × Int) :=
  if addr = .addr .expiry then some s.expiry else none

/-- The pending timeouts when the kernel has taken an entry at the time `now`.  The
flags ask for no absolute time, so that the timespec is counted from `now` on.  A
timeout is known by its `user_data`, and an update moves the deadline of the one
that has the `addr` of the entry as its `user_data`. -/
def takeTimeout (s : Sys B n) (now : Int) (timers : List (Timeout n))
    (sqe : Sqe (Word n) (Name n)) : List (Timeout n) :=
  match sqe.opcode with
  | .timeout =>
    match sqe.userData, s.timespecAt sqe.addr with
    | some name, some ts => timers ++ [⟨name.req, now + nanoseconds ts⟩]
    | _, _ => timers
  | .timeoutRemove =>
    match s.timespecAt sqe.off with
    | some ts =>
      if sqe.poll32Events = IORING_TIMEOUT_UPDATE then
        timers.map fun timer =>
          if timer.userData.inVerifier = some sqe.addr then
            { timer with deadline := now + nanoseconds ts }
          else timer
      else timers
    | none => timers
  | _ => timers

/-- The request whose operation the kernel completes. -/
def completes (s : Sys B n) (k : Nat) (res : Int) (flags : UInt32) :
    Option (ReqPtr n) :=
  match s.ops[k]? with
  | some op =>
    if op.kind.Allows res flags ∧ s.cq.room then some op.name.req else none
  | none => none

end Sys

/-- A processor, the time, and the timeouts of its verifier that are pending in the
kernel.  `flushedAt` is the time of the last call of `verifier_flush_egress`,
`fired` says whether the timeout has fired since, and `lag` is how long after that
call the kernel has taken the timeout. -/
structure Timed (B : Blake3) (n : Nat) where
  sys : Sys B n
  now : Int
  timers : List (Timeout n)
  flushedAt : Int
  fired : Bool
  lag : Int

/-- Time passes, or the processor or the kernel makes a step. -/
inductive TimedStep (n : Nat) where
  | tick (nsec : Nat)
  | sys (a : SysStep n)

namespace Timed

variable {B : Blake3} {n : Nat} {x : Timed B n} {t : Sys B n}

/-- The deadline that the last call of `verifier_flush_egress` has computed. -/
def deadline (x : Timed B n) : Int :=
  x.flushedAt + Sys.nanoseconds x.sys.expiry

/-- A timeout is pending until it fires, which is when its operation
completes. -/
def nextTimers (x : Timed B n) : SysStep n → List (Timeout n)
  | .kernel .consume =>
    match x.sys.sq.kernelTake with
    | some (sqe, _) => x.sys.takeTimeout x.now x.timers sqe
    | none => x.timers
  | .kernel (.complete k res flags) =>
    match x.sys.completes k res flags with
    | some r => x.timers.filter fun timer => timer.userData ≠ r
    | none => x.timers
  | _ => x.timers

def nextFlushedAt (x : Timed B n) : SysStep n → Int
  | .proceed _ =>
    if x.sys.todo.head? = some .flushEgress then x.now else x.flushedAt
  | _ => x.flushedAt

def nextFired (x : Timed B n) : SysStep n → Bool
  | .kernel (.complete k res flags) =>
    x.fired || x.sys.completes k res flags = some .timer
  | .proceed _ => x.fired && x.sys.todo.head? ≠ some .flushEgress
  | _ => x.fired

def nextLag (x : Timed B n) : SysStep n → Int
  | .kernel .consume =>
    match x.sys.sq.kernelTake with
    | some (sqe, _) =>
      if sqe.opcode = .timeout then x.now - x.flushedAt else x.lag
    | none => x.lag
  | _ => x.lag

/-- A timeout does not fire before its deadline. -/
def Due (x : Timed B n) : SysStep n → Prop
  | .kernel (.complete k res flags) =>
    x.sys.completes k res flags = some .timer →
      ∀ timer ∈ x.timers, timer.deadline ≤ x.now
  | _ => True

instance (x : Timed B n) : DecidablePred x.Due := fun a =>
  match a with
  | .kernel (.complete _ _ _) => inferInstanceAs (Decidable (_ → ∀ t ∈ _, _))
  | .kernel .consume => isTrue trivial
  | .kernel (.scribble _ _) => isTrue trivial
  | .kernel (.fill _ _) => isTrue trivial
  | .kernel (.openDone _ _ _ _) => isTrue trivial
  | .kernel (.notify _ _ _) => isTrue trivial
  | .dispatch _ => isTrue trivial
  | .proceed _ => isTrue trivial
  | .load => isTrue trivial
  | .publish => isTrue trivial

/-- The state behind a step of the processor or of the kernel. -/
def next (x : Timed B n) (a : SysStep n) (t : Sys B n) : Timed B n where
  sys := t
  now := x.now
  timers := x.nextTimers a
  flushedAt := x.nextFlushedAt a
  fired := x.nextFired a
  lag := x.nextLag a

/-- One step, and what it does to the timeouts. -/
def step (x : Timed B n) : TimedStep n → Timed B n
  | .tick nsec => { x with now := x.now + nsec }
  | .sys a =>
    if x.sys.halted = none ∧ x.Due a then x.next a (x.sys.step a) else x

def start [NeZero n] (B : Blake3) (boot : Sys.Boot n) : Timed B n where
  sys := Sys.processorRun B boot
  now := 0
  timers := []
  flushedAt := 0
  fired := false
  lag := 0

/-- The connection is there, no callback is running, no submission was refused,
and the kernel has taken everything that was submitted for the timer. -/
def Settled (x : Timed B n) : Prop :=
  x.sys.halted = none ∧ x.sys.conn = true ∧ x.sys.todo = [] ∧
    x.sys.refused = [] ∧ ∀ sqe ∈ x.sys.sq.pending,
      sqe.opcode ≠ .timeout ∧ sqe.opcode ≠ .timeoutRemove

instance (x : Timed B n) : Decidable x.Settled :=
  inferInstanceAs (Decidable (_ ∧ _ ∧ _ ∧ _ ∧ _))

/-- One timeout is pending, `late` behind the deadline of the last call of
`verifier_flush_egress`, unless it has fired since that call. -/
def FollowsBy (x : Timed B n) (late : Int) : Prop :=
  x.timers = [⟨.timer, x.deadline + late⟩] ∨ (x.fired = true ∧ x.timers = [])

/-- One timeout is pending, with the deadline of the last call of
`verifier_flush_egress`, unless it has fired since that call. -/
def Follows (x : Timed B n) : Prop :=
  x.timers = [⟨.timer, x.deadline⟩] ∨ (x.fired = true ∧ x.timers = [])

instance (x : Timed B n) : Decidable x.Follows :=
  inferInstanceAs (Decidable (_ ∨ _))

/-- Where `verifier_flush_egress` asks for an update, the timeout has not fired,
and it is yet to be taken by the kernel or the deadline stays the same. -/
def KeepsDeadline (x : Timed B n) : TimedStep n → Prop
  | .sys (.proceed ans) =>
    x.sys.halted = none → x.sys.todo.head? = some .flushEgress →
      x.sys.timerReq.opcode = .timeout →
      x.fired = false ∧ (x.timers = [] ∨
        x.now + Sys.nanoseconds (Sys.newExpiry ans) = x.deadline)
  | _ => True

instance (x : Timed B n) : DecidablePred x.KeepsDeadline := fun a =>
  match a with
  | .sys (.proceed _) => inferInstanceAs (Decidable (_ → _ → _ → _ ∧ (_ ∨ _)))
  | .sys (.dispatch _) => isTrue trivial
  | .sys (.kernel _) => isTrue trivial
  | .sys .load => isTrue trivial
  | .sys .publish => isTrue trivial
  | .tick _ => isTrue trivial

end Timed

/-! ## The entries for the timer -/

namespace Sys

variable {B : Blake3} {n : Nat} {i : Fin n} {s t : Sys B n}

/-- Only the request of the timer asks for a timeout, and an update is for the
address of the verifier. -/
structure TimerOps (s : Sys B n) : Prop where
  req : ∀ r, (s.req r).opcode = .timeout → r = .timer
  update : ∀ r, (s.req r).opcode = .timeoutRemove →
    (s.req r).addr = .addr .verifier
  sqe : ∀ q, .sqe q ∈ s.transit → q.opcode = .timeout →
    (Pending.sqe q).For .timer
  updateSqe : ∀ q, .sqe q ∈ s.transit → q.opcode = .timeoutRemove →
    q.addr = .addr .verifier

theorem TimerOps.effect (h : s.TimerOps) (hinv : Inv none s) {a : SysStep n}
    (heff : Effect s a t) (hrun : t.halted = none) : t.TimerOps := by
  refine ⟨?_, ?_, ?_, ?_⟩
  · intro r hop
    cases heff.reqTo hrun r with
    | same r hsame => exact h.req r (hsame.symm.trans hop)
    | arms => rfl
    | opens i hop' | reads i hop' | updates i hop' | connects hop'
    | receives hop' => exact absurd (hop'.symm.trans hop) (by simp)
  · intro r hop
    cases heff.reqTo hrun r with
    | same r hsame haddr => exact haddr.trans (h.update r (hsame.symm.trans hop))
    | updates i hop' haddr => exact haddr
    | opens i hop' | reads i hop' | connects hop' | receives hop'
    | arms hop' => exact absurd (hop'.symm.trans hop) (by simp)
  · intro q hq hop
    rcases heff.fresh hinv hq with hold | hnew
    · exact h.sqe q hold hop
    · cases hnew with
      | sqe r => exact congrArg some (h.req r hop)
  · intro q hq hop
    rcases heff.fresh hinv hq with hold | hnew
    · exact h.updateSqe q hold hop
    · cases hnew with
      | sqe r => exact h.update r hop

theorem timerOps_processorRun [NeZero n] (boot : Boot n) :
    (processorRun B boot).TimerOps := by
  have hreq : ∀ r, ((processorRun B boot).req r).opcode ≠ .timeout ∧
      ((processorRun B boot).req r).opcode ≠ .timeoutRemove := by
    intro r
    cases r <;> simp [Sys.req, processorRun, setupSlot,
      processorPreparePollReqs, verifierConnect, EvIoReq.zero]
  have hsqe : ∀ q, Pending.sqe q ∉ (processorRun B boot).transit := by
    intro q hq
    rw [transit_processorRun] at hq
    simp at hq
  exact ⟨fun r hop => absurd hop (hreq r).1,
    fun r hop => absurd hop (hreq r).2,
    fun q hq => absurd hq (hsqe q), fun q hq => absurd hq (hsqe q)⟩

/-- An update does not find a timeout, and nothing else is about timeouts. -/
theorem TimerOps.takeTimeout (h : s.TimerOps) {q : Sqe (Word n) (Name n)}
    (hq : .sqe q ∈ s.transit) (hfor : ¬ (Pending.sqe q).For .timer) (now : Int)
    (timers : List (Timeout n)) : s.takeTimeout now timers q = timers := by
  unfold Sys.takeTimeout
  split
  · rename_i hop
    exact absurd (h.sqe q hq hop) hfor
  · rename_i hop
    split
    · split_ifs with hflag
      · rw [h.updateSqe q hq hop]
        refine List.map_id'' (fun timer => ?_) timers
        exact if_neg timer.userData.inVerifier_ne
      · rfl
    · rfl
  · rfl

/-- What the timer depends on in the processor. -/
structure SameTimer (s t : Sys B n) : Prop where
  opcode : t.timerReq.opcode = s.timerReq.opcode
  addr : t.timerReq.addr = s.timerReq.addr
  expiry : t.expiry = s.expiry
  refused : s.refused ⊆ t.refused

end Sys

/-! ## Where the request of the timer is -/

/-- What is known of the timeouts, where `p` is on its way for the timer. -/
def Timed.Shows {B : Blake3} {n : Nat} (x : Timed B n) : Pending n → Prop
  | .cmd _ => x.sys.timerReq.addr = .addr .expiry ∧ x.timers = [] ∧
      x.fired = false
  | .sqe q => q.opcode = .timeout ∧ q.addr = .addr .expiry ∧ x.timers = [] ∧
      x.fired = false
  | .op op => op.kind = .other ∧ x.timers = [⟨.timer, x.deadline + x.lag⟩] ∧
      x.fired = false
  | .cqe _ => x.timers = [] ∧ x.fired = true

/-- The request of the timer is not used yet, is on its way, or is back.  The
last case is a submission that was refused. -/
inductive TimerAt {B : Blake3} {n : Nat} (x : Timed B n) : Prop where
  | unused (hop : x.sys.timerReq.opcode ≠ .timeout)
      (hout : x.sys.outstanding .timer = 0) (htimers : x.timers = [])
      (hfired : x.fired = false) : TimerAt x
  | busy (hop : x.sys.timerReq.opcode = .timeout) {p : Pending n}
      (hout : x.sys.outstanding .timer = {p}) (hshows : x.Shows p) : TimerAt x
  | back (hop : x.sys.timerReq.opcode = .timeout)
      (hout : x.sys.outstanding .timer = 0) (htimers : x.timers = [])
      (hfired : x.fired = true) : TimerAt x
  | lost (href : .timer ∈ x.sys.refused) : TimerAt x

namespace TimerAt

open Sys

variable {B : Blake3} {n : Nat} {x : Timed B n} {t : Sys B n}

/-- Something is on its way for the timer, and nothing else is. -/
theorem of_mem (h : TimerAt x) {p : Pending n} (hp : p ∈ x.sys.transit)
    (hfor : p.For .timer) :
    .timer ∈ x.sys.refused ∨ (x.sys.timerReq.opcode = .timeout ∧
      x.sys.outstanding .timer = {p} ∧ x.Shows p) := by
  have hmem : p ∈ x.sys.outstanding .timer := mem_outstanding.mpr ⟨hp, hfor⟩
  cases h with
  | unused hop hzero | back hop hzero =>
    rw [hzero] at hmem
    exact absurd hmem (Multiset.notMem_zero _)
  | busy hop hone hshows =>
    have hmem := hone ▸ hmem
    rw [Multiset.mem_singleton] at hmem
    subst hmem
    exact Or.inr ⟨hop, hone, hshows⟩
  | lost href => exact Or.inl href

/-- Only the timer has timeouts. -/
theorem filter_timers (h : TimerAt x) {r : ReqPtr n} (hr : r ≠ .timer) :
    .timer ∈ x.sys.refused ∨
      (x.timers.filter fun timer => timer.userData ≠ r) = x.timers := by
  have hnil : x.timers = [] →
      (x.timers.filter fun timer => timer.userData ≠ r) = x.timers := by
    intro hnil
    rw [hnil]
    rfl
  cases h with
  | unused hop hzero htimers | back hop hzero htimers =>
    exact Or.inr (hnil htimers)
  | @busy hop p hone hshows =>
    right
    cases p with
    | cmd r => exact hnil hshows.2.1
    | sqe q => exact hnil hshows.2.2.1
    | op op =>
      rw [hshows.2.1]
      exact List.filter_cons_of_pos (decide_eq_true hr.symm)
    | cqe c => exact hnil hshows.1
  | lost href => exact Or.inl href

/-- A step that is not about the timer. -/
theorem congr (h : TimerAt x) (hsame : SameTimer x.sys t)
    (hout : t.outstanding .timer = x.sys.outstanding .timer) :
    TimerAt { x with sys := t } := by
  cases h with
  | unused hop hzero htimers hfired =>
    exact .unused (hsame.opcode.trans_ne hop) (hout.trans hzero) htimers hfired
  | @busy hop p hone hshows =>
    refine .busy (hsame.opcode.trans hop) (hout.trans hone) ?_
    cases p with
    | cmd r => exact ⟨hsame.addr.trans hshows.1, hshows.2⟩
    | sqe q => exact hshows
    | op op =>
      refine ⟨hshows.1, ?_, hshows.2.2⟩
      rw [Timed.deadline]
      simp only [hsame.expiry]
      exact hshows.2.1
    | cqe c => exact hshows
  | back hop hzero htimers hfired =>
    exact .back (hsame.opcode.trans hop) (hout.trans hzero) htimers hfired
  | lost href => exact .lost (hsame.refused href)

/-- The time is not a matter of where the request is. -/
theorem tick (h : TimerAt x) (nsec : Nat) :
    TimerAt { x with now := x.now + nsec } := by
  cases h with
  | unused hop hzero htimers hfired => exact .unused hop hzero htimers hfired
  | @busy hop p hone hshows =>
    refine .busy hop hone ?_
    cases p <;> exact hshows
  | back hop hzero htimers hfired => exact .back hop hzero htimers hfired
  | lost href => exact .lost href

/-! ## The kernel -/

/-- The kernel takes the entry of the timer. -/
theorem taken (h : TimerAt x) (hsame : SameTimer x.sys t)
    {sqe : Sqe (Word n) (Name n)} {name : Name n}
    (hname : sqe.userData = some name) (hreq : name.req = .timer)
    (hmove : Moves x.sys t (.sqe sqe) (.op ⟨name, x.sys.opKind sqe⟩))
    (lag : Int) (hlag : sqe.opcode = .timeout → lag = x.now - x.flushedAt) :
    TimerAt { x with
      sys := t
      timers := x.sys.takeTimeout x.now x.timers sqe
      lag := lag } := by
  have hfor : (Pending.sqe sqe).For .timer := by
    simp [Pending.For, Pending.target, hname, hreq]
  rcases h.of_mem hmove.mem hfor with
    href | ⟨hop, hone, hq, haddr, htimers, hfired⟩
  · exact .lost (hsame.refused href)
  · refine .busy (hsame.opcode.trans hop)
      (hmove.outstanding_self hfor (congrArg some hreq) hone) ⟨?_, ?_, hfired⟩
    · simp [opKind, hq]
    · have hlate : x.flushedAt + nanoseconds x.sys.expiry +
          (x.now - x.flushedAt) = x.now + nanoseconds x.sys.expiry := by omega
      simp [takeTimeout, hq, hname, timespecAt, haddr, htimers, hreq,
        Timed.deadline, hsame.expiry, hlag hq, hlate]

/-- The timeout fires. -/
theorem expired (h : TimerAt x) (hsame : SameTimer x.sys t) {op : Op n}
    (hreq : op.name.req = .timer) {cqe : Cqe (Name n)}
    (hcqe : cqe.userData = op.name)
    (hmove : Moves x.sys t (.op op) (.cqe cqe)) :
    TimerAt { x with
      sys := t
      timers := x.timers.filter fun timer => timer.userData ≠ .timer
      fired := true } := by
  rcases h.of_mem hmove.mem (congrArg some hreq) with
    href | ⟨hop, hone, -, htimers, -⟩
  · exact .lost (hsame.refused href)
  · refine .busy (hsame.opcode.trans hop)
      (hmove.outstanding_self (congrArg some hreq) ?_ hone) ⟨?_, rfl⟩
    · exact congrArg some ((congrArg Name.req hcqe).trans hreq)
    · simp [htimers]

/-- The operations of the timer are not of another kind. -/
theorem moved (h : TimerAt x) (hsame : SameTimer x.sys t) {k : Nat} {op : Op n}
    (hop : x.sys.ops[k]? = some op) (hkind : op.kind ≠ .other)
    (hout : op.name.req ≠ .timer →
      t.outstanding .timer = x.sys.outstanding .timer) :
    TimerAt { x with sys := t } := by
  by_cases hreq : op.name.req = .timer
  · rcases h.of_mem (op_mem_transit hop) (congrArg some hreq) with
      href | ⟨-, -, hother, -⟩
    · exact .lost (hsame.refused href)
    · exact absurd hother hkind
  · exact h.congr hsame (hout hreq)

theorem completes_eq {s : Sys B n} {k : Nat} {op : Op n} {res : Int}
    {flags : UInt32} (hop : s.ops[k]? = some op)
    (hallows : op.kind.Allows res flags) (hroom : s.cq.room) :
    s.completes k res flags = some op.name.req := by
  simp only [Sys.completes, hop]
  exact if_pos ⟨hallows, hroom⟩

/-- An act that is not possible is no matter to the timeouts. -/
theorem next_of_same {act : KernelAct n}
    (htake : act = .consume → x.sys.sq.kernelTake = none)
    (hdone : ∀ k res flags, act = .complete k res flags →
      ∀ op ∈ x.sys.ops[k]?, ¬ (op.kind.Allows res flags ∧ x.sys.cq.room)) :
    x.next (.kernel act) t = { x with sys := t } := by
  cases act with
  | consume =>
    simp only [Timed.next, Timed.nextTimers, Timed.nextLag, htake rfl]
    rfl
  | complete k res flags =>
    have hnone : x.sys.completes k res flags = none := by
      unfold Sys.completes
      split
      · rename_i op hop
        exact if_neg (hdone k res flags rfl op hop)
      · rfl
    simp [Timed.next, Timed.nextTimers, Timed.nextFired, Timed.nextFlushedAt,
      Timed.nextLag, hnone]
  | _ => rfl

theorem kernel (h : TimerAt x) (hinv : Inv none x.sys)
    (hops : x.sys.TimerOps) {act : KernelAct n}
    (hto : KernelTo x.sys act t) : TimerAt (x.next (.kernel act) t) := by
  have hsame : SameTimer x.sys t := by
    cases hto <;> exact ⟨rfl, rfl, rfl, List.Subset.refl _⟩
  cases hto with
  | same _ htake hdone =>
    rw [next_of_same htake hdone]
    exact h
  | @dropped sqe sq htake hname =>
    have htransit : x.sys.transit =
        .sqe sqe ::ₘ { x.sys with sq := sq }.transit := by
      rw [transit, (take_inRings hinv.sq htake).1, Multiset.add_cons]
      rfl
    have hfor : ¬ (Pending.sqe sqe).For .timer := by
      simp [Pending.For, Pending.target, hname]
    have hmem : .sqe sqe ∈ x.sys.transit := by
      rw [htransit]
      exact Multiset.mem_cons_self ..
    have hop : sqe.opcode ≠ .timeout := fun hop => hfor (hops.sqe sqe hmem hop)
    simp only [Timed.next, Timed.nextTimers, Timed.nextLag, htake,
      hops.takeTimeout hmem hfor, if_neg hop]
    exact h.congr hsame (outstanding_of_cons_ne htransit hfor).symm
  | @taken sqe sq name htake hname =>
    have hmove := consume_moves hinv.sq htake ⟨name, x.sys.opKind sqe⟩
    simp only [Timed.next, Timed.nextTimers, Timed.nextLag, htake]
    by_cases hreq : name.req = .timer
    · exact h.taken hsame hname hreq hmove _ fun hop => if_pos hop
    · have hfor : ¬ (Pending.sqe sqe).For .timer := by
        simpa [Pending.For, Pending.target, hname] using hreq
      have hop : sqe.opcode ≠ .timeout :=
        fun hop => hfor (hops.sqe sqe hmove.mem hop)
      rw [hops.takeTimeout hmove.mem hfor, if_neg hop]
      refine h.congr hsame (hmove.outstanding_other hfor ?_)
      exact fun hfor => hreq (Option.some.inj hfor)
  | scribbled => exact h.congr hsame rfl
  | filled hop buffers =>
    refine h.moved hsame hop (by simp) fun hreq => ?_
    refine Moves.outstanding_other (set_moves hop rfl rfl rfl rfl) ?_ ?_ <;>
      exact fun hfor => hreq (Option.some.inj hfor)
  | opened hop hfd hfree hroom =>
    refine h.moved hsame hop (by simp) fun hreq => ?_
    refine Moves.outstanding_other
      (post_moves hinv.cq hop hroom rfl rfl rfl rfl) ?_ ?_ <;>
      exact fun hfor => hreq (Option.some.inj hfor)
  | @notified k name res flags hop hroom =>
    refine h.moved hsame hop (by simp) fun hreq => ?_
    exact outstanding_of_cons_ne
      (s := { x.sys with cq := x.sys.cq.post ⟨name, res, flags⟩ })
      (notify_transit hinv.cq hroom rfl rfl rfl rfl)
      fun hfor => hreq (Option.some.inj hfor)
  | @completed k name kind res flags hop hallows hroom =>
    have hmove := post_moves (t := { x.sys with
      ops := x.sys.ops.eraseIdx k
      cq := x.sys.cq.post ⟨name, res, flags⟩ }) hinv.cq hop hroom rfl rfl rfl
      rfl
    have hdone := completes_eq hop hallows hroom
    simp only [Timed.next, Timed.nextTimers, Timed.nextFired, hdone]
    by_cases hreq : name.req = .timer
    · have hfired : (x.fired || decide (some name.req = some .timer)) =
          true := by
        simp [hreq]
      rw [hfired, hreq]
      exact h.expired hsame hreq rfl hmove
    · rcases h.filter_timers hreq with href | htimers
      · exact .lost href
      · rw [htimers]
        have hfired : (x.fired || decide (some name.req = some .timer)) =
            x.fired := by
          simp [hreq]
        rw [hfired]
        refine h.congr hsame (hmove.outstanding_other ?_ ?_) <;>
          exact fun hfor => hreq (Option.some.inj hfor)

end TimerAt

/-! ## The callbacks -/

namespace Sys

variable {B : Blake3} {n : Nat} {i : Fin n} {s t : Sys B n}

/-- A callback does not touch the timer: it leaves the request and the expiry,
and it makes no submission of the timer. -/
structure LeavesTimer (s t : Sys B n) : Prop where
  req : t.timerReq = s.timerReq
  expiry : t.expiry = s.expiry
  todo : .submit .timer ∉ t.todo
  conn : t.conn = s.conn ∨ .flushEgress ∈ t.todo

theorem SlotOutcome.leavesTimer {ans : Answers}
    (hout : SlotOutcome s i ans t) (htodo : s.todo = []) :
    LeavesTimer s t := by
  cases hout with
  | opened | readMore =>
    exact ⟨rfl, rfl, by simp [Sys.resumed], Or.inl rfl⟩
  | _ =>
    refine ⟨rfl, rfl, ?_, Or.inl rfl⟩
    show _ ∉ s.todo
    rw [htodo]
    exact List.not_mem_nil

theorem FixedOutcome.leavesTimer {r : ReqPtr n} {ans : Answers}
    (hout : FixedOutcome s r ans t) (hrun : t.halted = none) :
    LeavesTimer s t := by
  cases hout with
  | ended hend => exact absurd hrun hend.halted
  | waits todo hwait htodo =>
    refine ⟨rfl, rfl, ?_, Or.inl rfl⟩
    rcases htodo with rfl | rfl <;> simp
  | created => exact ⟨rfl, rfl, by simp, Or.inl rfl⟩
  | connected => exact ⟨rfl, rfl, by simp, Or.inr (by simp)⟩
  | received => exact ⟨rfl, rfl, by simp, Or.inl rfl⟩
  | taken event events ticket rest hhead hnew hrest =>
    refine ⟨rfl, rfl, ?_, Or.inl rfl⟩
    rcases hrest with rfl | rfl <;> simp [Sys.prepared]

theorem deliver_timer (s : Sys B n) (cqe : Cqe (Name n)) :
    SameTimer s (s.deliver cqe) := by
  obtain ⟨res, flags, hreq⟩ := s.deliver_req cqe .timer
  have hreq : (s.deliver cqe).timerReq =
      { s.timerReq with result := res, resultFlags := flags } := hreq
  have hdel := s.deliver_reaped cqe
  refine ⟨by rw [hreq], by rw [hreq], hdel.expiry, ?_⟩
  rw [hdel.refused]
  exact List.Subset.refl _

/-- After the result of a completion was stored, the callback leaves the timer
alone. -/
theorem LeavesTimer.sameTimer {cqe : Cqe (Name n)}
    (h : LeavesTimer (s.deliver cqe) t) (hquiet : Quiet (s.deliver cqe) t) :
    SameTimer s t := by
  have hdel := s.deliver_timer cqe
  refine ⟨?_, ?_, h.expiry.trans hdel.expiry, ?_⟩
  · rw [h.req]
    exact hdel.opcode
  · rw [h.req]
    exact hdel.addr
  · rw [hquiet.refused]
    exact hdel.refused

end Sys

namespace TimerAt

open Sys

variable {B : Blake3} {n : Nat} {x : Timed B n} {t : Sys B n}

theorem delivered (h : TimerAt x) (hinv : Inv none x.sys)
    (htodo : x.sys.todo = []) {cqe : Cqe (Name n)}
    (hcur : x.sys.cq.current = some cqe)
    (hleaves : LeavesTimer (x.sys.deliver cqe) t)
    (hquiet : Quiet (x.sys.deliver cqe) t) : TimerAt { x with sys := t } := by
  have hsame := hleaves.sameTimer hquiet
  have htransit := deliver_transit hinv.cq hcur
  have hidle := (x.sys.deliver_reaped cqe).todo.trans htodo
  have hout : t.outstanding .timer =
      (x.sys.deliver cqe).outstanding .timer := by
    rw [outstanding_of_not_mem hleaves.todo, outstanding_todo_nil hidle,
      hquiet.inRings]
  by_cases hfor : (Pending.cqe cqe).For .timer
  · have hmem : Pending.cqe cqe ∈ x.sys.transit := by
      rw [htransit]
      exact Multiset.mem_cons_self ..
    rcases h.of_mem hmem hfor with href | ⟨hop, hone, htimers, hfired⟩
    · exact .lost (hsame.refused href)
    · refine .back (hsame.opcode.trans hop) ?_ htimers hfired
      rw [outstanding_of_cons htransit hfor] at hone
      exact hout.trans ((Multiset.cons_inj_right _).mp hone)
  · refine h.congr hsame ?_
    rw [hout]
    exact (outstanding_of_cons_ne htransit hfor).symm

theorem submit (h : TimerAt x) {r : ReqPtr n} {rest : List (Cmd n)}
    (htodo : x.sys.todo = .submit r :: rest) :
    TimerAt { x with sys := { x.sys with todo := rest }.submit r } := by
  by_cases hroom : x.sys.sq.pending.length < x.sys.sq.mask.size
  · obtain ⟨hmove, -, hrefused⟩ := submit_moves htodo hroom
    have hsame : SameTimer x.sys ({ x.sys with todo := rest }.submit r) := by
      refine ⟨rfl, rfl, rfl, ?_⟩
      rw [hrefused]
      exact List.Subset.refl _
    by_cases hr : r = .timer
    · subst hr
      rcases h.of_mem hmove.mem rfl with
        href | ⟨hop, hone, haddr, htimers, hfired⟩
      · exact .lost (hsame.refused href)
      · exact .busy hop (hmove.outstanding_self rfl rfl hone)
          ⟨hop, haddr, htimers, hfired⟩
    · refine h.congr hsame (hmove.outstanding_other ?_ ?_) <;>
        exact fun hfor => hr (Option.some.inj hfor)
  · obtain ⟨htransit, -, hrefused⟩ :=
      submit_refused htodo (Nat.le_of_not_lt hroom)
    by_cases hr : r = .timer
    · refine .lost ?_
      show .timer ∈ ({ x.sys with todo := rest }.submit r).refused
      rw [hrefused, hr]
      exact List.mem_append_right _ (List.mem_singleton_self _)
    · refine h.congr ⟨rfl, rfl, rfl, ?_⟩ ?_
      · rw [hrefused]
        exact List.subset_append_left _ _
      · refine (outstanding_of_cons_ne htransit ?_).symm
        exact fun hfor => hr (Option.some.inj hfor)

/-- `verifier_flush_egress` asks for a timeout, or for a deadline that the
timeout has already. -/
theorem flush (h : TimerAt x) {ans : Answers} {rest : List (Cmd n)}
    (htodo : x.sys.todo = .flushEgress :: rest)
    (hout : FlushOutcome { x.sys with todo := rest } ans t)
    (hrun : t.halted = none)
    (hkeep : x.sys.timerReq.opcode = .timeout → x.fired = false ∧
      (x.timers = [] ∨ x.now + nanoseconds (newExpiry ans) = x.deadline)) :
    TimerAt { x with sys := t, flushedAt := x.now, fired := false } := by
  cases hout with
  | ended hend => exact absurd hrun hend.halted
  | armed htimer =>
    cases h with
    | unused hop hzero htimers hfired =>
      have hrings := inRings_filter_eq hzero
      have hnot : .submit .timer ∉ rest := by
        intro hmem
        refine not_mem_todo hzero ?_
        rw [htodo]
        exact List.mem_cons_of_mem _ hmem
      refine .busy rfl (p := .cmd .timer) ?_ ⟨rfl, htimers, rfl⟩
      refine (outstanding_of_todo rfl hnot).trans ?_
      exact congrArg _ hrings
    | busy hop | back hop => exact absurd hop htimer
    | lost href => exact .lost href
  | @updating i htimer hhead =>
    obtain ⟨hfired, hkeep⟩ := hkeep htimer
    have hsame : ∀ slot, ({ x.sys with todo := rest }.prepared i slot none []
        x.sys.strings x.sys.nextString (newExpiry ans) rest).outstanding
        .timer = x.sys.outstanding .timer := by
      intro slot
      refine outstanding_of_cons_ne (p := .cmd (.slot i)) ?_
        (by simp [Pending.For, Pending.target])
      rw [transit, transit, htodo]
      rfl
    cases h with
    | unused hop => exact absurd htimer hop
    | @busy hop p hone hshows =>
      refine .busy htimer ((hsame _).trans hone) ?_
      cases p with
      | cmd r => exact ⟨hshows.1, hshows.2.1, rfl⟩
      | sqe q => exact ⟨hshows.1, hshows.2.1, hshows.2.2.1, rfl⟩
      | op op =>
        obtain ⟨hkind, htimers, -⟩ := hshows
        refine ⟨hkind, ?_, rfl⟩
        rcases hkeep with hnil | hexp
        · exact absurd (hnil.symm.trans htimers) (by simp)
        · show x.timers = [⟨.timer, x.now + nanoseconds (newExpiry ans) + x.lag⟩]
          rw [hexp]
          exact htimers
      | cqe c => exact absurd (hfired.symm.trans hshows.2) (by simp)
    | back hop hzero htimers hback =>
      exact absurd (hfired.symm.trans hback) (by simp)
    | lost href => exact .lost href

theorem effect (h : TimerAt x) (hinv : Inv none x.sys) (hops : x.sys.TimerOps)
    (hlive : x.sys.halted = none) {a : SysStep n} (heff : Effect x.sys a t)
    (hrun : t.halted = none) (hkeep : x.KeepsDeadline (.sys a)) :
    TimerAt (x.next a t) := by
  cases heff with
  | stutter _ hbusy hloop =>
    rcases hloop with rfl | rfl | ⟨ans, rfl⟩ <;> exact h
  | idle ans htodo =>
    simp only [Timed.next, Timed.nextTimers, Timed.nextFlushedAt,
      Timed.nextFired, Timed.nextLag, htodo]
    simpa using h
  | kernel act hto => exact h.kernel hinv hops hto
  | reaper _ cq hwf hsame hloop =>
    have hout : ({ x.sys with cq := cq }).outstanding .timer =
        x.sys.outstanding .timer := by
      rw [outstanding, outstanding, transit, transit, inRings, inRings, hsame]
    have hcongr := h.congr (t := { x.sys with cq := cq })
      ⟨rfl, rfl, rfl, List.Subset.refl _⟩ hout
    rcases hloop with rfl | rfl <;> exact hcongr
  | dispatch ans htodo hout =>
    cases hout with
    | idle => exact h
    | slot cqe hcur hreq hheld hout =>
      exact h.delivered hinv htodo hcur (hout.leavesTimer hheld.todo) hout.quiet
    | fixed cqe hcur hfixed hinv' hidle hout =>
      exact h.delivered hinv htodo hcur (hout.leavesTimer hrun) hout.quiet
  | submit ans htodo =>
    have hnext : ∀ t, x.next (.proceed ans) t = { x with sys := t } := by
      simp [Timed.next, Timed.nextTimers, Timed.nextFlushedAt, Timed.nextFired,
        Timed.nextLag, htodo]
    rw [hnext]
    exact h.submit htodo
  | flush ans htodo hout =>
    have hhead : x.sys.todo.head? = some .flushEgress := by rw [htodo]; rfl
    have hnext : ∀ t, x.next (.proceed ans) t =
        { x with sys := t, flushedAt := x.now, fired := false } := by
      simp [Timed.next, Timed.nextTimers, Timed.nextFlushedAt, Timed.nextFired,
        Timed.nextLag, htodo]
    rw [hnext]
    exact h.flush htodo hout hrun (hkeep hlive hhead)

end TimerAt

/-! ## The runs -/

namespace Sys

variable {B : Blake3} {n : Nat} {s t : Sys B n}

/-- With the connection comes a call of `verifier_flush_egress`. -/
def ArmsTimer (s : Sys B n) : Prop :=
  s.conn = true → s.timerReq.opcode = .timeout ∨ .flushEgress ∈ s.todo

theorem ArmsTimer.delivered (h : s.ArmsTimer) (htodo : s.todo = [])
    {cqe : Cqe (Name n)} (hleaves : LeavesTimer (s.deliver cqe) t) :
    t.ArmsTimer := by
  intro hconn
  have hdel := (s.deliver_reaped cqe).conn
  rcases hleaves.conn with hkept | hflush
  · left
    rw [hleaves.req, (s.deliver_timer cqe).opcode]
    rcases h ((hdel.symm.trans hkept.symm).trans hconn) with hop | hmem
    · exact hop
    · rw [htodo] at hmem
      exact absurd hmem List.not_mem_nil
  · exact Or.inr hflush

theorem ArmsTimer.effect (h : s.ArmsTimer) {a : SysStep n}
    (heff : Effect s a t) (hrun : t.halted = none) : t.ArmsTimer := by
  cases heff with
  | kernel act hto => cases hto <;> exact h
  | dispatch ans htodo hout =>
    cases hout with
    | idle => exact h
    | slot cqe hcur hreq hheld hout =>
      exact h.delivered htodo (hout.leavesTimer hheld.todo)
    | fixed cqe hcur hfixed hinv hidle hout =>
      exact h.delivered htodo (hout.leavesTimer hrun)
  | submit ans htodo =>
    intro hconn
    rcases h hconn with hop | hmem
    · exact Or.inl hop
    · rw [htodo, List.mem_cons] at hmem
      exact Or.inr (hmem.resolve_left (by simp))
  | flush ans htodo hout =>
    cases hout with
    | ended hend => exact absurd hrun hend.halted
    | armed => exact fun _ => Or.inl rfl
    | updating htimer => exact fun _ => Or.inl htimer
  | _ => exact h

end Sys

namespace Timed

open Sys

variable {B : Blake3} {n : Nat} {x : Timed B n}

/-- What is known of the timer in every run that keeps the deadlines. -/
structure Known (x : Timed B n) : Prop where
  live : Live (fun s => s.TimerOps ∧ s.ArmsTimer) x.sys
  timer : x.sys.halted = none → TimerAt x

theorem known_start [NeZero n] (boot : Boot n) : (start B boot).Known := by
  refine ⟨live_processorRun boot ⟨timerOps_processorRun boot, ?_⟩, fun _ => ?_⟩
  · exact fun hconn => absurd hconn (by simp [processorRun])
  · refine .unused (by simp [start, processorRun, EvIoReq.zero]) ?_ rfl rfl
    show (processorRun B boot).outstanding .timer = 0
    rw [outstanding, transit_processorRun]
    rfl

theorem Known.step (h : x.Known) {a : TimedStep n} (hkeep : x.KeepsDeadline a) :
    (x.step a).Known := by
  cases a with
  | tick nsec => exact ⟨h.live, fun hlive => (h.timer hlive).tick nsec⟩
  | sys a =>
    simp only [Timed.step]
    split_ifs with hmoves
    · obtain ⟨hlive, -⟩ := hmoves
      have hinv := h.live.good.inv hlive
      refine ⟨?_, fun hrun => ?_⟩
      · refine h.live.step (fun s a hinv _ hlive hrun hprop => ?_) a
        have heff := hinv.effect hlive a
        exact ⟨hprop.1.effect hinv heff hrun, hprop.2.effect heff hrun⟩
      · exact (h.timer hlive).effect hinv (h.live.prop hlive).1 hlive
          (hinv.effect hlive a) hrun hkeep
    · exact h

theorem Known.followsBy (h : x.Known) (hset : x.Settled) :
    x.FollowsBy x.lag := by
  obtain ⟨hlive, hconn, htodo, hrefused, hpend⟩ := hset
  have hop : x.sys.timerReq.opcode = .timeout := by
    rcases (h.live.prop hlive).2 hconn with hop | hmem
    · exact hop
    · rw [htodo] at hmem
      exact absurd hmem List.not_mem_nil
  cases h.timer hlive with
  | unused hno => exact absurd hop hno
  | @busy _ p hone hshows =>
    have hmem : p ∈ x.sys.inRings := by
      have hmem : p ∈ x.sys.outstanding .timer := by
        rw [hone]
        exact Multiset.mem_singleton_self p
      rw [outstanding_todo_nil htodo] at hmem
      exact Multiset.mem_of_mem_filter hmem
    cases p with
    | cmd r => exact absurd hmem (by simp [inRings])
    | sqe q =>
      have hq : q ∈ x.sys.sq.pending := by simpa [inRings] using hmem
      exact absurd hshows.1 (hpend q hq).1
    | op op => exact Or.inl hshows.2.1
    | cqe c => exact Or.inr ⟨hshows.2, hshows.1⟩
  | back _ _ htimers hfired => exact Or.inr ⟨hfired, htimers⟩
  | lost href =>
    rw [hrefused] at href
    exact absurd href List.not_mem_nil

/-- In every run in which no call of `verifier_flush_egress` changes the deadline
of the timeout or comes after it has fired, one timeout is pending in every state in
which the kernel has taken everything that was submitted for it, unless it has fired
since the last call.  Its deadline is the one of that call, later only by the time
that the kernel has needed to take it. -/
theorem timer_follows_expiry [NeZero n] (boot : Boot n)
    (sched : List (TimedStep n))
    (hkeep : Meets Timed.step KeepsDeadline (start B boot) sched) :
    let x := run Timed.step (start B boot) sched
    x.Settled → x.FollowsBy x.lag ∧ (x.lag = 0 → x.Follows) := by
  intro x hset
  have hknown : x.Known :=
    run_invariant_of_meets (fun _ _ h => h.step) (known_start boot) hkeep
  have hfollows := hknown.followsBy hset
  refine ⟨hfollows, fun hprompt => ?_⟩
  rw [hprompt, FollowsBy, Int.add_zero] at hfollows
  exact hfollows

/-- The steps with the answer `flush` of `verifier_quic_flush`. -/
def flushing (flush : UInt64) (sched : List (SysStep 1)) :
    List (TimedStep 1) :=
  sched.map fun a => match a with
    | .proceed ans => .sys (.proceed { ans with flush := flush })
    | a => .sys a

/-- The verifier connects, and the first flush arms the timer. -/
def armedRun (flush : UInt64) : List (TimedStep 1) :=
  flushing flush (printedRun.take 19)

/-- A packet arrives, and a flush follows. -/
def packet (flush : UInt64) : List (TimedStep 1) :=
  flushing flush ([.kernel (.complete 1 5 0)] ++
    reapOne (Answers.event [47]) 3 ++ [.kernel .consume, .kernel .consume])

/-- The timeout fires, and its callback runs. -/
def expiration : List (TimedStep 1) :=
  flushing 0 ([.kernel (.complete 2 (-62) 0)] ++
    reapOne (Answers.event [47]) 0)

/-- The timer is armed for five seconds, and three seconds later a packet arrives,
with two seconds to go. -/
theorem timer_follows_expiry_packet :
    let sched := armedRun 5000000000 ++ [.tick 3000000000] ++ packet 2000000000
    let x := run Timed.step (start .concat (Boot.zeroed 1)) sched
    x.timers = [⟨.timer, 5000000000⟩] ∧ x.deadline = 5000000000 ∧ x.lag = 0 ∧
      x.Follows := by
  have hkeep : Meets Timed.step KeepsDeadline (start .concat (Boot.zeroed 1))
      (armedRun 5000000000 ++ [.tick 3000000000] ++ packet 2000000000) := by
    decide +kernel
  intro sched x
  have hset : x.Settled := by decide +kernel
  have hlag : x.lag = 0 := by decide +kernel
  exact ⟨by decide +kernel, by decide +kernel, hlag,
    (timer_follows_expiry (Boot.zeroed 1) sched hkeep hset).2 hlag⟩

/-- The timer is armed for five seconds.  Three seconds later a packet moves the
deadline to the eighth second, and the timeout keeps the fifth.  Where the timeout
has fired before, the packet leaves no timeout pending. -/
theorem timer_not_updated :
    let x := start .concat (Boot.zeroed 1)
    let moved := run Timed.step x
      (armedRun 5000000000 ++ [.tick 3000000000] ++ packet 5000000000)
    let after := run Timed.step x (armedRun 5000000000 ++ [.tick 5000000000] ++
      expiration ++ packet 5000000000)
    (moved.Settled ∧ moved.lag = 0 ∧ moved.deadline = 8000000000 ∧
        moved.timers = [⟨.timer, 5000000000⟩] ∧ ¬ moved.Follows) ∧
      (after.Settled ∧ after.lag = 0 ∧ after.fired = false ∧
        after.timers = [] ∧ ¬ after.Follows) := by
  decide +kernel

end Timed

end Ride
