import Ride.CodeLib.Words
import Ride.Verifier.Model
import Ride.Verifier.Timer

/-!
# The timeout of a flush

`verifier_quic_flush` answers with one unsigned word: the nanoseconds until the
next expiry, or `-1` where `verifier_flush_out` has failed.
`verifier_flush_egress` reads the word as a signed one, and exits where it is
negative.  It then splits the rest into seconds and nanoseconds for the timer.

`Sys.verifierFlushEgressWords` is the function with its words, and
`verifierFlushEgress_eq_words` says that the numbers of `Sys.verifierFlushEgress`
are the same.

A timeout from `2 ^ 63` on is negative too.  The library means "no timer" with the
largest expiry there is, so that a flush that has nothing to wait for ends the
process: this is `no_timer_exits`.  `egress_timeout_exact_iff` says that the
arithmetic is exact otherwise.
-/

namespace Ride

open CodeLib CodeLib.Machine

/-! ## The source functions -/

/-- `MAX_TIMEOUT`. -/
def MAX_TIMEOUT : UInt64 := 2000

/-- `NGTCP2_SECONDS` with its type, `ngtcp2_duration`. -/
def NGTCP2_SECONDS_WORD : UInt64 := 1000000000

/-- `verifier_quic_flush`, with the result of `verifier_flush_out` and the values
of `ngtcp2_conn_get_expiry2` and `timestamp`. -/
def verifierQuicFlush (flushOut : Int) (expiry now : UInt64) : UInt64 :=
  if flushOut ≠ 0 then -1
  else if expiry < now then MAX_TIMEOUT else expiry - now

/-- `struct __kernel_timespec`. -/
structure KernelTimespec where
  tvSec : Int64
  tvNsec : Int64
deriving DecidableEq

/-- What `verifier_flush_egress` stores in `expiry`, or `none` where it exits.
The two variables are signed, and `NGTCP2_SECONDS` makes the division, the product
and the difference unsigned. -/
def egressExpiry (flush : UInt64) : Option KernelTimespec :=
  let timeoutNsec : Int64 := flush.toInt64
  if timeoutNsec < 0 then none
  else
    let timeoutSec : Int64 :=
      (timeoutNsec.toUInt64 / NGTCP2_SECONDS_WORD).toInt64
    some {
      tvSec := timeoutSec
      tvNsec := (timeoutNsec.toUInt64 -
        timeoutSec.toUInt64 * NGTCP2_SECONDS_WORD).toInt64 }

/-! ## The words -/

/-- The timeout that `verifier_quic_flush` chooses, as a number. -/
def chosenTimeout (expiry now : UInt64) : Nat :=
  if now ≤ expiry then expiry.toNat - now.toNat else 2000

/-- A number of nanoseconds, in seconds and nanoseconds. -/
def timespecOf (timeout : Nat) : Int × Int :=
  ((timeout / 1000000000 : Nat), (timeout % 1000000000 : Nat))

theorem timespecOf_spec (timeout : Nat) :
    0 ≤ (timespecOf timeout).1 ∧ 0 ≤ (timespecOf timeout).2 ∧
      (timespecOf timeout).2 < 1000000000 ∧
      (timespecOf timeout).1 * 1000000000 + (timespecOf timeout).2 =
        timeout := by
  simp only [timespecOf]
  omega

theorem toNat_verifierQuicFlush (expiry now : UInt64) :
    (verifierQuicFlush 0 expiry now).toNat = chosenTimeout expiry now := by
  unfold verifierQuicFlush chosenTimeout
  rw [if_neg (by simp)]
  by_cases hlt : expiry < now
  · rw [if_pos hlt, if_neg (UInt64.not_le.mpr hlt)]
    rfl
  · have hle : now ≤ expiry := UInt64.not_lt.mp hlt
    rw [if_neg hlt, if_pos hle, UInt64.toNat_sub_of_le _ _ hle]

/-- A failure is the largest word. -/
theorem toNat_verifierQuicFlush_failed {flushOut : Int} (h : flushOut ≠ 0)
    (expiry now : UInt64) :
    (verifierQuicFlush flushOut expiry now).toNat = 2 ^ 64 - 1 := by
  rw [verifierQuicFlush, if_pos h]
  rfl

theorem egressExpiry_eq_none {flush : UInt64} (h : 2 ^ 63 ≤ flush.toNat) :
    egressExpiry flush = none :=
  if_pos ((Words.toInt64_neg_iff flush).mpr h)

/-- Below `2 ^ 63` the two fields are the quotient and the remainder. -/
theorem egressExpiry_eq_some {flush : UInt64} (h : flush.toNat < 2 ^ 63) :
    ∃ ts, egressExpiry flush = some ts ∧
      ts.tvSec.toInt = (flush.toNat / 1000000000 : Nat) ∧
      ts.tvNsec.toInt = (flush.toNat % 1000000000 : Nat) := by
  have hsign : ¬ flush.toInt64 < 0 := by
    rw [Words.toInt64_neg_iff]
    omega
  have hseconds : NGTCP2_SECONDS_WORD.toNat = 1000000000 := rfl
  have hsec : (flush / NGTCP2_SECONDS_WORD).toNat =
      flush.toNat / 1000000000 := by
    rw [UInt64.toNat_div, hseconds]
  have hmul : (flush / NGTCP2_SECONDS_WORD * NGTCP2_SECONDS_WORD).toNat =
      flush.toNat / 1000000000 * 1000000000 := by
    rw [UInt64.toNat_mul, hsec, hseconds]
    exact Nat.mod_eq_of_lt (by omega)
  have hnsec : (flush - flush / NGTCP2_SECONDS_WORD *
      NGTCP2_SECONDS_WORD).toNat = flush.toNat % 1000000000 := by
    rw [UInt64.toNat_sub_of_le _ _ (UInt64.le_iff_toNat_le.mpr (by omega)), hmul]
    omega
  refine ⟨_, if_neg hsign, ?_, ?_⟩
  · simp only [UInt64.toUInt64_toInt64]
    rw [Words.toInt_toInt64 (by omega), hsec]
  · simp only [UInt64.toUInt64_toInt64]
    rw [Words.toInt_toInt64 (by omega), hnsec]

namespace Sys

variable {B : Blake3} {n : Nat} {s t : Sys B n}

/-- `verifier_flush_egress` with the words of its arithmetic. -/
def verifierFlushEgressWords (s : Sys B n) (flush : UInt64) : Sys B n :=
  match egressExpiry flush with
  | none => s.halt .exit
  | some ts =>
    { s with expiry := (ts.tvSec.toInt, ts.tvNsec.toInt) }.armTimer

theorem verifierFlushEgressWords_of_le (s : Sys B n) {flush : UInt64}
    (h : 2 ^ 63 ≤ flush.toNat) :
    s.verifierFlushEgressWords flush = s.halt .exit := by
  rw [verifierFlushEgressWords, egressExpiry_eq_none h]

theorem verifierFlushEgressWords_of_lt (s : Sys B n) {flush : UInt64}
    (h : flush.toNat < 2 ^ 63) :
    s.verifierFlushEgressWords flush =
      { s with expiry := timespecOf flush.toNat }.armTimer := by
  obtain ⟨ts, hts, hsec, hnsec⟩ := egressExpiry_eq_some h
  simp only [verifierFlushEgressWords, hts, hsec, hnsec]
  rfl

/-- The numbers of `verifierFlushEgress` are those of the words. -/
theorem verifierFlushEgress_eq_words (s : Sys B n) (ans : Answers) :
    s.verifierFlushEgress ans = s.verifierFlushEgressWords ans.flush := by
  unfold verifierFlushEgress
  by_cases h : 2 ^ 63 ≤ ans.flush.toNat
  · rw [if_pos h, verifierFlushEgressWords_of_le s h]
  · have hnsec : (ans.flush.toNat : Int) -
        ans.flush.toNat / NGTCP2_SECONDS * NGTCP2_SECONDS =
          (ans.flush.toNat % 1000000000 : Nat) := by
      rw [NGTCP2_SECONDS]
      omega
    rw [if_neg h, verifierFlushEgressWords_of_lt s (Nat.not_le.mp h)]
    simp only [hnsec]
    rfl

/-! ## The timer -/

/-- The request gives the timer the time in `expiry`: it arms the timer, or
updates it. -/
def ArmsExpiry (req : EvIoReq n) : Prop :=
  (req.opcode = .timeout ∧ req.addr = .addr .expiry) ∨
    (req.opcode = .timeoutRemove ∧ req.flags = IORING_TIMEOUT_UPDATE ∧
      req.off = .addr .expiry)

/-- `processor_get_req` has a slot to hand out. -/
def SlotFree (s : Sys B n) : Prop :=
  ∃ i, s.reqsList = some i ∧ (s.reqs i).inFlight = false

/-- From `s` to `t`, the timer was given this many nanoseconds, in seconds and
nanoseconds. -/
structure Arms (s t : Sys B n) (timeout : Nat) : Prop where
  sec_nonneg : 0 ≤ t.expiry.1
  nsec_nonneg : 0 ≤ t.expiry.2
  nsec_lt : t.expiry.2 < 1000000000
  exact : t.expiry.1 * 1000000000 + t.expiry.2 = timeout
  submits : ∃ r, t.todo = .submit r :: s.todo ∧ ArmsExpiry (t.req r)

theorem Arms.of_expiry {timeout : Nat}
    (hexpiry : t.expiry = timespecOf timeout)
    (hsubmits : ∃ r, t.todo = .submit r :: s.todo ∧ ArmsExpiry (t.req r)) :
    Arms s t timeout := by
  obtain ⟨hsec, hnsec, hlt, hsum⟩ := timespecOf_spec timeout
  rw [← hexpiry] at hsec hnsec hlt hsum
  exact ⟨hsec, hnsec, hlt, hsum, hsubmits⟩

/-- The timer is armed, unless it takes a slot and there is none. -/
theorem armTimer_cases (s : Sys B n) :
    (s.armTimer.halted = s.halted ∧ s.armTimer.expiry = s.expiry ∧
      (∃ r, s.armTimer.todo = .submit r :: s.todo ∧
        ArmsExpiry (s.armTimer.req r)) ∧
      (s.timerReq.opcode = .timeout → s.SlotFree)) ∨
    (s.armTimer.halted ≠ none ∧ s.timerReq.opcode = .timeout ∧
      ¬ s.SlotFree) := by
  unfold armTimer
  split_ifs with htimer
  · cases hlist : s.reqsList with
    | none =>
      right
      simp only [processorGetReq, hlist]
      refine ⟨by simp [halt], htimer, ?_⟩
      rintro ⟨i, hi, -⟩
      exact absurd (hlist.symm.trans hi) (by simp)
    | some i =>
      cases hfly : (s.reqs i).inFlight with
      | true =>
        right
        simp only [processorGetReq, hlist, hfly, if_true]
        refine ⟨by simp [halt], htimer, ?_⟩
        rintro ⟨j, hj, hfree⟩
        obtain rfl := Option.some.inj (hlist.symm.trans hj)
        exact absurd (hfly.symm.trans hfree) (by decide)
      | false =>
        left
        simp only [processorGetReq, hlist, hfly, Bool.false_eq_true, if_false]
        refine ⟨rfl, rfl, ⟨.slot i, rfl, ?_⟩, fun _ => ⟨i, hlist, hfly⟩⟩
        right
        simp [Sys.req, setSlot]
  · exact Or.inl ⟨rfl, rfl, ⟨.timer, rfl, Or.inl ⟨rfl, rfl⟩⟩,
      fun h => absurd h htimer⟩

/-- With a slot where one is needed, the sign bit of the word decides. -/
theorem exits_iff_le (hlive : s.halted = none)
    (hfree : s.timerReq.opcode = .timeout → s.SlotFree) (flush : UInt64) :
    (s.verifierFlushEgressWords flush).halted = some .exit ↔
      2 ^ 63 ≤ flush.toNat := by
  by_cases hle : 2 ^ 63 ≤ flush.toNat
  · rw [verifierFlushEgressWords_of_le s hle]
    exact iff_of_true rfl hle
  · rw [verifierFlushEgressWords_of_lt s (Nat.not_le.mp hle)]
    refine iff_of_false (fun hexit => ?_) hle
    rcases armTimer_cases { s with expiry := timespecOf flush.toNat } with
      ⟨hhalt, -⟩ | ⟨-, htimer, hfull⟩
    · exact absurd ((hhalt.trans hlive).symm.trans hexit) (by simp)
    · exact hfull (hfree htimer)

/-- What is expected of `verifier_flush_egress`: it exits exactly where
`verifier_flush_out` has failed, and otherwise gives the timer the timeout that
`verifier_quic_flush` has chosen. -/
structure ExactTimeout (s : Sys B n) (flushOut : Int) (expiry now : UInt64)
    (t : Sys B n) : Prop where
  exits_iff : t.halted = some .exit ↔ flushOut ≠ 0
  armed : flushOut = 0 →
    t.halted = none ∧ Arms s t (chosenTimeout expiry now)

/-- For every expiry and every time, `verifier_flush_egress` does what is expected
exactly when the timeout is below `2 ^ 63` and a slot is there where the timer is
updated, or `verifier_flush_out` has failed. -/
theorem egress_timeout_exact_iff (s : Sys B n) (flushOut : Int)
    (expiry now : UInt64) (hlive : s.halted = none) :
    ExactTimeout s flushOut expiry now
        (s.verifierFlushEgressWords (verifierQuicFlush flushOut expiry now)) ↔
      (flushOut = 0 → chosenTimeout expiry now < 2 ^ 63 ∧
        (s.timerReq.opcode = .timeout → s.SlotFree)) := by
  by_cases hfail : flushOut = 0
  · subst hfail
    have hflush := toNat_verifierQuicFlush expiry now
    by_cases hlt : chosenTimeout expiry now < 2 ^ 63
    · rw [verifierFlushEgressWords_of_lt s (hflush.trans_lt hlt), hflush]
      rcases armTimer_cases
          { s with expiry := timespecOf (chosenTimeout expiry now) } with
        ⟨hhalt, hexpiry, hsubmit, hfree⟩ | ⟨hhalt, htimer, hfull⟩
      · have hrun := hhalt.trans hlive
        refine iff_of_true ⟨?_, fun _ => ⟨hrun, ?_⟩⟩ fun _ => ⟨hlt, hfree⟩
        · rw [hrun]
          simp
        · exact .of_expiry hexpiry hsubmit
      · refine iff_of_false (fun h => hhalt (h.armed rfl).1) fun h => ?_
        exact hfull ((h rfl).2 htimer)
    · have hle : 2 ^ 63 ≤ (verifierQuicFlush 0 expiry now).toNat := by
        rw [hflush]
        exact Nat.not_lt.mp hlt
      rw [verifierFlushEgressWords_of_le s hle]
      refine iff_of_false (fun h => ?_) fun h => hlt (h rfl).1
      exact absurd (h.armed rfl).1 (by simp [halt])
  · have hle : 2 ^ 63 ≤ (verifierQuicFlush flushOut expiry now).toNat := by
      rw [toNat_verifierQuicFlush_failed hfail]
      decide
    rw [verifierFlushEgressWords_of_le s hle]
    refine iff_of_true ⟨?_, fun h => absurd h hfail⟩ fun h => absurd h hfail
    exact iff_of_true rfl hfail

theorem egress_timeout_exact_at_start :
    let s := processorRun .concat (Boot.zeroed 1)
    let t := s.verifierFlushEgressWords
      (verifierQuicFlush 0 5000000007 2000000000)
    t.expiry = (3, 7) ∧ ExactTimeout s 0 5000000007 2000000000 t :=
  ⟨by decide +kernel, (egress_timeout_exact_iff _ 0 _ _ rfl).mpr
    fun _ => ⟨by decide, fun h => absurd h (by decide)⟩⟩

/-- The verifier connects, and the library has nothing to wait for: its expiry is
the largest word.  `verifier_flush_out` has succeeded, and the process exits. -/
theorem no_timer_exits :
    let s := run Sys.step (processorRun .concat (Boot.zeroed 1))
      (printedRun.take 14)
    let flush := verifierQuicFlush 0 18446744073709551615 1
    let t := s.verifierFlushEgressWords flush
    s.halted = none ∧ s.todo.head? = some .flushEgress ∧
      flush = 18446744073709551614 ∧ t.halted = some .exit ∧
      ¬ ExactTimeout s 0 18446744073709551615 1 t := by
  intro s flush t
  have hexit : t.halted = some .exit := by decide +kernel
  refine ⟨by decide +kernel, by decide +kernel, by decide, hexit, fun h => ?_⟩
  exact h.exits_iff.mp hexit rfl

/-! ## The runs -/

/-- The kernel accepts the time: it is not negative, and the nanoseconds are less
than a second. -/
def ValidTimespec (ts : Int × Int) : Prop :=
  0 ≤ ts.1 ∧ 0 ≤ ts.2 ∧ ts.2 < 1000000000

theorem validTimespec_timespecOf (timeout : Nat) :
    ValidTimespec (timespecOf timeout) := by
  obtain ⟨hsec, hnsec, hlt, -⟩ := timespecOf_spec timeout
  exact ⟨hsec, hnsec, hlt⟩

theorem newExpiry_eq (ans : Answers) :
    newExpiry ans = timespecOf ans.flush.toNat := by
  simp only [newExpiry, timespecOf, NGTCP2_SECONDS, Prod.mk.injEq]
  omega

/-- A step that the process survives leaves the expiry, or stores a timeout. -/
theorem Effect.expiry {a : SysStep n} (heff : Effect s a t)
    (hrun : t.halted = none) :
    t.expiry = s.expiry ∨ ∃ timeout, t.expiry = timespecOf timeout := by
  cases heff with
  | kernel act hto => cases hto <;> exact Or.inl rfl
  | dispatch ans htodo hout =>
    left
    cases hout with
    | idle => rfl
    | slot cqe hcur hreq hheld hout =>
      exact (hout.leavesTimer hheld.todo).expiry.trans
        (s.deliver_reaped cqe).expiry
    | fixed cqe hcur hfixed hinv hidle hout =>
      exact (hout.leavesTimer hrun).expiry.trans (s.deliver_reaped cqe).expiry
  | flush ans htodo hout =>
    cases hout with
    | ended hend => exact absurd hrun hend.halted
    | _ => exact Or.inr ⟨_, newExpiry_eq ans⟩
  | _ => exact Or.inl rfl

/-- In every run, the time that the timer requests point to is valid. -/
theorem expiry_valid_in_every_run [NeZero n] (boot : Boot n)
    (sched : List (SysStep n)) :
    let s := run Sys.step (processorRun B boot) sched
    s.halted = none → ValidTimespec s.expiry := by
  have hlive := live_run (P := fun s : Sys B n => ValidTimespec s.expiry)
    (fun s a hinv _ hlive hrun hvalid => by
      rcases (hinv.effect hlive a).expiry hrun with hsame | ⟨timeout, hnew⟩
      · rw [hsame]
        exact hvalid
      · rw [hnew]
        exact validTimespec_timespecOf timeout)
    boot (by simp [processorRun, ValidTimespec]) sched
  exact hlive.prop

end Sys

/-! ## The two models of a flush -/

/-- What `verifier_flush_out` returns in the round with this answer, if it is the
last one. -/
def Writev.flushOut : Writev → Option Int
  | .error => some (-1)
  | .zero => some 0
  | .packet _ sent => if sent then none else some 0
  | .writeMore _ => none

theorem Verifier.exited_flushed_iff (v : Verifier) (failed : Bool) :
    (v.flushed .flushEgress failed).phase = .exited ↔ failed = true := by
  cases failed <;> simp [Verifier.flushed]

/-- In `Verifier`, a flush of `verifier_flush_egress` exits exactly where
`verifier_flush_out` has failed. -/
theorem Verifier.exited_iff {v : Verifier}
    (hphase : v.phase = .flushing .flushEgress) {r : Writev} {flushOut : Int}
    (hwithin : r.Within v.verifierPrepVec.1)
    (hlast : r.flushOut = some flushOut) :
    (v.step (.writev r)).phase = .exited ↔ flushOut ≠ 0 := by
  have hstep : v.step (.writev r) = v.verifierFlushRound .flushEgress r := by
    simp only [Verifier.step, hphase, if_pos hwithin]
  rw [hstep]
  cases r with
  | writeMore w => exact absurd hlast (by simp [Writev.flushOut])
  | error =>
    obtain rfl := Option.some.inj hlast
    simp [Verifier.verifierFlushRound, Verifier.exited_flushed_iff]
  | zero =>
    obtain rfl := Option.some.inj hlast
    simp [Verifier.verifierFlushRound, Verifier.exited_flushed_iff]
  | packet w sent =>
    cases sent with
    | true => exact absurd hlast (by simp [Writev.flushOut])
    | false =>
      obtain rfl := Option.some.inj hlast
      simp only [Verifier.verifierFlushRound, Bool.false_eq_true, if_false]
      split
      · simp
      · simp [Verifier.exited_flushed_iff]

/-- Where the timeout is below `2 ^ 63` and a slot is there for an update, the
processor exits with the verifier. -/
theorem Sys.exits_with_verifier {B : Blake3} {n : Nat} {s : Sys B n}
    (hlive : s.halted = none)
    (hfree : s.timerReq.opcode = .timeout → s.SlotFree) {v : Verifier}
    (hphase : v.phase = .flushing .flushEgress) {r : Writev} {flushOut : Int}
    (hwithin : r.Within v.verifierPrepVec.1)
    (hlast : r.flushOut = some flushOut) {expiry now : UInt64}
    (htimeout : chosenTimeout expiry now < 2 ^ 63) (ans : Answers)
    (hflush : ans.flush = verifierQuicFlush flushOut expiry now) :
    (s.verifierFlushEgress ans).halted = some .exit ↔
      (v.step (.writev r)).phase = .exited := by
  rw [Verifier.exited_iff hphase hwithin hlast, verifierFlushEgress_eq_words,
    hflush, exits_iff_le hlive hfree]
  by_cases hfail : flushOut = 0
  · subst hfail
    rw [toNat_verifierQuicFlush]
    exact iff_of_false (Nat.not_le.mpr htimeout) (fun h => h rfl)
  · rw [toNat_verifierQuicFlush_failed hfail]
    exact iff_of_true (by decide) hfail

end Ride
