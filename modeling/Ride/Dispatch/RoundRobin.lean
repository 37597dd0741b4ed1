import Mathlib.Data.Int.CardIntervalMod
import Ride.CodeLib.Words
import Ride.Cli
import Ride.Dispatch.Tokens

/-!
# The round robin

`ride_ringbuf_handle` writes the token of an event to the eventfd with the number
`efd_next++ % queue_eventfd_len`.  The length is the number of threads of the
command line, and the counter is a signed word that counts the events.

`Dispatch` reads the counter as unsigned and lets it wrap.  `Ringbuf` is the same
part of the program with the expression as C defines it: it divides by zero where
there are no threads, and the counter overflows with event number `2 ^ 31`.
`run_dispatch` says that the two agree as long as the expression is defined.

A machine with one processor has no threads by default: `dispatch_undefined` has
both cases.  `dispatch_balanced_iff` is the result.
-/

namespace Ride

open CodeLib CodeLib.Getopt CodeLib.Machine

/-! ## The source functions -/

/-- What C leaves undefined. -/
inductive Undefined where
  | divisionByZero
  | signedOverflow
  | outOfBounds
deriving DecidableEq

/-- `efd_next++ % queue_eventfd_len`: the index, and the counter after it.  The
length makes the operands unsigned. -/
def nextEfd (efdNext : Int32) (queueEventfdLen : UInt32) :
    Except Undefined (Nat × Int32) :=
  if efdNext = Int32.maxValue then .error .signedOverflow
  else if queueEventfdLen = 0 then .error .divisionByZero
  else .ok ((efdNext.toUInt32 % queueEventfdLen).toNat, efdNext + 1)

/-- The queue, the counters of the eventfds, and the two numbers of the round
robin.  `targets` is history: the eventfds that were written to, in order. -/
structure Ringbuf (k : Nat) where
  queue : Queue
  queueEventfd : Fin k → Nat
  queueEventfdLen : UInt32
  efdNext : Int32
  targets : List Nat
  exited : Bool
  undefined : Option Undefined

/-- A call of `ride_ringbuf_handle`, and a call of `queue_consume_try` by a
processor. -/
inductive RingbufStep (k : Nat) where
  | handle (event : Event)
  | consume (i : Fin k)

namespace Ringbuf

/-- The state that `ride_run` sets up. -/
def start (threads : UInt64) (queue : Queue) : Ringbuf threads.toNat where
  queue := queueInit queue
  queueEventfd := fun _ => 0
  queueEventfdLen := threads.toUInt32
  efdNext := 0
  targets := []
  exited := false
  undefined := none

variable {k : Nat} {r : Ringbuf k}

/-- `ride_ringbuf_handle`. -/
def rideRingbufHandle (r : Ringbuf k) (event : Event) : Ringbuf k :=
  let r := { r with queue := (queueAdd r.queue event).2 }
  match nextEfd r.efdNext r.queueEventfdLen with
  | .error how => { r with undefined := some how }
  | .ok (i, next) =>
    if h : i < k then
      match eventfdWrite (r.queueEventfd ⟨i, h⟩) with
      | none => { r with efdNext := next, exited := true }
      | some efd =>
        { r with
          queueEventfd := Function.update r.queueEventfd ⟨i, h⟩ efd
          efdNext := next
          targets := r.targets ++ [i] }
    else { r with undefined := some .outOfBounds }

/-- The call of `queue_consume_try` that the processor `i` makes. -/
def consume (r : Ringbuf k) (i : Fin k) : Ringbuf k :=
  let c := queueConsumeTry r.queue .zero (r.queueEventfd i)
  { r with
    queue := c.queue
    queueEventfd := Function.update r.queueEventfd i c.efd }

/-- One step.  Nothing moves once the process has exited or something undefined
has happened. -/
def step (r : Ringbuf k) (a : RingbufStep k) : Ringbuf k :=
  if r.exited ∨ r.undefined.isSome then r
  else match a with
    | .handle event => r.rideRingbufHandle event
    | .consume i => r.consume i

/-- The number of events in a schedule. -/
def handled : List (RingbufStep k) → Nat
  | [] => 0
  | .handle _ :: rest => handled rest + 1
  | .consume _ :: rest => handled rest

/-- What a call of `ride_ringbuf_handle` can do. -/
inductive HandleTo (r : Ringbuf k) (event : Event) : Ringbuf k → Prop where
  | undefined (how : Undefined)
      (hnext : nextEfd r.efdNext r.queueEventfdLen = .error how) :
      HandleTo r event { r with
        queue := (queueAdd r.queue event).2
        undefined := some how }
  | outOfBounds :
      HandleTo r event { r with
        queue := (queueAdd r.queue event).2
        undefined := some .outOfBounds }
  | exits (next : Int32) :
      HandleTo r event { r with
        queue := (queueAdd r.queue event).2
        efdNext := next
        exited := true }
  | writes {i : Fin k} {next : Int32} {efd : Nat}
      (hnext : nextEfd r.efdNext r.queueEventfdLen = .ok (i, next))
      (hwrite : eventfdWrite (r.queueEventfd i) = some efd) :
      HandleTo r event { r with
        queue := (queueAdd r.queue event).2
        queueEventfd := Function.update r.queueEventfd i efd
        efdNext := next
        targets := r.targets ++ [i.val] }

theorem handleTo_handle (r : Ringbuf k) (event : Event) :
    HandleTo r event (r.rideRingbufHandle event) := by
  unfold rideRingbufHandle
  cases hnext : nextEfd r.efdNext r.queueEventfdLen with
  | error how =>
    simp only [hnext]
    exact .undefined how hnext
  | ok pair =>
    obtain ⟨i, next⟩ := pair
    simp only [hnext]
    split_ifs with hi
    · cases hwrite : eventfdWrite (r.queueEventfd ⟨i, hi⟩) with
      | none => exact .exits next
      | some efd => exact .writes (i := ⟨i, hi⟩) hnext hwrite
    · exact .outOfBounds

/-- What a step can do. -/
inductive StepTo (r : Ringbuf k) : RingbufStep k → Ringbuf k → Prop where
  | stopped (a : RingbufStep k) (hstop : r.exited = true ∨ r.undefined ≠ none) :
      StepTo r a r
  | handle {t : Ringbuf k} (event : Event) (hlive : r.exited = false)
      (hto : HandleTo r event t) : StepTo r (.handle event) t
  | consume (i : Fin k) (hlive : r.exited = false) :
      StepTo r (.consume i) (r.consume i)

theorem stepTo_step (r : Ringbuf k) (a : RingbufStep k) :
    StepTo r a (r.step a) := by
  unfold step
  split_ifs with hstop
  · exact .stopped a (hstop.imp_right Option.isSome_iff_ne_none.mp)
  · have hlive : r.exited = false := by
      simpa using fun h => hstop (Or.inl h)
    cases a with
    | handle event => exact .handle event hlive (r.handleTo_handle event)
    | consume i => exact .consume i hlive

/-! ## Defined runs -/

/-- The state after `m` events, while the counter has room for them. -/
structure After (m : Nat) (r : Ringbuf k) : Prop where
  len : r.queueEventfdLen.toNat = k
  efdNext : r.efdNext.toInt = m
  targets : r.targets = (List.range m).map (· % k)
  tokens : ∀ i, r.queueEventfd i ≤ m
  exited : r.exited = false
  undefined : r.undefined = none

theorem nextEfd_ok {efdNext : Int32} {len : UInt32} {m : Nat}
    (hm : efdNext.toInt = m) (hlt : m + 1 < 2 ^ 31) (hlen : len ≠ 0) :
    nextEfd efdNext len = .ok (m % len.toNat, efdNext + 1) := by
  have hmax : efdNext ≠ Int32.maxValue := by
    rintro rfl
    have : (2147483647 : Int) = m := hm
    omega
  rw [nextEfd, if_neg hmax, if_neg hlen, UInt32.toNat_mod,
    Words.toNat_toUInt32 hm]

theorem nextEfd_overflow {efdNext : Int32}
    (hm : efdNext.toInt = (2 ^ 31 - 1 : Nat)) (len : UInt32) :
    nextEfd efdNext len = .error .signedOverflow :=
  if_pos (Int32.toInt_inj.mp hm)

theorem eventfdWrite_of_lt {efd : Nat} (h : efd < 2 ^ 31) :
    eventfdWrite efd = some (efd + 1) :=
  if_pos (Nat.lt_trans h (by decide))

theorem After.len_ne_zero {m : Nat} (h : After m r) (hk : 0 < k) :
    r.queueEventfdLen ≠ 0 := by
  intro hzero
  have hlen := h.len
  rw [hzero] at hlen
  exact absurd hlen (Nat.ne_of_lt hk)

/-- An event is written to the next eventfd of the round. -/
theorem After.handle {m : Nat} (h : After m r) (hk : 0 < k)
    (hlt : m + 1 < 2 ^ 31) (event : Event) :
    After (m + 1) (r.rideRingbufHandle event) := by
  have hnext := nextEfd_ok h.efdNext hlt (h.len_ne_zero hk)
  rw [h.len] at hnext
  have hi : m % k < k := Nat.mod_lt m hk
  have hwrite : eventfdWrite (r.queueEventfd ⟨m % k, hi⟩) =
      some (r.queueEventfd ⟨m % k, hi⟩ + 1) :=
    eventfdWrite_of_lt (Nat.lt_of_le_of_lt (h.tokens _) (by omega))
  unfold rideRingbufHandle
  simp only [hnext, dif_pos hi, hwrite]
  refine ⟨h.len, Words.toInt_add_one h.efdNext hlt, ?_, ?_, h.exited,
    h.undefined⟩
  · rw [h.targets, List.range_succ, List.map_append]
    rfl
  · intro j
    have hj := h.tokens j
    by_cases heq : j = ⟨m % k, hi⟩
    · subst heq
      simp only [Function.update_self]
      omega
    · simp only [Function.update_of_ne heq]
      omega

theorem queueConsumeTry_efd_le (queue : Queue) (event : Event) (efd : Nat) :
    (queueConsumeTry queue event efd).efd ≤ efd := by
  unfold queueConsumeTry eventfdRead
  split_ifs <;> simp

/-- A consumer may take a token away. -/
theorem After.consume {m : Nat} (h : After m r) (i : Fin k) :
    After m (r.consume i) := by
  refine ⟨h.len, h.efdNext, h.targets, fun j => ?_, h.exited, h.undefined⟩
  have hj := h.tokens j
  by_cases heq : j = i
  · subst heq
    have hle := queueConsumeTry_efd_le r.queue .zero (r.queueEventfd j)
    simp only [Ringbuf.consume, Function.update_self]
    omega
  · simp only [Ringbuf.consume, Function.update_of_ne heq]
    exact hj

theorem After.step_eq {m : Nat} (h : After m r) (a : RingbufStep k) :
    r.step a = match a with
      | .handle event => r.rideRingbufHandle event
      | .consume i => r.consume i :=
  if_neg (by simp [h.exited, h.undefined])

/-- As long as the counter has room, every event is written to the next eventfd of
the round. -/
theorem After.run {m : Nat} (h : After m r) (hk : 0 < k)
    (sched : List (RingbufStep k)) (hlt : m + handled sched < 2 ^ 31) :
    After (m + handled sched) (run step r sched) := by
  induction sched generalizing r m with
  | nil => exact h
  | cons a rest ih =>
    rw [run_cons, h.step_eq]
    cases a with
    | handle event =>
      have hnext : m + handled (.handle event :: rest) =
          m + 1 + handled rest := by
        rw [handled]
        omega
      rw [hnext] at hlt ⊢
      exact ih (h.handle hk (by omega) event) hlt
    | consume i => exact ih (h.consume i) hlt

theorem step_of_undefined (h : r.undefined ≠ none) (a : RingbufStep k) :
    r.step a = r :=
  if_pos (Or.inr (Option.isSome_iff_ne_none.mpr h))

/-- With event number `2 ^ 31` the counter overflows. -/
theorem After.overflow {m : Nat} (h : After m r) (hk : 0 < k)
    (sched : List (RingbufStep k)) (hm : m < 2 ^ 31)
    (hle : 2 ^ 31 ≤ m + handled sched) :
    (Machine.run step r sched).undefined = some .signedOverflow := by
  induction sched generalizing r m with
  | nil =>
    rw [handled] at hle
    omega
  | cons a rest ih =>
    rw [run_cons, h.step_eq]
    cases a with
    | consume i => exact ih (h.consume i) hm hle
    | handle event =>
      rw [handled] at hle
      by_cases hlast : m + 1 < 2 ^ 31
      · exact ih (h.handle hk hlast event) hlast (by omega)
      · have hmax : r.efdNext.toInt = (2 ^ 31 - 1 : Nat) := by
          rw [h.efdNext]
          omega
        have hover := nextEfd_overflow hmax r.queueEventfdLen
        have hstop : (r.rideRingbufHandle event).undefined =
            some .signedOverflow := by
          simp only [rideRingbufHandle, hover]
        refine run_invariant (P := fun r : Ringbuf k =>
          r.undefined = some .signedOverflow) (fun r a hr => ?_) hstop rest
        rw [step_of_undefined (by simp [hr])]
        exact hr

/-! ## Balance -/

/-- In a round robin, every number has its turn as often as the others, or once
more. -/
theorem count_roundRobin_le {k : Nat} (hk : 0 < k) (m : Nat) {i j : Nat}
    (hi : i < k) (hj : j < k) :
    ((List.range m).map (· % k)).count i ≤
      ((List.range m).map (· % k)).count j + 1 := by
  have hcount : ∀ v, v < k → ((List.range m).map (· % k)).count v =
      m / k + if v < m % k then 1 else 0 := by
    intro v hv
    have hmod := Nat.count_modEq_card m hk v
    rw [Nat.mod_eq_of_lt hv] at hmod
    rw [← hmod, List.count_eq_countP, List.countP_map, Nat.count]
    refine List.countP_congr fun b _ => ?_
    simp [Nat.ModEq, Nat.mod_eq_of_lt hv]
  rw [hcount i hi, hcount j hj]
  split_ifs <;> omega

/-- What is expected of the dispatch after a number of events: there are threads,
nothing undefined has happened, every event has its token in range, and the tokens
are spread evenly. -/
structure Dispatches (events : Nat) (r : Ringbuf k) : Prop where
  len_ne : r.queueEventfdLen ≠ 0
  len_eq : r.queueEventfdLen.toNat = k
  defined : r.undefined = none
  written : r.targets.length = events
  index_lt : ∀ i ∈ r.targets, i < r.queueEventfdLen.toNat
  balanced : ∀ i j, i < k → j < k → r.targets.count i ≤ r.targets.count j + 1

theorem After.dispatches {m : Nat} (h : After m r) (hk : 0 < k) :
    Dispatches m r := by
  refine ⟨h.len_ne_zero hk, h.len, h.undefined, ?_, ?_, ?_⟩
  · rw [h.targets, List.length_map, List.length_range]
  · intro i hi
    rw [h.targets, List.mem_map] at hi
    obtain ⟨j, -, rfl⟩ := hi
    rw [h.len]
    exact Nat.mod_lt j hk
  · intro i j hi hj
    rw [h.targets]
    exact count_roundRobin_le hk m hi hj

theorem after_start (threads : UInt64) (hlt : threads.toNat < 2 ^ 32)
    (queue : Queue) : After 0 (start threads queue) where
  len := by
    show threads.toUInt32.toNat = _
    rw [UInt64.toNat_toUInt32, Nat.mod_eq_of_lt hlt]
  efdNext := rfl
  targets := rfl
  tokens := fun _ => Nat.le_refl _
  exited := rfl
  undefined := rfl

/-- The length never changes. -/
theorem len_run (r : Ringbuf k) (sched : List (RingbufStep k)) :
    (Machine.run step r sched).queueEventfdLen = r.queueEventfdLen := by
  refine run_invariant (P := fun t : Ringbuf k =>
    t.queueEventfdLen = r.queueEventfdLen) (fun t a ht => ?_) rfl sched
  have hstep := t.stepTo_step a
  generalize t.step a = u at hstep ⊢
  cases hstep with
  | handle event hlive hto => cases hto <;> exact ht
  | _ => exact ht

/-- A dispatch is as expected exactly when there are threads, no more than the
length can hold, and fewer than `2 ^ 31` events. -/
theorem dispatches_start_iff (threads : UInt64) (queue : Queue)
    (sched : List (RingbufStep threads.toNat)) :
    Dispatches (handled sched) (Machine.run step (start threads queue) sched) ↔
      (threads.toNat ≠ 0 ∧ threads.toNat < 2 ^ 32) ∧ handled sched < 2 ^ 31 := by
  constructor
  · intro h
    have hlen : threads.toUInt32.toNat = threads.toNat := by
      rw [← h.len_eq, len_run]
      rfl
    have hlt : threads.toNat < 2 ^ 32 := by
      rw [← hlen]
      exact threads.toUInt32.toNat_lt
    have hne : threads.toNat ≠ 0 := by
      intro hzero
      apply h.len_ne
      rw [len_run]
      exact UInt32.toNat_inj.mp (hlen.trans hzero)
    refine ⟨⟨hne, hlt⟩, Nat.not_le.mp fun hle => ?_⟩
    have hover := (after_start threads hlt queue).overflow
      (Nat.pos_of_ne_zero hne) sched (by decide) (by omega)
    exact absurd (h.defined.symm.trans hover) (by simp)
  · rintro ⟨⟨hne, hlt⟩, hevents⟩
    have hafter := (after_start threads hlt queue).run
      (Nat.pos_of_ne_zero hne) sched (by omega)
    rw [Nat.zero_add] at hafter
    exact hafter.dispatches (Nat.pos_of_ne_zero hne)

/-! ## The round robin of the counting model -/

/-- The state in the terms of `Dispatch`, between two calls of the producer. -/
def dispatch (r : Ringbuf k) : Dispatch k where
  queue := r.queue
  efds := r.queueEventfd
  efdNext := r.efdNext.toUInt32
  producer := .idle
  exited := r.exited

/-- A step in the terms of `Dispatch`. -/
def expand : RingbufStep k → List (DispatchStep k)
  | .handle event => [.queueAdd event, .eventfdWrite]
  | .consume i => [.queueConsumeTry i]

variable [NeZero k]

/-- Where the expression is defined, the index is the one that `Dispatch`
chooses. -/
theorem nextEfd_target {i : Fin k} {next : Int32}
    (hlen : r.queueEventfdLen.toNat = k)
    (hnext : nextEfd r.efdNext r.queueEventfdLen = .ok (i.val, next)) :
    i = r.dispatch.target ∧ next.toUInt32 = r.dispatch.efdNext + 1 := by
  unfold nextEfd at hnext
  split_ifs at hnext
  obtain ⟨hi, rfl⟩ := Prod.mk.inj (Except.ok.inj hnext)
  refine ⟨Fin.ext ?_, Int32.toUInt32_add ..⟩
  rw [← hi, UInt32.toNat_mod, hlen]
  rfl

/-- A step that is defined is one or two steps of `Dispatch`. -/
theorem dispatch_step (hlen : r.queueEventfdLen.toNat = k) {a : RingbufStep k}
    (hrun : (r.step a).exited = false) (hdef : (r.step a).undefined = none) :
    (r.step a).dispatch = run Dispatch.step r.dispatch (expand a) := by
  have hstep := r.stepTo_step a
  generalize r.step a = t at hstep hrun hdef ⊢
  cases hstep with
  | stopped a hstop =>
    rcases hstop with hexit | hundef
    · exact absurd (hexit.symm.trans hrun) (by decide)
    · exact absurd hdef hundef
  | consume i hlive =>
    rw [expand, run_cons, run_nil, Dispatch.step,
      if_neg (by simp [dispatch, hlive])]
    rfl
  | handle event hlive hto =>
    cases hto with
    | writes hnext hwrite =>
      obtain ⟨rfl, hcounter⟩ := nextEfd_target hlen hnext
      rw [expand, Dispatch.run_handle rfl hlive event hwrite, ← hcounter]
      rfl
    | exits => exact absurd hrun (by simp)
    | _ => exact absurd hdef (by simp)

omit [NeZero k] in
theorem live_of_step {a : RingbufStep k}
    (h : (r.step a).exited = false ∧ (r.step a).undefined = none) :
    r.exited = false ∧ r.undefined = none := by
  have hstep := r.stepTo_step a
  generalize r.step a = t at hstep h
  cases hstep with
  | handle event hlive hto =>
    cases hto with
    | writes => exact h
    | exits => exact absurd h.1 (by simp)
    | _ => exact absurd h.2 (by simp)
  | _ => exact h

/-- A run that is defined is a run of `Dispatch`. -/
theorem run_dispatch (hlen : r.queueEventfdLen.toNat = k)
    (sched : List (RingbufStep k))
    (hend : (Machine.run step r sched).exited = false ∧
      (Machine.run step r sched).undefined = none) :
    (Machine.run step r sched).dispatch =
      Machine.run Dispatch.step r.dispatch (sched.flatMap expand) := by
  induction sched generalizing r with
  | nil => rfl
  | cons a rest ih =>
    have hlive : (r.step a).exited = false ∧ (r.step a).undefined = none :=
      alive_of_run (A := fun t : Ringbuf k =>
        t.exited = false ∧ t.undefined = none) (fun _ _ h => live_of_step h)
        (s := r.step a) hend
    have hlen' : (r.step a).queueEventfdLen.toNat = k :=
      (congrArg UInt32.toNat (len_run r [a])).trans hlen
    rw [run_cons, ih hlen' hend, dispatch_step hlen hlive.1 hlive.2,
      List.flatMap_cons]
    exact (List.foldl_append ..).symm

/-- As long as the counter has room, the events in the queue are covered by the
tokens in the eventfds. -/
theorem pending_le_tokens {threads : UInt64} [NeZero threads.toNat]
    (hlt : threads.toNat < 2 ^ 32) (queue : Queue)
    (sched : List (RingbufStep threads.toNat))
    (hevents : handled sched < 2 ^ 31) :
    let r := Machine.run step (start threads queue) sched
    r.queue.pending.length ≤ ∑ i, r.queueEventfd i := by
  intro r
  have hafter := (after_start threads hlt queue).run (Nat.pos_of_neZero _) sched
    (by omega)
  have hsame := run_dispatch (after_start threads hlt queue).len sched
    ⟨hafter.exited, hafter.undefined⟩
  have hcovered : r.dispatch.Covered := by
    rw [hsame]
    exact run_invariant (fun _ a h => h.step a) (Dispatch.covered_start queue) _
  exact hcovered.covered

end Ringbuf

/-- For every command line that is accepted, on a machine with any number of
processors, and every run of any length, the dispatch is defined and balanced
exactly when the number of threads is given or there are from 2 to `2 ^ 33 - 1`
processors, and there are fewer than `2 ^ 31` events. -/
theorem dispatch_balanced_iff (env : Environment)
    (args : List { arg : Bytes // 0 ∉ arg }) {out : CliArgs}
    (hproc : 1 ≤ env.nprocessorsOnln)
    (haccept : parseEnv env (.start env) args = .ok out) (queue : Queue)
    (sched : List (RingbufStep out.threads.toNat)) :
    Ringbuf.Dispatches (Ringbuf.handled sched)
        (run Ringbuf.step (Ringbuf.start out.threads queue) sched) ↔
      (GivesThreads (getopt env args).1 ∨
        2 ≤ env.nprocessorsOnln.toInt ∧ env.nprocessorsOnln.toInt < 2 ^ 33) ∧
      Ringbuf.handled sched < 2 ^ 31 := by
  rw [Ringbuf.dispatches_start_iff]
  refine and_congr_left fun _ => ?_
  rcases parseEnv_threads haccept with ⟨hgiven, hne, hle⟩ | ⟨hno, hdefault⟩
  · refine iff_of_true ⟨?_, ?_⟩ (Or.inl hgiven)
    · exact fun hzero => hne (UInt64.toNat_inj.mp hzero)
    · exact Nat.lt_of_le_of_lt (UInt64.le_iff_toNat_le.mp hle) (by decide)
  · have hthreads := toNat_defaultThreads hproc
    rw [← hdefault] at hthreads
    rw [or_iff_right hno, hthreads]
    omega

/-- A machine with one processor. -/
def oneProcessor : Environment where
  strtoll := fun _ => 1
  posixlyCorrect := false
  nprocessorsOnln := 1

/-- The command line `-t 1 /` is accepted on a machine with one processor, and one
event has its token. -/
theorem dispatch_balanced_with_option :
    let args : List { arg : Bytes // 0 ∉ arg } :=
      [⟨['-', 't', '1'].map Char.toUInt8, by decide⟩, ⟨[47], by decide⟩]
    ∃ out, parseEnv oneProcessor (.start oneProcessor) args = .ok out ∧
      out.threads = 1 ∧
      Ringbuf.Dispatches 1 (run Ringbuf.step
        (Ringbuf.start out.threads ⟨fun _ => .zero, 0, 0⟩) [.handle .zero]) := by
  intro args
  refine ⟨{ CliArgs.start oneProcessor with threads := 1 }.setWatchPath [47],
    rfl, rfl, ?_⟩
  exact (dispatch_balanced_iff oneProcessor args (by decide) rfl _
    [.handle .zero]).mpr ⟨Or.inl ⟨some [49], by decide⟩, by decide⟩

/-- Without the option a machine with one processor has no threads, and the first
event divides by zero.  With one thread, the counter overflows after `2 ^ 31`
events. -/
theorem dispatch_undefined :
    let args : List { arg : Bytes // 0 ∉ arg } := [⟨[47], by decide⟩]
    let out := (CliArgs.start oneProcessor).setWatchPath [47]
    let queue : Queue := ⟨fun _ => .zero, 0, 0⟩
    (parseEnv oneProcessor (.start oneProcessor) args = .ok out ∧
        out.threads = 0 ∧
        (run Ringbuf.step (Ringbuf.start out.threads queue)
          [.handle .zero]).undefined = some .divisionByZero) ∧
      (run Ringbuf.step (Ringbuf.start 1 queue)
        (List.replicate (2 ^ 31) (.handle .zero))).undefined =
          some .signedOverflow := by
  intro args out queue
  refine ⟨⟨rfl, by decide, by decide +kernel⟩, ?_⟩
  have hevents : ∀ m, Ringbuf.handled (k := (1 : UInt64).toNat)
      (List.replicate m (.handle .zero)) = m := by
    intro m
    induction m with
    | zero => rfl
    | succ m ih => rw [List.replicate_succ, Ringbuf.handled, ih]
  exact (Ringbuf.after_start 1 (by decide) queue).overflow
    (by decide) _ (by decide) (by rw [hevents]; decide)

end Ride
