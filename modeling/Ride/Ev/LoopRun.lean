import Ride.CodeLib.Machine
import Ride.Ev.Completion
import Ride.Ev.Submission

/-!
# A run of `ev_loop_run` while the kernel posts

`LoopRun` cuts the body of the loop at every access to the completion ring and
to the request, and lets the kernel post between any two of them.  A callback
may change every request, and the kernel may post while it runs.

There are three groups.

* The invariant.  `LoopRun.FetchInv` says what the body has read so far, and
  `LoopRun.Inv` adds that the posted completions are the ones that callbacks
  were given, followed by the ones that wait.
* The end of a batch.  `remaining` counts the steps of the loop up to the store
  of `head`.  No step of the kernel changes it, so a batch ends after a number
  of steps that is known when it starts.
* The assembly.  `completions_dispatched_in_order` is the result.
-/

namespace Ride

open CodeLib CodeLib.Machine

variable {W P : Type}

/-! ## The body of the loop cut into its loads and stores -/

/-- Where the body is with the entry at the index: before the test of the loop,
after the load of `user_data`, after the store of `result`, after the store of
`result_flags`, or in the callback. -/
inductive Fetch (P : Type) where
  | testing
  | named (req : P)
  | resulted (req : P)
  | flagged (req : P)
  | calling

/-- The number of steps that the body makes for one entry: the loads of
`user_data`, `res` and `flags`, the call and the return. -/
def ENTRY_STEPS : Nat := 5

/-- The steps that the body has made for the entry at the index. -/
def Fetch.made : Fetch P → Nat
  | .testing => 0
  | .named _ => 1
  | .resulted _ => 2
  | .flagged _ => 3
  | .calling => 4

/-- The callbacks that the body has made for the entry at the index. -/
def Fetch.called : Fetch P → Nat
  | .calling => 1
  | _ => 0

/-- A batch that is over: the values of `head` and `tail` at its start, and the
count `n` of its callbacks. -/
structure Batch where
  head : UInt32
  tail : UInt32
  n : UInt32

/-- The loop, its count `n` of callbacks and the memory of the requests.  The
last three fields are history: the completions that the kernel has posted, what
callbacks were given, and the batches that are over. -/
structure LoopRun (W P : Type) where
  reaper : Reaper P
  fetch : Fetch P
  n : UInt32
  reqs : P → IoReq W
  posted : List (Cqe P)
  dispatched : List (Cqe P)
  batches : List Batch

/-- The steps: the loop goes on by one load, store, call or return, the kernel
posts a completion, or the running callback changes a request. -/
inductive LoopStep (W P : Type) where
  | proceed
  | post (cqe : Cqe P)
  | mutate (name : P) (req : IoReq W)

/-- A step of the loop. -/
def LoopStep.isProceed : LoopStep W P → Bool
  | .proceed => true
  | _ => false

namespace LoopRun

/-- A run starts on an empty ring, with any counter value and any content. -/
def start (mask : RingMask) (counter : UInt32) (cqes : Nat → Cqe P)
    (reqs : P → IoReq W) : LoopRun W P where
  reaper := .start mask counter cqes
  fetch := .testing
  n := 0
  reqs := reqs
  posted := []
  dispatched := []
  batches := []

/-- The test of the loop, and the load of `user_data` behind it.  Outside the
walk it is the return of the poll, and at the end of the walk it is the store
of `head`. -/
def proceedTest (s : LoopRun W P) : LoopRun W P :=
  match s.reaper.pos with
  | .polling => { s with reaper := s.reaper.load, n := 0 }
  | .reaping _ tail =>
    match s.reaper.current with
    | some cqe => { s with fetch := .named cqe.userData }
    | none =>
      { s with
        reaper := s.reaper.publish
        batches := s.batches ++ [⟨s.reaper.ring.head, tail, s.n⟩] }

/-- The loop goes on by one step. -/
def proceed [DecidableEq P] (s : LoopRun W P) : LoopRun W P :=
  match s.fetch, s.reaper.current with
  | .testing, _ => s.proceedTest
  | .named req, some cqe =>
    { s with
      fetch := .resulted req
      reqs := Function.update s.reqs req
        { s.reqs req with result := cqe.res } }
  | .resulted req, some cqe =>
    { s with
      fetch := .flagged req
      reqs := Function.update s.reqs req
        { s.reqs req with resultFlags := cqe.flags } }
  | .flagged req, some _ =>
    -- the callback finds the result in the request
    { s with
      fetch := .calling
      dispatched := s.dispatched ++
        [⟨req, (s.reqs req).result, (s.reqs req).resultFlags⟩] }
  | .calling, some _ =>
    { s with fetch := .testing, n := s.n + 1, reaper := s.reaper.advance }
  | _, none => s

/-- One step of any party. -/
def step [DecidableEq P] (s : LoopRun W P) : LoopStep W P → LoopRun W P
  | .proceed => s.proceed
  | .post cqe =>
    { s with
      reaper := s.reaper.post cqe
      posted := s.posted ++ (if s.reaper.room then [cqe] else []) }
  | .mutate name req =>
    match s.fetch with
    | .calling => { s with reqs := Function.update s.reqs name req }
    | _ => s

/-! ## The invariant of a run -/

/-- The completions that no callback has been given yet.  While a callback
runs, the index still is at its entry. -/
def waiting (s : LoopRun W P) : List (Cqe P) :=
  match s.fetch with
  | .calling => s.reaper.unreaped.tail
  | _ => s.reaper.unreaped

/-- What the body has read from the entry at the index, and where it has put
it. -/
def Reads (reqs : P → IoReq W) (cqe : Cqe P) : Fetch P → Prop
  | .testing => True
  | .named req => req = cqe.userData
  | .resulted req => req = cqe.userData ∧ (reqs req).result = cqe.res
  | .flagged req =>
    req = cqe.userData ∧ (reqs req).result = cqe.res ∧
      (reqs req).resultFlags = cqe.flags
  | .calling => True

/-- Behind the test the body has an entry. -/
def FetchInv (s : LoopRun W P) : Prop :=
  s.fetch ≠ .testing →
    ∃ cqe, s.reaper.current = some cqe ∧ Reads s.reqs cqe s.fetch

/-- The invariant of a run. -/
structure Inv (m : RingMask) (s : LoopRun W P) : Prop where
  mask_eq : s.reaper.ring.mask = m
  wf : s.reaper.Wf
  fetch : s.FetchInv
  count : ∀ i tail, s.reaper.pos = .reaping i tail →
    s.n.toNat = dist s.reaper.ring.head i
  batches : ∀ b ∈ s.batches, b.n.toNat = dist b.head b.tail
  conserved : s.posted = s.dispatched ++ s.waiting

theorem inv_start (m : RingMask) (counter : UInt32) (cqes : Nat → Cqe P)
    (reqs : P → IoReq W) : Inv m (start m counter cqes reqs) where
  mask_eq := rfl
  wf := Reaper.wf_start m counter cqes
  fetch := fun hf => absurd rfl hf
  count := by
    intro i tail hpos
    exact absurd hpos (by simp [start, Reaper.start])
  batches := by simp [start]
  conserved := by simp [start, waiting]

/-- Between two batches the body is before the test. -/
theorem Inv.testing_of_polling {m : RingMask} {s : LoopRun W P} (h : Inv m s)
    (hpos : s.reaper.pos = .polling) : s.fetch = .testing := by
  by_contra hf
  obtain ⟨cqe, hcur, -⟩ := h.fetch hf
  simp [Reaper.current, hpos] at hcur

/-- The poll returns, and a batch starts with no callback made. -/
theorem Inv.load {m : RingMask} {s : LoopRun W P} (h : Inv m s)
    (hf : s.fetch = .testing) (hpos : s.reaper.pos = .polling) :
    Inv m { s with reaper := s.reaper.load, n := 0 } := by
  have hpend := h.conserved
  simp only [waiting, hf] at hpend
  refine ⟨?_, h.wf.load, ?_, ?_, h.batches, ?_⟩
  · simp only [Reaper.load, hpos]
    exact h.mask_eq
  · exact fun hne => absurd hf hne
  · intro i tail hpos'
    simp only [Reaper.load, hpos] at hpos' ⊢
    cases hpos'
    simp
  · simp only [waiting, hf, Reaper.unreaped_load]
    exact hpend

/-- At the end of the walk the count is the length of the batch. -/
theorem Inv.count_eq {m : RingMask} {s : LoopRun W P} (h : Inv m s)
    {i tail : UInt32} (hpos : s.reaper.pos = .reaping i tail)
    (hcur : s.reaper.current = none) : i = tail ∧
      s.n = tail - s.reaper.ring.head := by
  have hend : i = tail := by
    simp only [Reaper.current, hpos] at hcur
    split_ifs at hcur with heq
    exact heq
  have hcount := h.count i tail hpos
  rw [hend] at hcount
  exact ⟨hend, UInt32.toNat_inj.mp hcount⟩

/-- The test starts the body on an entry, or ends the batch. -/
theorem Inv.proceedTest {m : RingMask} {s : LoopRun W P} (h : Inv m s)
    (hf : s.fetch = .testing) : Inv m s.proceedTest := by
  have hpend := h.conserved
  simp only [waiting, hf] at hpend
  cases hpos : s.reaper.pos with
  | polling =>
    simp only [LoopRun.proceedTest, hpos]
    exact h.load hf hpos
  | reaping i tail =>
    simp only [LoopRun.proceedTest, hpos]
    cases hcur : s.reaper.current with
    | some cqe =>
      refine ⟨h.mask_eq, h.wf, fun _ => ⟨cqe, hcur, rfl⟩, h.count,
        h.batches, ?_⟩
      simp only [waiting]
      exact hpend
    | none =>
      obtain ⟨hend, hn⟩ := h.count_eq hpos hcur
      refine ⟨?_, h.wf.publish, ?_, ?_, ?_, ?_⟩
      · simp only [Reaper.publish, hpos, if_pos hend]
        exact h.mask_eq
      · exact fun hne => absurd hf hne
      · intro j t hpos'
        simp only [Reaper.publish, hpos, if_pos hend] at hpos'
        cases hpos'
      · intro b hb
        rcases List.mem_append.mp hb with hold | hnew
        · exact h.batches b hold
        · rw [List.mem_singleton.mp hnew]
          simp only [hn]
          rfl
      · simp only [waiting, hf, Reaper.unreaped_publish]
        exact hpend

/-- The callback is over, and the index moves on. -/
theorem Inv.return {m : RingMask} {s : LoopRun W P} (h : Inv m s)
    (hf : s.fetch = .calling) {cqe : Cqe P} (hcur : s.reaper.current = some cqe) :
    Inv m { s with
      fetch := .testing, n := s.n + 1, reaper := s.reaper.advance } := by
  have hpend := h.conserved
  have hcons := Reaper.unreaped_cons h.wf hcur
  cases hpos : s.reaper.pos with
  | polling => simp [Reaper.current, hpos] at hcur
  | reaping i tail =>
    have hne : i ≠ tail := by
      intro heq
      simp [Reaper.current, hpos, heq] at hcur
    obtain ⟨hi, htail⟩ := h.wf.pos_le i tail hpos
    have hsplit := dist_split hi
    have hdist : dist i tail ≠ 0 := mt dist_eq_zero.mp hne
    have hle := h.wf.tail_le
    have hsize := s.reaper.ring.mask.size_le
    refine ⟨?_, h.wf.advance, fun hne => absurd rfl hne, ?_, h.batches, ?_⟩
    · simp only [Reaper.advance, hpos, if_neg hne]
      exact h.mask_eq
    · intro j t hpos'
      simp only [Reaper.advance, hpos, if_neg hne] at hpos' ⊢
      cases hpos'
      have hcount := h.count i tail hpos
      rw [dist_add_one (by omega), ← hcount, UInt32.toNat_add,
        UInt32.toNat_one, Nat.mod_eq_of_lt (by omega)]
    · simp only [waiting, hf] at hpend ⊢
      rw [hpend, hcons, List.tail_cons]

theorem Inv.proceed [DecidableEq P] {m : RingMask} {s : LoopRun W P}
    (h : Inv m s) : Inv m s.proceed := by
  by_cases hf : s.fetch = .testing
  · simp only [LoopRun.proceed, hf]
    exact h.proceedTest hf
  obtain ⟨cqe, hcur, hreads⟩ := h.fetch hf
  have hpend := h.conserved
  unfold waiting at hpend
  cases hfetch : s.fetch with
  | testing => exact absurd hfetch hf
  | named req =>
    simp only [hfetch] at hreads hpend
    simp only [LoopRun.proceed, hfetch, hcur]
    refine ⟨h.mask_eq, h.wf, fun _ => ⟨cqe, hcur, hreads, ?_⟩, h.count,
      h.batches, hpend⟩
    simp only [Function.update_self]
  | resulted req =>
    simp only [hfetch] at hreads hpend
    simp only [LoopRun.proceed, hfetch, hcur]
    refine ⟨h.mask_eq, h.wf, fun _ => ⟨cqe, hcur, hreads.1, ?_, ?_⟩, h.count,
      h.batches, hpend⟩
    · simp only [Function.update_self]
      exact hreads.2
    · simp only [Function.update_self]
  | flagged req =>
    simp only [hfetch] at hreads hpend
    obtain ⟨hreq, hres, hflags⟩ := hreads
    simp only [LoopRun.proceed, hfetch, hcur]
    refine ⟨h.mask_eq, h.wf, fun _ => ⟨cqe, hcur, trivial⟩, h.count,
      h.batches, ?_⟩
    simp only [waiting]
    rw [hpend, hres, hflags, hreq, Reaper.unreaped_cons h.wf hcur,
      List.tail_cons, List.append_assoc, List.singleton_append]
  | calling =>
    simp only [LoopRun.proceed, hfetch, hcur]
    exact h.return hfetch hcur

/-- What the kernel appends waits behind the others. -/
theorem Inv.waiting_post [DecidableEq P] {m : RingMask} {s : LoopRun W P}
    (h : Inv m s) (cqe : Cqe P) :
    (s.step (.post cqe)).waiting =
      s.waiting ++ (if s.reaper.room then [cqe] else []) := by
  have hpost := Reaper.unreaped_post h.wf cqe
  simp only [waiting, LoopRun.step]
  cases hf : s.fetch with
  | calling =>
    obtain ⟨first, hcur, -⟩ := h.fetch (by simp [hf])
    simp only
    rw [hpost, Reaper.unreaped_cons h.wf hcur, List.cons_append,
      List.tail_cons, List.tail_cons]
  | testing => exact hpost
  | named req => exact hpost
  | resulted req => exact hpost
  | flagged req => exact hpost

/-- The kernel appends, and the body keeps what it has read. -/
theorem Inv.post [DecidableEq P] {m : RingMask} {s : LoopRun W P}
    (h : Inv m s) (cqe : Cqe P) : Inv m (s.step (.post cqe)) := by
  obtain ⟨hmask, hhead⟩ := s.reaper.post_frame cqe
  refine ⟨?_, h.wf.post cqe, ?_, ?_, h.batches, ?_⟩
  · show (s.reaper.post cqe).ring.mask = m
    rw [hmask]
    exact h.mask_eq
  · intro hf
    obtain ⟨first, hcur, hreads⟩ := h.fetch hf
    exact ⟨first, Reaper.current_post h.wf hcur cqe, hreads⟩
  · intro i tail hpos
    have hcount := h.count i tail (by rwa [← s.reaper.post_pos cqe])
    show s.n.toNat = dist (s.reaper.post cqe).ring.head i
    rw [hhead]
    exact hcount
  · rw [h.waiting_post cqe]
    show s.posted ++ _ = _
    rw [h.conserved, List.append_assoc]
    rfl

theorem Inv.step [DecidableEq P] {m : RingMask} {s : LoopRun W P}
    (h : Inv m s) (a : LoopStep W P) : Inv m (s.step a) := by
  cases a with
  | proceed => exact h.proceed
  | post cqe => exact h.post cqe
  | mutate name req =>
    cases hf : s.fetch with
    | calling =>
      have hpend := h.conserved
      obtain ⟨cqe, hcur, -⟩ := h.fetch (by simp [hf])
      simp only [waiting, hf] at hpend
      simp only [LoopRun.step, hf]
      exact ⟨h.mask_eq, h.wf, fun _ => ⟨cqe, hcur, trivial⟩, h.count,
        h.batches, hpend⟩
    | testing => simpa only [LoopRun.step, hf] using h
    | named _ => simpa only [LoopRun.step, hf] using h
    | resulted _ => simpa only [LoopRun.step, hf] using h
    | flagged _ => simpa only [LoopRun.step, hf] using h

/-! ## A batch ends -/

/-- The number of steps of the loop up to the end of its batch. -/
def remaining (s : LoopRun W P) : Nat :=
  match s.reaper.pos with
  | .polling => 0
  | .reaping i tail => ENTRY_STEPS * dist i tail + 1 - s.fetch.made

/-- The number of callbacks at the end of the batch, the value of `head` that it
publishes, and the batches with this one. -/
def outcome (s : LoopRun W P) : Nat × UInt32 × List Batch :=
  match s.reaper.pos with
  | .polling => (s.dispatched.length, s.reaper.ring.head, s.batches)
  | .reaping i tail =>
    (s.dispatched.length + dist i tail - s.fetch.called, tail,
      s.batches ++ [⟨s.reaper.ring.head, tail, tail - s.reaper.ring.head⟩])

section Ends

variable [DecidableEq P] {m : RingMask} {s : LoopRun W P}

/-- A step of the loop inside a batch brings the end of the batch closer, and
does not change what the batch leaves behind. -/
theorem Inv.batch_proceed (h : Inv m s) (hin : s.reaper.pos ≠ .polling) :
    s.proceed.remaining + 1 = s.remaining ∧ s.proceed.outcome = s.outcome := by
  cases hpos : s.reaper.pos with
  | polling => exact absurd hpos hin
  | reaping i tail =>
    cases hcur : s.reaper.current with
    | none =>
      have hf : s.fetch = .testing := by
        by_contra hf
        obtain ⟨cqe, hsome, -⟩ := h.fetch hf
        rw [hcur] at hsome
        exact absurd hsome (by simp)
      obtain ⟨hend, hn⟩ := h.count_eq hpos hcur
      simp only [LoopRun.proceed, hf, LoopRun.proceedTest, hpos, hcur,
        remaining, outcome, Reaper.publish, hn, hend, dist_self,
        Fetch.made, Fetch.called]
      exact ⟨rfl, rfl⟩
    | some cqe =>
      have hne : i ≠ tail := by
        intro heq
        simp [Reaper.current, hpos, heq] at hcur
      have hsucc := dist_head_succ hne
      cases hf : s.fetch with
      | calling =>
        simp only [LoopRun.proceed, hf, hcur, remaining, outcome,
          Reaper.advance, hpos, if_neg hne, Fetch.made, Fetch.called,
          ENTRY_STEPS]
        refine ⟨by omega, ?_⟩
        rw [Prod.mk.injEq]
        exact ⟨by omega, rfl⟩
      | testing =>
        simp only [LoopRun.proceed, hf, LoopRun.proceedTest, hcur, remaining,
          outcome, hpos, Fetch.made, Fetch.called, ENTRY_STEPS]
        exact ⟨by omega, trivial⟩
      | named req =>
        simp only [LoopRun.proceed, hf, hcur, remaining, outcome, hpos,
          Fetch.made, Fetch.called, ENTRY_STEPS]
        exact ⟨by omega, trivial⟩
      | resulted req =>
        simp only [LoopRun.proceed, hf, hcur, remaining, outcome, hpos,
          Fetch.made, Fetch.called, ENTRY_STEPS]
        exact ⟨by omega, trivial⟩
      | flagged req =>
        simp only [LoopRun.proceed, hf, hcur, remaining, outcome, hpos,
          Fetch.made, Fetch.called, ENTRY_STEPS, List.length_append,
          List.length_singleton]
        refine ⟨by omega, ?_⟩
        rw [Prod.mk.injEq]
        exact ⟨by omega, rfl⟩

/-- The kernel and the callbacks do not move the end of a batch. -/
theorem batch_frame {a : LoopStep W P} (ha : a.isProceed = false) :
    (s.step a).remaining = s.remaining ∧ (s.step a).outcome = s.outcome := by
  cases a with
  | proceed => exact absurd ha (by simp [LoopStep.isProceed])
  | post cqe =>
    obtain ⟨-, hhead⟩ := s.reaper.post_frame cqe
    have hpos := s.reaper.post_pos cqe
    simp only [LoopRun.step, remaining, outcome, hpos, hhead]
    exact ⟨trivial, trivial⟩
  | mutate name req =>
    simp only [LoopRun.step]
    split <;> exact ⟨rfl, rfl⟩

/-- A batch ends after as many steps of the loop as `remaining` says, with the
kernel at work between any two of them, and leaves its outcome behind. -/
theorem Inv.batch_ends (h : Inv m s) {steps : List (LoopStep W P)}
    (hcount : steps.countP LoopStep.isProceed = s.remaining) :
    (run LoopRun.step s steps).reaper.pos = .polling ∧
      (run LoopRun.step s steps).outcome = s.outcome := by
  induction steps generalizing s with
  | nil =>
    refine ⟨?_, rfl⟩
    rw [run_nil]
    cases hpos : s.reaper.pos with
    | polling => rfl
    | reaping i tail =>
      have hmade : s.fetch = .testing ∨ 0 < dist i tail := by
        by_cases hf : s.fetch = .testing
        · exact Or.inl hf
        · obtain ⟨cqe, hcur, -⟩ := h.fetch hf
          refine Or.inr ?_
          have hsome : s.reaper.current.isSome := by simp [hcur]
          rw [Reaper.current_isSome] at hsome
          simpa only [Reaper.todo, hpos] using hsome
      have hlt : s.fetch.made < ENTRY_STEPS := by
        cases s.fetch <;> simp [Fetch.made, ENTRY_STEPS]
      simp only [remaining, hpos, List.countP_nil] at hcount
      rcases hmade with hf | hpositive
      · rw [hf, Fetch.made] at hcount
        omega
      · rw [ENTRY_STEPS] at hcount hlt
        omega
  | cons a rest ih =>
    rw [List.countP_cons] at hcount
    rw [run_cons]
    cases ha : a.isProceed with
    | false =>
      obtain ⟨hrem, hout⟩ := batch_frame (s := s) ha
      rw [ha] at hcount
      have hnext := ih (h.step a) (by rw [hrem]; simpa using hcount)
      rw [hout] at hnext
      exact hnext
    | true =>
      have hproceed : a = .proceed := by
        cases a <;> simp_all [LoopStep.isProceed]
      have hin : s.reaper.pos ≠ .polling := by
        intro hpos
        simp [remaining, hpos, ha] at hcount
      obtain ⟨hrem, hout⟩ := h.batch_proceed hin
      rw [ha] at hcount
      subst hproceed
      have hnext := ih (h.step .proceed) (by
        show _ = s.proceed.remaining
        simp only [if_true] at hcount
        omega)
      refine ⟨hnext.1, hnext.2.trans hout⟩

end Ends

/-- The kernel only adds to what it has posted. -/
theorem posted_step [DecidableEq P] (s : LoopRun W P) (a : LoopStep W P) :
    s.posted <+: (s.step a).posted := by
  cases a with
  | post cqe => exact List.prefix_append _ _
  | mutate name req =>
    simp only [LoopRun.step]
    split <;> exact List.prefix_rfl
  | proceed =>
    have hsame : s.proceed.posted = s.posted := by
      unfold proceed proceedTest
      split
      · split
        · rfl
        · split <;> rfl
      all_goals rfl
    show s.posted <+: s.proceed.posted
    exact hsame ▸ List.prefix_rfl

theorem posted_run [DecidableEq P] (s : LoopRun W P)
    (steps : List (LoopStep W P)) : s.posted <+: (run step s steps).posted :=
  run_invariant (P := fun t => s.posted <+: t.posted)
    (fun t a h => h.trans (posted_step t a)) List.prefix_rfl steps

/-- A batch that starts now gives exactly the unreaped completions to
callbacks, with the kernel at work between any two of its steps. -/
theorem Inv.batch_outcome [DecidableEq P] {m : RingMask} {s : LoopRun W P}
    (h : Inv m s) (hpos : s.reaper.pos = .polling)
    {rest : List (LoopStep W P)}
    (hcount : rest.countP LoopStep.isProceed =
      ENTRY_STEPS * dist s.reaper.ring.head s.reaper.ring.tail + 1) :
    let t := run LoopRun.step (s.step .proceed) rest
    t.reaper.pos = .polling ∧ t.reaper.ring.head = s.reaper.ring.tail ∧
      t.batches = s.batches ++ [⟨s.reaper.ring.head, s.reaper.ring.tail,
        s.reaper.ring.tail - s.reaper.ring.head⟩] ∧
      t.dispatched = s.dispatched ++ s.reaper.unreaped := by
  intro t
  have hf := h.testing_of_polling hpos
  have hload : s.step .proceed = { s with reaper := s.reaper.load, n := 0 } := by
    simp only [LoopRun.step, LoopRun.proceed, hf, LoopRun.proceedTest, hpos]
  have hrem : (s.step .proceed).remaining =
      ENTRY_STEPS * dist s.reaper.ring.head s.reaper.ring.tail + 1 := by
    rw [hload]
    simp only [remaining, Reaper.load, hpos, hf, Fetch.made, Nat.sub_zero]
  have hout : (s.step .proceed).outcome =
      (s.dispatched.length + dist s.reaper.ring.head s.reaper.ring.tail,
        s.reaper.ring.tail, s.batches ++ [⟨s.reaper.ring.head,
          s.reaper.ring.tail, s.reaper.ring.tail - s.reaper.ring.head⟩]) := by
    rw [hload]
    simp only [outcome, Reaper.load, hpos, hf, Fetch.called, Nat.sub_zero]
  have hstart := h.step .proceed
  have hinv : Inv m t := run_invariant (fun _ a hs => hs.step a) hstart rest
  obtain ⟨hidle, hend⟩ := hstart.batch_ends (hcount.trans hrem.symm)
  rw [hout] at hend
  simp only [outcome, hidle, Prod.mk.injEq] at hend
  obtain ⟨hlen, hhead, hbatches⟩ := hend
  refine ⟨hidle, hhead, hbatches, ?_⟩
  -- both sides are the first completions that the kernel has posted
  have hbefore : s.posted = s.dispatched ++ s.reaper.unreaped := by
    have hpend := h.conserved
    simpa only [waiting, hf] using hpend
  have hposted : s.dispatched ++ s.reaper.unreaped <+: t.posted := by
    rw [← hbefore]
    exact (posted_step s .proceed).trans (posted_run _ rest)
  have hdone : t.dispatched <+: t.posted :=
    ⟨t.waiting, hinv.conserved.symm⟩
  have hsize : t.dispatched.length =
      (s.dispatched ++ s.reaper.unreaped).length := by
    rw [List.length_append, Reaper.length_unreaped, hlen]
    simp only [Reaper.front, hpos]
  exact (List.prefix_of_prefix_length_le hdone hposted
    (Nat.le_of_eq hsize)).eq_of_length hsize

/-- Every completion is dispatched once and in order, from any counter value
on.  In every state of every interleaving with the kernel:

* what callbacks were given is a first part of what the kernel has posted, and
  the rest waits in the ring;
* the kernel overwrites no completion that waits;
* a batch that is over has made `tail - head` callbacks;
* a batch that starts now ends after a fixed number of steps of the loop, gives
  exactly the `tail - head` completions of the ring to callbacks, and publishes
  the tail that it started with. -/
theorem completions_dispatched_in_order [DecidableEq P] (m : RingMask)
    (counter : UInt32) (cqes : Nat → Cqe P) (reqs : P → IoReq W)
    (steps : List (LoopStep W P)) :
    let s := run step (start m counter cqes reqs) steps
    s.posted = s.dispatched ++ s.waiting ∧
      (∀ cqe, s.waiting <+: (s.step (.post cqe)).waiting) ∧
      (∀ b ∈ s.batches, b.n.toNat = dist b.head b.tail) ∧
      (∀ rest, s.reaper.pos = .polling →
        rest.countP LoopStep.isProceed =
          ENTRY_STEPS * dist s.reaper.ring.head s.reaper.ring.tail + 1 →
        let t := run step (s.step .proceed) rest
        t.reaper.pos = .polling ∧ t.reaper.ring.head = s.reaper.ring.tail ∧
          t.batches = s.batches ++ [⟨s.reaper.ring.head, s.reaper.ring.tail,
            s.reaper.ring.tail - s.reaper.ring.head⟩] ∧
          t.dispatched = s.dispatched ++ s.reaper.unreaped) := by
  intro s
  have h : Inv m s :=
    run_invariant (fun _ a hs => hs.step a) (inv_start m counter cqes reqs) steps
  refine ⟨h.conserved, ?_, h.batches, ?_⟩
  · intro cqe
    exact ⟨_, (h.waiting_post cqe).symm⟩
  · intro rest hpos hcount
    exact h.batch_outcome hpos hcount

end LoopRun

end Ride
