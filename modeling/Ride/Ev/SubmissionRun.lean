import Ride.CodeLib.Machine
import Ride.Ev.Submission

/-!
# A call of `ev_iou_req` while the kernel runs

`SubmitRun` cuts a call at every load and every store, and lets the kernel move
between any two of them.  The kernel only moves `head`, and only over published
entries.

There are three groups.

* The invariant.  `SubmitRun.PcInv` says what holds at each point of the call.
  The call decides on the value of `head` that it loaded, and the kernel can
  only make room after that, so the decision stays right until the entry is
  published.
* The end of a call.  `remaining` counts the steps that a call still has to
  make, and `settled` and `promised` say what it is going to answer and to
  accept.  No step of the kernel changes them.
* The assembly.  `submission_ring_refines_fifo` is the result.
-/

namespace Ride

open CodeLib CodeLib.Machine

variable {W P : Type}

/-! ## The call cut into its loads and stores -/

/-- The number of stores to the entry: the `memset`, and eight fields. -/
def SQE_STORES : Nat := 9

/-- The store number `n` of `ev_iou_req` to the entry. -/
def storeSqe [Zero W] (name : P) (req : IoReq W) (sqe : Sqe W P) :
    Nat → Sqe W P
  | 0 => ⟨.nop, 0, 0, 0, 0, 0, 0, none⟩
  | 1 => { sqe with fd := req.fd }
  | 2 => { sqe with opcode := req.opcode }
  | 3 => { sqe with off := req.off }
  | 4 => { sqe with len := req.len }
  | 5 => { sqe with addr := req.addr }
  | 6 => { sqe with poll32Events := req.flags }
  | 7 => { sqe with userData := some name }
  | _ => { sqe with flags := 0 }

/-- The entry after the first `n` stores, whatever it held before. -/
def storesSqe [Zero W] (name : P) (req : IoReq W) (sqe : Sqe W P) :
    Nat → Sqe W P
  | 0 => sqe
  | n + 1 => storeSqe name req (storesSqe name req sqe n) n

/-- All the stores together leave the entry of the request. -/
theorem storesSqe_all [Zero W] (name : P) (req : IoReq W) (sqe : Sqe W P) :
    storesSqe name req sqe SQE_STORES = sqeOf name req := rfl

/-- The local variables of a call.  `unconsumed` is not a variable of the
source: it is the number of entries that the kernel had not taken when the call
loaded `head`. -/
structure Call (P : Type) where
  name : P
  head : UInt32
  tail : UInt32
  unconsumed : Nat

/-- Where the event loop is: outside the call, before the test, or in the
stores, with the old content of the cell and the number of stores made. -/
inductive CallPc (W P : Type) where
  | idle
  | testing (call : Call P)
  | filling (call : Call P) (old : Sqe W P) (stored : Nat)

/-- The answer of a call, with the number of entries that the kernel had not
taken when the call loaded `head`. -/
structure CallAnswer where
  unconsumed : Nat
  ret : Nat

/-- The ring, the memory of the requests and the running call.  The last three
fields are history: the accepted requests with their content at the time of the
call, the entries that the kernel has taken, and the answers. -/
structure SubmitRun (W P : Type) where
  ring : SubmissionRing W P
  reqs : P → IoReq W
  pc : CallPc W P
  accepted : List (P × IoReq W)
  consumed : List (Sqe W P)
  answers : List CallAnswer

/-- The steps: a call of `ev_iou_req` begins, the call goes on by one load or
store, the kernel takes an entry, or the program changes a request. -/
inductive SubmitStep (W P : Type) where
  | call (name : P)
  | proceed
  | kernelTake
  | mutate (name : P) (req : IoReq W)

/-- A step that begins no call. -/
def SubmitStep.Continues : SubmitStep W P → Prop
  | .call _ => False
  | _ => True

/-- A step of the running call. -/
def SubmitStep.isProceed : SubmitStep W P → Bool
  | .proceed => true
  | _ => false

namespace SubmitRun

variable [Zero W]

/-- A run starts on an empty ring, with any counter value and any content. -/
def start (mask : RingMask) (counter : UInt32) (sqes : Nat → Sqe W P)
    (reqs : P → IoReq W) : SubmitRun W P where
  ring := ⟨mask, counter, counter, sqes⟩
  reqs := reqs
  pc := .idle
  accepted := []
  consumed := []
  answers := []

/-- The call goes on by one step. -/
def proceed (s : SubmitRun W P) : SubmitRun W P :=
  match s.pc with
  | .idle => s
  | .testing call =>
    if s.ring.mask.val < call.tail - call.head then
      { s with
        pc := .idle
        answers := s.answers ++ [⟨call.unconsumed, EV_FULL⟩] }
    else
      { s with
        pc := .filling call (s.ring.sqes (s.ring.mask.index call.tail)) 0
        accepted := s.accepted ++ [(call.name, s.reqs call.name)] }
  | .filling call old stored =>
    let index := s.ring.mask.index call.tail
    if stored < SQE_STORES then
      { s with
        ring := { s.ring with
          sqes := Function.update s.ring.sqes index
            (storeSqe call.name (s.reqs call.name) (s.ring.sqes index) stored) }
        pc := .filling call old (stored + 1) }
    else
      { s with
        ring := s.ring.evIouSubmit
        pc := .idle
        answers := s.answers ++ [⟨call.unconsumed, 0⟩] }

/-- One step of any party. -/
def step [DecidableEq P] (s : SubmitRun W P) : SubmitStep W P → SubmitRun W P
  | .call name =>
    match s.pc with
    | .idle =>
      { s with
        pc := .testing ⟨name, s.ring.head, s.ring.tail,
          s.ring.pending.length⟩ }
    | _ => s
  | .proceed => s.proceed
  | .kernelTake =>
    match s.ring.kernelTake with
    | none => s
    | some (sqe, ring) =>
      { s with ring := ring, consumed := s.consumed ++ [sqe] }
  | .mutate name req =>
    -- a request changes between calls only: the loop is one thread
    match s.pc with
    | .idle => { s with reqs := Function.update s.reqs name req }
    | _ => s

/-- The entry of a call that was accepted and is not published yet. -/
def unpublished (s : SubmitRun W P) : List (Sqe W P) :=
  match s.pc with
  | .filling call _ _ => [sqeOf call.name (s.reqs call.name)]
  | _ => []

/-! ## The invariant of a run -/

/-- What holds at each point of the call.  The ring may have more room than the
call has seen, and never less. -/
def PcInv (s : SubmitRun W P) : Prop :=
  match s.pc with
  | .idle => True
  | .testing call =>
    call.tail = s.ring.tail ∧ call.unconsumed = dist call.head call.tail ∧
      dist s.ring.head s.ring.tail ≤ call.unconsumed ∧
      call.unconsumed ≤ s.ring.mask.size
  | .filling call old stored =>
    call.tail = s.ring.tail ∧ call.unconsumed < s.ring.mask.size ∧
      dist s.ring.head s.ring.tail ≤ call.unconsumed ∧ stored ≤ SQE_STORES ∧
      s.ring.sqes (s.ring.mask.index s.ring.tail) =
        storesSqe call.name (s.reqs call.name) old stored

/-- The invariant of a run on a ring with the mask `m`. -/
structure Inv (m : RingMask) (s : SubmitRun W P) : Prop where
  mask_eq : s.ring.mask = m
  wf : s.ring.Wf
  pc : s.PcInv
  answers : ∀ a ∈ s.answers, a.ret = EV_FULL ↔ a.unconsumed = m.size
  conserved : s.accepted.map (fun a => sqeOf a.1 a.2) =
    s.consumed ++ s.ring.pending ++ s.unpublished

theorem inv_start (m : RingMask) (counter : UInt32) (sqes : Nat → Sqe W P)
    (reqs : P → IoReq W) : Inv m (start m counter sqes reqs) where
  mask_eq := rfl
  wf := by simp [start, SubmissionRing.Wf]
  pc := trivial
  answers := by simp [start]
  conserved := by simp [start, SubmissionRing.pending, unpublished]

/-- A call that begins has seen the ring as it is. -/
theorem Inv.call {m : RingMask} {s : SubmitRun W P} (h : Inv m s)
    (hpc : s.pc = .idle) (name : P) :
    Inv m { s with
      pc := .testing ⟨name, s.ring.head, s.ring.tail, s.ring.pending.length⟩ } := by
  have hpend := h.conserved
  simp only [unpublished, hpc] at hpend
  refine ⟨h.mask_eq, h.wf, ⟨rfl, ?_, ?_, ?_⟩, h.answers, hpend⟩
  · exact s.ring.length_pending
  · exact Nat.le_of_eq s.ring.length_pending.symm
  · rw [s.ring.length_pending]
    exact h.wf

/-- The test reads the counters of the load.  A refused call leaves the ring as
it is, and an accepted call has a free cell from here on. -/
theorem Inv.test {m : RingMask} {s : SubmitRun W P} (h : Inv m s)
    {call : Call P} (hpc : s.pc = .testing call) : Inv m s.proceed := by
  have hpend := h.conserved
  have hinv := h.pc
  simp only [unpublished, hpc] at hpend
  simp only [PcInv, hpc] at hinv
  obtain ⟨htail, hseen, hless, hle⟩ := hinv
  have hfull : s.ring.mask.val < call.tail - call.head ↔
      s.ring.mask.size ≤ call.unconsumed := by
    rw [hseen]
    exact mask_lt_iff _ _ _
  unfold proceed
  simp only [hpc]
  by_cases htest : s.ring.mask.val < call.tail - call.head
  · rw [if_pos htest]
    refine ⟨h.mask_eq, h.wf, trivial, ?_, hpend⟩
    intro a ha
    rcases List.mem_append.mp ha with hold | hnew
    · exact h.answers a hold
    · rw [List.mem_singleton.mp hnew, ← h.mask_eq]
      exact ⟨fun _ => Nat.le_antisymm hle (hfull.mp htest), fun _ => rfl⟩
  · rw [if_neg htest]
    have hroom : call.unconsumed < s.ring.mask.size := by
      have := mt hfull.mpr htest
      omega
    refine ⟨h.mask_eq, h.wf, ⟨htail, hroom, hless, Nat.zero_le _, ?_⟩,
      h.answers, ?_⟩
    · rw [htail]
      rfl
    · simp only [List.map_append, List.map_cons, List.map_nil, unpublished]
      rw [hpend, List.append_nil]

/-- A store goes to the cell behind the tail, which holds no published
entry. -/
theorem Inv.store {m : RingMask} {s : SubmitRun W P} (h : Inv m s)
    {call : Call P} {old : Sqe W P} {stored : Nat}
    (hpc : s.pc = .filling call old stored) (hlt : stored < SQE_STORES) :
    Inv m s.proceed := by
  have hpend := h.conserved
  have hinv := h.pc
  simp only [unpublished, hpc] at hpend
  simp only [PcInv, hpc] at hinv
  obtain ⟨htail, hroom, hless, hle, hcell⟩ := hinv
  have hfree : dist s.ring.head s.ring.tail < s.ring.mask.size := by omega
  unfold proceed
  simp only [hpc, if_pos hlt, htail]
  refine ⟨h.mask_eq, h.wf, ⟨htail, hroom, hless, hlt, ?_⟩, h.answers, ?_⟩
  · simp only [Function.update_self, storesSqe]
    rw [hcell]
  · simp only [unpublished]
    rw [hpend, SubmissionRing.pending, SubmissionRing.pending,
      ringView_write hfree]

/-- The last store publishes the entry of the request. -/
theorem Inv.publish {m : RingMask} {s : SubmitRun W P} (h : Inv m s)
    {call : Call P} {old : Sqe W P} {stored : Nat}
    (hpc : s.pc = .filling call old stored) (hge : ¬ stored < SQE_STORES) :
    Inv m s.proceed := by
  have hpend := h.conserved
  have hinv := h.pc
  simp only [unpublished, hpc] at hpend
  simp only [PcInv, hpc] at hinv
  obtain ⟨htail, hroom, hless, hle, hcell⟩ := hinv
  have hsize := s.ring.mask.size_le
  have hfree : dist s.ring.head s.ring.tail < s.ring.mask.size := by omega
  have hall : stored = SQE_STORES := by omega
  rw [hall, storesSqe_all] at hcell
  unfold proceed
  simp only [hpc, if_neg hge]
  refine ⟨h.mask_eq, ?_, trivial, ?_, ?_⟩
  · show dist s.ring.head (s.ring.tail + 1) ≤ s.ring.mask.size
    rw [dist_add_one (by omega)]
    omega
  · intro a ha
    rcases List.mem_append.mp ha with hold | hnew
    · exact h.answers a hold
    · rw [List.mem_singleton.mp hnew, ← h.mask_eq]
      exact ⟨fun hret => absurd hret Nat.zero_ne_one,
        fun hfull => absurd hfull (Nat.ne_of_lt hroom)⟩
  · have hpush : s.ring.evIouSubmit.pending =
        s.ring.pending ++ [s.ring.sqes (s.ring.mask.index s.ring.tail)] :=
      ringView_push hfree s.ring.sqes
    show _ = s.consumed ++ s.ring.evIouSubmit.pending ++ []
    rw [hpend, hpush, hcell, List.append_nil, List.append_assoc]

theorem Inv.proceed {m : RingMask} {s : SubmitRun W P} (h : Inv m s) :
    Inv m s.proceed := by
  cases hpc : s.pc with
  | idle =>
    unfold SubmitRun.proceed
    simp only [hpc]
    exact h
  | testing call => exact h.test hpc
  | filling call old stored =>
    by_cases hlt : stored < SQE_STORES
    · exact h.store hpc hlt
    · exact h.publish hpc hlt

/-- The kernel only takes from the front, so a running call keeps its room. -/
theorem Inv.kernelTake {m : RingMask} {s : SubmitRun W P} (h : Inv m s)
    {sqe : Sqe W P} {ring : SubmissionRing W P}
    (htake : s.ring.kernelTake = some (sqe, ring)) :
    Inv m { s with ring := ring, consumed := s.consumed ++ [sqe] } := by
  have hne : s.ring.head ≠ s.ring.tail := by
    intro heq
    rw [SubmissionRing.kernelTake, if_pos heq] at htake
    exact absurd htake (by simp)
  rw [SubmissionRing.kernelTake, if_neg hne, Option.some.injEq,
    Prod.mk.injEq] at htake
  obtain ⟨rfl, rfl⟩ := htake
  have hdist := dist_head_succ hne
  have hwf : dist s.ring.head s.ring.tail ≤ s.ring.mask.size := h.wf
  have hpop : s.ring.pending = s.ring.sqes (s.ring.mask.index s.ring.head) ::
      ringView s.ring.sqes s.ring.mask (s.ring.head + 1) s.ring.tail :=
    ringView_pop hne s.ring.sqes
  refine ⟨h.mask_eq, ?_, ?_, h.answers, ?_⟩
  · show dist (s.ring.head + 1) s.ring.tail ≤ s.ring.mask.size
    omega
  · have hinv := h.pc
    unfold PcInv at hinv ⊢
    cases hpc : s.pc with
    | idle => trivial
    | testing call =>
      simp only [hpc] at hinv ⊢
      exact ⟨hinv.1, hinv.2.1, by omega, hinv.2.2.2⟩
    | filling call old stored =>
      simp only [hpc] at hinv ⊢
      exact ⟨hinv.1, hinv.2.1, by omega, hinv.2.2.2⟩
  · rw [h.conserved, hpop]
    simp [SubmissionRing.pending, unpublished]

theorem Inv.step [DecidableEq P] {m : RingMask} {s : SubmitRun W P}
    (h : Inv m s) (a : SubmitStep W P) : Inv m (s.step a) := by
  cases a with
  | call name =>
    cases hpc : s.pc with
    | idle =>
      simp only [SubmitRun.step, hpc]
      exact h.call hpc name
    | testing _ => simpa only [SubmitRun.step, hpc] using h
    | filling _ _ _ => simpa only [SubmitRun.step, hpc] using h
  | proceed => exact h.proceed
  | kernelTake =>
    cases htake : s.ring.kernelTake with
    | none => simpa only [SubmitRun.step, htake] using h
    | some taken =>
      simp only [SubmitRun.step, htake]
      exact h.kernelTake htake
  | mutate name req =>
    cases hpc : s.pc with
    | idle =>
      have hpend := h.conserved
      simp only [unpublished, hpc] at hpend
      simp only [SubmitRun.step, hpc]
      exact ⟨h.mask_eq, h.wf, trivial, h.answers, hpend⟩
    | testing _ => simpa only [SubmitRun.step, hpc] using h
    | filling _ _ _ => simpa only [SubmitRun.step, hpc] using h

/-! ## A call returns -/

/-- The number of steps that a running call still has to make, at most. -/
def remaining (s : SubmitRun W P) : Nat :=
  match s.pc with
  | .idle => 0
  | .testing _ => SQE_STORES + 2
  | .filling _ _ stored => SQE_STORES + 1 - stored

/-- The answers, with the one that the running call is going to give. -/
def settled (s : SubmitRun W P) : List CallAnswer :=
  match s.pc with
  | .idle => s.answers
  | .testing call =>
    s.answers ++ [⟨call.unconsumed,
      if s.ring.mask.val < call.tail - call.head then EV_FULL else 0⟩]
  | .filling call _ _ => s.answers ++ [⟨call.unconsumed, 0⟩]

/-- The accepted requests, with the one that the running call is going to
accept. -/
def promised (s : SubmitRun W P) : List (P × IoReq W) :=
  match s.pc with
  | .testing call =>
    if s.ring.mask.val < call.tail - call.head then s.accepted
    else s.accepted ++ [(call.name, s.reqs call.name)]
  | _ => s.accepted

/-- The call is over or about to be refused, and has not touched the cells and
the tail. -/
def Untouched (sqes : Nat → Sqe W P) (tail : UInt32) (s : SubmitRun W P) :
    Prop :=
  s.ring.sqes = sqes ∧ s.ring.tail = tail ∧
    (s.pc = .idle ∨ ∃ call, s.pc = .testing call ∧
      s.ring.mask.val < call.tail - call.head)

omit [Zero W] in
/-- The kernel moves `head` and nothing else. -/
theorem kernelTake_frame {r r' : SubmissionRing W P} {sqe : Sqe W P}
    (h : r.kernelTake = some (sqe, r')) :
    r'.mask = r.mask ∧ r'.sqes = r.sqes ∧ r'.tail = r.tail := by
  unfold SubmissionRing.kernelTake at h
  split at h
  · exact absurd h (by simp)
  · rw [Option.some.injEq, Prod.mk.injEq] at h
    obtain ⟨-, rfl⟩ := h
    exact ⟨rfl, rfl, rfl⟩

section Returns

variable [DecidableEq P] {s : SubmitRun W P} {a : SubmitStep W P}

/-- The steps of a call and of the kernel, one case each.  `Q` is what the
caller wants to know of the state after the step. -/
theorem step_cases {Q : SubmitRun W P → Prop} (ha : a.Continues)
    (hproceed : a = .proceed → Q s.proceed)
    (hkernel : ∀ ring consumed, ring.mask = s.ring.mask →
      ring.sqes = s.ring.sqes → ring.tail = s.ring.tail →
      Q { s with ring := ring, consumed := consumed })
    (hmutate : ∀ reqs, s.pc = .idle → Q { s with reqs := reqs })
    (hself : Q s) : Q (s.step a) := by
  cases a with
  | call name => exact ha.elim
  | proceed => exact hproceed rfl
  | kernelTake =>
    cases htake : s.ring.kernelTake with
    | none => simpa only [SubmitRun.step, htake] using hself
    | some taken =>
      obtain ⟨hmask, hsqes, htail⟩ := kernelTake_frame htake
      simp only [SubmitRun.step, htake]
      exact hkernel _ _ hmask hsqes htail
  | mutate name req =>
    cases hpc : s.pc with
    | idle =>
      have h := hmutate (Function.update s.reqs name req) hpc
      simpa only [SubmitRun.step, hpc] using h
    | testing _ => simpa only [SubmitRun.step, hpc] using hself
    | filling _ _ _ => simpa only [SubmitRun.step, hpc] using hself

theorem settled_step (ha : a.Continues) : (s.step a).settled = s.settled := by
  refine step_cases (Q := fun t => t.settled = s.settled) ha (fun _ => ?_)
    ?_ ?_ rfl
  · unfold proceed settled
    cases hpc : s.pc with
    | idle => simp only [hpc]
    | testing call => simp only; split_ifs <;> rfl
    | filling call old stored => simp only; split_ifs <;> rfl
  · intro ring consumed hmask _ _
    simp only [settled, hmask]
  · intro reqs hpc
    simp only [settled, hpc]

theorem promised_step (ha : a.Continues) : (s.step a).promised = s.promised := by
  refine step_cases (Q := fun t => t.promised = s.promised) ha (fun _ => ?_)
    ?_ ?_ rfl
  · unfold proceed promised
    cases hpc : s.pc with
    | idle => simp only [hpc]
    | testing call => simp only; split_ifs <;> rfl
    | filling call old stored => simp only; split_ifs <;> rfl
  · intro ring consumed hmask _ _
    simp only [promised, hmask]
  · intro reqs hpc
    simp only [promised, hpc]

theorem untouched_step {sqes : Nat → Sqe W P} {tail : UInt32}
    (ha : a.Continues) (h : s.Untouched sqes tail) :
    (s.step a).Untouched sqes tail := by
  obtain ⟨hsqes, htail, hpc⟩ := h
  refine step_cases ha (fun _ => ?_) ?_ ?_ ⟨hsqes, htail, hpc⟩
  · rcases hpc with hpc | ⟨call, hpc, hfull⟩
    · simp only [proceed, hpc]
      exact ⟨hsqes, htail, Or.inl hpc⟩
    · simp only [proceed, hpc, if_pos hfull]
      exact ⟨hsqes, htail, Or.inl rfl⟩
  · intro ring consumed hmask hsqes' htail'
    refine ⟨hsqes'.trans hsqes, htail'.trans htail, ?_⟩
    simp only [hmask]
    exact hpc
  · intro reqs _
    exact ⟨hsqes, htail, hpc⟩

/-- Each step of the call brings it closer to its end, and no other step moves
it away. -/
theorem remaining_step (ha : a.Continues) :
    (s.step a).remaining ≤ s.remaining - (if a.isProceed then 1 else 0) := by
  cases hp : a.isProceed with
  | false =>
    refine step_cases (Q := fun t => t.remaining ≤ _) ha ?_ ?_ ?_ (by simp)
    · rintro rfl
      exact absurd hp (by simp [SubmitStep.isProceed])
    · intro ring consumed _ _ _
      simp [remaining]
    · intro reqs _
      simp [remaining]
  | true =>
    cases a with
    | call name => exact ha.elim
    | kernelTake => exact absurd hp (by simp [SubmitStep.isProceed])
    | mutate name req => exact absurd hp (by simp [SubmitStep.isProceed])
    | proceed =>
      simp only [SubmitRun.step, proceed, remaining]
      cases hpc : s.pc with
      | idle => simp [hpc]
      | testing call => simp only; split_ifs <;> simp
      | filling call old stored =>
        simp only
        split_ifs
        · simp only
          omega
        · simp

end Returns

/-- What a call leaves behind once it has made all its steps, with the kernel
at work between any two of them. -/
theorem call_returns [DecidableEq P] {m : RingMask} {s : SubmitRun W P}
    (h : Inv m s) {steps : List (SubmitStep W P)}
    (hsteps : ∀ a ∈ steps, a.Continues)
    (hcount : s.remaining ≤ steps.countP SubmitStep.isProceed) :
    (run step s steps).pc = .idle ∧
      (run step s steps).answers = s.settled ∧
      (run step s steps).accepted = s.promised := by
  induction steps generalizing s with
  | nil =>
    have hinv := h.pc
    unfold PcInv at hinv
    cases hpc : s.pc with
    | idle => exact ⟨hpc, by simp [settled, hpc], by simp [promised, hpc]⟩
    | testing call => simp [remaining, hpc] at hcount
    | filling call old stored =>
      simp only [hpc] at hinv
      simp only [remaining, hpc, List.countP_nil] at hcount
      omega
  | cons a rest ih =>
    have ha := hsteps a (List.mem_cons_self ..)
    have hrem := remaining_step (s := s) ha
    have hnext := ih (h.step a) (fun b hb => hsteps b (List.mem_cons_of_mem a hb)) (by
      rw [List.countP_cons] at hcount
      omega)
    rw [settled_step ha, promised_step ha] at hnext
    exact hnext

theorem untouched_run [DecidableEq P] {sqes : Nat → Sqe W P} {tail : UInt32}
    {s : SubmitRun W P} (h : s.Untouched sqes tail)
    {steps : List (SubmitStep W P)} (hsteps : ∀ a ∈ steps, a.Continues) :
    (run step s steps).Untouched sqes tail := by
  induction steps generalizing s with
  | nil => exact h
  | cons a rest ih =>
    exact ih (untouched_step (hsteps a (List.mem_cons_self ..)) h)
      (fun b hb => hsteps b (List.mem_cons_of_mem a hb))

/-- No step but the kernel's own changes an entry that the kernel has not
taken. -/
theorem Inv.pending_kept [DecidableEq P] {m : RingMask} {s : SubmitRun W P}
    (h : Inv m s) {a : SubmitStep W P} (ha : a ≠ .kernelTake) :
    s.ring.pending <+: (s.step a).ring.pending := by
  cases a with
  | kernelTake => exact absurd rfl ha
  | call name =>
    simp only [SubmitRun.step]
    split <;> exact List.prefix_rfl
  | mutate name req =>
    simp only [SubmitRun.step]
    split <;> exact List.prefix_rfl
  | proceed =>
    have hinv := h.pc
    simp only [SubmitRun.step, SubmitRun.proceed]
    cases hpc : s.pc with
    | idle => exact List.prefix_rfl
    | testing call =>
      simp only
      split_ifs <;> exact List.prefix_rfl
    | filling call old stored =>
      simp only [PcInv, hpc] at hinv
      obtain ⟨htail, hroom, hless, -, -⟩ := hinv
      have hfree : dist s.ring.head s.ring.tail < s.ring.mask.size := by omega
      simp only [htail]
      split_ifs
      · have hkept := ringView_write hfree s.ring.sqes
          (storeSqe call.name (s.reqs call.name)
            (s.ring.sqes (s.ring.mask.index s.ring.tail)) stored)
        exact ⟨[], by rw [List.append_nil]; exact hkept.symm⟩
      · exact ⟨_, (ringView_push hfree s.ring.sqes).symm⟩

/-- A call that begins in an idle state gives its answer, with the kernel at
work between any two of its steps.  It is refused exactly when every cell holds
an entry that the kernel had not taken at the load of `head`. -/
theorem Inv.call_outcome [DecidableEq P] {m : RingMask} {s : SubmitRun W P}
    (h : Inv m s) (hpc : s.pc = .idle) (name : P)
    {rest : List (SubmitStep W P)} (hrest : ∀ a ∈ rest, a.Continues)
    (hcount : SQE_STORES + 2 ≤ rest.countP SubmitStep.isProceed) :
    let t := run SubmitRun.step (s.step (.call name)) rest
    t.pc = .idle ∧
      (s.ring.pending.length = m.size →
        t.answers = s.answers ++ [⟨m.size, EV_FULL⟩] ∧
        t.ring.sqes = s.ring.sqes ∧ t.ring.tail = s.ring.tail ∧
        t.accepted = s.accepted) ∧
      (s.ring.pending.length ≠ m.size →
        t.answers = s.answers ++ [⟨s.ring.pending.length, 0⟩] ∧
        t.accepted = s.accepted ++ [(name, s.reqs name)]) := by
  intro t
  have hstep : s.step (.call name) =
      { s with
        pc := .testing ⟨name, s.ring.head, s.ring.tail,
          s.ring.pending.length⟩ } := by
    simp only [SubmitRun.step, hpc]
  have hwf : dist s.ring.head s.ring.tail ≤ s.ring.mask.size := h.wf
  have hfull : s.ring.mask.val < s.ring.tail - s.ring.head ↔
      s.ring.pending.length = m.size := by
    rw [mask_lt_iff, s.ring.length_pending, ← h.mask_eq]
    omega
  obtain ⟨hidle, hans, hacc⟩ := call_returns (h.step (.call name)) hrest
    (by rw [hstep]; exact hcount)
  have hsettled : (s.step (.call name)).settled = s.answers ++
      [⟨s.ring.pending.length,
        if s.ring.mask.val < s.ring.tail - s.ring.head then EV_FULL else 0⟩] := by
    rw [hstep]
    rfl
  have hpromised : (s.step (.call name)).promised =
      if s.ring.mask.val < s.ring.tail - s.ring.head then s.accepted
      else s.accepted ++ [(name, s.reqs name)] := by
    rw [hstep]
    rfl
  rw [hsettled] at hans
  rw [hpromised] at hacc
  refine ⟨hidle, fun hlen => ?_, fun hlen => ?_⟩
  · have htest := hfull.mpr hlen
    rw [if_pos htest] at hans hacc
    have huntouched : (s.step (.call name)).Untouched s.ring.sqes s.ring.tail := by
      rw [hstep]
      exact ⟨rfl, rfl, Or.inr ⟨_, rfl, htest⟩⟩
    obtain ⟨hsqes, htail, -⟩ := untouched_run huntouched hrest
    rw [hlen] at hans
    exact ⟨hans, hsqes, htail, hacc⟩
  · have htest := mt hfull.mp hlen
    rw [if_neg htest] at hans hacc
    exact ⟨hans, hacc⟩

/-- The submission ring is a FIFO of `mask + 1` entries, from any counter value
on.  In every state of every interleaving with the kernel:

* no more than `mask + 1` entries are unconsumed;
* a call is refused, with no store to an entry and the tail where it was,
  exactly when `mask + 1` entries were unconsumed at its load of `head`;
* no step but the kernel's changes an unconsumed entry;
* the kernel has taken the accepted requests in the order of the calls, each
  with the content that it had at its call, and the rest is in the ring or in
  the stores of the running call. -/
theorem submission_ring_refines_fifo [DecidableEq P] (m : RingMask)
    (counter : UInt32) (sqes : Nat → Sqe W P) (reqs : P → IoReq W)
    (steps : List (SubmitStep W P)) :
    let s := run step (start m counter sqes reqs) steps
    dist s.ring.head s.ring.tail ≤ m.size ∧
      (∀ name rest, s.pc = .idle → (∀ a ∈ rest, a.Continues) →
        SQE_STORES + 2 ≤ rest.countP SubmitStep.isProceed →
        let t := run step (s.step (.call name)) rest
        t.pc = .idle ∧
          (s.ring.pending.length = m.size →
            t.answers = s.answers ++ [⟨m.size, EV_FULL⟩] ∧
            t.ring.sqes = s.ring.sqes ∧ t.ring.tail = s.ring.tail ∧
            t.accepted = s.accepted) ∧
          (s.ring.pending.length ≠ m.size →
            t.answers = s.answers ++ [⟨s.ring.pending.length, 0⟩] ∧
            t.accepted = s.accepted ++ [(name, s.reqs name)])) ∧
      (∀ a ∈ s.answers, a.ret = EV_FULL ↔ a.unconsumed = m.size) ∧
      (∀ a, a ≠ .kernelTake → s.ring.pending <+: (s.step a).ring.pending) ∧
      s.accepted.map (fun a => sqeOf a.1 a.2) =
        s.consumed ++ s.ring.pending ++ s.unpublished := by
  intro s
  have h : Inv m s :=
    run_invariant (fun _ a h => h.step a) (inv_start m counter sqes reqs) steps
  refine ⟨?_, ?_, h.answers, fun a ha => h.pending_kept ha, h.conserved⟩
  · rw [← h.mask_eq]
    exact h.wf
  · intro name rest hpc hrest hcount
    exact h.call_outcome hpc name hrest hcount

end SubmitRun

end Ride
