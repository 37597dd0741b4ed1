import Ride.CodeLib.StoreBuffer
import Ride.Ev.SubmissionRun

/-!
# The kernel thread of the submission ring

The ring is set up with `IORING_SETUP_SQPOLL`: a thread of the kernel takes the
entries.  After a while without entries it sets `IORING_SQ_NEED_WAKEUP`, makes
a full barrier, looks at the tail once more and goes to sleep.  `ev__iou_submit`
does the same from the other side: it stores the tail, loads the flags, and
wakes the thread where the flag is set.  But it has no full barrier in between.
A release store and an acquire load are plain instructions on a processor with
total store order, and there the load can overtake the store.

`Sqpoll` is both sides, with the stores of the event loop in a store buffer.

* `entries_in_order_under_tso`: late stores do not harm the ring.  The thread
  takes the submitted entries, each one complete and in order.
* `stranded_only_if_overtaken`: an entry is left behind a sleeping thread only
  where a load of the flags overtook the store of the tail.  The run of
  `strandedRun` does that.
* `next_request_wakes`: such an entry waits for the next call of `ev_iou_req`,
  which cannot miss the flag.
-/

namespace Ride

open CodeLib CodeLib.Machine

variable {W P : Type}

/-! ## The stores of a call -/

/-- A store of the event loop to the shared memory: one of the stores to an entry,
or the tail. -/
inductive RingStore (W P : Type) where
  | sqe (index : Nat) (name : P) (req : IoReq W) (number : Nat)
  | tail (value : UInt32)

/-- A store to an entry. -/
def RingStore.IsSqe : RingStore W P → Prop
  | .sqe .. => True
  | .tail _ => False

variable [Zero W]

namespace SubmissionRing

/-- A store reaches the memory. -/
def store (r : SubmissionRing W P) : RingStore W P → SubmissionRing W P
  | .sqe index name req number =>
    { r with
      sqes := Function.update r.sqes index
        (storeSqe name req (r.sqes index) number) }
  | .tail value => { r with tail := value }

/-- The stores that a call makes: to the free cell behind the tail, or to the
tail, by one. -/
def Publishes (r : SubmissionRing W P) (s : RingStore W P) : Prop :=
  dist r.head r.tail < r.mask.size ∧
    match s with
    | .sqe index _ _ _ => index = r.mask.index r.tail
    | .tail value => value = r.tail + 1

/-- An entry in the free cell is not visible. -/
theorem pending_store_sqe {r : SubmissionRing W P}
    (h : dist r.head r.tail < r.mask.size) (name : P) (req : IoReq W)
    (number : Nat) :
    (r.store (.sqe (r.mask.index r.tail) name req number)).pending =
      r.pending :=
  ringView_write h r.sqes _

/-- The next tail shows the content of the free cell. -/
theorem pending_store_tail {r : SubmissionRing W P}
    (h : dist r.head r.tail < r.mask.size) :
    (r.store (.tail (r.tail + 1))).pending =
      r.pending ++ [r.sqes (r.mask.index r.tail)] :=
  ringView_push h r.sqes

theorem Publishes.wf {r : SubmissionRing W P} {s : RingStore W P}
    (h : r.Publishes s) : (r.store s).Wf := by
  have hle := r.mask.size_le
  obtain ⟨hroom, hwhat⟩ := h
  cases s with
  | sqe index name req number => exact hroom.le
  | tail value =>
    obtain rfl := hwhat
    show dist r.head (r.tail + 1) ≤ r.mask.size
    rw [dist_add_one (by omega)]
    omega

theorem Publishes.pending_le {r : SubmissionRing W P} {s : RingStore W P}
    (h : r.Publishes s) : r.pending <+: (r.store s).pending := by
  obtain ⟨hroom, hwhat⟩ := h
  cases s with
  | sqe index name req number =>
    obtain rfl := hwhat
    exact (pending_store_sqe hroom name req number).symm ▸ List.prefix_rfl
  | tail value =>
    obtain rfl := hwhat
    rw [pending_store_tail hroom]
    exact List.prefix_append _ _

/-- The kernel moves the head. -/
def advance (r : SubmissionRing W P) : SubmissionRing W P :=
  { r with head := r.head + 1 }

omit [Zero W] in
theorem kernelTake_eq_some {r r' : SubmissionRing W P} {entry : Sqe W P}
    (h : r.kernelTake = some (entry, r')) :
    r.head ≠ r.tail ∧ entry = r.sqes (r.mask.index r.head) ∧ r' = r.advance := by
  unfold kernelTake at h
  split at h
  case isTrue => cases h
  case isFalse hne =>
    obtain ⟨rfl, rfl⟩ := Prod.mk.inj (Option.some.inj h)
    exact ⟨hne, rfl, rfl⟩

omit [Zero W] in
theorem Wf.advance {r : SubmissionRing W P} (hne : r.head ≠ r.tail)
    (h : r.Wf) : r.advance.Wf := by
  have hdist := dist_head_succ hne
  have hle : dist r.head r.tail ≤ r.mask.size := h
  show dist (r.head + 1) r.tail ≤ r.mask.size
  omega

omit [Zero W] in
theorem pending_eq_cons {r : SubmissionRing W P} (hne : r.head ≠ r.tail) :
    r.pending = r.sqes (r.mask.index r.head) :: r.advance.pending :=
  ringView_pop hne r.sqes

theorem advance_store (r : SubmissionRing W P) (s : RingStore W P) :
    (r.store s).advance = r.advance.store s := by
  cases s <;> rfl

omit [Zero W] in
/-- The kernel only makes room. -/
theorem Publishes.advance {r : SubmissionRing W P} {s : RingStore W P}
    (hne : r.head ≠ r.tail) (h : r.Publishes s) : r.advance.Publishes s := by
  have hdist := dist_head_succ hne
  have hroom := h.1
  refine ⟨?_, h.2⟩
  show dist (r.head + 1) r.tail < r.mask.size
  omega

/-- A ring that shows an entry still shows one after the stores of a call. -/
theorem Publishes.head_ne_tail {r : SubmissionRing W P} {s : RingStore W P}
    (hne : r.head ≠ r.tail) (h : r.Publishes s) :
    (r.store s).head ≠ (r.store s).tail := by
  have hle := r.mask.size_le
  obtain ⟨hroom, hwhat⟩ := h
  cases s with
  | sqe index name req number => exact hne
  | tail value =>
    obtain rfl := hwhat
    show r.head ≠ r.tail + 1
    rw [Ne, ← dist_eq_zero, dist_add_one (by omega)]
    omega

end SubmissionRing

/-! ## The two sides -/

/-- Where the event loop is: outside a call, in the stores to the entry, with the
number of those that were made, with the tail stored, or with the flag seen. -/
inductive LoopPhase (W P : Type) where
  | outside
  | filling (name : P) (req : IoReq W) (stored : Nat)
  | published
  | waking
deriving DecidableEq

/-- Nothing of a call is left but what comes before the store of the tail. -/
def LoopPhase.Quiet : LoopPhase W P → Prop
  | .outside | .filling _ _ _ => True
  | .published | .waking => False

/-- Where the kernel thread is: it takes entries, it is on the wait queue, the
flag is set, the tail was looked at and showed nothing, it is asleep, or it is
about to clear the flag. -/
inductive SqThread where
  | polling
  | waiting
  | flagged
  | checked
  | asleep
  | rising
deriving DecidableEq

/-- The flag is set from before the second look at the tail until after the
sleep. -/
def SqThread.needWakeup : SqThread → Bool
  | .polling | .waiting => false
  | .flagged | .checked | .asleep | .rising => true

/-- The ring behind the store buffer of the event loop, the flag and the two
parties.  `woken` says that somebody woke the thread since it went on the wait
queue.  The last two fields are history. -/
structure Sqpoll (W P : Type) where
  ring : Buffered (SubmissionRing W P) (RingStore W P)
  needWakeup : Bool
  loop : LoopPhase W P
  thread : SqThread
  woken : Bool
  submitted : List (Sqe W P)
  taken : List (Sqe W P)

/-- The steps of the event loop, of its store buffer, and of the kernel thread.
`interrupt` is a wake-up that has nothing to do with the ring. -/
inductive SqpollStep (W P : Type) where
  | request (name : P) (req : IoReq W)
  | store
  | submit
  | loadFlags
  | enter
  | drain
  | take
  | prepareToWait
  | setFlag
  | recheck
  | schedule
  | interrupt
  | clearFlag

/-- A step that wakes the thread. -/
def SqpollStep.wakes : SqpollStep W P → Bool
  | .enter | .interrupt => true
  | _ => false

namespace Sqpoll

/-- A run starts on an empty ring, with any counter value and any content. -/
def start (mask : RingMask) (counter : UInt32) (sqes : Nat → Sqe W P) :
    Sqpoll W P where
  ring := ⟨⟨mask, counter, counter, sqes⟩, []⟩
  needWakeup := false
  loop := .outside
  thread := .polling
  woken := false
  submitted := []
  taken := []

/-- The ring as the event loop sees it. -/
def view (s : Sqpoll W P) : SubmissionRing W P :=
  s.ring.view SubmissionRing.store

/-- `ev_iou_req` up to the test.  A call on a full ring returns `EV_FULL`. -/
def request (s : Sqpoll W P) (name : P) (req : IoReq W) : Sqpoll W P :=
  match s.loop with
  | .outside =>
    if s.view.mask.val < s.view.tail - s.view.head then s
    else { s with loop := .filling name req 0 }
  | _ => s

/-- `ev_iou_req` makes the next store to the entry. -/
def store (s : Sqpoll W P) : Sqpoll W P :=
  match s.loop with
  | .filling name req stored =>
    if stored < SQE_STORES then
      { s with
        ring := s.ring.push
          (.sqe (s.view.mask.index s.view.tail) name req stored)
        loop := .filling name req (stored + 1) }
    else s
  | _ => s

/-- `ev__iou_submit` stores the tail. -/
def submit (s : Sqpoll W P) : Sqpoll W P :=
  match s.loop with
  | .filling name req stored =>
    if stored < SQE_STORES then s
    else
      { s with
        ring := s.ring.push (.tail (s.view.tail + 1))
        loop := .published
        submitted := s.submitted ++ [sqeOf name req] }
  | _ => s

/-- `ev__iou_submit` loads the flags and tests `IORING_SQ_NEED_WAKEUP`. -/
def loadFlags (s : Sqpoll W P) : Sqpoll W P :=
  match s.loop with
  | .published => { s with loop := if s.needWakeup then .waking else .outside }
  | _ => s

/-- `io_uring_enter` with `IORING_ENTER_SQ_WAKEUP`.  The lock of the wait queue
is a full barrier. -/
def enter (s : Sqpoll W P) : Sqpoll W P :=
  match s.loop with
  | .waking =>
    { s with
      ring := s.ring.fence SubmissionRing.store
      loop := .outside
      thread := if s.thread = .asleep then .rising else s.thread
      woken := true }
  | _ => s

/-- The kernel thread takes an entry that the memory shows. -/
def take (s : Sqpoll W P) : Sqpoll W P :=
  if s.thread = .polling then
    match s.ring.mem.kernelTake with
    | none => s
    | some (entry, ring) =>
      { s with
        ring := { s.ring with mem := ring }
        taken := s.taken ++ [entry] }
  else s

/-- The kernel thread moves from one phase to another. -/
def moves (s : Sqpoll W P) (old new : SqThread) : Sqpoll W P :=
  if s.thread = old then { s with thread := new, needWakeup := new.needWakeup }
  else s

/-- The kernel thread goes on the wait queue. -/
def prepareToWait (s : Sqpoll W P) : Sqpoll W P :=
  if s.thread = .polling then { s with thread := .waiting, woken := false }
  else s

def step (s : Sqpoll W P) : SqpollStep W P → Sqpoll W P
  | .request name req => s.request name req
  | .store => s.store
  | .submit => s.submit
  | .loadFlags => s.loadFlags
  | .enter => s.enter
  | .drain => { s with ring := s.ring.drain SubmissionRing.store }
  | .take => s.take
  | .prepareToWait => s.prepareToWait
  | .setFlag => s.moves .waiting .flagged
  | .recheck =>
    s.moves .flagged
      (if s.ring.mem.head = s.ring.mem.tail then .checked else .rising)
  | .schedule => s.moves .checked (if s.woken then .rising else .asleep)
  | .interrupt => s.moves .asleep .rising
  | .clearFlag => s.moves .rising .polling

/-- The stores to the entry, as the event loop sees them. -/
theorem run_store {s : Sqpoll W P} {name : P} {req : IoReq W}
    (h : s.loop = .filling name req 0) {m : Nat} (hm : m ≤ SQE_STORES) :
    let t := run step s (List.replicate m .store)
    let index := s.view.mask.index s.view.tail
    t.loop = .filling name req m ∧ t.view = { s.view with
      sqes := Function.update s.view.sqes index
        (storesSqe name req (s.view.sqes index) m) } := by
  induction m with
  | zero =>
    refine ⟨h, ?_⟩
    simp only [List.replicate_zero, run_nil, storesSqe,
      Function.update_eq_self]
  | succ m ih =>
    obtain ⟨hloop, hview⟩ := ih (by omega)
    rw [List.replicate_succ', run_append, run_cons, run_nil]
    simp only [step, store, hloop, if_pos (show m < SQE_STORES from hm)]
    refine ⟨trivial, ?_⟩
    rw [view, Buffered.view_push]
    show (view (run step s _)).store _ = _
    rw [hview]
    simp only [SubmissionRing.store, Function.update_self,
      Function.update_idem, storesSqe]

/-- A call that was refused makes no stores. -/
theorem run_store_outside {s : Sqpoll W P} (h : s.loop = .outside) (m : Nat) :
    run step s (List.replicate m .store) = s := by
  induction m with
  | zero => rfl
  | succ m ih =>
    rw [List.replicate_succ', run_append, ih, run_cons, run_nil]
    simp only [step, store, h]

/-- The stores of a call are `evIouReq` on the ring that the event loop sees,
whatever the memory shows. -/
theorem view_call {s : Sqpoll W P} (h : s.loop = .outside) (name : P)
    (req : IoReq W) :
    (run step s ([.request name req] ++ List.replicate SQE_STORES .store ++
      [.submit])).view = (s.view.evIouReq name req).2 := by
  rw [run_append, run_append, run_cons, run_nil, run_cons, run_nil,
    SubmissionRing.evIouReq]
  by_cases hfull : s.view.mask.val < s.view.tail - s.view.head
  · have hsame : s.step (.request name req) = s := by
      simp only [step, request, h, if_pos hfull]
    rw [hsame, run_store_outside h, if_pos hfull]
    simp only [step, submit, h]
  · have hcall : s.step (.request name req) =
        { s with loop := .filling name req 0 } := by
      simp only [step, request, h, if_neg hfull]
    obtain ⟨hloop, hview⟩ := run_store (s := s.step (.request name req))
      (congrArg loop hcall) le_rfl
    have hbefore : (s.step (.request name req)).view = s.view := by
      rw [hcall]
      rfl
    rw [hbefore, storesSqe_all] at hview
    rw [if_neg hfull]
    generalize run step (s.step (.request name req)) _ = t at hloop hview
    simp only [step, submit, hloop, lt_irrefl, if_false]
    rw [view, Buffered.view_push]
    show t.view.store (.tail (t.view.tail + 1)) = _
    rw [hview]
    rfl

/-! ## The entries under late stores -/

/-- The buffered stores are those of calls, the entries that the event loop has
published are the submitted ones that the thread has not taken, and an entry that
is being written is in the free cell. -/
structure Inv (s : Sqpoll W P) : Prop where
  orderly : s.ring.Orderly SubmissionRing.store SubmissionRing.Publishes
  wf : s.ring.mem.Wf
  content : s.taken ++ s.view.pending = s.submitted
  filling : ∀ name req stored, s.loop = .filling name req stored →
    (∃ old, s.view.sqes (s.view.mask.index s.view.tail) =
      storesSqe name req old stored) ∧ stored ≤ SQE_STORES ∧
      dist s.view.head s.view.tail < s.view.mask.size

theorem inv_start (mask : RingMask) (counter : UInt32) (sqes : Nat → Sqe W P) :
    (start mask counter sqes).Inv where
  orderly := trivial
  wf := (dist_self counter).le.trans (Nat.zero_le _)
  content := ringView_self sqes mask counter
  filling := by rintro name req stored ⟨⟩

namespace Inv

open SubmissionRing

variable {s : Sqpoll W P}

theorem view_wf (h : s.Inv) : s.view.Wf :=
  h.orderly.view (fun _ _ _ hpub => hpub.wf) h.wf

/-- What the memory shows is the beginning of what the event loop has
published. -/
theorem pending_le (h : s.Inv) : s.ring.mem.pending <+: s.view.pending :=
  h.orderly.view (P := fun r => s.ring.mem.pending <+: r.pending)
    (fun _ _ hle hpub => hle.trans hpub.pending_le) List.prefix_rfl

/-- The invariant of a state whose view is known. -/
theorem of_view {t : Sqpoll W P} {r : SubmissionRing W P} (hview : t.view = r)
    (horderly : t.ring.Orderly SubmissionRing.store SubmissionRing.Publishes)
    (hwf : t.ring.mem.Wf) (hcontent : t.taken ++ r.pending = t.submitted)
    (hfilling : ∀ name req stored, t.loop = .filling name req stored →
      (∃ old, r.sqes (r.mask.index r.tail) = storesSqe name req old stored) ∧
        stored ≤ SQE_STORES ∧ dist r.head r.tail < r.mask.size) : t.Inv := by
  subst hview
  exact ⟨horderly, hwf, hcontent, hfilling⟩

theorem moves (h : s.Inv) (old new : SqThread) : (s.moves old new).Inv := by
  unfold Sqpoll.moves
  split
  · exact ⟨h.orderly, h.wf, h.content, h.filling⟩
  · exact h

theorem prepareToWait (h : s.Inv) : s.prepareToWait.Inv := by
  unfold Sqpoll.prepareToWait
  split
  · exact ⟨h.orderly, h.wf, h.content, h.filling⟩
  · exact h

theorem request (h : s.Inv) (name : P) (req : IoReq W) :
    (s.request name req).Inv := by
  unfold Sqpoll.request
  split
  case h_2 => exact h
  case h_1 hloop =>
    split
    case isTrue => exact h
    case isFalse hfull =>
      have hroom : dist s.view.head s.view.tail < s.view.mask.size := by
        rwa [mask_lt_iff, not_le] at hfull
      refine ⟨h.orderly, h.wf, h.content, ?_⟩
      rintro name req stored ⟨⟩
      exact ⟨⟨_, rfl⟩, Nat.zero_le _, hroom⟩

theorem store (h : s.Inv) : s.store.Inv := by
  unfold Sqpoll.store
  split
  case h_2 => exact h
  case h_1 name req stored hloop =>
    obtain ⟨⟨old, hcell⟩, -, hroom⟩ := h.filling name req stored hloop
    split
    case isFalse => exact h
    case isTrue hlt =>
      refine of_view (Buffered.view_push s.ring _)
        (Buffered.orderly_push.mpr ⟨h.orderly, hroom, rfl⟩) h.wf ?_ ?_
      · exact (congrArg _ (pending_store_sqe hroom name req stored)).trans
          h.content
      · rintro name req stored ⟨⟩
        refine ⟨⟨old, ?_⟩, hlt, hroom⟩
        refine (Function.update_self _ _ _).trans ?_
        exact congrArg (storeSqe _ _ · _) hcell

theorem submit (h : s.Inv) : s.submit.Inv := by
  unfold Sqpoll.submit
  split
  case h_2 => exact h
  case h_1 name req stored hloop =>
    obtain ⟨⟨old, hcell⟩, hle, hroom⟩ := h.filling name req stored hloop
    split
    case isTrue => exact h
    case isFalse hall =>
      obtain rfl : stored = SQE_STORES := by omega
      rw [storesSqe_all] at hcell
      refine of_view (Buffered.view_push s.ring _)
        (Buffered.orderly_push.mpr ⟨h.orderly, hroom, rfl⟩) h.wf ?_ ?_
      · show s.taken ++ (s.view.store (.tail (s.view.tail + 1))).pending =
          s.submitted ++ [sqeOf name req]
        rw [pending_store_tail hroom, hcell, ← h.content, List.append_assoc]
      · rintro name req stored ⟨⟩

theorem loadFlags (h : s.Inv) : s.loadFlags.Inv := by
  unfold Sqpoll.loadFlags
  split
  case h_2 => exact h
  case h_1 hloop =>
    refine ⟨h.orderly, h.wf, h.content, fun name req stored hfilling => ?_⟩
    dsimp only at hfilling
    split at hfilling <;> cases hfilling

theorem enter (h : s.Inv) : s.enter.Inv := by
  unfold Sqpoll.enter
  split
  case h_2 => exact h
  case h_1 hloop =>
    exact of_view (Buffered.view_fence s.ring) (Buffered.orderly_fence _)
      h.view_wf h.content (by rintro name req stored ⟨⟩)

theorem drain (h : s.Inv) : (s.step .drain).Inv :=
  of_view (Buffered.view_drain s.ring) h.orderly.drain
    (h.orderly.drain_mem (fun _ _ _ hpub => hpub.wf) h.wf) h.content h.filling

/-- The thread takes the first entry that the event loop has published. -/
theorem take (h : s.Inv) : s.take.Inv := by
  unfold Sqpoll.take
  split
  case isFalse => exact h
  case isTrue =>
    split
    case h_1 => exact h
    case h_2 entry ring htake =>
      obtain ⟨hne, rfl, rfl⟩ := kernelTake_eq_some htake
      have hview : s.view.head ≠ s.view.tail :=
        h.orderly.view (P := fun r => r.head ≠ r.tail)
          (fun _ _ hne hpub => hpub.head_ne_tail hne) hne
      refine of_view (Buffered.view_write advance_store s.ring)
        (h.orderly.write advance_store
          (fun _ _ hne hpub => hpub.head_ne_tail hne)
          (fun _ _ hne hpub => hpub.advance hne) hne) ?_ ?_ ?_
      · exact h.wf.advance hne
      · have hfirst :
            [s.ring.mem.sqes (s.ring.mem.mask.index s.ring.mem.head)] <+:
              s.view.pending := by
          refine List.IsPrefix.trans ?_ h.pending_le
          rw [pending_eq_cons hne]
          exact List.prefix_append _ _
        rw [pending_eq_cons hview, List.cons_prefix_cons] at hfirst
        show s.taken ++ [_] ++ s.view.advance.pending = s.submitted
        rw [hfirst.1, List.append_assoc, List.singleton_append,
          ← pending_eq_cons hview]
        exact h.content
      · intro name req stored hfilling
        obtain ⟨hcell, hle, hroom⟩ := h.filling name req stored hfilling
        have hdist := dist_head_succ hview
        refine ⟨hcell, hle, ?_⟩
        show dist (s.view.head + 1) s.view.tail < s.view.mask.size
        omega

theorem step (h : s.Inv) (a : SqpollStep W P) : (s.step a).Inv := by
  cases a with
  | request name req => exact h.request name req
  | store => exact h.store
  | submit => exact h.submit
  | loadFlags => exact h.loadFlags
  | enter => exact h.enter
  | drain => exact h.drain
  | take => exact h.take
  | prepareToWait => exact h.prepareToWait
  | setFlag | recheck | schedule | interrupt | clearFlag => exact h.moves _ _

end Inv

/-- Whenever the stores of the event loop arrive, the kernel thread takes the
submitted entries, each one as it was written and in the order of the calls.
What the memory shows is the beginning of what is left, and there are never
more entries than cells. -/
theorem entries_in_order_under_tso (mask : RingMask) (counter : UInt32)
    (sqes : Nat → Sqe W P) (sched : List (SqpollStep W P)) :
    let s := run step (start mask counter sqes) sched
    s.taken ++ s.view.pending = s.submitted ∧
      s.ring.mem.pending <+: s.view.pending ∧ s.view.Wf := by
  intro s
  have hinv : s.Inv :=
    run_invariant (fun _ a h => h.step a) (inv_start mask counter sqes) sched
  exact ⟨hinv.content, hinv.pending_le, hinv.view_wf⟩

/-! ## The flag and the sleep -/

/-- The flags are loaded when the memory shows every store: what a full barrier
in front of the load would give. -/
def InOrder (s : Sqpoll W P) : SqpollStep W P → Prop
  | .loadFlags => s.loop = .published → s.ring.buffer = []
  | _ => True

/-- No call is running, the kernel thread is asleep, and it has not taken every
entry. -/
structure Stranded (s : Sqpoll W P) : Prop where
  outside : s.loop = .outside
  asleep : s.thread = .asleep
  waits : s.view.pending ≠ []

/-- The flag is the one that the phase of the thread asks for, and nobody has
woken a sleeping thread. -/
structure Flagged (s : Sqpoll W P) : Prop where
  flag : s.needWakeup = s.thread.needWakeup
  unwoken : s.thread = .asleep → s.woken = false

omit [Zero W] in
theorem flagged_start (mask : RingMask) (counter : UInt32)
    (sqes : Nat → Sqe W P) : (start mask counter sqes).Flagged :=
  ⟨rfl, fun _ => rfl⟩

namespace Flagged

variable {s : Sqpoll W P}

omit [Zero W] in
theorem moves {old new : SqThread} (h : s.Flagged)
    (hnew : new = .asleep → s.woken = false) : (s.moves old new).Flagged := by
  unfold Sqpoll.moves
  split
  · exact ⟨rfl, hnew⟩
  · exact h

theorem enter (h : s.Flagged) : s.enter.Flagged := by
  unfold Sqpoll.enter
  split
  case h_2 => exact h
  case h_1 =>
    refine ⟨h.flag.trans ?_, ?_⟩ <;> dsimp only <;> split
    case refine_1.isTrue hasleep => rw [hasleep]; rfl
    case refine_1.isFalse => rfl
    case refine_2.isTrue => rintro ⟨⟩
    case refine_2.isFalse hawake => exact fun hasleep => absurd hasleep hawake

omit [Zero W] in
theorem prepareToWait (h : s.Flagged) : s.prepareToWait.Flagged := by
  unfold Sqpoll.prepareToWait
  split
  case isTrue hpolling =>
    have hflag : s.needWakeup = false :=
      h.flag.trans (congrArg SqThread.needWakeup hpolling)
    exact ⟨hflag, fun _ => rfl⟩
  case isFalse => exact h

theorem step (h : s.Flagged) (a : SqpollStep W P) : (s.step a).Flagged := by
  cases a with
  | request name req =>
    simp only [Sqpoll.step, Sqpoll.request]
    split
    · split <;> exact ⟨h.flag, h.unwoken⟩
    · exact h
  | store =>
    simp only [Sqpoll.step, Sqpoll.store]
    split
    · split <;> exact ⟨h.flag, h.unwoken⟩
    · exact h
  | submit =>
    simp only [Sqpoll.step, Sqpoll.submit]
    split
    · split <;> exact ⟨h.flag, h.unwoken⟩
    · exact h
  | loadFlags =>
    simp only [Sqpoll.step, Sqpoll.loadFlags]
    split <;> exact ⟨h.flag, h.unwoken⟩
  | enter => exact h.enter
  | drain => exact ⟨h.flag, h.unwoken⟩
  | take =>
    simp only [Sqpoll.step, Sqpoll.take]
    split
    · split <;> exact ⟨h.flag, h.unwoken⟩
    · exact h
  | prepareToWait => exact h.prepareToWait
  | schedule =>
    refine h.moves fun hasleep => ?_
    cases hwoken : s.woken with
    | true =>
      rw [hwoken] at hasleep
      cases hasleep
    | false => rfl
  | recheck =>
    refine h.moves fun hasleep => ?_
    split at hasleep <;> cases hasleep
  | setFlag | interrupt | clearFlag => exact h.moves (by rintro ⟨⟩)

end Flagged

/-- The head is not in the buffer. -/
theorem view_head (s : Sqpoll W P) : s.view.head = s.ring.mem.head :=
  run_invariant
    (P := fun r : SubmissionRing W P => r.head = s.ring.mem.head)
    (fun _ st h => by cases st <;> exact h) rfl s.ring.buffer

/-- Stores to entries do not move the tail. -/
theorem view_tail {s : Sqpoll W P} (h : ∀ st ∈ s.ring.buffer, st.IsSqe) :
    s.view.tail = s.ring.mem.tail := by
  refine run_invariant_of_meets (P := fun r => r.tail = s.ring.mem.tail)
    (fun r st hr hsqe => ?_) rfl (meets_of_forall h s.ring.mem)
  cases st with
  | sqe index name req number => exact hr
  | tail value => exact hsqe.elim

/-- What the second look at the tail is for.  While no call is past its store
of the tail, the memory shows every tail, and a thread that nobody woke has
gone to sleep behind an empty ring. -/
structure Watched (s : Sqpoll W P) : Prop where
  shown : s.loop.Quiet → ∀ st ∈ s.ring.buffer, st.IsSqe
  empty : s.loop.Quiet → s.thread = .checked ∨ s.thread = .asleep →
    s.woken = false → s.view.head = s.view.tail

theorem watched_start (mask : RingMask) (counter : UInt32)
    (sqes : Nat → Sqe W P) : (start mask counter sqes).Watched :=
  ⟨fun _ _ hst => absurd hst List.not_mem_nil, fun _ _ _ => rfl⟩

namespace Watched

variable {s : Sqpoll W P}

theorem moves {old new : SqThread} (h : s.Watched)
    (hnew : s.thread = old → new = .checked ∨ new = .asleep → s.loop.Quiet →
      s.woken = false → s.view.head = s.view.tail) :
    (s.moves old new).Watched := by
  unfold Sqpoll.moves
  split
  case isTrue hold =>
    exact ⟨h.shown, fun hquiet hphase => hnew hold hphase hquiet⟩
  case isFalse => exact h

theorem request (h : s.Watched) (name : P) (req : IoReq W) :
    (s.request name req).Watched := by
  unfold Sqpoll.request
  split
  case h_2 => exact h
  case h_1 hloop =>
    have hquiet : s.loop.Quiet := hloop ▸ trivial
    split
    · exact h
    · exact ⟨fun _ => h.shown hquiet, fun _ => h.empty hquiet⟩

theorem store (h : s.Watched) : s.store.Watched := by
  unfold Sqpoll.store
  split
  case h_2 => exact h
  case h_1 name req stored hloop =>
    have hquiet : s.loop.Quiet := hloop ▸ trivial
    split
    case isFalse => exact h
    case isTrue =>
      refine ⟨fun _ st hst => ?_, fun _ hphase hwoken => ?_⟩
      · rcases List.mem_append.mp hst with hold | hnew
        · exact h.shown hquiet st hold
        · rw [List.mem_singleton.mp hnew]
          trivial
      · rw [Sqpoll.view, Buffered.view_push]
        exact h.empty hquiet hphase hwoken

theorem submit (h : s.Watched) : s.submit.Watched := by
  unfold Sqpoll.submit
  split
  case h_2 => exact h
  case h_1 =>
    split
    · exact h
    · exact ⟨False.elim, False.elim⟩

/-- The load cannot miss the flag of a thread that has looked at the tail. -/
theorem loadFlags (h : s.Watched) (hflagged : s.Flagged)
    (horder : s.InOrder .loadFlags) : s.loadFlags.Watched := by
  unfold Sqpoll.loadFlags
  split
  case h_2 => exact h
  case h_1 hloop =>
    cases hneed : s.needWakeup with
    | true => exact ⟨False.elim, False.elim⟩
    | false =>
      refine ⟨fun _ st hst => ?_, fun _ hphase => ?_⟩
      · have hempty : s.ring.buffer = [] := horder hloop
        exact absurd (hempty ▸ hst) List.not_mem_nil
      · have hflag := hneed.symm.trans hflagged.flag
        rcases hphase with hphase | hphase <;>
          exact absurd (hflag.trans (congrArg SqThread.needWakeup hphase))
            Bool.false_ne_true

theorem enter (h : s.Watched) : s.enter.Watched := by
  unfold Sqpoll.enter
  split
  case h_2 => exact h
  case h_1 =>
    exact ⟨fun _ _ hst => absurd hst List.not_mem_nil,
      fun _ _ hwoken => by cases hwoken⟩

theorem drain (h : s.Watched) : (s.step .drain).Watched := by
  refine ⟨fun hquiet st hst => ?_, fun hquiet hphase hwoken => ?_⟩
  · exact h.shown hquiet st (Buffered.mem_of_mem_drain hst)
  · have hview : (s.step .drain).view = s.view := Buffered.view_drain s.ring
    rw [hview]
    exact h.empty hquiet hphase hwoken

theorem take (h : s.Watched) : s.take.Watched := by
  unfold Sqpoll.take
  split
  case isFalse => exact h
  case isTrue hpolling =>
    split
    case h_1 => exact h
    case h_2 =>
      refine ⟨h.shown, fun _ hphase => ?_⟩
      rcases hphase with hphase | hphase <;>
        cases hpolling.symm.trans hphase

theorem prepareToWait (h : s.Watched) : s.prepareToWait.Watched := by
  unfold Sqpoll.prepareToWait
  split
  case isTrue =>
    exact ⟨h.shown, fun _ hphase => by rcases hphase with ⟨⟨⟩⟩ | ⟨⟨⟩⟩⟩
  case isFalse => exact h

/-- The second look at the tail. -/
theorem recheck (h : s.Watched) : (s.step .recheck).Watched := by
  refine h.moves fun _ hphase hquiet _ => ?_
  rw [view_head, view_tail (h.shown hquiet)]
  split at hphase
  case isTrue hsame => exact hsame
  case isFalse => rcases hphase with ⟨⟨⟩⟩ | ⟨⟨⟩⟩

theorem step (h : s.Watched) (hflagged : s.Flagged) (a : SqpollStep W P)
    (horder : s.InOrder a) : (s.step a).Watched := by
  cases a with
  | request name req => exact h.request name req
  | store => exact h.store
  | submit => exact h.submit
  | loadFlags => exact h.loadFlags hflagged horder
  | enter => exact h.enter
  | drain => exact h.drain
  | take => exact h.take
  | prepareToWait => exact h.prepareToWait
  | recheck => exact h.recheck
  | schedule =>
    exact h.moves fun hchecked _ hquiet hwoken =>
      h.empty hquiet (Or.inl hchecked) hwoken
  | setFlag | interrupt | clearFlag =>
    exact h.moves fun _ hphase => by rcases hphase with ⟨⟨⟩⟩ | ⟨⟨⟩⟩

end Watched

/-- In a run in which no load of the flags overtakes a store, no entry is left
behind a sleeping thread.  So a stranded entry is the work of such a load. -/
theorem stranded_only_if_overtaken (mask : RingMask) (counter : UInt32)
    (sqes : Nat → Sqe W P) (sched : List (SqpollStep W P))
    (h : (run step (start mask counter sqes) sched).Stranded) :
    ¬ Meets step InOrder (start mask counter sqes) sched := by
  intro hmeets
  obtain ⟨hflagged, hwatched⟩ := run_invariant_of_meets
    (P := fun s : Sqpoll W P => s.Flagged ∧ s.Watched)
    (fun s a hs horder => ⟨hs.1.step a, hs.2.step hs.1 a horder⟩)
    ⟨flagged_start mask counter sqes, watched_start mask counter sqes⟩ hmeets
  have hempty := hwatched.empty (h.outside ▸ trivial) (Or.inr h.asleep)
    (hflagged.unwoken h.asleep)
  refine h.waits ?_
  rw [SubmissionRing.pending, hempty, ringView_self]

/-- The load of the flags comes before the flag is set, and the second look at
the tail comes before the store of the tail arrives. -/
def strandedRun : List (SqpollStep Nat Nat) :=
  [.request 7 ⟨.nop, 0, 0, 0, 0, 0, 0, 0⟩] ++
  List.replicate SQE_STORES .store ++
  [.submit, .prepareToWait, .loadFlags, .setFlag, .recheck, .schedule] ++
  List.replicate (SQE_STORES + 1) .drain

/-- A ring of four cells with nothing in it. -/
def emptyRing : Sqpoll Nat Nat :=
  start ⟨3, 2, by decide, by decide⟩ 0 fun _ => ⟨.nop, 0, 0, 0, 0, 0, 0, none⟩

theorem strandedRun_overtakes :
    (run step emptyRing strandedRun).Stranded ∧
      (run step emptyRing strandedRun).ring.buffer = [] ∧
      ¬ Meets step InOrder emptyRing strandedRun := by
  have hstranded : (run step emptyRing strandedRun).Stranded :=
    ⟨by decide +kernel, by decide +kernel, by decide +kernel⟩
  exact ⟨hstranded, rfl, stranded_only_if_overtaken _ _ _ strandedRun hstranded⟩

/-! ## Until the next call -/

/-- A run after a stranded state `s` in which nobody has woken the thread.  A
call that is past its store of the tail is going to wake it. -/
structure Waits (s t : Sqpoll W P) : Prop where
  asleep : t.thread = .asleep
  needWakeup : t.needWakeup = true
  taken : t.taken = s.taken
  quiet : t.loop.Quiet → t.submitted = s.submitted
  busy : ¬ t.loop.Quiet → ∃ entry, t.submitted = s.submitted ++ [entry]

namespace Waits

variable {s t : Sqpoll W P}

omit [Zero W] in
/-- A sleeping thread moves nowhere by itself. -/
theorem moves {old new : SqThread} (h : s.Waits t) (hold : old ≠ .asleep) :
    s.Waits (t.moves old new) := by
  have hne : t.thread ≠ old := fun heq => hold (heq.symm.trans h.asleep)
  rw [Sqpoll.moves, if_neg hne]
  exact h

theorem step (h : s.Waits t) (a : SqpollStep W P) (ha : a.wakes = false) :
    s.Waits (t.step a) := by
  cases a with
  | request name req =>
    simp only [Sqpoll.step, Sqpoll.request]
    split
    case h_1 hloop =>
      have hquiet := h.quiet (hloop ▸ trivial)
      split
      · exact h
      · exact ⟨h.asleep, h.needWakeup, h.taken, fun _ => hquiet,
          fun hbusy => absurd trivial hbusy⟩
    case h_2 => exact h
  | store =>
    simp only [Sqpoll.step, Sqpoll.store]
    split
    case h_1 name req stored hloop =>
      have hquiet := h.quiet (hloop ▸ trivial)
      split
      · exact ⟨h.asleep, h.needWakeup, h.taken, fun _ => hquiet,
          fun hbusy => absurd trivial hbusy⟩
      · exact h
    case h_2 => exact h
  | submit =>
    simp only [Sqpoll.step, Sqpoll.submit]
    split
    case h_1 name req stored hloop =>
      have hquiet := h.quiet (hloop ▸ trivial)
      split
      · exact h
      · exact ⟨h.asleep, h.needWakeup, h.taken, False.elim,
          fun _ => ⟨_, congrArg (· ++ [sqeOf name req]) hquiet⟩⟩
    case h_2 => exact h
  | loadFlags =>
    simp only [Sqpoll.step, Sqpoll.loadFlags]
    split
    case h_1 hloop =>
      have hbusy := h.busy (hloop ▸ id)
      rw [if_pos h.needWakeup]
      exact ⟨h.asleep, h.needWakeup, h.taken, False.elim, fun _ => hbusy⟩
    case h_2 => exact h
  | drain => exact ⟨h.asleep, h.needWakeup, h.taken, h.quiet, h.busy⟩
  | take =>
    have hne : t.thread ≠ .polling := by rw [h.asleep]; decide
    rw [Sqpoll.step, Sqpoll.take, if_neg hne]
    exact h
  | prepareToWait =>
    have hne : t.thread ≠ .polling := by rw [h.asleep]; decide
    rw [Sqpoll.step, Sqpoll.prepareToWait, if_neg hne]
    exact h
  | setFlag | recheck | schedule | clearFlag => exact h.moves (by decide)
  | enter | interrupt => cases ha

end Waits

/-- A stranded entry waits until the next call enters the kernel.  Before that,
or a wake-up from elsewhere, the thread takes nothing, at most one more entry is
submitted, and no call that submits returns: the load of the flags cannot miss
the flag any more. -/
theorem next_request_wakes (mask : RingMask) (counter : UInt32)
    (sqes : Nat → Sqe W P) (sched rest : List (SqpollStep W P))
    (h : (run step (start mask counter sqes) sched).Stranded)
    (hrest : ∀ a ∈ rest, a.wakes = false) :
    let s := run step (start mask counter sqes) sched
    let t := run step s rest
    t.thread = .asleep ∧ t.taken = s.taken ∧
      t.submitted.length ≤ s.submitted.length + 1 ∧
      (t.loop = .outside → t.submitted = s.submitted) := by
  intro s t
  have hflagged : s.Flagged :=
    run_invariant (fun _ a h => h.step a) (flagged_start mask counter sqes) sched
  have hneed : s.needWakeup = true :=
    hflagged.flag.trans (congrArg SqThread.needWakeup h.asleep)
  have hquiet : s.loop.Quiet := h.outside ▸ trivial
  have hstart : s.Waits s :=
    ⟨h.asleep, hneed, rfl, fun _ => rfl, fun hbusy => absurd hquiet hbusy⟩
  have hwaits : s.Waits t :=
    run_invariant_of_meets (C := fun _ a => a.wakes = false)
      (fun _ a h ha => h.step a ha) hstart (meets_of_forall hrest s)
  refine ⟨hwaits.asleep, hwaits.taken, ?_,
    fun hout => hwaits.quiet (hout ▸ trivial)⟩
  by_cases hloop : t.loop.Quiet
  · exact (congrArg List.length (hwaits.quiet hloop)).le.trans (Nat.le_succ _)
  · obtain ⟨entry, hentry⟩ := hwaits.busy hloop
    rw [hentry, List.length_append, List.length_singleton]

/-- The next call makes its stores and loads the flags. -/
def nextRequest : List (SqpollStep Nat Nat) :=
  [.take, .request 8 ⟨.nop, 0, 0, 0, 0, 0, 0, 0⟩] ++
  List.replicate SQE_STORES .store ++ [.submit, .loadFlags, .take]

theorem next_request_wakes_after_strandedRun :
    let s := run step emptyRing strandedRun
    let t := run step s nextRequest
    s.Stranded ∧ t.loop = .waking ∧ t.taken = [] ∧ t.thread = .asleep := by
  have hstranded : (run step emptyRing strandedRun).Stranded :=
    ⟨by decide +kernel, by decide +kernel, by decide +kernel⟩
  obtain ⟨hasleep, htaken, -, -⟩ := next_request_wakes _ _ _ strandedRun
    nextRequest hstranded (by decide +kernel)
  exact ⟨hstranded, by decide +kernel, htaken.trans (by decide +kernel), hasleep⟩

end Sqpoll

end Ride
