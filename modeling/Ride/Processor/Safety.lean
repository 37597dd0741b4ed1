import Ride.Processor.Run

/-!
# What the runs of a processor are safe from

`printed_hashes_whole` is about the output: whatever the kernel does, and in
whatever order, a line that `processor_print_hash` writes is the digest of a
whole file.

`slab_consistent_in_every_run` is about the slots: the free list is in order,
and no slot has two masters.
-/

namespace Ride

open CodeLib CodeLib.Machine

namespace Sys

variable {B : Blake3} {n : Nat} {i : Fin n} {s t : Sys B n}

/-! ## The output -/

/-- Every line of the output carries the path of an event that was taken from
the queue, and the digest of the whole content of the file that was opened under
this path for the event. -/
def HashesWhole (s : Sys B n) : Prop :=
  ∀ r ∈ s.records, ∃ k event file, r.ticket = some k ∧
    s.dequeued[k]? = some event ∧ r.file = cString event.path ∧
    ⟨some k, r.file, file⟩ ∈ s.opens ∧ r.hash = B.hash file.content

/-- The lines of the output that the event number `k` has led to. -/
def recordsOf (s : Sys B n) (k : Nat) : List Record :=
  s.records.filter fun r => r.ticket = some k

theorem Output.length_recordsOf (h : s.Output) (k : Nat) :
    (s.recordsOf k).length ≤ 1 := by
  have hmap : (s.recordsOf k).map Record.ticket =
      List.replicate (s.recordsOf k).length (some k) := by
    rw [List.eq_replicate_iff]
    refine ⟨List.length_map _, ?_⟩
    intro x hx
    obtain ⟨r, hr, rfl⟩ := List.mem_map.mp hx
    simpa using (List.mem_filter.mp hr).2
  have hnodup : ((s.recordsOf k).map Record.ticket).Nodup :=
    h.nodup.sublist (List.filter_sublist.map _)
  rw [hmap, List.nodup_replicate] at hnodup
  exact hnodup

/-- In every run, every line of the output is the digest of a whole file, and
every event leads to at most one line. -/
theorem printed_hashes_whole [NeZero n] (boot : Boot n)
    (sched : List (SysStep n)) :
    let s := run Sys.step (processorRun B boot) sched
    s.HashesWhole ∧ ∀ k, (s.recordsOf k).length ≤ 1 := by
  intro s
  have hout : s.Output := (good_run boot sched).output
  exact ⟨hout.records, hout.length_recordsOf⟩

/-- A start with zeroed memory, and with the rings that `ev_loop_init` gets for
`IOU_SIZE_WANT`: 128 entries, and twice as many completions. -/
def Boot.zeroed (n : Nat) : Boot n where
  id := 0
  queueEfd := 3
  buffers := fun _ => List.replicate READ_BUF_SIZE 0
  sqMask := ⟨127, 7, by decide, by decide⟩
  sqCounter := 0
  sqes := fun _ => sqeOf ⟨.conn, 0⟩ EvIoReq.zero.toIoReq
  cqMask := ⟨255, 8, by decide, by decide⟩
  cqCounter := 0
  cqes := fun _ => ⟨⟨.conn, 0⟩, 0, 0⟩
  fdOpen := fun _ => false

/-- Every call succeeds, and one event with the path is in the queue. -/
def Answers.event (path : Bytes) : Answers where
  queue := ⟨fun _ => .ofPath path, 1, 0⟩
  efd := 1
  efdError := false
  strdup := true
  getsockname := true
  quicInit := true
  openStream := 0
  flush := 0

/-- The loop reaps one completion, and its callback makes some calls of
`ev_iou_req`. -/
def reapOne (ans : Answers) (calls : Nat) : List (SysStep n) :=
  [.load, .dispatch ans] ++ List.replicate calls (.proceed ans) ++ [.publish]

/-- The verifier connects, an event for the path `"/"` arrives, and a file of
three bytes is opened, read twice and printed. -/
def printedRun : List (SysStep 1) :=
  let ans := Answers.event [47]
  [.proceed ans, .proceed ans, .kernel .consume, .kernel .consume] ++
  [.kernel (.complete 1 7 0)] ++ reapOne ans 1 ++
  [.kernel .consume, .kernel (.complete 1 0 0)] ++ reapOne ans 3 ++
  [.kernel .consume, .kernel .consume, .kernel (.notify 0 1 2)] ++
  reapOne ans 1 ++
  [.kernel .consume, .kernel (.openDone 3 8 ⟨[1, 2, 3], by decide⟩ 0)] ++
  reapOne ans 1 ++
  [.kernel .consume, .kernel (.fill 3 3), .kernel (.complete 3 3 0)] ++
  reapOne ans 1 ++
  [.kernel .consume, .kernel (.fill 3 0), .kernel (.complete 3 0 0)] ++
  reapOne ans 0

theorem printed_hashes_whole_once :
    let s := run Sys.step (processorRun .concat (Boot.zeroed 1)) printedRun
    (s.recordsOf 0).map Record.hash = [[1, 2, 3]] ∧
      s.HashesWhole ∧ ∀ k, (s.recordsOf k).length ≤ 1 :=
  ⟨by decide +kernel, printed_hashes_whole (Boot.zeroed 1) printedRun⟩

/-! ## The slab -/

end Sys

/-- The name that the kernel has of it. -/
def Pending.name {n : Nat} : Pending n → Option (Name n)
  | .cmd _ => none
  | .sqe q => q.userData
  | .op o => some o.name
  | .cqe c => some c.userData

theorem Pending.for_of_name {n : Nat} {p : Pending n} {name : Name n}
    (h : p.name = some name) : p.For name.req := by
  cases p with
  | cmd r => exact absurd h (by simp [Pending.name])
  | sqe q =>
    have h : q.userData = some name := h
    rw [Pending.For, Pending.target, h, Option.map_some]
  | op o => exact congrArg _ (congrArg Name.req (Option.some.inj h))
  | cqe c => exact congrArg _ (congrArg Name.req (Option.some.inj h))

namespace Sys

variable {B : Blake3} {n : Nat} {i : Fin n} {s t : Sys B n}

/-- The number of entries, operations and completions that name a request. -/
def countNaming (s : Sys B n) (r : ReqPtr n) : Nat :=
  s.inRings.countP (Pending.For r)

/-- The list from `reqs_list` holds exactly the slots that are not in flight,
each once, and `nr_free_reqs` of them; every slot has its own buffer; a slot
that is not in flight is named by nothing, and no slot is named twice; and what
names a slot was submitted for the task that has the slot now. -/
structure SlabConsistent (s : Sys B n) : Prop where
  list : FreeList (fun i => (s.reqs i).next) s.reqsList
    (fun i => (s.reqs i).inFlight = false) s.nrFreeReqs
  buffer : ∀ i, (s.reqs i).id = i.val ∧ (s.reqs i).buffer = i
  free : ∀ i, (s.reqs i).inFlight = false → s.countNaming (.slot i) = 0
  single : ∀ i, s.countNaming (.slot i) ≤ 1
  current : ∀ p ∈ s.inRings, ∀ i gen, p.name = some ⟨.slot i, gen⟩ →
    (s.reqs i).inFlight = true ∧ gen = s.gens i

theorem countNaming_le (s : Sys B n) (r : ReqPtr n) :
    s.countNaming r ≤ (s.outstanding r).card := by
  rw [countNaming, Multiset.countP_eq_card_filter]
  apply Multiset.card_le_card
  apply Multiset.filter_le_filter
  exact Multiset.le_add_left ..

/-- What names a slot names it by its present name. -/
theorem Carries.name {stage : Stage} {p : Pending n} {name : Name n}
    (hc : s.Carries i stage p) (hname : p.name = some name) :
    name = s.slotName i := by
  cases p with
  | cmd r => exact absurd hname (by simp [Pending.name])
  | sqe q =>
    have hq : q = sqeOf (s.slotName i) (s.reqs i).req.toIoReq := by
      cases stage <;> exact hc
    rw [hq] at hname
    exact (Option.some.inj hname).symm
  | op o =>
    have ho : o.name = s.slotName i := by
      cases stage with
      | opening path id => exact congrArg Op.name hc
      | reading path id file off =>
        obtain ⟨filled, ho, -⟩ := hc
        rw [ho]
      | updating => exact congrArg Op.name hc
    exact (Option.some.inj hname).symm.trans ho
  | cqe c =>
    have hu : c.userData = s.slotName i := by
      cases stage with
      | opening path id => exact hc.1
      | reading path id file off => exact hc.1
      | updating => exact hc
    exact (Option.some.inj hname).symm.trans hu

theorem Inv.slabConsistent (h : Inv none s) : s.SlabConsistent := by
  refine ⟨h.list, fun i => ⟨(h.slab i).id, (h.slab i).buffer⟩, ?_, ?_, ?_⟩
  · intro i hfree
    have hle := s.countNaming_le (.slot i)
    rw [(h.slots i (by simp)).free hfree, Multiset.card_zero] at hle
    exact Nat.le_zero.mp hle
  · intro i
    apply (s.countNaming_le (.slot i)).trans
    cases hfly : (s.reqs i).inFlight with
    | false =>
      rw [(h.slots i (by simp)).free hfly, Multiset.card_zero]
      exact Nat.zero_le 1
    | true =>
      obtain ⟨stage, -, hcar⟩ := (h.slots i (by simp)).busy hfly
      rcases hcar with ⟨hnone, -⟩ | ⟨p, hp, -⟩
      · rw [hnone, Multiset.card_zero]
        exact Nat.zero_le 1
      · rw [hp, Multiset.card_singleton]
  · intro p hp i gen hname
    have hmem : p ∈ s.transit := Multiset.mem_add.mpr (Or.inr hp)
    obtain ⟨hfly, stage, -, -, hc⟩ :=
      (h.slots i (by simp)).of_mem hmem (Pending.for_of_name hname)
    exact ⟨hfly, congrArg Name.gen (hc.name hname)⟩

/-- In every run the slab is consistent, only slots in flight are freed, and the
assertion of `processor_get_req` never fails. -/
theorem slab_consistent_in_every_run [NeZero n] (boot : Boot n)
    (sched : List (SysStep n)) :
    let s := run Sys.step (processorRun B boot) sched
    (s.halted = none → s.SlabConsistent) ∧ (∀ free ∈ s.frees, free.2 = true) ∧
      s.halted ≠ some .assertion := by
  intro s
  have hgood : s.Good := good_run boot sched
  exact ⟨fun hrun => (hgood.inv hrun).slabConsistent, hgood.output.frees,
    hgood.output.asserts⟩

theorem slab_consistent_in_printedRun :
    let s := run Sys.step (processorRun .concat (Boot.zeroed 1)) printedRun
    s.halted = none ∧ s.frees.length = 1 ∧
      (s.halted = none → s.SlabConsistent) ∧
      (∀ free ∈ s.frees, free.2 = true) ∧ s.halted ≠ some .assertion :=
  ⟨by decide +kernel, by decide +kernel,
    slab_consistent_in_every_run (Boot.zeroed 1) printedRun⟩

end Sys

end Ride
