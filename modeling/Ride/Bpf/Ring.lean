import Mathlib.Data.List.Nodup
import Ride.Bpf

/-!
# The BPF program on several processors

The program of `ride.bpf.c` runs wherever a file is opened, so many runs of it
are under way at the same time.  Each run reserves a record of the ring buffer,
looks up the path into it, and submits or discards it.  The records stay in the
order of the reservations, whatever the order of the submissions is:
`ring_buffer__poll` gives them to `ride_ringbuf_handle` one by one from the
oldest on, passes over the ones that were discarded, and waits at one that is
still busy.

`BpfRing` is this ring with the steps of all the runs in any order, and
`BpfState` is the ring of one run at a time.  `Linearized` relates the two: the
whole of a run counts at the moment of its reservation.
`bpf_runs_linearized` is the result, and `Linearized.right` carries the property of
the events over.
-/

namespace Ride

open CodeLib.Machine

/-- How far a record is: reserved, with the path in it, submitted, discarded, or
submitted and given to `ride_ringbuf_handle`. -/
inductive RecordStage where
  | reserved
  | stored
  | submitted
  | discarded
  | handled
deriving DecidableEq

/-- A record of the ring: the run that reserved it, and the memory that it
uses. -/
structure RbRecord where
  call : OpenCall
  cell : Nat
  stage : RecordStage

/-- The memory of the ring, the records from the oldest on, and the events that
`ride_ringbuf_handle` was called with. -/
structure BpfRing where
  cells : Nat → Event
  records : List RbRecord
  delivered : List (OpenCall × Event)

/-- The steps: a run starts, a run stores the path, a run submits or discards;
the reader calls `ride_ringbuf_handle`, and moves past a record.  `i` is the
position of a record. -/
inductive BpfStep where
  | reserve (o : OpenCall)
  | store (i : Nat)
  | commit (i : Nat)
  | handle
  | advance

namespace BpfRing

/-- The memory is part of a record. -/
def Used (r : BpfRing) (j : Nat) : Prop :=
  j ∈ r.records.map RbRecord.cell

instance (r : BpfRing) (j : Nat) : Decidable (r.Used j) :=
  inferInstanceAs (Decidable (_ ∈ _))

/-- The memory that a run of the program works on. -/
def memory (r : BpfRing) : BpfState := ⟨r.cells, []⟩

/-- The record that a run gets from `bpf_ringbuf_reserve`, where it gets as far
as that.  A record that is in use is not reserved again. -/
def place (w : Watch) (r : BpfRing) (o : OpenCall) : Option Nat :=
  if o.Watched w then o.cell.filter fun j => ¬ r.Used j else none

/-- The start of a run, up to `bpf_ringbuf_reserve`. -/
def reserve (w : Watch) (r : BpfRing) (o : OpenCall) : BpfRing :=
  match r.place w o with
  | none => r
  | some j => { r with records := r.records ++ [⟨o, j, .reserved⟩] }

/-- `bpf_path_d_path` and the stores behind it. -/
def store (r : BpfRing) (i : Nat) : BpfRing :=
  match r.records[i]? with
  | some ⟨o, j, .reserved⟩ =>
    { r with
      cells := Function.update r.cells j (r.memory.record o j)
      records := r.records.set i ⟨o, j, .stored⟩ }
  | _ => r

/-- `in_watch_path`, and `bpf_ringbuf_submit` or `bpf_ringbuf_discard`. -/
def commit (w : Watch) (r : BpfRing) (i : Nat) : BpfRing :=
  match r.records[i]? with
  | some ⟨o, j, .stored⟩ =>
    let stage := if inWatchPath w (r.cells j).path (r.cells j).pathLen then
      RecordStage.submitted else .discarded
    { r with records := r.records.set i ⟨o, j, stage⟩ }
  | _ => r

/-- The sample that the reader finds, where the oldest record is submitted. -/
def sample (r : BpfRing) : Option (OpenCall × Event) :=
  match r.records with
  | ⟨o, j, .submitted⟩ :: _ => some (o, r.cells j)
  | _ => none

/-- The reader calls `ride_ringbuf_handle` with the oldest record. -/
def handle (r : BpfRing) : BpfRing :=
  match r.records with
  | ⟨o, j, .submitted⟩ :: rest =>
    { r with
      records := ⟨o, j, .handled⟩ :: rest
      delivered := r.delivered ++ [(o, r.cells j)] }
  | _ => r

/-- The reader stores the consumer position behind the oldest record. -/
def advance (r : BpfRing) : BpfRing :=
  match r.records with
  | ⟨_, _, .handled⟩ :: rest => { r with records := rest }
  | ⟨_, _, .discarded⟩ :: rest => { r with records := rest }
  | _ => r

/-- One step of any run or of the reader. -/
def step (w : Watch) (r : BpfRing) : BpfStep → BpfRing
  | .reserve o => r.reserve w o
  | .store i => r.store i
  | .commit i => r.commit w i
  | .handle => r.handle
  | .advance => r.advance

/-- The ring before the first run. -/
def start (cells : Nat → Event) : BpfRing := ⟨cells, [], []⟩

/-- The run that a step starts, where it gets a record. -/
def starts (w : Watch) (r : BpfRing) : BpfStep → List OpenCall
  | .reserve o => if (r.place w o).isSome then [o] else []
  | _ => []

/-! ## One run at a time -/

/-- What the record holds in the end. -/
def content (r : BpfRing) (x : RbRecord) : Event :=
  if x.stage = .reserved then r.memory.record x.call x.cell else r.cells x.cell

/-- The event that is still to come from the record. -/
def outcome (w : Watch) (r : BpfRing) (x : RbRecord) :
    Option (OpenCall × Event) :=
  if x.stage ≠ .handled ∧
      inWatchPath w (r.content x).path (r.content x).pathLen = true then
    some (x.call, r.content x)
  else none

/-- What `in_watch_path` has answered is what it answers for the content. -/
def Decided (w : Watch) (r : BpfRing) (x : RbRecord) : Prop :=
  (x.stage = .submitted →
    inWatchPath w (r.content x).path (r.content x).pathLen = true) ∧
  (x.stage = .discarded →
    inWatchPath w (r.content x).path (r.content x).pathLen = false)

/-- The ring, and the state in which every run that has a record is over. -/
structure Linearized (w : Watch) (r : BpfRing) (s : BpfState) : Prop where
  nodup : (r.records.map RbRecord.cell).Nodup
  free : ∀ j, ¬ r.Used j → s.cells j = r.cells j
  used : ∀ x ∈ r.records, s.cells x.cell = r.content x
  decided : ∀ x ∈ r.records, r.Decided w x
  submitted : s.submitted = r.delivered ++ r.records.filterMap (r.outcome w)

variable {w : Watch} {r : BpfRing} {s : BpfState}

/-- The event in a record depends on the memory of the record alone. -/
theorem record_congr {s t : BpfState} {o : OpenCall} {j : Nat}
    (h : s.cells j = t.cells j) : s.record o j = t.record o j := by
  simp only [BpfState.record, h]

theorem linearized_start (w : Watch) (cells : Nat → Event) :
    Linearized w (start cells) ⟨cells, []⟩ where
  nodup := List.nodup_nil
  free := fun _ _ => rfl
  used := fun _ hx => absurd hx List.not_mem_nil
  decided := fun _ hx => absurd hx List.not_mem_nil
  submitted := rfl

theorem place_eq_some {o : OpenCall} {j : Nat} :
    r.place w o = some j ↔ o.Watched w ∧ o.cell = some j ∧ ¬ r.Used j := by
  unfold place
  split_ifs with hwatched
  · simp [Option.filter_eq_some_iff, hwatched]
  · simp [hwatched]

/-- A step that changes no content and no outcome. -/
theorem Linearized.of_map (h : Linearized w r s) {t : BpfRing}
    (hmap : t.records.map (fun x => (x.cell, t.content x, t.outcome w x)) =
      r.records.map fun x => (x.cell, r.content x, r.outcome w x))
    (hcells : ∀ j, ¬ r.Used j → t.cells j = r.cells j)
    (hdecided : ∀ x ∈ t.records, t.Decided w x)
    (hdelivered : t.delivered = r.delivered) : Linearized w t s := by
  have hcell : t.records.map RbRecord.cell = r.records.map RbRecord.cell := by
    have hfst := congrArg (List.map Prod.fst) hmap
    rwa [List.map_map, List.map_map] at hfst
  have houtcome : t.records.map (t.outcome w) = r.records.map (r.outcome w) := by
    have hsnd := congrArg (List.map fun x => x.2.2) hmap
    rwa [List.map_map, List.map_map] at hsnd
  refine ⟨?_, ?_, ?_, hdecided, ?_⟩
  · rw [hcell]
    exact h.nodup
  · intro j hj
    rw [Used, hcell] at hj
    rw [h.free j hj, hcells j hj]
  · intro x hx
    have hmem := List.mem_map_of_mem
      (f := fun x => (x.cell, t.content x, t.outcome w x)) hx
    rw [hmap, List.mem_map] at hmem
    obtain ⟨y, hy, heq⟩ := hmem
    rw [Prod.mk.injEq, Prod.mk.injEq] at heq
    rw [← heq.1, h.used y hy, heq.2.1]
  · have hall := congrArg (List.filterMap id) houtcome
    rw [List.filterMap_map, List.filterMap_map] at hall
    rw [h.submitted, hdelivered]
    exact congrArg _ hall.symm

/-- A run counts when it reserves its record. -/
theorem Linearized.reserve (h : Linearized w r s) (o : OpenCall) :
    Linearized w (r.reserve w o)
      (run (BpfState.ride w) s (r.starts w (.reserve o))) := by
  simp only [BpfRing.reserve, starts]
  cases hplace : r.place w o with
  | none => exact h
  | some j =>
    obtain ⟨hwatched, hcell, hfree⟩ := place_eq_some.mp hplace
    have hrecord : s.record o j = r.memory.record o j :=
      record_congr (h.free j hfree)
    have hride : s.ride w o = {
        cells := Function.update s.cells j (r.memory.record o j)
        submitted := if inWatchPath w (r.memory.record o j).path
            (r.memory.record o j).pathLen then
          s.submitted ++ [(o, r.memory.record o j)] else s.submitted } := by
      simp only [BpfState.ride, if_pos hwatched, hcell, hrecord]
    simp only [Option.isSome_some, if_true, run_cons, run_nil, hride]
    refine ⟨?_, ?_, ?_, ?_, ?_⟩
    · rw [List.map_append]
      exact List.Nodup.append h.nodup (List.nodup_singleton j)
        (List.disjoint_singleton.mpr hfree)
    · intro j' hj'
      simp only [Used, List.map_append, List.map_singleton, List.mem_append,
        List.mem_singleton, not_or] at hj'
      exact (Function.update_of_ne hj'.2 ..).trans (h.free j' hj'.1)
    · intro x hx
      rw [List.mem_append, List.mem_singleton] at hx
      rcases hx with hx | rfl
      · have hne : x.cell ≠ j := by
          rintro rfl
          exact hfree (List.mem_map_of_mem hx)
        exact (Function.update_of_ne hne ..).trans (h.used x hx)
      · exact Function.update_self ..
    · intro x hx
      rw [List.mem_append, List.mem_singleton] at hx
      rcases hx with hx | rfl
      · exact h.decided x hx
      · exact ⟨fun hno => absurd hno (by simp), fun hno => absurd hno (by simp)⟩
    · have hnew : r.outcome w ⟨o, j, .reserved⟩ =
          if inWatchPath w (r.memory.record o j).path
            (r.memory.record o j).pathLen = true then
            some (o, r.memory.record o j) else none := by
        simp [outcome, content]
      show _ = r.delivered ++
        (r.records ++ [RbRecord.mk o j .reserved]).filterMap (r.outcome w)
      rw [List.filterMap_append, ← List.append_assoc, ← h.submitted,
        List.filterMap_cons, hnew]
      split_ifs
      · rfl
      · exact (List.append_nil _).symm

/-- The record at a position moves on to another stage.  The other records keep
what they hold. -/
theorem map_set {f g : RbRecord → α} {l : List RbRecord} {i : Nat}
    {x y : RbRecord} (hx : l[i]? = some x) (hxy : g y = f x)
    (hother : ∀ i' z, i' ≠ i → l[i']? = some z → g z = f z) :
    (l.set i y).map g = l.map f := by
  apply List.ext_getElem?
  intro i'
  rw [List.getElem?_map, List.getElem?_map]
  by_cases hi : i' = i
  · subst hi
    obtain ⟨hlt, -⟩ := List.getElem?_eq_some_iff.mp hx
    rw [List.getElem?_set_self hlt, hx, Option.map_some, Option.map_some, hxy]
  · rw [List.getElem?_set_ne (Ne.symm hi)]
    cases hz : l[i']? with
    | none => rfl
    | some z => rw [Option.map_some, Option.map_some, hother i' z hi hz]

/-- Records at different positions use different memory. -/
theorem Linearized.cell_ne (h : Linearized w r s) {i i' : Nat} {x y : RbRecord}
    (hx : r.records[i]? = some x) (hy : r.records[i']? = some y)
    (hne : i' ≠ i) : y.cell ≠ x.cell := by
  intro heq
  obtain ⟨hi, hxi⟩ := List.getElem?_eq_some_iff.mp hx
  obtain ⟨hi', hyi⟩ := List.getElem?_eq_some_iff.mp hy
  rw [← List.length_map RbRecord.cell] at hi hi'
  have hcell : (r.records.map RbRecord.cell)[i'] =
      (r.records.map RbRecord.cell)[i] := by
    rw [List.getElem_map, List.getElem_map, hxi, hyi, heq]
  exact hne ((List.Nodup.getElem_inj_iff h.nodup).mp hcell)

theorem Linearized.store (h : Linearized w r s) (i : Nat) :
    Linearized w (r.store i) s := by
  unfold BpfRing.store
  split
  swap
  · exact h
  rename_i o j hx
  set t : BpfRing := { r with
    cells := Function.update r.cells j (r.memory.record o j)
    records := r.records.set i ⟨o, j, .stored⟩ } with ht
  have hsame : ∀ z, z.cell ≠ j → t.content z = r.content z := by
    intro z hz
    have hcells : t.cells z.cell = r.cells z.cell := Function.update_of_ne hz ..
    rw [content, content, hcells,
      record_congr (s := t.memory) (t := r.memory) hcells]
  have hnew : t.content ⟨o, j, .stored⟩ = r.content ⟨o, j, .reserved⟩ :=
    Function.update_self ..
  have hother : ∀ i' z, i' ≠ i → r.records[i']? = some z →
      t.content z = r.content z :=
    fun i' z hne hz => hsame z (h.cell_ne hx hz hne)
  refine h.of_map ?_ ?_ ?_ rfl
  · refine map_set hx ?_ ?_
    · simp [outcome, hnew]
    · intro i' z hne hz
      rw [outcome, outcome, hother i' z hne hz]
  · intro j' hj'
    refine Function.update_of_ne ?_ ..
    rintro rfl
    exact hj' (List.mem_map_of_mem (List.mem_of_getElem? hx))
  · intro z hz
    obtain ⟨i', hi'⟩ := List.getElem?_of_mem hz
    by_cases hi : i' = i
    · subst hi
      obtain ⟨hlt, -⟩ := List.getElem?_eq_some_iff.mp hx
      rw [ht, List.getElem?_set_self hlt] at hi'
      obtain rfl := Option.some.inj hi'
      exact ⟨fun hno => absurd hno (by simp), fun hno => absurd hno (by simp)⟩
    · rw [ht, List.getElem?_set_ne (Ne.symm hi)] at hi'
      rw [Decided, hother i' z hi hi']
      exact h.decided z (List.mem_of_getElem? hi')

/-- The answer of `in_watch_path` is stored, and the content stays. -/
theorem Linearized.settle (h : Linearized w r s) {i j : Nat} {o : OpenCall}
    (hx : r.records[i]? = some ⟨o, j, .stored⟩) {stage : RecordStage}
    (hreserved : stage ≠ .reserved) (hhandled : stage ≠ .handled)
    (hdecided : r.Decided w ⟨o, j, stage⟩) :
    Linearized w { r with records := r.records.set i ⟨o, j, stage⟩ } s := by
  have hcontent : r.content ⟨o, j, stage⟩ = r.content ⟨o, j, .stored⟩ :=
    if_neg hreserved
  refine h.of_map ?_ (fun _ _ => rfl) ?_ rfl
  · refine map_set hx ?_ fun _ _ _ _ => rfl
    show (j, r.content _, r.outcome w _) = _
    simp [outcome, hcontent, hhandled]
  · intro z hz
    rcases List.mem_or_eq_of_mem_set hz with hz | rfl
    · exact h.decided z hz
    · exact hdecided

theorem Linearized.commit (h : Linearized w r s) (i : Nat) :
    Linearized w (r.commit w i) s := by
  unfold BpfRing.commit
  split
  · rename_i o j hx
    simp only
    split_ifs with hin
    · exact h.settle hx (by simp) (by simp)
        ⟨fun _ => hin, fun hno => absurd hno (by simp)⟩
    · exact h.settle hx (by simp) (by simp)
        ⟨fun hno => absurd hno (by simp), fun _ => Bool.eq_false_iff.mpr hin⟩
  · exact h

/-- `ride_ringbuf_handle` gets the event that the oldest run has submitted. -/
theorem Linearized.handle (h : Linearized w r s) :
    Linearized w r.handle s := by
  unfold BpfRing.handle
  split
  swap
  · exact h
  rename_i o j rest hrecords
  have hfirst : ⟨o, j, .submitted⟩ ∈ r.records := by
    rw [hrecords]
    exact List.mem_cons_self
  have hrest : ∀ x ∈ rest, x ∈ r.records := by
    intro x hx
    rw [hrecords]
    exact List.mem_cons_of_mem _ hx
  have hcells : (⟨o, j, .handled⟩ :: rest).map RbRecord.cell =
      r.records.map RbRecord.cell := by
    rw [hrecords]
    rfl
  refine ⟨?_, ?_, ?_, ?_, ?_⟩
  · rw [hcells]
    exact h.nodup
  · intro j' hj'
    rw [Used, hcells] at hj'
    exact h.free j' hj'
  · intro x hx
    rcases List.mem_cons.mp hx with rfl | hx
    · exact h.used ⟨o, j, .submitted⟩ hfirst
    · exact h.used x (hrest x hx)
  · intro x hx
    rcases List.mem_cons.mp hx with rfl | hx
    · exact ⟨fun hno => absurd hno (by simp), fun hno => absurd hno (by simp)⟩
    · exact h.decided x (hrest x hx)
  · have hin := (h.decided _ hfirst).1 rfl
    have hout : r.outcome w ⟨o, j, .submitted⟩ = some (o, r.cells j) :=
      if_pos ⟨by simp, hin⟩
    have hnone : r.outcome w ⟨o, j, .handled⟩ = none := if_neg (by simp)
    rw [h.submitted, hrecords, List.filterMap_cons, hout]
    show _ = (r.delivered ++ [(o, r.cells j)]) ++
      (RbRecord.mk o j .handled :: rest).filterMap (r.outcome w)
    rw [List.filterMap_cons, hnone, List.append_assoc]
    rfl

/-- The oldest record leaves the ring, where nothing is to come from it. -/
theorem Linearized.pop (h : Linearized w r s) {x : RbRecord}
    {rest : List RbRecord} (hrecords : r.records = x :: rest)
    (hstage : x.stage ≠ .reserved) (hout : r.outcome w x = none) :
    Linearized w { r with records := rest } s := by
  have hmem : x ∈ r.records := by
    rw [hrecords]
    exact List.mem_cons_self
  have hrest : ∀ y ∈ rest, y ∈ r.records := by
    intro y hy
    rw [hrecords]
    exact List.mem_cons_of_mem _ hy
  have hnodup := h.nodup
  rw [hrecords, List.map_cons] at hnodup
  refine ⟨List.Nodup.of_cons hnodup, ?_, fun y hy => h.used y (hrest y hy),
    fun y hy => h.decided y (hrest y hy), ?_⟩
  · intro j hj
    by_cases hx : j = x.cell
    · rw [hx, h.used x hmem]
      exact if_neg hstage
    · refine h.free j ?_
      rw [Used, hrecords, List.map_cons, List.mem_cons]
      rintro (hno | hno)
      · exact hx hno
      · exact hj hno
  · rw [h.submitted, hrecords, List.filterMap_cons, hout]
    rfl

theorem Linearized.advance (h : Linearized w r s) :
    Linearized w r.advance s := by
  unfold BpfRing.advance
  split
  · rename_i o j rest hrecords
    exact h.pop hrecords (by simp) (if_neg (by simp))
  · rename_i o j rest hrecords
    have hmem : ⟨o, j, .discarded⟩ ∈ r.records := by
      rw [hrecords]
      exact List.mem_cons_self
    have hno := (h.decided _ hmem).2 rfl
    exact h.pop hrecords (by simp) (if_neg (by simp [hno]))
  · exact h

theorem Linearized.step (h : Linearized w r s) (a : BpfStep) :
    Linearized w (r.step w a) (run (BpfState.ride w) s (r.starts w a)) := by
  cases a with
  | reserve o => exact h.reserve o
  | store i => exact h.store i
  | commit i => exact h.commit i
  | handle => exact h.handle
  | advance => exact h.advance

/-! ## The events -/

/-- A run that fails to look up its path does not find a watched one in the
record that it reserves. -/
def Clean (w : Watch) (r : BpfRing) : BpfStep → Prop
  | .reserve o => NoStaleMatch w r.memory o
  | _ => True

instance (w : Watch) (r : BpfRing) : DecidablePred (r.Clean w) := fun a =>
  match a with
  | .reserve _ => inferInstanceAs (Decidable (NoStaleMatch ..))
  | .store _ => isTrue trivial
  | .commit _ => isTrue trivial
  | .handle => isTrue trivial
  | .advance => isTrue trivial

/-- Every event that was submitted is right, and the program looks at its
file. -/
def Right (w : Watch) (s : BpfState) : Prop :=
  EventsOk w s ∧ ∀ e ∈ s.submitted, e.1.Watched w

theorem Linearized.right (h : Linearized w r s) (hright : Right w s)
    {a : BpfStep} (hclean : r.Clean w a) :
    Right w (run (BpfState.ride w) s (r.starts w a)) := by
  cases a with
  | reserve o =>
    simp only [starts]
    cases hplace : r.place w o with
    | none => exact hright
    | some j =>
      obtain ⟨hwatched, hcell, hfree⟩ := place_eq_some.mp hplace
      have hstale : NoStaleMatch w s o := by
        intro hw hneg htype j' hj'
        obtain rfl := Option.some.inj (hcell.symm.trans hj')
        rw [record_congr (t := r.memory) (h.free j hfree)]
        exact hclean hw hneg htype j hj'
      refine ⟨hright.1.ride hstale, ?_⟩
      intro e he
      simp only [Option.isSome_some, if_true, run_cons, run_nil, BpfState.ride,
        if_pos hwatched, hcell] at he
      split_ifs at he
      · rw [List.mem_append, List.mem_singleton] at he
        rcases he with he | rfl
        · exact hright.2 e he
        · exact hwatched
      · exact hright.2 e he
  | _ => exact hright

/-! ## The runs -/

/-- Every interleaving of runs of the program, on any number of processors and
with the reader, looks like a sequence of whole runs in the order of their
reservations: the events that `ride_ringbuf_handle` gets are a prefix of the
events of that sequence, and all of them once the ring is empty. -/
theorem bpf_runs_linearized (w : Watch) (cells : Nat → Event)
    (sched : List BpfStep) :
    let r := run (BpfRing.step w) (start cells) sched
    let s := run (BpfState.ride w) ⟨cells, []⟩
      (trace (BpfRing.step w) (BpfRing.starts w) (start cells) sched)
    r.delivered <+: s.submitted ∧
      (r.records = [] → r.delivered = s.submitted) := by
  intro r s
  have hlin : Linearized w r s := by
    refine run_history (P := fun sched r => Linearized w r
      (run (BpfState.ride w) ⟨cells, []⟩
        (trace (BpfRing.step w) (BpfRing.starts w) (start cells) sched)))
      (linearized_start w cells) ?_ sched
    intro sched a h
    rw [trace_append_singleton, run_append]
    exact h.step a
  constructor
  · exact ⟨_, hlin.submitted.symm⟩
  · intro hnil
    rw [hlin.submitted, hnil, List.filterMap_nil, List.append_nil]

end BpfRing

end Ride
