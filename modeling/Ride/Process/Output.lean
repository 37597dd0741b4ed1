import Mathlib.Algebra.Order.BigOperators.Group.Finset
import Mathlib.Algebra.Order.Group.Multiset
import Mathlib.Data.List.Perm.Subperm
import Ride.Process.Pipeline
import Ride.Verifier.Messages
import Ride.Watch.Named

/-!
# From an open to a line of the output

`lines_right` follows a line of the output back to where it comes from: the
processor took an event, the main thread has read it, and a run of the BPF program
has submitted it for the open of a watched file.  No two lines go back to the same
open.  `named_files_only` starts from the command line, and says that every line is
about a file that the user named.

Both need that no run of the BPF program takes a stale path for its own, which
`Process.Clean` states as a condition on the reservations, and `named_files_only`
needs that the opened paths are canonical.
-/

namespace Ride

open CodeLib CodeLib.Machine

/-! ## The lines of one processor -/

namespace Sys

variable {B : Blake3} {n : Nat} {s : Sys B n}

/-- Every line has an event of its own. -/
theorem Output.files_le (h : s.Output) :
    (s.records.map Record.file : Multiset Bytes) ≤
      (s.dequeued.map fun event => cString event.path : List Bytes) := by
  -- the numbers of the events that the lines are for
  set numbers := s.records.map fun r => r.ticket.getD 0 with hnumbers
  set file : Nat → Bytes := fun k => cString (s.dequeued.getD k .zero).path
  have hline : ∀ r ∈ s.records, r.ticket = some (r.ticket.getD 0) ∧
      r.ticket.getD 0 < s.dequeued.length ∧ r.file = file (r.ticket.getD 0) := by
    intro r hr
    obtain ⟨k, event, -, hk, hevent, hfile, -, -⟩ := h.records r hr
    obtain ⟨hlt, -⟩ := List.getElem?_eq_some_iff.mp hevent
    simp only [hk, Option.getD_some, file, List.getD_eq_getElem?_getD, hevent]
    exact ⟨trivial, hlt, hfile⟩
  have hfiles : s.records.map Record.file = numbers.map file := by
    rw [hnumbers, List.map_map]
    exact List.map_congr_left fun r hr => (hline r hr).2.2
  have htickets : s.records.map Record.ticket = numbers.map some := by
    rw [hnumbers, List.map_map]
    exact List.map_congr_left fun r hr => (hline r hr).1
  have hnodup : numbers.Nodup := by
    have hall := h.nodup
    rw [htickets] at hall
    exact List.Nodup.of_map some hall
  have hsub : numbers ⊆ List.range s.dequeued.length := by
    intro k hk
    obtain ⟨r, hr, rfl⟩ := List.mem_map.mp hk
    exact List.mem_range.mpr (hline r hr).2.1
  have hall : (List.range s.dequeued.length).map file =
      s.dequeued.map fun event => cString event.path := by
    apply List.ext_getElem
    · simp
    · intro k hk hk'
      simp only [List.length_map, List.length_range] at hk
      simp [file, List.getD_eq_getElem?_getD, List.getElem?_eq_getElem hk]
  rw [hfiles, ← hall, ← Multiset.map_coe, ← Multiset.map_coe]
  exact Multiset.map_le_map (Multiset.coe_le.mpr (hnodup.subperm hsub))

end Sys

/-! ## The lines of all the processors -/

/-- The processors share out what was taken. -/
theorem sum_filter_fst {α β : Type} {k : Nat} (f : Fin k × α → β)
    (taken : List (Fin k × α)) :
    ∑ i, ((taken.filter (·.1 = i)).map f : Multiset β) = taken.map f := by
  induction taken with
  | nil => simp
  | cons x rest ih =>
    have hcons : ∀ i, (((x :: rest).filter (·.1 = i)).map f : Multiset β) =
        (if x.1 = i then {f x} else 0) +
          ((rest.filter (·.1 = i)).map f : Multiset β) := by
      intro i
      by_cases hi : x.1 = i
      · rw [List.filter_cons_of_pos (by simpa using hi), if_pos hi]
        rfl
      · rw [List.filter_cons_of_neg (by simpa using hi), if_neg hi, zero_add]
    simp only [hcons, Finset.sum_add_distrib, ih]
    rw [Finset.sum_ite_eq, if_pos (Finset.mem_univ _)]
    rfl

namespace System

variable {B : Blake3} {k n : Nat} [NeZero k] {s : System B k n}

/-- A step changes one processor at most, by a step of this processor. -/
theorem processors_step (s : System B k n) (a : SystemStep k n) :
    (s.step a).processors = s.processors ∨ ∃ i b b', a = .processor i b ∧
      (s.step a).processors =
        Function.update s.processors i ((s.processors i).step b') := by
  unfold step
  split_ifs
  · cases a with
    | queueAdd event => exact Or.inl rfl
    | eventfdWrite merged => exact Or.inl rfl
    | raise j =>
      refine Or.inl ?_
      simp only
      split_ifs <;> rfl
    | processor j b => exact Or.inr ⟨j, b, _, rfl, rfl⟩
  · exact Or.inl rfl

end System

namespace Process

variable {B : Blake3} {k n : Nat} [NeZero k] {w : Watch}

theorem processors_step (p : Process B k n) (a : ProcessStep k n) :
    (p.step w a).system.processors = p.system.processors ∨
      ∃ i b b', a = .processor i b ∧ (p.step w a).system.processors =
        Function.update p.system.processors i
          ((p.system.processors i).step b') := by
  have hsys : ∀ b, (∀ i c, b ≠ .processor i c) →
      (p.system.step b).processors = p.system.processors := by
    intro b hb
    rcases p.system.processors_step b with hsame | ⟨i, c, -, rfl, -⟩
    · exact hsame
    · exact absurd rfl (hb i c)
  cases a with
  | test =>
    refine Or.inl ?_
    simp only [step, test]
    split_ifs <;> rfl
  | handle =>
    refine Or.inl ?_
    simp only [step, handle]
    split
    · rfl
    · split_ifs
      · exact hsys _ (by simp)
      · rfl
  | write merged =>
    refine Or.inl ?_
    simp only [step, write]
    split_ifs
    · exact hsys _ (by simp)
    · exact hsys _ (by simp)
    · rfl
  | skip =>
    refine Or.inl ?_
    simp only [step, skip]
    split_ifs <;> rfl
  | pollReturns err =>
    refine Or.inl ?_
    simp only [step, pollReturns]
    split_ifs <;> rfl
  | stop =>
    refine Or.inl ?_
    simp only [step, stop]
    split_ifs <;> rfl
  | raise j => exact Or.inl (hsys _ (by simp))
  | processor i b =>
    refine (p.system.processors_step (.processor i b)).imp id ?_
    rintro ⟨i', b', c, hb, hupdate⟩
    obtain ⟨rfl, rfl⟩ := SystemStep.processor.inj hb
    exact ⟨i, b, c, rfl, hupdate⟩
  | _ => exact Or.inl rfl

/-- What every step of a processor keeps, every step of the process keeps. -/
theorem forall_step {P : Sys B n → Prop} (hstep : ∀ s a, P s → P (s.step a))
    (p : Process B k n) (a : ProcessStep k n)
    (h : ∀ i, P (p.system.processors i)) (i : Fin k) :
    P ((p.step w a).system.processors i) := by
  rcases p.processors_step (w := w) a with hsame | ⟨j, b, b', -, hupdate⟩
  · rw [hsame]
    exact h i
  · rw [hupdate]
    by_cases hi : i = j
    · rw [hi, Function.update_self]
      exact hstep _ _ (h j)
    · rw [Function.update_of_ne hi]
      exact h i

/-- The histories of a processor are those of one of its own runs. -/
theorem live_processors [NeZero n] (w : Watch) (cells : Nat → Event)
    (queue : Queue) (boot : Fin k → Sys.Boot n)
    (sched : List (ProcessStep k n)) (i : Fin k) :
    Sys.Live Sys.LengthOk
      ((run (step w) (start B cells queue boot) sched).system.processors i) :=
  run_invariant (P := fun p : Process B k n =>
      ∀ i, Sys.Live Sys.LengthOk (p.system.processors i))
    (forall_step fun _ a h => h.step Client.lengthOk_step a)
    (fun i => Sys.live_processorRun (boot i) (Sys.lengthOk_processorRun (boot i)))
    sched i

/-! ## The opens -/

/-- No run of the BPF program that fails to look up its path finds a watched one
in the record that it reserves. -/
def Clean (w : Watch) (p : Process B k n) : ProcessStep k n → Prop
  | .reserve o => p.ring.Clean w (.reserve o)
  | _ => True

instance (w : Watch) (p : Process B k n) : DecidablePred (p.Clean w) :=
  fun a => match a with
  | .reserve o => inferInstanceAs (Decidable (p.ring.Clean w (.reserve o)))
  | .store _ => isTrue trivial
  | .commit _ => isTrue trivial
  | .signal => isTrue trivial
  | .test => isTrue trivial
  | .handle => isTrue trivial
  | .write _ => isTrue trivial
  | .skip => isTrue trivial
  | .pollReturns _ => isTrue trivial
  | .stop => isTrue trivial
  | .raise _ => isTrue trivial
  | .processor _ _ => isTrue trivial

/-- In a clean run of the process, every event is right for the file that was
being opened. -/
theorem right_run [NeZero n] (cells : Nat → Event) (queue : Queue)
    (boot : Fin k → Sys.Boot n) (sched : List (ProcessStep k n))
    (hclean : Meets (step w) (Clean w) (start B cells queue boot) sched) :
    BpfRing.Right w (run (BpfState.ride w) ⟨cells, []⟩
      (opens w (start B cells queue boot) sched)) := by
  induction sched using List.reverseRecOn with
  | nil =>
    exact ⟨fun _ he => absurd he List.not_mem_nil,
      fun _ he => absurd he List.not_mem_nil⟩
  | append_singleton sched a ih =>
    obtain ⟨hbefore, hlast⟩ := meets_append_singleton.mp hclean
    obtain ⟨taken, waiting, dropped, hflow, -⟩ :=
      flow_run w B cells queue boot sched
    rw [opens, trace_append_singleton, run_append]
    cases a with
    | reserve o => exact hflow.ring.right (a := .reserve o) (ih hbefore) hlast
    | _ => exact ih hbefore

/-- The events of a sequence of runs of the BPF program belong to these runs, in
their order. -/
theorem submitted_sublist (w : Watch) (cells : Nat → Event)
    (calls : List OpenCall) :
    ((run (BpfState.ride w) ⟨cells, []⟩ calls).submitted.map Prod.fst).Sublist
      calls := by
  refine run_history (P := fun calls (s : BpfState) =>
    (s.submitted.map Prod.fst).Sublist calls) ?_ ?_ calls
  · exact List.Sublist.refl []
  intro calls o ih
  unfold BpfState.ride
  split_ifs
  · split
    · exact ih.trans (List.sublist_append_left _ _)
    · simp only
      split_ifs
      · rw [List.map_append]
        exact ih.append (List.Sublist.refl [o])
      · exact ih.trans (List.sublist_append_left _ _)
  · exact ih.trans (List.sublist_append_left _ _)

/-- Every event that a processor has taken is right for one of the opens. -/
theorem event_right [NeZero n] {cells : Nat → Event} {queue : Queue}
    {boot : Fin k → Sys.Boot n} {sched : List (ProcessStep k n)}
    (hclean : Meets (step w) (Clean w) (start B cells queue boot) sched)
    {i : Fin k} {event : Event}
    (hevent : event ∈ ((run (step w) (start B cells queue boot)
      sched).system.processors i).dequeued) :
    ∃ o ∈ opens w (start B cells queue boot) sched,
      o.Watched w ∧ EventOk w o event := by
  obtain ⟨taken, waiting, dropped, hflow, -⟩ :=
    flow_run w B cells queue boot sched
  have hright := right_run cells queue boot sched hclean
  rw [hflow.ledger.split i, List.mem_map] at hevent
  obtain ⟨⟨j, o, event⟩, hx, rfl⟩ := hevent
  have he := hflow.taken_submitted.subset
    (List.mem_map.mpr ⟨_, List.mem_of_mem_filter hx, rfl⟩)
  exact ⟨o, (submitted_sublist ..).subset (List.mem_map_of_mem he),
    hright.2 _ he, hright.1 _ he⟩

/-! ## The output -/

/-- The line is about the file that was being opened, which the BPF program
watches, and has the digest of the whole content of a file that was opened under
the path. -/
def LineFor (w : Watch) (s : Sys B n) (line : Record) (o : OpenCall) : Prop :=
  o.Watched w ∧ 0 < o.lookup.size ∧ line.file = o.file.path ∧
    w.InScope line.file ∧ ∃ file, ⟨line.ticket, line.file, file⟩ ∈ s.opens ∧
      line.hash = B.hash file.content

theorem exists_lineFor [NeZero n] {cells : Nat → Event} {queue : Queue}
    {boot : Fin k → Sys.Boot n} {sched : List (ProcessStep k n)}
    (hclean : Meets (step w) (Clean w) (start B cells queue boot) sched)
    {i : Fin k} {line : Record}
    (hline : line ∈ ((run (step w) (start B cells queue boot)
      sched).system.processors i).records) :
    ∃ o ∈ opens w (start B cells queue boot) sched, LineFor w
      ((run (step w) (start B cells queue boot) sched).system.processors i)
      line o := by
  obtain ⟨k, event, file, hk, hevent, hfile, hopened, hhash⟩ :=
    (live_processors w cells queue boot sched i).good.output.records line hline
  obtain ⟨o, ho, hwatched, hok⟩ :=
    event_right hclean (List.mem_of_getElem? hevent)
  refine ⟨o, ho, hwatched, hok.found, ?_, ?_, file, ?_, hhash⟩
  · rw [hfile]
    exact hok.path
  · rw [hfile]
    exact hok.scope
  · rw [hk]
    exact hopened

/-- The lines of all the processors need an open each. -/
theorem sum_files_le [NeZero n] {cells : Nat → Event} {queue : Queue}
    {boot : Fin k → Sys.Boot n} {sched : List (ProcessStep k n)}
    (hclean : Meets (step w) (Clean w) (start B cells queue boot) sched) :
    ∑ i, (((run (step w) (start B cells queue boot) sched).system.processors
        i).records.map Record.file : Multiset Bytes) ≤
      ((opens w (start B cells queue boot) sched).map fun o => o.file.path :
        List Bytes) := by
  obtain ⟨taken, waiting, dropped, hflow, -⟩ :=
    flow_run w B cells queue boot sched
  have hright := right_run cells queue boot sched hclean
  have hlive := live_processors (B := B) w cells queue boot sched
  set calls := opens w (start B cells queue boot) sched
  set s := run (BpfState.ride w) ⟨cells, []⟩ calls
  have hpath : s.submitted.map (fun e => cString e.2.path) =
      (s.submitted.map Prod.fst).map fun o => o.file.path := by
    rw [List.map_map]
    exact List.map_congr_left fun e he => (hright.1 e he).path
  calc ∑ i, (((run (step w) (start B cells queue boot) sched).system.processors
        i).records.map Record.file : Multiset Bytes)
      ≤ ∑ i, ((taken.filter (·.1 = i)).map
          (fun x => cString x.2.2.path) : Multiset Bytes) := by
        refine Finset.sum_le_sum fun i _ => ?_
        have hle := (hlive i).good.output.files_le
        rw [hflow.ledger.split i, List.map_map] at hle
        exact hle
    _ = (taken.map fun x => cString x.2.2.path : List Bytes) :=
        sum_filter_fst (fun x : Fin k × OpenCall × Event =>
          cString x.2.2.path) taken
    _ ≤ (calls.map fun o => o.file.path : List Bytes) := by
        have hle := hflow.taken_submitted.map fun e => cString e.2.path
        rw [List.map_map, hpath] at hle
        exact Multiset.coe_le.mpr (hle.trans
          ((submitted_sublist w cells calls).map fun o => o.file.path)).subperm

/-- In every run of the whole process in which no stale path is taken for a new
one, every line of the output is about the open of a watched file in scope, with
the digest of a whole file; and the lines of all the processors together have no
more paths, each counted as often as it occurs, than the opens. -/
theorem lines_right [NeZero n] (cells : Nat → Event) (queue : Queue)
    (boot : Fin k → Sys.Boot n) (sched : List (ProcessStep k n))
    (hclean : Meets (step w) (Clean w) (start B cells queue boot) sched) :
    let p := run (step w) (start B cells queue boot) sched
    let calls := opens w (start B cells queue boot) sched
    (∀ i, ∀ line ∈ (p.system.processors i).records, ∃ o ∈ calls,
      LineFor w (p.system.processors i) line o) ∧
    ∑ i, ((p.system.processors i).records.map Record.file : Multiset Bytes) ≤
      (calls.map fun o => o.file.path : List Bytes) :=
  ⟨fun _ _ hline => exists_lineFor hclean hline, sum_files_le hclean⟩

theorem lines_right_in_lineRun :
    let p := run (step watchW) (start .concat (fun _ => .zero)
      ⟨fun _ => .zero, 0, 0⟩ fun _ => Sys.Boot.zeroed 1) lineRun
    (p.system.processors 0).records.map (fun r => (r.file, r.hash)) =
        [([47, 119, 47, 97], [1, 2, 3])] ∧
      ∀ i, ∀ line ∈ (p.system.processors i).records,
        ∃ o ∈ opens watchW (start .concat (fun _ => .zero)
          ⟨fun _ => .zero, 0, 0⟩ fun _ => Sys.Boot.zeroed 1) lineRun,
          LineFor watchW (p.system.processors i) line o :=
  ⟨by decide +kernel, (lines_right (B := .concat) (w := watchW) (fun _ => .zero)
    ⟨fun _ => .zero, 0, 0⟩ (fun _ => Sys.Boot.zeroed 1) lineRun
    (by decide +kernel)).1⟩

/-- In a state of such a run, a call of `verifier_verify_hash` passes the path of
an open of a watched file in scope, as `pathlen` the length of this path, and the
digest of a whole file that was opened under it. -/
theorem verify_calls_right [NeZero n] (cells : Nat → Event) (queue : Queue)
    (boot : Fin k → Sys.Boot n) (sched : List (ProcessStep k n))
    (hclean : Meets (step w) (Clean w) (start B cells queue boot) sched)
    (i : Fin k) (a : SysStep n) (v : Answers × Fin n)
    (hcall : ((run (step w) (start B cells queue boot) sched).system.processors
      i).verifies a = some v) :
    let s := (run (step w) (start B cells queue boot) sched).system.processors i
    ∃ o ∈ opens w (start B cells queue boot) sched, o.Watched w ∧
      s.path v.2 = some o.file.path ∧
      sizeT (s.reqs v.2).data2 = o.file.path.length ∧ w.InScope o.file.path ∧
      ∃ file, ⟨s.tickets v.2, o.file.path, file⟩ ∈ s.opens ∧
        s.digest v.2 = B.hash file.content := by
  intro s
  have hlive := live_processors (B := B) w cells queue boot sched i
  have hrun : s.halted = none := Sys.live_of_verifies hcall
  obtain ⟨k, event, file, hfor⟩ := (hlive.good.inv hrun).callFor
    (hlive.fixed hrun) (hlive.prop hrun) hcall
  obtain ⟨o, ho, hwatched, hok⟩ :=
    event_right hclean (List.mem_of_getElem? hfor.dequeued)
  refine ⟨o, ho, hwatched, ?_, ?_, ?_, file, ?_, hfor.digest⟩
  · rw [hfor.path, hok.path]
  · rw [hfor.pathlen hok.len, hok.path]
  · rw [← hok.path]
    exact hok.scope
  · rw [hfor.ticket, ← hok.path]
    exact hfor.opened

theorem verify_calls_right_in_lineRun :
    let s := (run (step watchW) (start .concat (fun _ => .zero)
      ⟨fun _ => .zero, 0, 0⟩ fun _ => Sys.Boot.zeroed 1)
      (lineRun.take 47)).system.processors 0
    (s.verifies (.dispatch (Sys.Answers.event [47]))).map Prod.snd = some 0 ∧
      ∃ o ∈ opens watchW (start .concat (fun _ => .zero)
          ⟨fun _ => .zero, 0, 0⟩ fun _ => Sys.Boot.zeroed 1) (lineRun.take 47),
        o.Watched watchW ∧ s.path 0 = some o.file.path ∧
        sizeT (s.reqs 0).data2 = o.file.path.length ∧
        watchW.InScope o.file.path ∧
        ∃ file, ⟨s.tickets 0, o.file.path, file⟩ ∈ s.opens ∧
          s.digest 0 = Blake3.concat.hash file.content := by
  have hcall : (((run (step watchW) (start .concat (fun _ => .zero)
      ⟨fun _ => .zero, 0, 0⟩ fun _ => Sys.Boot.zeroed 1)
      (lineRun.take 47)).system.processors 0).verifies
      (.dispatch (Sys.Answers.event [47]))).map Prod.snd = some 0 := by
    decide +kernel
  refine ⟨hcall, ?_⟩
  obtain ⟨v, hv, hzero⟩ := Option.map_eq_some_iff.mp hcall
  have hright := verify_calls_right (B := .concat) (w := watchW)
    (fun _ => .zero) ⟨fun _ => .zero, 0, 0⟩ (fun _ => Sys.Boot.zeroed 1)
    (lineRun.take 47) (by decide +kernel) 0 _ v hv
  rw [hzero] at hright
  exact hright

/-! ## The command line -/

/-- Where the user names a file, or a directory other than the root, by an operand
of at most 127 bytes with a canonical path of at most 126, no stale path is taken
for a new one, and the files that are opened have canonical paths other than the
root, every line of the output is about this file, or about a file below this
directory. -/
theorem named_files_only [NeZero n] {env : Environment}
    {args : List { arg : Bytes // 0 ∉ arg }} {out : CliArgs} {named : Bytes}
    (haccept : parseEnv env (.start env) args = .ok out)
    (hfirst : (getopt env args).2.head? = some named)
    (hnamed : named.length ≤ 127) {fs : FileSystem} {mode : UInt32}
    {type : WatchPathType} {watched : { path : Bytes // 0 ∉ path }}
    (hstat : fs.stat named = some mode)
    (htype : watchPathTypeOf mode = some type)
    (hreal : fs.realpath named = some watched) (hwatched : Canonical watched)
    (hwlen : watched.val.length ≤ 126)
    (hroot : ¬ (type = .watchDirecrtory ∧ watched.val = rootPath))
    {pid : UInt32} (hw : w = rodata (rideStat fs out.toRideCliArgs).2.1 pid)
    (cells : Nat → Event) (queue : Queue) (boot : Fin k → Sys.Boot n)
    (sched : List (ProcessStep k n))
    (hclean : Meets (step w) (Clean w) (start B cells queue boot) sched)
    (hpaths : ∀ o, .reserve o ∈ sched →
      Canonical o.file.path ∧ o.file.path ≠ rootPath) :
    let p := run (step w) (start B cells queue boot) sched
    ∀ i, ∀ line ∈ (p.system.processors i).records,
      Watches type watched line.file := by
  intro p i line hline
  obtain ⟨o, ho, -, hfound, hfile, hscope, -⟩ := exists_lineFor hclean hline
  obtain ⟨t, a, ha, hstarts⟩ := exists_of_mem_trace ho
  have hmem : .reserve o ∈ sched := by
    cases a with
    | reserve o' =>
      simp only [starts, BpfRing.starts] at hstarts
      split_ifs at hstarts
      · rw [List.mem_singleton.mp hstarts]
        exact ha
      · exact absurd hstarts List.not_mem_nil
    | _ => exact absurd hstarts List.not_mem_nil
  obtain ⟨hcanonical, hne⟩ := hpaths o hmem
  have hlen : o.file.path.length ≤ 127 := by
    cases hl : o.lookup with
    | found rest hsize =>
      rw [MAX_FILENAME_LEN] at hsize
      omega
    | failed err herr buf =>
      rw [hl] at hfound
      exact absurd herr.2 (not_lt.mpr (le_of_lt hfound))
  rw [hfile] at hscope ⊢
  rw [← inWatchPath_buffer_iff w [] hlen, hw] at hscope
  exact (command_line_watches haccept hfirst hnamed hstat htype hreal hwatched
    hwlen hroot hcanonical hlen hne pid []).mp hscope

/-- A file system in which every path names a directory, and is canonical. -/
def everyDirectory : FileSystem where
  stat := fun _ => some 0x41ed
  realpath := everyFile.realpath

/-- The directory `/w` is named, and the file `/w/a` is opened. -/
theorem named_files_only_in_lineRun :
    let arg : { arg : Bytes // 0 ∉ arg } := ⟨[47, 119], by decide⟩
    let out := (CliArgs.start fourProcessors).setWatchPath arg
    let w := rodata (rideStat everyDirectory out.toRideCliArgs).2.1 1
    ((run (step w) (start .concat (fun _ => .zero) ⟨fun _ => .zero, 0, 0⟩
        fun _ => Sys.Boot.zeroed 1) lineRun).system.processors 0).records.map
        Record.file = [[47, 119, 47, 97]] ∧
      ∀ i, ∀ line ∈ ((run (step w) (start .concat (fun _ => .zero)
          ⟨fun _ => .zero, 0, 0⟩ fun _ => Sys.Boot.zeroed 1)
          lineRun).system.processors i).records,
        Watches .watchDirecrtory arg line.file := by
  intro arg out w
  have haccept : parseEnv fourProcessors (.start fourProcessors) [arg] =
      .ok out := rfl
  have hstat : everyDirectory.stat arg = some 0x41ed := rfl
  have htype : watchPathTypeOf 0x41ed = some .watchDirecrtory := by decide
  have hreal : everyDirectory.realpath arg = some arg :=
    realpath_everyFile arg.property
  have hw : w = rodata (rideStat everyDirectory out.toRideCliArgs).2.1 1 := rfl
  have hpaths : ∀ o, .reserve o ∈ lineRun →
      Canonical o.file.path ∧ o.file.path ≠ rootPath := by
    intro o ho
    obtain rfl : o = openA := by simpa [lineRun] using ho
    exact ⟨⟨[[119], [97]], by decide, rfl⟩, by decide⟩
  have hclean : Meets (step w) (Clean w) (start .concat (fun _ => .zero)
      ⟨fun _ => .zero, 0, 0⟩ fun _ => Sys.Boot.zeroed 1) lineRun := by
    decide +kernel
  exact ⟨by decide +kernel, named_files_only haccept rfl (by decide) hstat htype
    hreal ⟨[[119]], by decide, rfl⟩ (by decide) (by decide) hw
    (fun _ => .zero) ⟨fun _ => .zero, 0, 0⟩ (fun _ => Sys.Boot.zeroed 1)
    lineRun hclean hpaths⟩

end Process

end Ride
