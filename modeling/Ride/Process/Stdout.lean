import Ride.Process.Output
import Ride.Processor.Output
import Ride.Verifier.Lines

/-!
# What a reader of the output learns

The processors share the standard output, and `processor_print_hash` writes every
line with one call of `write`.  So the output is the lines of all the processors,
in some order that keeps the order of each of them.

`stdout_tells_opens` goes all the way from the opens to the reader: if the paths of
the watched files are clean, then splitting the output into lines and parsing each
of them gives the lines of all the processors back, and every line that the reader
sees is about a file that was being opened.  It assumes that `write` takes a line
as a whole.

The standard output of the model has these lines and nothing else.  `ride_run`
prints two lines of its own to it with `printf`, one with the arguments before
anything starts and one at the shutdown, and a debug build prints its log there.
They are not modelled, and the output that the reader parses here is without
them.
-/

namespace Ride

open CodeLib CodeLib.Machine

namespace Process

variable {B : Blake3} {k n : Nat} [NeZero k] {w : Watch}

/-- The lines that a step writes, with their processor. -/
def writes (w : Watch) (p : Process B k n) (a : ProcessStep k n) :
    List (Fin k × Record) :=
  match a with
  | .processor i _ =>
    (((p.step w a).system.processors i).records.drop
      (p.system.processors i).records.length).map fun line => (i, line)
  | _ => []

/-- The lines of a run, in the order of the calls of `write`. -/
def stdout (w : Watch) (p : Process B k n) (sched : List (ProcessStep k n)) :
    List (Fin k × Record) :=
  trace (step w) (writes w) p sched

/-- The lines of one processor. -/
def linesOf (out : List (Fin k × Record)) (i : Fin k) : List Record :=
  (out.filter (·.1 = i)).map Prod.snd

omit [NeZero k] in
theorem linesOf_append (out more : List (Fin k × Record)) (i : Fin k) :
    linesOf (out ++ more) i = linesOf out i ++ linesOf more i := by
  rw [linesOf, List.filter_append, List.map_append]
  rfl

omit [NeZero k] in
theorem linesOf_tagged (i j : Fin k) (lines : List Record) :
    linesOf (lines.map fun line => (i, line)) j =
      if i = j then lines else [] := by
  rw [linesOf, List.filter_map, List.map_map]
  split_ifs with hij
  · simp [Function.comp_def, hij]
  · simp [Function.comp_def, hij]

/-- A step writes what it adds to the lines of the processors. -/
theorem linesOf_writes (p : Process B k n) (a : ProcessStep k n)
    (hgrows : ∀ i (b : SysStep n), (p.system.processors i).records <+:
      ((p.system.processors i).step b).records) (i : Fin k) :
    ((p.step w a).system.processors i).records =
      (p.system.processors i).records ++ linesOf (p.writes w a) i := by
  rcases p.processors_step (w := w) a with hsame | ⟨j, b, b', rfl, hupdate⟩
  · have hnone : linesOf (p.writes w a) i = [] := by
      unfold writes
      split
      · simp [hsame, linesOf]
      · rfl
    rw [hsame, hnone, List.append_nil]
  · unfold writes
    rw [linesOf_tagged, hupdate]
    by_cases hij : j = i
    · subst hij
      obtain ⟨more, hmore⟩ := hgrows j b'
      rw [if_pos rfl, Function.update_self, ← hmore, List.drop_left]
    · rw [if_neg hij, Function.update_of_ne (Ne.symm hij), List.append_nil]

/-- The output has the lines of every processor, in its order. -/
theorem linesOf_stdout [NeZero n] (w : Watch) (cells : Nat → Event)
    (queue : Queue) (boot : Fin k → Sys.Boot n)
    (sched : List (ProcessStep k n)) (i : Fin k) :
    linesOf (stdout w (start B cells queue boot) sched) i =
      ((run (step w) (start B cells queue boot)
        sched).system.processors i).records := by
  induction sched using List.reverseRecOn with
  | nil => rfl
  | append_singleton sched a ih =>
    have hlive := live_processors (B := B) w cells queue boot sched
    rw [stdout, trace_append_singleton, linesOf_append, run_append, run_cons,
      run_nil, linesOf_writes _ a fun i b => (hlive i).records_step b]
    exact congrArg (· ++ _) ih

theorem mem_records_of_stdout [NeZero n] {cells : Nat → Event} {queue : Queue}
    {boot : Fin k → Sys.Boot n} {sched : List (ProcessStep k n)}
    {x : Fin k × Record} (hx : x ∈ stdout w (start B cells queue boot) sched) :
    x.2 ∈ ((run (step w) (start B cells queue boot)
      sched).system.processors x.1).records := by
  rw [← linesOf_stdout, linesOf, List.mem_map]
  exact ⟨x, List.mem_filter.mpr ⟨hx, by simp⟩, rfl⟩

/-- In a clean run every line fits, since the BPF program submits no longer
path. -/
theorem printable_stdout [NeZero n] {cells : Nat → Event} {queue : Queue}
    {boot : Fin k → Sys.Boot n} {sched : List (ProcessStep k n)}
    (hhash : ∀ content, (B.hash content).length = HASH_LEN)
    (hclean : Meets (step w) (Clean w) (start B cells queue boot) sched) :
    ∀ line ∈ (stdout w (start B cells queue boot) sched).map Prod.snd,
      line.Printable := by
  intro line hline
  obtain ⟨x, hx, rfl⟩ := List.mem_map.mp hline
  obtain ⟨j, event, file, -, hevent, hfile, -, hdigest⟩ :=
    (live_processors w cells queue boot sched x.1).good.output.records x.2
      (mem_records_of_stdout hx)
  obtain ⟨o, -, -, hok⟩ := event_right hclean (List.mem_of_getElem? hevent)
  refine ⟨?_, ?_, ?_⟩
  · have hle := hok.le
    rw [hok.len] at hle
    rw [hfile]
    omega
  · rw [hfile]
    exact zero_notMem_cString event.path
  · rw [hdigest]
    exact hhash file.content

/-- In every run of the whole process in which no stale path is taken for a new
one and the paths of the watched files are clean, reading the output line by line
gives the path and the digest of every line of every processor back, in an order
that keeps the order of each processor; and every line that is read has the path of
a watched file in scope that was being opened, and the digest of a whole file. -/
theorem stdout_tells_opens [NeZero n] (cells : Nat → Event) (queue : Queue)
    (boot : Fin k → Sys.Boot n) (sched : List (ProcessStep k n))
    (hhash : ∀ content, (B.hash content).length = HASH_LEN)
    (hclean : Meets (step w) (Clean w) (start B cells queue boot) sched)
    (hpaths : ∀ o ∈ opens w (start B cells queue boot) sched,
      o.Watched w → CleanPath o.file.path) :
    let p := run (step w) (start B cells queue boot) sched
    let out := stdout w (start B cells queue boot) sched
    let text := output ((out.map Prod.snd).pmap Record.printed
      (printable_stdout hhash hclean))
    (lines text).map readRecord =
        out.map (fun x => some (x.2.file, hex x.2.hash)) ∧
      (∀ i, linesOf out i = (p.system.processors i).records) ∧
      ∀ line ∈ lines text,
        ∃ o ∈ opens w (start B cells queue boot) sched, ∃ file : File,
          readRecord line = some (o.file.path, hex (B.hash file.content)) ∧
          o.Watched w ∧ w.InScope o.file.path := by
  intro p out text
  have hline : ∀ x ∈ out, ∃ o ∈ opens w (start B cells queue boot) sched,
      LineFor w (p.system.processors x.1) x.2 o :=
    fun x hx => exists_lineFor hclean (mem_records_of_stdout hx)
  have hread : (lines text).map readRecord =
      out.map fun x => some (x.2.file, hex x.2.hash) := by
    have hrecovered : Recovered ((out.map Prod.snd).pmap Record.printed
        (printable_stdout hhash hclean)) := by
      rw [recovered_iff]
      intro q hq
      obtain ⟨r, hr, rfl⟩ := List.mem_pmap.mp hq
      obtain ⟨x, hx, rfl⟩ := List.mem_map.mp hr
      obtain ⟨o, ho, hwatched, -, hfile, -⟩ := hline x hx
      show CleanPath x.2.file
      rw [hfile]
      exact hpaths o ho hwatched
    refine hrecovered.trans ?_
    rw [List.map_pmap]
    show List.pmap (fun (r : Record) _ => some (r.file, hex r.hash)) _ _ = _
    rw [List.pmap_eq_map, List.map_map]
    rfl
  refine ⟨hread, linesOf_stdout w cells queue boot sched, ?_⟩
  intro line hmem
  have hone : readRecord line ∈ (lines text).map readRecord :=
    List.mem_map_of_mem hmem
  rw [hread, List.mem_map] at hone
  obtain ⟨x, hx, heq⟩ := hone
  obtain ⟨o, ho, hwatched, -, hfile, hscope, file, -, hdigest⟩ := hline x hx
  refine ⟨o, ho, file, ?_, hwatched, ?_⟩
  · rw [← heq, hfile, hdigest]
  · rw [← hfile]
    exact hscope

end Process

/-- A hasher with digests of the right length: the content is filled up with
zeros, and cut. -/
def Blake3.padded : Blake3 where
  State := Bytes
  zero := []
  init := []
  update := (· ++ ·)
  finalize := fun content => (content ++ List.replicate HASH_LEN 0).take HASH_LEN
  update_update := List.append_assoc

theorem Blake3.length_padded (content : Bytes) :
    (Blake3.padded.hash content).length = HASH_LEN := by
  show ((([] ++ content) ++ List.replicate HASH_LEN 0).take HASH_LEN).length = _
  rw [List.length_take, List.length_append, List.length_replicate]
  omega

namespace Process

theorem stdout_tells_opens_in_lineRun :
    let s : Process .padded 1 1 := start .padded (fun _ => .zero)
      ⟨fun _ => .zero, 0, 0⟩ fun _ => Sys.Boot.zeroed 1
    let out := stdout watchW s lineRun
    out.map (fun x => (x.2.file, x.2.hash.take 4)) =
        [([47, 119, 47, 97], [1, 2, 3, 0])] ∧
      ∃ h : ∀ line ∈ out.map Prod.snd, line.Printable,
        (lines (output ((out.map Prod.snd).pmap Record.printed h))).map
            readRecord =
          out.map fun x => some (x.2.file, hex x.2.hash) := by
  have hpaths : ∀ o ∈ opens watchW (start .padded (fun _ => .zero)
      ⟨fun _ => .zero, 0, 0⟩ fun _ : Fin 1 => Sys.Boot.zeroed 1) lineRun,
      CleanPath o.file.path := by
    have hopens : (opens watchW (start .padded (fun _ => .zero)
        ⟨fun _ => .zero, 0, 0⟩ fun _ : Fin 1 => Sys.Boot.zeroed 1)
        lineRun).map (fun o => o.file.path) = [[47, 119, 47, 97]] := by
      decide +kernel
    intro o ho
    have hmem : o.file.path ∈ [[47, 119, 47, 97]] :=
      hopens ▸ List.mem_map_of_mem (f := fun o => o.file.path) ho
    rw [List.mem_singleton.mp hmem]
    exact ⟨by decide +kernel, utf8_of_ascii (by unfold Ascii; decide +kernel)⟩
  have htells := stdout_tells_opens (B := .padded) (w := watchW)
    (fun _ => .zero) ⟨fun _ => .zero, 0, 0⟩ (fun _ => Sys.Boot.zeroed 1) lineRun
    Blake3.length_padded (by decide +kernel) fun o ho _ => hpaths o ho
  exact ⟨by decide +kernel, _, htells.1⟩

end Process

end Ride
