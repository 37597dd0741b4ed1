import Mathlib.Logic.Function.Basic
import Ride.CodeLib.Machine
import Ride.Event

/-!
# The BPF program

`ride.bpf.c` runs on every `file_open`.  It takes a record from its ring buffer,
asks `bpf_path_d_path` for the path of the file, and submits the record when
`in_watch_path` accepts the path.

A record is memory that earlier events have used.  `BpfState.cells` is this
memory, and a lookup that fails may leave it as it is, or write anything to it.
The program does not look at the error: it stores it as the length of the path,
and `in_watch_path` compares it as an unsigned number.
`event_from_failed_lookup` is a run in which the stale path of an earlier event
is submitted again, with a negative length.

`events_wellFormed_without_stale_match` is what holds otherwise.
-/

namespace Ride

open CodeLib.Machine

/-! ## The source functions -/

/-- `enum watch_path_type`. -/
inductive WatchPathType where
  | watchFile
  | watchDirecrtory
deriving DecidableEq

/-- The read-only data of the program. -/
structure Watch where
  watchPath : Bytes
  watchPathLen : Nat
  watchPathType : WatchPathType
  userspacePid : UInt32
  watchPath_length : watchPath.length = MAX_FILENAME_LEN
  watchPathLen_le : watchPathLen ≤ MAX_FILENAME_LEN

/-- The file that is opened, and the thread group that opens it.  `fsFlags` is
absent where `s_type` is null. -/
structure FileOpen where
  tgid : UInt32
  iMode : UInt32
  fsFlags : Option UInt32
  path : Bytes
  path_nul : 0 ∉ path

/-- What `bpf_path_d_path` does for a path: it writes the path and a terminator,
and `rest` is what the buffer holds behind them; or it fails, and leaves the
buffer as it is or with other bytes in it. -/
inductive PathLookup (path : Bytes) where
  | found (rest : Bytes)
      (hsize : path.length + 1 + rest.length = MAX_FILENAME_LEN)
  | failed (err : Int) (herr : INT_MIN < err ∧ err < 0)
      (buf : Option { buf : Bytes // buf.length = MAX_FILENAME_LEN })

namespace PathLookup

variable {path : Bytes}

/-- The return value. -/
def size : PathLookup path → Int
  | .found _ _ => path.length + 1
  | .failed err _ _ => err

/-- The buffer after the call. -/
def buffer (lookup : PathLookup path) (old : Bytes) : Bytes :=
  match lookup with
  | .found rest _ => path ++ 0 :: rest
  | .failed _ _ none => old
  | .failed _ _ (some buf) => buf.val

theorem length_buffer (lookup : PathLookup path) {old : Bytes}
    (hold : old.length = MAX_FILENAME_LEN) :
    (lookup.buffer old).length = MAX_FILENAME_LEN := by
  cases lookup with
  | found rest hsize =>
    rw [buffer, List.length_append, List.length_cons]
    omega
  | failed err herr buf =>
    cases buf with
    | none => exact hold
    | some buf => exact buf.property

end PathLookup

/-- One run of the program: the file, the record that `bpf_ringbuf_reserve`
gives, if any, and the lookup. -/
structure OpenCall where
  file : FileOpen
  cell : Option Nat
  lookup : PathLookup file.path

/-- The records of the ring buffer, and the events that were submitted, each
with the run that submitted it. -/
structure BpfState where
  cells : Nat → Event
  submitted : List (OpenCall × Event)

/-- `S_ISREG`. -/
def S_ISREG (mode : UInt32) : Bool :=
  mode &&& 0xf000 == 0x8000

/-- `fs_requires_dev`. -/
def fsRequiresDev (fsFlags : Option UInt32) : Bool :=
  fsFlags.any fun flags => flags &&& 1 != 0

/-- `in_watch_path`.  The operands of the comparisons are converted to
`size_t`. -/
def inWatchPath (w : Watch) (path : Bytes) (plen : Int) : Bool :=
  if sizeT plen < w.watchPathLen ∨
      (w.watchPathType = .watchFile ∧ w.watchPathLen ≠ sizeT plen) then false
  else (List.range w.watchPathLen).all fun i => path[i]? == w.watchPath[i]?

/-- The program looks at the file. -/
def OpenCall.Watched (w : Watch) (o : OpenCall) : Prop :=
  o.file.tgid ≠ w.userspacePid ∧ S_ISREG o.file.iMode ∧
    fsRequiresDev o.file.fsFlags

instance (w : Watch) (o : OpenCall) : Decidable (o.Watched w) :=
  inferInstanceAs (Decidable (_ ∧ _ ∧ _))

namespace BpfState

/-- The event in a record, before `in_watch_path` is asked. -/
def record (s : BpfState) (o : OpenCall) (j : Nat) : Event where
  path := (o.lookup.buffer (s.cells j).path).set (MAX_FILENAME_LEN - 1) 0
  pathLen := o.lookup.size - 1
  path_length := by
    rw [List.length_set, o.lookup.length_buffer (s.cells j).path_length]

/-- `BPF_PROG(ride, struct file *file)`. -/
def ride (w : Watch) (s : BpfState) (o : OpenCall) : BpfState :=
  if o.Watched w then
    match o.cell with
    | none => s
    | some j =>
      let ev := s.record o j
      { cells := Function.update s.cells j ev
        submitted := if inWatchPath w ev.path ev.pathLen then
          s.submitted ++ [(o, ev)] else s.submitted }
  else s

end BpfState

/-! ## What is accepted -/

/-- The path that is watched. -/
def Watch.scope (w : Watch) : Bytes :=
  w.watchPath.take w.watchPathLen

/-- The path is watched: it is the watched file, or it begins with the watched
directory. -/
def Watch.InScope (w : Watch) (path : Bytes) : Prop :=
  match w.watchPathType with
  | .watchFile => path = w.scope
  | .watchDirecrtory => w.scope <+: path

/-- The lookup has succeeded, the event carries the path of the file with its
length, and the path is watched. -/
structure EventOk (w : Watch) (o : OpenCall) (ev : Event) : Prop where
  found : 0 < o.lookup.size
  nonneg : 0 ≤ ev.pathLen
  le : ev.pathLen ≤ 127
  len : ev.pathLen = (cString ev.path).length
  path : cString ev.path = o.file.path
  scope : w.InScope (cString ev.path)

/-- The loop of `in_watch_path` compares the first bytes. -/
theorem all_range_eq_iff (a b : Bytes) (m : Nat) :
    ((List.range m).all fun i => a[i]? == b[i]?) = true ↔
      a.take m = b.take m := by
  rw [List.all_eq_true]
  constructor
  · intro h
    apply List.ext_getElem?
    intro i
    rw [List.getElem?_take, List.getElem?_take]
    split_ifs with hi
    · exact eq_of_beq (h i (List.mem_range.mpr hi))
    · rfl
  · intro h i hi
    have heq := congrArg (fun l => l[i]?) h
    simp only [List.getElem?_take, if_pos (List.mem_range.mp hi)] at heq
    rw [heq]
    exact beq_self_eq_true _

theorem inWatchPath_iff (w : Watch) (path : Bytes) (plen : Int) :
    inWatchPath w path plen = true ↔
      w.watchPathLen ≤ sizeT plen ∧
      (w.watchPathType = .watchFile → w.watchPathLen = sizeT plen) ∧
      path.take w.watchPathLen = w.scope := by
  unfold inWatchPath
  split_ifs with hlen
  · constructor
    · intro hno
      exact absurd hno (by decide)
    · rintro ⟨hle, hfile, -⟩
      rcases hlen with hlt | ⟨htype, hne⟩
      · omega
      · exact absurd (hfile htype) hne
  · rw [all_range_eq_iff, Watch.scope]
    constructor
    · intro heq
      refine ⟨by omega, ?_, heq⟩
      intro htype
      by_contra hne
      exact hlen (Or.inr ⟨htype, hne⟩)
    · exact fun h => h.2.2

theorem Watch.length_scope (w : Watch) : w.scope.length = w.watchPathLen := by
  rw [Watch.scope, List.length_take, w.watchPath_length]
  exact Nat.min_eq_left w.watchPathLen_le

/-- A path in a buffer, with its length, is accepted exactly when it is
watched. -/
theorem inWatchPath_buffer_iff (w : Watch) {path : Bytes} (rest : Bytes)
    (hlen : path.length ≤ 127) :
    inWatchPath w (path ++ 0 :: rest) path.length = true ↔ w.InScope path := by
  have hsize : sizeT path.length = path.length := by
    rw [sizeT_of_nonneg (by omega) (by omega), Int.toNat_natCast]
  rw [inWatchPath_iff, hsize, Watch.InScope, ← w.length_scope]
  constructor
  · rintro ⟨hle, hfile, htake⟩
    rw [List.take_append_of_le_length hle] at htake
    split
    · rename_i htype
      rw [← htake, hfile htype, List.take_length]
    · rw [← htake]
      exact List.take_prefix ..
  · split
    · rintro rfl
      exact ⟨Nat.le_refl _, fun _ => rfl, List.take_left⟩
    · rename_i htype
      rintro ⟨more, rfl⟩
      refine ⟨?_, fun hfile => ?_, ?_⟩
      · rw [List.length_append]
        exact Nat.le_add_right ..
      · rw [hfile] at htype
        exact absurd htype (by decide)
      · rw [List.append_assoc, List.take_left]

/-! ## A lookup that succeeds -/

/-- The last byte is set, and the path in front of its terminator stays. -/
theorem cString_record {path rest : Bytes} (hnul : 0 ∉ path)
    (hsize : path.length + 1 + rest.length = MAX_FILENAME_LEN) :
    ∃ rest', (path ++ 0 :: rest).set (MAX_FILENAME_LEN - 1) 0 =
      path ++ 0 :: rest' ∧ cString (path ++ 0 :: rest') = path := by
  have hle : path.length ≤ MAX_FILENAME_LEN - 1 := by omega
  have hstring : ∀ rest', cString (path ++ 0 :: rest') = path := by
    intro rest'
    rw [cString, List.takeWhile_append_of_pos]
    · rw [List.takeWhile_cons_of_neg (by simp), List.append_nil]
    · intro b hb
      rw [decide_eq_true_eq]
      rintro rfl
      exact hnul hb
  rw [List.set_append_right _ _ hle]
  cases hk : MAX_FILENAME_LEN - 1 - path.length with
  | zero => exact ⟨rest, rfl, hstring _⟩
  | succ k => exact ⟨rest.set k 0, rfl, hstring _⟩

variable {w : Watch} {s : BpfState} {o : OpenCall}

theorem eventOk_of_found {j : Nat} {rest : Bytes}
    {hsize : o.file.path.length + 1 + rest.length = MAX_FILENAME_LEN}
    (hfound : o.lookup = .found rest hsize)
    (hin : inWatchPath w (s.record o j).path (s.record o j).pathLen = true) :
    EventOk w o (s.record o j) := by
  obtain ⟨rest', hset, hstring⟩ := cString_record o.file.path_nul hsize
  have hpath : (s.record o j).path = o.file.path ++ 0 :: rest' := by
    rw [← hset]
    simp only [BpfState.record, hfound, PathLookup.buffer]
  have hlen : (s.record o j).pathLen = o.file.path.length := by
    simp only [BpfState.record, hfound, PathLookup.size]
    omega
  have hmax : o.file.path.length ≤ 127 := by
    simp only [MAX_FILENAME_LEN] at hsize
    omega
  rw [hpath, hlen, inWatchPath_buffer_iff w rest' hmax] at hin
  refine ⟨?_, by omega, by omega, ?_, ?_, ?_⟩
  · simp only [hfound, PathLookup.size]
    omega
  · rw [hlen, hpath, hstring]
  · rw [hpath, hstring]
  · rw [hpath, hstring]
    exact hin

/-! ## A lookup that fails -/

/-- Where a lookup fails and a directory is watched, the record does not begin
with the directory. -/
def NoStaleMatch (w : Watch) (s : BpfState) (o : OpenCall) : Prop :=
  o.Watched w → o.lookup.size < 0 → w.watchPathType = .watchDirecrtory →
    ∀ j ∈ o.cell, ¬ w.scope <+: (s.record o j).path

instance (w : Watch) (s : BpfState) (o : OpenCall) :
    Decidable (NoStaleMatch w s o) :=
  inferInstanceAs (Decidable (_ → _ → _ → ∀ j ∈ o.cell, ¬ _))

theorem not_inWatchPath_of_failed {j : Nat} (hwatched : o.Watched w)
    (hj : j ∈ o.cell) (hneg : o.lookup.size < 0)
    (hstale : NoStaleMatch w s o) :
    inWatchPath w (s.record o j).path (s.record o j).pathLen = false := by
  rw [Bool.eq_false_iff]
  intro hin
  obtain ⟨-, hfile, htake⟩ := (inWatchPath_iff ..).mp hin
  have hbig : MAX_FILENAME_LEN < sizeT (s.record o j).pathLen := by
    refine Nat.lt_of_lt_of_le (by decide) (sizeT_of_neg ?_ ?_)
    · cases hl : o.lookup with
      | found rest hsize =>
        simp only [hl, PathLookup.size] at hneg
        omega
      | failed err herr buf =>
        simp only [BpfState.record, hl, PathLookup.size]
        omega
    · show o.lookup.size - 1 < 0
      omega
  cases htype : w.watchPathType with
  | watchFile =>
    have hlen := hfile htype
    have hle := w.watchPathLen_le
    omega
  | watchDirecrtory =>
    apply hstale hwatched hneg htype j hj
    rw [← htake]
    exact List.take_prefix ..

/-! ## The runs -/

/-- Every event that was submitted is right for the file that was being
opened. -/
def EventsOk (w : Watch) (s : BpfState) : Prop :=
  ∀ e ∈ s.submitted, EventOk w e.1 e.2

theorem EventsOk.ride (h : EventsOk w s) (hstale : NoStaleMatch w s o) :
    EventsOk w (s.ride w o) := by
  unfold BpfState.ride
  split_ifs with hwatched
  · split
    · exact h
    · rename_i j hj
      intro e he
      simp only at he
      split_ifs at he with hin
      · rw [List.mem_append, List.mem_singleton] at he
        rcases he with he | rfl
        · exact h e he
        · cases hl : o.lookup with
          | found rest hsize => exact eventOk_of_found hl hin
          | failed err herr buf =>
            have hneg : o.lookup.size < 0 := by
              rw [hl]
              exact herr.2
            rw [not_inWatchPath_of_failed hwatched hj hneg hstale] at hin
            exact absurd hin (by decide)
      · exact h e he
  · exact h

/-- In every sequence of opens in which no record matches by its stale bytes,
every event is well formed and in scope. -/
theorem events_wellFormed_without_stale_match (w : Watch)
    (cells : Nat → Event) (opens : List OpenCall)
    (hstale : Meets (BpfState.ride w) (NoStaleMatch w) ⟨cells, []⟩ opens) :
    EventsOk w (run (BpfState.ride w) ⟨cells, []⟩ opens) :=
  run_invariant_of_meets (fun _ _ h hs => h.ride hs)
    (fun _ he => absurd he List.not_mem_nil) hstale

/-- The directory `/w` is watched. -/
def watchW : Watch where
  watchPath := (Event.ofPath [47, 119, 47]).path
  watchPathLen := 3
  watchPathType := .watchDirecrtory
  userspacePid := 1
  watchPath_length := (Event.ofPath [47, 119, 47]).path_length
  watchPathLen_le := by decide

/-- The file `/w/a` is opened, and the lookup succeeds. -/
def openA : OpenCall where
  file := ⟨2, 0x81a4, some 1, [47, 119, 47, 97], by decide⟩
  cell := some 0
  lookup := .found (List.replicate 123 0) (by decide)

/-- A file with a path of 128 bytes outside of `/w` is opened, and the lookup
fails with `ENAMETOOLONG`. -/
def openLong (cell : Nat) : OpenCall where
  file := ⟨2, 0x81a4, some 1, 47 :: List.replicate 127 120, by decide⟩
  cell := some cell
  lookup := .failed (-36) (by decide) none

theorem events_wellFormed_in_clean_record :
    let s := run (BpfState.ride watchW) ⟨fun _ => .zero, []⟩
      [openA, openLong 1]
    s.submitted.map Prod.snd = [.ofPath [47, 119, 47, 97]] ∧
      EventsOk watchW s :=
  ⟨by decide +kernel, events_wellFormed_without_stale_match watchW _
    [openA, openLong 1] (by decide +kernel)⟩

/-- The second open gets the record of the first event, its lookup fails, and
the path of the first event is submitted again, with the length `-37`. -/
theorem event_from_failed_lookup :
    let s := run (BpfState.ride watchW) ⟨fun _ => .zero, []⟩
      [openA, openLong 0]
    s.submitted.map (fun e => (cString e.2.path, e.2.pathLen)) =
      [([47, 119, 47, 97], 4), ([47, 119, 47, 97], -37)] ∧
      (openLong 0).file.path ≠ [47, 119, 47, 97] := by
  decide +kernel

end Ride
