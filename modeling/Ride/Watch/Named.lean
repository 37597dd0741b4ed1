import Ride.Cli
import Ride.Watch.Scope

/-!
# What the user names

The path that the user names goes through two buffers before it reaches the BPF
program: `parse_env` copies the argument, and `ride_stat` replaces the copy by the
canonical path.  The second copy is checked, but the first one cuts an argument of
more than 127 bytes, and `ride_stat` then looks up the rest of it.
`truncated_argument_watched` is a run in which another file is watched, and
`watches_named_iff` says that shorter arguments are safe on every file system.

`command_line_watches` puts the steps together, from the command line to the
decision of the BPF program about a file.
-/

namespace Ride

open CodeLib.Getopt

/-! ## The copies -/

/-- A copy to a buffer is cut in front of the last byte. -/
theorem cString_copyString {src : Bytes} (hnul : 0 ∉ src) {n : Nat}
    (hn : 0 < n) : cString (copyString src n) = src.take (n - 1) := by
  by_cases hlt : src.length < n
  · rw [copyString, set_strncpy_last hlt, cString_strncpy hnul (Nat.le_of_lt hlt),
      List.take_of_length_le (by omega)]
  · have hcopy : copyString src n = src.take (n - 1) ++ [0] := by
      rw [copyString, strncpy, List.take_append_of_le_length (by omega),
        List.set_eq_take_append_cons_drop, if_pos (by simp; omega),
        List.take_take, Nat.min_eq_left (by omega),
        List.drop_of_length_le (by simp; omega)]
    have hnul' : 0 ∉ src.take (n - 1) := fun h => hnul (List.mem_of_mem_take h)
    rw [hcopy]
    exact cString_append_zeros hnul' 1

/-- The first bytes of what is stored are the text of the path, with its type,
also where the terminator is lost. -/
theorem take_storePath (type : WatchPathType) {abspath : Bytes}
    (hnul : 0 ∉ abspath) (h : abspath.length ≤ MAX_FILENAME_LEN - 1) :
    (storePath type abspath h).watchPath.take
        (storePath type abspath h).watchPathLen = watchText type abspath ∧
      (storePath type abspath h).watchPathType = type := by
  by_cases hfit : (watchText type abspath).length ≤ MAX_FILENAME_LEN - 1
  · obtain ⟨hpath, hlen, htype⟩ := storePath_eq h hfit
    refine ⟨?_, htype⟩
    rw [hpath, hlen, strncpy_of_le (Nat.le_trans hfit (by decide)),
      List.take_left]
  · obtain ⟨rfl, hfull⟩ := full_of_not_fit h hfit
    refine ⟨?_, rfl⟩
    rw [(storePath_full hnul h hfull).1]
    exact List.take_of_length_le (by simp [storePath])

/-! ## The argument -/

/-- If `ride_stat` returns `0`, it has stored the canonical path of what was
named, with a slash behind a directory, and its type. -/
def WatchesNamed (fs : FileSystem) (named : Bytes)
    (r : Int × RideCliArgs × List StatMessage) : Prop :=
  r.1 = 0 → ∃ mode type abspath, fs.stat named = some mode ∧
    watchPathTypeOf mode = some type ∧ fs.realpath named = some abspath ∧
    r.2.1.watchPath.take r.2.1.watchPathLen = watchText type abspath ∧
    r.2.1.watchPathType = type

/-- `ride_stat` looks up the string that it finds in the buffer. -/
theorem watchesNamed_cString (fs : FileSystem) (ride : RideCliArgs) :
    WatchesNamed fs (cString ride.watchPath) (rideStat fs ride) := by
  intro hret
  rcases rideStat_cases fs ride with
    hfail | ⟨mode, type, abspath, h, hstat, htype, hreal, -, hargs⟩
  · exact absurd (hfail.symm.trans hret) (by decide)
  · obtain ⟨htext, htype'⟩ := take_storePath type abspath.property h
    refine ⟨mode, type, abspath, hstat, htype, hreal, ?_, ?_⟩
    · rw [hargs, htext]
    · rw [hargs, htype']

variable {env : Environment} {args : List { arg : Bytes // 0 ∉ arg }}
  {out : CliArgs} {named : Bytes}

/-- An accepted command line leaves the first bytes of its first operand. -/
theorem cString_of_parseEnv (haccept : parseEnv env (.start env) args = .ok out)
    (hfirst : (getopt env args).2.head? = some named) :
    0 ∉ named ∧ cString out.watchPath = named.take (MAX_FILENAME_LEN - 1) := by
  obtain ⟨opts, path, rest, -, hoperands, rfl⟩ := parseEnv_ok haccept
  rw [hoperands] at hfirst
  obtain rfl := Option.some.inj hfirst
  have hmem : path ∈ (getopt env args).2 := by
    rw [hoperands]
    exact List.mem_cons_self
  have hnul := nul_operand hmem
  exact ⟨hnul, cString_copyString hnul (by decide)⟩

/-- A file system in which every path names a file, and is canonical. -/
def everyFile : FileSystem where
  stat := fun _ => some 0x81a4
  realpath := fun path => if h : 0 ∉ path then some ⟨path, h⟩ else none

theorem realpath_everyFile {path : Bytes} (h : 0 ∉ path) :
    everyFile.realpath path = some ⟨path, h⟩ :=
  dif_pos h

/-- On `everyFile` an argument that was cut is watched, and not what was named. -/
theorem not_watchesNamed_everyFile {ride : RideCliArgs} (hnul : 0 ∉ named)
    (hcut : cString ride.watchPath = named.take (MAX_FILENAME_LEN - 1))
    (hlong : MAX_FILENAME_LEN - 1 < named.length) :
    ¬ WatchesNamed everyFile named (rideStat everyFile ride) := by
  have hnul' : 0 ∉ named.take (MAX_FILENAME_LEN - 1) := fun h =>
    hnul (List.mem_of_mem_take h)
  have hlen : (named.take (MAX_FILENAME_LEN - 1)).length =
      MAX_FILENAME_LEN - 1 := by
    rw [List.length_take]
    omega
  have hreal : everyFile.realpath (cString ride.watchPath) =
      some ⟨named.take (MAX_FILENAME_LEN - 1), hnul'⟩ := by
    rw [hcut, realpath_everyFile hnul']
  have hstat : everyFile.stat (cString ride.watchPath) = some 0x81a4 := rfl
  have htype : watchPathTypeOf 0x81a4 = some .watchFile := by decide
  obtain ⟨hret, hargs⟩ := rideStat_eq hstat htype hreal (Nat.le_of_eq hlen)
  intro hwatches
  obtain ⟨mode, type, abspath, hstat', htype', hreal', htext, -⟩ := hwatches hret
  obtain rfl := Option.some.inj hstat'
  obtain rfl := Option.some.inj (htype.symm.trans htype')
  rw [realpath_everyFile hnul] at hreal'
  obtain rfl := Option.some.inj hreal'
  rw [hargs, (take_storePath .watchFile hnul' (Nat.le_of_eq hlen)).1] at htext
  have hcut' : named.take (MAX_FILENAME_LEN - 1) = named := htext
  rw [← hcut', hlen] at hlong
  exact absurd hlong (Nat.lt_irrefl _)

/-- For every command line that is accepted, what the first operand names is
watched or `ride_stat` fails, on every file system, exactly when the operand has
at most 127 bytes. -/
theorem watches_named_iff (haccept : parseEnv env (.start env) args = .ok out)
    (hfirst : (getopt env args).2.head? = some named) :
    (∀ fs, WatchesNamed fs named (rideStat fs out.toRideCliArgs)) ↔
      named.length ≤ 127 := by
  obtain ⟨hnul, hcut⟩ := cString_of_parseEnv haccept hfirst
  constructor
  · intro hall
    refine Nat.not_lt.mp fun hlong => ?_
    exact not_watchesNamed_everyFile hnul hcut hlong (hall everyFile)
  · intro hlen fs
    have hsame : cString out.watchPath = named :=
      hcut.trans (List.take_of_length_le hlen)
    rw [← hsame]
    exact watchesNamed_cString fs out.toRideCliArgs

/-- A machine with four processors. -/
def fourProcessors : Environment where
  strtoll := fun _ => 0
  posixlyCorrect := false
  nprocessorsOnln := 4

theorem watches_named_short :
    let arg : { arg : Bytes // 0 ∉ arg } := ⟨[47, 97], by decide⟩
    let out := (CliArgs.start fourProcessors).setWatchPath arg
    parseEnv fourProcessors (.start fourProcessors) [arg] = .ok out ∧
      ∀ fs, WatchesNamed fs arg (rideStat fs out.toRideCliArgs) := by
  intro arg out
  have haccept : parseEnv fourProcessors (.start fourProcessors) [arg] =
      .ok out := rfl
  exact ⟨haccept, (watches_named_iff haccept rfl).mpr (by decide)⟩

/-- The file `/a..ab` with 128 bytes is named, and `/a..a` with 127 bytes is
watched. -/
theorem truncated_argument_watched :
    let cut : Bytes := 47 :: List.replicate 126 97
    let arg : { arg : Bytes // 0 ∉ arg } := ⟨cut ++ [98], by decide⟩
    let out := (CliArgs.start fourProcessors).setWatchPath arg
    let r := rideStat everyFile out.toRideCliArgs
    parseEnv fourProcessors (.start fourProcessors) [arg] = .ok out ∧
      everyFile.realpath arg = some arg ∧ r.1 = 0 ∧
      r.2.1.watchPath.take r.2.1.watchPathLen = cut ∧ cut ≠ arg ∧
      ¬ WatchesNamed everyFile arg r := by
  intro cut arg out r
  have hcut : cString out.watchPath = arg.val.take (MAX_FILENAME_LEN - 1) :=
    cString_copyString arg.property (by decide)
  refine ⟨rfl, realpath_everyFile arg.property, by decide +kernel,
    by decide +kernel, by decide +kernel, ?_⟩
  exact not_watchesNamed_everyFile arg.property hcut (by decide +kernel)

/-! ## From the command line to the BPF program -/

/-- For an operand of at most 127 bytes that names something other than the root
directory, with a canonical path of at most 126 bytes, the BPF program accepts
exactly the files that the user means. -/
theorem command_line_watches
    (haccept : parseEnv env (.start env) args = .ok out)
    (hfirst : (getopt env args).2.head? = some named)
    (hnamed : named.length ≤ 127) {fs : FileSystem} {mode : UInt32}
    {type : WatchPathType} {watched : { path : Bytes // 0 ∉ path }}
    (hstat : fs.stat named = some mode) (htype : watchPathTypeOf mode = some type)
    (hreal : fs.realpath named = some watched) (hwatched : Canonical watched)
    (hwlen : watched.val.length ≤ 126)
    (hroot : ¬ (type = .watchDirecrtory ∧ watched.val = rootPath))
    {path : Bytes} (hpath : Canonical path) (hlen : path.length ≤ 127)
    (hfile : path ≠ rootPath) (pid : UInt32) (rest : Bytes) :
    inWatchPath (rodata (rideStat fs out.toRideCliArgs).2.1 pid)
        (path ++ 0 :: rest) path.length = true ↔
      Watches type watched path := by
  obtain ⟨-, hcut⟩ := cString_of_parseEnv haccept hfirst
  have hsame : cString out.watchPath = named :=
    hcut.trans (List.take_of_length_le hnamed)
  rw [← hsame] at hstat hreal
  rw [inWatchPath_rideStat_iff hstat htype hreal hwlen hlen pid rest]
  exact compares_iff_watches hwatched hpath hfile hroot

end Ride
