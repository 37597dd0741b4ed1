import Ride.CodeLib.Path
import Ride.Watch.Stat

/-!
# What is watched

The text that `ride_stat` stores and the comparison of `in_watch_path` have to
agree on which files are watched.  They do, except for the root: a slash is
appended to the path of a directory, and the path of the root ends with one
already, so that the program looks for paths that begin with two slashes and
finds none.  `nothing_watched_below_root` is this case, and
`watch_scope_exact_iff` says that there is no other one.
-/

namespace Ride

open CodeLib.Path

/-- The name of a file in its directory. -/
def IsName (c : Bytes) : Prop :=
  c ≠ [] ∧ 0 ∉ c ∧ 47 ∉ c ∧ c ≠ [46] ∧ c ≠ [46, 46]

instance : DecidablePred IsName := fun _ =>
  inferInstanceAs (Decidable (_ ∧ _ ∧ _ ∧ _ ∧ _))

/-- A canonical path: absolute, without `.` and `..`, and with a slash in front
of every name and nowhere else, except for the root. -/
def Canonical (path : Bytes) : Prop :=
  ∃ names : List Bytes, (∀ c ∈ names, IsName c) ∧ path = render 47 names

/-- The path of the root directory. -/
def rootPath : Bytes := [47]

/-- The path lies below the directory: it has one or more names behind those of
the directory. -/
def StrictlyBelow (dir path : Bytes) : Prop :=
  ∃ names more : List Bytes, (∀ c ∈ names, IsName c) ∧
    (∀ c ∈ more, IsName c) ∧ more ≠ [] ∧ dir = render 47 names ∧
    path = render 47 (names ++ more)

/-- What a user means with a watched path of this type. -/
def Watches (type : WatchPathType) (watched path : Bytes) : Prop :=
  match type with
  | .watchFile => path = watched
  | .watchDirecrtory => StrictlyBelow watched path

theorem IsName.component {c : Bytes} (h : IsName c) : Component 47 c :=
  ⟨h.1, h.2.2.1⟩

theorem components {names : List Bytes} (h : ∀ c ∈ names, IsName c) :
    ∀ c ∈ names, Component 47 c :=
  fun c hc => (h c hc).component

/-- A path other than the root has a name. -/
theorem ne_nil_of_ne_root {names : List Bytes} {path : Bytes}
    (hpath : path = render 47 names) (hroot : path ≠ rootPath) :
    names ≠ [] := by
  rintro rfl
  exact hroot hpath

/-- Below a directory other than the root are the paths that begin with the
directory and a slash. -/
theorem strictlyBelow_iff {dir path : Bytes} (hdir : Canonical dir)
    (hpath : Canonical path) (hroot : dir ≠ rootPath)
    (hfile : path ≠ rootPath) :
    StrictlyBelow dir path ↔ dir ++ [47] <+: path := by
  constructor
  · rintro ⟨names, more, hnames, hmore, hne, heq, rfl⟩
    have hnil := ne_nil_of_ne_root heq hroot
    rw [heq, render_of_ne_nil hnil,
      render_of_ne_nil (List.append_ne_nil_of_left_ne_nil hnil more),
      join_append, List.prefix_append_right_inj]
    exact sep_prefix_join hne
  · obtain ⟨names, hnames, hdir⟩ := hdir
    obtain ⟨all, hall, hpath⟩ := hpath
    have hnil := ne_nil_of_ne_root hdir hroot
    have hnil' := ne_nil_of_ne_root hpath hfile
    rw [hdir, hpath, render_of_ne_nil hnil, render_of_ne_nil hnil',
      join_sep_prefix_iff (components hnames) (components hall)]
    rintro ⟨more, hne, rfl⟩
    rw [List.forall_mem_append] at hall
    refine ⟨names, more, hnames, hall.2, hne, ?_, ?_⟩
    · rw [render_of_ne_nil hnil]
    · rw [render_of_ne_nil hnil']

/-- Every other path lies below the root. -/
theorem strictlyBelow_root {path : Bytes} (hpath : Canonical path)
    (hfile : path ≠ rootPath) : StrictlyBelow rootPath path := by
  obtain ⟨names, hnames, rfl⟩ := hpath
  exact ⟨[], names, by simp, hnames, ne_nil_of_ne_root rfl hfile, rfl, rfl⟩

/-- No path begins with two slashes. -/
theorem not_root_slash_prefix {path : Bytes} (hpath : Canonical path) :
    ¬ rootPath ++ [47] <+: path := by
  obtain ⟨names, hnames, rfl⟩ := hpath
  cases names with
  | nil => decide
  | cons c names => exact not_sep_sep_prefix_join (components hnames)

/-- What the program compares: the whole path of a file, and the directory with
its slash. -/
def Compares (type : WatchPathType) (watched path : Bytes) : Prop :=
  match type with
  | .watchFile => path = watched
  | .watchDirecrtory => watched ++ [47] <+: path

/-- The watched path has to leave room for the slash and the terminator. -/
theorem inWatchPath_rideStat_iff {fs : FileSystem} {args : RideCliArgs}
    {mode : UInt32} {type : WatchPathType}
    {watched : { path : Bytes // 0 ∉ path }} {path : Bytes}
    (hstat : fs.stat (cString args.watchPath) = some mode)
    (htype : watchPathTypeOf mode = some type)
    (hreal : fs.realpath (cString args.watchPath) = some watched)
    (hwlen : watched.val.length ≤ 126) (hlen : path.length ≤ 127)
    (pid : UInt32) (rest : Bytes) :
    inWatchPath (rodata (rideStat fs args).2.1 pid) (path ++ 0 :: rest)
        path.length = true ↔ Compares type watched path := by
  have hle : watched.val.length ≤ MAX_FILENAME_LEN - 1 :=
    Nat.le_trans hwlen (by decide)
  have hfit : (watchText type watched).length ≤ MAX_FILENAME_LEN - 1 := by
    show _ ≤ 127
    cases type with
    | watchDirecrtory =>
      show (watched.val ++ [47]).length ≤ 127
      rw [List.length_append, List.length_singleton]
      omega
    | watchFile => exact Nat.le_trans hwlen (by decide)
  obtain ⟨-, -, htype'⟩ := storePath_eq hle hfit
  rw [(rideStat_eq hstat htype hreal hle).2, inWatchPath_buffer_iff _ _ hlen,
    Watch.InScope, scope_rodata watched.property hle hfit pid]
  show (match (storePath type watched.val hle).watchPathType with
    | .watchFile => _ | .watchDirecrtory => _) ↔ _
  rw [htype']
  cases type <;> exact Iff.rfl

/-- The comparison is right for every watched path but the root directory. -/
theorem compares_iff_watches {type : WatchPathType} {watched path : Bytes}
    (hwatched : Canonical watched) (hpath : Canonical path)
    (hfile : path ≠ rootPath)
    (hroot : ¬ (type = .watchDirecrtory ∧ watched = rootPath)) :
    Compares type watched path ↔ Watches type watched path := by
  cases type with
  | watchFile => exact Iff.rfl
  | watchDirecrtory =>
    exact (strictlyBelow_iff hwatched hpath (fun h => hroot ⟨rfl, h⟩)
      hfile).symm

/-- For a canonical watched path of at most 126 bytes and the canonical path of a
file of at most 127 bytes, the program accepts the file exactly when the user
means it, unless the root directory is watched. -/
theorem watch_scope_exact_iff (fs : FileSystem) (args : RideCliArgs)
    (pid mode : UInt32) (type : WatchPathType)
    (watched : { path : Bytes // 0 ∉ path }) (path rest : Bytes)
    (hstat : fs.stat (cString args.watchPath) = some mode)
    (htype : watchPathTypeOf mode = some type)
    (hreal : fs.realpath (cString args.watchPath) = some watched)
    (hwatched : Canonical watched) (hwlen : watched.val.length ≤ 126)
    (hpath : Canonical path) (hlen : path.length ≤ 127)
    (hfile : path ≠ rootPath) :
    (inWatchPath (rodata (rideStat fs args).2.1 pid) (path ++ 0 :: rest)
        path.length = true ↔ Watches type watched path) ↔
      ¬ (type = .watchDirecrtory ∧ watched.val = rootPath) := by
  rw [inWatchPath_rideStat_iff hstat htype hreal hwlen hlen pid rest]
  by_cases hroot : type = .watchDirecrtory ∧ watched.val = rootPath
  · refine iff_of_false ?_ (not_not_intro hroot)
    obtain ⟨rfl, hroot⟩ := hroot
    show ¬ (watched.val ++ [47] <+: path ↔ StrictlyBelow watched path)
    rw [hroot]
    intro h
    exact not_root_slash_prefix hpath (h.mpr (strictlyBelow_root hpath hfile))
  · exact iff_of_true (compares_iff_watches hwatched hpath hfile hroot) hroot

/-- The directory `/ab` is watched, its file `/ab/c` is accepted, and the file
`/abc` beside it is not. -/
theorem watch_scope_exact_for_directory :
    let watched : { path : Bytes // 0 ∉ path } := ⟨[47, 97, 98], by decide⟩
    let w := rodata (rideStat (oneDirectory watched) dotArgs).2.1 1
    inWatchPath w ([47, 97, 98, 47, 99] ++ [0]) 5 = true ∧
      StrictlyBelow watched [47, 97, 98, 47, 99] ∧
      inWatchPath w ([47, 97, 98, 99] ++ [0]) 4 = false ∧
      ¬ StrictlyBelow watched [47, 97, 98, 99] := by
  intro watched w
  have hwatched : Canonical watched.val := ⟨[[97, 98]], by decide, rfl⟩
  have hbelow := (watch_scope_exact_iff (oneDirectory watched) dotArgs 1 0x41ed
    .watchDirecrtory watched [47, 97, 98, 47, 99] [] rfl (by decide) rfl
    hwatched (by decide) ⟨[[97, 98], [99]], by decide, rfl⟩ (by decide)
    (by decide)).mpr (by decide)
  have hbeside := (watch_scope_exact_iff (oneDirectory watched) dotArgs 1 0x41ed
    .watchDirecrtory watched [47, 97, 98, 99] [] rfl (by decide) rfl
    hwatched (by decide) ⟨[[97, 98, 99]], by decide, rfl⟩ (by decide)
    (by decide)).mpr (by decide)
  have hin : inWatchPath w ([47, 97, 98, 47, 99] ++ [0]) 5 = true := by
    decide +kernel
  have hout : inWatchPath w ([47, 97, 98, 99] ++ [0]) 4 = false := by
    decide +kernel
  refine ⟨hin, hbelow.mp hin, hout, fun h => ?_⟩
  exact absurd (hbeside.mpr h) (by rw [Bool.not_eq_true]; exact hout)

/-- With the root watched, the file `/a` lies below it and is not accepted. -/
theorem nothing_watched_below_root :
    let watched : { path : Bytes // 0 ∉ path } := ⟨rootPath, by decide⟩
    let stat := rideStat (oneDirectory watched) dotArgs
    let w := rodata stat.2.1 1
    stat.1 = 0 ∧ w.scope = [47, 47] ∧ StrictlyBelow watched [47, 97] ∧
      inWatchPath w ([47, 97] ++ [0]) 2 = false := by
  refine ⟨by decide +kernel, by decide +kernel, ?_, by decide +kernel⟩
  exact ⟨[], [[97]], by decide, by decide, by decide, rfl, rfl⟩

end Ride
