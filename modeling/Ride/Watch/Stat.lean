import Ride.Bpf

/-!
# The watched path

`ride_stat` looks up the path that the user names, and stores its canonical form
with its length and its type.  For a directory it appends a slash.  `ride_run`
copies the three to the read-only data of the BPF program.

`rideStat` and `rodata` are the two functions.  `rideStat_eq` and `scope_rodata`
say what the program gets for a path that fits.

The slash of a directory may take the place of the terminator: `ride_stat` prints
that the path is too large, but goes on.  `directory_without_terminator` is this
case, and `stored_path_proper_iff` says that there is no other one.
-/

namespace Ride

/-! ## The source functions -/

/-- The fields of `struct ride_cli_args` that name the watched path. -/
structure RideCliArgs where
  watchPath : Bytes
  watchPathLen : Nat
  watchPathType : WatchPathType
  watchPath_length : watchPath.length = MAX_FILENAME_LEN
  watchPathLen_le : watchPathLen ≤ MAX_FILENAME_LEN

/-- The answers of `stat` and `realpath` for every path.  A mode is `st_mode`,
and the result of `realpath` is a C string. -/
structure FileSystem where
  stat : Bytes → Option UInt32
  realpath : Bytes → Option { path : Bytes // 0 ∉ path }

/-- What `ride_stat` prints. -/
inductive StatMessage where
  | stat
  | unsupported (mode : UInt32)
  | realpath
  | canonicalTooLarge (abspath : Bytes)
  | directoryTooLarge
  | directoryVeryLarge
deriving DecidableEq

/-- `S_ISDIR`. -/
def S_ISDIR (mode : UInt32) : Bool :=
  mode &&& 0xf000 == 0x4000

/-- `strncpy` of a C string: the rest of the buffer is zero. -/
def strncpy (src : Bytes) (n : Nat) : Bytes :=
  (src ++ List.replicate n 0).take n

theorem length_strncpy (src : Bytes) (n : Nat) : (strncpy src n).length = n := by
  simp [strncpy]

/-- The type that `ride_stat` takes for a mode. -/
def watchPathTypeOf (mode : UInt32) : Option WatchPathType :=
  if S_ISDIR mode then some .watchDirecrtory
  else if S_ISREG mode then some .watchFile
  else none

/-- What `ride_stat` stores for a canonical path that is not too large.  The
last byte is set to zero before the slash is stored. -/
def storePath (type : WatchPathType) (abspath : Bytes)
    (h : abspath.length ≤ MAX_FILENAME_LEN - 1) : RideCliArgs :=
  let copied := (strncpy abspath MAX_FILENAME_LEN).set (MAX_FILENAME_LEN - 1) 0
  have hlen : copied.length = MAX_FILENAME_LEN := by
    rw [List.length_set, length_strncpy]
  match type with
  | .watchDirecrtory =>
    { watchPath := copied.set abspath.length 47
      watchPathLen := abspath.length + 1
      watchPathType := .watchDirecrtory
      watchPath_length := by rw [List.length_set, hlen]
      watchPathLen_le := Nat.add_le_of_le_sub (by decide) h }
  | .watchFile =>
    { watchPath := copied
      watchPathLen := abspath.length
      watchPathType := .watchFile
      watchPath_length := hlen
      watchPathLen_le := Nat.le_trans h (by decide) }

/-- `ride_stat`: the return value, the arguments after the call, and what is
printed. -/
def rideStat (fs : FileSystem) (ride : RideCliArgs) :
    Int × RideCliArgs × List StatMessage :=
  match fs.stat (cString ride.watchPath) with
  | none => (1, ride, [.stat])
  | some mode =>
    match watchPathTypeOf mode with
    | none => (1, ride, [.unsupported mode])
    | some type =>
      match fs.realpath (cString ride.watchPath) with
      | none => (1, { ride with watchPathType := type }, [.realpath])
      | some abspath =>
        if h : abspath.val.length ≤ MAX_FILENAME_LEN - 1 then
          let stored := storePath type abspath h
          (0, stored,
            (if type = .watchDirecrtory ∧
              MAX_FILENAME_LEN - 2 < abspath.val.length then
              [.directoryTooLarge] else []) ++
            -- the bound is `MAX_FILENAME_LEN * 0.90`
            (if type = .watchDirecrtory ∧
              MAX_FILENAME_LEN * 9 < stored.watchPathLen * 10 then
              [.directoryVeryLarge] else []))
        else (1, { ride with watchPathType := type },
          [.canonicalTooLarge abspath])

/-- The read-only data that `ride_run` prepares for the BPF program. -/
def rodata (args : RideCliArgs) (pid : UInt32) : Watch where
  watchPath := strncpy (cString args.watchPath) MAX_FILENAME_LEN
  watchPathLen := args.watchPathLen
  watchPathType := args.watchPathType
  userspacePid := pid
  watchPath_length := length_strncpy ..
  watchPathLen_le := args.watchPathLen_le

/-! ## What is stored -/

/-- A copy of a short string ends with zeros. -/
theorem strncpy_of_le {src : Bytes} {n : Nat} (h : src.length ≤ n) :
    strncpy src n = src ++ List.replicate (n - src.length) 0 := by
  rw [strncpy, List.take_append, List.take_of_length_le h, List.take_replicate,
    Nat.min_eq_left (Nat.sub_le ..)]

/-- The terminator is stored over a zero. -/
theorem set_strncpy_last {src : Bytes} {n : Nat} (h : src.length < n) :
    (strncpy src n).set (n - 1) 0 = strncpy src n := by
  rw [strncpy_of_le (Nat.le_of_lt h), List.set_append_right _ _ (by omega)]
  congr 1
  apply List.ext_getElem
  · rw [List.length_set]
  · intro i hi hi'
    rw [List.getElem_set]
    split_ifs <;> simp

theorem cString_append_zeros {src : Bytes} (hnul : 0 ∉ src) (k : Nat) :
    cString (src ++ List.replicate k 0) = src := by
  rw [cString, List.takeWhile_append_of_pos]
  · cases k with
    | zero => simp
    | succ k => simp [List.replicate_succ]
  · intro b hb
    rw [decide_eq_true_eq]
    rintro rfl
    exact hnul hb

/-- The text that stands for a path: a directory has a slash behind it. -/
def watchText (type : WatchPathType) (abspath : Bytes) : Bytes :=
  match type with
  | .watchDirecrtory => abspath ++ [47]
  | .watchFile => abspath

theorem nul_watchText (type : WatchPathType) {abspath : Bytes}
    (hnul : 0 ∉ abspath) : 0 ∉ watchText type abspath := by
  cases type <;> simp [watchText, hnul]

/-- Where the text fits with its terminator, it is stored as a C string with its
length. -/
theorem storePath_eq {type : WatchPathType} {abspath : Bytes}
    (h : abspath.length ≤ MAX_FILENAME_LEN - 1)
    (hfit : (watchText type abspath).length ≤ MAX_FILENAME_LEN - 1) :
    (storePath type abspath h).watchPath =
        strncpy (watchText type abspath) MAX_FILENAME_LEN ∧
      (storePath type abspath h).watchPathLen =
        (watchText type abspath).length ∧
      (storePath type abspath h).watchPathType = type := by
  have hpos : 0 < MAX_FILENAME_LEN := by decide
  have hlast : (strncpy abspath MAX_FILENAME_LEN).set (MAX_FILENAME_LEN - 1) 0 =
      strncpy abspath MAX_FILENAME_LEN := set_strncpy_last (by omega)
  cases type with
  | watchDirecrtory =>
    have hlen : (abspath ++ [47]).length = abspath.length + 1 := by simp
    have hfit : (abspath ++ [47]).length ≤ MAX_FILENAME_LEN - 1 := hfit
    refine ⟨?_, hlen.symm, rfl⟩
    simp only [storePath, watchText, hlast]
    -- the slash goes over the first zero behind the path
    obtain ⟨k, hk⟩ : ∃ k, MAX_FILENAME_LEN - abspath.length = k + 1 :=
      ⟨MAX_FILENAME_LEN - abspath.length - 1, by omega⟩
    have hk' : MAX_FILENAME_LEN - (abspath ++ [47]).length = k := by omega
    rw [strncpy_of_le (by omega), strncpy_of_le (by omega), hk, hk',
      List.set_append_right _ _ (Nat.le_refl _), Nat.sub_self,
      List.replicate_succ, List.set_cons_zero, List.append_assoc]
    rfl
  | watchFile => exact ⟨hlast, rfl, rfl⟩

/-- The program gets the text of the canonical path. -/
theorem scope_rodata {type : WatchPathType} {abspath : Bytes}
    (hnul : 0 ∉ abspath) (h : abspath.length ≤ MAX_FILENAME_LEN - 1)
    (hfit : (watchText type abspath).length ≤ MAX_FILENAME_LEN - 1)
    (pid : UInt32) :
    (rodata (storePath type abspath h) pid).scope = watchText type abspath := by
  obtain ⟨hpath, hlen, -⟩ := storePath_eq h hfit
  have hle : (watchText type abspath).length ≤ MAX_FILENAME_LEN :=
    Nat.le_trans hfit (by decide)
  show (strncpy (cString (storePath type abspath h).watchPath)
    MAX_FILENAME_LEN).take (storePath type abspath h).watchPathLen = _
  rw [hpath, hlen, strncpy_of_le hle,
    cString_append_zeros (nul_watchText type hnul), strncpy_of_le hle,
    List.take_left]

theorem rideStat_eq {fs : FileSystem} {ride : RideCliArgs} {mode : UInt32}
    {type : WatchPathType} {abspath : { path : Bytes // 0 ∉ path }}
    (hstat : fs.stat (cString ride.watchPath) = some mode)
    (htype : watchPathTypeOf mode = some type)
    (hreal : fs.realpath (cString ride.watchPath) = some abspath)
    (h : abspath.val.length ≤ MAX_FILENAME_LEN - 1) :
    (rideStat fs ride).1 = 0 ∧
      (rideStat fs ride).2.1 = storePath type abspath h := by
  simp only [rideStat, hstat, htype, hreal, dif_pos h, and_self]

/-- `ride_stat` fails, or it stores the canonical path of its argument with its
type. -/
theorem rideStat_cases (fs : FileSystem) (ride : RideCliArgs) :
    (rideStat fs ride).1 = 1 ∨
      ∃ mode type abspath, ∃ h : abspath.val.length ≤ MAX_FILENAME_LEN - 1,
        fs.stat (cString ride.watchPath) = some mode ∧
        watchPathTypeOf mode = some type ∧
        fs.realpath (cString ride.watchPath) = some abspath ∧
        (rideStat fs ride).1 = 0 ∧
        (rideStat fs ride).2.1 = storePath type abspath h := by
  cases hstat : fs.stat (cString ride.watchPath) with
  | none => simp [rideStat, hstat]
  | some mode =>
    cases htype : watchPathTypeOf mode with
    | none => simp [rideStat, hstat, htype]
    | some type =>
      cases hreal : fs.realpath (cString ride.watchPath) with
      | none => simp [rideStat, hstat, htype, hreal]
      | some abspath =>
        by_cases h : abspath.val.length ≤ MAX_FILENAME_LEN - 1
        · obtain ⟨hret, hargs⟩ := rideStat_eq hstat htype hreal h
          exact Or.inr ⟨mode, type, abspath, h, rfl, htype, rfl, hret, hargs⟩
        · left
          simp only [rideStat, hstat, htype, hreal, dif_neg h]

/-! ## A proper string -/

/-- The path is a C string in its buffer, with its length beside it.  The print
and the copy of `ride_run` read the string up to its terminator, whatever lies
behind the buffer. -/
structure ProperPath (args : RideCliArgs) : Prop where
  terminated : 0 ∈ args.watchPath
  strlen : (cString args.watchPath).length = args.watchPathLen
  len_le : args.watchPathLen ≤ MAX_FILENAME_LEN - 1
  printed : ∀ behind, cString (args.watchPath ++ behind) =
    cString args.watchPath
  copied : ∀ pid, cString (rodata args pid).watchPath = cString args.watchPath ∧
    (rodata args pid).watchPathLen = args.watchPathLen

/-- The argument names a directory whose canonical path fills the buffer up to
the terminator. -/
def FullDirectory (fs : FileSystem) (ride : RideCliArgs) : Prop :=
  ∃ mode abspath, fs.stat (cString ride.watchPath) = some mode ∧
    watchPathTypeOf mode = some .watchDirecrtory ∧
    fs.realpath (cString ride.watchPath) = some abspath ∧
    abspath.val.length = MAX_FILENAME_LEN - 1

theorem cString_strncpy {src : Bytes} (hnul : 0 ∉ src) {n : Nat}
    (h : src.length ≤ n) : cString (strncpy src n) = src := by
  rw [strncpy_of_le h, cString_append_zeros hnul]

/-- Behind a terminator nothing is read. -/
theorem cString_append_of_mem {buf : Bytes} (h : 0 ∈ buf) (behind : Bytes) :
    cString (buf ++ behind) = cString buf := by
  induction buf with
  | nil => exact absurd h List.not_mem_nil
  | cons b buf ih =>
    by_cases hb : b = 0
    · simp [cString, hb]
    · have hmem : 0 ∈ buf := (List.mem_cons.mp h).resolve_left (Ne.symm hb)
      simpa [cString, hb] using ih hmem

/-- A path whose text leaves room for the terminator is stored properly. -/
theorem properPath_storePath {type : WatchPathType} {abspath : Bytes}
    (hnul : 0 ∉ abspath) (h : abspath.length ≤ MAX_FILENAME_LEN - 1)
    (hfit : (watchText type abspath).length ≤ MAX_FILENAME_LEN - 1) :
    ProperPath (storePath type abspath h) := by
  obtain ⟨hpath, hlen, -⟩ := storePath_eq h hfit
  have hlt : (watchText type abspath).length < MAX_FILENAME_LEN :=
    Nat.lt_of_le_of_lt hfit (by decide)
  have hle := Nat.le_of_lt hlt
  have htext := cString_strncpy (nul_watchText type hnul) hle
  have hzero : 0 ∈ (storePath type abspath h).watchPath := by
    rw [hpath, strncpy_of_le hle, List.mem_append, List.mem_replicate]
    exact Or.inr ⟨by omega, rfl⟩
  refine ⟨hzero, ?_, ?_, cString_append_of_mem hzero, fun pid => ⟨?_, rfl⟩⟩
  · rw [hpath, htext, hlen]
  · rw [hlen]
    exact hfit
  · show cString (strncpy (cString (storePath type abspath h).watchPath) _) = _
    rw [hpath, htext, htext]

/-- Only the slash of a directory can leave no room. -/
theorem full_of_not_fit {type : WatchPathType} {abspath : Bytes}
    (h : abspath.length ≤ MAX_FILENAME_LEN - 1)
    (hfit : ¬ (watchText type abspath).length ≤ MAX_FILENAME_LEN - 1) :
    type = .watchDirecrtory ∧ abspath.length = MAX_FILENAME_LEN - 1 := by
  cases type with
  | watchFile => exact absurd h hfit
  | watchDirecrtory =>
    rw [watchText, List.length_append, List.length_singleton] at hfit
    exact ⟨rfl, by omega⟩

/-- The slash of a full directory goes over the terminator. -/
theorem storePath_full {abspath : Bytes} (hnul : 0 ∉ abspath)
    (h : abspath.length ≤ MAX_FILENAME_LEN - 1)
    (hfull : abspath.length = MAX_FILENAME_LEN - 1) :
    (storePath .watchDirecrtory abspath h).watchPath = abspath ++ [47] ∧
      0 ∉ abspath ++ [47] := by
  refine ⟨?_, by simp [hnul]⟩
  have hlt : abspath.length < MAX_FILENAME_LEN := by
    rw [hfull]
    decide
  have hone : MAX_FILENAME_LEN - abspath.length = 1 := by
    rw [hfull]
    decide
  simp only [storePath]
  rw [set_strncpy_last hlt, strncpy_of_le (Nat.le_of_lt hlt), hone,
    List.set_append_right _ _ (Nat.le_refl _), Nat.sub_self]
  rfl

/-- For every argument and every file system, `ride_stat` fails or leaves a proper
string, unless the argument names a directory whose canonical path has 127
bytes. -/
theorem stored_path_proper_iff (fs : FileSystem) (ride : RideCliArgs) :
    ((rideStat fs ride).1 ≠ 0 ∨ ProperPath (rideStat fs ride).2.1) ↔
      ¬ FullDirectory fs ride := by
  rcases rideStat_cases fs ride with
    hfail | ⟨mode, type, abspath, h, hstat, htype, hreal, hret, hargs⟩
  · refine iff_of_true (Or.inl (by rw [hfail]; decide)) ?_
    rintro ⟨mode, abspath, hstat, htype, hreal, hfull⟩
    have hret := (rideStat_eq hstat htype hreal (Nat.le_of_eq hfull)).1
    exact absurd (hfail.symm.trans hret) (by decide)
  · by_cases hfit : (watchText type abspath).length ≤ MAX_FILENAME_LEN - 1
    · refine iff_of_true (Or.inr ?_) ?_
      · rw [hargs]
        exact properPath_storePath abspath.property h hfit
      · rintro ⟨mode', abspath', hstat', htype', hreal', hfull⟩
        obtain rfl := Option.some.inj (hstat.symm.trans hstat')
        obtain rfl := Option.some.inj (htype.symm.trans htype')
        obtain rfl := Option.some.inj (hreal.symm.trans hreal')
        rw [watchText, List.length_append, hfull] at hfit
        exact absurd hfit (by decide)
    · obtain ⟨rfl, hfull⟩ := full_of_not_fit h hfit
      refine iff_of_false ?_
        (not_not_intro ⟨mode, abspath, hstat, htype, hreal, hfull⟩)
      obtain ⟨hpath, hno⟩ := storePath_full abspath.property h hfull
      rintro (hne | hproper)
      · exact hne hret
      · have hzero := hproper.terminated
        rw [hargs, hpath] at hzero
        exact hno hzero

/-- A file system in which every path names the same directory. -/
def oneDirectory (path : { path : Bytes // 0 ∉ path }) : FileSystem where
  stat := fun _ => some 0x41ed
  realpath := fun _ => some path

/-- The arguments before `ride_stat`, with the text `.` in the buffer. -/
def dotArgs : RideCliArgs where
  watchPath := strncpy [46] MAX_FILENAME_LEN
  watchPathLen := 0
  watchPathType := .watchFile
  watchPath_length := length_strncpy ..
  watchPathLen_le := Nat.zero_le _

/-- The directory with a canonical path of 127 bytes: `ride_stat` warns and
returns `0`, there is no terminator in the buffer, and what lies behind the buffer
is printed with the path. -/
theorem directory_without_terminator :
    let r := rideStat (oneDirectory ⟨47 :: List.replicate 126 97, by decide⟩)
      dotArgs
    r.1 = 0 ∧ .directoryTooLarge ∈ r.2.2 ∧ r.2.1.watchPathLen = 128 ∧
      0 ∉ r.2.1.watchPath ∧
      cString (r.2.1.watchPath ++ [128, 0]) ≠ cString r.2.1.watchPath ∧
      ¬ ProperPath r.2.1 := by
  intro r
  have hzero : 0 ∉ r.2.1.watchPath := by decide +kernel
  refine ⟨by decide +kernel, by decide +kernel, by decide +kernel, hzero,
    by decide +kernel, fun h => hzero h.terminated⟩

end Ride
