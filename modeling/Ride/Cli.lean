import Ride.CodeLib.Getopt
import Ride.Watch.Stat

/-!
# The command line

`parse_env` reads the options of the command line, checks the two numbers among
them, and copies the first operand to the buffer for the watched path.  What no
option sets has the value that `ride_run` starts with.

`parseEnv` is the function.  `parseEnv_ok` says what an accepted command line is,
and `CliArgs.Checked` what is checked.  The number of threads is checked only
where the option is there: `defaultThreads_inRange_iff` says for which machines
the default passes.
-/

namespace Ride

open CodeLib.Getopt CodeLib.Machine

/-! ## The source functions -/

/-- `MAX_THREADS`. -/
def MAX_THREADS : UInt64 := 20

/-- `MAX_CONCURRENCY`, which is `MAX_CONCURRENT_TASKS`. -/
def MAX_CONCURRENCY : UInt64 := 256

/-- `DEFAULT_IO_CONCURRENCY`. -/
def DEFAULT_IO_CONCURRENCY : UInt64 := 32

/-- The size of `fingerprint_alg`. -/
def FINGERPRINT_ALG_SIZE : Nat := 10

/-- `struct ride_cli_args`. -/
structure CliArgs extends RideCliArgs where
  fingerprintAlg : Bytes
  threads : UInt64
  ioConcurrency : UInt64
  verify : Bool
  fingerprintAlg_length : fingerprintAlg.length = FINGERPRINT_ALG_SIZE

/-- What the process finds: the values of `strtoll(text, NULL, 0)`, whether
`POSIXLY_CORRECT` is set, and `sysconf(_SC_NPROCESSORS_ONLN)`. -/
structure Environment where
  strtoll : Bytes → Int64
  posixlyCorrect : Bool
  nprocessorsOnln : Int64

/-- Why `parse_env` fails.  All but the last are messages, and the last is a null
pointer for `strtoll`. -/
inductive EnvError where
  | invalidThreads
  | invalidConcurrency
  | missingArgument (optopt : UInt8)
  | invalidOption (optopt : UInt8)
  | missingWatchPath
  | fault
deriving DecidableEq

/-- `DEFAULT_THREADS`. -/
def defaultThreads (nprocessorsOnln : Int64) : UInt64 :=
  (if nprocessorsOnln < 1 then 1 else nprocessorsOnln / 2).toUInt64

/-- The name of the algorithm. -/
def blake3 : Bytes := ['B', 'L', 'A', 'K', 'E', '3'].map Char.toUInt8

/-- `strncpy` to a buffer, with a terminator in the last byte. -/
def copyString (src : Bytes) (n : Nat) : Bytes :=
  (strncpy src n).set (n - 1) 0

theorem length_copyString (src : Bytes) (n : Nat) :
    (copyString src n).length = n := by
  rw [copyString, List.length_set, length_strncpy]

/-- The arguments that `ride_run` starts with. -/
def CliArgs.start (env : Environment) : CliArgs where
  watchPath := strncpy [] MAX_FILENAME_LEN
  watchPathLen := 0
  watchPathType := .watchFile
  fingerprintAlg := strncpy blake3 FINGERPRINT_ALG_SIZE
  threads := defaultThreads env.nprocessorsOnln
  ioConcurrency := DEFAULT_IO_CONCURRENCY
  verify := false
  watchPath_length := length_strncpy ..
  watchPathLen_le := Nat.zero_le _
  fingerprintAlg_length := length_strncpy ..

/-- The argument of the option `f`, which may be left out: then the name is
copied with `strcpy`, and the bytes behind it stay. -/
def CliArgs.setFingerprint (out : CliArgs) (optarg : Option Bytes) : CliArgs :=
  match optarg with
  | some alg =>
    { out with
      fingerprintAlg := copyString alg FINGERPRINT_ALG_SIZE
      fingerprintAlg_length := length_copyString .. }
  | none =>
    { out with
      fingerprintAlg := blake3 ++ 0 :: out.fingerprintAlg.drop 7
      fingerprintAlg_length := by
        rw [List.length_append, List.length_cons, List.length_drop,
          out.fingerprintAlg_length]
        rfl }

/-- The number in the argument of an option.  It is stored as a `size_t` before it
is checked. -/
def parseCount (env : Environment) (max : UInt64) (refusal : EnvError) :
    Option Bytes → Except EnvError UInt64
  | none => .error .fault
  | some text =>
    let count := (env.strtoll text).toUInt64
    if count = 0 ∨ max < count then .error refusal else .ok count

/-- The body of the loop of `parse_env`, for one result of `getopt`. -/
def parseOption (env : Environment) (out : CliArgs) :
    Result → Except EnvError CliArgs
  | .option letter optarg =>
    if letter = 'v'.toUInt8 then .ok { out with verify := true }
    else if letter = 'f'.toUInt8 then .ok (out.setFingerprint optarg)
    else if letter = 't'.toUInt8 then do
      let threads ← parseCount env MAX_THREADS .invalidThreads optarg
      .ok { out with threads := threads }
    else if letter = 'c'.toUInt8 then do
      let ioConcurrency ←
        parseCount env MAX_CONCURRENCY .invalidConcurrency optarg
      .ok { out with ioConcurrency := ioConcurrency }
    else .ok out
  | .missing optopt => .error (.missingArgument optopt)
  | .invalid optopt => .error (.invalidOption optopt)

/-- `optstring`. -/
def optstring : Bytes :=
  [':', 'f', ':', ':', 't', ':', 'c', ':', 'v'].map Char.toUInt8

/-- The results of `getopt` for the arguments behind the name of the program, and
the operands. -/
def getopt (env : Environment) (args : List { arg : Bytes // 0 ∉ arg }) :
    List Result × List Bytes :=
  scan optstring env.posixlyCorrect (args.map Subtype.val)

/-- `argv[optind]` is copied to the buffer for the path. -/
def CliArgs.setWatchPath (out : CliArgs) (path : Bytes) : CliArgs :=
  { out with
    watchPath := copyString path MAX_FILENAME_LEN
    watchPath_length := length_copyString .. }

/-- `parse_env`. -/
def parseEnv (env : Environment) (out : CliArgs)
    (args : List { arg : Bytes // 0 ∉ arg }) : Except EnvError CliArgs := do
  let out ← (getopt env args).1.foldlM (parseOption env) out
  match (getopt env args).2 with
  | [] => .error .missingWatchPath
  | path :: _ => .ok (out.setWatchPath path)

/-! ## An accepted command line -/

variable {env : Environment} {args : List { arg : Bytes // 0 ∉ arg }}

theorem parseEnv_ok {out out' : CliArgs} (h : parseEnv env out args = .ok out') :
    ∃ opts path rest,
      (getopt env args).1.foldlM (parseOption env) out = .ok opts ∧
      (getopt env args).2 = path :: rest ∧ out' = opts.setWatchPath path := by
  obtain ⟨opts, hopts, hout⟩ := bind_eq_ok h
  cases hpath : (getopt env args).2 with
  | nil =>
    rw [hpath] at hout
    exact absurd hout (by simp)
  | cons path rest =>
    rw [hpath] at hout
    exact ⟨opts, path, rest, hopts, rfl, (Except.ok.inj hout).symm⟩

/-- The operand has no zero byte. -/
theorem nul_operand {path : Bytes} (h : path ∈ (getopt env args).2) :
    0 ∉ path := by
  obtain ⟨arg, -, rfl⟩ := List.mem_map.mp (mem_scan_operands h)
  exact arg.property

theorem parseCount_ok {max count : UInt64} {refusal : EnvError}
    {optarg : Option Bytes} (h : parseCount env max refusal optarg = .ok count) :
    count ≠ 0 ∧ count ≤ max := by
  cases optarg with
  | none => exact absurd h (by simp [parseCount])
  | some text =>
    simp only [parseCount] at h
    split_ifs at h with hbad
    obtain rfl := Except.ok.inj h
    rw [not_or] at hbad
    exact ⟨hbad.1, UInt64.not_lt.mp hbad.2⟩

/-- What an option that is accepted does. -/
inductive OptionTo (out : CliArgs) (letter : UInt8) : CliArgs → Prop where
  | same (hletter : letter ≠ 't'.toUInt8) : OptionTo out letter out
  | verify (hletter : letter ≠ 't'.toUInt8) :
      OptionTo out letter { out with verify := true }
  | fingerprint (hletter : letter ≠ 't'.toUInt8) (optarg : Option Bytes) :
      OptionTo out letter (out.setFingerprint optarg)
  | threads (hletter : letter = 't'.toUInt8) {threads : UInt64}
      (hne : threads ≠ 0) (hle : threads ≤ MAX_THREADS) :
      OptionTo out letter { out with threads := threads }
  | concurrency (hletter : letter ≠ 't'.toUInt8) {ioConcurrency : UInt64}
      (hne : ioConcurrency ≠ 0) (hle : ioConcurrency ≤ MAX_CONCURRENCY) :
      OptionTo out letter { out with ioConcurrency := ioConcurrency }

theorem parseOption_ok {out out' : CliArgs} {r : Result}
    (h : parseOption env out r = .ok out') :
    ∃ letter optarg, r = .option letter optarg ∧ OptionTo out letter out' := by
  cases r with
  | missing optopt => exact absurd h (by simp [parseOption])
  | invalid optopt => exact absurd h (by simp [parseOption])
  | option letter optarg =>
    refine ⟨letter, optarg, rfl, ?_⟩
    simp only [parseOption] at h
    split_ifs at h with hv hf ht hc
    · obtain rfl := Except.ok.inj h
      exact .verify (by rw [hv]; decide)
    · obtain rfl := Except.ok.inj h
      exact .fingerprint (by rw [hf]; decide) optarg
    · obtain ⟨threads, hcount, hout⟩ := bind_eq_ok h
      obtain rfl := Except.ok.inj hout
      exact .threads ht (parseCount_ok hcount).1 (parseCount_ok hcount).2
    · obtain ⟨ioConcurrency, hcount, hout⟩ := bind_eq_ok h
      obtain rfl := Except.ok.inj hout
      exact .concurrency ht (parseCount_ok hcount).1 (parseCount_ok hcount).2
    · obtain rfl := Except.ok.inj h
      exact .same ht

/-! ## The numbers -/

/-- One of the results is the option `t`. -/
def GivesThreads (results : List Result) : Prop :=
  ∃ optarg, .option 't'.toUInt8 optarg ∈ results

/-- The number of threads is the one of an option `t`, which was checked, or the
default. -/
theorem threads_of_foldlM {results : List Result} {out out' : CliArgs}
    (h : results.foldlM (parseOption env) out = .ok out') :
    (GivesThreads results ∧ out'.threads ≠ 0 ∧ out'.threads ≤ MAX_THREADS) ∨
      (¬ GivesThreads results ∧ out'.threads = out.threads) := by
  induction results generalizing out with
  | nil =>
    obtain rfl := Except.ok.inj h
    exact Or.inr ⟨by simp [GivesThreads], rfl⟩
  | cons r rest ih =>
    obtain ⟨mid, hr, hrest⟩ := foldlM_cons_ok h
    obtain ⟨letter, optarg, rfl, hto⟩ := parseOption_ok hr
    rcases ih hrest with ⟨⟨optarg', hmem⟩, hcount⟩ | ⟨hno, hsame⟩
    · exact Or.inl ⟨⟨optarg', List.mem_cons_of_mem _ hmem⟩, hcount⟩
    · -- the options behind leave the number, so this one decides
      by_cases hletter : letter = 't'.toUInt8
      · left
        subst hletter
        refine ⟨⟨optarg, List.mem_cons_self⟩, ?_⟩
        rw [hsame]
        cases hto with
        | threads _ hne hle => exact ⟨hne, hle⟩
        | _ hne => exact absurd rfl hne
      · right
        refine ⟨?_, ?_⟩
        · rintro ⟨optarg', hmem⟩
          rcases List.mem_cons.mp hmem with heq | hmem
          · exact hletter (Result.option.inj heq).1.symm
          · exact hno ⟨optarg', hmem⟩
        · rw [hsame]
          cases hto with
          | threads ht => exact absurd ht hletter
          | fingerprint _ optarg => cases optarg <;> rfl
          | _ => rfl

theorem one_le_toInt {n : Int64} (h : 1 ≤ n) : 1 ≤ n.toInt := by
  have hone : (1 : Int64).toInt = 1 := rfl
  rw [← hone]
  exact Int64.le_iff_toInt_le.mp h

theorem toNat_defaultThreads {n : Int64} (h : 1 ≤ n) :
    (defaultThreads n).toNat = n.toInt.toNat / 2 := by
  have hn := one_le_toInt h
  have hdiv : (n / 2).toInt = n.toInt / 2 := by
    rw [Int64.toInt_div_of_ne_right _ _ (by decide)]
    exact Int.tdiv_eq_ediv_of_nonneg (by omega)
  have hnonneg : 0 ≤ n / 2 := by
    rw [Int64.le_iff_toInt_le, hdiv, Int64.toInt_zero]
    omega
  rw [defaultThreads, if_neg (Int64.not_lt.mpr h),
    Int64.toNat_toUInt64_of_le hnonneg, Int64.toNatClampNeg, hdiv]
  omega

/-- The default number of threads passes the check of the option `t` only on a
machine with 2 to 41 processors. -/
theorem defaultThreads_inRange_iff {n : Int64} (h : 1 ≤ n) :
    (defaultThreads n ≠ 0 ∧ defaultThreads n ≤ MAX_THREADS) ↔
      2 ≤ n.toInt ∧ n.toInt ≤ 41 := by
  have hthreads := toNat_defaultThreads h
  have hn := one_le_toInt h
  rw [Ne, ← UInt64.toNat_inj, UInt64.le_iff_toNat_le, hthreads]
  show ¬ _ = 0 ∧ _ ≤ 20 ↔ _
  omega

/-- What holds of the other options, given or not: the number of slots is in its
range, and the name of the algorithm is a C string. -/
structure CliArgs.Checked (out : CliArgs) : Prop where
  ioConcurrency_ne : out.ioConcurrency ≠ 0
  ioConcurrency_le : out.ioConcurrency ≤ MAX_CONCURRENCY
  fingerprintAlg : 0 ∈ out.fingerprintAlg

theorem checked_start : (CliArgs.start env).Checked where
  ioConcurrency_ne := by simp [CliArgs.start, DEFAULT_IO_CONCURRENCY]
  ioConcurrency_le := by
    show DEFAULT_IO_CONCURRENCY ≤ MAX_CONCURRENCY
    decide
  fingerprintAlg := by
    show 0 ∈ strncpy blake3 FINGERPRINT_ALG_SIZE
    decide

theorem zero_mem_copyString (src : Bytes) {n : Nat} (h : 0 < n) :
    0 ∈ copyString src n := by
  have hlast : n - 1 < (copyString src n).length := by
    rw [length_copyString]
    omega
  have hzero : (copyString src n)[n - 1] = 0 := by simp [copyString]
  exact List.mem_of_getElem hzero

theorem OptionTo.checked {out out' : CliArgs} {letter : UInt8}
    (hto : OptionTo out letter out') (h : out.Checked) : out'.Checked := by
  cases hto with
  | fingerprint _ optarg =>
    cases optarg with
    | none => exact ⟨h.ioConcurrency_ne, h.ioConcurrency_le, by
        simp [CliArgs.setFingerprint]⟩
    | some alg => exact ⟨h.ioConcurrency_ne, h.ioConcurrency_le,
        zero_mem_copyString alg (by decide)⟩
  | concurrency _ hne hle => exact ⟨hne, hle, h.fingerprintAlg⟩
  | _ => exact ⟨h.ioConcurrency_ne, h.ioConcurrency_le, h.fingerprintAlg⟩

theorem checked_of_foldlM {results : List Result} {out out' : CliArgs}
    (h : out.Checked) (hok : results.foldlM (parseOption env) out = .ok out') :
    out'.Checked := by
  induction results generalizing out with
  | nil =>
    obtain rfl := Except.ok.inj hok
    exact h
  | cons r rest ih =>
    obtain ⟨mid, hr, hrest⟩ := foldlM_cons_ok hok
    obtain ⟨letter, optarg, -, hto⟩ := parseOption_ok hr
    exact ih (hto.checked h) hrest

/-- Every command line that is accepted has a number of slots from 1 to 256. -/
theorem parseEnv_checked {out : CliArgs}
    (h : parseEnv env (.start env) args = .ok out) : out.Checked := by
  obtain ⟨opts, path, rest, hopts, -, rfl⟩ := parseEnv_ok h
  obtain ⟨hne, hle, halg⟩ := checked_of_foldlM checked_start hopts
  exact ⟨hne, hle, halg⟩

theorem parseEnv_threads {out : CliArgs}
    (h : parseEnv env (.start env) args = .ok out) :
    (GivesThreads (getopt env args).1 ∧ out.threads ≠ 0 ∧
        out.threads ≤ MAX_THREADS) ∨
      (¬ GivesThreads (getopt env args).1 ∧
        out.threads = defaultThreads env.nprocessorsOnln) := by
  obtain ⟨opts, path, rest, hopts, -, rfl⟩ := parseEnv_ok h
  exact threads_of_foldlM hopts

/-! ## No null pointer -/

theorem parseCount_fault {max : UInt64} {refusal : EnvError}
    {optarg : Option Bytes} (hrefusal : refusal ≠ .fault)
    (h : parseCount env max refusal optarg = .error .fault) : optarg = none := by
  cases optarg with
  | none => rfl
  | some text =>
    simp only [parseCount] at h
    split_ifs at h
    exact absurd (Except.error.inj h) hrefusal

/-- Only an option with a number can lead to a null pointer. -/
theorem parseOption_fault {out : CliArgs} {r : Result}
    (h : parseOption env out r = .error .fault) :
    r = .option 't'.toUInt8 none ∨ r = .option 'c'.toUInt8 none := by
  cases r with
  | missing optopt => exact absurd h (by simp [parseOption])
  | invalid optopt => exact absurd h (by simp [parseOption])
  | option letter optarg =>
    simp only [parseOption] at h
    split_ifs at h with hv hf ht hc
    · rcases bind_eq_error h with hcount | ⟨threads, -, hout⟩
      · rw [ht, parseCount_fault (by decide) hcount]
        exact Or.inl rfl
      · exact absurd hout (by simp)
    · rcases bind_eq_error h with hcount | ⟨ioConcurrency, -, hout⟩
      · rw [hc, parseCount_fault (by decide) hcount]
        exact Or.inr rfl
      · exact absurd hout (by simp)

/-- `parse_env` never reads a number from a null pointer. -/
theorem parseEnv_ne_fault (env : Environment) (out : CliArgs)
    (args : List { arg : Bytes // 0 ∉ arg }) :
    parseEnv env out args ≠ .error .fault := by
  intro h
  rcases bind_eq_error h with hopts | ⟨opts, -, hout⟩
  · obtain ⟨opts, r, hr, hfault⟩ := exists_of_foldlM_error hopts
    have hfits := fits_of_mem_scan hr
    rcases parseOption_fault hfault with rfl | rfl
    · exact not_fits_none (by decide) hfits
    · exact not_fits_none (by decide) hfits
  · cases hpath : (getopt env args).2 with
    | nil =>
      rw [hpath] at hout
      exact absurd (Except.error.inj hout) (by decide)
    | cons path rest =>
      rw [hpath] at hout
      exact absurd hout (by simp)

end Ride
