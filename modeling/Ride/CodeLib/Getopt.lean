import Ride.CodeLib.Machine

/-!
# The options of a command line

`getopt` of the GNU C library, for an option string that begins with a colon.  A
program calls it until it returns `-1`, and finds the operands behind the options
then: the library moves them there, in their order.

The scanner takes the arguments one by one, without the name of the program.  An
argument that begins with a dash is a cluster of option letters; the last one of
them may wait for the next argument.  The argument `--` ends the options, and so
does the first operand where `POSIXLY_CORRECT` is set.

`scan` is the whole scan: what `getopt` returns call by call, and the operands.
`mem_scan_operands` says that an operand is one of the arguments, and
`fits_of_mem_scan` that an option is one of the option string, with an argument
where it needs one.
-/

namespace CodeLib.Getopt

open CodeLib.Machine

/-- What the option string says of a letter. -/
inductive HasArg where
  | no
  | required
  | optional
deriving DecidableEq

/-- What a call of `getopt` returns: the letter of an option, with `optarg`; or
`':'` where the argument of an option is missing, or `'?'` for a letter that is no
option, with `optopt`. -/
inductive Result where
  | option (letter : UInt8) (optarg : Option (List UInt8))
  | missing (optopt : UInt8)
  | invalid (optopt : UInt8)
deriving DecidableEq

/-- The letter in the option string.  One colon behind it stands for an argument,
and two for one that may be left out. -/
def hasArg? (optstring : List UInt8) (letter : UInt8) : Option HasArg :=
  if letter = 58 ∨ letter = 59 then none
  else match optstring.dropWhile (· ≠ letter) with
    | [] => none
    | _ :: 58 :: 58 :: _ => some .optional
    | _ :: 58 :: _ => some .required
    | _ => some .no

/-- A cluster of letters: what is returned for it, and the letter that takes the
next argument. -/
def cluster (optstring : List UInt8) :
    List UInt8 → List Result × Option UInt8
  | [] => ([], none)
  | letter :: rest =>
    match hasArg? optstring letter with
    | none =>
      let (found, waits) := cluster optstring rest
      (.invalid letter :: found, waits)
    | some .no =>
      let (found, waits) := cluster optstring rest
      (.option letter none :: found, waits)
    | some .optional =>
      ([.option letter (if rest = [] then none else some rest)], none)
    | some .required =>
      if rest = [] then ([], some letter)
      else ([.option letter (some rest)], none)

/-- What the next argument is for. -/
inductive Mode where
  | options
  | argument (letter : UInt8)
  | operands
deriving DecidableEq

structure Scanner where
  results : List Result
  operands : List (List UInt8)
  mode : Mode

namespace Scanner

/-- The scanner takes one argument. -/
def step (optstring : List UInt8) (posix : Bool) (s : Scanner)
    (arg : List UInt8) : Scanner :=
  match s.mode with
  | .operands => { s with operands := s.operands ++ [arg] }
  | .argument letter =>
    { s with
      results := s.results ++ [.option letter (some arg)]
      mode := .options }
  | .options =>
    if arg = [45, 45] then { s with mode := .operands }
    else if arg.head? = some 45 ∧ arg ≠ [45] then
      let (found, waits) := cluster optstring arg.tail
      { s with
        results := s.results ++ found
        mode := waits.elim .options .argument }
    else
      { s with
        operands := s.operands ++ [arg]
        mode := if posix then .operands else .options }

/-- At the end of the arguments, an option may still wait for its own. -/
def finish (s : Scanner) : List Result :=
  match s.mode with
  | .argument letter => s.results ++ [.missing letter]
  | _ => s.results

end Scanner

/-- The scan of a command line: the results and the operands. -/
def scan (optstring : List UInt8) (posix : Bool) (args : List (List UInt8)) :
    List Result × List (List UInt8) :=
  let s := run (Scanner.step optstring posix) ⟨[], [], .options⟩ args
  (s.finish, s.operands)

example : scan [58, 102, 58, 58, 116, 58, 118] false
    [[45, 118, 116], [45, 45], [97], [45, 102], [45, 45], [45, 120]] =
    ([.option 118 none, .option 116 (some [45, 45]), .option 102 none],
      [[97], [45, 120]]) := by decide

variable {optstring : List UInt8} {posix : Bool}

/-! ## The operands -/

theorem Scanner.step_operands (s : Scanner) (arg : List UInt8) :
    (s.step optstring posix arg).operands ⊆ s.operands ++ [arg] := by
  unfold Scanner.step
  cases s.mode with
  | operands => exact List.Subset.refl _
  | argument letter => exact List.subset_append_left ..
  | options =>
    simp only
    split_ifs
    · exact List.subset_append_left ..
    · exact List.subset_append_left ..
    · exact List.Subset.refl _
    · exact List.Subset.refl _

theorem Scanner.run_operands (s : Scanner) (args : List (List UInt8)) :
    (run (step optstring posix) s args).operands ⊆ s.operands ++ args := by
  induction args generalizing s with
  | nil => simp
  | cons arg rest ih =>
    refine List.Subset.trans (ih (s.step optstring posix arg)) ?_
    rw [List.append_cons]
    exact List.append_subset.mpr
      ⟨List.Subset.trans (s.step_operands arg) (List.subset_append_left ..),
        List.subset_append_right ..⟩

/-- An operand is one of the arguments. -/
theorem mem_scan_operands {args : List (List UInt8)} {arg : List UInt8}
    (h : arg ∈ (scan optstring posix args).2) : arg ∈ args :=
  Scanner.run_operands ⟨[], [], .options⟩ args h

/-! ## The options -/

/-- An option is one of the option string, and has an argument where it needs
one. -/
def Result.Fits (optstring : List UInt8) : Result → Prop
  | .option letter optarg => ∃ has, hasArg? optstring letter = some has ∧
      (has = .required → optarg ≠ none)
  | _ => True

/-- An option that needs an argument does not come without. -/
theorem not_fits_none {letter : UInt8}
    (h : hasArg? optstring letter = some .required) :
    ¬ (Result.option letter none).Fits optstring := by
  rintro ⟨has, hhas, harg⟩
  exact harg (Option.some.inj (hhas.symm.trans h)) rfl

theorem cluster_fits (optstring letters : List UInt8) :
    (∀ r ∈ (cluster optstring letters).1, r.Fits optstring) ∧
      ∀ letter ∈ (cluster optstring letters).2,
        hasArg? optstring letter = some .required := by
  induction letters with
  | nil => simp [cluster]
  | cons letter rest ih =>
    unfold cluster
    cases hhas : hasArg? optstring letter with
    | none => exact ⟨List.forall_mem_cons.mpr ⟨trivial, ih.1⟩, ih.2⟩
    | some has =>
      cases has with
      | no =>
        refine ⟨List.forall_mem_cons.mpr ⟨⟨.no, hhas, ?_⟩, ih.1⟩, ih.2⟩
        exact fun h => absurd h (by decide)
      | optional =>
        refine ⟨?_, by simp⟩
        rw [List.forall_mem_singleton]
        exact ⟨.optional, hhas, fun h => absurd h (by decide)⟩
      | required =>
        by_cases hrest : rest = []
        · simp [hrest, hhas]
        · simp only [if_neg hrest, List.forall_mem_singleton]
          exact ⟨⟨.required, hhas, fun _ => by simp⟩, by simp⟩

/-- The results fit, and a letter that waits needs an argument. -/
structure Scanner.Fits (optstring : List UInt8) (s : Scanner) : Prop where
  results : ∀ r ∈ s.results, r.Fits optstring
  waits : ∀ letter, s.mode = .argument letter →
    hasArg? optstring letter = some .required

theorem Scanner.Fits.step {s : Scanner} (h : s.Fits optstring)
    (arg : List UInt8) : (s.step optstring posix arg).Fits optstring := by
  unfold Scanner.step
  cases hmode : s.mode with
  | operands => exact ⟨h.results, fun _ hl => absurd hl (by simp)⟩
  | argument letter =>
    refine ⟨?_, fun _ hl => absurd hl (by simp)⟩
    rw [List.forall_mem_append, List.forall_mem_singleton]
    exact ⟨h.results, .required, h.waits letter hmode, fun _ => by simp⟩
  | options =>
    obtain ⟨hfound, hwaits⟩ := cluster_fits optstring arg.tail
    simp only
    split_ifs
    · exact ⟨h.results, fun _ hl => absurd hl (by simp)⟩
    · refine ⟨List.forall_mem_append.mpr ⟨h.results, hfound⟩, ?_⟩
      intro letter hl
      cases hc : (cluster optstring arg.tail).2 with
      | none =>
        simp only [hc] at hl
        exact absurd hl (by simp)
      | some c =>
        simp only [hc, Option.elim, Mode.argument.injEq] at hl
        subst hl
        exact hwaits c hc
    · exact ⟨h.results, fun _ hl => absurd hl (by simp)⟩
    · exact ⟨h.results, fun _ hl => absurd hl (by simp)⟩

/-- Every option that `getopt` returns is one of the option string, and has an
argument where it needs one. -/
theorem fits_of_mem_scan {args : List (List UInt8)} {r : Result}
    (h : r ∈ (scan optstring posix args).1) : r.Fits optstring := by
  have hfits : (run (Scanner.step optstring posix) ⟨[], [], .options⟩
      args).Fits optstring :=
    run_invariant (fun _ arg hs => hs.step arg)
      ⟨by simp, fun _ hl => absurd hl (by simp)⟩ args
  simp only [scan, Scanner.finish] at h
  split at h
  · rw [List.mem_append, List.mem_singleton] at h
    rcases h with h | rfl
    · exact hfits.results r h
    · exact trivial
  · exact hfits.results r h

end CodeLib.Getopt
