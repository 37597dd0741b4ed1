import Mathlib.Data.List.Basic
import Mathlib.Data.List.Induction
import Mathlib.Tactic.Common

/-!
# Machines that run on a schedule

A machine is a total step function on a state type.  A schedule is a list of
labels, and a label says which party moves and what its environment answers.
A label that is not possible in a state leaves the state as it is, so that
"every run" is "every list of labels".

* `run` is the state after a schedule, and `run_invariant` is the induction
  that every safety proof uses.
* `Meets` says that every step of a run meets a condition on the state before
  the step and the label.  `Meets.imp` compares two conditions, and
  `run_invariant_of_meets` is the induction for an invariant that only such
  steps keep.  `run_iff_meets`, `run_and_meets_iff` and `states_iff_meets`
  say when a run is good exactly because its steps meet the condition.
* `bind_eq_ok`, `foldlM_cons_ok` and the lemmas beside them take apart a run whose
  steps can fail.
* `traced` and `trace` write down what the steps emit, and `run_history` is the
  induction for what a run has done so far.  `outputs` collects what the steps
  answer, and `Simulates` compares the answers of two machines over one schedule.
* `run_part` and `meets_part` look at a part of a machine.  Where every step amounts
  to some steps of the part, a run is a run of the part, on the trace of these
  steps.
-/

namespace CodeLib.Machine

variable {σ τ ι ο : Type*}

/-! ## Runs -/

/-- The state after a schedule. -/
def run (step : σ → ι → σ) (s : σ) (sched : List ι) : σ :=
  sched.foldl step s

@[simp] theorem run_nil (step : σ → ι → σ) (s : σ) : run step s [] = s := rfl

@[simp] theorem run_cons (step : σ → ι → σ) (s : σ) (a : ι) (rest : List ι) :
    run step s (a :: rest) = run step (step s a) rest := rfl

/-- A run on two schedules, one behind the other. -/
theorem run_append (step : σ → ι → σ) (s : σ) (sched rest : List ι) :
    run step s (sched ++ rest) = run step (run step s sched) rest :=
  List.foldl_append

/-- What holds at the start and is kept by every step holds in every state of
every run. -/
theorem run_invariant {step : σ → ι → σ} {P : σ → Prop}
    (hstep : ∀ s a, P s → P (step s a)) {s : σ} (h : P s) (sched : List ι) :
    P (run step s sched) := by
  induction sched generalizing s with
  | nil => exact h
  | cons a rest ih => exact ih (hstep s a h)

/-! ## Runs whose steps meet a condition -/

/-- Every step of the run from `s` meets `C`, which reads the state before the
step and the label of the step. -/
def Meets (step : σ → ι → σ) (C : σ → ι → Prop) : σ → List ι → Prop
  | _, [] => True
  | s, a :: rest => C s a ∧ Meets step C (step s a) rest

instance Meets.decidable (step : σ → ι → σ) (C : σ → ι → Prop)
    [∀ s a, Decidable (C s a)] :
    ∀ s sched, Decidable (Meets step C s sched)
  | _, [] => isTrue trivial
  | s, a :: rest =>
    have := Meets.decidable step C (step s a) rest
    inferInstanceAs (Decidable (C s a ∧ Meets step C (step s a) rest))

/-- A condition on the labels alone. -/
theorem meets_of_forall {step : σ → ι → σ} {C : ι → Prop} {sched : List ι}
    (h : ∀ a ∈ sched, C a) (s : σ) : Meets step (fun _ a => C a) s sched := by
  induction sched generalizing s with
  | nil => trivial
  | cons a rest ih =>
    rw [List.forall_mem_cons] at h
    exact ⟨h.1, ih h.2 (step s a)⟩

/-- A weaker condition, where the invariant holds. -/
theorem Meets.imp {step : σ → ι → σ} {C D : σ → ι → Prop} {I : σ → Prop}
    (hinv : ∀ s a, I s → I (step s a)) (himp : ∀ s a, I s → C s a → D s a)
    {s : σ} (h : I s) {sched : List ι} (hmeets : Meets step C s sched) :
    Meets step D s sched := by
  induction sched generalizing s with
  | nil => trivial
  | cons a rest ih => exact ⟨himp s a h hmeets.1, ih (hinv s a h) hmeets.2⟩

/-- The last step of a run that meets a condition. -/
theorem meets_append_singleton {step : σ → ι → σ} {C : σ → ι → Prop} {s : σ}
    {sched : List ι} {a : ι} :
    Meets step C s (sched ++ [a]) ↔
      Meets step C s sched ∧ C (run step s sched) a := by
  induction sched generalizing s with
  | nil => exact and_comm
  | cons b rest ih => exact (and_congr_right fun _ => ih).trans and_assoc.symm

theorem meets_congr {step : σ → ι → σ} {C D : σ → ι → Prop} {I : σ → Prop}
    (hinv : ∀ s a, I s → I (step s a)) (hsame : ∀ s a, I s → (C s a ↔ D s a))
    {s : σ} (h : I s) (sched : List ι) :
    Meets step C s sched ↔ Meets step D s sched :=
  ⟨Meets.imp hinv (fun s a hI => (hsame s a hI).mp) h,
    Meets.imp hinv (fun s a hI => (hsame s a hI).mpr) h⟩

theorem run_invariant_of_meets {step : σ → ι → σ} {C : σ → ι → Prop}
    {P : σ → Prop} (hstep : ∀ s a, P s → C s a → P (step s a)) {s : σ} (h : P s)
    {sched : List ι} (hmeets : Meets step C s sched) :
    P (run step s sched) := by
  induction sched generalizing s with
  | nil => exact h
  | cons a rest ih => exact ih (hstep s a h hmeets.1) hmeets.2

/-- A run that is alive at its end was alive at its start. -/
theorem alive_of_run {step : σ → ι → σ} {A : σ → Prop}
    (hdead : ∀ s a, A (step s a) → A s) {s : σ} {sched : List ι}
    (h : A (run step s sched)) : A s := by
  induction sched generalizing s with
  | nil => exact h
  | cons a rest ih => exact hdead s a (ih h)

/-- Where a live step leads to a good state exactly when it starts in a good
state and meets the condition, a live run ends well exactly when all its steps
meet the condition.  The invariant is what every step keeps. -/
theorem run_iff_meets {step : σ → ι → σ} {C : σ → ι → Prop}
    {I A P : σ → Prop} (hinv : ∀ s a, I s → I (step s a))
    (hdead : ∀ s a, A (step s a) → A s)
    (hstep : ∀ s a, I s → A (step s a) → (P (step s a) ↔ P s ∧ C s a))
    {s : σ} (hI : I s) {sched : List ι} (hend : A (run step s sched)) :
    P (run step s sched) ↔ P s ∧ Meets step C s sched := by
  induction sched generalizing s with
  | nil => exact (and_iff_left trivial).symm
  | cons a rest ih =>
    have halive : A (step s a) := alive_of_run hdead hend
    rw [run_cons, ih (hinv s a hI) hend, hstep s a hI halive, and_assoc]
    rfl

/-- The same where a second condition on the steps is a part of the goal, and
the invariant is what the steps that meet it keep. -/
theorem run_and_meets_iff {step : σ → ι → σ} {C D : σ → ι → Prop}
    {I P : σ → Prop} (hinv : ∀ s a, I s → D s a → I (step s a))
    (hstep : ∀ s a, I s → (P (step s a) ∧ D s a ↔ P s ∧ C s a)) {s : σ}
    (hI : I s) (sched : List ι) :
    P (run step s sched) ∧ Meets step D s sched ↔
      P s ∧ Meets step C s sched := by
  induction sched generalizing s with
  | nil => exact Iff.rfl
  | cons a rest ih =>
    have hfirst := hstep s a hI
    rw [run_cons]
    constructor
    · rintro ⟨hend, hD, hrest⟩
      obtain ⟨hnext, hrest⟩ := (ih (hinv s a hI hD)).mp ⟨hend, hrest⟩
      obtain ⟨hs, hC⟩ := hfirst.mp ⟨hnext, hD⟩
      exact ⟨hs, hC, hrest⟩
    · rintro ⟨hs, hC, hrest⟩
      obtain ⟨hnext, hD⟩ := hfirst.mpr ⟨hs, hC⟩
      obtain ⟨hend, hrest⟩ := (ih (hinv s a hI hD)).mpr ⟨hnext, hrest⟩
      exact ⟨hend, hD, hrest⟩

/-- The same for a property that a run can win back: it holds in every state of
the run exactly when all the steps meet the condition. -/
theorem states_iff_meets {step : σ → ι → σ} {C : σ → ι → Prop} {P : σ → Prop}
    (hgood : ∀ s a, P s → (P (step s a) ↔ C s a)) {s : σ} (h : P s)
    (sched : List ι) :
    (∀ pre, pre <+: sched → P (run step s pre)) ↔ Meets step C s sched := by
  induction sched generalizing s with
  | nil =>
    refine iff_of_true ?_ trivial
    intro pre hpre
    rw [List.prefix_nil.mp hpre]
    exact h
  | cons a rest ih =>
    constructor
    · intro hall
      have hfirst : P (step s a) :=
        hall [a] ((List.prefix_cons_inj a).mpr List.nil_prefix)
      refine ⟨(hgood s a h).mp hfirst, (ih hfirst).mp ?_⟩
      intro pre hpre
      exact hall (a :: pre) ((List.prefix_cons_inj a).mpr hpre)
    · rintro ⟨hC, hrest⟩ pre hpre
      rcases List.prefix_cons_iff.mp hpre with rfl | ⟨later, rfl, hlater⟩
      · exact h
      · exact (ih ((hgood s a h).mpr hC)).mpr hrest later hlater

/-! ## Runs that can fail -/

section Fail

universe u v

variable {ε : Type v} {α β : Type u}

theorem bind_eq_ok {x : Except ε α} {f : α → Except ε β} {b : β}
    (h : x >>= f = .ok b) : ∃ a, x = .ok a ∧ f a = .ok b := by
  cases x with
  | error e => exact absurd h (by simp [bind, Except.bind])
  | ok a => exact ⟨a, rfl, h⟩

theorem bind_eq_error {x : Except ε α} {f : α → Except ε β} {e : ε}
    (h : x >>= f = .error e) :
    x = .error e ∨ ∃ a, x = .ok a ∧ f a = .error e := by
  cases x with
  | error e' =>
    obtain rfl := Except.error.inj h
    exact Or.inl rfl
  | ok a => exact Or.inr ⟨a, rfl, h⟩

variable {step : σ → ι → Except ε σ}

/-- A run that succeeds takes its first step, and then the others. -/
theorem foldlM_cons_ok {s t : σ} {a : ι} {rest : List ι}
    (h : (a :: rest).foldlM step s = .ok t) :
    ∃ u, step s a = .ok u ∧ rest.foldlM step u = .ok t := by
  rw [List.foldlM_cons] at h
  exact bind_eq_ok h

/-- A run fails with the error of one of its steps. -/
theorem exists_of_foldlM_error {s : σ} {sched : List ι} {e : ε}
    (h : sched.foldlM step s = .error e) :
    ∃ t, ∃ a ∈ sched, step t a = .error e := by
  induction sched generalizing s with
  | nil => exact absurd h (by simp [pure, Except.pure])
  | cons a rest ih =>
    rw [List.foldlM_cons] at h
    rcases bind_eq_error h with hfirst | ⟨u, -, hrest⟩
    · exact ⟨s, a, List.mem_cons_self, hfirst⟩
    · obtain ⟨t, b, hb, herr⟩ := ih hrest
      exact ⟨t, b, List.mem_cons_of_mem a hb, herr⟩

end Fail

/-! ## Runs that answer -/

/-- The machine that also writes down what its steps emit. -/
def traced (step : σ → ι → σ) (emit : σ → ι → List ο) (x : σ × List ο)
    (a : ι) : σ × List ο :=
  (step x.1 a, x.2 ++ emit x.1 a)

/-- A condition that does not look at the trace. -/
theorem meets_traced (step : σ → ι → σ) (emit : σ → ι → List ο)
    (C : σ → ι → Prop) (x : σ × List ο) (sched : List ι) :
    Meets (traced step emit) (fun x a => C x.1 a) x sched ↔
      Meets step C x.1 sched := by
  induction sched generalizing x with
  | nil => exact Iff.rfl
  | cons a rest ih => exact and_congr Iff.rfl (ih (traced step emit x a))

/-- What the steps of a run emit. -/
def trace (step : σ → ι → σ) (emit : σ → ι → List ο) (s : σ)
    (sched : List ι) : List ο :=
  (run (traced step emit) (s, []) sched).2

/-- The first part of a traced run is the run. -/
theorem run_traced_fst (step : σ → ι → σ) (emit : σ → ι → List ο)
    (x : σ × List ο) (sched : List ι) :
    (run (traced step emit) x sched).1 = run step x.1 sched := by
  induction sched generalizing x with
  | nil => rfl
  | cons a rest ih => exact ih (traced step emit x a)

theorem trace_append_singleton (step : σ → ι → σ) (emit : σ → ι → List ο)
    (s : σ) (sched : List ι) (a : ι) :
    trace step emit s (sched ++ [a]) =
      trace step emit s sched ++ emit (run step s sched) a := by
  rw [trace, run_append, run_cons, run_nil]
  show _ ++ emit (run (traced step emit) (s, []) sched).1 a = _
  rw [run_traced_fst]
  rfl

/-- What a run has emitted was emitted by one of its steps. -/
theorem exists_of_mem_trace {step : σ → ι → σ} {emit : σ → ι → List ο} {s : σ}
    {sched : List ι} {x : ο} (h : x ∈ trace step emit s sched) :
    ∃ t, ∃ a ∈ sched, x ∈ emit t a := by
  induction sched using List.reverseRecOn with
  | nil => exact absurd h List.not_mem_nil
  | append_singleton sched a ih =>
    rw [trace_append_singleton, List.mem_append] at h
    rcases h with h | h
    · obtain ⟨t, b, hb, hx⟩ := ih h
      exact ⟨t, b, List.mem_append_left _ hb, hx⟩
    · exact ⟨_, a, List.mem_append_right _ (List.mem_singleton_self a), h⟩

/-- What holds of the empty run and is kept by every further step holds of every
run.  The property may look at the schedule. -/
theorem run_history {step : σ → ι → σ} {s : σ} {P : List ι → σ → Prop}
    (h : P [] s)
    (hstep : ∀ sched a, P sched (run step s sched) →
      P (sched ++ [a]) (step (run step s sched) a))
    (sched : List ι) : P sched (run step s sched) := by
  induction sched using List.reverseRecOn with
  | nil => exact h
  | append_singleton sched a ih =>
    rw [run_append]
    exact hstep sched a ih

/-! ## A part of a machine -/

section Part

variable {κ : Type*} {step : σ → ι → σ} {stepPart : τ → κ → τ}
  {labels : σ → ι → List κ}

theorem meets_append {C : σ → ι → Prop} {s : σ} {sched rest : List ι} :
    Meets step C s (sched ++ rest) ↔
      Meets step C s sched ∧ Meets step C (run step s sched) rest := by
  induction sched generalizing s with
  | nil => exact (and_iff_right trivial).symm
  | cons a more ih => exact (and_congr_right fun _ => ih).trans and_assoc.symm

/-- What a run does to the part. -/
theorem run_part (part : σ → τ)
    (h : ∀ s a, part (step s a) = run stepPart (part s) (labels s a)) (s : σ)
    (sched : List ι) :
    part (run step s sched) =
      run stepPart (part s) (trace step labels s sched) := by
  induction sched using List.reverseRecOn with
  | nil => rfl
  | append_singleton sched a ih =>
    rw [run_append, run_cons, run_nil, h, ih, trace_append_singleton, run_append]

/-- A condition on the steps of the part. -/
theorem meets_part (part : σ → τ) {C : τ → κ → Prop}
    (h : ∀ s a, part (step s a) = run stepPart (part s) (labels s a)) {s : σ}
    {sched : List ι}
    (hmeets : Meets step (fun s a => Meets stepPart C (part s) (labels s a)) s
      sched) :
    Meets stepPart C (part s) (trace step labels s sched) := by
  induction sched using List.reverseRecOn with
  | nil => trivial
  | append_singleton sched a ih =>
    obtain ⟨hbefore, hlast⟩ := meets_append_singleton.mp hmeets
    rw [trace_append_singleton, meets_append]
    refine ⟨ih hbefore, ?_⟩
    rw [← run_part part h]
    exact hlast

end Part

/-- The answers of a machine along a schedule. -/
def outputs (step : σ → ι → ο × σ) : σ → List ι → List ο
  | _, [] => []
  | s, a :: rest => (step s a).1 :: outputs step (step s a).2 rest

/-- Every step of the first machine is matched by the second one: the answers
agree, and the states stay related. -/
def Simulates (R : σ → τ → Prop) (stepC : σ → ι → ο × σ)
    (stepA : τ → ι → ο × τ) : Prop :=
  ∀ s t a, R s t →
    (stepC s a).1 = (stepA t a).1 ∧ R (stepC s a).2 (stepA t a).2

theorem Simulates.outputs_eq {R : σ → τ → Prop} {stepC : σ → ι → ο × σ}
    {stepA : τ → ι → ο × τ} (hsim : Simulates R stepC stepA) {s : σ} {t : τ}
    (h : R s t) (sched : List ι) :
    outputs stepC s sched = outputs stepA t sched := by
  induction sched generalizing s t with
  | nil => rfl
  | cons a rest ih =>
    obtain ⟨hout, hrel⟩ := hsim s t a h
    rw [outputs, outputs, hout, ih hrel]

end CodeLib.Machine
