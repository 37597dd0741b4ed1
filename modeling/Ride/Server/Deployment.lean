import Ride.Process.Output
import Ride.Server.Delivery

/-!
# From an open to the server

`Process` is the monitor on its host, and `Site` is the verification server with
the connections of the processors.  The processors are in both: a step of a
processor is one for `Process`, which gives it the queue, and one for `Site`, which
gives it a stream.  `Deployment` runs the two together, and `Deployment.Agree` says
that they keep the same processors.

`server_learns_opens` follows a payload that the server prints back to the open
that it is about.
-/

namespace Ride

open CodeLib CodeLib.Machine

/-- The monitor and the server. -/
structure Deployment (B : Blake3) (k n : Nat) where
  process : Process B k n
  site : Site B k n

/-- A step of the host, or one of the verifiers, the network and the server. -/
inductive DeploymentStep (k n : Nat) where
  | host (a : ProcessStep k n)
  | site (a : SiteStep k n)

namespace Deployment

variable {B : Blake3} {k n : Nat}

def start (B : Blake3) [NeZero n] (cells : Nat → Event) (queue : Queue)
    (boot : Fin k → Sys.Boot n) : Deployment B k n where
  process := .start B cells queue boot
  site := .start B boot

/-- The step of a processor with the queue and the eventfd that it finds. -/
def given (d : Deployment B k n) (i : Fin k) (a : SysStep n) : SysStep n :=
  a.withQueue d.process.system.dispatch.queue
    (d.process.system.dispatch.efds i)

/-- The process has not exited, and the processor is not in a flush. -/
def CanStep (d : Deployment B k n) (i : Fin k) (a : SysStep n) : Prop :=
  d.process.system.Running ∧ (d.site.conns i).client.Enabled (d.given i a)

instance (d : Deployment B k n) (i : Fin k) : DecidablePred (d.CanStep i) :=
  fun _ => inferInstanceAs (Decidable (_ ∧ _))

/-- What a step is for the process. -/
def processSteps (d : Deployment B k n) :
    DeploymentStep k n → List (ProcessStep k n)
  | .host (.processor i a) => if d.CanStep i a then [.processor i a] else []
  | .host a => [a]
  | .site _ => []

/-- What a step is for the verifiers and the server.  A processor that opens a
stream gets the next one, and a flush is a part of the process. -/
def siteSteps (d : Deployment B k n) : DeploymentStep k n → List (SiteStep k n)
  | .host (.processor i a) =>
    if d.CanStep i a then
      [.conn i (.client (.sys (d.given i a)
        (streamNumber (d.site.conns i).client.verifier.opened.length)))]
    else []
  | .host _ => []
  | .site (.conn _ (.client (.sys _ _))) => []
  | .site (.conn i (.client (.verifier a))) =>
    if d.process.system.Running then [.conn i (.client (.verifier a))] else []
  | .site (.conn i (.resend b)) =>
    if d.process.system.Running then [.conn i (.resend b)] else []
  | .site a => [a]

section Steps

variable [NeZero k]

def step (w : Watch) (d : Deployment B k n) (a : DeploymentStep k n) :
    Deployment B k n where
  process := run (Process.step w) d.process (d.processSteps a)
  site := run Site.step d.site (d.siteSteps a)

/-- The runs of the BPF program that get a record, in order. -/
def opens (w : Watch) (d : Deployment B k n)
    (sched : List (DeploymentStep k n)) : List OpenCall :=
  Process.opens w d.process (trace (step w) processSteps d sched)

/-- `Process.Clean`, for what the step is for the process. -/
def Clean (w : Watch) (d : Deployment B k n) (a : DeploymentStep k n) : Prop :=
  Meets (Process.step w) (Process.Clean w) d.process (d.processSteps a)

instance (w : Watch) (d : Deployment B k n) : DecidablePred (d.Clean w) :=
  fun _ => inferInstanceAs (Decidable (Meets _ _ _ _))

end Steps

/-- `Site.CallsInOrder`, for what the step is for the verifiers. -/
def CallsInOrder (c : Fin k) (d : Deployment B k n)
    (a : DeploymentStep k n) : Prop :=
  Meets Site.step (Site.CallsInOrder c) d.site (d.siteSteps a)

instance (c : Fin k) (d : Deployment B k n) :
    DecidablePred (d.CallsInOrder c) :=
  fun _ => inferInstanceAs (Decidable (Meets _ _ _ _))

/-! ## The two parts -/

/-- The processors of the two parts are the same. -/
def Agree (d : Deployment B k n) : Prop :=
  ∀ i, (d.site.conns i).client.sys = d.process.system.processors i

/-- A step of the connection that is one of the processor. -/
theorem sys_clientStep_sys {x : Connection B n} {a : SysStep n}
    (henabled : x.client.Enabled a) :
    (x.clientStep (.sys a
      (streamNumber x.client.verifier.opened.length))).client.sys =
        x.client.sys.step a := by
  by_cases hlive : x.client.sys.halted = none
  · have hmoves : x.Moves (.sys a (streamNumber
        x.client.verifier.opened.length)) :=
      ⟨hlive, by rintro id ⟨⟩; rfl⟩
    rw [Connection.client_clientStep hmoves]
    simp only [Client.step, if_pos henabled]
  · rw [Connection.clientStep, if_neg fun hmoves => hlive hmoves.1,
      Sys.step_of_halted hlive]

/-- Only a step of a processor is one for both parts. -/
theorem steps_host (d : Deployment B k n) {a : ProcessStep k n}
    (ha : ∀ i b, a ≠ .processor i b) :
    d.processSteps (.host a) = [a] ∧ d.siteSteps (.host a) = [] := by
  cases a with
  | processor i b => exact absurd rfl (ha i b)
  | _ => exact ⟨rfl, rfl⟩

theorem siteSteps_site (d : Deployment B k n) (a : SiteStep k n) :
    ∀ b ∈ d.siteSteps (.site a), ∀ i e id,
      b ≠ .conn i (.client (.sys e id)) := by
  cases a with
  | conn i a =>
    cases a with
    | client a =>
      cases a with
      | sys => exact fun b hb => absurd hb List.not_mem_nil
      | verifier a =>
        simp only [siteSteps]
        split_ifs <;> simp
    | resend b =>
      simp only [siteSteps]
      split_ifs <;> simp
    | _ => simp [siteSteps]
  | _ => simp [siteSteps]

theorem agree_start [NeZero n] (cells : Nat → Event) (queue : Queue)
    (boot : Fin k → Sys.Boot n) : (start B cells queue boot).Agree :=
  fun _ => rfl

variable [NeZero k] {w : Watch} {d : Deployment B k n}

/-- The step of a processor is the same one in both parts. -/
theorem Agree.processor (h : d.Agree) {i : Fin k} {a : SysStep n}
    (hcan : d.CanStep i a) : (d.step w (.host (.processor i a))).Agree := by
  intro j
  simp only [Deployment.step, processSteps, siteSteps, if_pos hcan, run_cons,
    run_nil, Process.step, System.step, if_pos hcan.1, System.processorStep,
    Site.step, Connection.step, Site.setConn]
  by_cases hj : j = i
  · rw [hj, Function.update_self, Function.update_self,
      sys_clientStep_sys hcan.2, h i]
    rfl
  · rw [Function.update_of_ne hj, Function.update_of_ne hj]
    exact h j

/-- A step of the host that is no step of a processor. -/
theorem Agree.host (h : d.Agree) {a : ProcessStep k n}
    (ha : ∀ i b, a ≠ .processor i b) : (d.step w (.host a)).Agree := by
  obtain ⟨hprocess, hsite⟩ := d.steps_host ha
  intro i
  simp only [Deployment.step, hprocess, hsite, run_cons, run_nil]
  rcases d.process.processors_step (w := w) a with hsame | ⟨j, b, -, hb, -⟩
  · rw [hsame]
    exact h i
  · exact absurd hb (ha j b)

theorem Agree.step (h : d.Agree) (a : DeploymentStep k n) :
    (d.step w a).Agree := by
  cases a with
  | host a =>
    by_cases hproc : ∃ i b, a = .processor i b
    · obtain ⟨i, b, rfl⟩ := hproc
      by_cases hcan : d.CanStep i b
      · exact h.processor hcan
      · simp only [Deployment.step, processSteps, siteSteps, if_neg hcan, run_nil]
        exact h
    · exact h.host fun i b hb => hproc ⟨i, b, hb⟩
  | site a =>
    exact fun i => (d.site.sys_run (d.siteSteps_site a) i).trans (h i)

/-! ## What the server learns -/

/-- In every run of the monitor, the network and the server in which no stale path
is taken for a new one, and in which the calls of `verifier_verify_hash` of the
processor whose connection was accepted are in order, also towards the bytes that
may be sent again, the payloads that the server
prints are the digests and paths of the first lines of this processor.  Each of
them is about the open of a watched file in scope, with the digest of a whole
file, and no path is there more often than it was opened. -/
theorem server_learns_opens [NeZero n] (cells : Nat → Event) (queue : Queue)
    (boot : Fin k → Sys.Boot n) (c : Fin k) (sched : List (DeploymentStep k n))
    (hclean : Meets (Deployment.step w) (Clean w) (start B cells queue boot)
      sched)
    (hcalls : Meets (Deployment.step w) (CallsInOrder c)
      (start B cells queue boot) sched) :
    let d := run (Deployment.step w) (start B cells queue boot) sched
    let calls := Deployment.opens w (start B cells queue boot) sched
    d.site.conn = some c → ∃ lines : List Record,
      lines <+: (d.process.system.processors c).records ∧
      d.site.payloads = lines.map (fun line => line.hash ++ line.file) ∧
      (∀ line ∈ lines, ∃ o ∈ calls,
        Process.LineFor w (d.process.system.processors c) line o) ∧
      (lines.map Record.file : Multiset Bytes) ≤
        (calls.map fun o => o.file.path : List Bytes) := by
  intro d calls hconn
  -- what the process and the server do in this run
  have hprocess : d.process = run (Process.step w) (.start B cells queue boot)
      (trace (Deployment.step w) processSteps (start B cells queue boot) sched) :=
    run_part Deployment.process (fun _ _ => rfl) _ sched
  have hsite : d.site = run Site.step (.start B boot)
      (trace (Deployment.step w) siteSteps (start B cells queue boot) sched) :=
    run_part Deployment.site (fun _ _ => rfl) _ sched
  have hclean' := meets_part Deployment.process (fun _ _ => rfl) hclean
  have hserved := Site.served_run boot
    (meets_part Deployment.site (fun _ _ => rfl) hcalls)
  rw [← hsite] at hserved
  have hagree : d.Agree := run_invariant (fun _ a h => h.step a)
    (agree_start cells queue boot) sched
  have hok : ∀ event ∈ (d.site.conns c).client.sys.dequeued, event.LengthOk := by
    rw [hagree c, hprocess]
    intro event hevent
    obtain ⟨o, -, -, heventOk⟩ := Process.event_right hclean' hevent
    exact heventOk.len
  have hpayloads := hserved.payloads_prefix_records hok hconn
  rw [hagree c, List.prefix_iff_eq_take, ← List.map_take] at hpayloads
  have hlines := List.take_prefix d.site.payloads.length
    (d.process.system.processors c).records
  refine ⟨_, hlines, hpayloads, ?_, ?_⟩
  · intro line hline
    have hrecord := hlines.subset hline
    rw [hprocess] at hrecord ⊢
    exact Process.exists_lineFor hclean' hrecord
  · have hsum := Process.sum_files_le hclean'
    rw [← hprocess] at hsum
    calc (((d.process.system.processors c).records.take
          d.site.payloads.length).map Record.file : Multiset Bytes)
        ≤ ((d.process.system.processors c).records.map Record.file :
            Multiset Bytes) :=
          Multiset.coe_le.mpr (hlines.sublist.map Record.file).subperm
      _ ≤ ∑ i, ((d.process.system.processors i).records.map Record.file :
            Multiset Bytes) :=
          Finset.single_le_sum (f := fun i =>
            ((d.process.system.processors i).records.map Record.file :
              Multiset Bytes)) (fun _ _ => Multiset.zero_le _) (Finset.mem_univ c)
      _ ≤ (calls.map fun o => o.file.path : List Bytes) := hsum

/-- The open of `Process.lineRun` gets its line.  The message goes out, and the
server reads it. -/
def learnedRun : List (DeploymentStep 1 1) :=
  (Process.lineRun.take 48).map .host ++
  ([Site.answers (.packet 7 true), Site.answers .zero, .accept (Fin.last 0)] ++
    Site.deliverFirst 7 ++ [SiteStep.acceptStream, .readAll]).map .site

theorem server_learns_opens_in_learnedRun :
    let s : Deployment .concat 1 1 := start .concat (fun _ => .zero)
      ⟨fun _ => .zero, 0, 0⟩ fun _ => Sys.Boot.zeroed 1
    let d := run (Deployment.step watchW) s learnedRun
    d.site.payloads = [[1, 2, 3, 47, 119, 47, 97]] ∧ ∃ lines : List Record,
      d.site.payloads = lines.map (fun line => line.hash ++ line.file) ∧
      ∀ line ∈ lines, ∃ o ∈ Deployment.opens watchW s learnedRun,
        Process.LineFor watchW
          (d.process.system.processors (Fin.last 0)) line o := by
  refine ⟨by decide +kernel, ?_⟩
  obtain ⟨lines, -, hpayloads, hright, -⟩ := server_learns_opens (k := 1)
    (B := .concat) (w := watchW) (fun _ => .zero)
    ⟨fun _ => .zero, 0, 0⟩ (fun _ => Sys.Boot.zeroed 1) (Fin.last 0) learnedRun
    (by decide +kernel) (by decide +kernel) (by decide +kernel)
  exact ⟨lines, hpayloads, hright⟩

end Deployment

end Ride
