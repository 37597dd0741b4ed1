import Ride.CodeLib.Machine
import Mathlib.Logic.Function.Basic

/-!
# The address of the verification server

All the processors share the pointer `remote_addr`.  `init_addr` sets it under a
mutex, in the thread that comes first, and `on_socket_create` reads it later
without the mutex.

The model takes the threads of the processors from the call of `init_addr` to
the copy in `on_socket_create`, one access of the mutex or of the pointer a step.
What `getaddrinfo` stores is a value of any type.  A lookup that fails ends the
process, and a copy through a null pointer is a fault.
-/

namespace Ride

open CodeLib CodeLib.Machine

/-- Where a processor is: at the lock, at the test of the pointer, in
`getaddrinfo`, at the label `unlock`, behind `init_addr`, or behind the copy of
the address. -/
inductive AddrPhase (A : Type) where
  | locking
  | testing
  | resolving
  | unlocking
  | creating
  | connecting (addr : A)

/-- How the process can end: `exit(1)` behind a lookup that fails, or an access
through the null pointer. -/
inductive AddrEnd where
  | exit
  | fault
deriving DecidableEq

/-- The mutex, the pointer, the number of lookups, and the processors. -/
structure Addresses (A : Type) (k : Nat) where
  mutex : Option (Fin k)
  remoteAddr : Option A
  lookups : Nat
  phases : Fin k → AddrPhase A
  ended : Option AddrEnd

/-- Between the lock and the unlock. -/
def AddrPhase.Inside {A : Type} : AddrPhase A → Prop
  | .testing | .resolving | .unlocking => True
  | _ => False

/-- Behind `init_addr`. -/
def AddrPhase.Behind {A : Type} : AddrPhase A → Prop
  | .creating | .connecting _ => True
  | _ => False

namespace Addresses

variable {A : Type} {k : Nat} {s : Addresses A k} {c : Fin k}

def start (A : Type) (k : Nat) : Addresses A k where
  mutex := none
  remoteAddr := none
  lookups := 0
  phases := fun _ => .locking
  ended := none

/-- A processor goes on. -/
def goto (s : Addresses A k) (c : Fin k) (phase : AddrPhase A) :
    Addresses A k :=
  { s with phases := Function.update s.phases c phase }

/-- One step of a processor.  The answer is the one of `getaddrinfo`, if the step
is its return.  The other exits of `on_socket_create`, where the socket could not be
created or `getsockname` fails, come before it uses the address, and are left
out. -/
def step (s : Addresses A k) (a : Fin k × Option A) : Addresses A k :=
  if s.ended.isSome then s
  else match s.phases a.1 with
    | .locking =>
      if s.mutex = none then { s.goto a.1 .testing with mutex := some a.1 } else s
    | .testing =>
      if s.remoteAddr.isSome then s.goto a.1 .unlocking
      else { s.goto a.1 .resolving with lookups := s.lookups + 1 }
    | .resolving =>
      match a.2 with
      | none => { s with ended := some .exit }
      | some addr => { s.goto a.1 .unlocking with remoteAddr := some addr }
    | .unlocking => { s.goto a.1 .creating with mutex := none }
    | .creating =>
      match s.remoteAddr with
      | none => { s with ended := some .fault }
      | some addr => s.goto a.1 (.connecting addr)
    | .connecting _ => s

/-! ## The invariant -/

/-- What is known of a processor.  The one between the lock and the unlock has
the mutex, and a processor behind `init_addr` finds the address. -/
def PhaseOk (s : Addresses A k) (c : Fin k) : AddrPhase A → Prop
  | .locking => s.mutex ≠ some c
  | .testing => s.mutex = some c ∧ (s.remoteAddr = none → s.lookups = 0)
  | .resolving => s.mutex = some c ∧ s.remoteAddr = none ∧ s.lookups = 1
  | .unlocking => s.mutex = some c ∧ s.remoteAddr ≠ none
  | .creating => s.mutex ≠ some c ∧ s.remoteAddr ≠ none
  | .connecting addr => s.mutex ≠ some c ∧ s.remoteAddr = some addr

structure Inv (s : Addresses A k) : Prop where
  phases : ∀ c, s.PhaseOk c (s.phases c)
  free : s.mutex = none → s.remoteAddr = none → s.lookups = 0
  set : s.remoteAddr ≠ none → s.lookups = 1
  no_fault : s.ended ≠ some .fault

theorem inv_start : (start A k).Inv where
  phases := nofun
  free := fun _ _ => rfl
  set := fun h => absurd rfl h
  no_fault := nofun

theorem Inv.phaseOk (h : s.Inv) {phase : AddrPhase A}
    (hphase : s.phases c = phase) : s.PhaseOk c phase :=
  hphase ▸ h.phases c

/-- The processors behind a step of one of them. -/
theorem phases_goto (h : s.Inv) {t : Addresses A k} {phase : AddrPhase A}
    (hphases : t.phases = Function.update s.phases c phase)
    (hself : t.PhaseOk c phase)
    (hother : ∀ d q, d ≠ c → s.PhaseOk d q → t.PhaseOk d q) (d : Fin k) :
    t.PhaseOk d (t.phases d) := by
  rw [hphases]
  by_cases hd : d = c
  · subst hd
    rw [Function.update_self]
    exact hself
  · rw [Function.update_of_ne hd]
    exact hother d _ hd (h.phases d)

theorem Inv.lock (h : s.Inv) (hmutex : s.mutex = none) :
    { s.goto c .testing with mutex := some c }.Inv := by
  refine ⟨phases_goto h rfl ⟨rfl, h.free hmutex⟩ ?_, nofun, h.set, h.no_fault⟩
  intro d q hd hok
  cases q <;> grind [PhaseOk, goto]

theorem Inv.found (h : s.Inv) (hphase : s.phases c = .testing)
    (hset : s.remoteAddr ≠ none) : (s.goto c .unlocking).Inv :=
  ⟨phases_goto h rfl ⟨(h.phaseOk hphase).1, hset⟩ (fun _ _ _ hok => hok),
    h.free, h.set, h.no_fault⟩

theorem Inv.lookup (h : s.Inv) (hphase : s.phases c = .testing)
    (hunset : s.remoteAddr = none) :
    { s.goto c .resolving with lookups := s.lookups + 1 }.Inv := by
  obtain ⟨hmutex, hzero⟩ := h.phaseOk hphase
  refine ⟨phases_goto h rfl ⟨hmutex, hunset, ?_⟩ ?_, ?_, ?_, h.no_fault⟩
  · exact congrArg (· + 1) (hzero hunset)
  · intro d q hd hok
    cases q <;> grind [PhaseOk, goto]
  · exact fun hfree => absurd (hmutex.symm.trans hfree) (by simp)
  · exact fun hset => absurd hunset hset

theorem Inv.resolved (h : s.Inv) (hphase : s.phases c = .resolving) (addr : A) :
    { s.goto c .unlocking with remoteAddr := some addr }.Inv := by
  obtain ⟨hmutex, hunset, hone⟩ := h.phaseOk hphase
  refine ⟨phases_goto h rfl ⟨hmutex, by simp⟩ ?_, nofun, fun _ => hone,
    h.no_fault⟩
  intro d q hd hok
  cases q <;> grind [PhaseOk, goto]

theorem Inv.unlock (h : s.Inv) (hphase : s.phases c = .unlocking) :
    { s.goto c .creating with mutex := none }.Inv := by
  obtain ⟨hmutex, hset⟩ := h.phaseOk hphase
  refine ⟨phases_goto h rfl ⟨by simp, hset⟩ ?_, fun _ hunset => ?_, h.set,
    h.no_fault⟩
  · intro d q hd hok
    cases q <;> grind [PhaseOk, goto]
  · exact absurd hunset hset

theorem Inv.copy (h : s.Inv) (hphase : s.phases c = .creating) {addr : A}
    (haddr : s.remoteAddr = some addr) : (s.goto c (.connecting addr)).Inv :=
  ⟨phases_goto h rfl ⟨(h.phaseOk hphase).1, haddr⟩ (fun _ _ _ hok => hok),
    h.free, h.set, h.no_fault⟩

theorem Inv.step (h : s.Inv) (a : Fin k × Option A) : (s.step a).Inv := by
  by_cases hended : s.ended.isSome
  · rw [Addresses.step, if_pos hended]
    exact h
  · rw [Addresses.step, if_neg hended]
    split
    · split_ifs with hmutex
      · exact h.lock hmutex
      · exact h
    · rename_i hphase
      split_ifs with hset
      · exact h.found hphase (Option.isSome_iff_ne_none.mp hset)
      · exact h.lookup hphase (Option.not_isSome_iff_eq_none.mp hset)
    · rename_i hphase
      split
      · exact ⟨h.phases, h.free, h.set, by simp⟩
      · exact h.resolved hphase _
    · rename_i hphase
      exact h.unlock hphase
    · rename_i hphase
      split
      · rename_i hunset
        exact absurd hunset (h.phaseOk hphase).2
      · rename_i haddr
        exact h.copy hphase haddr
    · exact h

/-! ## The runs -/

theorem Inv.inside (h : s.Inv) (hc : (s.phases c).Inside) :
    s.mutex = some c := by
  have hok := h.phases c
  generalize s.phases c = phase at hc hok
  cases phase with
  | testing | resolving | unlocking => exact hok.1
  | _ => exact hc.elim

theorem Inv.behind (h : s.Inv) (hc : (s.phases c).Behind) :
    s.remoteAddr ≠ none := by
  have hok := h.phases c
  generalize s.phases c = phase at hc hok
  cases phase with
  | creating => exact hok.2
  | connecting addr =>
    rw [hok.2]
    exact Option.some_ne_none addr
  | _ => exact hc.elim

theorem Inv.lookups_le (h : s.Inv) : s.lookups ≤ 1 := by
  by_cases hset : s.remoteAddr = none
  · cases hmutex : s.mutex with
    | none =>
      rw [h.free hmutex hset]
      exact Nat.zero_le 1
    | some c =>
      have hok := h.phases c
      generalize s.phases c = phase at hok
      cases phase with
      | testing =>
        rw [hok.2 hset]
        exact Nat.zero_le 1
      | resolving => exact Nat.le_of_eq hok.2.2
      | unlocking => exact absurd hset hok.2
      | locking => exact absurd hmutex hok
      | creating | connecting => exact absurd hmutex hok.1
  · exact Nat.le_of_eq (h.set hset)

/-- A step that takes a processor to another phase is a step. -/
theorem ne_of_phase {t : Addresses A k} {phase : AddrPhase A}
    (hphases : t.phases = Function.update s.phases c phase)
    (hne : s.phases c ≠ phase) : t ≠ s := by
  rintro rfl
  refine hne ?_
  rw [hphases, Function.update_self]

/-- The processor with the mutex goes on, whatever `getaddrinfo` answers. -/
theorem Inv.holder_moves (h : s.Inv) (hended : s.ended = none)
    (hmutex : s.mutex = some c) (ans : Option A) : s.step (c, ans) ≠ s := by
  have hok := h.phases c
  have hlive : ¬ s.ended.isSome := by simp [hended]
  rw [Addresses.step, if_neg hlive]
  cases hphase : s.phases c with
  | testing =>
    dsimp only
    split_ifs
    · exact ne_of_phase (c := c) rfl (by simp [hphase])
    · exact ne_of_phase (c := c) rfl (by simp [hphase])
  | resolving =>
    cases ans with
    | none =>
      intro heq
      exact absurd ((congrArg Addresses.ended heq).trans hended) (by simp)
    | some addr => exact ne_of_phase (c := c) rfl (by simp [hphase])
  | unlocking => exact ne_of_phase (c := c) rfl (by simp [hphase])
  | locking =>
    rw [hphase] at hok
    exact absurd hmutex hok
  | creating | connecting =>
    rw [hphase] at hok
    exact absurd hmutex hok.1

/-- A processor that has not copied the address can go on, or it waits for one
that can. -/
theorem Inv.moves (h : s.Inv) (hended : s.ended = none)
    (hc : ∀ addr, s.phases c ≠ .connecting addr) :
    ∃ d, ∀ ans, s.step (d, ans) ≠ s := by
  cases hmutex : s.mutex with
  | some d => exact ⟨d, h.holder_moves hended hmutex⟩
  | none =>
    refine ⟨c, fun ans => ?_⟩
    have hok := h.phases c
    have hlive : ¬ s.ended.isSome := by simp [hended]
    rw [Addresses.step, if_neg hlive]
    cases hphase : s.phases c with
    | locking =>
      simp only [if_pos hmutex]
      exact ne_of_phase (c := c) rfl (by simp [hphase])
    | creating =>
      rw [hphase] at hok
      obtain ⟨addr, haddr⟩ := Option.ne_none_iff_exists'.mp hok.2
      simp only [haddr]
      exact ne_of_phase rfl (by simp [hphase])
    | connecting addr => exact absurd hphase (hc addr)
    | testing | resolving | unlocking =>
      rw [hphase] at hok
      exact absurd (hmutex.symm.trans hok.1) (by simp)

/-- In every interleaving of the processors `getaddrinfo` is called at most once,
at most one of them is between the lock and the unlock, and none is behind
`init_addr` while another one looks the address up.  Nobody reads a null pointer,
and all of them copy the same address.  As long as the process has not ended and
one of them has not copied it, one of them can go on. -/
theorem address_resolved_once (sched : List (Fin k × Option A)) :
    let s : Addresses A k := run Addresses.step (.start A k) sched
    s.lookups ≤ 1 ∧ s.ended ≠ some .fault ∧
      (∀ c d, (s.phases c).Inside → (s.phases d).Inside → c = d) ∧
      (∀ c d, s.phases c = .resolving → ¬ (s.phases d).Behind) ∧
      (∀ c addr, s.phases c = .connecting addr → s.remoteAddr = some addr) ∧
      (s.ended = none → (∃ c, ∀ addr, s.phases c ≠ .connecting addr) →
        ∃ d, ∀ ans, s.step (d, ans) ≠ s) := by
  intro s
  have hinv : s.Inv := run_invariant (fun _ a h => h.step a) inv_start sched
  refine ⟨hinv.lookups_le, hinv.no_fault, ?_, ?_, ?_, ?_⟩
  · intro c d hc hd
    exact Option.some.inj ((hinv.inside hc).symm.trans (hinv.inside hd))
  · intro c d hc hd
    exact hinv.behind hd (hinv.phaseOk hc).2.1
  · intro c addr hc
    exact (hinv.phaseOk hc).2
  · rintro hended ⟨c, hc⟩
    exact hinv.moves hended hc

end Addresses

end Ride
