import Ride.Processor.Fixed
import Ride.Processor.Safety

/-!
# Who owns a descriptor and a path

The slots in their open phase and in their read phase own their paths, and the
slots in their read phase own the descriptors of their files.  Nothing else does:
no descriptor and no path is left over when a task ends, and none is given back
twice.

`Sys.Inv` knows what the slots own.  `Sys.NoLeaks` is the converse, that
everything is owned by a slot.  A descriptor that the kernel has handed out
belongs to its slot already, in the completion that is on its way.
`Sys.Settles` is what a step gives back, and `descriptors_and_paths_owned` is
the result about all runs.
-/

namespace Ride

open CodeLib CodeLib.Machine

namespace Sys

variable {B : Blake3} {n : Nat} {i j : Fin n} {s t : Sys B n}

/-! ## The phases of a slot -/

/-- The slot is in flight, and its request calls back `callback`. -/
def InPhase (s : Sys B n) (callback : Callback) (i : Fin n) : Prop :=
  (s.reqs i).inFlight = true ∧ (s.reqs i).req.callback = some callback

instance (s : Sys B n) (callback : Callback) :
    DecidablePred (s.InPhase callback) :=
  fun _ => inferInstanceAs (Decidable (_ ∧ _))

/-- The slot opens its file. -/
abbrev OpenPhase (s : Sys B n) : Fin n → Prop := s.InPhase .onFileOpen

/-- The slot reads its file. -/
abbrev ReadPhase (s : Sys B n) : Fin n → Prop := s.InPhase .onFileRead

/-- The slot works on a file. -/
def OnFile (s : Sys B n) (i : Fin n) : Prop := s.OpenPhase i ∨ s.ReadPhase i

theorem InPhase.callback_eq {c c' : Callback} (h : s.InPhase c i)
    (h' : s.InPhase c' i) : c = c' :=
  Option.some.inj (h.2.symm.trans h'.2)

/-- A slot that works on a file is in one of the two stages for files. -/
theorem Inv.opensFile (h : Inv none s) (hphase : s.OpenPhase i) :
    ∃ path id, s.OpensFile i path id := by
  obtain ⟨stage, hfits, -⟩ := (h.slots i (by simp)).busy hphase.1
  cases stage with
  | opening path id => exact ⟨path, id, hfits⟩
  | reading path id file off =>
    have hfits : s.ReadsFile i path id file off := hfits
    exact absurd (hphase.2.symm.trans hfits.callback) (by simp)
  | updating =>
    have hfits : s.UpdatesTimer i := hfits
    exact absurd (hphase.2.symm.trans hfits.callback) (by simp)

theorem Inv.readsFile (h : Inv none s) (hphase : s.ReadPhase i) :
    ∃ path id file off, s.ReadsFile i path id file off := by
  obtain ⟨stage, hfits, -⟩ := (h.slots i (by simp)).busy hphase.1
  cases stage with
  | opening path id =>
    have hfits : s.OpensFile i path id := hfits
    exact absurd (hphase.2.symm.trans hfits.callback) (by simp)
  | reading path id file off => exact ⟨path, id, file, off, hfits⟩
  | updating =>
    have hfits : s.UpdatesTimer i := hfits
    exact absurd (hphase.2.symm.trans hfits.callback) (by simp)

/-- A slot that works on a file has a path, which is alive and its own. -/
theorem Inv.string (h : Inv none s) (hfile : s.OnFile i) :
    ∃ path id, (s.reqs i).data = some id ∧ s.strings id = some (path, i) := by
  rcases hfile with hopen | hread
  · obtain ⟨path, id, hfits⟩ := h.opensFile hopen
    exact ⟨path, id, hfits.data, hfits.string⟩
  · obtain ⟨path, id, file, off, hfits⟩ := h.readsFile hread
    exact ⟨path, id, hfits.data, hfits.string⟩

/-! ## Everything is owned -/

/-- A completion that was not reaped brings the descriptor to the slot. -/
def Brings (s : Sys B n) (i : Fin n) (fd : Int) : Prop :=
  ∃ c ∈ s.cq.unreaped, c.userData.req = .slot i ∧ c.res = fd

/-- The slot has the descriptor in its request, or is about to get it. -/
def HasFd (s : Sys B n) (i : Fin n) (fd : Int) : Prop :=
  (s.ReadPhase i ∧ (s.reqs i).req.fd = fd) ∨ (s.OpenPhase i ∧ s.Brings i fd)

/-- Every open file and every path on the heap has a slot. -/
structure NoLeaks (s : Sys B n) : Prop where
  fds : ∀ fd file r, s.fds fd = some (.file file r) →
    0 ≤ fd ∧ ∃ i, r = .slot i ∧ s.HasFd i fd
  strings : ∀ id path i, s.strings id = some (path, i) →
    s.OnFile i ∧ (s.reqs i).data = some id

theorem HasFd.keeps {fd : Int} (h : s.HasFd j fd)
    (hslot : t.reqs j = s.reqs j)
    (hcq : s.Brings j fd → t.Brings j fd) : t.HasFd j fd := by
  unfold HasFd OpenPhase ReadPhase InPhase at h ⊢
  rw [hslot]
  exact h.imp_right fun hopen => ⟨hopen.1, hcq hopen.2⟩

theorem OnFile.keeps (h : s.OnFile j) (hslot : t.reqs j = s.reqs j) :
    t.OnFile j := by
  unfold OnFile OpenPhase ReadPhase InPhase at h ⊢
  rw [hslot]
  exact h

/-- A step that changes one slot has to look after what belonged to that
slot. -/
theorem NoLeaks.of_slot (h : s.NoLeaks) (i : Fin n)
    (hslots : ∀ j, j ≠ i → t.reqs j = s.reqs j)
    (hbrings : ∀ j fd, j ≠ i → s.Brings j fd → t.Brings j fd)
    (hfds : ∀ fd file r, t.fds fd = some (.file file r) →
      s.fds fd = some (.file file r))
    (hstrings : ∀ id path j, j ≠ i → t.strings id = some (path, j) →
      s.strings id = some (path, j))
    (hfd : ∀ fd file, 0 ≤ fd → t.fds fd = some (.file file (.slot i)) →
      s.HasFd i fd → t.HasFd i fd)
    (hstring : ∀ id path, t.strings id = some (path, i) →
      t.OnFile i ∧ (t.reqs i).data = some id) : t.NoLeaks := by
  refine ⟨?_, ?_⟩
  · intro fd file r hopen
    obtain ⟨hpos, j, rfl, hhas⟩ := h.fds fd file r (hfds fd file r hopen)
    refine ⟨hpos, j, rfl, ?_⟩
    by_cases hj : j = i
    · subst hj
      exact hfd fd file hpos hopen hhas
    · exact hhas.keeps (hslots j hj) (hbrings j fd hj)
  · intro id path j halive
    by_cases hj : j = i
    · subst hj
      exact hstring id path halive
    · obtain ⟨hfile, hdata⟩ := h.strings id path j (hstrings id path j hj halive)
      exact ⟨hfile.keeps (hslots j hj), by rw [hslots j hj]; exact hdata⟩

/-- A step that leaves the slots alone has to look after the completions. -/
theorem NoLeaks.of_same (h : s.NoLeaks) (hslots : t.reqs = s.reqs)
    (hbrings : ∀ j fd, s.Brings j fd → t.Brings j fd)
    (hfds : t.fds = s.fds) (hstrings : t.strings = s.strings) :
    t.NoLeaks := by
  refine ⟨?_, ?_⟩
  · intro fd file r hopen
    rw [hfds] at hopen
    obtain ⟨hpos, j, hr, hhas⟩ := h.fds fd file r hopen
    exact ⟨hpos, j, hr, hhas.keeps (by rw [hslots]) (hbrings j fd)⟩
  · intro id path j halive
    rw [hstrings] at halive
    obtain ⟨hfile, hdata⟩ := h.strings id path j halive
    exact ⟨hfile.keeps (by rw [hslots]), by rw [hslots]; exact hdata⟩

/-! ## The kernel -/

theorem Brings.post {fd : Int} (h : s.Brings j fd) (hwf : s.cq.Wf)
    {cqe : Cqe (Name n)} (hcq : t.cq = s.cq.post cqe) : t.Brings j fd := by
  obtain ⟨c, hc, hrest⟩ := h
  refine ⟨c, ?_, hrest⟩
  rw [hcq, Reaper.unreaped_post hwf]
  exact List.mem_append_left _ hc

/-- What opens a file is on its way for a slot in its open phase. -/
theorem FixedOps.openPhase (h : s.FixedOps) (hinv : Inv none s) {k : Nat}
    {name : Name n} {path : Bytes}
    (hop : s.ops[k]? = some ⟨name, .openat (some path)⟩) :
    ∃ i, name.req = .slot i ∧ s.OpenPhase i := by
  have hmem : Pending.op ⟨name, .openat (some path)⟩ ∈ s.transit := by
    apply mem_transit_of_inRings
    rw [inRings, ops_eq_cons hop]
    simp
  cases hr : name.req with
  | slot i =>
    have hfor : (Pending.op ⟨name, .openat (some path)⟩).For (.slot i) :=
      congrArg some hr
    obtain ⟨hfly, stage, hfits, -, hc⟩ :=
      (hinv.slots i (by simp)).of_mem hmem hfor
    cases stage with
    | opening path' id =>
      have hfits : s.OpensFile i path' id := hfits
      exact ⟨i, rfl, hfly, hfits.callback⟩
    | reading path' id file off =>
      obtain ⟨filled, heq, -⟩ := hc
      exact absurd (congrArg Op.kind heq) (by simp)
    | updating => exact absurd (congrArg Op.kind hc) (by simp)
  | _ => exact absurd trivial (h.transit _ hmem name.req rfl (by rw [hr]; rfl))

theorem NoLeaks.kernel (h : s.NoLeaks) (hinv : Inv none s)
    (hfixed : s.FixedOps) {act : KernelAct n} (hto : KernelTo s act t) :
    t.NoLeaks := by
  cases hto with
  | @opened k name path fd file flags hop hpos hfree hroom =>
    obtain ⟨i, hi, hphase⟩ := hfixed.openPhase hinv hop
    refine ⟨?_, h.strings⟩
    intro fd' file' r hopen
    by_cases hfd : fd' = fd
    · subst hfd
      simp only [Function.update_self, Option.some.injEq, Fd.file.injEq] at hopen
      refine ⟨hpos, i, hopen.2.symm.trans hi, Or.inr ⟨hphase, ?_⟩⟩
      refine ⟨⟨name, fd', flags⟩, ?_, hi, rfl⟩
      simp [Reaper.unreaped_post hinv.cq, if_pos hroom]
    · simp only [Function.update_of_ne hfd] at hopen
      obtain ⟨hpos', j, hr, hhas⟩ := h.fds fd' file' r hopen
      exact ⟨hpos', j, hr, hhas.keeps rfl fun hb => hb.post hinv.cq rfl⟩
  | notified hop hroom =>
    exact h.of_same rfl (fun j fd hb => hb.post hinv.cq rfl) rfl rfl
  | completed hop hallows hroom =>
    exact h.of_same rfl (fun j fd hb => hb.post hinv.cq rfl) rfl rfl
  | _ => exact h.of_same rfl (fun _ _ hb => hb) rfl rfl

/-! ## The callbacks -/

theorem inPhase_deliver {cqe : Cqe (Name n)} {c : Callback} :
    (s.deliver cqe).InPhase c j ↔ s.InPhase c j := by
  obtain ⟨res, flags, hj⟩ := s.deliver_reqs_at cqe j
  unfold InPhase
  rw [hj]

/-- A completion of another request stays in the ring. -/
theorem Brings.deliver {fd : Int} (h : s.Brings j fd) (hwf : s.cq.Wf)
    {cqe : Cqe (Name n)} (hcur : s.cq.current = some cqe)
    (hother : cqe.userData.req ≠ .slot j) : (s.deliver cqe).Brings j fd := by
  obtain ⟨c, hc, hj, hres⟩ := h
  rw [Reaper.unreaped_cons hwf hcur, List.mem_cons] at hc
  rcases hc with rfl | hc
  · exact absurd hj hother
  · refine ⟨c, ?_, hj, hres⟩
    rw [(s.deliver_reaped cqe).cq]
    exact hc

/-- A slot that a callback holds is brought nothing but the result that the
callback finds. -/
theorem Brings.result {fd : Int} (h : s.Brings i fd) (hwf : s.cq.Wf)
    {cqe : Cqe (Name n)} (hcur : s.cq.current = some cqe) {stage : Stage}
    (hslot : cqe.userData.req = .slot i)
    (hheld : (s.deliver cqe).Held i stage) :
    ((s.deliver cqe).reqs i).req.result = fd := by
  obtain ⟨c, hc, hi, rfl⟩ := h
  rw [Reaper.unreaped_cons hwf hcur, List.mem_cons] at hc
  rcases hc with rfl | hc
  · simp [Sys.deliver_slot hslot, withResult, setSlot]
  · have hmem : Pending.cqe c ∈ (s.deliver cqe).outstanding (.slot i) := by
      refine mem_outstanding.mpr ⟨mem_transit_of_inRings ?_, congrArg some hi⟩
      rw [inRings, (s.deliver_reaped cqe).cq]
      exact Multiset.mem_add.mpr
        (Or.inr (Multiset.mem_coe.mpr (List.mem_map_of_mem hc)))
    rw [hheld.outstanding] at hmem
    exact absurd hmem (Multiset.notMem_zero _)

theorem HasFd.of_open {fd : Int} (h : s.HasFd i fd) (hphase : s.OpenPhase i) :
    s.Brings i fd := by
  rcases h with ⟨hread, -⟩ | ⟨-, hbrings⟩
  · exact absurd (hphase.callback_eq hread) (by decide)
  · exact hbrings

theorem HasFd.of_read {fd : Int} (h : s.HasFd i fd) (hphase : s.ReadPhase i) :
    (s.reqs i).req.fd = fd := by
  rcases h with ⟨-, hfd⟩ | ⟨hopen, -⟩
  · exact hfd
  · exact absurd (hphase.callback_eq hopen) (by decide)

/-- A slot in another phase has neither a descriptor nor a path. -/
theorem InPhase.not_onFile (h : s.InPhase .onSocketTimeoutUpdate i) :
    ¬ s.OnFile i := by
  rintro (hopen | hread)
  · exact absurd (h.callback_eq hopen) (by decide)
  · exact absurd (h.callback_eq hread) (by decide)

theorem HasFd.onFile {fd : Int} (h : s.HasFd i fd) : s.OnFile i :=
  (h.imp And.left And.left).symm

section Slot

variable {cqe : Cqe (Name n)} {stage : Stage}

/-- The callback of the slot `i` leaves the other slots what they have. -/
theorem deliver_others (hslot : cqe.userData.req = .slot i)
    (hj : j ≠ i) : (s.deliver cqe).reqs j = s.reqs j := by
  rw [Sys.deliver_slot hslot]
  exact Function.update_of_ne hj ..

/-- A slot is released, and nothing that it had is left. -/
theorem NoLeaks.freed (h : s.NoLeaks) (hwf : s.cq.Wf)
    (hcur : s.cq.current = some cqe) (hslot : cqe.userData.req = .slot i)
    {slot : Slot B.State n} {strings : Nat → Option (Bytes × Fin n)}
    {fds : Int → Option (Fd n)} {records : List Record}
    {errors : List (Option Nat)}
    (hfds : ∀ fd x, fds fd = some x → s.fds fd = some x)
    (hstrings : ∀ id x, strings id = some x → s.strings id = some x)
    (hfd : ∀ fd file, 0 ≤ fd → fds fd = some (.file file (.slot i)) →
      ¬ s.HasFd i fd)
    (hstring : ∀ id path, strings id = some (path, i) → s.OnFile i →
      (s.reqs i).data ≠ some id) :
    ((s.deliver cqe).freed i slot strings fds records errors).NoLeaks := by
  refine h.of_slot i ?_ ?_ (fun fd file r => hfds fd _)
    (fun id path j _ => hstrings id _) ?_ ?_
  · intro j hj
    exact (Function.update_of_ne hj ..).trans (deliver_others hslot hj)
  · intro j fd hj hb
    refine hb.deliver hwf hcur ?_
    rw [hslot]
    exact fun heq => hj (ReqPtr.slot.inj heq).symm
  · intro fd file hpos hopen hhas
    exact absurd hhas (hfd fd file hpos hopen)
  · intro id path halive
    obtain ⟨hfile, hdata⟩ := h.strings id path i (hstrings id _ halive)
    exact absurd hdata (hstring id path halive hfile)

/-- A slot goes on, and keeps what it had. -/
theorem NoLeaks.resumed (h : s.NoLeaks) (hwf : s.cq.Wf)
    (hcur : s.cq.current = some cqe) (hslot : cqe.userData.req = .slot i)
    {slot : Slot B.State n} (hfly : slot.inFlight = true)
    (hcall : slot.req.callback = some .onFileRead)
    (hdata : slot.data = (s.reqs i).data)
    (hfd : ∀ fd, s.HasFd i fd → slot.req.fd = fd) :
    ((s.deliver cqe).resumed i slot).NoLeaks := by
  have hfds := (s.deliver_reaped cqe).fds
  have hstrings := (s.deliver_reaped cqe).strings
  have hself : ((s.deliver cqe).resumed i slot).reqs i = slot :=
    Function.update_self ..
  have hread : ((s.deliver cqe).resumed i slot).ReadPhase i := by
    refine ⟨?_, ?_⟩ <;> rw [hself]
    · exact hfly
    · exact hcall
  refine h.of_slot i ?_ ?_ ?_ ?_ ?_ ?_
  · intro j hj
    exact (Function.update_of_ne hj ..).trans (deliver_others hslot hj)
  · intro j fd hj hb
    refine hb.deliver hwf hcur ?_
    rw [hslot]
    exact fun heq => hj (ReqPtr.slot.inj heq).symm
  · intro fd file r hopen
    rw [← hfds]
    exact hopen
  · intro id path j _ halive
    rw [← hstrings]
    exact halive
  · intro fd file _ _ hhas
    refine Or.inl ⟨hread, ?_⟩
    rw [hself]
    exact hfd fd hhas
  · intro id path halive
    refine ⟨Or.inr hread, ?_⟩
    rw [hself, hdata]
    refine (h.strings id path i ?_).2
    rw [← hstrings]
    exact halive

theorem update_none_of_some {α β : Type*} [DecidableEq α] {f : α → Option β}
    {a b : α} {x : β} (h : Function.update f a none b = some x) :
    b ≠ a ∧ f b = some x := by
  by_cases hb : b = a
  · subst hb
    rw [Function.update_self] at h
    exact absurd h (by simp)
  · rw [Function.update_of_ne hb] at h
    exact ⟨hb, h⟩

theorem NoLeaks.slot (h : s.NoLeaks) (hwf : s.cq.Wf)
    (hcur : s.cq.current = some cqe) (hslot : cqe.userData.req = .slot i)
    (hheld : (s.deliver cqe).Held i stage) {ans : Answers}
    (hout : SlotOutcome (s.deliver cqe) i ans t) (hrun : t.halted = none) :
    t.NoLeaks := by
  have hfds := (s.deliver_reaped cqe).fds
  have hstrings := (s.deliver_reaped cqe).strings
  obtain ⟨res, flags, hi⟩ := s.deliver_reqs_at cqe i
  have hdata : ((s.deliver cqe).reqs i).data = (s.reqs i).data := by rw [hi]
  have hfd : ((s.deliver cqe).reqs i).req.fd = (s.reqs i).req.fd := by rw [hi]
  have hphase : ∀ c, ((s.deliver cqe).reqs i).req.callback = some c →
      s.InPhase c i := fun c hc => inPhase_deliver.mp ⟨hheld.inFlight, hc⟩
  -- the path is freed with the slot
  have hpath : ∀ id, ((s.deliver cqe).reqs i).data = some id →
      ∀ id' path, Function.update (s.deliver cqe).strings id none id' =
        some (path, i) → s.OnFile i → (s.reqs i).data ≠ some id' := by
    intro id hid id' path halive _ hid'
    rw [hdata, hid', Option.some.injEq] at hid
    exact (update_none_of_some halive).1 hid
  have hold : ∀ id id' x, Function.update (s.deliver cqe).strings id none id' =
      some x → s.strings id' = some x := by
    intro id id' x hx
    rw [← hstrings]
    exact (update_none_of_some hx).2
  have hclosed : ∀ fd' fd x, Function.update (s.deliver cqe).fds fd' none fd =
      some x → s.fds fd = some x := by
    intro fd' fd x hx
    rw [← hfds]
    exact (update_none_of_some hx).2
  have hread : s.ReadPhase i → ∀ fd file, 0 ≤ fd →
      Function.update (s.deliver cqe).fds ((s.deliver cqe).reqs i).req.fd none
        fd = some (.file file (.slot i)) → ¬ s.HasFd i fd := by
    intro hp fd file _ hopen hhas
    apply (update_none_of_some hopen).1
    rw [hfd]
    exact (hhas.of_read hp).symm
  cases hout with
  | openFailed hfits hneg =>
    refine h.freed hwf hcur hslot (fun fd x hx => hfds ▸ hx) (hold _) ?_
      (hpath _ hfits.data)
    intro fd file hpos _ hhas
    have hbrings := hhas.of_open (hphase _ hfits.callback)
    rw [hbrings.result hwf hcur hslot hheld] at hneg
    omega
  | opened hfits hopen =>
    refine h.resumed hwf hcur hslot hheld.inFlight rfl hdata ?_
    intro fd hhas
    exact (hhas.of_open (hphase _ hfits.callback)).result hwf hcur hslot hheld
  | readFailed hfits hneg =>
    exact h.freed hwf hcur hslot (hclosed _) (hold _)
      (hread (hphase _ hfits.callback)) (hpath _ hfits.data)
  | readMore hfits hres hpos hdel =>
    refine h.resumed hwf hcur hslot hheld.inFlight hfits.callback hdata ?_
    intro fd hhas
    exact hfd.trans (hhas.of_read (hphase _ hfits.callback))
  | printed hfits hres hdel hverify =>
    exact h.freed hwf hcur hslot (hclosed _) (hold _)
      (hread (hphase _ hfits.callback)) (hpath _ hfits.data)
  | verifyFailed => exact absurd hrun (by simp [Sys.halt])
  | updated hfits =>
    have hno := (hphase _ hfits.callback).not_onFile
    refine h.freed hwf hcur hslot (fun fd x hx => hfds ▸ hx)
      (fun id x hx => hstrings ▸ hx) ?_ ?_
    · intro fd file _ _ hhas
      exact hno hhas.onFile
    · intro id path _ hfile
      exact absurd hfile hno

end Slot

/-- A free slot has nothing, so it can be handed out. -/
theorem NoLeaks.prepared (h : s.NoLeaks)
    (hfree : (s.reqs i).inFlight = false) {slot : Slot B.State n}
    {ticket : Option Nat} {events : List Event}
    {strings : Nat → Option (Bytes × Fin n)} {nextString : Nat}
    {expiry : Int × Int} {rest : List (Cmd n)}
    (hstrings : ∀ id path j, strings id = some (path, j) →
      s.strings id = some (path, j) ∨ (j = i ∧ slot.inFlight = true ∧
        slot.req.callback = some .onFileOpen ∧ slot.data = some id)) :
    (s.prepared i slot ticket events strings nextString expiry
      rest).NoLeaks := by
  have hidle : ¬ s.OnFile i := by
    rintro (hopen | hread)
    · exact absurd (hfree.symm.trans hopen.1) (by decide)
    · exact absurd (hfree.symm.trans hread.1) (by decide)
  have hself : (s.prepared i slot ticket events strings nextString expiry
      rest).reqs i = slot := Function.update_self ..
  refine h.of_slot i (fun j hj => Function.update_of_ne hj ..)
    (fun _ _ _ hb => hb) (fun _ _ _ hopen => hopen) ?_ ?_ ?_
  · intro id path j hj halive
    exact (hstrings id path j halive).resolve_right fun hnew => hj hnew.1
  · intro fd file _ _ hhas
    exact absurd hhas.onFile hidle
  · intro id path halive
    rcases hstrings id path i halive with hold | ⟨-, hfly, hcall, hdata⟩
    · exact absurd (h.strings id path i hold).1 hidle
    · unfold OnFile OpenPhase InPhase
      rw [hself]
      exact ⟨Or.inl ⟨hfly, hcall⟩, hdata⟩

theorem NoLeaks.fixed (h : s.NoLeaks) (hinv : Inv none s) {r : ReqPtr n}
    {ans : Answers} (hout : FixedOutcome s r ans t) (hrun : t.halted = none) :
    t.NoLeaks := by
  cases hout with
  | ended hend => exact absurd hrun hend.halted
  | @taken i event events ticket rest hhead hnew hrest =>
    have hlist := hinv.list
    rw [hhead] at hlist
    refine h.prepared hlist.head_free ?_
    intro id path j halive
    by_cases hid : id = s.nextString
    · subst hid
      rw [Function.update_self, Option.some.injEq, Prod.mk.injEq] at halive
      exact Or.inr ⟨halive.2.symm, rfl, rfl, rfl⟩
    · rw [Function.update_of_ne hid] at halive
      exact Or.inl halive
  | _ => exact h.of_same rfl (fun _ _ hb => hb) rfl rfl

theorem NoLeaks.flush (h : s.NoLeaks) (hinv : Inv none s) {ans : Answers}
    (hout : FlushOutcome s ans t) (hrun : t.halted = none) : t.NoLeaks := by
  cases hout with
  | ended hend => exact absurd hrun hend.halted
  | armed => exact h.of_same rfl (fun _ _ hb => hb) rfl rfl
  | updating htimer hhead =>
    have hlist := hinv.list
    rw [hhead] at hlist
    exact h.prepared hlist.head_free fun _ _ _ halive => Or.inl halive

theorem NoLeaks.dispatched (h : s.NoLeaks) (hinv : Inv none s) {ans : Answers}
    (hout : Dispatched s ans t) (hrun : t.halted = none) : t.NoLeaks := by
  cases hout with
  | idle => exact h
  | slot cqe hcur hreq hheld hout =>
    exact h.slot hinv.cq hcur hreq hheld hout hrun
  | fixed cqe hcur hfixed hinv' hidle hout =>
    refine NoLeaks.fixed ?_ hinv' hout hrun
    have hdel := s.deliver_reaped cqe
    refine h.of_same (deliver_reqs hfixed) ?_ hdel.fds hdel.strings
    intro j fd hb
    refine hb.deliver hinv.cq hcur ?_
    intro heq
    rw [heq] at hfixed
    exact absurd hfixed (by simp [ReqPtr.container])

theorem NoLeaks.step (h : s.NoLeaks) (hinv : Inv none s) (hfixed : s.FixedOps)
    (hlive : s.halted = none) (a : SysStep n)
    (hrun : (s.step a).halted = none) : (s.step a).NoLeaks := by
  have heff := hinv.effect hlive a
  generalize s.step a = t at heff hrun ⊢
  cases heff with
  | stutter => exact h
  | idle => exact h
  | kernel act hto => exact h.kernel hinv hfixed hto
  | reaper _ cq hwf hsame =>
    refine h.of_same rfl ?_ rfl rfl
    rintro j fd ⟨c, hc, hrest⟩
    exact ⟨c, by rw [hsame]; exact hc, hrest⟩
  | dispatch ans htodo hout => exact h.dispatched hinv hout hrun
  | submit => exact h.of_same rfl (fun _ _ hb => hb) rfl rfl
  | flush ans htodo hout =>
    refine NoLeaks.flush ?_ (hinv.flushEgress htodo) hout hrun
    exact h.of_same rfl (fun _ _ hb => hb) rfl rfl

theorem noLeaks_processorRun [NeZero n] (boot : Boot n) :
    (processorRun B boot).NoLeaks := by
  refine ⟨?_, ?_⟩
  · intro fd file r hopen
    simp only [processorRun] at hopen
    split_ifs at hopen
    exact absurd hopen (by simp)
  · intro id path i halive
    exact absurd halive (by simp [processorRun])

/-! ## What a step gives back -/

/-- The step from `s` to `t` releases the slot. -/
def Releases (s t : Sys B n) (i : Fin n) : Prop :=
  (s.reqs i).inFlight = true ∧ (t.reqs i).inFlight = false

/-- From `s` to `t`, the descriptors that were closed are those of the slots that
were released in their read phase, and the paths that were freed are those of the
slots that were released while they worked on a file.  Everything else that was
open or alive is as it was. -/
structure Settles (s t : Sys B n) : Prop where
  closed : ∀ fd file r, s.fds fd = some (.file file r) →
    (t.fds fd = none ↔
      ∃ i, s.ReadPhase i ∧ (s.reqs i).req.fd = fd ∧ Releases s t i) ∧
    (t.fds fd ≠ none → t.fds fd = s.fds fd)
  freed : ∀ id x, s.strings id = some x →
    (t.strings id = none ↔
      ∃ i, s.OnFile i ∧ (s.reqs i).data = some id ∧ Releases s t i) ∧
    (t.strings id ≠ none → t.strings id = s.strings id)

/-- A step that releases no slot gives nothing back. -/
theorem Settles.of_keeps
    (hfly : ∀ i, (s.reqs i).inFlight = true → (t.reqs i).inFlight = true)
    (hfds : ∀ fd file r, s.fds fd = some (.file file r) → t.fds fd = s.fds fd)
    (hstrings : ∀ id x, s.strings id = some x → t.strings id = s.strings id) :
    Settles s t := by
  have hno : ∀ i, ¬ Releases s t i := by
    rintro i ⟨hbusy, hfree⟩
    exact absurd (hfree.symm.trans (hfly i hbusy)) (by decide)
  refine ⟨?_, ?_⟩
  · intro fd file r hopen
    have hsame := hfds fd file r hopen
    refine ⟨?_, fun _ => hsame⟩
    rw [hsame, hopen]
    refine iff_of_false (by simp) ?_
    rintro ⟨i, -, -, hrel⟩
    exact hno i hrel
  · intro id x halive
    have hsame := hstrings id x halive
    refine ⟨?_, fun _ => hsame⟩
    rw [hsame, halive]
    refine iff_of_false (by simp) ?_
    rintro ⟨i, -, -, hrel⟩
    exact hno i hrel

/-- A step that releases one slot gives back what this slot has. -/
theorem Settles.of_release (hrel : Releases s t i)
    (hfly : ∀ j, j ≠ i → (t.reqs j).inFlight = (s.reqs j).inFlight)
    (hfds : ∀ fd, (s.ReadPhase i ∧ (s.reqs i).req.fd = fd ∧ t.fds fd = none) ∨
      (¬ (s.ReadPhase i ∧ (s.reqs i).req.fd = fd) ∧ t.fds fd = s.fds fd))
    (hstrings : ∀ id,
      (s.OnFile i ∧ (s.reqs i).data = some id ∧ t.strings id = none) ∨
      (¬ (s.OnFile i ∧ (s.reqs i).data = some id) ∧
        t.strings id = s.strings id)) : Settles s t := by
  have honly : ∀ j, Releases s t j → j = i := by
    rintro j ⟨hbusy, hfree⟩
    by_contra hj
    rw [hfly j hj, hbusy] at hfree
    exact absurd hfree (by decide)
  refine ⟨?_, ?_⟩
  · intro fd file r hopen
    rcases hfds fd with ⟨hread, hfd, hnone⟩ | ⟨hnot, hsame⟩
    · exact ⟨iff_of_true hnone ⟨i, hread, hfd, hrel⟩, fun hno =>
        absurd hnone hno⟩
    · refine ⟨?_, fun _ => hsame⟩
      rw [hsame, hopen]
      refine iff_of_false (by simp) ?_
      rintro ⟨j, hread, hfd, hj⟩
      obtain rfl := honly j hj
      exact hnot ⟨hread, hfd⟩
  · intro id x halive
    rcases hstrings id with ⟨hfile, hdata, hnone⟩ | ⟨hnot, hsame⟩
    · exact ⟨iff_of_true hnone ⟨i, hfile, hdata, hrel⟩, fun hno =>
        absurd hnone hno⟩
    · refine ⟨?_, fun _ => hsame⟩
      rw [hsame, halive]
      refine iff_of_false (by simp) ?_
      rintro ⟨j, hfile, hdata, hj⟩
      obtain rfl := honly j hj
      exact hnot ⟨hfile, hdata⟩

/-- The result in a request does not matter for who owns what. -/
theorem Settles.of_deliver {cqe : Cqe (Name n)}
    (h : Settles (s.deliver cqe) t) : Settles s t := by
  have hdel := s.deliver_reaped cqe
  have hslot : ∀ i, ((s.deliver cqe).reqs i).req.fd = (s.reqs i).req.fd ∧
      ((s.deliver cqe).reqs i).data = (s.reqs i).data ∧
      ((s.deliver cqe).reqs i).inFlight = (s.reqs i).inFlight := by
    intro i
    obtain ⟨res, flags, hi⟩ := s.deliver_reqs_at cqe i
    rw [hi]
    exact ⟨rfl, rfl, rfl⟩
  obtain ⟨hclosed, hfreed⟩ := h
  unfold Releases OnFile OpenPhase at hfreed
  unfold Releases at hclosed
  simp only [hdel.fds, hslot, inPhase_deliver] at hclosed
  simp only [hdel.strings, hslot, inPhase_deliver] at hfreed
  exact ⟨hclosed, hfreed⟩

section Freed

variable {strings : Nat → Option (Bytes × Fin n)} {fds : Int → Option (Fd n)}
  {records : List Record} {errors : List (Option Nat)} {hasher : B.State}
  {data2 : Int}

theorem settles_freed (hbusy : (s.reqs i).inFlight = true)
    (hfds : ∀ fd, (s.ReadPhase i ∧ (s.reqs i).req.fd = fd ∧ fds fd = none) ∨
      (¬ (s.ReadPhase i ∧ (s.reqs i).req.fd = fd) ∧ fds fd = s.fds fd))
    (hstrings : ∀ id,
      (s.OnFile i ∧ (s.reqs i).data = some id ∧ strings id = none) ∨
      (¬ (s.OnFile i ∧ (s.reqs i).data = some id) ∧
        strings id = s.strings id)) :
    Settles s (s.freed i (s.releasedSlot i hasher data2) strings fds records
      errors) := by
  refine Settles.of_release ⟨hbusy, ?_⟩ ?_ hfds hstrings
  · simp [Sys.freed, releasedSlot]
  · intro j hj
    simp [Sys.freed, Function.update_of_ne hj]

/-- A slot that works on a file gives back its path. -/
theorem freed_path {id : Nat} (hfile : s.OnFile i)
    (hdata : (s.reqs i).data = some id) (id' : Nat) :
    (s.OnFile i ∧ (s.reqs i).data = some id' ∧
        Function.update s.strings id none id' = none) ∨
      (¬ (s.OnFile i ∧ (s.reqs i).data = some id') ∧
        Function.update s.strings id none id' = s.strings id') := by
  by_cases hid : id' = id
  · subst hid
    exact Or.inl ⟨hfile, hdata, Function.update_self ..⟩
  · refine Or.inr ⟨?_, Function.update_of_ne hid ..⟩
    rintro ⟨-, hdata'⟩
    exact hid (Option.some.inj (hdata'.symm.trans hdata))

/-- A slot in its read phase gives back its descriptor. -/
theorem closed_fd (hread : s.ReadPhase i) (fd : Int) :
    (s.ReadPhase i ∧ (s.reqs i).req.fd = fd ∧
        Function.update s.fds (s.reqs i).req.fd none fd = none) ∨
      (¬ (s.ReadPhase i ∧ (s.reqs i).req.fd = fd) ∧
        Function.update s.fds (s.reqs i).req.fd none fd = s.fds fd) := by
  by_cases hfd : fd = (s.reqs i).req.fd
  · subst hfd
    exact Or.inl ⟨hread, rfl, Function.update_self ..⟩
  · refine Or.inr ⟨?_, Function.update_of_ne hfd ..⟩
    rintro ⟨-, heq⟩
    exact hfd heq.symm

end Freed

theorem SlotOutcome.settles {stage : Stage} {ans : Answers}
    (hheld : s.Held i stage) (hout : SlotOutcome s i ans t)
    (hrun : t.halted = none) : Settles s t := by
  have hresumed : ∀ slot : Slot B.State n, slot.inFlight = true →
      Settles s (s.resumed i slot) := by
    intro slot hfly
    refine Settles.of_keeps ?_ (fun _ _ _ _ => rfl) fun _ _ _ => rfl
    intro j hj
    by_cases hji : j = i
    · subst hji
      simp [Sys.resumed, hfly]
    · simpa [Sys.resumed, Function.update_of_ne hji] using hj
  cases hout with
  | openFailed hfits hneg =>
    have hopen : s.OpenPhase i := ⟨hheld.inFlight, hfits.callback⟩
    refine settles_freed hheld.inFlight ?_ (freed_path (Or.inl hopen) hfits.data)
    intro fd
    refine Or.inr ⟨?_, rfl⟩
    rintro ⟨hread, -⟩
    exact absurd (hopen.callback_eq hread) (by decide)
  | opened => exact hresumed _ hheld.inFlight
  | readFailed hfits hneg =>
    have hread : s.ReadPhase i := ⟨hheld.inFlight, hfits.callback⟩
    exact settles_freed hheld.inFlight (closed_fd hread)
      (freed_path (Or.inr hread) hfits.data)
  | readMore => exact hresumed _ hheld.inFlight
  | printed hfits hres hdel hverify =>
    have hread : s.ReadPhase i := ⟨hheld.inFlight, hfits.callback⟩
    exact settles_freed hheld.inFlight (closed_fd hread)
      (freed_path (Or.inr hread) hfits.data)
  | verifyFailed => exact absurd hrun (by simp [Sys.halt])
  | updated hfits =>
    have hno : ¬ s.OnFile i :=
      InPhase.not_onFile ⟨hheld.inFlight, hfits.callback⟩
    refine settles_freed hheld.inFlight ?_ ?_
    · intro fd
      exact Or.inr ⟨fun hread => hno (Or.inr hread.1), rfl⟩
    · intro id
      exact Or.inr ⟨fun hfile => hno hfile.1, rfl⟩

/-- Handing out a slot gives nothing back. -/
theorem settles_prepared {slot : Slot B.State n} {ticket : Option Nat}
    {events : List Event} {strings : Nat → Option (Bytes × Fin n)}
    {nextString : Nat} {expiry : Int × Int} {rest : List (Cmd n)}
    (hfly : slot.inFlight = true)
    (hstrings : ∀ id x, s.strings id = some x → strings id = s.strings id) :
    Settles s (s.prepared i slot ticket events strings nextString expiry
      rest) := by
  refine Settles.of_keeps ?_ (fun _ _ _ _ => rfl) hstrings
  intro j hj
  by_cases hji : j = i
  · subst hji
    simp [Sys.prepared, hfly]
  · simpa [Sys.prepared, Function.update_of_ne hji] using hj

theorem FixedOutcome.settles {r : ReqPtr n} {ans : Answers} (h : Inv none s)
    (hout : FixedOutcome s r ans t) (hrun : t.halted = none) :
    Settles s t := by
  cases hout with
  | ended hend => exact absurd hrun hend.halted
  | taken event events ticket rest hhead hnew hrest =>
    refine settles_prepared rfl ?_
    intro id x halive
    refine Function.update_of_ne ?_ ..
    rintro rfl
    rw [h.fresh s.nextString (Nat.le_refl _)] at halive
    exact absurd halive (by simp)
  | _ =>
    exact Settles.of_keeps (fun _ hfly => hfly) (fun _ _ _ _ => rfl)
      fun _ _ _ => rfl

theorem Inv.settles (h : Inv none s) (hlive : s.halted = none) (a : SysStep n)
    (hrun : (s.step a).halted = none) : Settles s (s.step a) := by
  have hsame : ∀ {t : Sys B n}, t.reqs = s.reqs → t.fds = s.fds →
      t.strings = s.strings → Settles s t := by
    intro t hreqs hfds hstrings
    refine Settles.of_keeps ?_ (fun _ _ _ _ => by rw [hfds])
      fun _ _ _ => by rw [hstrings]
    intro i hfly
    rw [hreqs]
    exact hfly
  have heff := h.effect hlive a
  generalize s.step a = t at heff hrun ⊢
  cases heff with
  | stutter => exact hsame rfl rfl rfl
  | idle => exact hsame rfl rfl rfl
  | kernel act hto =>
    cases hto with
    | opened hop hfd hfree hroom =>
      refine Settles.of_keeps (fun _ hfly => hfly) ?_ fun _ _ _ => rfl
      intro fd file r hopen
      refine Function.update_of_ne ?_ ..
      rintro rfl
      rw [hfree] at hopen
      exact absurd hopen (by simp)
    | _ => exact hsame rfl rfl rfl
  | reaper => exact hsame rfl rfl rfl
  | dispatch ans htodo hout =>
    cases hout with
    | idle => exact hsame rfl rfl rfl
    | slot cqe hcur hreq hheld hout => exact (hout.settles hheld hrun).of_deliver
    | fixed cqe hcur hfixed hinv hidle hout =>
      exact (hout.settles hinv hrun).of_deliver
  | submit => exact hsame rfl rfl rfl
  | flush ans htodo hout =>
    cases hout with
    | ended hend => exact absurd hrun hend.halted
    | armed => exact hsame rfl rfl rfl
    | updating htimer hhead =>
      exact settles_prepared rfl fun _ _ _ => rfl

/-! ## The runs -/

/-- The processor has the descriptor from an open that succeeded, and has not
closed it.  The descriptor in a completion of an open that was not reaped is not
known to the processor yet. -/
def Obtained (s : Sys B n) (fd : Int) : Prop :=
  (∃ file r, s.fds fd = some (.file file r)) ∧
    ∀ i, s.OpenPhase i → ¬ s.Brings i fd

/-- The descriptors that the processor has are exactly those of the slots in
their read phase, one for each, and the paths that are alive are exactly those
of the slots that work on a file, one for each. -/
structure Owns (s : Sys B n) : Prop where
  fd_iff : ∀ fd, s.Obtained fd ↔ ∃ i, s.ReadPhase i ∧ (s.reqs i).req.fd = fd
  fd_inj : ∀ i j, s.ReadPhase i → s.ReadPhase j →
    (s.reqs i).req.fd = (s.reqs j).req.fd → i = j
  path_iff : ∀ id, s.strings id ≠ none ↔
    ∃ i, s.OnFile i ∧ (s.reqs i).data = some id
  path_some : ∀ i, s.OnFile i → (s.reqs i).data ≠ none
  path_inj : ∀ i j, s.OnFile i → s.OnFile j →
    (s.reqs i).data = (s.reqs j).data → i = j

theorem NoLeaks.owns (h : s.NoLeaks) (hinv : Inv none s) : s.Owns := by
  refine ⟨?_, ?_, ?_, ?_, ?_⟩
  · intro fd
    constructor
    · rintro ⟨⟨file, r, hopen⟩, hknown⟩
      obtain ⟨-, i, -, hread | ⟨hphase, hbrings⟩⟩ := h.fds fd file r hopen
      · exact ⟨i, hread⟩
      · exact absurd hbrings (hknown i hphase)
    · rintro ⟨i, hread, rfl⟩
      obtain ⟨path, id, file, off, hfits⟩ := hinv.readsFile hread
      refine ⟨⟨file, .slot i, hfits.fd⟩, ?_⟩
      intro j hphase hbrings
      -- the descriptor that is brought to `j` belongs to `j`
      obtain ⟨c, hc, hj, hres⟩ := hbrings
      have hmem : Pending.cqe c ∈ s.transit :=
        mem_transit_of_inRings (Multiset.mem_add.mpr
          (Or.inr (Multiset.mem_coe.mpr (List.mem_map_of_mem hc))))
      obtain ⟨-, stage, hstage, -, hcar⟩ :=
        (hinv.slots j (by simp)).of_mem hmem (congrArg some hj)
      cases stage with
      | opening path' id' =>
        rcases hcar.2 with hneg | ⟨file', hfd', -⟩
        · have hpos := (h.fds _ _ _ hfits.fd).1
          omega
        · rw [hres, hfits.fd, Option.some.injEq, Fd.file.injEq,
            ReqPtr.slot.injEq] at hfd'
          obtain rfl := hfd'.2
          exact absurd (hphase.callback_eq hread) (by decide)
      | reading path' id' file' off' =>
        have hstage : s.ReadsFile j path' id' file' off' := hstage
        exact absurd (hphase.2.symm.trans hstage.callback) (by simp)
      | updating =>
        have hstage : s.UpdatesTimer j := hstage
        exact absurd (hphase.2.symm.trans hstage.callback) (by simp)
  · intro i j hi hj heq
    obtain ⟨_, _, file, _, hfits⟩ := hinv.readsFile hi
    obtain ⟨_, _, file', _, hfits'⟩ := hinv.readsFile hj
    have hsame := hfits.fd.symm.trans (heq ▸ hfits'.fd)
    rw [Option.some.injEq, Fd.file.injEq, ReqPtr.slot.injEq] at hsame
    exact hsame.2
  · intro id
    constructor
    · intro halive
      obtain ⟨⟨path, i⟩, hstring⟩ := Option.ne_none_iff_exists'.mp halive
      exact ⟨i, h.strings id path i hstring⟩
    · rintro ⟨i, hfile, hdata⟩
      obtain ⟨path, id', hdata', hstring⟩ := hinv.string hfile
      obtain rfl : id' = id := Option.some.inj (hdata'.symm.trans hdata)
      rw [hstring]
      exact Option.some_ne_none _
  · intro i hfile
    obtain ⟨path, id, hdata, -⟩ := hinv.string hfile
    rw [hdata]
    exact Option.some_ne_none _
  · intro i j hi hj heq
    obtain ⟨path, id, hdata, hstring⟩ := hinv.string hi
    obtain ⟨path', id', hdata', hstring'⟩ := hinv.string hj
    obtain rfl : id = id' :=
      Option.some.inj (hdata.symm.trans (heq.trans hdata'))
    rw [hstring, Option.some.injEq, Prod.mk.injEq] at hstring'
    exact hstring'.2

/-- What the callbacks may rely on.  A callback for files that is about to be
called belongs to a slot that works on a file, its path is alive, and in the read
phase its descriptor is open and its own.  The same holds for the descriptor of
a read that is about to be submitted. -/
structure SafeCalls (s : Sys B n) : Prop where
  called : ∀ cqe, s.cq.current = some cqe →
    ∀ c, c = .onFileOpen ∨ c = .onFileRead →
    (s.req cqe.userData.req).callback = some c →
    ∃ i, cqe.userData.req = .slot i ∧ s.InPhase c i ∧ (s.path i).isSome
  open_fd : ∀ i, s.ReadPhase i →
    ∃ file, s.fds (s.reqs i).req.fd = some (.file file (.slot i))
  submitted : ∀ i rest, s.todo = .submit (.slot i) :: rest →
    (s.reqs i).req.opcode = .read → s.ReadPhase i

theorem Inv.safeCalls (h : Inv none s) (hfixed : s.FixedOps) :
    s.SafeCalls := by
  refine ⟨?_, ?_, ?_⟩
  · intro cqe hcur c hfile hcall
    have hmem : Pending.cqe cqe ∈ s.transit := by
      rw [deliver_transit h.cq hcur]
      exact Multiset.mem_cons_self ..
    cases hr : cqe.userData.req with
    | slot i =>
      have hfor : (Pending.cqe cqe).For (.slot i) := congrArg some hr
      have hfly := ((h.slots i (by simp)).of_mem hmem hfor).1
      rw [hr] at hcall
      have hphase : s.InPhase c i := ⟨hfly, hcall⟩
      have hon : s.OnFile i := by
        rcases hfile with rfl | rfl
        · exact Or.inl hphase
        · exact Or.inr hphase
      obtain ⟨path, id, hdata, hstring⟩ := h.string hon
      refine ⟨i, rfl, hphase, ?_⟩
      rw [path_eq hdata hstring]
      rfl
    | _ =>
      refine absurd ?_ (hfixed.reqs cqe.userData.req (by rw [hr]; rfl))
      rcases hfile with rfl | rfl
      · exact Or.inr (Or.inl hcall)
      · exact Or.inr (Or.inr hcall)
  · intro i hread
    obtain ⟨_, _, file, _, hfits⟩ := h.readsFile hread
    exact ⟨file, hfits.fd⟩
  · intro i rest htodo hopcode
    have hmem : Pending.cmd (.slot i) ∈ s.transit := by
      rw [transit, htodo]
      simp [Cmd.pending]
    obtain ⟨hfly, stage, hfits, -⟩ := (h.slots i (by simp)).of_mem hmem rfl
    refine ⟨hfly, ?_⟩
    cases stage with
    | opening path id =>
      have hfits : s.OpensFile i path id := hfits
      exact absurd (hopcode.symm.trans hfits.opcode) (by decide)
    | reading path id file off =>
      have hfits : s.ReadsFile i path id file off := hfits
      exact hfits.callback
    | updating =>
      have hfits : s.UpdatesTimer i := hfits
      exact absurd (hopcode.symm.trans hfits.opcode) (by decide)

/-- In every state of every run that has not ended, the slots own the
descriptors and the paths, the callbacks find them open and alive, and whatever
happens next, a descriptor is closed and a path is freed with its slot and at no
other time. -/
theorem descriptors_and_paths_owned [NeZero n] (boot : Boot n)
    (sched : List (SysStep n)) :
    let s := run Sys.step (processorRun B boot) sched
    s.halted = none → s.Owns ∧ s.SafeCalls ∧
      ∀ a, (s.step a).halted = none → Settles s (s.step a) := by
  intro s hlive
  have hrun : Live NoLeaks s :=
    live_run (fun _ a hinv hfixed hlive hrun h =>
      h.step hinv hfixed hlive a hrun) boot (noLeaks_processorRun boot) sched
  have hinv := hrun.good.inv hlive
  exact ⟨(hrun.prop hlive).owns hinv, hinv.safeCalls (hrun.fixed hlive),
    hinv.settles hlive⟩

theorem descriptor_owned_in_printedRun :
    let s := run Sys.step (processorRun .concat (Boot.zeroed 1))
      (printedRun.take 30)
    s.ReadPhase 0 ∧ (s.reqs 0).req.fd = 8 ∧ s.Owns ∧ s.SafeCalls ∧
      ∀ a, (s.step a).halted = none → Settles s (s.step a) :=
  ⟨by decide +kernel, by decide +kernel,
    descriptors_and_paths_owned (Boot.zeroed 1) (printedRun.take 30)
      (by decide +kernel)⟩

end Sys

end Ride
