import Ride.Processor.Invariant

/-!
# The kernel keeps the invariant

No act of the kernel touches the memory of the program, apart from the buffer of
a read.  Each act turns one thing on its way into another one for the same
request, and the lemmas below say that the new one is what the stage of the slot
asks for.  The other slots do not notice: a buffer is named by nothing but the
entries of its own slot, and a descriptor that the kernel hands out was not in
use.

`Inv.kernel` is the result for all the acts.
-/

namespace Ride

open CodeLib

namespace Sys

variable {B : Blake3} {n : Nat} {s t : Sys B n}

/-! ## An act that turns one thing into another -/

/-- The rings, the operations, the buffers and the descriptors are not memory of
the program. -/
theorem sameMemory_rings (s : Sys B n)
    (sq : SubmissionRing (Word n) (Name n)) (cq : Reaper (Name n))
    (ops : List (Op n)) (buffers : Fin n → Bytes) (fds : Int → Option (Fd n)) :
    SameMemory s { s with
      sq := sq, cq := cq, ops := ops, buffers := buffers, fds := fds } :=
  ⟨⟨rfl, rfl, rfl, rfl, rfl, rfl, rfl, rfl, rfl, rfl, rfl, rfl,
    fun _ ho => ho, fun _ hr => hr⟩, rfl⟩

/-- The invariant behind an act that turns `p` into `p'`.  What is left to show
is about the slot that both belong to. -/
theorem Inv.moved (h : Inv none s) (hs : SameMemory s t) {p p' : Pending n}
    (hsq : t.sq.Wf) (hcq : t.cq.Wf) (hmove : Moves s t p p')
    (htarget : p'.target = p.target)
    (haims : ∀ i, p'.Aims i → p.For (.slot i))
    (hfds : ∀ i fd file, s.fds fd = some (.file file (.slot i)) →
      t.fds fd = some (.file file (.slot i)))
    (hbuf : ∀ i, ¬ p.For (.slot i) → t.buffers i = s.buffers i)
    (hself : ∀ i stage, p.For (.slot i) → s.Fits i stage →
      s.Carries i stage p → t.Carries i stage p') : Inv none t := by
  have hfor : ∀ r, p'.For r ↔ p.For r := by
    intro r
    rw [Pending.For, Pending.For, htarget]
  refine h.of_same hs hsq hcq ?_ ?_
  · intro q hq i hi
    rcases hmove.of_mem hq with rfl | hold
    · rw [hfor]
      exact haims i hi
    · exact h.aims q hold i hi
  · intro i _
    have hslot := h.slots i (by simp)
    have hkeeps := hs.keeps i (hfds i)
    by_cases hp : p.For (.slot i)
    · obtain ⟨hfly, stage, hfits, hone, hc⟩ := hslot.of_mem hmove.mem hp
      exact SlotInv.moved hkeeps hfly hfits hone hmove hp ((hfor _).mpr hp)
        (hself i stage hp hfits hc)
    · exact hslot.keeps hkeeps (hbuf i hp)
        (hmove.outstanding_other hp (mt (hfor _).mp hp))

/-- Something that belongs to no slot is gone. -/
theorem Inv.dropped {held : Option (Fin n)} (h : Inv held s)
    (hs : SameMemory s t) {p : Pending n} (hsq : t.sq.Wf) (hcq : t.cq.Wf)
    (hdrop : s.transit = p ::ₘ t.transit) (hp : ∀ i, ¬ p.For (.slot i))
    (hfds : t.fds = s.fds) (hbuf : t.buffers = s.buffers) : Inv held t := by
  refine h.of_same hs hsq hcq ?_ ?_
  · intro q hq i hi
    apply h.aims q _ i hi
    rw [hdrop]
    exact Multiset.mem_cons_of_mem hq
  · intro i hi
    refine (h.slots i hi).keeps (hs.keeps i ?_) (by rw [hbuf]) ?_
    · intro fd file hfd
      rw [hfds]
      exact hfd
    · exact (outstanding_of_cons_ne hdrop (hp i)).symm

/-- Something that belongs to no slot is added. -/
theorem Inv.added {held : Option (Fin n)} (h : Inv held s)
    (hs : SameMemory s t) {p : Pending n} (hsq : t.sq.Wf) (hcq : t.cq.Wf)
    (hadd : t.transit = p ::ₘ s.transit) (hp : ∀ i, ¬ p.For (.slot i))
    (haims : ∀ i, ¬ p.Aims i) (hfds : t.fds = s.fds)
    (hbuf : t.buffers = s.buffers) : Inv held t := by
  refine h.of_same hs hsq hcq ?_ ?_
  · intro q hq i hi
    rw [hadd, Multiset.mem_cons] at hq
    rcases hq with rfl | hold
    · exact absurd hi (haims i)
    · exact h.aims q hold i hi
  · intro i hi
    refine (h.slots i hi).keeps (hs.keeps i ?_) (by rw [hbuf]) ?_
    · intro fd file hfd
      rw [hfds]
      exact hfd
    · exact outstanding_of_cons_ne hadd (hp i)

/-! ## Entries -/

/-- The operation of an entry is the one that the stage asks for. -/
theorem carries_opKind {i : Fin n} {stage : Stage}
    {sqe : Sqe (Word n) (Name n)} {name : Name n} (hfits : s.Fits i stage)
    (hc : s.Carries i stage (.sqe sqe)) (hname : sqe.userData = some name) :
    s.Carries i stage (.op ⟨name, s.opKind sqe⟩) := by
  have hsqe : sqe = sqeOf (s.slotName i) (s.reqs i).req.toIoReq := by
    cases stage <;> exact hc
  have hname' : name = s.slotName i := by
    rw [hsqe] at hname
    exact (Option.some.inj hname).symm
  subst hname'
  cases stage with
  | opening path id =>
    have hfits : s.OpensFile i path id := hfits
    have hkind : s.opKind sqe = .openat (some path) := by
      simp only [hsqe, opKind, sqeOf, hfits.opcode, hfits.addr, Word.addr,
        hfits.string, Option.map_some]
    show (⟨_, _⟩ : Op n) = _
    rw [hkind]
  | reading path id file off =>
    have hfits : s.ReadsFile i path id file off := hfits
    have hoff : (UInt64.ofNat off).toNat = off := by
      have hle := hfits.off_le
      have hlt := file.size_lt
      rw [UInt64.toNat_ofNat', Nat.mod_eq_of_lt (by omega)]
    have hkind : s.opKind sqe =
        .read file off READ_BUF_SIZE (.addr (.buffer i)) none := by
      simp only [hsqe, opKind, sqeOf, hfits.opcode, hfits.fd, hfits.off_eq,
        Word.num, hfits.len, hfits.addr, hoff]
      rfl
    refine ⟨none, ?_, ?_⟩
    · rw [hkind]
    · intro r hr
      exact absurd hr (by simp)
  | updating =>
    have hfits : s.UpdatesTimer i := hfits
    have hkind : s.opKind sqe = .other := by
      simp only [hsqe, opKind, sqeOf, hfits.opcode]
    show (⟨_, _⟩ : Op n) = _
    rw [hkind]

/-- An operation writes to the buffer that its entry names. -/
theorem aims_opKind {sqe : Sqe (Word n) (Name n)} {name : Name n} {i : Fin n}
    (h : (Pending.op ⟨name, s.opKind sqe⟩).Aims i) :
    (Pending.sqe sqe).Aims i := by
  unfold opKind at h
  split at h
  · split at h <;> exact h.elim
  · split at h
    · exact h
    · exact h.elim
  · exact h.elim
  · exact h.elim

theorem Inv.consume (h : Inv none s) : Inv none s.consume := by
  cases htake : s.sq.kernelTake with
  | none =>
    simp only [Sys.consume, htake]
    exact h
  | some taken =>
    obtain ⟨sqe, sq⟩ := taken
    obtain ⟨hrings, hwf⟩ := take_inRings h.sq htake
    cases hname : sqe.userData with
    | some name =>
      have hmove := consume_moves h.sq htake ⟨name, s.opKind sqe⟩
      simp only [Sys.consume, htake, hname]
      have hs := sameMemory_rings s sq s.cq (s.ops ++ [⟨name, s.opKind sqe⟩])
        s.buffers s.fds
      refine h.moved hs hwf h.cq hmove ?_
        (fun i hi => h.aims _ hmove.mem i (aims_opKind hi))
        (fun _ _ _ hfd => hfd) (fun _ _ => rfl) ?_
      · simp only [Pending.target, hname, Option.map_some]
      · intro i stage _ hfits hc
        exact (carries_opKind hfits hc hname).keeps
          (hs.keeps i fun _ _ hfd => hfd) rfl
    | none =>
      simp only [Sys.consume, htake, hname]
      refine h.dropped (p := .sqe sqe)
        (sameMemory_rings s sq s.cq s.ops s.buffers s.fds) hwf h.cq ?_ ?_ rfl rfl
      · rw [transit, hrings, Multiset.add_cons]
        rfl
      · intro i
        simp [Pending.For, Pending.target, hname]

/-! ## Reads -/

theorem op_mem_transit {op : Op n} {k : Nat} (hop : s.ops[k]? = some op) :
    Pending.op op ∈ s.transit := by
  rw [transit, inRings, ops_eq_cons hop]
  simp

/-- Where a read writes to a buffer, the read belongs to the slot of the
buffer. -/
theorem Inv.buffer_of_read (h : Inv none s) {k off len : Nat} {name : Name n}
    {file : File} {buf : Word n} {filled : Option Nat}
    (hop : s.ops[k]? = some ⟨name, .read file off len buf filled⟩) {i : Fin n}
    (hfor : ¬ (Pending.op ⟨name, .read file off len buf filled⟩).For (.slot i)) :
    buf.block ≠ .buffer i := by
  intro hbuf
  exact hfor (h.aims _ (op_mem_transit hop) i hbuf)

theorem Inv.scribble (h : Inv none s) (k : Nat) (bytes : Bytes) :
    Inv none (s.scribble k bytes) := by
  unfold Sys.scribble
  split
  · rename_i name file off len buf hop
    split_ifs with hlen
    · obtain ⟨buffers, hwrite, hother⟩ := writeMem_eq s buf bytes
      rw [hwrite]
      have hs := sameMemory_rings s s.sq s.cq s.ops buffers s.fds
      -- the read stays as it is, and has promised nothing of its buffer yet
      have hsame : Moves s { s with buffers := buffers }
          (.op ⟨name, .read file off len buf none⟩)
          (.op ⟨name, .read file off len buf none⟩) := by
        obtain ⟨rest, hrest⟩ :=
          Multiset.exists_cons_of_mem (op_mem_transit hop)
        exact ⟨rest, hrest, hrest⟩
      refine h.moved hs h.sq h.cq hsame rfl
        (fun i hi => h.aims _ (op_mem_transit hop) i hi)
        (fun _ _ _ hfd => hfd) ?_ ?_
      · intro i hi
        exact hother i (h.buffer_of_read hop hi)
      · intro i stage _ _ hc
        cases stage with
        | opening path id =>
          have hc : (⟨name, _⟩ : Op n) = ⟨_, _⟩ := hc
          exact absurd (congrArg Op.kind hc) (by simp)
        | updating =>
          have hc : (⟨name, _⟩ : Op n) = ⟨_, _⟩ := hc
          exact absurd (congrArg Op.kind hc) (by simp)
        | reading path id file' off' =>
          obtain ⟨filled, ho, -⟩ := hc
          refine ⟨filled, ho, ?_⟩
          rintro r rfl
          exact absurd (congrArg Op.kind ho) (by simp)
    · exact h
  · exact h

/-- What the kernel writes at the start of a buffer is what a reader of it
finds. -/
theorem writeMem_take (s : Sys B n) (i : Fin n) (bytes : Bytes) :
    ((s.writeMem (.addr (.buffer i)) bytes).buffers i).take bytes.length =
      bytes := by
  simp [writeMem, Word.addr]

theorem Inv.fill (h : Inv none s) (k r : Nat) : Inv none (s.fill k r) := by
  unfold Sys.fill
  split
  · rename_i name file off len buf hop
    split_ifs with hreads
    · obtain ⟨buffers, hwrite, hother⟩ :=
        writeMem_eq s buf (file.piece off r)
      have hstored : ∀ i, buf = .addr (.buffer i) →
          (buffers i).take r = file.piece off r := by
        rintro i rfl
        have htake := writeMem_take s i (file.piece off r)
        rw [hwrite, hreads.length_piece] at htake
        exact htake
      rw [hwrite]
      refine h.moved (sameMemory_rings s s.sq s.cq _ buffers s.fds) h.sq h.cq
        (set_moves hop rfl rfl rfl rfl) rfl
        (fun i hi => h.aims _ (op_mem_transit hop) i hi)
        (fun _ _ _ hfd => hfd) ?_ ?_
      · intro i hi
        exact hother i (h.buffer_of_read hop hi)
      · intro i stage _ _ hc
        cases stage with
        | opening path id =>
          have hc : (⟨name, _⟩ : Op n) = ⟨_, _⟩ := hc
          exact absurd (congrArg Op.kind hc) (by simp)
        | updating =>
          have hc : (⟨name, _⟩ : Op n) = ⟨_, _⟩ := hc
          exact absurd (congrArg Op.kind hc) (by simp)
        | reading path id file' off' =>
          obtain ⟨filled, ho, -⟩ := hc
          simp only [Op.mk.injEq, OpKind.read.injEq] at ho
          obtain ⟨hname, rfl, rfl, rfl, hbuf, -⟩ := ho
          refine ⟨some r, ?_, ?_⟩
          · rw [hname, hbuf]
            rfl
          · rintro r' hr
            obtain rfl : r = r' := Option.some.inj hr
            exact ⟨hreads, hstored i hbuf⟩
    · exact h
  · exact h

/-! ## Completions -/

theorem Inv.complete (h : Inv none s) (k : Nat) (res : Int) (flags : UInt32) :
    Inv none (s.complete k res flags) := by
  unfold Sys.complete
  split
  · rename_i name kind hop
    split_ifs with hdone
    · obtain ⟨hallows, hroom⟩ := hdone
      have hs := sameMemory_rings s s.sq (s.cq.post ⟨name, res, flags⟩)
        (s.ops.eraseIdx k) s.buffers s.fds
      refine h.moved hs h.sq (h.cq.post _) (post_moves h.cq hop hroom rfl rfl
        rfl rfl) rfl (fun _ hi => hi.elim) (fun _ _ _ hfd => hfd)
        (fun _ _ => rfl) ?_
      intro i stage _ _ hc
      have hkeeps := hs.keeps i fun _ _ hfd => hfd
      cases stage with
      | opening path id =>
        have hc : (⟨name, kind⟩ : Op n) = ⟨_, _⟩ := hc
        rw [Op.mk.injEq] at hc
        obtain ⟨hname, hkind⟩ := hc
        rw [hkind] at hallows
        exact ⟨hname.trans hkeeps.slotName.symm, Or.inl hallows⟩
      | reading path id file off =>
        obtain ⟨filled, ho, hdel⟩ := hc
        rw [Op.mk.injEq] at ho
        obtain ⟨hname, hkind⟩ := ho
        rw [hkind] at hallows
        refine ⟨hname.trans hkeeps.slotName.symm, ?_⟩
        rcases hallows with hneg | ⟨r, hr, hres⟩
        · exact Or.inl hneg
        · exact Or.inr ⟨r, hres, (hdel r hr).reads, (hdel r hr).stored⟩
      | updating =>
        have hc : (⟨name, kind⟩ : Op n) = ⟨_, _⟩ := hc
        rw [Op.mk.injEq] at hc
        exact hc.1.trans hkeeps.slotName.symm
    · exact h
  · exact h

theorem Inv.openDone (h : Inv none s) (k : Nat) (fd : Int) (file : File)
    (flags : UInt32) : Inv none (s.openDone k fd file flags) := by
  unfold Sys.openDone
  split
  · rename_i name path hop
    split_ifs with hdone
    · obtain ⟨hne, -, hunused, hroom⟩ := hdone
      have hs : SameMemory s { s with
          fds := Function.update s.fds fd (some (.file file name.req))
          ops := s.ops.eraseIdx k
          cq := s.cq.post ⟨name, fd, flags⟩
          opens := s.opens ++ [⟨s.ticket name.req, path, file⟩] } :=
        ⟨⟨rfl, rfl, rfl, rfl, rfl, rfl, rfl, rfl, rfl, rfl, rfl, rfl,
          fun _ ho => List.mem_append_left _ ho, fun _ hr => hr⟩, rfl⟩
      have hfds : ∀ fd' f, s.fds fd' = some f →
          Function.update s.fds fd (some (.file file name.req)) fd' = some f := by
        intro fd' f hfd
        rw [Function.update_of_ne]
        · exact hfd
        · rintro rfl
          rw [hunused] at hfd
          exact absurd hfd (by simp)
      refine h.moved hs h.sq (h.cq.post _) (post_moves h.cq hop hroom rfl rfl
        rfl rfl) rfl (fun _ hi => hi.elim) (fun _ _ _ hfd => hfds _ _ hfd)
        (fun _ _ => rfl) ?_
      intro i stage hfor _ hc
      have hreq : name.req = .slot i := Option.some.inj hfor
      cases stage with
      | opening path' id =>
        have hc : (⟨name, _⟩ : Op n) = ⟨_, _⟩ := hc
        rw [Op.mk.injEq, OpKind.openat.injEq, Option.some.injEq] at hc
        obtain ⟨hname, rfl⟩ := hc
        refine ⟨hname, Or.inr ⟨file, ?_, ?_, hne⟩⟩
        · show Function.update s.fds fd (some (.file file name.req)) fd = _
          rw [Function.update_self, hreq]
        · apply List.mem_append_right
          rw [hreq]
          exact List.mem_singleton.mpr rfl
      | reading path' id file' off =>
        obtain ⟨filled, ho, -⟩ := hc
        exact absurd (congrArg Op.kind ho) (by simp)
      | updating =>
        have hc : (⟨name, _⟩ : Op n) = ⟨_, _⟩ := hc
        exact absurd (congrArg Op.kind hc) (by simp)
    · exact h
  · exact h

/-- A poll belongs to no slot. -/
theorem Inv.poll_of_no_slot (h : Inv none s) {name : Name n} {k : Nat}
    (hop : s.ops[k]? = some ⟨name, .poll⟩) (i : Fin n) : name.req ≠ .slot i := by
  intro hreq
  obtain ⟨-, stage, -, -, hc⟩ := (h.slots i (by simp)).of_mem
    (op_mem_transit hop) (by rw [Pending.For, Pending.target, hreq])
  cases stage with
  | opening path id =>
    have hc : (⟨name, _⟩ : Op n) = ⟨_, _⟩ := hc
    exact absurd (congrArg Op.kind hc) (by simp)
  | reading path id file off =>
    obtain ⟨filled, ho, -⟩ := hc
    exact absurd (congrArg Op.kind ho) (by simp)
  | updating =>
    have hc : (⟨name, _⟩ : Op n) = ⟨_, _⟩ := hc
    exact absurd (congrArg Op.kind hc) (by simp)

theorem Inv.notify (h : Inv none s) (k : Nat) (res : Int) (flags : UInt32) :
    Inv none (s.notify k res flags) := by
  unfold Sys.notify
  split
  · rename_i name hop
    split_ifs with hdone
    · refine h.added (p := .cqe ⟨name, res, flags⟩)
        (sameMemory_rings s s.sq _ s.ops s.buffers s.fds) h.sq (h.cq.post _)
        (notify_transit h.cq hdone.2 rfl rfl rfl rfl) ?_ (fun _ hi => hi.elim)
        rfl rfl
      intro i hfor
      exact h.poll_of_no_slot hop i (Option.some.inj hfor)
    · exact h
  · exact h

/-- An act of the kernel posts one completion at most, and refuses nothing. -/
theorem kernel_frame (s : Sys B n) (act : KernelAct n) :
    (s.kernel act).refused = s.refused ∧ ((s.kernel act).cq = s.cq ∨
      ∃ cqe, s.cq.room ∧ (s.kernel act).cq = s.cq.post cqe) := by
  have hto := s.kernelTo_kernel act
  generalize s.kernel act = t at hto ⊢
  cases hto with
  | opened hop hfd hfree hroom => exact ⟨rfl, Or.inr ⟨_, hroom, rfl⟩⟩
  | notified hop hroom => exact ⟨rfl, Or.inr ⟨_, hroom, rfl⟩⟩
  | completed hop hallows hroom => exact ⟨rfl, Or.inr ⟨_, hroom, rfl⟩⟩
  | _ => exact ⟨rfl, Or.inl rfl⟩

/-- Every act of the kernel keeps the invariant. -/
theorem Inv.kernel (h : Inv none s) (act : KernelAct n) :
    Inv none (s.kernel act) := by
  cases act with
  | consume => exact h.consume
  | scribble k bytes => exact h.scribble k bytes
  | fill k r => exact h.fill k r
  | openDone k fd file flags => exact h.openDone k fd file flags
  | notify k res flags => exact h.notify k res flags
  | complete k res flags => exact h.complete k res flags

end Sys

end Ride
