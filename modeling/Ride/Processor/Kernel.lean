import Mathlib.Data.Multiset.Filter
import Ride.CodeLib.Machine
import Ride.Processor.Model

/-!
# The kernel, and the runs of a processor

The kernel takes entries from the submission ring, works on the operations in
any order, and posts completions.  `KernelAct` lists what it may do at any
moment, and an act that is not possible changes nothing.

* An open that succeeds gives a descriptor that is not in use and some file.
  The path is the string at the address of the entry when the kernel takes the
  entry.  The empty path is never opened.
* A read puts a piece of the file in its buffer at some moment before it
  completes, and may leave anything there before that moment.  The piece starts
  at the offset, is no longer than asked for, and is empty only at the end of the
  file.
* A multishot poll posts any number of completions that say that more will
  follow, and possibly a last one that does not.
* Everything else completes with any result.

`SysStep` adds the steps of the event loop, and a run is a list of them.
`Sys.transit` collects what is on its way between the two parties, and
`Sys.outstanding` is the part of it that belongs to one request.  The lemmas
behind them say how each act changes `transit`, and `Sys.KernelTo` lists the
effects of an act.
-/

namespace Ride

open CodeLib CodeLib.Machine

/-- What the kernel may do.  `k` is the position of an operation. -/
inductive KernelAct (n : Nat) where
  | consume
  | scribble (k : Nat) (bytes : Bytes)
  | fill (k : Nat) (r : Nat)
  | openDone (k : Nat) (fd : Int) (file : File) (flags : UInt32)
  | notify (k : Nat) (res : Int) (flags : UInt32)
  | complete (k : Nat) (res : Int) (flags : UInt32)

/-- The steps of a processor: an act of the kernel, the poll of the event loop
returns, the loop gives a completion to its callback, the running callback goes
on, or the loop stores `head`. -/
inductive SysStep (n : Nat) where
  | kernel (act : KernelAct n)
  | load
  | dispatch (ans : Answers)
  | proceed (ans : Answers)
  | publish

/-- A read of `r` bytes at the offset `off` is a possible answer. -/
def File.Reads (file : File) (off len r : Nat) : Prop :=
  r ≤ len ∧ r ≤ file.content.length - off ∧
    (r = 0 → file.content.length ≤ off)

instance (file : File) (off len r : Nat) : Decidable (file.Reads off len r) :=
  inferInstanceAs (Decidable (_ ∧ _ ∧ _))

/-- The bytes that such a read puts in its buffer. -/
def File.piece (file : File) (off r : Nat) : Bytes :=
  (file.content.drop off).take r

theorem File.Reads.length_piece {file : File} {off len r : Nat}
    (h : file.Reads off len r) : (file.piece off r).length = r := by
  rw [File.piece, List.length_take, List.length_drop]
  exact Nat.min_eq_left h.2.1

/-- The results with which an operation can complete.  An open that succeeds is
an act of its own. -/
def OpKind.Allows {n : Nat} (res : Int) (flags : UInt32) : OpKind n → Prop
  | .openat _ => res < 0
  | .read _ _ _ _ filled => res < 0 ∨ ∃ r ∈ filled, res = (r : Nat)
  | .poll => Sys.hasMore flags = false
  | .other => True

instance {n : Nat} (res : Int) (flags : UInt32) (kind : OpKind n) :
    Decidable (kind.Allows res flags) :=
  match kind with
  | .openat _ => inferInstanceAs (Decidable (res < 0))
  | .read _ _ _ _ none => decidable_of_iff (res < 0) (by simp [OpKind.Allows])
  | .read _ _ _ _ (some r) =>
    decidable_of_iff (res < 0 ∨ res = (r : Nat)) (by simp [OpKind.Allows])
  | .poll => inferInstanceAs (Decidable (Sys.hasMore flags = false))
  | .other => inferInstanceAs (Decidable True)

namespace Sys

variable {B : Blake3} {n : Nat}

/-! ## The acts of the kernel -/

/-- A write of the kernel at an address, where there is a buffer. -/
def writeMem (s : Sys B n) (addr : Word n) (bytes : Bytes) : Sys B n :=
  match addr.block with
  | .buffer i =>
    let old := s.buffers i
    let off := addr.off.toNat
    { s with
      buffers := Function.update s.buffers i
        (old.take off ++ bytes ++ old.drop (off + bytes.length)) }
  | _ => s

/-- The operation that an entry asks for, as the kernel finds it. -/
def opKind (s : Sys B n) (sqe : Sqe (Word n) (Name n)) : OpKind n :=
  match sqe.opcode with
  | .openat =>
    match sqe.addr with
    | ⟨.path id, 0⟩ => .openat ((s.strings id).map Prod.fst)
    | _ => .openat none
  | .read =>
    match s.fds sqe.fd, sqe.off.block with
    | some (.file file _), .null =>
      .read file sqe.off.off.toNat sqe.len.toNat sqe.addr none
    | _, _ => .other
  | .pollAdd => .poll
  | _ => .other

/-- The kernel takes an entry.  An entry without a name belongs to no request of
the processor. -/
def consume (s : Sys B n) : Sys B n :=
  match s.sq.kernelTake with
  | none => s
  | some (sqe, sq) =>
    match sqe.userData with
    | none => { s with sq := sq }
    | some name => { s with sq := sq, ops := s.ops ++ [⟨name, s.opKind sqe⟩] }

/-- A read that is not done yet writes anything to its buffer. -/
def scribble (s : Sys B n) (k : Nat) (bytes : Bytes) : Sys B n :=
  match s.ops[k]? with
  | some ⟨_, .read _ _ len buf none⟩ =>
    if bytes.length ≤ len then s.writeMem buf bytes else s
  | _ => s

/-- A read puts its piece of the file in its buffer. -/
def fill (s : Sys B n) (k r : Nat) : Sys B n :=
  match s.ops[k]? with
  | some ⟨name, .read file off len buf none⟩ =>
    if file.Reads off len r then
      { s.writeMem buf (file.piece off r) with
        ops := s.ops.set k ⟨name, .read file off len buf (some r)⟩ }
    else s
  | _ => s

/-- The event that a request works for. -/
def ticket (s : Sys B n) : ReqPtr n → Option Nat
  | .slot i => s.tickets i
  | _ => none

/-- An open succeeds. -/
def openDone (s : Sys B n) (k : Nat) (fd : Int) (file : File)
    (flags : UInt32) : Sys B n :=
  match s.ops[k]? with
  | some ⟨name, .openat (some path)⟩ =>
    if path ≠ [] ∧ 0 ≤ fd ∧ s.fds fd = none ∧ s.cq.room then
      { s with
        fds := Function.update s.fds fd (some (.file file name.req))
        ops := s.ops.eraseIdx k
        cq := s.cq.post ⟨name, fd, flags⟩
        opens := s.opens ++ [⟨s.ticket name.req, path, file⟩] }
    else s
  | _ => s

/-- A multishot poll posts a completion and stays armed. -/
def notify (s : Sys B n) (k : Nat) (res : Int) (flags : UInt32) : Sys B n :=
  match s.ops[k]? with
  | some ⟨name, .poll⟩ =>
    if hasMore flags ∧ s.cq.room then
      { s with cq := s.cq.post ⟨name, res, flags⟩ }
    else s
  | _ => s

/-- An operation completes. -/
def complete (s : Sys B n) (k : Nat) (res : Int) (flags : UInt32) : Sys B n :=
  match s.ops[k]? with
  | some ⟨name, kind⟩ =>
    if kind.Allows res flags ∧ s.cq.room then
      { s with
        ops := s.ops.eraseIdx k
        cq := s.cq.post ⟨name, res, flags⟩ }
    else s
  | none => s

/-- One act of the kernel. -/
def kernel (s : Sys B n) : KernelAct n → Sys B n
  | .consume => s.consume
  | .scribble k bytes => s.scribble k bytes
  | .fill k r => s.fill k r
  | .openDone k fd file flags => s.openDone k fd file flags
  | .notify k res flags => s.notify k res flags
  | .complete k res flags => s.complete k res flags

/-! ## The runs -/

/-- One step.  The loop moves between callbacks only, and nothing moves once the
run has ended. -/
def step (s : Sys B n) (a : SysStep n) : Sys B n :=
  if s.halted.isSome then s
  else match a with
    | .kernel act => s.kernel act
    | .load => if s.todo = [] then { s with cq := s.cq.load } else s
    | .dispatch ans => if s.todo = [] then s.dispatch ans else s
    | .proceed ans => s.proceed ans
    | .publish => if s.todo = [] then { s with cq := s.cq.publish } else s

/-! ## What is on its way -/

end Sys

/-- What is on its way between a processor and the kernel: a submission that the
running callback is about to make, an entry that the kernel has not taken, an
operation, or a completion that was not reaped. -/
inductive Pending (n : Nat) where
  | cmd (req : ReqPtr n)
  | sqe (sqe : Sqe (Word n) (Name n))
  | op (op : Op n)
  | cqe (cqe : Cqe (Name n))
deriving DecidableEq

/-- The request that it belongs to. -/
def Pending.target {n : Nat} : Pending n → Option (ReqPtr n)
  | .cmd r => some r
  | .sqe q => q.userData.map Name.req
  | .op o => some o.name.req
  | .cqe c => some c.userData.req

/-- It belongs to the request `r`. -/
def Pending.For {n : Nat} (r : ReqPtr n) (p : Pending n) : Prop :=
  p.target = some r

instance {n : Nat} (r : ReqPtr n) : DecidablePred (Pending.For r) :=
  fun p => inferInstanceAs (Decidable (p.target = some r))

/-- The submission that a command makes. -/
def Cmd.pending {n : Nat} : Cmd n → Option (Pending n)
  | .submit r => some (.cmd r)
  | .flushEgress => none

namespace Sys

variable {B : Blake3} {n : Nat}

/-- The entries that the kernel has not taken, the operations, and the
completions that were not reaped. -/
def inRings (s : Sys B n) : Multiset (Pending n) :=
  (s.sq.pending.map Pending.sqe : Multiset (Pending n)) +
    (s.ops.map Pending.op : Multiset (Pending n)) +
    (s.cq.unreaped.map Pending.cqe : Multiset (Pending n))

/-- Everything that is on its way. -/
def transit (s : Sys B n) : Multiset (Pending n) :=
  (s.todo.filterMap Cmd.pending : Multiset (Pending n)) + s.inRings

/-- What is on its way for one request. -/
def outstanding (s : Sys B n) (r : ReqPtr n) : Multiset (Pending n) :=
  s.transit.filter (Pending.For r)

/-- From `s` to `t`, one thing on its way has become another. -/
def Moves (s t : Sys B n) (p p' : Pending n) : Prop :=
  ∃ rest, s.transit = p ::ₘ rest ∧ t.transit = p' ::ₘ rest

theorem Moves.mem {s t : Sys B n} {p p' : Pending n} (h : Moves s t p p') :
    p ∈ s.transit := by
  obtain ⟨rest, hs, -⟩ := h
  rw [hs]
  exact Multiset.mem_cons_self p rest

theorem Moves.of_mem {s t : Sys B n} {p p' q : Pending n} (h : Moves s t p p')
    (hq : q ∈ t.transit) : q = p' ∨ q ∈ s.transit := by
  obtain ⟨rest, hs, ht⟩ := h
  rw [ht, Multiset.mem_cons] at hq
  rw [hs, Multiset.mem_cons]
  rcases hq with hq | hq
  · exact Or.inl hq
  · exact Or.inr (Or.inr hq)

theorem Moves.mem_of_ne {s t : Sys B n} {p p' q : Pending n}
    (h : Moves s t p p') (hq : q ∈ s.transit) (hne : q ≠ p) :
    q ∈ t.transit := by
  obtain ⟨rest, hs, ht⟩ := h
  rw [hs, Multiset.mem_cons] at hq
  rw [ht, Multiset.mem_cons]
  exact Or.inr (hq.resolve_left hne)

/-- The other requests do not notice. -/
theorem Moves.outstanding_other {s t : Sys B n} {p p' : Pending n}
    {r : ReqPtr n} (h : Moves s t p p') (hp : ¬ p.For r)
    (hp' : ¬ p'.For r) : t.outstanding r = s.outstanding r := by
  obtain ⟨rest, hs, ht⟩ := h
  rw [outstanding, outstanding, hs, ht, Multiset.filter_cons_of_neg _ hp,
    Multiset.filter_cons_of_neg _ hp']

/-- A request with one thing on its way still has one. -/
theorem Moves.outstanding_self {s t : Sys B n} {p p' : Pending n}
    {r : ReqPtr n} (h : Moves s t p p') (hp : p.For r)
    (hp' : p'.For r) (hone : s.outstanding r = {p}) :
    t.outstanding r = {p'} := by
  obtain ⟨rest, hs, ht⟩ := h
  rw [outstanding, hs, Multiset.filter_cons_of_pos _ hp] at hone
  have hrest := (Multiset.cons_inj_right p).mp hone
  rw [outstanding, ht, Multiset.filter_cons_of_pos _ hp', hrest]
  rfl

theorem outstanding_of_cons {s t : Sys B n} {p : Pending n} {r : ReqPtr n}
    (h : s.transit = p ::ₘ t.transit) (hp : p.For r) :
    s.outstanding r = p ::ₘ t.outstanding r := by
  rw [outstanding, h, Multiset.filter_cons_of_pos _ hp]
  rfl

theorem outstanding_of_cons_ne {s t : Sys B n} {p : Pending n} {r : ReqPtr n}
    (h : s.transit = p ::ₘ t.transit) (hp : ¬ p.For r) :
    s.outstanding r = t.outstanding r := by
  rw [outstanding, h, Multiset.filter_cons_of_neg _ hp]
  rfl

theorem mem_outstanding {s : Sys B n} {p : Pending n} {r : ReqPtr n} :
    p ∈ s.outstanding r ↔ p ∈ s.transit ∧ p.For r :=
  Multiset.mem_filter

/-- Where no submission of a request is to come, the rings have all of it. -/
theorem outstanding_of_not_mem {s : Sys B n} {r : ReqPtr n}
    (h : .submit r ∉ s.todo) :
    s.outstanding r = s.inRings.filter (Pending.For r) := by
  have hcmds : (s.todo.filterMap Cmd.pending : Multiset (Pending n)).filter
      (Pending.For r) = 0 := by
    rw [Multiset.filter_eq_nil]
    intro p hp hfor
    rw [Multiset.mem_coe, List.mem_filterMap] at hp
    obtain ⟨cmd, hmem, hcmd⟩ := hp
    cases cmd with
    | flushEgress => exact absurd hcmd (by simp [Cmd.pending])
    | submit r' =>
      obtain rfl : Pending.cmd r' = p := Option.some.inj hcmd
      obtain rfl : r' = r := Option.some.inj hfor
      exact h hmem
  rw [outstanding, transit, Multiset.filter_add, hcmds, Multiset.zero_add]

/-- A submission of the request is to come, and the rings have the rest. -/
theorem outstanding_of_todo {s : Sys B n} {r : ReqPtr n} {rest : List (Cmd n)}
    (htodo : s.todo = .submit r :: rest) (h : .submit r ∉ rest) :
    s.outstanding r = .cmd r ::ₘ s.inRings.filter (Pending.For r) := by
  have hrest := outstanding_of_not_mem (s := { s with todo := rest }) h
  have hfor : (Pending.cmd r).For r := rfl
  rw [outstanding, transit, htodo, List.filterMap_cons]
  simp only [Cmd.pending, ← Multiset.cons_coe, Multiset.cons_add]
  rw [Multiset.filter_cons_of_pos _ hfor]
  exact congrArg _ hrest

/-- A request with nothing on its way has no submission to come. -/
theorem not_mem_todo {s : Sys B n} {r : ReqPtr n} (h : s.outstanding r = 0) :
    .submit r ∉ s.todo := by
  intro hmem
  have hp : Pending.cmd r ∈ s.outstanding r := by
    rw [mem_outstanding, transit, Multiset.mem_add]
    refine ⟨Or.inl ?_, rfl⟩
    rw [Multiset.mem_coe, List.mem_filterMap]
    exact ⟨_, hmem, rfl⟩
  rw [h] at hp
  exact Multiset.notMem_zero _ hp

/-! ## How the acts change what is on its way -/

/-- What moves in the rings moves. -/
theorem moves_of_inRings {s t : Sys B n} {p p' : Pending n}
    (rest : Multiset (Pending n)) (htodo : t.todo = s.todo)
    (hs : s.inRings = p ::ₘ rest) (ht : t.inRings = p' ::ₘ rest) :
    Moves s t p p' := by
  refine ⟨(s.todo.filterMap Cmd.pending : Multiset (Pending n)) + rest, ?_, ?_⟩
  · rw [transit, hs, Multiset.add_cons]
  · rw [transit, htodo, ht, Multiset.add_cons]

/-- The kernel takes an entry from the ring. -/
theorem take_inRings {s : Sys B n} (hwf : s.sq.Wf)
    {sqe : Sqe (Word n) (Name n)} {sq : SubmissionRing (Word n) (Name n)}
    (htake : s.sq.kernelTake = some (sqe, sq)) :
    s.inRings = .sqe sqe ::ₘ { s with sq := sq }.inRings ∧ sq.Wf := by
  cases hpend : s.sq.pending with
  | nil =>
    rw [SubmissionRing.kernelTake_empty hpend] at htake
    exact absurd htake (by simp)
  | cons first rest =>
    obtain ⟨sq', htake', -, hwf', hrest⟩ :=
      SubmissionRing.kernelTake_cons hwf hpend
    rw [htake', Option.some.injEq, Prod.mk.injEq] at htake
    obtain ⟨rfl, rfl⟩ := htake
    refine ⟨?_, hwf'⟩
    rw [inRings, inRings, hpend, hrest, List.map_cons, ← Multiset.cons_coe]
    simp only [Multiset.cons_add]

/-- An entry that the kernel takes becomes an operation. -/
theorem consume_moves {s : Sys B n} (hwf : s.sq.Wf)
    {sqe : Sqe (Word n) (Name n)} {sq : SubmissionRing (Word n) (Name n)}
    (htake : s.sq.kernelTake = some (sqe, sq)) (op : Op n) :
    Moves s { s with sq := sq, ops := s.ops ++ [op] } (.sqe sqe) (.op op) := by
  refine moves_of_inRings { s with sq := sq }.inRings rfl
    (take_inRings hwf htake).1 ?_
  simp only [inRings, List.map_append, List.map_cons, List.map_nil,
    ← Multiset.coe_add, ← Multiset.cons_coe, Multiset.coe_nil,
    Multiset.add_cons, Multiset.cons_add, Multiset.add_zero]

/-- The operation at a position, and the others. -/
theorem ops_eq_cons {s : Sys B n} {k : Nat} {op : Op n}
    (hop : s.ops[k]? = some op) :
    (s.ops.map Pending.op : Multiset (Pending n)) =
      Pending.op op ::ₘ
        ((s.ops.eraseIdx k).map Pending.op : List (Pending n)) := by
  obtain ⟨hlt, hget⟩ := List.getElem?_eq_some_iff.mp hop
  rw [Multiset.cons_coe, ← List.map_cons, ← hget]
  exact Multiset.coe_eq_coe.mpr
    ((List.getElem_cons_eraseIdx_perm hlt).symm.map _)

/-- A completion takes the place of its operation. -/
theorem post_moves {s t : Sys B n} (hwf : s.cq.Wf) {k : Nat} {op : Op n}
    {cqe : Cqe (Name n)} (hop : s.ops[k]? = some op) (hroom : s.cq.room)
    (htodo : t.todo = s.todo) (hsq : t.sq = s.sq)
    (hops : t.ops = s.ops.eraseIdx k) (hcq : t.cq = s.cq.post cqe) :
    Moves s t (.op op) (.cqe cqe) := by
  refine moves_of_inRings
    ((s.sq.pending.map Pending.sqe : Multiset (Pending n)) +
    ((s.ops.eraseIdx k).map Pending.op : List (Pending n)) +
    (s.cq.unreaped.map Pending.cqe : Multiset (Pending n))) htodo ?_ ?_
  · rw [inRings, ops_eq_cons hop]
    simp only [Multiset.add_cons, Multiset.cons_add]
  · rw [inRings, hsq, hops, hcq, Reaper.unreaped_post hwf, if_pos hroom]
    simp only [List.map_append, List.map_cons, List.map_nil,
      ← Multiset.coe_add, ← Multiset.cons_coe, Multiset.coe_nil,
      Multiset.add_cons, Multiset.add_zero]

/-- An operation that changes stays on its way. -/
theorem set_moves {s t : Sys B n} {k : Nat} {op op' : Op n}
    (hop : s.ops[k]? = some op) (htodo : t.todo = s.todo) (hsq : t.sq = s.sq)
    (hops : t.ops = s.ops.set k op') (hcq : t.cq = s.cq) :
    Moves s t (.op op) (.op op') := by
  obtain ⟨hlt, -⟩ := List.getElem?_eq_some_iff.mp hop
  have hset : ((s.ops.set k op').map Pending.op : Multiset (Pending n)) =
      Pending.op op' ::ₘ
        ((s.ops.eraseIdx k).map Pending.op : List (Pending n)) := by
    rw [Multiset.cons_coe, ← List.map_cons]
    exact Multiset.coe_eq_coe.mpr ((List.set_perm_cons_eraseIdx hlt op').map _)
  refine moves_of_inRings
    ((s.sq.pending.map Pending.sqe : Multiset (Pending n)) +
    ((s.ops.eraseIdx k).map Pending.op : List (Pending n)) +
    (s.cq.unreaped.map Pending.cqe : Multiset (Pending n))) htodo ?_ ?_
  · rw [inRings, ops_eq_cons hop]
    simp only [Multiset.add_cons, Multiset.cons_add]
  · rw [inRings, hsq, hops, hcq, hset]
    simp only [Multiset.add_cons, Multiset.cons_add]

/-- A notification is one thing more. -/
theorem notify_transit {s t : Sys B n} (hwf : s.cq.Wf) {cqe : Cqe (Name n)}
    (hroom : s.cq.room) (htodo : t.todo = s.todo) (hsq : t.sq = s.sq)
    (hops : t.ops = s.ops) (hcq : t.cq = s.cq.post cqe) :
    t.transit = .cqe cqe ::ₘ s.transit := by
  rw [transit, transit, inRings, inRings, htodo, hsq, hops, hcq,
    Reaper.unreaped_post hwf, if_pos hroom]
  simp only [List.map_append, List.map_cons, List.map_nil,
    ← Multiset.coe_add, ← Multiset.cons_coe, Multiset.coe_nil,
    Multiset.add_cons, Multiset.add_zero]

/-! ## How the loop changes what is on its way -/

/-- A submission that the ring accepts becomes an entry. -/
theorem submit_moves {s : Sys B n} {r : ReqPtr n} {rest : List (Cmd n)}
    (htodo : s.todo = .submit r :: rest)
    (hroom : s.sq.pending.length < s.sq.mask.size) :
    let t := { s with todo := rest }.submit r
    Moves s t (.cmd r) (.sqe (sqeOf ⟨r, s.gen r⟩ (s.req r).toIoReq)) ∧
      t.sq.Wf ∧ t.refused = s.refused := by
  intro t
  obtain ⟨hret, -, hwf, hpend⟩ := SubmissionRing.evIouReq_room hroom
    ⟨r, s.gen r⟩ (s.req r).toIoReq
  refine ⟨⟨(rest.filterMap Cmd.pending : Multiset (Pending n)) + s.inRings,
    ?_, ?_⟩, hwf, ?_⟩
  · rw [transit, htodo, List.filterMap_cons]
    simp only [Cmd.pending, ← Multiset.cons_coe, Multiset.cons_add]
  · show (rest.filterMap Cmd.pending : Multiset (Pending n)) + inRings t = _
    have hrings : inRings t =
        .sqe (sqeOf ⟨r, s.gen r⟩ (s.req r).toIoReq) ::ₘ s.inRings := by
      show ((s.sq.evIouReq ⟨r, s.gen r⟩ (s.req r).toIoReq).2.pending.map
        Pending.sqe : Multiset (Pending n)) + _ + _ = _
      rw [hpend, inRings]
      simp only [List.map_append, List.map_cons, List.map_nil,
        ← Multiset.coe_add, ← Multiset.cons_coe, Multiset.coe_nil,
        Multiset.add_cons, Multiset.cons_add, Multiset.add_zero]
      rfl
    rw [hrings, Multiset.add_cons]
  · show (if (s.sq.evIouReq ⟨r, s.gen r⟩ (s.req r).toIoReq).1 = EV_FULL then _
      else _) = _
    rw [hret]
    rfl

/-- A submission that the ring refuses is gone. -/
theorem submit_refused {s : Sys B n} {r : ReqPtr n} {rest : List (Cmd n)}
    (htodo : s.todo = .submit r :: rest)
    (hfull : s.sq.mask.size ≤ s.sq.pending.length) :
    let t := { s with todo := rest }.submit r
    s.transit = .cmd r ::ₘ t.transit ∧ t.sq = s.sq ∧
      t.refused = s.refused ++ [r] := by
  intro t
  have hret := SubmissionRing.evIouReq_full hfull ⟨r, s.gen r⟩
    (s.req r).toIoReq
  have hsq : t.sq = s.sq := by
    show (s.sq.evIouReq ⟨r, s.gen r⟩ (s.req r).toIoReq).2 = s.sq
    rw [hret]
  refine ⟨?_, hsq, ?_⟩
  · have hrings : t.inRings = s.inRings := by
      rw [inRings, hsq]
      rfl
    show _ = Pending.cmd r ::ₘ
      ((rest.filterMap Cmd.pending : Multiset (Pending n)) + t.inRings)
    rw [hrings, transit, htodo, List.filterMap_cons]
    simp only [Cmd.pending, ← Multiset.cons_coe, Multiset.cons_add]
  · show (if (s.sq.evIouReq ⟨r, s.gen r⟩ (s.req r).toIoReq).1 = EV_FULL then _
      else _) = _
    rw [hret]
    rfl

/-- The completion that the loop gives to a callback is gone. -/
theorem advance_transit {s : Sys B n} (hwf : s.cq.Wf) {cqe : Cqe (Name n)}
    (hcur : s.cq.current = some cqe) :
    s.transit = .cqe cqe ::ₘ { s with cq := s.cq.advance }.transit := by
  rw [transit, inRings, Reaper.unreaped_cons hwf hcur, List.map_cons,
    ← Multiset.cons_coe]
  simp only [Multiset.add_cons]
  rfl

/-! ## What an act can do -/

/-- A write of the kernel changes the buffer at the address and nothing
else. -/
theorem writeMem_eq (s : Sys B n) (addr : Word n) (bytes : Bytes) :
    ∃ buffers, s.writeMem addr bytes = { s with buffers := buffers } ∧
      ∀ i, addr.block ≠ .buffer i → buffers i = s.buffers i := by
  unfold writeMem
  split
  · rename_i j hj
    refine ⟨_, rfl, ?_⟩
    intro i hi
    rw [Function.update_of_ne]
    rintro rfl
    exact hi hj
  · exact ⟨s.buffers, rfl, fun _ _ => rfl⟩

/-- The effects of an act of the kernel.  An act that is not possible has
none. -/
inductive KernelTo (s : Sys B n) : KernelAct n → Sys B n → Prop where
  | same (act : KernelAct n)
      (htake : act = .consume → s.sq.kernelTake = none)
      (hdone : ∀ k res flags, act = .complete k res flags →
        ∀ op ∈ s.ops[k]?, ¬ (op.kind.Allows res flags ∧ s.cq.room)) :
      KernelTo s act s
  | dropped {sqe : Sqe (Word n) (Name n)}
      {sq : SubmissionRing (Word n) (Name n)}
      (htake : s.sq.kernelTake = some (sqe, sq))
      (hname : sqe.userData = none) : KernelTo s .consume { s with sq := sq }
  | taken {sqe : Sqe (Word n) (Name n)}
      {sq : SubmissionRing (Word n) (Name n)} {name : Name n}
      (htake : s.sq.kernelTake = some (sqe, sq))
      (hname : sqe.userData = some name) :
      KernelTo s .consume
        { s with sq := sq, ops := s.ops ++ [⟨name, s.opKind sqe⟩] }
  | scribbled (k : Nat) (bytes : Bytes) (buffers : Fin n → Bytes) :
      KernelTo s (.scribble k bytes) { s with buffers := buffers }
  | filled {k off len r : Nat} {name : Name n} {file : File} {buf : Word n}
      (hop : s.ops[k]? = some ⟨name, .read file off len buf none⟩)
      (buffers : Fin n → Bytes) :
      KernelTo s (.fill k r) { s with
        buffers := buffers
        ops := s.ops.set k ⟨name, .read file off len buf (some r)⟩ }
  | opened {k : Nat} {name : Name n} {path : Bytes} {fd : Int} {file : File}
      {flags : UInt32} (hop : s.ops[k]? = some ⟨name, .openat (some path)⟩)
      (hfd : 0 ≤ fd) (hfree : s.fds fd = none) (hroom : s.cq.room) :
      KernelTo s (.openDone k fd file flags) { s with
        fds := Function.update s.fds fd (some (.file file name.req))
        ops := s.ops.eraseIdx k
        cq := s.cq.post ⟨name, fd, flags⟩
        opens := s.opens ++ [⟨s.ticket name.req, path, file⟩] }
  | notified {k : Nat} {name : Name n} {res : Int} {flags : UInt32}
      (hop : s.ops[k]? = some ⟨name, .poll⟩) (hroom : s.cq.room) :
      KernelTo s (.notify k res flags)
        { s with cq := s.cq.post ⟨name, res, flags⟩ }
  | completed {k : Nat} {name : Name n} {kind : OpKind n} {res : Int}
      {flags : UInt32} (hop : s.ops[k]? = some ⟨name, kind⟩)
      (hallows : kind.Allows res flags) (hroom : s.cq.room) :
      KernelTo s (.complete k res flags) { s with
        ops := s.ops.eraseIdx k
        cq := s.cq.post ⟨name, res, flags⟩ }

/-- Most acts that are not possible are neither of the two that matter. -/
theorem KernelTo.idle {act : KernelAct n} (htake : act ≠ .consume)
    (hdone : ∀ k res flags, act ≠ .complete k res flags) :
    KernelTo s act s :=
  .same act (fun h => absurd h htake) fun k res flags h =>
    absurd h (hdone k res flags)

theorem kernelTo_kernel (s : Sys B n) (act : KernelAct n) :
    KernelTo s act (s.kernel act) := by
  cases act with
  | consume =>
    simp only [Sys.kernel, Sys.consume]
    split
    · rename_i htake
      exact .same _ (fun _ => htake) (by simp)
    · rename_i htake
      split
      · rename_i hname
        exact .dropped htake hname
      · rename_i hname
        exact .taken htake hname
  | scribble k bytes =>
    simp only [Sys.kernel, Sys.scribble]
    split
    · split_ifs
      · obtain ⟨buffers, hwrite, -⟩ := writeMem_eq s _ bytes
        rw [hwrite]
        exact .scribbled k bytes buffers
      · exact .idle (by simp) (by simp)
    · exact .idle (by simp) (by simp)
  | fill k r =>
    simp only [Sys.kernel, Sys.fill]
    split
    · rename_i hop
      split_ifs
      · obtain ⟨buffers, hwrite, -⟩ := writeMem_eq s _ _
        rw [hwrite]
        exact .filled hop buffers
      · exact .idle (by simp) (by simp)
    · exact .idle (by simp) (by simp)
  | openDone k fd file flags =>
    simp only [Sys.kernel, Sys.openDone]
    split
    · rename_i hop
      split_ifs with hdone
      · exact .opened hop hdone.2.1 hdone.2.2.1 hdone.2.2.2
      · exact .idle (by simp) (by simp)
    · exact .idle (by simp) (by simp)
  | notify k res flags =>
    simp only [Sys.kernel, Sys.notify]
    split
    · rename_i hop
      split_ifs with hdone
      · exact .notified hop hdone.2
      · exact .idle (by simp) (by simp)
    · exact .idle (by simp) (by simp)
  | complete k res flags =>
    simp only [Sys.kernel, Sys.complete]
    split
    · rename_i name kind hop
      split_ifs with hdone
      · exact .completed hop hdone.1 hdone.2
      · refine .same _ (by simp) ?_
        rintro k' res' flags' ⟨⟩ op hop'
        obtain rfl := Option.some.inj (hop.symm.trans hop')
        exact hdone
    · rename_i hop
      refine .same _ (by simp) ?_
      rintro k' res' flags' ⟨⟩ op hop'
      exact absurd (hop.symm.trans hop') (by simp)

end Sys

end Ride
