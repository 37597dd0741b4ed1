import Ride.Processor.Kernel

/-!
# The invariant of a processor

Every slot in flight is in one of three stages: it opens a file, it reads a
file, or it updates the timer of the verifier.  `Sys.Fits` says what the memory
of the slot holds in a stage, and `Sys.Carries` says what the one thing on its
way for the slot is.  Between them they tie the offset, the hasher and the
buffer of a slot to the content of its file.

`Sys.SlotInv` is the invariant of one slot.  It reads the slot itself and what
belongs to it, and nothing of the other slots.  `Sys.Keeps` is what a step has to
leave alone for a slot, and `SlotInv.keeps` is the frame rule.

`Sys.Inv` is the whole invariant.  A callback works on a slot for which nothing
is on its way, so `Inv` takes the slot that a callback holds as a parameter, and
asks nothing of it.
-/

namespace Ride

open CodeLib

/-- What a slot in flight works on: the path as a string on the heap, the file
and the number of bytes that the hasher has seen. -/
inductive Stage where
  | opening (path : Bytes) (id : Nat)
  | reading (path : Bytes) (id : Nat) (file : File) (off : Nat)
  | updating

/-- The kernel is going to write to the buffer `i` for it. -/
def Pending.Aims {n : Nat} (i : Fin n) : Pending n → Prop
  | .sqe q => q.addr.block = .buffer i
  | .op ⟨_, .read _ _ _ buf _⟩ => buf.block = .buffer i
  | _ => False

namespace Sys

variable {B : Blake3} {n : Nat}

/-! ## One slot -/

/-- The path is the one of the event that the slot works for.  A slot that works
for no event has the empty path. -/
def TaskPath (s : Sys B n) (i : Fin n) (path : Bytes) : Prop :=
  match s.tickets i with
  | none => path = []
  | some k => ∃ event, s.dequeued[k]? = some event ∧ cString event.path = path

/-- A slot that opens a file. -/
structure OpensFile (s : Sys B n) (i : Fin n) (path : Bytes) (id : Nat) :
    Prop where
  callback : (s.reqs i).req.callback = some .onFileOpen
  opcode : (s.reqs i).req.opcode = .openat
  addr : (s.reqs i).req.addr = .addr (.path id)
  data : (s.reqs i).data = some id
  string : s.strings id = some (path, i)
  task : s.TaskPath i path

/-- A slot that reads a file, with the first `off` bytes in its hasher. -/
structure ReadsFile (s : Sys B n) (i : Fin n) (path : Bytes) (id : Nat)
    (file : File) (off : Nat) : Prop where
  callback : (s.reqs i).req.callback = some .onFileRead
  opcode : (s.reqs i).req.opcode = .read
  addr : (s.reqs i).req.addr = .addr (.buffer i)
  len : (s.reqs i).req.len = UInt32.ofNat READ_BUF_SIZE
  off_eq : (s.reqs i).req.off = .num (UInt64.ofNat off)
  off_le : off ≤ file.content.length
  data : (s.reqs i).data = some id
  string : s.strings id = some (path, i)
  task : s.TaskPath i path
  fd : s.fds (s.reqs i).req.fd = some (.file file (.slot i))
  opened : ⟨s.tickets i, path, file⟩ ∈ s.opens
  path_ne : path ≠ []
  absorbed : B.Absorbed (s.reqs i).hasher (file.content.take off)

/-- A slot that updates the timer of the verifier. -/
structure UpdatesTimer (s : Sys B n) (i : Fin n) : Prop where
  callback : (s.reqs i).req.callback = some .onSocketTimeoutUpdate
  opcode : (s.reqs i).req.opcode = .timeoutRemove
  ticket : s.tickets i = none

/-- The memory of the slot is what the stage asks for. -/
def Fits (s : Sys B n) (i : Fin n) : Stage → Prop
  | .opening path id => s.OpensFile i path id
  | .reading path id file off => s.ReadsFile i path id file off
  | .updating => s.UpdatesTimer i

/-- A read of `r` bytes is a possible answer, and the buffer of the slot holds
them. -/
structure Delivered (s : Sys B n) (i : Fin n) (file : File) (off r : Nat) :
    Prop where
  reads : file.Reads off READ_BUF_SIZE r
  stored : (s.buffers i).take r = file.piece off r

/-- The name that an entry for the slot carries. -/
def slotName (s : Sys B n) (i : Fin n) : Name n := ⟨.slot i, s.gens i⟩

/-- The thing on its way for the slot is what the stage asks for. -/
def Carries (s : Sys B n) (i : Fin n) : Stage → Pending n → Prop
  | _, .cmd r => r = .slot i
  | _, .sqe q => q = sqeOf (s.slotName i) (s.reqs i).req.toIoReq
  | .opening path _, .op o => o = ⟨s.slotName i, .openat (some path)⟩
  | .opening path _, .cqe c =>
    c.userData = s.slotName i ∧
      (c.res < 0 ∨ ∃ file, s.fds c.res = some (.file file (.slot i)) ∧
        ⟨s.tickets i, path, file⟩ ∈ s.opens ∧ path ≠ [])
  | .reading _ _ file off, .op o =>
    ∃ filled, o = ⟨s.slotName i,
      .read file off READ_BUF_SIZE (.addr (.buffer i)) filled⟩ ∧
      ∀ r, filled = some r → s.Delivered i file off r
  | .reading _ _ file off, .cqe c =>
    c.userData = s.slotName i ∧
      (c.res < 0 ∨ ∃ r : Nat, c.res = r ∧ s.Delivered i file off r)
  | .updating, .op o => o = ⟨s.slotName i, .other⟩
  | .updating, .cqe c => c.userData = s.slotName i

/-- The slot has one thing on its way, or a submission of it was refused. -/
def Carried (s : Sys B n) (i : Fin n) (stage : Stage) : Prop :=
  (s.outstanding (.slot i) = 0 ∧ .slot i ∈ s.refused) ∨
    ∃ p, s.outstanding (.slot i) = {p} ∧ s.Carries i stage p

/-- The invariant of one slot. -/
structure SlotInv (s : Sys B n) (i : Fin n) : Prop where
  free : (s.reqs i).inFlight = false → s.outstanding (.slot i) = 0
  busy : (s.reqs i).inFlight = true →
    ∃ stage, s.Fits i stage ∧ s.Carried i stage

/-! ## The frame rule -/

/-- From `s` to `t`, nothing that belongs to the slot has changed, apart from
its buffer and what is on its way. -/
structure Keeps (i : Fin n) (s t : Sys B n) : Prop where
  slot : t.reqs i = s.reqs i
  gen : t.gens i = s.gens i
  ticket : t.tickets i = s.tickets i
  strings : ∀ id path, s.strings id = some (path, i) →
    t.strings id = some (path, i)
  fds : ∀ fd file, s.fds fd = some (.file file (.slot i)) →
    t.fds fd = some (.file file (.slot i))
  opens : ∀ o ∈ s.opens, o ∈ t.opens
  dequeued : s.dequeued <+: t.dequeued
  refused : ∀ r ∈ s.refused, r ∈ t.refused

section Frame

variable {i : Fin n} {s t : Sys B n}

theorem Keeps.slotName (h : Keeps i s t) : t.slotName i = s.slotName i := by
  rw [Sys.slotName, Sys.slotName, h.gen]

theorem Keeps.taskPath (h : Keeps i s t) {path : Bytes}
    (hp : s.TaskPath i path) : t.TaskPath i path := by
  unfold TaskPath at hp ⊢
  rw [h.ticket]
  cases hk : s.tickets i with
  | none => simpa only [hk] using hp
  | some k =>
    simp only [hk] at hp
    obtain ⟨event, hevent, hpath⟩ := hp
    obtain ⟨more, hmore⟩ := h.dequeued
    refine ⟨event, ?_, hpath⟩
    obtain ⟨hlt, -⟩ := List.getElem?_eq_some_iff.mp hevent
    rw [← hmore, List.getElem?_append_left hlt]
    exact hevent

theorem Keeps.opened (h : Keeps i s t) {path : Bytes} {file : File}
    (ho : ⟨s.tickets i, path, file⟩ ∈ s.opens) :
    ⟨t.tickets i, path, file⟩ ∈ t.opens := by
  rw [h.ticket]
  exact h.opens _ ho

theorem Fits.keeps (h : Keeps i s t) {stage : Stage} (hf : s.Fits i stage) :
    t.Fits i stage := by
  cases stage with
  | opening path id =>
    have hf : s.OpensFile i path id := hf
    refine ⟨?_, ?_, ?_, ?_, h.strings _ _ hf.string, h.taskPath hf.task⟩
    · rw [h.slot, hf.callback]
    · rw [h.slot, hf.opcode]
    · rw [h.slot, hf.addr]
    · rw [h.slot, hf.data]
  | reading path id file off =>
    have hf : s.ReadsFile i path id file off := hf
    refine ⟨?_, ?_, ?_, ?_, ?_, hf.off_le, ?_, h.strings _ _ hf.string,
      h.taskPath hf.task, ?_, h.opened hf.opened, hf.path_ne, ?_⟩
    · rw [h.slot, hf.callback]
    · rw [h.slot, hf.opcode]
    · rw [h.slot, hf.addr]
    · rw [h.slot, hf.len]
    · rw [h.slot, hf.off_eq]
    · rw [h.slot, hf.data]
    · rw [h.slot]
      exact h.fds _ _ hf.fd
    · rw [h.slot]
      exact hf.absorbed
  | updating =>
    have hf : s.UpdatesTimer i := hf
    refine ⟨?_, ?_, ?_⟩
    · rw [h.slot, hf.callback]
    · rw [h.slot, hf.opcode]
    · rw [h.ticket, hf.ticket]

theorem Delivered.keeps (hbuf : t.buffers i = s.buffers i) {file : File}
    {off r : Nat} (hd : s.Delivered i file off r) : t.Delivered i file off r :=
  ⟨hd.reads, by rw [hbuf]; exact hd.stored⟩

theorem Carries.keeps (h : Keeps i s t) (hbuf : t.buffers i = s.buffers i)
    {stage : Stage} {p : Pending n} (hc : s.Carries i stage p) :
    t.Carries i stage p := by
  cases p with
  | cmd r => cases stage <;> exact hc
  | sqe q =>
    have hq : q = sqeOf (s.slotName i) (s.reqs i).req.toIoReq := by
      cases stage <;> exact hc
    rw [← h.slotName, ← h.slot] at hq
    cases stage <;> exact hq
  | op o =>
    cases stage with
    | opening path id =>
      show o = _
      rw [h.slotName]
      exact hc
    | reading path id file off =>
      obtain ⟨filled, ho, hdel⟩ := hc
      refine ⟨filled, ?_, fun r hr => (hdel r hr).keeps hbuf⟩
      rw [h.slotName]
      exact ho
    | updating =>
      show o = _
      rw [h.slotName]
      exact hc
  | cqe c =>
    cases stage with
    | opening path id =>
      obtain ⟨hname, hres⟩ := hc
      refine ⟨by rw [h.slotName]; exact hname, ?_⟩
      rcases hres with hneg | ⟨file, hfd, hopen, hne⟩
      · exact Or.inl hneg
      · exact Or.inr ⟨file, h.fds _ _ hfd, h.opened hopen, hne⟩
    | reading path id file off =>
      obtain ⟨hname, hres⟩ := hc
      refine ⟨by rw [h.slotName]; exact hname, ?_⟩
      rcases hres with hneg | ⟨r, hr, hdel⟩
      · exact Or.inl hneg
      · exact Or.inr ⟨r, hr, hdel.keeps hbuf⟩
    | updating =>
      show c.userData = _
      rw [h.slotName]
      exact hc

/-- A step that leaves a slot alone keeps its invariant. -/
theorem SlotInv.keeps (h : Keeps i s t) (hbuf : t.buffers i = s.buffers i)
    (hout : t.outstanding (.slot i) = s.outstanding (.slot i))
    (hs : s.SlotInv i) : t.SlotInv i := by
  refine ⟨?_, ?_⟩
  · intro hfree
    rw [h.slot] at hfree
    rw [hout]
    exact hs.free hfree
  · intro hbusy
    rw [h.slot] at hbusy
    obtain ⟨stage, hfits, hcar⟩ := hs.busy hbusy
    refine ⟨stage, hfits.keeps h, ?_⟩
    unfold Carried
    rw [hout]
    rcases hcar with ⟨hnone, href⟩ | ⟨p, hp, hc⟩
    · exact Or.inl ⟨hnone, h.refused _ href⟩
    · exact Or.inr ⟨p, hp, hc.keeps h hbuf⟩

/-- What is on its way for a slot is the one thing that the invariant speaks
of. -/
theorem SlotInv.of_mem (hs : s.SlotInv i) {p : Pending n}
    (hmem : p ∈ s.transit) (hfor : p.For (.slot i)) :
    (s.reqs i).inFlight = true ∧ ∃ stage, s.Fits i stage ∧
      s.outstanding (.slot i) = {p} ∧ s.Carries i stage p := by
  have hout : p ∈ s.outstanding (.slot i) := mem_outstanding.mpr ⟨hmem, hfor⟩
  cases hfly : (s.reqs i).inFlight with
  | false =>
    rw [hs.free hfly] at hout
    exact absurd hout (Multiset.notMem_zero p)
  | true =>
    obtain ⟨stage, hfits, hcar⟩ := hs.busy hfly
    rcases hcar with ⟨hnone, -⟩ | ⟨q, hq, hc⟩
    · rw [hnone] at hout
      exact absurd hout (Multiset.notMem_zero p)
    · rw [hq, Multiset.mem_singleton] at hout
      subst hout
      exact ⟨rfl, stage, hfits, hq, hc⟩

/-- A slot whose thing on its way has become another one. -/
theorem SlotInv.moved (h : Keeps i s t) {stage : Stage} {p p' : Pending n}
    (hfly : (s.reqs i).inFlight = true) (hfits : s.Fits i stage)
    (hone : s.outstanding (.slot i) = {p}) (hmove : Moves s t p p')
    (hp : p.For (.slot i)) (hp' : p'.For (.slot i))
    (hc : t.Carries i stage p') : t.SlotInv i := by
  refine ⟨?_, ?_⟩
  · intro hfree
    rw [h.slot, hfly] at hfree
    exact absurd hfree (by decide)
  · intro _
    exact ⟨stage, hfits.keeps h,
      Or.inr ⟨p', hmove.outstanding_self hp hp' hone, hc⟩⟩

end Frame

/-! ## The tasks and the output -/

/-- What is known of the events that were taken from the queue. -/
structure Tasks (s : Sys B n) : Prop where
  lt : ∀ i k, (s.reqs i).inFlight = true → s.tickets i = some k →
    k < s.dequeued.length
  unsettled : ∀ i k, (s.reqs i).inFlight = true → s.tickets i = some k →
    ∀ r ∈ s.records, r.ticket ≠ some k
  inj : ∀ i j k, (s.reqs i).inFlight = true → (s.reqs j).inFlight = true →
    s.tickets i = some k → s.tickets j = some k → i = j
  accounted : ∀ k < s.dequeued.length,
    (∃ i, (s.reqs i).inFlight = true ∧ s.tickets i = some k) ∨
      some k ∈ s.errors ∨ ∃ r ∈ s.records, r.ticket = some k

/-- A line of the output belongs to an event, and carries its path and the
digest of the whole file that was opened for it. -/
def RecordOk (s : Sys B n) (r : Record) : Prop :=
  ∃ k event file, r.ticket = some k ∧ s.dequeued[k]? = some event ∧
    r.file = cString event.path ∧ ⟨some k, r.file, file⟩ ∈ s.opens ∧
    r.hash = B.hash file.content

/-- What holds of the output, also when the run has ended. -/
structure Output (s : Sys B n) : Prop where
  records : ∀ r ∈ s.records, s.RecordOk r
  nodup : (s.records.map Record.ticket).Nodup
  frees : ∀ f ∈ s.frees, f.2 = true
  asserts : s.halted ≠ some .assertion

theorem RecordOk.mono {s t : Sys B n} {r : Record} (h : s.RecordOk r)
    (hdeq : s.dequeued <+: t.dequeued) (hopen : ∀ o ∈ s.opens, o ∈ t.opens) :
    t.RecordOk r := by
  obtain ⟨k, event, file, hk, hevent, hpath, hfile, hhash⟩ := h
  obtain ⟨more, hmore⟩ := hdeq
  obtain ⟨hlt, -⟩ := List.getElem?_eq_some_iff.mp hevent
  refine ⟨k, event, file, hk, ?_, hpath, hopen _ hfile, hhash⟩
  rw [← hmore, List.getElem?_append_left hlt]
  exact hevent

/-- The ticket of a line is older than the next event. -/
theorem RecordOk.ticket_lt {s : Sys B n} {r : Record} (h : s.RecordOk r)
    {k : Nat} (hk : r.ticket = some k) : k < s.dequeued.length := by
  obtain ⟨k', event, file, hk', hevent, -⟩ := h
  obtain rfl : k' = k := Option.some.inj (hk'.symm.trans hk)
  exact (List.getElem?_eq_some_iff.mp hevent).1

/-! ## The whole invariant -/

/-- The fields of a slot that never change. -/
structure SlabOk (s : Sys B n) (i : Fin n) : Prop where
  buffer : (s.reqs i).buffer = i
  id : (s.reqs i).id = i.val

/-- A request points to the slot that it lies in, and names no buffer but the
one of its slot. -/
structure ReqOk (s : Sys B n) (r : ReqPtr n) : Prop where
  data2 : (s.req r).data2 = r.container
  addr : ∀ i, (s.req r).addr.block = .buffer i → r = .slot i

/-- The invariant of a processor.  `held` is the slot that a callback works
on. -/
structure Inv (held : Option (Fin n)) (s : Sys B n) : Prop where
  sq : s.sq.Wf
  cq : s.cq.Wf
  list : FreeList (fun i => (s.reqs i).next) s.reqsList
    (fun i => (s.reqs i).inFlight = false) s.nrFreeReqs
  slab : ∀ i, s.SlabOk i
  reqs : ∀ r, s.ReqOk r
  aims : ∀ p ∈ s.transit, ∀ i, p.Aims i → p.For (.slot i)
  slots : ∀ i, held ≠ some i → s.SlotInv i
  tasks : s.Tasks
  fresh : ∀ id, s.nextString ≤ id → s.strings id = none
  output : s.Output

/-- What a submission to come is about does not matter for the buffers. -/
theorem Inv.aims_of_rings {held : Option (Fin n)} {s t : Sys B n}
    (h : Inv held s) (hrings : t.inRings = s.inRings) :
    ∀ p ∈ t.transit, ∀ i, p.Aims i → p.For (.slot i) := by
  intro p hp i hi
  rw [transit, Multiset.mem_add, Multiset.mem_coe, List.mem_filterMap,
    hrings] at hp
  rcases hp with ⟨cmd, -, hcmd⟩ | hp
  · cases cmd with
    | flushEgress => exact absurd hcmd (by simp [Cmd.pending])
    | submit r =>
      obtain rfl : Pending.cmd r = p := Option.some.inj hcmd
      exact hi.elim
  · apply h.aims p _ i hi
    rw [transit, Multiset.mem_add]
    exact Or.inr hp

/-! ## Steps that leave the slab alone -/

/-- From `s` to `t`, the slab and the history of the tasks have not changed. -/
structure SameSlab (s t : Sys B n) : Prop where
  reqs : t.reqs = s.reqs
  reqsList : t.reqsList = s.reqsList
  nrFreeReqs : t.nrFreeReqs = s.nrFreeReqs
  strings : t.strings = s.strings
  nextString : t.nextString = s.nextString
  gens : t.gens = s.gens
  tickets : t.tickets = s.tickets
  dequeued : t.dequeued = s.dequeued
  records : t.records = s.records
  errors : t.errors = s.errors
  frees : t.frees = s.frees
  halted : t.halted = s.halted
  opens : ∀ o ∈ s.opens, o ∈ t.opens
  refused : ∀ r ∈ s.refused, r ∈ t.refused

/-- From `s` to `t`, the memory of the program has not changed. -/
structure SameMemory (s t : Sys B n) : Prop extends SameSlab s t where
  req : t.req = s.req

theorem SameSlab.keeps {s t : Sys B n} (h : SameSlab s t) (i : Fin n)
    (hfds : ∀ fd file, s.fds fd = some (.file file (.slot i)) →
      t.fds fd = some (.file file (.slot i))) : Keeps i s t where
  slot := by rw [h.reqs]
  gen := by rw [h.gens]
  ticket := by rw [h.tickets]
  strings := by
    intro id path hid
    rw [h.strings]
    exact hid
  fds := hfds
  opens := h.opens
  dequeued := h.dequeued.symm ▸ List.prefix_rfl
  refused := h.refused

theorem Tasks.congr {s t : Sys B n} (h : s.Tasks)
    (hfly : ∀ i, (t.reqs i).inFlight = (s.reqs i).inFlight)
    (hticket : t.tickets = s.tickets) (hdeq : t.dequeued = s.dequeued)
    (hrec : t.records = s.records) (herr : t.errors = s.errors) : t.Tasks := by
  refine ⟨?_, ?_, ?_, ?_⟩
  · simp only [hfly, hticket, hdeq]
    exact h.lt
  · simp only [hfly, hticket, hrec]
    exact h.unsettled
  · simp only [hfly, hticket]
    exact h.inj
  · simp only [hfly, hticket, hdeq, herr, hrec]
    exact h.accounted

theorem Output.of_same {s t : Sys B n} (h : s.Output) (hs : SameSlab s t) :
    t.Output := by
  refine ⟨?_, ?_, ?_, ?_⟩
  · rw [hs.records]
    intro r hr
    exact (h.records r hr).mono (hs.dequeued.symm ▸ List.prefix_rfl) hs.opens
  · rw [hs.records]
    exact h.nodup
  · rw [hs.frees]
    exact h.frees
  · rw [hs.halted]
    exact h.asserts

/-- A step that leaves the slab alone has to look after the rings, the requests
and the slots only. -/
theorem Inv.of_slab {held : Option (Fin n)} {s t : Sys B n} (h : Inv held s)
    (hs : SameSlab s t) (hsq : t.sq.Wf) (hcq : t.cq.Wf)
    (hreqs : ∀ r, t.ReqOk r)
    (haims : ∀ p ∈ t.transit, ∀ i, p.Aims i → p.For (.slot i))
    (hslots : ∀ i, held ≠ some i → t.SlotInv i) : Inv held t where
  sq := hsq
  cq := hcq
  list := by
    rw [hs.reqs, hs.reqsList, hs.nrFreeReqs]
    exact h.list
  slab := by
    intro i
    have hi := h.slab i
    exact ⟨by rw [hs.reqs]; exact hi.buffer, by rw [hs.reqs]; exact hi.id⟩
  reqs := hreqs
  aims := haims
  slots := hslots
  tasks := h.tasks.congr (fun _ => by rw [hs.reqs]) hs.tickets hs.dequeued
    hs.records hs.errors
  fresh := by
    rw [hs.nextString, hs.strings]
    exact h.fresh
  output := h.output.of_same hs

/-- A step that leaves the memory alone has to look after the rings and the
slots only. -/
theorem Inv.of_same {held : Option (Fin n)} {s t : Sys B n} (h : Inv held s)
    (hs : SameMemory s t) (hsq : t.sq.Wf) (hcq : t.cq.Wf)
    (haims : ∀ p ∈ t.transit, ∀ i, p.Aims i → p.For (.slot i))
    (hslots : ∀ i, held ≠ some i → t.SlotInv i) : Inv held t := by
  refine h.of_slab hs.toSameSlab hsq hcq ?_ haims hslots
  intro r
  refine ⟨?_, ?_⟩
  · rw [hs.req]
    exact (h.reqs r).data2
  · rw [hs.req]
    exact (h.reqs r).addr

end Sys

end Ride
