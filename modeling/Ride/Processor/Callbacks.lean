import Ride.Processor.SlotInv

/-!
# The callbacks keep the invariant

A callback starts with the result of its completion in its request.  For a slot,
`Sys.Held` says what is known then: the slot is in a stage, nothing is on its way
for it any more, and the result is one that the kernel can give in the stage.

`Sys.SlotOutcome` lists the states that the callback of a slot can leave behind.
Every one of them is `Sys.Good`: either the invariant holds, or the run has ended,
and then the output is right all the same.
-/

namespace Ride

open CodeLib

namespace Sys

variable {B : Blake3} {n : Nat} {i : Fin n} {s t : Sys B n}

/-- The output is right, and the invariant holds unless the run has ended. -/
structure Good (s : Sys B n) : Prop where
  output : s.Output
  inv : s.halted = none → Inv none s

theorem Good.of_inv (h : Inv none s) : s.Good :=
  ⟨h.output, fun _ => h⟩

/-- A run that ends keeps its output. -/
theorem Good.halt (h : s.Output) {how : Halt} (hhow : how ≠ .assertion) :
    (s.halt how).Good := by
  refine ⟨⟨h.records, h.nodup, h.frees, ?_⟩, ?_⟩
  · intro heq
    exact hhow (Option.some.inj heq)
  · intro hrun
    exact absurd hrun (by simp [Sys.halt])

/-- The result that a callback of the slot finds in its request. -/
def Result (s : Sys B n) (i : Fin n) : Stage → Prop
  | .opening path _ =>
    (s.reqs i).req.result < 0 ∨ ∃ file,
      s.fds (s.reqs i).req.result = some (.file file (.slot i)) ∧
        ⟨s.tickets i, path, file⟩ ∈ s.opens ∧ path ≠ []
  | .reading _ _ file off =>
    (s.reqs i).req.result < 0 ∨
      ∃ r : Nat, (s.reqs i).req.result = r ∧ s.Delivered i file off r
  | .updating => True

/-- A callback works on the slot. -/
structure Held (s : Sys B n) (i : Fin n) (stage : Stage) : Prop where
  inv : Inv (some i) s
  inFlight : (s.reqs i).inFlight = true
  fits : s.Fits i stage
  outstanding : s.outstanding (.slot i) = 0
  todo : s.todo = []
  result : s.Result i stage

/-- The state between callbacks, seen from a request that is no slot. -/
theorem outstanding_todo_nil (htodo : s.todo = []) (r : ReqPtr n) :
    s.outstanding r = s.inRings.filter (Pending.For r) := by
  apply outstanding_of_not_mem
  rw [htodo]
  exact List.not_mem_nil

theorem Held.data2 {stage : Stage} (h : s.Held i stage) :
    (s.reqs i).req.data2 = some i :=
  (h.inv.reqs (.slot i)).data2

/-! ## The end of a task -/

/-- The path is freed, and the slot goes back to the list. -/
theorem freePath_eq {id : Nat} {x : Bytes × Fin n}
    (hdata : (s.reqs i).data = some id) (hstring : s.strings id = some x) :
    s.freePath i = some { s with
      reqs := Function.update s.reqs i { s.reqs i with data := none, data2 := 0 }
      strings := Function.update s.strings id none } := by
  simp only [freePath, hdata, hstring, setSlot]

/-- The state behind the release of a slot, with the lines and the errors that
the callback has written before. -/
def freed (s : Sys B n) (i : Fin n) (slot : Slot B.State n)
    (strings : Nat → Option (Bytes × Fin n)) (fds : Int → Option (Fd n))
    (records : List Record) (errors : List (Option Nat)) : Sys B n :=
  { s with
    reqs := Function.update s.reqs i slot
    reqsList := some i
    nrFreeReqs := s.nrFreeReqs + 1
    strings := strings
    fds := fds
    records := records
    errors := errors
    frees := s.frees ++ [(i, true)] }

/-- A slot is released: its memory is in order, nothing of the other slots is
gone, and the task is settled. -/
theorem Held.freed {stage : Stage} (h : s.Held i stage)
    (slot : Slot B.State n) {strings : Nat → Option (Bytes × Fin n)}
    {fds : Int → Option (Fd n)} (lines : Option Record)
    (errors : List (Option Nat))
    (hreq : slot.req = (s.reqs i).req) (hbuffer : slot.buffer = (s.reqs i).buffer)
    (hid : slot.id = (s.reqs i).id) (hfree : slot.inFlight = false)
    (hnext : slot.next = s.reqsList)
    (hstrings : ∀ j, j ≠ i → ∀ id path, s.strings id = some (path, j) →
      strings id = some (path, j))
    (hfresh : ∀ id, s.strings id = none → strings id = none)
    (hfds : ∀ j, j ≠ i → ∀ fd file, s.fds fd = some (.file file (.slot j)) →
      fds fd = some (.file file (.slot j)))
    (hline : ∀ r ∈ lines, s.RecordOk r ∧ r.ticket = s.tickets i)
    (hend : ∀ k, s.tickets i = some k →
      some k ∈ errors ∨ ∃ r ∈ lines, r.ticket = some k) :
    Inv none (s.freed i slot strings fds (s.records ++ lines.toList)
      (s.errors ++ errors)) := by
  have hself : (s.freed i slot strings fds (s.records ++ lines.toList)
      (s.errors ++ errors)).reqs i = slot := Function.update_self ..
  have hout : ∀ r, (s.freed i slot strings fds (s.records ++ lines.toList)
      (s.errors ++ errors)).outstanding r = s.outstanding r := fun _ => rfl
  have ho : OnlySlot i s (s.freed i slot strings fds
      (s.records ++ lines.toList) (s.errors ++ errors)) := by
    refine OnlySlot.of_update rfl hbuffer hid ?_ ?_ rfl rfl rfl rfl rfl rfl rfl
      (fun j _ => hout _) rfl (fun _ _ => rfl) (fun _ _ => rfl) hstrings hfds
      rfl List.prefix_rfl rfl
    · rw [hreq]
      exact h.data2
    · intro j hj
      rw [hreq] at hj
      have hslot := (h.inv.reqs (.slot i)).addr j hj
      exact (ReqPtr.slot.inj hslot).symm
  have hticket : ∀ r ∈ lines, ∀ r' ∈ s.records, r'.ticket ≠ r.ticket := by
    intro r hr r' hr'
    obtain ⟨hok, htr⟩ := hline r hr
    obtain ⟨k, -, -, hk, -⟩ := hok
    rw [hk]
    exact h.inv.tasks.unsettled i k h.inFlight (htr ▸ hk) r' hr'
  refine h.inv.released ho ?_ h.inFlight ?_ ?_ rfl rfl ?_ ?_ ?_
  · rw [hout]
    exact h.outstanding
  · rw [hself, hfree]
  · rw [hself, hnext]
  · exact h.inv.tasks.released ho h.inFlight (by rw [hself, hfree]) rfl rfl rfl
      (fun r hr => (hline r hr).2) hend
  · intro id hle
    exact hfresh id (h.inv.fresh id hle)
  · refine h.inv.output.extended lines List.prefix_rfl (fun _ ho => ho) rfl ?_ ?_
      h.inv.output.asserts
    · intro r hr
      exact ⟨(hline r hr).1, hticket r hr⟩
    · intro f hf
      rcases List.mem_append.mp hf with hold | hnew
      · exact Or.inl hold
      · rw [List.mem_singleton.mp hnew]
        exact Or.inr rfl

/-- Freeing the path of a slot leaves the paths of the others. -/
theorem strings_of_free {id : Nat} {path : Bytes}
    (hstring : s.strings id = some (path, i)) :
    (∀ j, j ≠ i → ∀ id' path', s.strings id' = some (path', j) →
      Function.update s.strings id none id' = some (path', j)) ∧
    (∀ id', s.strings id' = none → Function.update s.strings id none id' = none) := by
  refine ⟨?_, ?_⟩
  · intro j hj id' path' hid'
    rw [Function.update_of_ne]
    · exact hid'
    · rintro rfl
      rw [hstring, Option.some.injEq, Prod.mk.injEq] at hid'
      exact hj hid'.2.symm
  · intro id' hid'
    by_cases heq : id' = id
    · rw [heq, Function.update_self]
    · rw [Function.update_of_ne heq]
      exact hid'

/-- Closing the file of a slot leaves the files of the others. -/
theorem fds_of_close {fd : Int} {file : File}
    (hfd : s.fds fd = some (.file file (.slot i))) :
    ∀ j, j ≠ i → ∀ fd' file', s.fds fd' = some (.file file' (.slot j)) →
      Function.update s.fds fd none fd' = some (.file file' (.slot j)) := by
  intro j hj fd' file' hfd'
  rw [Function.update_of_ne]
  · exact hfd'
  · rintro rfl
    rw [hfd, Option.some.injEq, Fd.file.injEq, ReqPtr.slot.injEq] at hfd'
    exact hj hfd'.2.symm

/-! ## A task that goes on -/

/-- The state behind a callback that prepares the next submission of its
slot. -/
def resumed (s : Sys B n) (i : Fin n) (slot : Slot B.State n) : Sys B n :=
  { s with
    reqs := Function.update s.reqs i slot
    todo := [.submit (.slot i)] }

/-- The slot gets its next submission. -/
theorem Held.resumed {stage : Stage} (h : s.Held i stage) (next : Stage)
    {slot : Slot B.State n} (hdata2 : slot.req.data2 = some i)
    (haddr : ∀ j, slot.req.addr.block = .buffer j → j = i)
    (hbuffer : slot.buffer = (s.reqs i).buffer)
    (hid : slot.id = (s.reqs i).id) (hfly : slot.inFlight = true)
    (hnext : slot.next = (s.reqs i).next)
    (hfits : (s.resumed i slot).Fits i next) :
    Inv none (s.resumed i slot) := by
  have hself : Function.update s.reqs i slot i = slot := Function.update_self ..
  have hother : ∀ j, j ≠ i → Function.update s.reqs i slot j = s.reqs j :=
    fun j hj => Function.update_of_ne hj ..
  refine h.inv.resumed ?_ h.outstanding h.inFlight ?_ ?_ rfl rfl hfits rfl ?_
    h.inv.fresh ⟨h.inv.output.records, h.inv.output.nodup, h.inv.output.frees,
      h.inv.output.asserts⟩
  · refine OnlySlot.of_update rfl hbuffer hid hdata2 haddr rfl rfl rfl rfl rfl
      rfl rfl ?_ rfl (fun _ _ => rfl) (fun _ _ => rfl) (fun _ _ _ _ hid => hid)
      (fun _ _ _ _ hfd => hfd) rfl List.prefix_rfl rfl
    intro j hj
    rw [outstanding_todo_nil h.todo, outstanding_of_not_mem]
    · rfl
    · simp [Sys.resumed, hj]
  · simp only [Sys.resumed, hself, hfly]
  · simp only [Sys.resumed, hself, hnext]
  · refine h.inv.tasks.congr ?_ rfl rfl rfl rfl
    intro j
    by_cases hj : j = i
    · simp only [Sys.resumed, hj, hself, hfly, h.inFlight]
    · simp only [Sys.resumed, hother j hj]

/-! ## What the callback of a slot does -/

/-- The slot behind its release. -/
def releasedSlot (s : Sys B n) (i : Fin n) (hasher : B.State) (data2 : Int) :
    Slot B.State n :=
  { s.reqs i with
    hasher := hasher
    data := none
    data2 := data2
    inFlight := false
    next := s.reqsList }

/-- The slot that `on_file_open` prepares for the first read. -/
def readSlot (s : Sys B n) (i : Fin n) : Slot B.State n :=
  { s.reqs i with
    hasher := B.init
    req := { (s.reqs i).req with
      opcode := .read
      fd := (s.reqs i).req.result
      addr := .addr (.buffer i)
      len := UInt32.ofNat READ_BUF_SIZE
      off := .num 0
      callback := some .onFileRead } }

/-- The slot that `on_file_read` prepares for the read behind `off + r`. -/
def moreSlot (s : Sys B n) (i : Fin n) (bytes : Bytes) (off r : Nat) :
    Slot B.State n :=
  { s.reqs i with
    hasher := B.update (s.reqs i).hasher bytes
    req := { (s.reqs i).req with
      off := ⟨.null, UInt64.ofNat off + UInt64.ofNat r⟩ } }

/-- The hasher at the end of the file. -/
def lastHasher (s : Sys B n) (i : Fin n) : B.State :=
  B.update (s.reqs i).hasher []

/-- The line that `on_file_read` prints at the end of the file. -/
def printedLine (s : Sys B n) (i : Fin n) (path : Bytes) : Record :=
  ⟨s.tickets i, s.id, (s.reqs i).id, path, B.finalize (s.lastHasher i)⟩

/-- The states that a callback can leave behind, for a slot that it holds. -/
inductive SlotOutcome (s : Sys B n) (i : Fin n) (ans : Answers) :
    Sys B n → Prop where
  | openFailed {path : Bytes} {id : Nat} (hfits : s.OpensFile i path id)
      (hneg : (s.reqs i).req.result < 0) :
      SlotOutcome s i ans (s.freed i (s.releasedSlot i (s.reqs i).hasher 0)
        (Function.update s.strings id none) s.fds s.records
        (s.errors ++ [s.tickets i]))
  | opened {path : Bytes} {id : Nat} {file : File}
      (hfits : s.OpensFile i path id)
      (hfd : s.fds (s.reqs i).req.result = some (.file file (.slot i)))
      (hopen : ⟨s.tickets i, path, file⟩ ∈ s.opens) (hne : path ≠ []) :
      SlotOutcome s i ans (s.resumed i (s.readSlot i))
  | readFailed {path : Bytes} {id off : Nat} {file : File}
      (hfits : s.ReadsFile i path id file off)
      (hneg : (s.reqs i).req.result < 0) :
      SlotOutcome s i ans (s.freed i (s.releasedSlot i (s.reqs i).hasher 0)
        (Function.update s.strings id none)
        (Function.update s.fds (s.reqs i).req.fd none) s.records
        (s.errors ++ [s.tickets i]))
  | readMore {path : Bytes} {id off r : Nat} {file : File}
      (hfits : s.ReadsFile i path id file off)
      (hres : (s.reqs i).req.result = r) (hpos : r ≠ 0)
      (hdel : s.Delivered i file off r) :
      SlotOutcome s i ans
        (s.resumed i (s.moreSlot i (file.piece off r) off r))
  | printed {path : Bytes} {id off : Nat} {file : File}
      (hfits : s.ReadsFile i path id file off)
      (hres : (s.reqs i).req.result = 0) (hdel : s.Delivered i file off 0)
      (hverify : s.verifierVerifyHash ans = true) :
      SlotOutcome s i ans (s.freed i (s.releasedSlot i (s.lastHasher i) 0)
        (Function.update s.strings id none)
        (Function.update s.fds (s.reqs i).req.fd none)
        (s.records ++ [s.printedLine i path]) s.errors)
  | verifyFailed {path : Bytes} {id off : Nat} {file : File}
      (hfits : s.ReadsFile i path id file off)
      (hres : (s.reqs i).req.result = 0) (hdel : s.Delivered i file off 0)
      (hverify : s.verifierVerifyHash ans = false) :
      SlotOutcome s i ans ({ s with
        reqs := Function.update s.reqs i
          { s.reqs i with hasher := s.lastHasher i }
        records := s.records ++ [s.printedLine i path] }.halt .fault)
  | updated (hfits : s.UpdatesTimer i) :
      SlotOutcome s i ans (s.freed i
        (s.releasedSlot i (s.reqs i).hasher (s.reqs i).data2) s.strings s.fds
        s.records s.errors)

theorem path_eq {id : Nat} {path : Bytes} {j : Fin n}
    (hdata : (s.reqs i).data = some id)
    (hstring : s.strings id = some (path, j)) : s.path i = some path := by
  simp [Sys.path, hdata, hstring]

theorem Held.onFileOpen {path : Bytes} {id : Nat}
    (h : s.Held i (.opening path id)) (ans : Answers) :
    SlotOutcome s i ans (s.onFileOpen (.slot i)) := by
  have hfits : s.OpensFile i path id := h.fits
  by_cases hneg : (s.reqs i).req.result < 0
  · have hstate : s.onFileOpen (.slot i) =
        s.freed i (s.releasedSlot i (s.reqs i).hasher 0)
          (Function.update s.strings id none) s.fds s.records
          (s.errors ++ [s.tickets i]) := by
      have hfree := freePath_eq (s := { s with
        errors := s.errors ++ [s.tickets i] }) hfits.data hfits.string
      simp only [Sys.onFileOpen, Sys.req, h.data2, if_pos hneg, logError,
        path_eq hfits.data hfits.string, Option.map_some, Option.bind_some,
        hfree]
      simp [processorFreeReq, Sys.freed, releasedSlot, h.inFlight]
    rw [hstate]
    exact .openFailed hfits hneg
  · have hres : s.Result i (.opening path id) := h.result
    obtain ⟨file, hfd, hopen, hne⟩ := hres.resolve_left hneg
    have hstate : s.onFileOpen (.slot i) = s.resumed i (s.readSlot i) := by
      simp [Sys.onFileOpen, Sys.req, h.data2, if_neg hneg, setReq, setSlot,
        (h.inv.slab i).buffer, Sys.resumed, readSlot]
    rw [hstate]
    exact .opened hfits hfd hopen hne

/-- The release at the end of `on_file_read`, behind the lines and the errors
that it has written. -/
theorem releaseRead_eq {path : Bytes} {id : Nat} (hasher : B.State)
    (records : List Record) (errors : List (Option Nat))
    (hdata : (s.reqs i).data = some id)
    (hstring : s.strings id = some (path, i))
    (hfly : (s.reqs i).inFlight = true) :
    { s with
      reqs := Function.update s.reqs i { s.reqs i with hasher := hasher }
      records := records
      errors := errors }.releaseRead (.slot i) i =
    s.freed i (s.releasedSlot i hasher 0) (Function.update s.strings id none)
      (Function.update s.fds (s.reqs i).req.fd none) records errors := by
  have hdata' : (Function.update s.reqs i { s.reqs i with hasher := hasher }
      i).data = some id := by simp [hdata]
  have hfree := freePath_eq (s := { s with
      reqs := Function.update s.reqs i { s.reqs i with hasher := hasher }
      records := records
      errors := errors }) hdata' hstring
  simp only [releaseRead, hfree]
  simp [processorFreeReq, close, Sys.freed, releasedSlot, Sys.req, hfly]

/-- A read that failed ends the task with a logged error. -/
theorem Held.onFileRead_failed {path : Bytes} {id off : Nat} {file : File}
    (h : s.Held i (.reading path id file off)) (ans : Answers)
    (hneg : (s.reqs i).req.result < 0) :
    SlotOutcome s i ans (s.onFileRead (.slot i) ans) := by
  have hfits : s.ReadsFile i path id file off := h.fits
  have hsame : s.onFileRead (.slot i) ans = { s with
      reqs := Function.update s.reqs i (s.reqs i)
      records := s.records
      errors := s.errors ++ [s.tickets i] }.releaseRead (.slot i) i := by
    simp only [Sys.onFileRead, Sys.req, h.data2, if_pos hneg, logError,
      path_eq hfits.data hfits.string, Option.map_some,
      Function.update_eq_self]
  rw [hsame, releaseRead_eq (s.reqs i).hasher s.records
    (s.errors ++ [s.tickets i]) hfits.data hfits.string h.inFlight]
  exact .readFailed hfits hneg

/-- The bytes that the callback hashes are the next piece of the file. -/
theorem Held.readMem {path : Bytes} {id off r : Nat} {file : File}
    (h : s.Held i (.reading path id file off))
    (hdel : s.Delivered i file off r) :
    s.readMem (s.reqs i).req.addr r = some (file.piece off r) := by
  have hfits : s.ReadsFile i path id file off := h.fits
  rw [hfits.addr]
  simp only [Sys.readMem, Word.addr]
  rw [show (0 : UInt64).toNat = 0 from rfl, List.drop_zero, hdel.stored]

/-- The end of the file ends the task with a line of output, or the run ends in
the verifier behind the line. -/
theorem Held.onFileRead_end {path : Bytes} {id off : Nat} {file : File}
    (h : s.Held i (.reading path id file off)) (ans : Answers)
    (hzero : (s.reqs i).req.result = 0) (hdel : s.Delivered i file off 0) :
    SlotOutcome s i ans (s.onFileRead (.slot i) ans) := by
  have hfits : s.ReadsFile i path id file off := h.fits
  have hread := h.readMem hdel
  have hpiece : file.piece off 0 = [] := by rw [File.piece, List.take_zero]
  rw [hpiece] at hread
  have hprint : s.onFileRead (.slot i) ans =
      if s.verifierVerifyHash ans then
        { s with
          reqs := Function.update s.reqs i
            { s.reqs i with hasher := s.lastHasher i }
          records := s.records ++ [s.printedLine i path]
          errors := s.errors }.releaseRead (.slot i) i
      else { s with
        reqs := Function.update s.reqs i
          { s.reqs i with hasher := s.lastHasher i }
        records := s.records ++ [s.printedLine i path] }.halt .fault := by
    have hlast : B.update (s.reqs i).hasher [] = s.lastHasher i := rfl
    have hpath : (s.setSlot i { s.reqs i with
        hasher := s.lastHasher i }).path i = some path :=
      path_eq (by simp [setSlot, hfits.data]) hfits.string
    simp only [Sys.onFileRead, Sys.req, h.data2, hzero, lt_irrefl, if_false,
      if_true, Int.toNat_zero, hread, processorPrintHash, hlast, hpath,
      Option.map_some]
    simp only [setSlot, Function.update_self, printedLine]
    rfl
  rw [hprint]
  cases hverify : s.verifierVerifyHash ans with
  | true =>
    rw [if_pos rfl, releaseRead_eq _ _ _ hfits.data hfits.string h.inFlight]
    exact .printed hfits hzero hdel hverify
  | false =>
    rw [if_neg (by decide)]
    exact .verifyFailed hfits hzero hdel hverify

/-- A piece in the middle of the file goes to the hasher, and the next read
starts behind it. -/
theorem Held.onFileRead_more {path : Bytes} {id off r : Nat} {file : File}
    (h : s.Held i (.reading path id file off)) (ans : Answers)
    (hres : (s.reqs i).req.result = r) (hpos : r ≠ 0)
    (hdel : s.Delivered i file off r) :
    SlotOutcome s i ans (s.onFileRead (.slot i) ans) := by
  have hfits : s.ReadsFile i path id file off := h.fits
  have hread := h.readMem hdel
  have hstate : s.onFileRead (.slot i) ans =
      s.resumed i (s.moreSlot i (file.piece off r) off r) := by
    have hnonneg : ¬ (r : Int) < 0 := by omega
    have hne : ¬ (r : Int) = 0 := by omega
    simp only [Sys.onFileRead, Sys.req, h.data2, hres, if_neg hnonneg,
      if_neg hne, Int.toNat_natCast, hread, setReq, setSlot,
      Function.update_self, Function.update_idem, hfits.off_eq, Word.num,
      Sys.resumed, moreSlot]
  rw [hstate]
  exact .readMore hfits hres hpos hdel

theorem Held.onFileRead {path : Bytes} {id off : Nat} {file : File}
    (h : s.Held i (.reading path id file off)) (ans : Answers) :
    SlotOutcome s i ans (s.onFileRead (.slot i) ans) := by
  have hresult : s.Result i (.reading path id file off) := h.result
  rcases hresult with hneg | ⟨r, hres, hdel⟩
  · exact h.onFileRead_failed ans hneg
  · by_cases hzero : r = 0
    · subst hzero
      exact h.onFileRead_end ans hres hdel
    · exact h.onFileRead_more ans hres hzero hdel

theorem Held.onSocketTimeoutUpdate (h : s.Held i .updating) (ans : Answers) :
    SlotOutcome s i ans (s.onSocketTimeoutUpdate (.slot i)) := by
  have hstate : s.onSocketTimeoutUpdate (.slot i) = s.freed i
      (s.releasedSlot i (s.reqs i).hasher (s.reqs i).data2) s.strings s.fds
      s.records s.errors := by
    simp [Sys.onSocketTimeoutUpdate, Sys.req, h.data2, processorFreeReq,
      Sys.freed, releasedSlot, h.inFlight]
  rw [hstate]
  exact .updated h.fits

/-- The callback of a slot is the one of its stage. -/
theorem Held.call {stage : Stage} (h : s.Held i stage) (ans : Answers) :
    SlotOutcome s i ans (s.call (.slot i) ans) := by
  cases stage with
  | opening path id =>
    have hfits : s.OpensFile i path id := h.fits
    simp only [Sys.call, Sys.req, hfits.callback]
    exact h.onFileOpen ans
  | reading path id file off =>
    have hfits : s.ReadsFile i path id file off := h.fits
    simp only [Sys.call, Sys.req, hfits.callback]
    exact h.onFileRead ans
  | updating =>
    have hfits : s.UpdatesTimer i := h.fits
    simp only [Sys.call, Sys.req, hfits.callback]
    exact h.onSocketTimeoutUpdate ans

/-! ## The callbacks of the slots keep the invariant -/

/-- The bytes of the next piece follow the ones before it. -/
theorem File.take_add (file : File) (off r : Nat) :
    file.content.take off ++ file.piece off r = file.content.take (off + r) := by
  rw [File.piece, List.take_add]

/-- The event of a slot that reads a file. -/
theorem ReadsFile.event {path : Bytes} {id off : Nat} {file : File}
    (h : s.ReadsFile i path id file off) :
    ∃ k event, s.tickets i = some k ∧ s.dequeued[k]? = some event ∧
      path = cString event.path := by
  have htask := h.task
  unfold TaskPath at htask
  cases hk : s.tickets i with
  | none =>
    simp only [hk] at htask
    exact absurd htask h.path_ne
  | some k =>
    simp only [hk] at htask
    obtain ⟨event, hevent, hpath⟩ := htask
    exact ⟨k, event, rfl, hevent, hpath.symm⟩

/-- At the end of the file the hasher has seen the whole content, and the line
that is printed is right. -/
theorem ReadsFile.record {path : Bytes} {id off : Nat} {file : File}
    (h : s.ReadsFile i path id file off) (hend : file.content.length ≤ off) :
    s.RecordOk (s.printedLine i path) := by
  obtain ⟨k, event, hk, hevent, hpath⟩ := h.event
  have hwhole : file.content.take off = file.content :=
    List.take_of_length_le hend
  have hhash := h.absorbed.finalize
  rw [hwhole] at hhash
  have hopened := h.opened
  rw [hk] at hopened
  exact ⟨k, event, file, hk, hevent, hpath, hopened, hhash⟩

/-- A task that is settled with an error. -/
theorem Held.failed {stage : Stage} (h : s.Held i stage) (hasher : B.State)
    (data2 : Int) {strings : Nat → Option (Bytes × Fin n)}
    {fds : Int → Option (Fd n)}
    (hstrings : ∀ j, j ≠ i → ∀ id path, s.strings id = some (path, j) →
      strings id = some (path, j))
    (hfresh : ∀ id, s.strings id = none → strings id = none)
    (hfds : ∀ j, j ≠ i → ∀ fd file, s.fds fd = some (.file file (.slot j)) →
      fds fd = some (.file file (.slot j))) :
    Inv none (s.freed i (s.releasedSlot i hasher data2) strings fds s.records
      (s.errors ++ [s.tickets i])) := by
  have hinv := h.freed (s.releasedSlot i hasher data2) none [s.tickets i] rfl
    rfl rfl rfl rfl hstrings hfresh hfds (by simp) (fun k hk =>
      Or.inl (List.mem_singleton.mpr hk.symm))
  rwa [Option.toList_none, List.append_nil] at hinv

/-- Every callback of a slot leaves a good state. -/
theorem SlotOutcome.good {stage : Stage} {ans : Answers} (h : s.Held i stage)
    (hout : SlotOutcome s i ans t) : t.Good := by
  cases hout with
  | openFailed hfits hneg =>
    obtain ⟨hothers, hgone⟩ := strings_of_free hfits.string
    exact Good.of_inv (h.failed _ _ hothers hgone fun _ _ _ _ hfd => hfd)
  | @opened path id file hfits hfd hopen hne =>
    apply Good.of_inv
    refine h.resumed (.reading path id file 0) h.data2 ?_ rfl rfl h.inFlight
      rfl ?_
    · intro j hj
      exact (Block.buffer.inj hj).symm
    · refine ⟨?_, ?_, ?_, ?_, ?_, Nat.zero_le _, ?_, hfits.string, hfits.task,
        ?_, hopen, hne, ?_⟩ <;>
        simp only [Sys.resumed, Function.update_self, readSlot]
      · rfl
      · exact hfits.data
      · exact hfd
      · exact B.absorbed_init
  | readFailed hfits hneg =>
    obtain ⟨hothers, hgone⟩ := strings_of_free hfits.string
    exact Good.of_inv (h.failed _ _ hothers hgone (fds_of_close hfits.fd))
  | @readMore path id off r file hfits hres hpos hdel =>
    apply Good.of_inv
    refine h.resumed (.reading path id file (off + r)) h.data2 ?_ rfl rfl
      h.inFlight rfl ?_
    · intro j hj
      exact ReqPtr.slot.inj ((h.inv.reqs (.slot i)).addr j hj) |>.symm
    · have hoff : off + r ≤ file.content.length := by
        have hle := hfits.off_le
        have hr := hdel.reads.2.1
        omega
      refine ⟨?_, ?_, ?_, ?_, ?_, hoff, ?_, hfits.string, hfits.task, ?_,
        hfits.opened, hfits.path_ne, ?_⟩ <;>
        simp only [Sys.resumed, Function.update_self, moreSlot]
      · exact hfits.callback
      · exact hfits.opcode
      · exact hfits.addr
      · exact hfits.len
      · rw [Word.num, UInt64.ofNat_add]
      · exact hfits.data
      · exact hfits.fd
      · have habs := hfits.absorbed.update (file.piece off r)
        rw [File.take_add] at habs
        exact habs
  | @printed path id off file hfits hres hdel hverify =>
    obtain ⟨hothers, hgone⟩ := strings_of_free hfits.string
    have hok := hfits.record (hdel.reads.2.2 rfl)
    have hinv := h.freed (s.releasedSlot i (s.lastHasher i) 0)
      (some (s.printedLine i path)) [] rfl rfl rfl rfl rfl hothers hgone
      (fds_of_close hfits.fd) (by rintro r ⟨⟩; exact ⟨hok, rfl⟩)
      (fun k hk => Or.inr ⟨_, rfl, hk⟩)
    rw [List.append_nil] at hinv
    exact Good.of_inv hinv
  | @verifyFailed path id off file hfits hres hdel hverify =>
    refine Good.halt ?_ (by decide)
    refine h.inv.output.extended (some (s.printedLine i path)) List.prefix_rfl
      (fun _ ho => ho) rfl ?_ (fun _ hf => Or.inl hf) h.inv.output.asserts
    rintro r ⟨⟩
    refine ⟨hfits.record (hdel.reads.2.2 rfl), ?_⟩
    intro r' hr'
    obtain ⟨k, event, hk, -, -⟩ := hfits.event
    show r'.ticket ≠ s.tickets i
    rw [hk]
    exact h.inv.tasks.unsettled i k h.inFlight hk r' hr'
  | updated hfits =>
    have hinv := h.freed
      (s.releasedSlot i (s.reqs i).hasher (s.reqs i).data2) none [] rfl rfl rfl
      rfl rfl (fun _ _ _ _ hid => hid) (fun _ hid => hid)
      (fun _ _ _ _ hfd => hfd) (by simp) (fun k hk => by
        rw [hfits.ticket] at hk
        exact absurd hk (by simp))
    rw [Option.toList_none, List.append_nil, List.append_nil] at hinv
    exact Good.of_inv hinv

/-! ## A slot for a new task -/

/-- `processor_get_req` finds a free slot or ends the run.  Its assertion holds,
because only free slots are on the list. -/
theorem processorGetReq_cases
    (hlist : FreeList (fun j => (s.reqs j).next) s.reqsList
      (fun j => (s.reqs j).inFlight = false) s.nrFreeReqs) :
    (s.reqsList = none ∧ s.processorGetReq = .error .exit) ∨
      ∃ i, s.reqsList = some i ∧ (s.reqs i).inFlight = false ∧
        s.processorGetReq = .ok (i, s.handOut i) := by
  unfold processorGetReq
  cases hhead : s.reqsList with
  | none => exact Or.inl ⟨rfl, rfl⟩
  | some i =>
    rw [hhead] at hlist
    have hfree : (s.reqs i).inFlight = false := hlist.head_free
    refine Or.inr ⟨i, rfl, hfree, ?_⟩
    simp only [hfree, Bool.false_eq_true, if_false]

/-- The state behind the first slot of the list has been handed out and
prepared for a task. -/
def prepared (s : Sys B n) (i : Fin n) (slot : Slot B.State n)
    (ticket : Option Nat) (events : List Event)
    (strings : Nat → Option (Bytes × Fin n)) (nextString : Nat)
    (expiry : Int × Int) (rest : List (Cmd n)) : Sys B n :=
  { s with
    reqs := Function.update s.reqs i slot
    reqsList := (s.reqs i).next
    nrFreeReqs := s.nrFreeReqs - 1
    gens := Function.update s.gens i (s.gens i + 1)
    tickets := Function.update s.tickets i ticket
    dequeued := s.dequeued ++ events
    strings := strings
    nextString := nextString
    expiry := expiry
    todo := .submit (.slot i) :: rest }

/-- The output does not read the queue, and a new event changes no line. -/
theorem Output.dequeue (h : s.Output) (events : List Event) :
    { s with dequeued := s.dequeued ++ events }.Output :=
  ⟨fun r hr => (h.records r hr).mono (List.prefix_append ..) fun _ ho => ho,
    h.nodup, h.frees, h.asserts⟩

/-- A slot is handed out for the event `event`, or for none. -/
theorem Inv.prepared (h : Inv none s) (hhead : s.reqsList = some i)
    {slot : Slot B.State n} {ticket : Option Nat} {events : List Event}
    {strings : Nat → Option (Bytes × Fin n)} {nextString : Nat}
    {expiry : Int × Int} {rest : List (Cmd n)} (stage : Stage)
    (hbuffer : slot.buffer = (s.reqs i).buffer)
    (hid : slot.id = (s.reqs i).id) (hdata2 : slot.req.data2 = some i)
    (haddr : ∀ j, slot.req.addr.block ≠ .buffer j)
    (hfly : slot.inFlight = true)
    (hstrings : ∀ j, j ≠ i → ∀ id path, s.strings id = some (path, j) →
      strings id = some (path, j))
    (hfresh : ∀ id, nextString ≤ id → strings id = none)
    (hnew : (events = [] ∧ ticket = none) ∨
      ((∃ event, events = [event]) ∧ ticket = some s.dequeued.length))
    (hrest : ∀ j, .submit (.slot j) ∈ rest → .submit (.slot j) ∈ s.todo)
    (htodo : ∀ j, j ≠ i → { s with todo := rest }.outstanding (.slot j) =
      s.outstanding (.slot j))
    (hfits : (s.prepared i slot ticket events strings nextString expiry
      rest).Fits i stage) :
    Inv none (s.prepared i slot ticket events strings nextString expiry
      rest) := by
  have hl := h.list
  rw [hhead] at hl
  have hfree : (s.reqs i).inFlight = false := hl.head_free
  have hnone := (h.slots i (by simp)).free hfree
  have hself : Function.update s.reqs i slot i = slot := Function.update_self ..
  have ho : OnlySlot i s (s.prepared i slot ticket events strings nextString
      expiry rest) := by
    refine OnlySlot.of_update rfl hbuffer hid hdata2
      (fun j hj => absurd hj (haddr j)) rfl rfl rfl rfl rfl rfl rfl ?_ rfl
      (fun j hj => Function.update_of_ne hj ..)
      (fun j hj => Function.update_of_ne hj ..) hstrings
      (fun _ _ _ _ hfd => hfd) rfl (List.prefix_append ..) rfl
    intro j hj
    rw [← htodo j hj]
    have hcons : (s.prepared i slot ticket events strings nextString expiry
        rest).transit =
        .cmd (.slot i) ::ₘ { s with todo := rest }.transit := by
      simp only [transit, Sys.prepared, List.filterMap_cons, Cmd.pending,
        ← Multiset.cons_coe, Multiset.cons_add]
      rfl
    refine outstanding_of_cons_ne hcons ?_
    intro hfor
    exact hj (ReqPtr.slot.inj (Option.some.inj hfor)).symm
  have htasks := h.tasks.acquired ho hfree events rfl rfl rfl
    (by simp only [Sys.prepared, hself, hfly])
    (by simp only [Sys.prepared, Function.update_self]; exact hnew) h.output
  refine h.acquired ho hhead (by simp only [Sys.prepared, hself, hfly]) rfl rfl
    hfits rfl ?_ htasks hfresh ?_
  · intro hmem
    exact not_mem_todo hnone (hrest i hmem)
  · have hout := h.output.dequeue events
    exact ⟨hout.records, hout.nodup, hout.frees, hout.asserts⟩

/-- The slot that `on_queue_event` prepares for an event. -/
def openSlot (s : Sys B n) (i : Fin n) (event : Event) : Slot B.State n :=
  { s.reqs i with
    inFlight := true
    data := some s.nextString
    data2 := event.pathLen
    req := { (s.reqs i).req with
      flags := O_RDONLY
      result := 0
      data2 := some i
      off := .num 0
      callback := some .onFileOpen
      opcode := .openat
      fd := AT_FDCWD
      addr := .addr (.path s.nextString)
      len := 0 } }

theorem openEvent_eq {r : ReqPtr n} {ans : Answers} {event : Event}
    {events : List Event} {ticket : Option Nat} (hdup : ans.strdup = true)
    (hget : { s with dequeued := s.dequeued ++ events }.processorGetReq =
      .ok (i, { s with dequeued := s.dequeued ++ events }.handOut i)) :
    { s with dequeued := s.dequeued ++ events }.openEvent r event ticket ans =
      s.prepared i (s.openSlot i event) ticket events
        (Function.update s.strings s.nextString
          (some (cString event.path, i)))
        (s.nextString + 1) s.expiry
        (({ s with dequeued := s.dequeued ++ events }.handOut i).armPoll r) := by
  simp only [Sys.openEvent, hget, if_pos hdup]
  simp [Sys.prepared, handOut, openSlot]

/-- A slot is prepared for an event, or for the zeroed one. -/
theorem Inv.openPrepared (h : Inv none s) (htodo : s.todo = [])
    (hhead : s.reqsList = some i) {event : Event} {events : List Event}
    {ticket : Option Nat} {rest : List (Cmd n)}
    (hnew : (events = [] ∧ ticket = none ∧ event = .zero) ∨
      (events = [event] ∧ ticket = some s.dequeued.length))
    (hrest : ∀ j, .submit (.slot j) ∉ rest) :
    Inv none (s.prepared i (s.openSlot i event) ticket events
      (Function.update s.strings s.nextString (some (cString event.path, i)))
      (s.nextString + 1) s.expiry rest) := by
  have hunused := h.fresh s.nextString (Nat.le_refl _)
  refine h.prepared hhead (.opening (cString event.path) s.nextString)
    rfl rfl rfl ?_ rfl ?_ ?_ ?_ ?_ ?_ ?_
  · intro j hj
    exact absurd hj (by simp [openSlot, Word.addr])
  · intro j _ id path hid
    rw [Function.update_of_ne]
    · exact hid
    · rintro rfl
      rw [hunused] at hid
      exact absurd hid (by simp)
  · intro id hle
    rw [Function.update_of_ne (by omega)]
    exact h.fresh id (by omega)
  · rcases hnew with ⟨hnil, hticket, -⟩ | ⟨hone, hticket⟩
    · exact Or.inl ⟨hnil, hticket⟩
    · exact Or.inr ⟨⟨event, hone⟩, hticket⟩
  · intro j hj
    exact absurd hj (hrest j)
  · intro j _
    rw [outstanding_todo_nil htodo, outstanding_of_not_mem]
    · rfl
    · exact hrest j
  · refine ⟨?_, ?_, ?_, ?_, ?_, ?_⟩ <;>
      simp only [Sys.prepared, Function.update_self, openSlot]
    rw [TaskPath]
    simp only [Function.update_self]
    rcases hnew with ⟨rfl, rfl, rfl⟩ | ⟨rfl, rfl⟩
    · exact cString_zero
    · refine ⟨event, ?_, rfl⟩
      rw [List.getElem?_append_right (Nat.le_refl _), Nat.sub_self]
      rfl

end Sys

end Ride
