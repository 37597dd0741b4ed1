import Ride.Processor.Tasks
import Ride.System.Ledger
import Ride.Verifier.Access

/-!
# What is sent to the verification server

`on_file_read` passes the digest and the path of a slot to
`verifier_verify_hash`, the path with the length that `on_queue_event` has stored
in the slot.  The string is a copy of the path of the event, and the length is
the one that the event carries.  They belong together if the event is well
formed, as `Event.LengthOk` says; else `memcpy` reads behind the string, or cuts
it.

`messages_right` says that every message is the digest of a whole file, with the
path under which the file was opened behind it.
-/

namespace Ride

open CodeLib CodeLib.Machine

/-- The length is the one of the string. -/
def Event.LengthOk (event : Event) : Prop :=
  event.pathLen = (cString event.path).length

instance : DecidablePred Event.LengthOk := fun event =>
  inferInstanceAs (Decidable (event.pathLen = _))

namespace Sys

variable {B : Blake3} {n : Nat} {i : Fin n} {s t : Sys B n}

/-! ## The arguments of a call -/

/-- What a call of `verifier_verify_hash` for the slot is about. -/
structure CallFor (s : Sys B n) (i : Fin n) (k : Nat) (event : Event)
    (file : File) : Prop where
  ticket : s.tickets i = some k
  dequeued : s.dequeued[k]? = some event
  opened : ⟨some k, cString event.path, file⟩ ∈ s.opens
  path : s.path i = some (cString event.path)
  len : (s.reqs i).data2 = event.pathLen
  digest : s.digest i = B.hash file.content

/-- A slot whose read has reached the end of its file. -/
theorem Held.callFor {stage : Stage} (h : s.Held i stage)
    (hcall : (s.reqs i).req.callback = some .onFileRead)
    (hres : (s.reqs i).req.result = 0) (hlen : s.LengthOk) :
    ∃ k event file, s.CallFor i k event file := by
  have hfits := h.fits
  have hresult := h.result
  cases stage with
  | opening path id =>
    have hopen : s.OpensFile i path id := hfits
    exact absurd (hopen.callback.symm.trans hcall) (by simp)
  | updating =>
    have hupdate : s.UpdatesTimer i := hfits
    exact absurd (hupdate.callback.symm.trans hcall) (by simp)
  | reading path id file off =>
    have hread : s.ReadsFile i path id file off := hfits
    have hend : file.content.length ≤ off := by
      rcases hresult with hneg | ⟨r, hr, hdel⟩
      · omega
      · exact hdel.reads.2.2 (by omega)
    obtain ⟨k, event, hk, hevent, hpath⟩ := hread.event
    have hdigest := hread.absorbed.finalize
    rw [List.take_of_length_le hend] at hdigest
    have hopened := hread.opened
    rw [hk, hpath] at hopened
    refine ⟨k, event, file, hk, hevent, hopened, ?_, ?_, hdigest⟩
    · rw [← hpath]
      exact path_eq hread.data hread.string
    · exact hlen i k event h.inFlight hk hevent

theorem CallFor.of_deliver {cqe : Cqe (Name n)} {k : Nat} {event : Event}
    {file : File} (h : (s.deliver cqe).CallFor i k event file) :
    s.CallFor i k event file := by
  have hdel := s.deliver_reaped cqe
  obtain ⟨res, flags, hslot⟩ := s.deliver_reqs_at cqe i
  refine ⟨?_, ?_, ?_, ?_, ?_, ?_⟩
  · rw [← hdel.tickets]
    exact h.ticket
  · rw [← hdel.dequeued]
    exact h.dequeued
  · rw [← hdel.opens]
    exact h.opened
  · have hpath := h.path
    simp only [Sys.path, hslot, hdel.strings] at hpath
    exact hpath
  · have hlen := h.len
    rw [hslot] at hlen
    exact hlen
  · have hdigest := h.digest
    simp only [Sys.digest, lastHasher, hslot] at hdigest
    exact hdigest

theorem LengthOk.deliver (h : s.LengthOk) (cqe : Cqe (Name n)) :
    (s.deliver cqe).LengthOk := by
  have hdel := s.deliver_reaped cqe
  intro j k event hfly hticket hevent
  obtain ⟨res, flags, hslot⟩ := s.deliver_reqs_at cqe j
  rw [hslot] at hfly ⊢
  rw [hdel.tickets] at hticket
  rw [hdel.dequeued] at hevent
  exact h j k event hfly hticket hevent

/-- A call is about an event that was taken, and about a file that was opened
under its path. -/
theorem Inv.callFor (h : Inv none s) (hfixed : s.FixedOps)
    (hlen : s.LengthOk) {a : SysStep n}
    {v : Answers × Fin n} (hcall : s.verifies a = some v) :
    ∃ k event file, s.CallFor v.2 k event file := by
  obtain rfl := verifies_answers hcall
  simp only [verifies, Option.ite_none_right_eq_some, Option.bind_eq_some_iff,
    Option.map_eq_some_iff] at hcall
  obtain ⟨⟨-, htodo⟩, cqe, hcur, ⟨hread, hres⟩, i, hdata2, hv⟩ := hcall
  obtain rfl : i = v.2 := congrArg Prod.snd hv
  cases hreq : cqe.userData.req with
  | slot j =>
    rw [hreq] at hread hdata2
    obtain ⟨stage, hheld⟩ := h.deliver_slot htodo hcur hreq
    obtain ⟨res, flags, hslot⟩ := s.deliver_req cqe (.slot j)
    have hself : ((s.deliver cqe).req (.slot j)).data2 = some j := hheld.data2
    have hback : ((s.deliver cqe).req (.slot j)).callback =
        (s.req (.slot j)).callback := by rw [hslot]
    have hzero : ((s.deliver cqe).reqs j).req.result = 0 := by
      simp [Sys.deliver_slot hreq, Sys.withResult, setSlot, hres]
    rw [hslot] at hself
    obtain rfl : v.2 = j := Option.some.inj (hdata2.symm.trans hself)
    obtain ⟨k, event, file, hfor⟩ := hheld.callFor (hback.trans hread) hzero
      (hlen.deliver cqe)
    exact ⟨k, event, file, hfor.of_deliver⟩
  | _ =>
    refine absurd (Or.inr (Or.inr hread)) (hfixed.reqs _ ?_)
    rw [hreq]
    rfl

/-- The length that a call passes is the one of the path. -/
theorem CallFor.pathlen {k : Nat} {event : Event} {file : File}
    (h : s.CallFor i k event file) (hok : event.LengthOk) :
    sizeT (s.reqs i).data2 = (cString event.path).length := by
  have hle : (cString event.path).length ≤ MAX_FILENAME_LEN := by
    rw [← event.path_length]
    exact (List.takeWhile_sublist _).length_le
  rw [MAX_FILENAME_LEN] at hle
  rw [h.len, hok, sizeT_of_nonneg (by omega) (by omega), Int.toNat_natCast]

/-- The message of a call is the digest of the file, and behind it the path. -/
theorem CallFor.pathname {k : Nat} {event : Event} {file : File}
    (h : s.CallFor i k event file) (hok : event.LengthOk) :
    s.pathname i = cString event.path := by
  rw [Sys.pathname, h.path, h.pathlen hok]
  exact List.take_length

end Sys

/-! ## The messages -/

namespace Verifier

variable {v : Verifier}

theorem Round.message {u : Verifier} (hround : Round v u) :
    u.message = v.message := by
  cases hround <;> rfl

/-- A flush leaves the messages. -/
theorem message_of_flushes {a : VerifierStep} (ha : Flushes a) :
    (v.step a).message = v.message := by
  have hto := v.stepTo_step a
  generalize v.step a = u at hto
  cases hto with
  | stutter => rfl
  | verifyHash => exact ha.elim
  | flushEgress => rfl
  | round r hphase hround => exact hround.message

/-- A call changes the message of its stream at most, to the one that it
sends. -/
theorem message_verifierVerifyHash {rv : Int} (hrv : rv ≤ 0) (streamId : Int)
    (pathname hash : Bytes) (id : Int) :
    let u := v.verifierVerifyHash rv streamId pathname hash
    u.message id = v.message id ∨ u.message id = some (hash ++ pathname) := by
  intro u
  by_cases hzero : rv = 0
  · subst hzero
    by_cases hfit :
        v.slot.datalen + (hash ++ pathname).length ≤ STREAM_DATA_SIZE
    · simp only [u, v.verifierVerifyHash_of_fits streamId hfit]
      by_cases hid : id = streamId
      · rw [hid, Function.update_self]
        exact Or.inr rfl
      · rw [Function.update_of_ne hid]
        exact Or.inl rfl
    · simp only [u, v.verifierVerifyHash_of_not_fits streamId hfit]
      exact Or.inl rfl
  · have hneg : rv < 0 := by omega
    refine Or.inl ?_
    simp only [u, v.verifierVerifyHash_of_refused hneg streamId]

end Verifier

namespace Client

variable {B : Blake3} {n : Nat} {x : Client B n}

/-- The message is the digest of a file, and behind it the path of an event under
which the file was opened. -/
def MessageOk (s : Sys B n) (msg : Bytes) : Prop :=
  ∃ k event file, s.dequeued[k]? = some event ∧
    ⟨some k, cString event.path, file⟩ ∈ s.opens ∧
    msg = B.hash file.content ++ cString event.path

theorem MessageOk.step {s : Sys B n} {msg : Bytes} (h : MessageOk s msg)
    (a : SysStep n) : MessageOk (s.step a) msg := by
  obtain ⟨k, event, file, hevent, hopened, hmsg⟩ := h
  obtain ⟨hdequeued, hopens⟩ := s.past_step a
  refine ⟨k, event, file, ?_, hopens.subset hopened, hmsg⟩
  obtain ⟨hlt, -⟩ := List.getElem?_eq_some_iff.mp hevent
  rw [hdequeued, List.getElem?_append_left hlt]
  exact hevent

/-- What is known of the messages, if the events are well formed. -/
structure Told (x : Client B n) : Prop where
  live : Sys.Live Sys.LengthOk x.sys
  messages : (∀ event ∈ x.sys.dequeued, event.LengthOk) →
    ∀ id msg, x.verifier.message id = some msg → MessageOk x.sys msg

theorem lengthOk_step (s : Sys B n) (a : SysStep n) (hinv : Sys.Inv none s)
    (_ : s.FixedOps) (hlive : s.halted = none)
    (hrun : (s.step a).halted = none) (h : s.LengthOk) :
    (s.step a).LengthOk :=
  h.taskTo hinv.tasks ((hinv.effect hlive a).taskTo hinv hrun)

/-- A step of the processor. -/
theorem Told.sys (h : Told x) {a : SysStep n} (henabled : x.Enabled a)
    (streamId : Int) : Told (x.step (.sys a streamId)) := by
  have hstep : (x.step (.sys a streamId)).sys = x.sys.step a := by
    simp only [Client.step, if_pos henabled]
  refine ⟨hstep ▸ h.live.step lengthOk_step a, ?_⟩
  rw [hstep]
  intro hok id msg hmsg
  have hold : ∀ event ∈ x.sys.dequeued, event.LengthOk := by
    intro event hevent
    refine hok event ?_
    rw [(x.sys.past_step a).1]
    exact List.mem_append_left _ hevent
  have hkept : x.verifier.message id = some msg →
      MessageOk (x.sys.step a) msg :=
    fun hid => (h.messages hold id msg hid).step a
  simp only [Client.step, if_pos henabled] at hmsg
  split at hmsg
  · exact hkept hmsg
  · rename_i ans i hcall
    have hrange := henabled.range hcall
    rcases Verifier.message_verifierVerifyHash hrange.2 streamId
      (x.sys.pathname i) (x.sys.digest i) id with hsame | hnew
    · exact hkept (hsame.symm.trans hmsg)
    · have hlive := Sys.live_of_verifies hcall
      obtain ⟨k, event, file, hfor⟩ := (h.live.good.inv hlive).callFor
        (h.live.fixed hlive) (h.live.prop hlive) hcall
      refine MessageOk.step ⟨k, event, file, hfor.dequeued, hfor.opened, ?_⟩ a
      obtain rfl := Option.some.inj (hnew.symm.trans hmsg)
      rw [hfor.digest, hfor.pathname
        (hold event (List.mem_of_getElem? hfor.dequeued))]

theorem Told.step (h : Told x) (a : ClientStep n) : Told (x.step a) := by
  cases a with
  | sys a streamId =>
    by_cases henabled : x.Enabled a
    · exact h.sys henabled streamId
    · simp only [Client.step, if_neg henabled]
      exact h
  | verifier a =>
    by_cases ha : Verifier.Flushes a
    · simp only [Client.step, if_pos ha]
      refine ⟨h.live, fun hok id msg hmsg => ?_⟩
      simp only [Verifier.message_of_flushes ha] at hmsg
      exact h.messages hok id msg hmsg
    · simp only [Client.step, if_neg ha]
      exact h

/-- In every run of a processor and its verifier, if the events that it has taken
carry the lengths of their paths, every message is the digest of the whole content
of a file, with the path behind it under which the file was opened, and which is
the path of an event. -/
theorem messages_right [NeZero n] (boot : Sys.Boot n)
    (sched : List (ClientStep n))
    (hok : ∀ event ∈ (run step (start B boot) sched).sys.dequeued,
      event.LengthOk) :
    let x := run step (start B boot) sched
    ∀ id msg, x.verifier.message id = some msg →
      ∃ k event file, x.sys.dequeued[k]? = some event ∧
        ⟨some k, cString event.path, file⟩ ∈ x.sys.opens ∧
        msg = B.hash file.content ++ cString event.path := by
  intro x
  have htold : Told x := by
    refine run_invariant (fun _ a h => h.step a) ⟨?_, ?_⟩ sched
    · exact Sys.live_processorRun boot (Sys.lengthOk_processorRun boot)
    · intro _ id msg hmsg
      exact absurd hmsg (by simp [start, Verifier.verifierInit])
  exact htold.messages hok

theorem messages_right_in_printedRun :
    let x := run step (start .concat (Sys.Boot.zeroed 1))
      (onStream Sys.printedRun)
    x.verifier.message 0 = some [1, 2, 3, 47] ∧
      ∃ k event file, x.sys.dequeued[k]? = some event ∧
        ⟨some k, cString event.path, file⟩ ∈ x.sys.opens ∧
        [1, 2, 3, 47] = Blake3.concat.hash file.content ++
          cString event.path := by
  have hmsg : (run step (start .concat (Sys.Boot.zeroed 1))
      (onStream Sys.printedRun)).verifier.message 0 = some [1, 2, 3, 47] := by
    decide +kernel
  exact ⟨hmsg, messages_right (B := .concat) (Sys.Boot.zeroed 1)
    (onStream Sys.printedRun) (by decide +kernel) 0 _ hmsg⟩

end Client

end Ride
