import Ride.Server.Model
import Ride.Verifier.Streams

/-!
# The streams of a connection

A stream gets its number when it is opened, and its end is taken in the round of
`verifier_flush_out` that takes the last byte of the slot.  From then on the
stream does not change, and the server reads none of the streams whose end was not
taken.

The slot belongs to the stream that was opened last.  A stream that loses the
slot before its end was taken never gets one: `VerifierServer` waits for it in
`ReadAll`, and reads none of the streams behind it.
-/

namespace Ride

open CodeLib CodeLib.Machine

/-! ## Stream numbers -/

theorem streamNumber_inj {i j : Nat} (h : streamNumber i = streamNumber j) :
    i = j := by
  unfold streamNumber at h
  omega

theorem streamNumber_ne (j : Nat) : streamNumber j ≠ -1 := by
  unfold streamNumber
  omega

namespace Client

variable {B : Blake3} {n : Nat} {x : Client B n}

/-! ## What a step means for the stream slots -/

/-- A step of a client leaves the verifier alone, calls `verifier_verify_hash`,
or is a part of a flush. -/
inductive SlotTo (x : Client B n) : ClientStep n → Verifier → Prop where
  | same (a : ClientStep n) : SlotTo x a x.verifier
  | call {a : SysStep n} {streamId : Int} {v : Answers × Fin n}
      (henabled : x.Enabled a) (hcall : x.sys.verifies a = some v)
      (hidle : x.verifier.phase = .idle) (hrange : v.1.openStream ≤ 0) :
      SlotTo x (.sys a streamId) (x.verified v.1 v.2 streamId)
  | flush (a : VerifierStep) (phase : VerifierPhase) :
      SlotTo x (.verifier a) { x.verifier with phase := phase }
  | round (a : VerifierStep) {u : Verifier}
      (hround : Verifier.Round x.verifier u) : SlotTo x (.verifier a) u

theorem slotTo_step (x : Client B n) (a : ClientStep n) :
    SlotTo x a (x.step a).verifier := by
  cases a with
  | sys a streamId =>
    by_cases henabled : x.Enabled a
    · simp only [Client.step, if_pos henabled]
      cases hcall : x.sys.verifies a with
      | none => exact .same _
      | some v =>
        have hdispatch := Sys.verifies_answers hcall
        have hidle : x.verifier.phase = .idle :=
          henabled.1.resolve_right (by rw [hdispatch]; exact not_false)
        exact .call henabled hcall hidle (henabled.range hcall).2
    · simp only [Client.step, if_neg henabled]
      exact .same _
  | verifier a =>
    by_cases ha : Verifier.Flushes a
    · simp only [Client.step, if_pos ha]
      have hto := x.verifier.stepTo_step a
      generalize x.verifier.step a = u at hto
      cases hto with
      | stutter => exact .same _
      | verifyHash => exact ha.elim
      | flushEgress => exact .flush _ _
      | round r hphase hround => exact .round _ hround
    · simp only [Client.step, if_neg ha]
      exact .same _

end Client

namespace Verifier

variable {v u : Verifier}

/-- A call that gets a stream gives the slot to it, also where the message does
not fit, and leaves what was not sent of the last stream in the slot. -/
theorem verifierVerifyHash_opens (v : Verifier) (streamId : Int)
    (pathname hash : Bytes) :
    let u := v.verifierVerifyHash 0 streamId pathname hash
    u.accepted = v.accepted ∧ u.opened = streamId :: v.opened ∧
      u.slot.streamId = streamId ∧ u.slot.nwrite = v.slot.nwrite ∧
      v.slot.datalen ≤ u.slot.datalen := by
  intro u
  by_cases hfit :
      v.slot.datalen + (hash ++ pathname).length ≤ STREAM_DATA_SIZE
  · have hslot : u.slot = (openedSlot v.slot streamId).append
        (hash ++ pathname) hfit := by
      rw [show u = _ from v.verifierVerifyHash_of_fits streamId hfit]
      exact slot_setSlot v _
    rw [hslot]
    simp only [u, v.verifierVerifyHash_of_fits streamId hfit]
    exact ⟨rfl, trivial, rfl, rfl, Nat.le_add_right _ _⟩
  · have hslot : u.slot = openedSlot v.slot streamId := by
      rw [show u = _ from v.verifierVerifyHash_of_not_fits streamId hfit]
      exact slot_setSlot v _
    rw [hslot]
    simp only [u, v.verifierVerifyHash_of_not_fits streamId hfit]
    exact ⟨rfl, trivial, rfl, rfl, le_rfl⟩

/-- What a step of the client does to the streams: nothing goes out, some bytes
of the stream in the slot go out, or the next stream is opened. -/
inductive SentTo (v u : Verifier) : Prop where
  | same (hslot : u.slot = v.slot ∨
      u.slot = resetSlot v.slot ∧ v.slot.datalen ≤ v.slot.nwrite)
      (hopened : u.opened = v.opened) (haccepted : u.accepted = v.accepted)
  | took (w : Nat) (hlt : v.slot.nwrite < v.slot.datalen)
      (hslot : u.slot = v.slot.advance w) (hopened : u.opened = v.opened)
      (haccepted : u.accepted = Function.update v.accepted v.slot.streamId
        (v.accepted v.slot.streamId ++ v.slot.unsent.take w))
  | opened (hopened : u.opened = streamNumber v.opened.length :: v.opened)
      (hslot : u.slot.streamId = streamNumber v.opened.length)
      (hnwrite : u.slot.nwrite = v.slot.nwrite)
      (hdatalen : v.slot.datalen ≤ u.slot.datalen)
      (haccepted : u.accepted = v.accepted)

theorem SentTo.opened_subset (h : SentTo v u) {id : Int}
    (hmem : id ∈ v.opened) : id ∈ u.opened := by
  cases h with
  | same _ hopened _ => exact hopened ▸ hmem
  | took _ _ _ hopened _ => exact hopened ▸ hmem
  | opened hopened => exact hopened ▸ List.mem_cons_of_mem _ hmem

/-- The next stream gets the next number. -/
theorem SentTo.numbered (h : SentTo v u)
    (hv : ∀ id, id ∈ v.opened ↔ ∃ j < v.opened.length, id = streamNumber j)
    (id : Int) : id ∈ u.opened ↔ ∃ j < u.opened.length, id = streamNumber j := by
  cases h with
  | same _ hopened _ => rw [hopened, hv]
  | took _ _ _ hopened _ => rw [hopened, hv]
  | opened hopened =>
    rw [hopened, List.mem_cons, hv, List.length_cons]
    constructor
    · rintro (rfl | ⟨j, hj, rfl⟩)
      · exact ⟨_, Nat.lt_succ_self _, rfl⟩
      · exact ⟨j, Nat.lt_succ_of_lt hj, rfl⟩
    · rintro ⟨j, hj, rfl⟩
      rcases Nat.lt_succ_iff_lt_or_eq.mp hj with hlt | rfl
      · exact Or.inr ⟨j, hlt, rfl⟩
      · exact Or.inl rfl

theorem SentTo.slot_opened (h : SentTo v u)
    (hv : v.slot.streamId ≠ -1 → v.slot.streamId ∈ v.opened)
    (hu : u.slot.streamId ≠ -1) : u.slot.streamId ∈ u.opened := by
  cases h with
  | same hslot hopened _ =>
    rcases hslot with hslot | ⟨hslot, -⟩
    · rw [hslot] at hu ⊢
      rw [hopened]
      exact hv hu
    · exact absurd (congrArg QuicStream.streamId hslot) hu
  | took _ _ hslot hopened _ =>
    rw [hslot] at hu ⊢
    rw [hopened]
    exact hv hu
  | opened hopened hslot =>
    rw [hslot, hopened]
    exact List.mem_cons_self

/-- A stream that is written is the one in the slot, or the next one. -/
theorem SentTo.not_writing (h : SentTo v u)
    (hfresh : streamNumber v.opened.length ∉ v.opened) {id : Int}
    (hmem : id ∈ v.opened) (hidle : ¬ v.Writing id) : ¬ u.Writing id := by
  rintro ⟨hid, hlt⟩
  cases h with
  | same hslot =>
    rcases hslot with hslot | ⟨hslot, -⟩
    · rw [hslot] at hid hlt
      exact hidle ⟨hid, hlt⟩
    · rw [hslot] at hlt
      exact absurd hlt (Nat.lt_irrefl 0)
  | took w hwriting hslot =>
    rw [hslot] at hid
    exact hidle ⟨hid, hwriting⟩
  | opened hopened hslot =>
    rw [← hid, hslot] at hmem
    exact hfresh hmem

/-- The slot does not return to a stream. -/
theorem SentTo.slot_ne (h : SentTo v u)
    (hfresh : streamNumber v.opened.length ∉ v.opened) {id : Int}
    (hid : id ≠ -1) (hmem : id ∈ v.opened) (hne : v.slot.streamId ≠ id) :
    u.slot.streamId ≠ id := by
  cases h with
  | same hslot =>
    rcases hslot with hslot | ⟨hslot, -⟩
    · exact hslot ▸ hne
    · exact hslot ▸ hid.symm
  | took w hwriting hslot => exact hslot ▸ hne
  | opened hopened hslot =>
    rintro rfl
    exact hfresh (hslot ▸ hmem)

theorem SentTo.accepted_eq (h : SentTo v u) {id : Int}
    (hidle : ¬ v.Writing id) : u.accepted id = v.accepted id := by
  cases h with
  | same _ _ haccepted => rw [haccepted]
  | took w hlt _ _ haccepted =>
    rw [haccepted, Function.update_of_ne]
    exact fun hid => hidle ⟨hid.symm, hlt⟩
  | opened _ _ _ _ haccepted => rw [haccepted]

theorem SentTo.accepted_grows (h : SentTo v u) (id : Int) :
    v.accepted id <+: u.accepted id := by
  by_cases hwriting : v.Writing id
  · obtain ⟨rfl, hlt⟩ := hwriting
    cases h with
    | same _ _ haccepted => rw [haccepted]
    | took w _ _ _ haccepted =>
      rw [haccepted, Function.update_self]
      exact List.prefix_append _ _
    | opened _ _ _ _ haccepted => rw [haccepted]
  · rw [h.accepted_eq hwriting]

end Verifier

namespace Connection

variable {B : Blake3} {n : Nat} {x y : Connection B n}

/-! ## The invariant of a connection -/

/-- The streams are numbered in the order in which they were opened, and a stream
whose end was taken is not written any more. -/
structure Inv (x : Connection B n) : Prop where
  opened : ∀ id, id ∈ x.client.verifier.opened ↔
    ∃ j < x.client.verifier.opened.length, id = streamNumber j
  slot : x.client.verifier.slot.streamId ≠ -1 →
    x.client.verifier.slot.streamId ∈ x.client.verifier.opened
  fins : ∀ id, x.fins id = true → id ∈ x.client.verifier.opened ∧
    ¬ x.client.verifier.Writing id

theorem inv_start [NeZero n] (boot : Sys.Boot n) : (start B boot).Inv where
  opened := fun id => by simp [start, Client.start, Verifier.verifierInit]
  slot := fun h => absurd rfl h
  fins := fun _ h => absurd h Bool.false_ne_true

/-- The number of the next stream is new. -/
theorem Inv.fresh (h : x.Inv) :
    streamNumber x.client.verifier.opened.length ∉
      x.client.verifier.opened := by
  rw [h.opened]
  rintro ⟨j, hj, heq⟩
  exact absurd (streamNumber_inj heq) (by omega)

theorem Inv.opened_ne (h : x.Inv) {id : Int}
    (hmem : id ∈ x.client.verifier.opened) : id ≠ -1 := by
  obtain ⟨j, -, rfl⟩ := (h.opened id).mp hmem
  exact streamNumber_ne j

theorem sentTo_step {a : ClientStep n}
    (hid : ∀ id ∈ a.streamId,
      id = streamNumber x.client.verifier.opened.length) :
    Verifier.SentTo x.client.verifier (x.client.step a).verifier := by
  have hto := x.client.slotTo_step a
  generalize (x.client.step a).verifier = u at hto
  cases hto with
  | same => exact .same (Or.inl rfl) rfl rfl
  | @call a streamId v henabled hcall hidle hrange =>
    obtain rfl := hid streamId rfl
    unfold Client.verified
    by_cases hzero : v.1.openStream = 0
    · rw [hzero]
      obtain ⟨haccepted, hopened, hslot, hnwrite, hdatalen⟩ :=
        x.client.verifier.verifierVerifyHash_opens
          (streamNumber x.client.verifier.opened.length)
          (x.client.sys.pathname v.2) (x.client.sys.digest v.2)
      exact .opened hopened hslot hnwrite hdatalen haccepted
    · rw [Verifier.verifierVerifyHash_of_refused _ (by omega)]
      exact .same (Or.inl rfl) rfl rfl
  | flush => exact .same (Or.inl rfl) rfl rfl
  | round a hround =>
    cases hround with
    | same => exact .same (Or.inl rfl) rfl rfl
    | reset phase hphase hid hdone =>
      exact .same (Or.inr ⟨x.client.verifier.slot_setSlot _, hdone⟩) rfl rfl
    | took phase hphase hid hlt w hw =>
      exact .took w hlt (x.client.verifier.slot_took
        x.client.verifier.slot.streamId x.client.verifier.slot.unsent w) rfl rfl

/-- The end of a stream is taken in the round that takes its last byte. -/
theorem ended_of_takesFin {a : ClientStep n} (h : x.takesFin a = true) :
    x.client.verifier.slot.streamId ≠ -1 ∧
      ∀ id, ¬ (x.client.step a).verifier.Writing id := by
  simp only [takesFin, Verifier.pfin, Bool.and_eq_true, beq_iff_eq] at h
  obtain ⟨hfin, hall⟩ := h
  split_ifs at hfin with hopen
  refine ⟨hopen.1, ?_⟩
  rintro id ⟨-, hlt⟩
  omega

/-- The ends that were taken stay taken, and those streams do not change. -/
def Keeps (x y : Connection B n) : Prop :=
  ∀ id, x.fins id = true → y.fins id = true ∧ y.sent id = x.sent id

theorem client_clientStep {a : ClientStep n} (hmoves : x.Moves a) :
    (x.clientStep a).client = x.client.step a := by
  simp only [clientStep, if_pos hmoves]

/-- A flush is none of the processor's own steps. -/
theorem sys_clientStep_verifier (x : Connection B n) (a : VerifierStep) :
    (x.clientStep (.verifier a)).client.sys = x.client.sys := by
  by_cases hmoves : x.Moves (.verifier a)
  · rw [client_clientStep hmoves, Client.step]
    split_ifs <;> rfl
  · simp only [clientStep, if_neg hmoves]

theorem fins_clientStep {a : ClientStep n} (hmoves : x.Moves a) :
    (x.clientStep a).fins = if x.takesFin a then
        Function.update x.fins x.client.verifier.slot.streamId true
      else x.fins := by
  simp only [clientStep, if_pos hmoves]

theorem fins_clientStep_of_fins {a : ClientStep n} {id : Int}
    (hfin : x.fins id = true) : (x.clientStep a).fins id = true := by
  by_cases hmoves : x.Moves a
  · rw [fins_clientStep hmoves]
    split_ifs
    · by_cases hslot : id = x.client.verifier.slot.streamId
      · rw [hslot, Function.update_self]
      · rw [Function.update_of_ne hslot, hfin]
    · exact hfin
  · simp only [clientStep, if_neg hmoves, hfin]

theorem Inv.keeps_clientStep (h : x.Inv) (a : ClientStep n) :
    Keeps x (x.clientStep a) := by
  intro id hfin
  refine ⟨fins_clientStep_of_fins hfin, ?_⟩
  by_cases hmoves : x.Moves a
  · rw [sent, client_clientStep hmoves]
    exact (sentTo_step hmoves.2).accepted_eq (h.fins id hfin).2
  · simp only [clientStep, if_neg hmoves]

theorem Inv.clientStep (h : x.Inv) (a : ClientStep n) :
    (x.clientStep a).Inv := by
  by_cases hmoves : x.Moves a
  · have hto := sentTo_step hmoves.2
    have hclient := client_clientStep hmoves
    rw [← hclient] at hto
    refine ⟨hto.numbered h.opened, hto.slot_opened h.slot, ?_⟩
    intro id hfin
    by_cases hold : x.fins id = true
    · obtain ⟨hmem, hidle⟩ := h.fins id hold
      exact ⟨hto.opened_subset hmem, hto.not_writing h.fresh hmem hidle⟩
    · rw [fins_clientStep hmoves] at hfin
      split_ifs at hfin with hend
      · obtain ⟨hopen, hdone⟩ := ended_of_takesFin hend
        by_cases hslot : id = x.client.verifier.slot.streamId
        · rw [hslot]
          exact ⟨hto.opened_subset (h.slot hopen), hclient ▸ hdone _⟩
        · rw [Function.update_of_ne hslot] at hfin
          exact absurd hfin hold
      · exact absurd hfin hold
  · simp only [Connection.clientStep, if_neg hmoves]
    exact h

/-- A step of a connection is one of the client, or it changes neither the client
nor the ends that were taken. -/
inductive StepTo (x : Connection B n) :
    ConnectionStep n → Connection B n → Prop where
  | client (a : ClientStep n) : StepTo x (.client a) (x.clientStep a)
  | carry (a : ConnectionStep n) {y : Connection B n}
      (hclient : y.client = x.client) (hfins : y.fins = x.fins) : StepTo x a y

theorem stepTo_step (x : Connection B n) (a : ConnectionStep n) :
    StepTo x a (x.step a) := by
  cases a with
  | client a => exact .client a
  | resend b =>
    simp only [Connection.step, resend]
    split_ifs <;> exact .carry _ rfl rfl
  | ack stream first last =>
    simp only [Connection.step, ack]
    split_ifs <;> exact .carry _ rfl rfl
  | deliver i =>
    simp only [Connection.step, deliver]
    split <;> exact .carry _ rfl rfl
  | lose i => exact .carry _ rfl rfl

theorem Inv.step (h : x.Inv) (a : ConnectionStep n) : (x.step a).Inv := by
  have hto := x.stepTo_step a
  generalize x.step a = y at hto
  cases hto with
  | client a => exact h.clientStep a
  | carry _ hclient hfins =>
    refine ⟨?_, ?_, ?_⟩ <;> rw [hclient]
    · exact h.opened
    · exact h.slot
    · rw [hfins]
      exact h.fins

theorem Inv.keeps_step (h : x.Inv) (a : ConnectionStep n) :
    Keeps x (x.step a) := by
  have hto := x.stepTo_step a
  generalize x.step a = y at hto
  cases hto with
  | client a => exact h.keeps_clientStep a
  | carry _ hclient hfins =>
    intro id hfin
    rw [hfins, sent, hclient]
    exact ⟨hfin, rfl⟩

end Connection

namespace Site

variable {B : Blake3} {k n : Nat} {s : Site B k n}

/-! ## The invariant of the server -/

/-- The server reads the streams of the connection one after the other, and has
printed only streams whose end was taken. -/
structure Inv (s : Site B k n) : Prop where
  conns : ∀ c, (s.conns c).Inv
  waiting : s.conn = none → s.accepts = 0
  accepting : s.phase = .accepting → s.accepts = s.payloads.length
  reading : ∀ id, s.phase = .reading id →
    s.accepts = s.payloads.length + 1 ∧ id = streamNumber s.payloads.length
  payloads : ∀ c, s.conn = some c → ∀ j < s.payloads.length,
    (s.conns c).fins (streamNumber j) = true

theorem inv_start [NeZero n] (boot : Fin k → Sys.Boot n) :
    (start B boot).Inv where
  conns := fun c => Connection.inv_start (boot c)
  waiting := fun _ => rfl
  accepting := fun _ => rfl
  reading := nofun
  payloads := nofun

theorem Inv.payloads_nil (h : s.Inv) (hconn : s.conn = none) :
    s.payloads = [] := by
  have hzero := h.waiting hconn
  rw [← List.length_eq_zero_iff]
  cases hphase : s.phase with
  | accepting => exact (h.accepting hphase).symm.trans hzero
  | reading id =>
    have haccepts := (h.reading id hphase).1
    omega

/-- A change of a connection that keeps the streams whose end was taken. -/
theorem Inv.setConn (h : s.Inv) {c : Fin k} {y : Connection B n} (hy : y.Inv)
    (hkeeps : (s.conns c).Keeps y) : (s.setConn c y).Inv := by
  refine ⟨?_, h.waiting, h.accepting, h.reading, ?_⟩
  · intro c'
    by_cases hc : c' = c
    · subst hc
      simpa only [Site.setConn, Function.update_self] using hy
    · simpa only [Site.setConn, Function.update_of_ne hc] using h.conns c'
  · intro c' hconn j hj
    have hold := h.payloads c' hconn j hj
    by_cases hc : c' = c
    · subst hc
      simp only [Site.setConn, Function.update_self]
      exact (hkeeps _ hold).1
    · simpa only [Site.setConn, Function.update_of_ne hc] using hold

theorem Inv.accept (h : s.Inv) (c : Fin k) : (s.accept c).Inv := by
  unfold Site.accept
  split_ifs with hconn
  · have hnil := h.payloads_nil hconn
    refine ⟨h.conns, nofun, h.accepting, h.reading, ?_⟩
    intro c' _ j hj
    rw [hnil] at hj
    exact absurd hj (Nat.not_lt_zero j)
  · exact h

theorem Inv.acceptStream (h : s.Inv) : s.acceptStream.Inv := by
  unfold Site.acceptStream
  split
  · rename_i c hconn hphase
    have haccepts := h.accepting hphase
    split_ifs
    · refine ⟨h.conns, fun hno => ?_, nofun, ?_, h.payloads⟩
      · exact absurd (hconn.symm.trans hno) (by simp)
      · rintro id hid
        obtain rfl := ServerPhase.reading.inj hid
        exact ⟨congrArg (· + 1) haccepts, congrArg streamNumber haccepts⟩
    · exact h
  · exact h

theorem Inv.readAll (h : s.Inv) : s.readAll.Inv := by
  unfold Site.readAll
  split
  · rename_i c id hconn hphase
    obtain ⟨haccepts, hid⟩ := h.reading id hphase
    split_ifs with hend
    · refine ⟨h.conns, fun hno => ?_, fun _ => ?_, nofun, ?_⟩
      · exact absurd (hconn.symm.trans hno) (by simp)
      · rw [List.length_append]
        exact haccepts
      · intro c' hc' j hj
        obtain rfl : c = c' := Option.some.inj (hconn.symm.trans hc')
        rw [List.length_append, List.length_singleton] at hj
        rcases Nat.lt_succ_iff_lt_or_eq.mp hj with hlt | rfl
        · exact h.payloads c hconn j hlt
        · rw [← hid]
          exact hend.1
    · exact h
  · exact h

theorem Inv.step (h : s.Inv) (a : SiteStep k n) : (s.step a).Inv := by
  cases a with
  | conn c a => exact h.setConn ((h.conns c).step a) ((h.conns c).keeps_step a)
  | accept c => exact h.accept c
  | acceptStream => exact h.acceptStream
  | readAll => exact h.readAll

theorem inv_run [NeZero n] (boot : Fin k → Sys.Boot n)
    (sched : List (SiteStep k n)) : (run step (start B boot) sched).Inv :=
  run_invariant (fun _ a h => h.step a) (inv_start boot) sched

end Site

/-! ## A stream that is left behind -/

namespace Connection

variable {B : Blake3} {n : Nat} {x : Connection B n} {id : Int}

/-- The slot has been given to another stream before the end of this one was
taken. -/
structure LeftBehind (x : Connection B n) (id : Int) : Prop where
  opened : id ∈ x.client.verifier.opened
  slot : x.client.verifier.slot.streamId ≠ id
  fins : x.fins id = false

theorem LeftBehind.step (h : x.LeftBehind id) (hinv : x.Inv)
    (a : ConnectionStep n) : (x.step a).LeftBehind id := by
  have hto := x.stepTo_step a
  generalize x.step a = y at hto
  cases hto with
  | client a =>
    by_cases hmoves : x.Moves a
    · have hto := sentTo_step hmoves.2
      rw [← client_clientStep hmoves] at hto
      refine ⟨hto.opened_subset h.opened, ?_, ?_⟩
      · exact hto.slot_ne hinv.fresh (hinv.opened_ne h.opened) h.opened h.slot
      · rw [fins_clientStep hmoves]
        split_ifs
        · exact (Function.update_of_ne h.slot.symm _ _).trans h.fins
        · exact h.fins
    · simp only [Connection.clientStep, if_neg hmoves]
      exact h
  | carry _ hclient hfins =>
    refine ⟨?_, ?_, ?_⟩
    · exact hclient ▸ h.opened
    · exact hclient ▸ h.slot
    · exact hfins ▸ h.fins

/-- A file has been read to the end, and gets a stream, while the slot holds
bytes of the stream of an earlier one. -/
def Backlogged (x : Connection B n) (j : Nat) (a : SysStep n) : Prop :=
  x.client.verifier.slot.streamId = streamNumber j ∧
    x.client.verifier.slot.nwrite < x.client.verifier.slot.datalen ∧
    x.client.Enabled a ∧ ∃ v ∈ x.client.sys.verifies a, v.1.openStream = 0

instance (x : Connection B n) (j : Nat) : DecidablePred (x.Backlogged j) :=
  fun a => inferInstanceAs (Decidable (_ ∧ _ ∧ x.client.Enabled a ∧
    ∃ v ∈ x.client.sys.verifies a, _))

theorem Inv.leftBehind (h : x.Inv) {j : Nat} {a : SysStep n}
    (hback : x.Backlogged j a) :
    (x.clientStep (.sys a (streamNumber
      x.client.verifier.opened.length))).LeftBehind (streamNumber j) := by
  obtain ⟨hslot, hlt, henabled, v, hcall, hzero⟩ := hback
  have hopened : streamNumber j ∈ x.client.verifier.opened := by
    rw [← hslot]
    exact h.slot (hslot ▸ streamNumber_ne j)
  have hfins : x.fins (streamNumber j) = false := by
    by_contra hfin
    exact (h.fins _ (Bool.not_eq_false _ ▸ hfin)).2 ⟨hslot, hlt⟩
  obtain ⟨-, hopens, hid, hnwrite, hdatalen⟩ :=
    x.client.verifier.verifierVerifyHash_opens
      (streamNumber x.client.verifier.opened.length)
      (x.client.sys.pathname v.2) (x.client.sys.digest v.2)
  have hstep : (x.client.step (.sys a (streamNumber
      x.client.verifier.opened.length))).verifier =
      x.client.verifier.verifierVerifyHash 0
        (streamNumber x.client.verifier.opened.length)
        (x.client.sys.pathname v.2) (x.client.sys.digest v.2) := by
    simp only [Client.step, if_pos henabled, Option.mem_def.mp hcall,
      Client.verified, hzero]
  -- the call takes nothing, so it does not take the end either
  have hnofin : x.takesFin (.sys a (streamNumber
      x.client.verifier.opened.length)) = false := by
    have hne : (x.client.step (.sys a (streamNumber
        x.client.verifier.opened.length))).verifier.slot.nwrite ≠
        (x.client.step (.sys a (streamNumber
          x.client.verifier.opened.length))).verifier.slot.datalen := by
      rw [hstep]
      omega
    rw [takesFin, beq_false_of_ne hne, Bool.and_false]
  have hmoves : x.Moves (.sys a (streamNumber
      x.client.verifier.opened.length)) :=
    ⟨Sys.live_of_verifies hcall, by rintro id ⟨⟩; rfl⟩
  refine ⟨?_, ?_, ?_⟩
  · rw [client_clientStep hmoves, hstep, hopens]
    exact List.mem_cons_of_mem _ hopened
  · rw [client_clientStep hmoves, hstep, hid]
    intro heq
    exact h.fresh (heq ▸ hopened)
  · rw [fins_clientStep hmoves, hnofin]
    exact hfins

end Connection

namespace Site

variable {B : Blake3} {k n : Nat} {s : Site B k n}

theorem acceptStream_same (s : Site B k n) :
    s.acceptStream.conn = s.conn ∧ s.acceptStream.conns = s.conns ∧
      s.acceptStream.payloads = s.payloads := by
  unfold acceptStream
  split
  · split_ifs <;> exact ⟨rfl, rfl, rfl⟩
  · exact ⟨rfl, rfl, rfl⟩

theorem readAll_same (s : Site B k n) :
    s.readAll.conn = s.conn ∧ s.readAll.conns = s.conns := by
  unfold readAll
  split
  · split_ifs <;> exact ⟨rfl, rfl⟩
  · exact ⟨rfl, rfl⟩

/-- A step of the connections or of the server, as far as one connection goes. -/
inductive ConnTo (x : Connection B n) (c : Fin k) :
    SiteStep k n → Connection B n → Prop where
  | same (a : SiteStep k n) : ConnTo x c a x
  | conn (a : ConnectionStep n) : ConnTo x c (.conn c a) (x.step a)

theorem connTo_step (s : Site B k n) (a : SiteStep k n) (c : Fin k) :
    ConnTo (s.conns c) c a ((s.step a).conns c) := by
  cases a with
  | conn c' a =>
    by_cases hc : c = c'
    · subst hc
      simp only [step, setConn, Function.update_self]
      exact .conn a
    · simp only [step, setConn, Function.update_of_ne hc]
      exact .same _
  | accept c' =>
    simp only [step, accept]
    split_ifs <;> exact .same _
  | acceptStream =>
    simp only [step, s.acceptStream_same]
    exact .same _
  | readAll =>
    simp only [step, s.readAll_same]
    exact .same _

/-- A step that is none of the processors keeps them. -/
theorem sys_step (s : Site B k n) {a : SiteStep k n}
    (ha : ∀ i b id, a ≠ .conn i (.client (.sys b id))) (i : Fin k) :
    ((s.step a).conns i).client.sys = (s.conns i).client.sys := by
  have hto := s.connTo_step a i
  generalize (s.step a).conns i = y at hto
  cases hto with
  | same => rfl
  | conn a =>
    have hto := (s.conns i).stepTo_step a
    generalize (s.conns i).step a = y at hto
    cases hto with
    | client b =>
      cases b with
      | sys b id => exact absurd rfl (ha i b id)
      | verifier b => exact (s.conns i).sys_clientStep_verifier b
    | carry _ hclient => rw [hclient]

theorem sys_run (s : Site B k n) {sched : List (SiteStep k n)}
    (h : ∀ a ∈ sched, ∀ i b id, a ≠ .conn i (.client (.sys b id)))
    (i : Fin k) :
    ((run step s sched).conns i).client.sys = (s.conns i).client.sys := by
  induction sched generalizing s with
  | nil => rfl
  | cons a rest ih =>
    rw [run_cons, ih _ fun b hb => h b (List.mem_cons_of_mem _ hb),
      sys_step s (h a List.mem_cons_self)]

theorem leftBehind_step {c : Fin k} {id : Int}
    (h : (s.conns c).LeftBehind id) (hinv : s.Inv) (a : SiteStep k n) :
    ((s.step a).conns c).LeftBehind id := by
  have hto := s.connTo_step a c
  generalize (s.step a).conns c = y at hto
  cases hto with
  | same => exact h
  | conn a => exact h.step (hinv.conns c) a

/-- Where a processor has read a file to the end, and gets a stream for it, while
bytes of the message `j` are still in the slot, the server never gets beyond this
message: whatever happens then, it prints at most the `j` payloads in front of
it. -/
theorem backlog_stops_server [NeZero n] (boot : Fin k → Sys.Boot n)
    (before after : List (SiteStep k n)) (c : Fin k) (j : Nat) (a : SysStep n)
    (hback : ((run step (start B boot) before).conns c).Backlogged j a) :
    let s := run step (start B boot) before
    let id := streamNumber (s.conns c).client.verifier.opened.length
    let t := run step (s.step (.conn c (.client (.sys a id)))) after
    t.conn = some c → t.payloads.length ≤ j := by
  intro s id t hconn
  have hinv : s.Inv := inv_run boot before
  have hleft : ((s.step (.conn c (.client (.sys a id)))).conns c).LeftBehind
      (streamNumber j) := by
    simp only [step, setConn, Function.update_self]
    exact (hinv.conns c).leftBehind hback
  obtain ⟨hend, hgone⟩ : t.Inv ∧ (t.conns c).LeftBehind (streamNumber j) :=
    run_invariant (P := fun s : Site B k n =>
      s.Inv ∧ (s.conns c).LeftBehind (streamNumber j))
      (fun s a h => ⟨h.1.step a, leftBehind_step h.2 h.1 a⟩)
      ⟨hinv.step _, hleft⟩ after
  by_contra hlong
  have hlt : j < t.payloads.length := by omega
  have hfin := hend.payloads c hconn j hlt
  rw [hgone.fins] at hfin
  exact absurd hfin Bool.false_ne_true

/-- The steps of the processor `0`, with the stream that comes after `j`
others. -/
def onStreamNumber (j : Nat) (sched : List (SysStep 1)) :
    List (SiteStep 1 1) :=
  sched.map fun a => .conn (Fin.last 0) (.client (.sys a (streamNumber j)))

/-- The library answers the processor `0`. -/
def answers (r : Writev) : SiteStep 1 1 :=
  .conn (Fin.last 0) (.client (.verifier (.writev r)))

/-- The first bytes in flight arrive from the processor `0`. -/
def deliverFirst (m : Nat) : List (SiteStep 1 1) :=
  (List.range m).map fun i => .conn (Fin.last 0) (.deliver i)

/-- The file of `Sys.printedRun` is read twice, and nothing of the first message
goes out in between. -/
def backlogRun : List (SiteStep 1 1) :=
  onStreamNumber 0 (Sys.printedRun.take 42) ++ [answers .zero] ++
  onStreamNumber 1 (Sys.printedRun.drop 42) ++
  onStreamNumber 1 ((Sys.printedRun.drop 19).take 22)

/-- Both messages go out and arrive, and the server reads. -/
def flushedRun : List (SiteStep 1 1) :=
  [answers (.packet 8 true)] ++ deliverFirst 8 ++
  [.accept (Fin.last 0), .acceptStream, .readAll]

theorem backlog_stops_server_in_backlogRun :
    let s := run step (start .concat fun _ => Sys.Boot.zeroed 1) backlogRun
    let id := streamNumber (s.conns (Fin.last 0)).client.verifier.opened.length
    let t := run step (s.step (.conn (Fin.last 0) (.client
      (.sys (.dispatch (Sys.Answers.event [47])) id)))) flushedRun
    (t.conns (Fin.last 0)).Ended 4 ∧ t.phase = .reading 0 ∧
      t.payloads.length ≤ 0 :=
  ⟨by decide +kernel, by decide +kernel,
    backlog_stops_server (fun _ => Sys.Boot.zeroed 1) backlogRun flushedRun
      (Fin.last 0) 0 (.dispatch (Sys.Answers.event [47])) (by decide +kernel)
      (by decide +kernel)⟩

end Site

end Ride
