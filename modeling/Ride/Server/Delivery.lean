import Ride.Server.Packets
import Ride.Verifier.Lines

/-!
# The server behind a processor

`on_file_read` prints a line for a file, and then sends the digest and the path
of the line to the server.  Here the two ends are put together: the lines of the
processor whose connection the server has accepted, and the payloads that the
server prints.

This needs that the calls of `verifier_verify_hash` are in order: the connection
is there, a stream can be opened, the slot holds nothing of an earlier message and
has room for the new one, and no byte that may be sent again is overwritten.
Without the third part the server stops, which is `Site.backlog_stops_server`, and
without the last one it may get the bytes of one message on the stream of another,
which is `Session.message_overwritten_before_ack`.
-/

namespace Ride

open CodeLib CodeLib.Machine

/-- What the server should get for a line. -/
def Record.message (r : Record) : Bytes := r.hash ++ r.file

/-! ## The calls in order -/

namespace Verifier

variable {v : Verifier}

/-- A call whose message fits. -/
theorem verifierVerifyHash_fits (v : Verifier) (streamId : Int)
    {pathname hash : Bytes} (hfit : v.slot.datalen + hash.length +
      pathname.length ≤ STREAM_DATA_SIZE) :
    let u := v.verifierVerifyHash 0 streamId pathname hash
    u.opened = streamId :: v.opened ∧
      u.message = Function.update v.message streamId (some (hash ++ pathname)) ∧
      u.slot.streamId = streamId ∧ u.slot.nwrite = v.slot.nwrite ∧
      u.slot.datalen = v.slot.datalen + (hash ++ pathname).length := by
  intro u
  rw [Nat.add_assoc, ← List.length_append] at hfit
  have hu := v.verifierVerifyHash_of_fits streamId hfit
  have hslot : u.slot = (openedSlot v.slot streamId).append
      (hash ++ pathname) hfit := by
    rw [show u = _ from hu]
    exact slot_setSlot v _
  exact ⟨congrArg opened hu, congrArg message hu, by rw [hslot]; rfl,
    by rw [hslot]; rfl, by rw [hslot]; rfl⟩

/-- A flush opens no stream. -/
theorem opened_of_flushes {a : VerifierStep} (ha : Flushes a) :
    (v.step a).opened = v.opened := by
  have hto := v.stepTo_step a
  generalize v.step a = u at hto
  cases hto with
  | stutter => rfl
  | verifyHash => exact ha.elim
  | flushEgress => rfl
  | round r hphase hround => cases hround <;> rfl

theorem Inv.flush (h : v.Inv) {a : VerifierStep} (ha : Flushes a) :
    (v.step a).Inv := by
  refine h.step a ?_
  cases a with
  | verifyHash => exact ha.elim
  | flushEgress => exact trivial
  | writev r => exact trivial

end Verifier

namespace Connection

variable {B : Blake3} {n : Nat} {x : Connection B n}

/-- The streams are the lines of the processor, one by one, and a stream that is
not written any more has its end. -/
structure Matched (x : Connection B n) : Prop where
  inv : x.Inv
  verifier : x.client.verifier.Inv
  live : Sys.Live Sys.LengthOk x.client.sys
  length : x.client.verifier.opened.length = x.client.sys.records.length
  file_ne : ∀ r ∈ x.client.sys.records, r.file ≠ []
  messages : (∀ event ∈ x.client.sys.dequeued, event.LengthOk) →
    ∀ j, x.client.verifier.message (streamNumber j) =
      x.client.sys.records[j]?.map Record.message
  sealed : ∀ id msg, x.client.verifier.message id = some msg → msg ≠ [] →
    ¬ x.client.verifier.Writing id → x.fins id = true

theorem matched_start [NeZero n] (boot : Sys.Boot n) :
    (start B boot).Matched where
  inv := inv_start boot
  verifier := Verifier.inv_verifierInit
  live := Sys.live_processorRun boot (Sys.lengthOk_processorRun boot)
  length := rfl
  file_ne := fun _ hr => absurd hr (by simp [start, Client.start,
    Sys.processorRun])
  messages := fun _ _ => rfl
  sealed := nofun

theorem Matched.of_client (h : x.Matched) {y : Connection B n} (hinv : y.Inv)
    (hclient : y.client = x.client)
    (hfins : ∀ id, x.fins id = true → y.fins id = true) : y.Matched := by
  refine ⟨hinv, ?_, ?_, ?_, ?_, ?_, ?_⟩ <;> rw [hclient]
  · exact h.verifier
  · exact h.live
  · exact h.length
  · exact h.file_ne
  · exact h.messages
  · exact fun id msg hmsg hne hidle =>
      hfins id (h.sealed id msg hmsg hne hidle)

/-- A step of the processor that makes no call. -/
theorem Matched.quiet (h : x.Matched) {y : Connection B n} (hinv : y.Inv)
    {a : SysStep n} (hsys : y.client.sys = x.client.sys.step a)
    (hno : x.client.sys.verifies a = none)
    (hverifier : y.client.verifier = x.client.verifier)
    (hfins : ∀ id, x.fins id = true → y.fins id = true) : y.Matched := by
  have hrecords : (x.client.sys.step a).records = x.client.sys.records := by
    by_cases hlive : x.client.sys.halted = none
    · rcases (h.live.good.inv hlive).prints (h.live.fixed hlive) hlive a with
        ⟨-, hrecords⟩ | ⟨v, r, hcall, -⟩
      · exact hrecords
      · exact absurd (hno.symm.trans hcall) (by simp)
    · rw [Sys.step_of_halted hlive]
  refine ⟨hinv, ?_, ?_, ?_, ?_, ?_, ?_⟩
  · rw [hverifier]
    exact h.verifier
  · rw [hsys]
    exact h.live.step Client.lengthOk_step a
  · rw [hverifier, hsys, hrecords]
    exact h.length
  · rw [hsys, hrecords]
    exact h.file_ne
  · rw [hsys, hverifier, hrecords, (x.client.sys.past_step a).1]
    intro hok
    exact h.messages fun event hmem => hok event (List.mem_append_left _ hmem)
  · rw [hverifier]
    intro id msg hmsg hne hidle
    exact hfins id (h.sealed id msg hmsg hne hidle)

/-- A step of the processor that makes a call. -/
theorem Matched.call (h : x.Matched) {y : Connection B n} (hinv : y.Inv)
    {a : SysStep n} {v : Answers × Fin n}
    (hsys : y.client.sys = x.client.sys.step a)
    (hcall : x.client.sys.verifies a = some v)
    (hverifier : y.client.verifier = x.client.verifier.verifierVerifyHash 0
      (streamNumber x.client.verifier.opened.length)
      (x.client.sys.pathname v.2) (x.client.sys.digest v.2))
    (hdrained : x.client.verifier.slot.nwrite = x.client.verifier.slot.datalen)
    (hfit : x.client.verifier.slot.datalen + (x.client.sys.digest v.2).length +
      (x.client.sys.pathname v.2).length ≤ STREAM_DATA_SIZE)
    (hfins : ∀ id, x.fins id = true → y.fins id = true) : y.Matched := by
  have hlive := Sys.live_of_verifies hcall
  obtain ⟨r, hrecords, hhash, hfile, hne⟩ : ∃ r,
      (x.client.sys.step a).records = x.client.sys.records ++ [r] ∧
      r.hash = x.client.sys.digest v.2 ∧
      x.client.sys.path v.2 = some r.file ∧ r.file ≠ [] := by
    rcases (h.live.good.inv hlive).prints (h.live.fixed hlive) hlive a with
      ⟨hno, -⟩ | ⟨w, r, hw, hrecords, hhash, hfile, hne⟩
    · exact absurd (hno.symm.trans hcall) (by simp)
    · obtain rfl := Option.some.inj (hw.symm.trans hcall)
      exact ⟨r, hrecords, hhash, hfile, hne⟩
  have hid : 0 ≤ streamNumber x.client.verifier.opened.length := by
    unfold streamNumber
    omega
  have hinv' := h.verifier.verifyHash hid h.inv.fresh hdrained hfit
  obtain ⟨hopened, hmessage, hslot, hnwrite, hdatalen⟩ :=
    x.client.verifier.verifierVerifyHash_fits
      (streamNumber x.client.verifier.opened.length) hfit
  rw [← hverifier] at hinv' hopened hmessage hslot hnwrite hdatalen
  refine ⟨hinv, hinv', ?_, ?_, ?_, ?_, ?_⟩
  · rw [hsys]
    exact h.live.step Client.lengthOk_step a
  · rw [hopened, hsys, hrecords, List.length_append, ← h.length]
    rfl
  · rw [hsys, hrecords]
    intro r' hr'
    rcases List.mem_append.mp hr' with hold | hnew
    · exact h.file_ne r' hold
    · rw [List.mem_singleton.mp hnew]
      exact hne
  · rw [hsys, hmessage, hrecords, (x.client.sys.past_step a).1]
    intro hok j
    have hok' : ∀ event ∈ x.client.sys.dequeued, event.LengthOk :=
      fun event hmem => hok event (List.mem_append_left _ hmem)
    rcases Nat.lt_trichotomy j x.client.sys.records.length with hlt | rfl | hgt
    · rw [Function.update_of_ne (fun heq => by
        have := streamNumber_inj heq
        rw [h.length] at this
        omega), h.messages hok', List.getElem?_append_left hlt]
    · rw [← h.length, Function.update_self, h.length,
        List.getElem?_concat_length, Option.map_some, Record.message, hhash,
        h.live.pathname_eq hcall hok' hfile]
    · rw [Function.update_of_ne (fun heq => by
        have := streamNumber_inj heq
        rw [h.length] at this
        omega), h.messages hok', List.getElem?_eq_none (by omega),
        List.getElem?_eq_none
          (by rw [List.length_append, List.length_singleton]; omega)]
  · rw [hmessage]
    intro id msg hmsg hmsgne hidle
    by_cases hnew : id = streamNumber x.client.verifier.opened.length
    · -- the new stream has its whole message before it
      rw [hnew, Function.update_self, Option.some.injEq] at hmsg
      have hpos := List.length_pos_iff.mpr hmsgne
      rw [← hmsg] at hpos
      exact absurd ⟨hslot.trans hnew.symm, by omega⟩ hidle
    · rw [Function.update_of_ne hnew] at hmsg
      refine hfins id (h.sealed id msg hmsg hmsgne ?_)
      rintro ⟨-, hlt⟩
      omega

/-- A round of a flush that ends the stream of the slot takes its end. -/
theorem takesFin_of_ended {a : ClientStep n} {id : Int} (hid : id ≠ -1)
    (hto : Verifier.SentTo x.client.verifier (x.client.step a).verifier)
    (hinv : (x.client.step a).verifier.Inv)
    (hopened : (x.client.step a).verifier.opened = x.client.verifier.opened)
    (hwriting : x.client.verifier.Writing id)
    (hidle : ¬ (x.client.step a).verifier.Writing id) :
    x.takesFin a = true := by
  obtain ⟨hslotid, hlt⟩ := hwriting
  have hle := hinv.nwrite_le
  have hfin : x.client.verifier.pfin = true :=
    if_pos ⟨hslotid ▸ hid, hlt⟩
  rw [takesFin, hfin, Bool.true_and, beq_iff_eq]
  unfold Verifier.Writing at hidle
  generalize (x.client.step a).verifier = u at *
  cases hto with
  | same hslot =>
    rcases hslot with hslot | ⟨-, hdone⟩
    · rw [hslot] at hidle
      exact absurd ⟨hslotid, hlt⟩ hidle
    · omega
  | took w _ hslot =>
    have hsame : u.slot.streamId = id := by
      rw [hslot]
      exact hslotid
    have hdone : ¬ u.slot.nwrite < u.slot.datalen := fun h => hidle ⟨hsame, h⟩
    omega
  | opened hnew =>
    rw [hnew] at hopened
    exact absurd (congrArg List.length hopened) (by simp)

/-- A step of a flush. -/
theorem Matched.flush (h : x.Matched) {a : VerifierStep}
    (hmoves : x.Moves (.verifier a)) (ha : Verifier.Flushes a) :
    (x.clientStep (.verifier a)).Matched := by
  have hstep : x.client.step (.verifier a) =
      { x.client with verifier := x.client.verifier.step a } := by
    simp only [Client.step, if_pos ha]
  have hclient := (client_clientStep hmoves).trans hstep
  have hverifier := congrArg Client.verifier hstep
  have hinv' := h.verifier.flush ha
  have hopened := Verifier.opened_of_flushes (v := x.client.verifier) ha
  have hmessage := Verifier.message_of_flushes (v := x.client.verifier) ha
  refine ⟨h.inv.clientStep _, ?_, ?_, ?_, ?_, ?_, ?_⟩
  · rw [hclient]
    exact hinv'
  · rw [hclient]
    exact h.live
  · rw [hclient]
    simpa only [hopened] using h.length
  · rw [hclient]
    exact h.file_ne
  · rw [hclient]
    simpa only [hmessage] using h.messages
  · rw [hclient]
    intro id msg hmsg hne hidle
    simp only [hmessage] at hmsg
    by_cases hwriting : x.client.verifier.Writing id
    · have hid := (h.verifier.opened id (by rw [hmsg]; simp)).2
      have hfin : x.takesFin (.verifier a) = true :=
        takesFin_of_ended (by omega) (sentTo_step hmoves.2)
          (hverifier ▸ hinv') (hverifier ▸ hopened) hwriting
          (hverifier ▸ hidle)
      rw [fins_clientStep hmoves, if_pos hfin, hwriting.1,
        Function.update_self]
    · exact fins_clientStep_of_fins (h.sealed id msg hmsg hne hwriting)

theorem Matched.clientStep (h : x.Matched) {a : ClientStep n}
    (hready : x.client.Ready a) (hdrained : x.client.Drained a) :
    (x.clientStep a).Matched := by
  have hinv := h.inv.clientStep a
  have hfins : ∀ id, x.fins id = true → (x.clientStep a).fins id = true :=
    fun _ => fins_clientStep_of_fins
  by_cases hmoves : x.Moves a
  · have hclient := client_clientStep hmoves
    cases a with
    | sys a streamId =>
      obtain rfl := hmoves.2 streamId rfl
      by_cases henabled : x.client.Enabled a
      · have hsys : (x.clientStep (.sys a (streamNumber
            x.client.verifier.opened.length))).client.sys =
            x.client.sys.step a := by
          rw [hclient]
          simp only [Client.step, if_pos henabled]
        cases hcall : x.client.sys.verifies a with
        | none =>
          refine h.quiet hinv hsys hcall ?_ hfins
          rw [hclient]
          simp only [Client.step, if_pos henabled, hcall]
        | some v =>
          obtain ⟨hempty, hfit⟩ := hdrained henabled v hcall
          refine h.call hinv hsys hcall ?_ hempty hfit hfins
          rw [hclient]
          simp only [Client.step, if_pos henabled, hcall, Client.verified,
            (hready henabled v hcall).2]
      · refine h.of_client hinv (hclient.trans ?_) hfins
        simp only [Client.step, if_neg henabled]
    | verifier a =>
      by_cases ha : Verifier.Flushes a
      · exact h.flush hmoves ha
      · refine h.of_client hinv (hclient.trans ?_) hfins
        simp only [Client.step, if_neg ha]
  · simp only [Connection.clientStep, if_neg hmoves]
    exact h

/-- The calls of `verifier_verify_hash` are in order. -/
def CallsInOrder (x : Connection B n) : ConnectionStep n → Prop
  | .client a => x.client.Ready a ∧ x.client.Drained a ∧ x.Spares a
  | _ => True

instance (x : Connection B n) : DecidablePred x.CallsInOrder := fun a =>
  match a with
  | .client _ => inferInstanceAs (Decidable (_ ∧ _ ∧ _))
  | .resend _ => isTrue trivial
  | .ack _ _ _ => isTrue trivial
  | .deliver _ => isTrue trivial
  | .lose _ => isTrue trivial

theorem Matched.step (h : x.Matched) {a : ConnectionStep n}
    (hcalls : x.CallsInOrder a) : (x.step a).Matched := by
  have hinv := h.inv.step a
  have hto := x.stepTo_step a
  generalize x.step a = y at hinv hto
  cases hto with
  | client a => exact h.clientStep hcalls.1 hcalls.2.1
  | carry _ hclient hfins =>
    exact h.of_client hinv hclient fun _ hfin => hfins ▸ hfin

theorem Carried.step (h : x.Carried) (hinv : x.Inv) {a : ConnectionStep n}
    (hcalls : x.CallsInOrder a) : (x.step a).Carried := by
  cases a with
  | client a => exact h.clientStep hinv hcalls.1 hcalls.2.1 hcalls.2.2
  | resend b => exact h.resend b
  | ack stream first last => exact h.ack stream first last
  | deliver i => exact h.deliver i
  | lose i => exact h.lose i

/-- What the end of a stream means: the stream is the one of a line, and all the
bytes of the line were sent on it. -/
theorem Matched.sent_of_fin (h : x.Matched)
    (hok : ∀ event ∈ x.client.sys.dequeued, event.LengthOk) {j : Nat}
    (hfin : x.fins (streamNumber j) = true) :
    (x.client.sys.records.map Record.message)[j]? =
      some (x.sent (streamNumber j)) := by
  obtain ⟨hmem, hidle⟩ := h.inv.fins _ hfin
  obtain ⟨i, hi, heq⟩ := (h.inv.opened _).mp hmem
  obtain rfl := streamNumber_inj heq
  rw [h.length] at hi
  have hmsg := h.messages hok j
  rw [List.getElem?_eq_getElem hi, Option.map_some] at hmsg
  rw [List.getElem?_map, List.getElem?_eq_getElem hi, Option.map_some]
  exact congrArg some (h.verifier.whole _ _ hmsg hidle).symm

/-- No message is empty. -/
theorem Matched.sent_ne (h : x.Matched)
    (hok : ∀ event ∈ x.client.sys.dequeued, event.LengthOk) {j : Nat}
    (hfin : x.fins (streamNumber j) = true) : x.sent (streamNumber j) ≠ [] := by
  obtain ⟨r, hr, hsent⟩ :=
    List.mem_map.mp (List.mem_of_getElem? (h.sent_of_fin hok hfin))
  rw [← hsent]
  exact List.append_ne_nil_of_right_ne_nil _ (h.file_ne r hr)

/-- All the streams that are not written have their end, since no message is
empty. -/
theorem Matched.fin_of_idle (h : x.Matched)
    (hok : ∀ event ∈ x.client.sys.dequeued, event.LengthOk) {j : Nat}
    (hj : j < x.client.verifier.opened.length)
    (hidle : ¬ x.client.verifier.Writing (streamNumber j)) :
    x.fins (streamNumber j) = true := by
  rw [h.length] at hj
  have hmsg := h.messages hok j
  rw [List.getElem?_eq_getElem hj, Option.map_some] at hmsg
  refine h.sealed _ _ hmsg ?_ hidle
  exact List.append_ne_nil_of_right_ne_nil _
    (h.file_ne _ (List.getElem_mem hj))

end Connection

namespace Site

variable {B : Blake3} {k n : Nat} {s : Site B k n} {c : Fin k}

/-- The calls of `verifier_verify_hash` of a processor are in order. -/
def CallsInOrder (c : Fin k) (s : Site B k n) : SiteStep k n → Prop
  | .conn c' a => c' = c → (s.conns c).CallsInOrder a
  | _ => True

instance (c : Fin k) (s : Site B k n) : DecidablePred (s.CallsInOrder c) :=
  fun a => match a with
  | .conn _ _ => inferInstanceAs (Decidable (_ → _))
  | .accept _ => isTrue trivial
  | .acceptStream => isTrue trivial
  | .readAll => isTrue trivial

/-- What is known of a processor and of what the server has printed for it. -/
structure Served (c : Fin k) (s : Site B k n) : Prop where
  inv : s.Inv
  matched : (s.conns c).Matched
  carried : (s.conns c).Carried
  payloads : s.conn = some c → ∀ j payload, s.payloads[j]? = some payload →
    (s.conns c).sent (streamNumber j) = payload

theorem served_start [NeZero n] (boot : Fin k → Sys.Boot n) :
    (start B boot).Served c :=
  ⟨inv_start boot, Connection.matched_start (boot c),
    Connection.carried_start (boot c), nofun⟩

/-- A payload that was printed stays what was sent on its stream. -/
theorem Served.payloads_step (h : s.Served c) (a : SiteStep k n)
    (hconn : s.conn = some c) {j : Nat} {payload : Bytes}
    (hj : s.payloads[j]? = some payload) :
    ((s.step a).conns c).sent (streamNumber j) = payload := by
  have hsent := h.payloads hconn j payload hj
  have hfin := h.inv.payloads c hconn j (List.getElem?_eq_some_iff.mp hj).1
  have hto := s.connTo_step a c
  generalize (s.step a).conns c = y at hto
  cases hto with
  | same => exact hsent
  | conn a => exact (((h.inv.conns c).keeps_step a _ hfin).2).trans hsent

/-- The server prints what was sent on the stream that it reads. -/
theorem Served.readAll (h : s.Served c) (hconn : s.conn = some c) {j : Nat}
    {payload : Bytes} (hj : s.readAll.payloads[j]? = some payload) :
    (s.conns c).sent (streamNumber j) = payload := by
  cases hphase : s.phase with
  | accepting =>
    simp only [Site.readAll, hconn, hphase] at hj
    exact h.payloads hconn j payload hj
  | reading id =>
    have hid := (h.inv.reading id hphase).2
    simp only [Site.readAll, hconn, hphase] at hj
    split_ifs at hj with hended
    · rcases Nat.lt_or_ge j s.payloads.length with hlt | hge
      · rw [List.getElem?_append_left hlt] at hj
        exact h.payloads hconn j payload hj
      · rw [List.getElem?_append_right hge, List.getElem?_singleton] at hj
        split_ifs at hj with hlast
        obtain rfl : j = s.payloads.length := by omega
        rw [h.carried.received_eq hended, hid] at hj
        exact Option.some.inj hj
    · exact h.payloads hconn j payload hj

theorem Served.step (h : s.Served c) {a : SiteStep k n}
    (hcalls : s.CallsInOrder c a) : (s.step a).Served c := by
  refine ⟨h.inv.step a, ?_, ?_, ?_⟩
  · have hto := s.connTo_step a c
    generalize (s.step a).conns c = y at hto
    cases hto with
    | same => exact h.matched
    | conn a => exact h.matched.step (hcalls rfl)
  · have hto := s.connTo_step a c
    generalize (s.step a).conns c = y at hto
    cases hto with
    | same => exact h.carried
    | conn a => exact h.carried.step (h.inv.conns c) (hcalls rfl)
  · intro hconn j payload hj
    cases a with
    | conn c' a => exact h.payloads_step (.conn c' a) hconn hj
    | accept c' =>
      by_cases hnone : s.conn = none
      · have hnil := h.inv.payloads_nil hnone
        simp only [Site.step, accept, if_pos hnone, hnil] at hj
        exact absurd hj (by simp)
      · simp only [Site.step, accept, if_neg hnone] at hconn hj ⊢
        exact h.payloads hconn j payload hj
    | acceptStream =>
      simp only [Site.step, s.acceptStream_same] at hconn hj ⊢
      exact h.payloads hconn j payload hj
    | readAll =>
      simp only [Site.step, s.readAll_same] at hconn ⊢
      exact h.readAll hconn hj

theorem served_run [NeZero n] (boot : Fin k → Sys.Boot n)
    {sched : List (SiteStep k n)}
    (hcalls : Meets step (CallsInOrder c) (start B boot) sched) :
    (run step (start B boot) sched).Served c :=
  run_invariant_of_meets (P := Served c) (fun _ _ h => h.step)
    (served_start boot) hcalls

/-- The payloads are the messages of the first lines. -/
theorem Served.payloads_prefix_records (h : s.Served c)
    (hok : ∀ event ∈ (s.conns c).client.sys.dequeued, event.LengthOk)
    (hconn : s.conn = some c) :
    s.payloads <+: (s.conns c).client.sys.records.map Record.message := by
  rw [List.prefix_iff_getElem?]
  intro j hj
  have hsent := h.payloads hconn j _ (List.getElem?_eq_getElem hj)
  rw [h.matched.sent_of_fin hok (h.inv.payloads c hconn j hj), hsent]

/-- In every run in which the calls of `verifier_verify_hash` of a processor are
in order, and its events carry the lengths of their paths, the payloads that the
server prints for its connection are the digests and paths of the lines that the
processor has printed, one payload for a line, in the order of the lines. -/
theorem server_prints_records [NeZero n] (boot : Fin k → Sys.Boot n)
    (c : Fin k) (sched : List (SiteStep k n))
    (hcalls : Meets step (CallsInOrder c) (start B boot) sched) :
    let s := run step (start B boot) sched
    s.conn = some c →
      (∀ event ∈ (s.conns c).client.sys.dequeued, event.LengthOk) →
      s.payloads <+: (s.conns c).client.sys.records.map fun r =>
        r.hash ++ r.file := by
  intro s hconn hok
  exact (served_run boot hcalls).payloads_prefix_records hok hconn

/-- The file of `Sys.printedRun` is read twice.  The first message arrives and is
acknowledged, and the server reads it.  The packet of the second one is not
sent. -/
def servedRun : List (SiteStep 1 1) :=
  onStreamNumber 0 (Sys.printedRun.take 42) ++
  [answers (.packet 4 true), answers .zero, .accept (Fin.last 0)] ++
  deliverFirst 4 ++
  [.conn (Fin.last 0) (.ack 0 0 4), .acceptStream, .readAll] ++
  onStreamNumber 1 (Sys.printedRun.drop 42) ++
  onStreamNumber 1 ((Sys.printedRun.drop 19).take 23) ++
  [answers (.packet 4 false)]

theorem server_prints_records_in_servedRun :
    let s := run step (start .concat fun _ => Sys.Boot.zeroed 1) servedRun
    s.payloads = [[1, 2, 3, 47]] ∧
      (s.conns (Fin.last 0)).client.sys.records.length = 2 ∧
      s.payloads <+: (s.conns (Fin.last 0)).client.sys.records.map fun r =>
        r.hash ++ r.file :=
  ⟨by decide +kernel, by decide +kernel,
    server_prints_records (k := 1) (fun _ => Sys.Boot.zeroed 1) (Fin.last 0)
      servedRun (by decide +kernel) (by decide +kernel) (by decide +kernel)⟩

end Site

end Ride
