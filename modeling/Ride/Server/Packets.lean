import Ride.Server.Streams

/-!
# The packets of a connection

A byte can be in several packets, and the library reads it from the slot for each
of them.  It is the same byte each time only where no message is copied over
bytes that are not acknowledged.  This is the condition of
`Session.stream_data_intact_iff`, and `Connection.Spares` asks for it here.

`Connection.Carried` is what follows for the server: each byte that arrives is the
one that the library took first, and a byte that has not arrived can be sent again.
-/

namespace Ride

open CodeLib CodeLib.Machine

/-- A file that has been read to the end finds the slot drained, and its message
fits behind the data that the slot has held. -/
def Client.Drained {B : Blake3} {n : Nat} (x : Client B n) :
    ClientStep n → Prop
  | .sys a _ => x.Enabled a → ∀ v ∈ x.sys.verifies a,
      x.verifier.slot.nwrite = x.verifier.slot.datalen ∧
        x.verifier.slot.datalen + (x.sys.digest v.2).length +
          (x.sys.pathname v.2).length ≤ STREAM_DATA_SIZE
  | .verifier _ => True

instance {B : Blake3} {n : Nat} (x : Client B n) : DecidablePred x.Drained :=
  fun a => match a with
  | .sys _ _ => inferInstanceAs (Decidable (_ → ∀ v ∈ _, _))
  | .verifier _ => isTrue trivial

/-- What the library reads for a byte that may be sent again. -/
theorem Session.Intact.copy {s : Session} (h : s.Intact) {b : SentByte}
    (hb : b ∈ s.unacked) :
    ∃ byte, s.verifier.copy b = some ⟨b.stream, b.offset, byte⟩ ∧
      (s.verifier.accepted b.stream)[b.offset]? = some byte := by
  obtain ⟨byte, hread, hfirst⟩ := h.bytes b hb
  have hread : s.verifier.slot.data[b.pos]? = some byte := hread
  exact ⟨byte, by rw [Verifier.copy, hread, Option.map_some], hfirst⟩

namespace Connection

variable {B : Blake3} {n : Nat} {x : Connection B n}

/-- A message is copied over no byte that may be sent again, unless it is the same
byte. -/
def Spares (x : Connection B n) : ClientStep n → Prop
  | .sys a streamId => x.client.Enabled a → ∀ v ∈ x.client.sys.verifies a,
      x.session.Spares (.call (.verifyHash streamId
        (x.client.sys.pathname v.2) (x.client.sys.digest v.2)))
  | .verifier _ => True

instance (x : Connection B n) : DecidablePred x.Spares :=
  fun a => match a with
  | .sys _ _ => inferInstanceAs (Decidable (_ → ∀ v ∈ _, _))
  | .verifier _ => isTrue trivial

/-- The byte is the one that was taken for its place. -/
def Right (x : Connection B n) (copy : Copy) : Prop :=
  (x.sent copy.stream)[copy.offset]? = some copy.byte

/-- The bytes in the packets and the bytes of the server are those that were
taken, and the library can send again what the server does not have. -/
structure Carried (x : Connection B n) : Prop where
  intact : x.session.Intact
  packet : ∀ copy ∈ x.packet, x.Right copy
  flight : ∀ copy ∈ x.flight, x.Right copy
  arrived : ∀ id i byte, x.arrived id i = some byte → x.Right ⟨id, i, byte⟩
  missing : ∀ id, ∀ i < (x.sent id).length, x.arrived id i = none →
    ∃ b ∈ x.unacked, b.stream = id ∧ b.offset = i

theorem carried_start [NeZero n] (boot : Sys.Boot n) :
    (start B boot).Carried where
  intact := ⟨fun _ hb => absurd hb List.not_mem_nil,
    by simp [session, start, Client.start, Verifier.verifierInit]⟩
  packet := fun _ hmem => absurd hmem List.not_mem_nil
  flight := fun _ hmem => absurd hmem List.not_mem_nil
  arrived := nofun
  missing := fun _ i hi => absurd hi (Nat.not_lt_zero i)

/-! ## A step of the client -/

theorem session_clientStep {a : ClientStep n} (hmoves : x.Moves a) :
    (x.clientStep a).session = ⟨(x.client.step a).verifier,
      Session.newlySent x.client.verifier (x.client.step a).verifier ++
        x.unacked⟩ := by
  simp only [session, clientStep, if_pos hmoves]

/-- The bytes that may be sent again stay what they are. -/
theorem Inv.intact_clientStep (h : x.Inv) (hintact : x.session.Intact)
    {a : ClientStep n} (hmoves : x.Moves a) (hready : x.client.Ready a)
    (hdrained : x.client.Drained a) (hspares : x.Spares a) :
    (x.clientStep a).session.Intact := by
  rw [session_clientStep hmoves]
  have hsame : Session.Intact ⟨x.client.verifier,
      Session.newlySent x.client.verifier x.client.verifier ++ x.unacked⟩ :=
    hintact.of_same rfl rfl hintact.no_fault
  cases a with
  | sys a streamId =>
    obtain rfl := hmoves.2 streamId rfl
    by_cases henabled : x.client.Enabled a
    · simp only [Client.step, if_pos henabled]
      cases hcall : x.client.sys.verifies a with
      | none => exact hsame
      | some v =>
        have hdispatch := Sys.verifies_answers hcall
        have hidle : x.client.verifier.phase = .idle :=
          henabled.1.resolve_right (by rw [hdispatch]; exact not_false)
        have hid : 0 ≤ streamNumber x.client.verifier.opened.length := by
          unfold streamNumber
          omega
        have hfit := (hdrained henabled v hcall).2
        rw [Nat.add_assoc, ← List.length_append] at hfit
        simp only [Client.verified, (hready henabled v hcall).2]
        exact (Session.intact_verifyHash_iff hintact hfit).mpr
          (hspares henabled v hcall ⟨hidle, hid, h.fresh⟩)
    · simp only [Client.step, if_neg henabled]
      exact hsame
  | verifier a =>
    by_cases ha : Verifier.Flushes a
    · simp only [Client.step, if_pos ha]
      exact hintact.flushes ha
    · simp only [Client.step, if_neg ha]
      exact hsame

/-- What is sent stays sent. -/
theorem Right.clientStep {copy : Copy} (h : x.Right copy) {a : ClientStep n}
    (hmoves : x.Moves a) : (x.clientStep a).Right copy := by
  obtain ⟨rest, hrest⟩ :=
    (sentTo_step hmoves.2).accepted_grows copy.stream
  rw [Right, sent] at h
  obtain ⟨hlt, -⟩ := List.getElem?_eq_some_iff.mp h
  rw [Right, sent, client_clientStep hmoves, ← hrest,
    List.getElem?_append_left hlt]
  exact h

/-- The packet behind a step of the client. -/
theorem Carried.built (h : x.Carried) {a : ClientStep n} (hmoves : x.Moves a)
    (hintact : (x.clientStep a).session.Intact) :
    ∀ copy ∈ x.packet ++ (Session.newlySent x.client.verifier
        (x.client.step a).verifier).filterMap (x.client.step a).verifier.copy,
      (x.clientStep a).Right copy := by
  intro copy hcopy
  rcases List.mem_append.mp hcopy with hold | hnew
  · exact (h.packet copy hold).clientStep hmoves
  · obtain ⟨b, hb, hread⟩ := List.mem_filterMap.mp hnew
    rw [session_clientStep hmoves] at hintact
    obtain ⟨byte, hbyte, hfirst⟩ := hintact.copy (List.mem_append_left _ hb)
    obtain rfl := Option.some.inj (hbyte.symm.trans hread)
    rw [Right, sent, client_clientStep hmoves]
    exact hfirst

/-- Where a stream has grown, the new bytes are those of the slot. -/
theorem mem_newlySent {a : ClientStep n} (hmoves : x.Moves a) {id : Int}
    {i : Nat} (hold : (x.sent id).length ≤ i)
    (hi : i < ((x.clientStep a).sent id).length) :
    ∃ b ∈ Session.newlySent x.client.verifier (x.client.step a).verifier,
      b.stream = id ∧ b.offset = i := by
  rw [sent, client_clientStep hmoves] at hi
  rw [sent] at hold
  have hid : id = x.client.verifier.slot.streamId := by
    by_contra hne
    rw [(sentTo_step hmoves.2).accepted_eq fun hwriting =>
      hne hwriting.1.symm] at hi
    omega
  subst hid
  refine ⟨_, List.mem_map.mpr ⟨i - (x.client.verifier.accepted
    x.client.verifier.slot.streamId).length, ?_, rfl⟩, rfl, ?_⟩
  · rw [List.mem_range]
    omega
  · exact Nat.add_sub_of_le hold

theorem Carried.clientStep (h : x.Carried) (hinv : x.Inv) {a : ClientStep n}
    (hready : x.client.Ready a) (hdrained : x.client.Drained a)
    (hspares : x.Spares a) : (x.clientStep a).Carried := by
  by_cases hmoves : x.Moves a
  · have hintact := hinv.intact_clientStep h.intact hmoves hready hdrained
      hspares
    have hbuilt := h.built hmoves hintact
    have hold : ∀ copy, x.Right copy → (x.clientStep a).Right copy :=
      fun _ hright => hright.clientStep hmoves
    refine ⟨hintact, ?_, ?_, ?_, ?_⟩
    · intro copy hcopy
      refine hbuilt copy ?_
      simp only [Connection.clientStep, if_pos hmoves] at hcopy
      split_ifs at hcopy
      · exact absurd hcopy List.not_mem_nil
      · exact hcopy
    · intro copy hcopy
      simp only [Connection.clientStep, if_pos hmoves] at hcopy
      split_ifs at hcopy
      · exact (List.mem_append.mp hcopy).elim
          (fun hmem => hold copy (h.flight copy hmem)) (hbuilt copy)
      · exact hold copy (h.flight copy hcopy)
    · intro id i byte hbyte
      simp only [Connection.clientStep, if_pos hmoves] at hbyte
      exact hold _ (h.arrived id i byte hbyte)
    · intro id i hi hnone
      have hunacked : (x.clientStep a).unacked = Session.newlySent
          x.client.verifier (x.client.step a).verifier ++ x.unacked :=
        congrArg Session.unacked (session_clientStep hmoves)
      rw [hunacked]
      rcases Nat.lt_or_ge i (x.sent id).length with hlt | hge
      · simp only [Connection.clientStep, if_pos hmoves] at hnone
        obtain ⟨b, hb, hplace⟩ := h.missing id i hlt hnone
        exact ⟨b, List.mem_append_right _ hb, hplace⟩
      · obtain ⟨b, hb, hplace⟩ := mem_newlySent hmoves hge hi
        exact ⟨b, List.mem_append_left _ hb, hplace⟩
  · simp only [Connection.clientStep, if_neg hmoves]
    exact h

/-! ## The other steps -/

theorem Carried.resend (h : x.Carried) (b : SentByte) :
    (x.resend b).Carried := by
  unfold Connection.resend
  split_ifs with hcan
  · refine ⟨h.intact, ?_, h.flight, h.arrived, h.missing⟩
    intro copy hcopy
    rcases List.mem_append.mp hcopy with hold | hnew
    · exact h.packet copy hold
    · obtain ⟨byte, hread, hfirst⟩ := h.intact.copy hcan.1
      rw [show x.client.verifier.copy b = _ from hread, Option.toList_some,
        List.mem_singleton] at hnew
      rw [hnew]
      exact hfirst
  · exact h

theorem Carried.ack (h : x.Carried) (stream : Int) (first last : Nat) :
    (x.ack stream first last).Carried := by
  simp only [Connection.ack]
  split_ifs with hhas
  · refine ⟨h.intact.ack stream first last, h.packet, h.flight, h.arrived, ?_⟩
    intro id i hi hnone
    obtain ⟨b, hb, rfl, rfl⟩ := h.missing id i hi hnone
    refine ⟨b, (hhas b hb).resolve_right ?_, rfl, rfl⟩
    rw [show x.arrived b.stream b.offset = none from hnone]
    exact Bool.false_ne_true
  · exact h

/-- What the server has behind a delivery. -/
theorem arrived_deliver {i : Nat} {copy : Copy} (hcopy : x.flight[i]? = some copy)
    (id : Int) (j : Nat) :
    (x.deliver i).arrived id j =
      if copy.stream = id ∧ copy.offset = j then some copy.byte
      else x.arrived id j := by
  simp only [deliver, hcopy]
  by_cases hid : copy.stream = id
  · subst hid
    rw [Function.update_self]
    by_cases hj : copy.offset = j
    · rw [if_pos ⟨rfl, hj⟩, ← hj, Function.update_self]
    · rw [if_neg fun hboth => hj hboth.2,
        Function.update_of_ne fun heq => hj heq.symm]
  · rw [if_neg fun hboth => hid hboth.1,
      Function.update_of_ne fun heq => hid heq.symm]

theorem client_deliver (x : Connection B n) (i : Nat) :
    (x.deliver i).client = x.client ∧ (x.deliver i).flight = x.flight ∧
      (x.deliver i).unacked = x.unacked ∧ (x.deliver i).packet = x.packet := by
  unfold deliver
  split <;> exact ⟨rfl, rfl, rfl, rfl⟩

theorem Carried.deliver (h : x.Carried) (i : Nat) : (x.deliver i).Carried := by
  cases hcopy : x.flight[i]? with
  | none =>
    simp only [Connection.deliver, hcopy]
    exact h
  | some copy =>
    obtain ⟨hclient, hflight, hunacked, hpacket⟩ := x.client_deliver i
    have hsession : (x.deliver i).session = x.session := by
      rw [session, hclient, hunacked]
      rfl
    have hright : ∀ copy, x.Right copy → (x.deliver i).Right copy := by
      intro copy hright
      rw [Right, sent, hclient]
      exact hright
    refine ⟨hsession ▸ h.intact, ?_, ?_, ?_, ?_⟩
    · exact fun copy hmem => hright copy (h.packet copy (hpacket ▸ hmem))
    · exact fun copy hmem => hright copy (h.flight copy (hflight ▸ hmem))
    · intro id j byte hbyte
      rw [arrived_deliver hcopy] at hbyte
      refine hright _ ?_
      split_ifs at hbyte with hplace
      · obtain ⟨rfl, rfl⟩ := hplace
        obtain rfl := Option.some.inj hbyte
        exact h.flight copy (List.mem_of_getElem? hcopy)
      · exact h.arrived id j byte hbyte
    · intro id j hj hnone
      rw [sent, hclient] at hj
      rw [arrived_deliver hcopy] at hnone
      split_ifs at hnone
      rw [hunacked]
      exact h.missing id j hj hnone

theorem Carried.lose (h : x.Carried) (i : Nat) : (x.lose i).Carried :=
  ⟨h.intact, h.packet,
    fun copy hmem => h.flight copy (List.mem_of_mem_eraseIdx hmem), h.arrived,
    h.missing⟩

/-! ## What the server reads -/

/-- A list, read place by place. -/
theorem filterMap_getElem?_range (l : Bytes) :
    (List.range l.length).filterMap (fun i => l[i]?) = l := by
  induction l with
  | nil => rfl
  | cons a l ih =>
    rw [List.length_cons, List.range_succ_eq_map, List.filterMap_cons,
      List.filterMap_map]
    simp only [List.getElem?_cons_zero]
    exact congrArg (a :: ·) ih

/-- A stream that has ended is there as it was sent. -/
theorem Carried.received_eq (h : x.Carried) {id : Int} (hended : x.Ended id) :
    x.received id = x.sent id := by
  have hall : ∀ i ∈ List.range (x.sent id).length,
      x.arrived id i = (x.sent id)[i]? := by
    intro i hi
    obtain ⟨byte, hbyte⟩ :=
      Option.isSome_iff_exists.mp (hended.2 i (List.mem_range.mp hi))
    rw [hbyte]
    exact (h.arrived id i byte hbyte).symm
  rw [received, List.filterMap_congr hall]
  exact filterMap_getElem?_range _

end Connection

end Ride
