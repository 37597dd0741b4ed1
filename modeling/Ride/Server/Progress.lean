import Ride.Server.Delivery

/-!
# The server catches up

A message can be lost on its way in two places: `sendmsg` fails, or the network
loses the packet.  The library still has the place of its bytes in the slot, and
sends them again in a later flush.  `server_catches_up` says that one more flush is
enough, where the calls of `verifier_verify_hash` were in order.
-/

namespace Ride

open CodeLib CodeLib.Machine

/-- The step is one of a flush of the processor `c`, of its connection, or of the
loop of the server. -/
def SiteStep.Carries {k n : Nat} (c : Fin k) : SiteStep k n → Prop
  | .conn _ (.client (.sys _ _)) => False
  | .conn c' _ => c' = c
  | .accept _ => False
  | _ => True

theorem SiteStep.Carries.not_sys {k n : Nat} {c : Fin k} {a : SiteStep k n}
    (h : a.Carries c) (i : Fin k) (b : SysStep n) (id : Int) :
    a ≠ .conn i (.client (.sys b id)) := by
  rintro rfl
  exact h

namespace Connection

variable {B : Blake3} {n : Nat} {x : Connection B n}

theorem Inv.keeps_run (h : x.Inv) (sched : List (ConnectionStep n)) :
    Keeps x (run Connection.step x sched) := by
  induction sched generalizing x with
  | nil => exact fun _ hfin => ⟨hfin, rfl⟩
  | cons a rest ih =>
    intro id hfin
    obtain ⟨hfin', hsent⟩ := h.keeps_step a id hfin
    obtain ⟨hfin'', hsent'⟩ := ih (h.step a) id hfin'
    exact ⟨hfin'', hsent'.trans hsent⟩

/-! ## One more flush -/

/-- A flush that sends again what is not acknowledged. -/
def flushAgain (x : Connection B n) : List (ConnectionStep n) :=
  .client (.verifier .flushEgress) :: (x.unacked.map .resend ++
    [.client (.verifier (.writev (.packet 0 true)))])

theorem step_flushEgress (hlive : x.client.sys.halted = none)
    (hidle : x.client.verifier.phase = .idle) :
    let y := x.step (.client (.verifier .flushEgress))
    y.client = { x.client with
        verifier := { x.client.verifier with
          phase := .flushing .flushEgress } } ∧
      y.arrived = x.arrived ∧ ∀ b ∈ x.unacked, b ∈ y.unacked := by
  intro y
  have hmoves : x.Moves (.verifier .flushEgress) := ⟨hlive, nofun⟩
  have ha : Verifier.Flushes .flushEgress := trivial
  refine ⟨?_, ?_, fun b hb => ?_⟩
  · rw [show y.client = _ from client_clientStep hmoves]
    simp only [Client.step, if_pos ha, Verifier.step, hidle]
  · simp only [y, step, clientStep, if_pos hmoves]
  · simp only [y, step, clientStep, if_pos hmoves]
    exact List.mem_append_right _ hb

/-- The library writes bytes again. -/
theorem run_resend {l : List SentByte} (hl : ∀ b ∈ l, b ∈ x.unacked)
    (hlive : x.client.sys.halted = none) (hflush : x.client.verifier.InFlush) :
    run step x (l.map .resend) =
      { x with packet := x.packet ++ l.filterMap x.client.verifier.copy } := by
  induction l generalizing x with
  | nil => rw [List.map_nil, run_nil, List.filterMap_nil, List.append_nil]
  | cons b l ih =>
    have hb := hl b List.mem_cons_self
    have hrest := ih (x := { x with
        packet := x.packet ++ (x.client.verifier.copy b).toList })
      (fun b' hb' => hl b' (List.mem_cons_of_mem _ hb')) hlive hflush
    rw [List.map_cons, run_cons, step, resend, if_pos ⟨hb, hlive, hflush⟩,
      hrest]
    cases hcopy : x.client.verifier.copy b <;> simp [hcopy]

/-- A packet goes out that takes nothing from the slot. -/
theorem flight_packet (hlive : x.client.sys.halted = none)
    (hflush : x.client.verifier.InFlush)
    (hdone : x.client.verifier.slot.datalen ≤
      x.client.verifier.slot.nwrite) :
    let y := x.step (.client (.verifier (.writev (.packet 0 true))))
    y.arrived = x.arrived ∧ ∀ copy ∈ x.packet, copy ∈ y.flight := by
  intro y
  have hmoves : x.Moves (.verifier (.writev (.packet 0 true))) :=
    ⟨hlive, nofun⟩
  obtain ⟨caller, hphase⟩ := hflush
  have hoffer : x.client.verifier.verifierPrepVec.1 = none := by
    unfold Verifier.verifierPrepVec
    simp only
    rw [if_neg (by omega)]
    split_ifs <;> rfl
  have hpacket : x.client.completesPacket (.verifier
      (.writev (.packet 0 true))) = some true := by
    simp [Client.completesPacket, Verifier.completesPacket, hphase, hoffer,
      Writev.Within]
  refine ⟨?_, fun copy hcopy => ?_⟩
  · simp only [y, step, clientStep, if_pos hmoves]
  · simp only [y, step, clientStep, if_pos hmoves, hpacket, if_true]
    exact List.mem_append_right _ (List.mem_append_left _ hcopy)

/-- Each byte of the slot that the server does not have is in flight then. -/
theorem Carried.run_flushAgain (h : x.Carried)
    (hlive : x.client.sys.halted = none)
    (hidle : x.client.verifier.phase = .idle)
    (hdone : x.client.verifier.slot.datalen ≤
      x.client.verifier.slot.nwrite) :
    let y := run Connection.step x x.flushAgain
    ∀ id, ∀ i < (x.sent id).length, (y.arrived id i).isSome ∨
      ∃ copy ∈ y.flight, copy.stream = id ∧ copy.offset = i := by
  intro y id i hi
  obtain ⟨z, hz⟩ : ∃ z, z = x.step (.client (.verifier .flushEgress)) := ⟨_, rfl⟩
  obtain ⟨hclient, harrived, hunacked⟩ := step_flushEgress hlive hidle
  rw [← hz] at hclient harrived hunacked
  have hflush : z.client.verifier.InFlush := by
    rw [hclient]
    exact ⟨_, rfl⟩
  have hlive' : z.client.sys.halted = none := by
    rw [hclient]
    exact hlive
  obtain ⟨w, hw⟩ : ∃ w, w = run Connection.step z (x.unacked.map .resend) :=
    ⟨_, rfl⟩
  have hrun : y = w.step (.client (.verifier (.writev (.packet 0 true)))) := by
    simp only [y, flushAgain]
    rw [run_cons, ← hz, run_append, ← hw]
    rfl
  rw [run_resend hunacked hlive' hflush] at hw
  obtain ⟨hsame, hflight⟩ := flight_packet (x := w) (by rw [hw]; exact hlive')
    (by rw [hw]; exact hflush) (by rw [hw, hclient]; exact hdone)
  rw [← hrun] at hsame hflight
  cases hbyte : x.arrived id i with
  | some byte =>
    left
    rw [hsame, hw]
    show (z.arrived id i).isSome = true
    rw [harrived, hbyte]
    rfl
  | none =>
    right
    obtain ⟨b, hb, rfl, rfl⟩ := h.missing id i hi hbyte
    obtain ⟨byte, hcopy, -⟩ := h.intact.copy hb
    refine ⟨⟨b.stream, b.offset, byte⟩, hflight _ ?_, rfl, rfl⟩
    rw [hw]
    refine List.mem_append_right _ (List.mem_filterMap.mpr ⟨b, hb, ?_⟩)
    rw [hclient]
    exact hcopy

/-! ## Everything arrives -/

/-- What has arrived stays there, and what is in flight arrives. -/
theorem run_deliver (l : List Nat) :
    let y := run step x (l.map .deliver)
    (∀ id j, (x.arrived id j).isSome → (y.arrived id j).isSome) ∧
      ∀ i ∈ l, ∀ copy ∈ x.flight[i]?,
        (y.arrived copy.stream copy.offset).isSome := by
  induction l generalizing x with
  | nil => exact ⟨fun _ _ h => h, fun _ hi => absurd hi List.not_mem_nil⟩
  | cons i l ih =>
    obtain ⟨hkept, hrest⟩ := ih (x := x.deliver i)
    have hmono : ∀ id j, (x.arrived id j).isSome →
        ((x.deliver i).arrived id j).isSome := by
      intro id j hsome
      cases hcopy : x.flight[i]? with
      | none => simpa only [deliver, hcopy] using hsome
      | some copy =>
        rw [arrived_deliver hcopy]
        split_ifs
        · rfl
        · exact hsome
    refine ⟨fun id j hsome => hkept id j (hmono id j hsome), ?_⟩
    intro i' hi' copy hcopy
    rcases List.mem_cons.mp hi' with rfl | hmem
    · refine hkept _ _ ?_
      rw [arrived_deliver hcopy, if_pos ⟨rfl, rfl⟩]
      rfl
    · refine hrest i' hmem copy ?_
      rw [(x.client_deliver i).2.1]
      exact hcopy

/-- One more flush, and everything that is in flight then arrives. -/
def catchUp (x : Connection B n) : List (ConnectionStep n) :=
  x.flushAgain ++ (List.range (run step x x.flushAgain).flight.length).map
    .deliver

theorem Carried.ended_catchUp (h : x.Carried) (hinv : x.Inv)
    (hlive : x.client.sys.halted = none)
    (hidle : x.client.verifier.phase = .idle)
    (hdone : x.client.verifier.slot.datalen ≤
      x.client.verifier.slot.nwrite) {id : Int} (hfin : x.fins id = true) :
    (run Connection.step x x.catchUp).Ended id := by
  obtain ⟨hfin', hsent⟩ := hinv.keeps_run x.catchUp id hfin
  refine ⟨hfin', fun i hi => ?_⟩
  rw [hsent] at hi
  rw [catchUp, run_append]
  obtain ⟨hkept, harrives⟩ := run_deliver
    (x := run Connection.step x x.flushAgain)
    (List.range (run Connection.step x x.flushAgain).flight.length)
  rcases h.run_flushAgain hlive hidle hdone id i hi with hthere | hflies
  · exact hkept id i hthere
  · obtain ⟨copy, hmem, rfl, rfl⟩ := hflies
    obtain ⟨m, hm, hget⟩ := List.getElem_of_mem hmem
    exact harrives m (List.mem_range.mpr hm) copy
      (List.getElem?_eq_some_iff.mpr ⟨hm, hget⟩)

end Connection

namespace Site

variable {B : Blake3} {k n : Nat} {s : Site B k n} {c : Fin k}

theorem run_conn (s : Site B k n) (c : Fin k)
    (sched : List (ConnectionStep n)) :
    run step s (sched.map (.conn c)) =
      s.setConn c (run Connection.step (s.conns c) sched) := by
  induction sched generalizing s with
  | nil => simp only [List.map_nil, run_nil, setConn, Function.update_eq_self]
  | cons a rest ih =>
    rw [List.map_cons, run_cons, ih, run_cons]
    simp only [step, setConn, Function.update_self, Function.update_idem]

/-! ## The loop of the server -/

/-- The server gets the next stream, if it does not have it already. -/
theorem Inv.acceptStream_reading (h : s.Inv) (hconn : s.conn = some c)
    (hknown : (s.conns c).Known (streamNumber s.payloads.length)) :
    s.acceptStream.phase = .reading (streamNumber s.payloads.length) := by
  unfold Site.acceptStream
  cases hphase : s.phase with
  | accepting =>
    rw [h.accepting hphase, hconn]
    simp only [if_pos hknown]
  | reading id =>
    rw [hconn]
    exact (h.reading id hphase).2 ▸ hphase

theorem length_readAll {id : Int} (hconn : s.conn = some c)
    (hphase : s.phase = .reading id) (hended : (s.conns c).Ended id) :
    s.readAll.payloads.length = s.payloads.length + 1 := by
  unfold readAll
  rw [hconn, hphase]
  simp only [if_pos hended, List.length_append, List.length_singleton]

/-- The server reads the next stream, if it has ended. -/
theorem Inv.length_serve (h : s.Inv) (hconn : s.conn = some c)
    (hmem : streamNumber s.payloads.length ∈
      (s.conns c).client.verifier.opened)
    (hended : (s.conns c).Ended (streamNumber s.payloads.length))
    (hne : (s.conns c).sent (streamNumber s.payloads.length) ≠ []) :
    s.acceptStream.readAll.payloads.length = s.payloads.length + 1 := by
  have hpos := List.length_pos_iff.mpr hne
  have hphase := h.acceptStream_reading hconn
    ⟨_, hmem, le_rfl, 0, hpos, hended.2 0 hpos⟩
  obtain ⟨hconn', hconns, hpayloads⟩ := s.acceptStream_same
  rw [length_readAll (hconn'.trans hconn) hphase (by rw [hconns]; exact hended),
    hpayloads]

/-- The server reads `d` streams. -/
def serve (k n d : Nat) : List (SiteStep k n) :=
  (List.replicate d [.acceptStream, .readAll]).flatten

/-- From a state in which every stream has ended. -/
theorem run_serve (d : Nat) : ∀ {s : Site B k n}, s.Inv → s.conn = some c →
    (∀ id ∈ (s.conns c).client.verifier.opened,
      (s.conns c).Ended id ∧ (s.conns c).sent id ≠ []) →
    s.payloads.length + d = (s.conns c).client.verifier.opened.length →
    let t := run step s (serve k n d)
    t.conn = some c ∧ t.conns = s.conns ∧
      t.payloads.length = (s.conns c).client.verifier.opened.length := by
  induction d with
  | zero =>
    intro s h hconn hended hd
    exact ⟨hconn, rfl, hd⟩
  | succ d ih =>
    intro s h hconn hended hd
    have hmem : streamNumber s.payloads.length ∈
        (s.conns c).client.verifier.opened :=
      ((h.conns c).opened _).mpr ⟨_, by omega, rfl⟩
    have hlength := h.length_serve hconn hmem (hended _ hmem).1
      (hended _ hmem).2
    have hconns : s.acceptStream.readAll.conns = s.conns :=
      (readAll_same _).2.trans (acceptStream_same _).2.1
    have hconn' : s.acceptStream.readAll.conn = some c :=
      ((readAll_same _).1.trans (acceptStream_same _).1).trans hconn
    rw [serve, List.replicate_succ, List.flatten_cons]
    have hnext := ih (s := s.acceptStream.readAll) h.acceptStream.readAll
      hconn' (by rw [hconns]; exact hended) (by rw [hconns]; omega)
    rw [hconns] at hnext
    exact hnext

/-! ## The result -/

theorem callsInOrder_of_carries {a : SiteStep k n} (ha : a.Carries c) :
    s.CallsInOrder c a := by
  cases a with
  | conn c' a =>
    cases a with
    | client a =>
      cases a with
      | sys => exact ha.elim
      | verifier a => exact fun _ => ⟨trivial, trivial, trivial⟩
    | _ => exact fun _ => trivial
  | _ => trivial

theorem Served.run_carries (h : s.Served c) {more : List (SiteStep k n)}
    (hmore : ∀ a ∈ more, a.Carries c) : (run Site.step s more).Served c :=
  run_invariant_of_meets (P := Served c)
    (fun _ _ h ha => h.step (callsInOrder_of_carries ha)) h
    (meets_of_forall hmore _)

theorem carries_catchUp (c : Fin k) (x : Connection B n) :
    ∀ a ∈ x.catchUp, (SiteStep.conn c a).Carries c := by
  intro a ha
  simp only [Connection.catchUp, Connection.flushAgain, List.mem_append,
    List.mem_cons, List.not_mem_nil, or_false, List.mem_map] at ha
  rcases ha with (rfl | ⟨b, -, rfl⟩ | rfl) | ⟨i, -, rfl⟩ <;> exact rfl

theorem carries_serve (c : Fin k) (d : Nat) :
    ∀ a ∈ serve k n d, a.Carries c := by
  intro a ha
  obtain ⟨l, hl, ha⟩ := List.mem_flatten.mp ha
  rw [List.eq_of_mem_replicate hl, List.mem_cons, List.mem_singleton] at ha
  rcases ha with rfl | rfl <;> trivial

/-- Everything has arrived behind one more flush, and no line is new. -/
theorem Served.run_catchUp (h : s.Served c)
    (hlive : (s.conns c).client.sys.halted = none)
    (hidle : (s.conns c).client.verifier.phase = .idle)
    (hdone : (s.conns c).client.verifier.slot.datalen ≤
      (s.conns c).client.verifier.slot.nwrite)
    (hok : ∀ event ∈ (s.conns c).client.sys.dequeued, event.LengthOk) :
    let t := run Site.step s ((s.conns c).catchUp.map (.conn c))
    t.conn = s.conn ∧ t.Served c ∧
      (t.conns c).client.sys = (s.conns c).client.sys ∧
      ∀ id ∈ (t.conns c).client.verifier.opened,
        (t.conns c).Ended id ∧ (t.conns c).sent id ≠ [] := by
  intro t
  have hcarry : ∀ a ∈ (s.conns c).catchUp.map (SiteStep.conn c),
      a.Carries c := by
    rw [List.forall_mem_map]
    exact carries_catchUp c (s.conns c)
  have hrun : t = s.setConn c
      (run Connection.step (s.conns c) (s.conns c).catchUp) :=
    run_conn s c _
  have hserved : t.Served c := h.run_carries hcarry
  have hsys : (t.conns c).client.sys = (s.conns c).client.sys :=
    sys_run s (fun a ha => (hcarry a ha).not_sys) c
  refine ⟨by rw [hrun]; rfl, hserved, hsys, fun id hmem => ?_⟩
  obtain ⟨j, hj, rfl⟩ := ((hserved.inv.conns c).opened id).mp hmem
  rw [hserved.matched.length, hsys, ← h.matched.length] at hj
  -- a stream that is not written has its end, and no stream is written
  have hfin : (s.conns c).fins (streamNumber j) = true := by
    refine h.matched.fin_of_idle hok hj ?_
    rintro ⟨-, hlt⟩
    exact Nat.not_lt_of_le hdone hlt
  have hended : (t.conns c).Ended (streamNumber j) := by
    simp only [hrun, setConn, Function.update_self]
    exact h.carried.ended_catchUp (h.inv.conns c) hlive hidle hdone hfin
  exact ⟨hended, hserved.matched.sent_ne (by rw [hsys]; exact hok) hended.1⟩

/-- In every run as in `server_prints_records`, while the process is running and
its verifier is between two flushes, once the library has taken all the messages, it
takes one more flush that sends again what is not acknowledged, and deliveries,
until the server can print every line of the processor. -/
theorem server_catches_up [NeZero n] (boot : Fin k → Sys.Boot n) (c : Fin k)
    (sched : List (SiteStep k n))
    (hcalls : Meets step (CallsInOrder c) (start B boot) sched) :
    let s := run step (start B boot) sched
    let x := (s.conns c).client
    s.conn = some c → x.sys.halted = none → x.verifier.phase = .idle →
      x.verifier.slot.datalen ≤ x.verifier.slot.nwrite →
      (∀ event ∈ x.sys.dequeued, event.LengthOk) →
      ∃ more : List (SiteStep k n), (∀ a ∈ more, a.Carries c) ∧
        (run step s more).payloads =
          x.sys.records.map fun r => r.hash ++ r.file := by
  intro s x hconn hlive hidle hdone hok
  obtain ⟨htconn, htserved, htsys, hended⟩ :=
    (served_run boot hcalls).run_catchUp hlive hidle hdone hok
  -- the state in which everything has arrived
  obtain ⟨t, ht⟩ : ∃ t, t = run step s ((s.conns c).catchUp.map (.conn c)) :=
    ⟨_, rfl⟩
  rw [← ht] at htconn htserved htsys hended
  have hle := (htserved.payloads_prefix_records (by rw [htsys]; exact hok)
    (htconn.trans hconn)).length_le
  rw [List.length_map, ← htserved.matched.length] at hle
  obtain ⟨d, hd⟩ := Nat.le.dest hle
  obtain ⟨huconn, huconns, hall⟩ :=
    run_serve d htserved.inv (htconn.trans hconn) hended hd
  refine ⟨(s.conns c).catchUp.map (.conn c) ++ serve k n d, ?_, ?_⟩
  · intro a ha
    rcases List.mem_append.mp ha with hflush | hserve
    · obtain ⟨b, hb, rfl⟩ := List.mem_map.mp hflush
      exact carries_catchUp c (s.conns c) b hb
    · exact carries_serve c d a hserve
  · rw [run_append, ← ht]
    have hprefix := (htserved.run_carries
      (carries_serve c d)).payloads_prefix_records
      (by rw [huconns, htsys]; exact hok) huconn
    rw [huconns, htsys] at hprefix
    refine hprefix.eq_of_length ?_
    rw [hall, List.length_map, htserved.matched.length, htsys]

theorem server_catches_up_after_servedRun :
    let s := run step (start .concat fun _ => Sys.Boot.zeroed 1) servedRun
    ((s.conns (Fin.last 0)).flight.length = 4 ∧
        (s.conns (Fin.last 0)).arrived 4 0 = none) ∧
      ∃ more : List (SiteStep 1 1), (∀ a ∈ more, a.Carries (Fin.last 0)) ∧
        (run step s more).payloads =
          (s.conns (Fin.last 0)).client.sys.records.map fun r =>
            r.hash ++ r.file :=
  ⟨by decide +kernel, server_catches_up (k := 1) (fun _ => Sys.Boot.zeroed 1)
    (Fin.last 0) servedRun (by decide +kernel) (by decide +kernel)
    (by decide +kernel) (by decide +kernel) (by decide +kernel)
    (by decide +kernel)⟩

end Site

end Ride
