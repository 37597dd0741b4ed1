import Ride.Verifier.Access
import Ride.Verifier.Retransmit

/-!
# The verification server

`VerifierServer` accepts one connection.  Then it accepts one stream after the
other, reads each one to its end, and prints what it has read.

The model has `k` processors with a connection each.  It adds to `Client` what
the two QUIC libraries and the network do, as far as it matters here.

* The streams that the client opens have the numbers 0, 4, 8 and so on.
* Each offer of `verifier_flush_out` carries the flag for the end of the stream,
  and the library takes the flag when it takes the last byte of the offer.
* The library writes a byte that it takes to a packet, and may write it again to a
  later one until it is acknowledged.  It reads the byte from the slot each time, as
  in `Ride.Verifier.Retransmit`, whatever is there by then.
* A packet goes out when `ngtcp2_conn_writev_stream` returns it and `sendmsg`
  succeeds.  What is in flight may arrive in any order, be lost, or arrive twice.
* The server acknowledges what it has.
* `AcceptStream` returns the streams in the order of their numbers.  A stream is
  there as soon as something of it, or of a stream behind it, has arrived.
* `ReadAll` returns at the end of the stream, with all its bytes.
-/

namespace Ride

open CodeLib CodeLib.Machine

/-- The number of the stream that the client opens after `j` others. -/
def streamNumber (j : Nat) : Int := 4 * j

/-- The stream that a step may open. -/
def ClientStep.streamId {n : Nat} : ClientStep n → Option Int
  | .sys _ streamId => some streamId
  | .verifier _ => none

/-- A byte in a packet, with its place in its stream. -/
structure Copy where
  stream : Int
  offset : Nat
  byte : UInt8
deriving DecidableEq

namespace Verifier

/-- What the library reads from the slot when it writes a byte to a packet. -/
def copy (v : Verifier) (b : SentByte) : Option Copy :=
  v.slot.data[b.pos]?.map fun byte => ⟨b.stream, b.offset, byte⟩

/-- The step completes a packet.  The answer is whether `sendmsg` sends it. -/
def completesPacket (v : Verifier) : VerifierStep → Option Bool
  | .writev (.packet w sent) =>
    match v.phase with
    | .flushing _ =>
      if Writev.Within v.verifierPrepVec.1 (.packet w sent) then some sent
      else none
    | _ => none
  | _ => none

/-- The loop of `verifier_flush_out` is running. -/
def InFlush (v : Verifier) : Prop := ∃ caller, v.phase = .flushing caller

instance (v : Verifier) : Decidable v.InFlush :=
  match h : v.phase with
  | .flushing caller => isTrue ⟨caller, h⟩
  | .idle => isFalse fun ⟨_, h'⟩ => nomatch h.symm.trans h'
  | .exited => isFalse fun ⟨_, h'⟩ => nomatch h.symm.trans h'
  | .fault => isFalse fun ⟨_, h'⟩ => nomatch h.symm.trans h'

end Verifier

/-- The packet that a step of the client completes. -/
def Client.completesPacket {B : Blake3} {n : Nat} (x : Client B n) :
    ClientStep n → Option Bool
  | .verifier a => x.verifier.completesPacket a
  | .sys _ _ => none

/-- A processor and its connection.  `fins` has the streams whose end the
library of the client has taken, and `unacked` the bytes that it may send again.
`packet` is what the library has written to the packet that is not complete, and
`flight` what was sent and is not lost.  `arrived` has the bytes of the server. -/
structure Connection (B : Blake3) (n : Nat) where
  client : Client B n
  fins : Int → Bool
  unacked : List SentByte
  packet : List Copy
  flight : List Copy
  arrived : Int → Nat → Option UInt8

/-- A step of the client; the library of the client writes a byte once more, or
gets an acknowledgement; a byte in flight arrives, or it is lost. -/
inductive ConnectionStep (n : Nat) where
  | client (a : ClientStep n)
  | resend (b : SentByte)
  | ack (stream : Int) (first last : Nat)
  | deliver (i : Nat)
  | lose (i : Nat)

namespace Connection

variable {B : Blake3} {n : Nat}

def start (B : Blake3) {n : Nat} [NeZero n] (boot : Sys.Boot n) :
    Connection B n where
  client := Client.start B boot
  fins := fun _ => false
  unacked := []
  packet := []
  flight := []
  arrived := fun _ _ => none

/-- The bytes that the library of the client has taken for a stream. -/
def sent (x : Connection B n) (id : Int) : Bytes :=
  x.client.verifier.accepted id

/-- The stream slots, with the bytes that may be sent again. -/
def session (x : Connection B n) : Session := ⟨x.client.verifier, x.unacked⟩

/-- The library takes the end of the stream when it takes the last byte of an
offer that carries the flag. -/
def takesFin (x : Connection B n) (a : ClientStep n) : Bool :=
  x.client.verifier.pfin &&
    (x.client.step a).verifier.slot.nwrite ==
      (x.client.step a).verifier.slot.datalen

/-- The client is running, and where the step opens a stream it is the next
one. -/
def Moves (x : Connection B n) (a : ClientStep n) : Prop :=
  x.client.sys.halted = none ∧
    ∀ id ∈ a.streamId, id = streamNumber x.client.verifier.opened.length

instance (x : Connection B n) : DecidablePred x.Moves :=
  fun _ => inferInstanceAs (Decidable (_ ∧ ∀ id ∈ _, _))

/-- A step of the client.  The bytes that the library takes go to the packet, and
the packet goes out when it is complete. -/
def clientStep (x : Connection B n) (a : ClientStep n) : Connection B n :=
  if x.Moves a then
    let y := x.client.step a
    let new := Session.newlySent x.client.verifier y.verifier
    let packet := x.packet ++ new.filterMap y.verifier.copy
    { x with
      client := y
      fins := if x.takesFin a then
          Function.update x.fins x.client.verifier.slot.streamId true
        else x.fins
      unacked := new ++ x.unacked
      packet := if (x.client.completesPacket a).isSome then [] else packet
      flight := if x.client.completesPacket a = some true then x.flight ++ packet
        else x.flight }
  else x

/-- The library writes a byte once more, in the loop of `verifier_flush_out`. -/
def resend (x : Connection B n) (b : SentByte) : Connection B n :=
  if b ∈ x.unacked ∧ x.client.sys.halted = none ∧
      x.client.verifier.InFlush then
    { x with packet := x.packet ++ (x.client.verifier.copy b).toList }
  else x

/-- The server acknowledges a range of a stream, where it has the bytes. -/
def ack (x : Connection B n) (stream : Int) (first last : Nat) :
    Connection B n :=
  let t := x.session.step (.ack stream first last)
  if ∀ b ∈ x.unacked, b ∈ t.unacked ∨ (x.arrived b.stream b.offset).isSome then
    { x with unacked := t.unacked }
  else x

/-- A byte in flight arrives.  It may arrive again, and the server may ignore a
byte that it has, which is to lose it. -/
def deliver (x : Connection B n) (i : Nat) : Connection B n :=
  match x.flight[i]? with
  | some copy => { x with
      arrived := Function.update x.arrived copy.stream
        (Function.update (x.arrived copy.stream) copy.offset (some copy.byte)) }
  | none => x

def lose (x : Connection B n) (i : Nat) : Connection B n :=
  { x with flight := x.flight.eraseIdx i }

def step (x : Connection B n) : ConnectionStep n → Connection B n
  | .client a => x.clientStep a
  | .resend b => x.resend b
  | .ack stream first last => x.ack stream first last
  | .deliver i => x.deliver i
  | .lose i => x.lose i

/-- The end of a stream has arrived.  It comes with the last byte. -/
def Ended (x : Connection B n) (id : Int) : Prop :=
  x.fins id = true ∧ ∀ i < (x.sent id).length, (x.arrived id i).isSome

instance (x : Connection B n) : DecidablePred x.Ended :=
  fun _ => inferInstanceAs (Decidable (_ ∧ ∀ i < _, _))

/-- The server knows of the stream. -/
def Known (x : Connection B n) (id : Int) : Prop :=
  ∃ later ∈ x.client.verifier.opened,
    id ≤ later ∧ ∃ i < (x.sent later).length, (x.arrived later i).isSome

instance (x : Connection B n) : DecidablePred x.Known := fun _ =>
  inferInstanceAs (Decidable (∃ later ∈ _, _ ∧ ∃ i < _, _))

/-- What the server has of a stream. -/
def received (x : Connection B n) (id : Int) : Bytes :=
  (List.range (x.sent id).length).filterMap (x.arrived id)

end Connection

/-- Where the loop of `VerifierServer` is: in `AcceptStream`, or in `ReadAll`. -/
inductive ServerPhase where
  | accepting
  | reading (streamId : Int)
deriving DecidableEq

/-- The server and its clients.  `conn` is the connection that `Accept` has
returned, `accepts` counts the streams that `AcceptStream` has returned, and
`payloads` are the texts that were printed. -/
structure Site (B : Blake3) (k n : Nat) where
  conns : Fin k → Connection B n
  conn : Option (Fin k)
  phase : ServerPhase
  accepts : Nat
  payloads : List Bytes

/-- The steps of the connections and of the server. -/
inductive SiteStep (k n : Nat) where
  | conn (c : Fin k) (a : ConnectionStep n)
  | accept (c : Fin k)
  | acceptStream
  | readAll

namespace Site

variable {B : Blake3} {k n : Nat}

def start (B : Blake3) {k n : Nat} [NeZero n] (boot : Fin k → Sys.Boot n) :
    Site B k n where
  conns := fun c => .start B (boot c)
  conn := none
  phase := .accepting
  accepts := 0
  payloads := []

/-- A change of one connection. -/
def setConn (s : Site B k n) (c : Fin k) (x : Connection B n) : Site B k n :=
  { s with conns := Function.update s.conns c x }

/-- `listener.Accept`, which is called once. -/
def accept (s : Site B k n) (c : Fin k) : Site B k n :=
  if s.conn = none then { s with conn := some c } else s

/-- `conn.AcceptStream`. -/
def acceptStream (s : Site B k n) : Site B k n :=
  match s.conn, s.phase with
  | some c, .accepting =>
    if (s.conns c).Known (streamNumber s.accepts) then
      { s with
        phase := .reading (streamNumber s.accepts)
        accepts := s.accepts + 1 }
    else s
  | _, _ => s

/-- `io.ReadAll` and the line of the payload. -/
def readAll (s : Site B k n) : Site B k n :=
  match s.conn, s.phase with
  | some c, .reading id =>
    if (s.conns c).Ended id then
      { s with
        phase := .accepting
        payloads := s.payloads ++ [(s.conns c).received id] }
    else s
  | _, _ => s

def step (s : Site B k n) : SiteStep k n → Site B k n
  | .conn c a => s.setConn c ((s.conns c).step a)
  | .accept c => s.accept c
  | .acceptStream => s.acceptStream
  | .readAll => s.readAll

end Site

end Ride
