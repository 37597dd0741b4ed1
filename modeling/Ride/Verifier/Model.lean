import Ride.Event
import Mathlib.Logic.Function.Basic

/-!
# The stream of the verifier

`verifier_verify_hash` sends a digest and a path to the verification server.  It
opens a stream, copies the message behind the data of a slot, and flushes.  All
the messages use the slot `0`.

`verifier_flush_out` offers what is left of the slot to
`ngtcp2_conn_writev_stream`, again and again, until the library has nothing more
to send.  The library may take any part of an offer, or nothing.  `Writev` is
what a call answers, and `Writev.Within` is the part of its contract that
matters here.

`Verifier.step` runs the loop round by round, so that a schedule decides every
answer of the library.  `accepted` and `message` are history: the bytes that the
library took for each stream, and the message that each stream was opened for.
-/

namespace Ride

/-- `MAX_CONCURRENT_WRITES` of `verifier.h`. -/
def MAX_CONCURRENT_WRITES : Nat := 4

/-- The size of the array `data` of `struct quic_stream`. -/
def STREAM_DATA_SIZE : Nat := 256

/-- `struct quic_stream`, without the buffer that nothing uses. -/
structure QuicStream where
  streamId : Int
  data : Bytes
  datalen : Nat
  nwrite : Nat
  data_length : data.length = STREAM_DATA_SIZE
deriving DecidableEq

/-- `memcpy` to an offset of a buffer, where the source fits. -/
def memcpy (dst : Bytes) (off : Nat) (src : Bytes) : Bytes :=
  dst.take off ++ src ++ dst.drop (off + src.length)

theorem length_memcpy {dst : Bytes} {off : Nat} {src : Bytes}
    (h : off + src.length ≤ dst.length) :
    (memcpy dst off src).length = dst.length := by
  simp only [memcpy, List.length_append, List.length_take, List.length_drop]
  omega

/-- The copy leaves what is in front of it. -/
theorem take_memcpy {dst : Bytes} {off : Nat} {src : Bytes}
    (h : off + src.length ≤ dst.length) :
    (memcpy dst off src).take (off + src.length) = dst.take off ++ src := by
  have hlen : (dst.take off ++ src).length = off + src.length := by
    rw [List.length_append, List.length_take]
    omega
  rw [memcpy, ← hlen]
  exact List.take_left

/-- Two copies, one behind the other, are one copy. -/
theorem memcpy_memcpy {dst : Bytes} {off : Nat} {a b : Bytes}
    (h : off + (a ++ b).length ≤ dst.length) :
    memcpy (memcpy dst off a) (off + a.length) b = memcpy dst off (a ++ b) := by
  rw [List.length_append] at h
  have hfit : off + a.length ≤ dst.length := by omega
  have hrest : (memcpy dst off a).drop (off + a.length + b.length) =
      dst.drop (off + (a ++ b).length) := by
    have hlen : (dst.take off ++ a).length = off + a.length := by
      rw [List.length_append, List.length_take]
      omega
    rw [memcpy, ← List.drop_drop, ← hlen, List.drop_left, hlen, List.drop_drop,
      List.length_append, Nat.add_assoc]
  rw [memcpy, take_memcpy hfit, hrest, memcpy, List.append_assoc _ a b]

/-- The bytes behind a copy. -/
theorem getElem?_memcpy {dst : Bytes} {off : Nat} {src : Bytes}
    (h : off + src.length ≤ dst.length) (i : Nat) :
    (memcpy dst off src)[i]? =
      if off ≤ i ∧ i < off + src.length then src[i - off]? else dst[i]? := by
  have hlen : (dst.take off).length = off := by
    rw [List.length_take]
    omega
  rw [memcpy, List.append_assoc]
  rcases Nat.lt_or_ge i off with hlt | hge
  · rw [List.getElem?_append_left (by omega), List.getElem?_take_of_lt hlt,
      if_neg (by omega)]
  · rw [List.getElem?_append_right (by omega), hlen]
    rcases Nat.lt_or_ge i (off + src.length) with hlt | hbehind
    · rw [List.getElem?_append_left (by omega), if_pos ⟨hge, hlt⟩]
    · rw [List.getElem?_append_right (by omega), List.getElem?_drop,
        if_neg (by omega)]
      congr 1
      omega

namespace QuicStream

/-- The data that is not accepted yet. -/
def unsent (s : QuicStream) : Bytes :=
  (s.data.drop s.nwrite).take (s.datalen - s.nwrite)

/-- `stream->nwrite += w`. -/
def advance (s : QuicStream) (w : Nat) : QuicStream :=
  { s with nwrite := s.nwrite + w }

/-- The slot behind a copy of `bytes` to the end of its data. -/
def append (s : QuicStream) (bytes : Bytes)
    (h : s.datalen + bytes.length ≤ STREAM_DATA_SIZE) : QuicStream where
  streamId := s.streamId
  data := memcpy s.data s.datalen bytes
  datalen := s.datalen + bytes.length
  nwrite := s.nwrite
  data_length := by
    rw [length_memcpy (by rw [s.data_length]; exact h), s.data_length]

theorem append_append (s : QuicStream) {a b : Bytes}
    (h : s.datalen + (a ++ b).length ≤ STREAM_DATA_SIZE)
    (ha : s.datalen + a.length ≤ STREAM_DATA_SIZE)
    (hb : (s.append a ha).datalen + b.length ≤ STREAM_DATA_SIZE) :
    (s.append a ha).append b hb = s.append (a ++ b) h := by
  have hdata := memcpy_memcpy (s.data_length ▸ h)
  have hlen : s.datalen + a.length + b.length = s.datalen + (a ++ b).length := by
    rw [List.length_append, Nat.add_assoc]
  simp only [append, hdata, hlen]

end QuicStream

/-- What a call of `ngtcp2_conn_writev_stream` answers: `NGTCP2_ERR_WRITE_MORE`
with the bytes that it took, another error, nothing to send, or a packet with the
bytes that it took and the outcome of sending it. -/
inductive Writev where
  | writeMore (wdatalen : Nat)
  | error
  | zero
  | packet (wdatalen : Int) (sent : Bool)
deriving DecidableEq

/-- The library takes no more than it is offered, and nothing without an
offer. -/
def Writev.Within (offer : Option (Int × Bytes)) : Writev → Prop
  | .writeMore w => ∃ o ∈ offer, w ≤ o.2.length
  | .packet w _ => w ≤ ((offer.map fun o => o.2.length).getD 0 : Nat)
  | _ => True

instance (offer : Option (Int × Bytes)) : DecidablePred (Writev.Within offer) :=
  fun r => match r with
  | .writeMore w => inferInstanceAs (Decidable (∃ o ∈ offer, w ≤ o.2.length))
  | .packet w _ => inferInstanceAs
    (Decidable (w ≤ ((offer.map fun o => o.2.length).getD 0 : Nat)))
  | .error => isTrue trivial
  | .zero => isTrue trivial

/-- Who called `verifier_quic_flush`: `verifier_verify_hash`, which does not look
at the result, or `verifier_flush_egress`, which exits on a failure. -/
inductive Flusher where
  | verifyHash
  | flushEgress
deriving DecidableEq

/-- Where the verifier is: between calls, in the loop of `verifier_flush_out`,
or at its end.  An access out of bounds and a null pointer are faults. -/
inductive VerifierPhase where
  | idle
  | flushing (caller : Flusher)
  | exited
  | fault
deriving DecidableEq

/-- The stream slots of `struct verifier`, and the history of the streams. -/
structure Verifier where
  hashReqSlots : Fin MAX_CONCURRENT_WRITES → QuicStream
  phase : VerifierPhase
  opened : List Int
  accepted : Int → Bytes
  message : Int → Option Bytes

/-- The calls of the verifier, and the answers of the library to its loop.  A
socket read is the call of `verifier_flush_egress` at its end. -/
inductive VerifierStep where
  | verifyHash (streamId : Int) (pathname hash : Bytes)
  | flushEgress
  | writev (r : Writev)
deriving DecidableEq

namespace Verifier

/-- The number of the slot that all the messages use. -/
def slotId : Fin MAX_CONCURRENT_WRITES := ⟨0, by decide⟩

/-- The slot that all the messages use. -/
def slot (v : Verifier) : QuicStream := v.hashReqSlots slotId

/-- A store to the slot. -/
def setSlot (v : Verifier) (s : QuicStream) : Verifier :=
  { v with hashReqSlots := Function.update v.hashReqSlots slotId s }

@[simp] theorem slot_setSlot (v : Verifier) (s : QuicStream) :
    (v.setSlot s).slot = s := by
  simp only [slot, setSlot, Function.update_self]

/-! ## The source functions -/

/-- `verifier_init`, on zeroed memory. -/
def verifierInit : Verifier where
  hashReqSlots := fun _ =>
    ⟨-1, List.replicate STREAM_DATA_SIZE 0, 0, 0, List.length_replicate⟩
  phase := .idle
  opened := []
  accepted := fun _ => []
  message := fun _ => none

/-- `verifier_quic_get_slot`, with the return value and the stream of
`ngtcp2_conn_open_bidi_stream`. -/
def verifierQuicGetSlot (v : Verifier) (rv streamId : Int) : Int × Verifier :=
  if rv ≠ 0 then (rv, v)
  else (0, { v.setSlot { v.slot with streamId := streamId } with
    opened := streamId :: v.opened })

/-- `verifier_quic_slot_writev`, where the slot number and the copy are in
range. -/
def verifierQuicSlotWritev (v : Verifier) (slotId : Int) (data : Bytes) :
    Option Verifier :=
  if hslot : 0 ≤ slotId ∧ slotId.toNat < MAX_CONCURRENT_WRITES then
    let i : Fin MAX_CONCURRENT_WRITES := ⟨slotId.toNat, hslot.2⟩
    let stream := v.hashReqSlots i
    if hfit : stream.datalen + data.length ≤ STREAM_DATA_SIZE then
      some { v with
        hashReqSlots := Function.update v.hashReqSlots i
          (stream.append data hfit) }
    else none
  else none

/-- `verifier_verify_hash`, up to the loop of `verifier_flush_out`.  `pathname`
is the first `pathlen` bytes behind the pointer. -/
def verifierVerifyHash (v : Verifier) (rv streamId : Int)
    (pathname hash : Bytes) : Verifier :=
  let c := v.verifierQuicGetSlot rv streamId
  match (c.2.verifierQuicSlotWritev c.1 hash).bind fun v =>
      v.verifierQuicSlotWritev c.1 pathname with
  | none => { c.2 with phase := .fault }
  | some v => { v with
      phase := .flushing .verifyHash
      message := Function.update v.message streamId (some (hash ++ pathname)) }

/-- `verifier_prep_vec`: what is offered, with its stream, and the slot after
the call. -/
def verifierPrepVec (v : Verifier) : Option (Int × Bytes) × Verifier :=
  let s := v.slot
  if s.streamId ≠ -1 ∧ s.nwrite < s.datalen then
    (some (s.streamId, s.unsent), v)
  else if s.streamId ≠ -1 then
    (none, v.setSlot { s with streamId := -1, datalen := 0, nwrite := 0 })
  else (none, v)

/-- The library takes the first `w` bytes for the stream, and `stream->nwrite`
moves over them. -/
def took (v : Verifier) (id : Int) (bytes : Bytes) (w : Nat) : Verifier :=
  { v.setSlot (v.slot.advance w) with
    accepted := Function.update v.accepted id (v.accepted id ++ bytes.take w) }

@[simp] theorem slot_took (v : Verifier) (id : Int) (bytes : Bytes) (w : Nat) :
    (v.took id bytes w).slot = v.slot.advance w :=
  slot_setSlot v _

/-- Without an offer the pointer `stream` is null. -/
def take (v : Verifier) (offer : Option (Int × Bytes)) (w : Nat) :
    Option Verifier :=
  offer.map fun o => v.took o.1 o.2 w

/-- The end of `verifier_flush_out` with the result of the flush. -/
def flushed (v : Verifier) (caller : Flusher) (failed : Bool) : Verifier :=
  if failed ∧ caller = .flushEgress then { v with phase := .exited }
  else { v with phase := .idle }

/-- One round of the loop of `verifier_flush_out`. -/
def verifierFlushRound (v : Verifier) (caller : Flusher) (r : Writev) :
    Verifier :=
  let c := v.verifierPrepVec
  match r with
  | .writeMore w => (c.2.take c.1 w).getD { c.2 with phase := .fault }
  | .error => c.2.flushed caller true
  | .zero => c.2.flushed caller false
  | .packet w sent =>
    match if 0 < w then c.2.take c.1 w.toNat else some c.2 with
    | none => { c.2 with phase := .fault }
    | some v => if sent then v else v.flushed caller false

/-- One step.  A stream that is opened is a new one, the library keeps its
contract, and a call starts when the last one is done. -/
def step (v : Verifier) (a : VerifierStep) : Verifier :=
  match a, v.phase with
  | .verifyHash streamId pathname hash, .idle =>
    if 0 ≤ streamId ∧ streamId ∉ v.opened then
      v.verifierVerifyHash 0 streamId pathname hash
    else v
  | .flushEgress, .idle => { v with phase := .flushing .flushEgress }
  | .writev r, .flushing caller =>
    if r.Within v.verifierPrepVec.1 then v.verifierFlushRound caller r else v
  | _, _ => v

end Verifier

end Ride
