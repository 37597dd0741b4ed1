import Ride.CodeLib.FreeList
import Ride.Ev.Completion
import Ride.Ev.Submission
import Ride.Hasher
import Ride.Queue.Model

/-!
# The processor

A processor is one thread.  It takes events from the shared queue, opens each
file, reads it to the end through `io_uring` and prints the digest.  Every task
holds a slot of a slab, and the slots that no task holds are on a linked list.
The QUIC client of the verifier shares the event loop and takes slots from the
same slab for the updates of its timer.

`Sys` is the memory of one processor, its two rings, and what the rest of the
process and the kernel keep for it.  The definitions below are the functions of
`processor.c` and the event-loop side of `verifier.c`, in the order of the
source.

A callback runs in one piece up to its first call of `ev_iou_req`.  What it still
has to do then is in `Sys.todo`, so that the kernel can move between two
submissions of one callback.  The state is between callbacks when `todo` is
empty.

Requests are named by `ReqPtr`, their memory is read with `Sys.req` and written
with `Sys.setReq`.  The calls that leave the modelled part are answered by
`Answers`.  A call of `exit`, a failed `assert` and an access to memory that is
not there end the run: they set `Sys.halted`.
-/

namespace Ride

open CodeLib

/-! ## Memory -/

/-- The objects whose address the program stores in a word of a request. -/
inductive Block (n : Nat) where
  | null
  | path (id : Nat)
  | buffer (i : Fin n)
  | verifier
  | expiry
  | remoteAddr
  | readbuf
deriving DecidableEq

/-- A `uint64_t` of a request: an address in an object, or a number. -/
structure Word (n : Nat) where
  block : Block n
  off : UInt64
deriving DecidableEq

/-- A word that is a number. -/
def Word.num {n : Nat} (value : UInt64) : Word n := ⟨.null, value⟩

/-- The address of an object. -/
def Word.addr {n : Nat} (block : Block n) : Word n := ⟨block, 0⟩

/-- The functions that a request can call back. -/
inductive Callback where
  | onQueueEvent
  | onFileOpen
  | onFileRead
  | onSocketCreate
  | onSocketConnect
  | onSocketRead
  | onSocketTimeout
  | onSocketTimeoutUpdate
deriving DecidableEq

/-- `ev_io_req_t`.  The field `data` points to the processor or to its verifier,
and a processor has one of each, so it is left out. -/
structure EvIoReq (n : Nat) extends IoReq (Word n) where
  data2 : Option (Fin n)
  callback : Option Callback
deriving DecidableEq

/-- A request in zeroed memory. -/
def EvIoReq.zero {n : Nat} : EvIoReq n where
  opcode := .nop
  off := .num 0
  addr := .num 0
  fd := 0
  len := 0
  flags := 0
  result := 0
  resultFlags := 0
  data2 := none
  callback := none

/-- `struct processor_iou_req`.  `data` is the path, a string on the heap, and
`data2` is the length of the path. -/
structure Slot (H : Type) (n : Nat) where
  req : EvIoReq n
  hasher : H
  next : Option (Fin n)
  buffer : Fin n
  data : Option Nat
  data2 : Int
  inFlight : Bool
  id : Nat

/-- The requests of a processor. -/
inductive ReqPtr (n : Nat) where
  | slot (i : Fin n)
  | queuePoll
  | conn
  | recv
  | timer
deriving DecidableEq

/-- The slot that holds the request. -/
def ReqPtr.container {n : Nat} : ReqPtr n → Option (Fin n)
  | .slot i => some i
  | _ => none

/-- What `user_data` carries: the request.  `gen` is history, and counts how
often the slot had been handed out when the entry was made. -/
structure Name (n : Nat) where
  req : ReqPtr n
  gen : Nat
deriving DecidableEq

/-- A regular file.  Its content does not change. -/
structure File where
  content : Bytes
  size_lt : content.length < 2 ^ 63
deriving DecidableEq

/-- What a file descriptor stands for.  The owner is history: the request that
opened the file. -/
inductive Fd (n : Nat) where
  | file (file : File) (owner : ReqPtr n)
  | other
deriving DecidableEq

/-- An operation that the kernel has taken from the submission ring.  A read
knows how many bytes it has put in its buffer. -/
inductive OpKind (n : Nat) where
  | openat (path : Option Bytes)
  | read (file : File) (off len : Nat) (buf : Word n) (filled : Option Nat)
  | poll
  | other
deriving DecidableEq

structure Op (n : Nat) where
  name : Name n
  kind : OpKind n
deriving DecidableEq

/-- What a running callback still has to do: calls of `ev_iou_req` and of
`verifier_flush_egress`. -/
inductive Cmd (n : Nat) where
  | submit (req : ReqPtr n)
  | flushEgress
deriving DecidableEq

/-- How a run can end. -/
inductive Halt where
  | exit
  | assertion
  | fault
deriving DecidableEq

/-! ## The state -/

/-- A line of the output.  The ticket is history: the number of the event in the
order of the dequeues. -/
structure Record where
  ticket : Option Nat
  processor : Nat
  reqId : Nat
  file : Bytes
  hash : Bytes
deriving DecidableEq

/-- An open that succeeded, for the history. -/
structure Opening where
  ticket : Option Nat
  path : Bytes
  file : File
deriving DecidableEq

/-- A processor with its rings and its part of the process and of the kernel.

The fields from `gens` on are history.  `gens` counts how often a slot was handed
out, and `tickets` is the event that a slot works for.  `dequeued`, `opens`,
`records`, `errors` and `refused` list what has happened: the events that
`queue_consume_try` returned, the files that the kernel opened, the output, the
tasks that ended with a logged error, and the requests that `ev_iou_req` refused.
`frees` lists the slots given to `processor_free_req`, with their `in_flight`. -/
structure Sys (B : Blake3) (n : Nat) where
  id : Nat
  reqs : Fin n → Slot B.State n
  reqsList : Option (Fin n)
  nrFreeReqs : Int
  buffers : Fin n → Bytes
  queuePollReq : EvIoReq n
  connReq : EvIoReq n
  recvReq : EvIoReq n
  timerReq : EvIoReq n
  expiry : Int × Int
  sockFd : Int
  conn : Bool
  sq : SubmissionRing (Word n) (Name n)
  cq : Reaper (Name n)
  todo : List (Cmd n)
  strings : Nat → Option (Bytes × Fin n)
  nextString : Nat
  fds : Int → Option (Fd n)
  ops : List (Op n)
  halted : Option Halt
  gens : Fin n → Nat
  tickets : Fin n → Option Nat
  dequeued : List Event
  opens : List Opening
  records : List Record
  errors : List (Option Nat)
  refused : List (ReqPtr n)
  frees : List (Fin n × Bool)

/-- What the calls that leave the modelled part answer: the shared queue and the
eventfd of the processor, and whether reading the eventfd failed with another
error than `EAGAIN`; whether `strdup`, `getsockname` and `verifier_quic_init`
succeed; and the return values of `ngtcp2_conn_open_bidi_stream` and of
`verifier_quic_flush`. -/
structure Answers where
  queue : Queue
  efd : Nat
  efdError : Bool
  strdup : Bool
  getsockname : Bool
  quicInit : Bool
  openStream : Int
  flush : UInt64

namespace Sys

variable {B : Blake3} {n : Nat}

/-- The run ends here. -/
def halt (s : Sys B n) (how : Halt) : Sys B n :=
  { s with halted := some how }

/-- The memory of a request. -/
def req (s : Sys B n) : ReqPtr n → EvIoReq n
  | .slot i => (s.reqs i).req
  | .queuePoll => s.queuePollReq
  | .conn => s.connReq
  | .recv => s.recvReq
  | .timer => s.timerReq

/-- A store to a slot. -/
def setSlot (s : Sys B n) (i : Fin n) (slot : Slot B.State n) : Sys B n :=
  { s with reqs := Function.update s.reqs i slot }

/-- A store to a request. -/
def setReq (s : Sys B n) (r : ReqPtr n) (req : EvIoReq n) : Sys B n :=
  match r with
  | .slot i => s.setSlot i { s.reqs i with req := req }
  | .queuePoll => { s with queuePollReq := req }
  | .conn => { s with connReq := req }
  | .recv => { s with recvReq := req }
  | .timer => { s with timerReq := req }

/-- The bytes at an address, where there is a buffer. -/
def readMem (s : Sys B n) (addr : Word n) (len : Nat) : Option Bytes :=
  match addr.block with
  | .buffer i => some (((s.buffers i).drop addr.off.toNat).take len)
  | _ => none

/-- The path of a slot, where the string is alive. -/
def path (s : Sys B n) (i : Fin n) : Option Bytes :=
  (s.reqs i).data.bind fun id => (s.strings id).map Prod.fst

/-- `free((char *)wreq->data)`, and the two stores behind it.  A string that is
not alive is a double free. -/
def freePath (s : Sys B n) (i : Fin n) : Option (Sys B n) :=
  let s' := s.setSlot i { s.reqs i with data := none, data2 := 0 }
  match (s.reqs i).data with
  | none => some s'
  | some id =>
    match s.strings id with
    | none => none
    | some _ => some { s' with strings := Function.update s.strings id none }

/-! ## The slab -/

/-- `READ_BUF_SIZE` of `processor.h`. -/
def READ_BUF_SIZE : Nat := 65536

/-- The stores of `processor_get_req` for the slot `i` that it takes. -/
def handOut (s : Sys B n) (i : Fin n) : Sys B n :=
  let preq := s.reqs i
  { s with
    reqs := Function.update s.reqs i { preq with
      inFlight := true
      req := { preq.req with
        flags := 0
        result := 0
        data2 := some i
        off := .num 0
        callback := none
        opcode := .nop
        addr := .num 0
        len := 0 } }
    reqsList := preq.next
    nrFreeReqs := s.nrFreeReqs - 1
    gens := Function.update s.gens i (s.gens i + 1)
    tickets := Function.update s.tickets i none }

/-- `processor_get_req`: the slot that it hands out. -/
def processorGetReq (s : Sys B n) : Except Halt (Fin n × Sys B n) :=
  match s.reqsList with
  | none => .error .exit
  | some i =>
    if (s.reqs i).inFlight then .error .assertion else .ok (i, s.handOut i)

/-- `processor_free_req` for the slot `i`, the one that `req->data2` points
to. -/
def processorFreeReq (s : Sys B n) (i : Fin n) : Sys B n :=
  { s with
    reqs := Function.update s.reqs i { s.reqs i with
      data := none
      inFlight := false
      next := s.reqsList }
    reqsList := some i
    nrFreeReqs := s.nrFreeReqs + 1
    frees := s.frees ++ [(i, (s.reqs i).inFlight)] }

/-! ## The tasks -/

/-- `log_error` about the file of a slot, which reads its path. -/
def logError (s : Sys B n) (i : Fin n) : Option (Sys B n) :=
  (s.path i).map fun _ => { s with errors := s.errors ++ [s.tickets i] }

/-- `processor_print_hash`, which reads the path of the slot. -/
def processorPrintHash (s : Sys B n) (i : Fin n) (hash : Bytes) :
    Option (Sys B n) :=
  (s.path i).map fun file =>
    { s with
      records := s.records ++
        [⟨s.tickets i, s.id, (s.reqs i).id, file, hash⟩] }

/-- `close`.  The return value is not used. -/
def close (s : Sys B n) (fd : Int) : Sys B n :=
  { s with fds := Function.update s.fds fd none }

/-- The end of `on_file_read`, behind the label `free`. -/
def releaseRead (s : Sys B n) (r : ReqPtr n) (i : Fin n) : Sys B n :=
  match s.freePath i with
  | none => s.halt .fault
  | some s => (s.processorFreeReq i).close (s.req r).fd

/-- `verifier_verify_hash` uses the connection, and a stream slot whose number
is the return value of `verifier_quic_get_slot`: an access outside the slots
unless the stream could be opened. -/
def verifierVerifyHash (s : Sys B n) (ans : Answers) : Bool :=
  s.conn && ans.openStream == 0

/-- `on_file_read`. -/
def onFileRead (s : Sys B n) (r : ReqPtr n) (ans : Answers) : Sys B n :=
  let req := s.req r
  match req.data2 with
  | none => s.halt .fault
  | some i =>
    if req.result < 0 then
      match s.logError i with
      | none => s.halt .fault
      | some s => s.releaseRead r i
    else
      match s.readMem req.addr req.result.toNat with
      | none => s.halt .fault
      | some bytes =>
        let hasher := B.update (s.reqs i).hasher bytes
        let s := s.setSlot i { s.reqs i with hasher := hasher }
        if req.result = 0 then
          match s.processorPrintHash i (B.finalize hasher) with
          | none => s.halt .fault
          | some s =>
            if s.verifierVerifyHash ans then s.releaseRead r i
            else s.halt .fault
        else
          let req := s.req r
          { s.setReq r { req with
              off := ⟨req.off.block,
                req.off.off + UInt64.ofNat req.result.toNat⟩ } with
            todo := [.submit r] }

/-- `on_file_open`. -/
def onFileOpen (s : Sys B n) (r : ReqPtr n) : Sys B n :=
  let req := s.req r
  match req.data2 with
  | none => s.halt .fault
  | some i =>
    if req.result < 0 then
      match (s.logError i).bind fun s => s.freePath i with
      | none => s.halt .fault
      | some s => s.processorFreeReq i
    else
      let s := s.setReq r { req with
        opcode := .read
        fd := req.result
        addr := .addr (.buffer (s.reqs i).buffer)
        len := UInt32.ofNat READ_BUF_SIZE
        off := .num 0
        callback := some .onFileRead }
      { s.setSlot i { s.reqs i with hasher := B.init } with
        todo := [.submit r] }

/-- `EBADF` and `EINVAL` of `errno.h`. -/
def EBADF : Int := 9

def EINVAL : Int := 22

/-- `AT_FDCWD` of `fcntl.h`. -/
def AT_FDCWD : Int := -100

/-- `O_RDONLY` of `fcntl.h`. -/
def O_RDONLY : UInt32 := 0

/-- `IORING_CQE_F_MORE`. -/
def IORING_CQE_F_MORE : UInt32 := 2

/-- A multishot poll goes on behind this completion. -/
def hasMore (flags : UInt32) : Bool :=
  flags &&& IORING_CQE_F_MORE != 0

/-- The label `arm` of `on_queue_event`. -/
def armPoll (s : Sys B n) (r : ReqPtr n) : List (Cmd n) :=
  if hasMore (s.req r).resultFlags then [] else [.submit .queuePoll]

/-- The second half of `on_queue_event`: a slot for the event, and the request
that opens its file.  The event is the zeroed one where `queue_consume_try`
answered `EAGAIN`. -/
def openEvent (s : Sys B n) (r : ReqPtr n) (event : Event)
    (ticket : Option Nat) (ans : Answers) : Sys B n :=
  match s.processorGetReq with
  | .error how => s.halt how
  | .ok (i, s) =>
    if ans.strdup then
      let preq := s.reqs i
      { s with
        reqs := Function.update s.reqs i { preq with
          data := some s.nextString
          data2 := event.pathLen
          req := { preq.req with
            opcode := .openat
            fd := AT_FDCWD
            addr := .addr (.path s.nextString)
            len := 0
            flags := O_RDONLY
            callback := some .onFileOpen } }
        strings := Function.update s.strings s.nextString
          (some (cString event.path, i))
        nextString := s.nextString + 1
        tickets := Function.update s.tickets i ticket
        todo := .submit (.slot i) :: s.armPoll r }
    else s.halt .exit

/-- `on_queue_event`. -/
def onQueueEvent (s : Sys B n) (r : ReqPtr n) (ans : Answers) : Sys B n :=
  let result := (s.req r).result
  if result < 0 then
    if result = -EBADF ∨ result = -EINVAL then s.halt .exit
    else { s with todo := [.submit .queuePoll] }
  else if ans.efdError then s.halt .exit
  else
    let c := queueConsumeTry ans.queue .zero ans.efd
    if c.ret = 0 then
      { s with dequeued := s.dequeued ++ [c.event] }.openEvent r c.event
        (some s.dequeued.length) ans
    else if c.ret = EAGAIN then
      -- the source does not return here, and goes on with the zeroed event
      s.openEvent r c.event none ans
    else { s with todo := s.armPoll r }

/-! ## The verifier's requests -/

/-- `NGTCP2_SECONDS`. -/
def NGTCP2_SECONDS : Int := 1000000000

/-- `IORING_TIMEOUT_UPDATE`. -/
def IORING_TIMEOUT_UPDATE : UInt32 := 2

/-- The second half of `verifier_flush_egress`, up to its call of
`ev_iou_req`. -/
def armTimer (s : Sys B n) : Sys B n :=
  if s.timerReq.opcode = .timeout then
    match s.processorGetReq with
    | .error how => s.halt how
    | .ok (i, s) =>
      let preq := s.reqs i
      { s.setSlot i { preq with
          req := { preq.req with
            opcode := .timeoutRemove
            flags := IORING_TIMEOUT_UPDATE
            addr := .addr .verifier
            off := .addr .expiry
            callback := some .onSocketTimeoutUpdate
            fd := 0
            len := 1 } } with
        todo := .submit (.slot i) :: s.todo }
  else
    { s with
      timerReq := { s.timerReq with
        opcode := .timeout
        addr := .addr .expiry
        off := .num 0
        flags := 0
        callback := some .onSocketTimeout
        fd := 0
        len := 1 }
      todo := .submit .timer :: s.todo }

/-- `verifier_flush_egress`, up to its call of `ev_iou_req`. -/
def verifierFlushEgress (s : Sys B n) (ans : Answers) : Sys B n :=
  if 2 ^ 63 ≤ ans.flush.toNat then s.halt .exit
  else
    let timeoutNsec : Int := ans.flush.toNat
    let timeoutSec := timeoutNsec / NGTCP2_SECONDS
    { s with
      expiry := (timeoutSec, timeoutNsec - timeoutSec * NGTCP2_SECONDS)
    }.armTimer

/-- `on_socket_timeout_update`. -/
def onSocketTimeoutUpdate (s : Sys B n) (r : ReqPtr n) : Sys B n :=
  match (s.req r).data2 with
  | none => s.halt .fault
  | some i => s.processorFreeReq i

/-- `on_socket_read`. -/
def onSocketRead (s : Sys B n) (r : ReqPtr n) : Sys B n :=
  if (s.req r).result < 0 then s.halt .exit
  else { s with todo := [.submit .recv, .flushEgress] }

/-- The size of `readbuf`. -/
def READBUF_SIZE : Nat := 65535

/-- `on_socket_connect`. -/
def onSocketConnect (s : Sys B n) (r : ReqPtr n) (ans : Answers) : Sys B n :=
  if (s.req r).result < 0 then s.halt .exit
  else if ans.quicInit then
    { s with
      conn := true
      recvReq := { s.recvReq with
        opcode := .read
        fd := s.sockFd
        addr := .addr .readbuf
        off := .num 0
        len := UInt32.ofNat READBUF_SIZE
        flags := 0
        callback := some .onSocketRead }
      todo := [.submit .recv, .flushEgress] }
  else s.halt .exit

/-- `sizeof(struct sockaddr_in)`. -/
def SOCKADDR_IN_SIZE : UInt64 := 16

/-- `on_socket_create`. -/
def onSocketCreate (s : Sys B n) (r : ReqPtr n) (ans : Answers) : Sys B n :=
  if (s.req r).result < 0 then s.halt .exit
  else if ans.getsockname then
    let sockFd := (s.req r).result
    { s with
      sockFd := sockFd
      connReq := { s.connReq with
        opcode := .connect
        fd := sockFd
        addr := .addr .remoteAddr
        off := .num SOCKADDR_IN_SIZE
        len := 0
        flags := 0
        callback := some .onSocketConnect }
      todo := [.submit .conn] }
  else s.halt .exit

/-! ## The event loop -/

/-- A call through `req->callback`. -/
def call (s : Sys B n) (r : ReqPtr n) (ans : Answers) : Sys B n :=
  match (s.req r).callback with
  | none => s.halt .fault
  | some .onQueueEvent => s.onQueueEvent r ans
  | some .onFileOpen => s.onFileOpen r
  | some .onFileRead => s.onFileRead r ans
  | some .onSocketCreate => s.onSocketCreate r ans
  | some .onSocketConnect => s.onSocketConnect r ans
  | some .onSocketRead => s.onSocketRead r
  | some .onSocketTimeout => s
  | some .onSocketTimeoutUpdate => s.onSocketTimeoutUpdate r

/-- The body of the loop of `ev_loop_run`: the result of the completion is
stored in its request, and the request calls back. -/
def dispatch (s : Sys B n) (ans : Answers) : Sys B n :=
  match s.cq.current with
  | none => s
  | some cqe =>
    let r := cqe.userData.req
    let s := { s with cq := s.cq.advance }
    (s.setReq r { s.req r with
      result := cqe.res
      resultFlags := cqe.flags }).call r ans

/-- How often a request was handed out. -/
def gen (s : Sys B n) : ReqPtr n → Nat
  | .slot i => s.gens i
  | _ => 0

/-- A call of `ev_iou_req`.  No caller looks at its return value. -/
def submit (s : Sys B n) (r : ReqPtr n) : Sys B n :=
  let c := s.sq.evIouReq ⟨r, s.gen r⟩ (s.req r).toIoReq
  { s with
    sq := c.2
    refused := if c.1 = EV_FULL then s.refused ++ [r] else s.refused }

/-- The running callback goes on to its next submission. -/
def proceed (s : Sys B n) (ans : Answers) : Sys B n :=
  match s.todo with
  | [] => s
  | .submit r :: rest => { s with todo := rest }.submit r
  | .flushEgress :: rest => { s with todo := rest }.verifierFlushEgress ans

/-! ## The start -/

/-- `EPOLLIN | EPOLLEXCLUSIVE`. -/
def POLL_EVENTS : UInt32 := 0x10000001

/-- `IORING_POLL_ADD_MULTI`. -/
def IORING_POLL_ADD_MULTI : UInt32 := 1

/-- `AF_INET`, `SOCK_DGRAM` and `IPPROTO_UDP`. -/
def AF_INET : Int := 2

def SOCK_DGRAM : UInt64 := 2

def IPPROTO_UDP : UInt32 := 17

/-- The slot `i` as `processor_setup` leaves it.  The link of the last slot is
null. -/
def setupSlot (B : Blake3) (i : Fin n) : Slot B.State n where
  req := { EvIoReq.zero with data2 := some i }
  hasher := B.zero
  next := linkAt n (i.val + 1)
  buffer := i
  data := none
  data2 := 0
  inFlight := false
  id := i.val

/-- `processor_prepare_poll_reqs`. -/
def processorPreparePollReqs (queueEfd : Int) : EvIoReq n :=
  { EvIoReq.zero with
    opcode := .pollAdd
    fd := queueEfd
    callback := some .onQueueEvent
    flags := POLL_EVENTS
    len := IORING_POLL_ADD_MULTI }

/-- `verifier_connect`, up to its call of `ev_iou_req`. -/
def verifierConnect : EvIoReq n :=
  { EvIoReq.zero with
    opcode := .socket
    fd := AF_INET
    off := .num SOCK_DGRAM
    len := IPPROTO_UDP
    flags := 0
    callback := some .onSocketCreate }

/-- What a processor finds when it starts: its number and its eventfd, the
memory of its buffers, the rings as the kernel sets them up, and the open file
descriptors. -/
structure Boot (n : Nat) where
  id : Nat
  queueEfd : Int
  buffers : Fin n → Bytes
  sqMask : RingMask
  sqCounter : UInt32
  sqes : Nat → Sqe (Word n) (Name n)
  cqMask : RingMask
  cqCounter : UInt32
  cqes : Nat → Cqe (Name n)
  fdOpen : Int → Bool

/-- `processor_run`, up to the first submission: `processor_setup` has prepared
the slab and the poll, and `verifier_init` the socket. -/
def processorRun (B : Blake3) [NeZero n] (boot : Boot n) : Sys B n where
  id := boot.id
  reqs := setupSlot B
  reqsList := some 0
  nrFreeReqs := n
  buffers := boot.buffers
  queuePollReq := processorPreparePollReqs boot.queueEfd
  connReq := verifierConnect
  recvReq := .zero
  timerReq := .zero
  expiry := (0, 0)
  sockFd := 0
  conn := false
  sq := ⟨boot.sqMask, boot.sqCounter, boot.sqCounter, boot.sqes⟩
  cq := .start boot.cqMask boot.cqCounter boot.cqes
  todo := [.submit .queuePoll, .submit .conn]
  strings := fun _ => none
  nextString := 0
  fds := fun fd => if boot.fdOpen fd then some .other else none
  ops := []
  halted := none
  gens := fun _ => 0
  tickets := fun _ => none
  dequeued := []
  opens := []
  records := []
  errors := []
  refused := []
  frees := []

end Sys

end Ride
