import CRpc.Framing
import CRpc.ResponseQueue
import CRpc.StagedWrite

/-!
# One connection of an echo server

Model of `handleRequest`, `writeLoop` and `handleConnection` of the synchronous
server (`coro_echo.cpp`) and of the asynchronous one (`coro_echo_async.cpp`).
The two differ only in `handleRequest`, which sleeps before it answers in the
asynchronous server.

A `Session` is everything the coroutines of one connection share.  Each coroutine
is cut at its suspension points.  A function of the model runs from the
resumption of one coroutine until control is back in the event loop; a coroutine
that a queue operation resumes on the way runs inside it, as in the source.  The
operations posted meanwhile are collected in `posts`, in order.

Parsing and serialising of the protobuf messages are parameters.  The last
fields of a session are history for the specification.
-/

namespace CRpc

open Lib Protocol

/-- The two echo servers. -/
inductive Flavor where
  | sync
  | async
deriving DecidableEq, Repr

/--
The protobuf functions of the handlers: the `message` of a payload that parses
as an `EchoRequest`, and the bytes of an `EchoResponse` with a given `message`.
-/
structure EchoCodec where
  parseEchoRequest : List UInt8 → Option (List UInt8)
  serializeEchoResponse : List UInt8 → List UInt8

/-- The text `"Echo: "`. -/
def echoText : List UInt8 := [0x45, 0x63, 0x68, 0x6f, 0x3a, 0x20]

/-- The serialised reply to a request. -/
def EchoCodec.reply (codec : EchoCodec) (message : List UInt8) : List UInt8 :=
  codec.serializeEchoResponse (echoText ++ message)

/-- The encoded response that `handleRequest` pushes. -/
def EchoCodec.response (codec : EchoCodec) (header : RpcHeader)
    (message : List UInt8) : List UInt8 :=
  encoded ({ header with msgType := 1 }, codec.reply message)

theorem EchoCodec.length_response (codec : EchoCodec) (header : RpcHeader)
    (message : List UInt8) :
    (codec.response header message).length =
      headerSize + (codec.reply message).length := by
  rw [EchoCodec.response, encoded_eq_frame, length_frame]

theorem EchoCodec.response_ne_nil (codec : EchoCodec) (header : RpcHeader)
    (message : List UInt8) : codec.response header message ≠ [] := by
  rw [← List.length_pos_iff, codec.length_response, headerSize]
  omega

/-- The header and the text of a message that is a request and parses. -/
def EchoCodec.accepts (codec : EchoCodec) (m : Message) :
    Option (RpcHeader × List UInt8) :=
  if m.1.msgType = 0 then (codec.parseEchoRequest m.2).map fun message => (m.1, message)
  else none

/-- The coroutines of one connection; a handler is known by its number. -/
inductive Role where
  | reader
  | writer
  | handler (id : Nat)
deriving DecidableEq, Repr

/-- Where `handleConnection` is. -/
inductive ReaderState where
  | running
  | onRead
  | done
deriving DecidableEq, Repr

/-- Where `writeLoop` is. -/
inductive WriterState where
  | running
  | onPop
  | onWrite (frame : WriteFrame)
  | done
deriving DecidableEq, Repr

/-- A `handleRequest` suspended in `AsyncSleep`. -/
structure Handler where
  id : Nat
  header : RpcHeader
  message : List UInt8
deriving DecidableEq, Repr

/-- The state shared by the coroutines of one connection. -/
structure Session where
  conn : CoroConnection
  queue : ResponseQueue (List UInt8) Role
  reader : ReaderState
  writer : WriterState
  handlers : List Handler
  nextHandler : Nat
  /-- Operations posted since the event loop resumed a coroutine. -/
  posts : List (Role × Sqe)
  /-- A coroutine was resumed that is not suspended there. -/
  fault : Bool
  /-- History: messages that `ParseMessage` delivered. -/
  delivered : List Message
  /-- History: items of the `Push` calls. -/
  pushed : List (List UInt8)
  /-- History: items that `Pop` returned. -/
  popped : List (List UInt8)
  /-- History: bytes the socket accepted. -/
  wire : List UInt8

namespace Session

/-- A posted operation. -/
def post (s : Session) (role : Role) (sqe : Sqe) : Session :=
  { s with posts := s.posts ++ [(role, sqe)] }

/-! ### `writeLoop` -/

/-- The rest of a round after `Write`; `again` goes back to the head of the loop. -/
def afterWrite (again : Session → Session) (s : Session) : WriteOutcome → Session
  | .suspended conn sqe frame =>
      ({ s with conn := conn, writer := .onWrite frame } : Session).post .writer sqe
  | .returned w => if w ≤ 0 then { s with writer := .done } else again s

/-- The rest of a round from `await_resume` of `Pop`. -/
def afterPop (again : Session → Session) (s : Session) : Session :=
  match s.queue.awaitResume with
  | (none, q) => { s with queue := q, writer := .done }
  | (some item, q) =>
      afterWrite again { s with queue := q, popped := s.popped ++ [item] }
        (s.conn.write item)

/-- The loop with a bound on its rounds; each takes an item. -/
def writeLoopFuel : Nat → Session → Session
  | 0, s => s
  | k + 1, s =>
      if s.queue.awaitReady then afterPop (writeLoopFuel k) s
      else { s with queue := s.queue.awaitSuspend .writer, writer := .onPop }

/-- The head of the loop of `writeLoop`. -/
def writeLoop (s : Session) : Session :=
  writeLoopFuel (s.queue.items.length + 1) s

/-- A queue operation resumes the coroutine that waits in `Pop`. -/
def resumeWaiter (s : Session) : Option Role → Session
  | none => s
  | some role =>
      if role = .writer ∧ s.writer = .onPop then
        afterPop writeLoop { s with writer := .running }
      else { s with fault := true }

/-- `writeLoop` resumed by the completion of its write with result `w`. -/
def writeDone (s : Session) (w : Int) : Session :=
  match s.writer with
  | .onWrite frame =>
      afterWrite writeLoop { s with writer := .running } (s.conn.writeResume frame w)
  | _ => { s with fault := true }

/-- The socket takes bytes of a posted write. -/
def kernelWrites (s : Session) (sqe : Sqe) (w : Int) : Session :=
  { s with wire := s.wire ++ s.conn.accepted sqe w }

/-! ### `handleRequest` -/

/-- `queue->Push(data)`. -/
def push (s : Session) (data : List UInt8) : Session :=
  ({ s with queue := (s.queue.push data).1, pushed := s.pushed ++ [data] } :
    Session).resumeWaiter (s.queue.push data).2

/-- `queue->Close()`. -/
def close (s : Session) : Session :=
  ({ s with queue := s.queue.close.1 } : Session).resumeWaiter s.queue.close.2

/-- `co_await AsyncSleep(ctx, 10)` in a new `handleRequest`. -/
def sleep (s : Session) (header : RpcHeader) (message : List UInt8) : Session :=
  ({ s with
      handlers := s.handlers ++
        [{ id := s.nextHandler, header := header, message := message }]
      nextHandler := s.nextHandler + 1 } : Session).post
    (.handler s.nextHandler) (.timeout 0 10000000)

/-- `handleRequest` up to its end, or to its sleep. -/
def handleRequest (flavor : Flavor) (codec : EchoCodec) (s : Session)
    (header : RpcHeader) (payload : List UInt8) : Session :=
  match codec.parseEchoRequest payload with
  | none => s
  | some message =>
      match flavor with
      | .sync => s.push (codec.response header message)
      | .async => s.sleep header message

/-- A sleeping `handleRequest` resumed; the result of the timer is ignored. -/
def timerDone (codec : EchoCodec) (s : Session) (id : Nat) : Session :=
  match s.handlers.find? (fun h => h.id = id) with
  | some h =>
      ({ s with handlers := s.handlers.eraseP (fun h => h.id = id) } : Session).push
        (codec.response h.header h.message)
  | none => { s with fault := true }

/-! ### `handleConnection` -/

/-- `ParseMessage` delivered a message. -/
def note (s : Session) (m : Message) : Session :=
  { s with delivered := s.delivered ++ [m] }

/-- One message of the inner loop: only requests are handled. -/
def onMessage (flavor : Flavor) (codec : EchoCodec) (s : Session)
    (header : RpcHeader) (payload : List UInt8) : Session :=
  if header.msgType = 0 then
    handleRequest flavor codec (s.note (header, payload)) header payload
  else s.note (header, payload)

/-- `co_await conn->Read()` up to the suspension. -/
def startRead (s : Session) : Session :=
  ({ s with conn := s.conn.read.1, reader := .onRead } : Session).post .reader
    s.conn.read.2

/-- The inner loop on the bytes of a completed read. -/
def parseMessages (flavor : Flavor) (codec : EchoCodec) (s : Session) : Session :=
  let r := parseLoop (onMessage flavor codec) s.conn.readBuffer s
  { r.2 with conn := { r.2.conn with readBuffer := r.1 } }

/-- The kernel stored `bytes` and the reader was resumed. -/
def received (s : Session) (bytes : List UInt8) : Session :=
  { s with reader := .running, conn := s.conn.readDone bytes }

/-- The read loop ends and closes the queue. -/
def endRead (s : Session) : Session :=
  { ({ s with reader := .running } : Session).close with reader := .done }

/-- `handleConnection` resumed by the completion of its read. -/
def readDone (flavor : Flavor) (codec : EchoCodec) (s : Session) (res : Int)
    (bytes : List UInt8) : Session :=
  if res ≤ 0 then s.endRead
  else (parseMessages flavor codec (s.received bytes)).startRead

/-- `handleConnection` called with a new connection, up to its first `Read`. -/
def start (conn : CoroConnection) : Session :=
  (writeLoop
    { conn := conn, queue := .empty, reader := .running, writer := .running
      handlers := [], nextHandler := 0, posts := [], fault := false
      delivered := [], pushed := [], popped := [], wire := [] }).startRead

/-! ### What the write loop does when it runs -/

/-- The state after `Write(item)` is called on an item just popped. -/
def beginWrite (s : Session) (item : List UInt8) : Session :=
  afterWrite (fun s => s) s (s.conn.write item)

/-- The write loop posts an operation for the rest of an item and waits. -/
def waitWrite (s : Session) (f : WriteFrame) : Session :=
  ({ s with conn := (s.conn.writeOnce f.rest).1, writer := .onWrite f } : Session).post
    .writer (s.conn.writeOnce f.rest).2

/-- `Write` never returns a positive value without waiting. -/
theorem afterWrite_write (again : Session → Session) (s : Session)
    (item : List UInt8) : afterWrite again s (s.conn.write item) = s.beginWrite item := by
  by_cases hitem : item = []
  · subst hitem
    rfl
  · have hwrite : s.conn.write item = _ :=
      s.conn.writeHead_of_ok (WriteFrame.ok_start hitem)
    rw [beginWrite, hwrite]
    rfl

theorem beginWrite_nil (s : Session) :
    s.beginWrite [] = { s with writer := .done } := rfl

theorem beginWrite_cons (s : Session) {item : List UInt8} (hitem : item ≠ []) :
    s.beginWrite item =
      s.waitWrite (WriteFrame.start item) := by
  rw [beginWrite]
  exact congrArg (afterWrite _ s) (s.conn.writeHead_of_ok (WriteFrame.ok_start hitem))

theorem afterPop_nil (again : Session → Session) {s : Session}
    (hitems : s.queue.items = []) : afterPop again s = { s with writer := .done } := by
  rw [afterPop, ResponseQueue.awaitResume, hitems]

theorem afterPop_cons (again : Session → Session) {s : Session}
    {item : List UInt8} {rest : List (List UInt8)} (hitems : s.queue.items = item :: rest) :
    afterPop again s =
      ({ s with
          queue := { s.queue with items := rest }
          popped := s.popped ++ [item] } : Session).beginWrite item := by
  rw [afterPop, ResponseQueue.awaitResume, hitems]
  exact afterWrite_write again _ item

theorem writeLoop_ready {s : Session} (hready : s.queue.awaitReady = true) :
    s.writeLoop = afterPop (fun s => s) s := by
  rw [writeLoop, writeLoopFuel, if_pos hready]
  cases hitems : s.queue.items with
  | nil => rw [afterPop_nil _ hitems, afterPop_nil _ hitems]
  | cons item rest => rw [afterPop_cons _ hitems, afterPop_cons _ hitems]

theorem writeLoop_suspends {s : Session} (hready : s.queue.awaitReady = false) :
    s.writeLoop =
      { s with queue := s.queue.awaitSuspend .writer, writer := .onPop } := by
  rw [writeLoop, writeLoopFuel, if_neg (by simp [hready])]

theorem writeLoop_closed {s : Session} (hitems : s.queue.items = [])
    (hclosed : s.queue.closed = true) : s.writeLoop = { s with writer := .done } := by
  rw [writeLoop_ready (by simp [ResponseQueue.awaitReady, hclosed]), afterPop_nil _ hitems]

theorem writeLoop_cons {s : Session} {item : List UInt8} {rest : List (List UInt8)}
    (hitems : s.queue.items = item :: rest) (hitem : item ≠ []) :
    s.writeLoop =
      ({ s with
          queue := { s.queue with items := rest }
          popped := s.popped ++ [item] } : Session).waitWrite (WriteFrame.start item) := by
  rw [writeLoop_ready (by simp [ResponseQueue.awaitReady, hitems]), afterPop_cons _ hitems,
    beginWrite_cons _ hitem]

/-- A new session: both loops are suspended and one read is posted. -/
theorem start_eq (conn : CoroConnection) :
    start conn =
      ({ conn := conn, queue := { items := [], waiter := some .writer, closed := false }
         reader := .running, writer := .onPop, handlers := [], nextHandler := 0
         posts := [], fault := false, delivered := [], pushed := [], popped := []
         wire := [] } : Session).startRead := by
  rw [start, writeLoop_suspends rfl]
  rfl

/-! ### What the completion of a write does -/

/-- The write loop is resumed after the socket took bytes. -/
def sent (s : Session) (sqe : Sqe) (w : Int) : Session :=
  { s with writer := .running, wire := s.wire ++ s.conn.accepted sqe w }

section WriteDone

variable {s : Session} {f : WriteFrame} (sqe : Sqe) {w : Int}

theorem writeDone_failed (hwriter : s.writer = .onWrite f) (hneg : w ≤ 0) :
    (s.kernelWrites sqe w).writeDone w = { s.sent sqe w with writer := .done } := by
  rw [writeDone, kernelWrites, hwriter]
  simp only [CoroConnection.writeResume_failed s.conn f hneg, afterWrite, if_pos hneg]
  rfl

/-- The item is sent; its length as an `int` decides whether the loop goes on. -/
theorem writeDone_last (hwriter : s.writer = .onWrite f) (hpos : 0 < w)
    (hlast : f.remaining ≤ w.toNat) :
    (s.kernelWrites sqe w).writeDone w =
      if toInt32 f.data.length ≤ 0 then { s.sent sqe w with writer := .done }
      else (s.sent sqe w).writeLoop := by
  rw [writeDone, kernelWrites, hwriter]
  simp only [CoroConnection.writeResume_last s.conn hpos hlast, afterWrite]
  rfl

theorem writeDone_more (hwriter : s.writer = .onWrite f) (hf : f.Ok) (hpos : 0 < w)
    (hmore : w.toNat < f.remaining) :
    (s.kernelWrites sqe w).writeDone w =
      (s.sent sqe w).waitWrite (f.advance w.toNat) := by
  rw [writeDone, kernelWrites, hwriter]
  simp only [CoroConnection.writeResume_more s.conn f hpos,
    s.conn.writeHead_of_ok (hf.advance hmore), afterWrite]
  rfl

end WriteDone

/-! ### What the queue operations do -/

theorem push_busy {s : Session} (h : s.queue.waiter = none) (data : List UInt8) :
    s.push data =
      { s with
        queue := { s.queue with items := s.queue.items ++ [data] }
        pushed := s.pushed ++ [data] } := by
  rw [push, ResponseQueue.push_fst, ResponseQueue.push_snd, h]
  simp only [resumeWaiter, ← h]

/-- A push that finds the write loop waiting starts to send its item at once. -/
theorem push_waiting {s : Session} (h : s.queue.waiter = some .writer)
    (hpop : s.writer = .onPop) (hitems : s.queue.items = []) {data : List UInt8}
    (hdata : data ≠ []) :
    s.push data =
      ({ s with
          writer := .running
          queue := { s.queue with waiter := none }
          pushed := s.pushed ++ [data]
          popped := s.popped ++ [data] } : Session).waitWrite (WriteFrame.start data) := by
  rw [push, ResponseQueue.push_fst, ResponseQueue.push_snd, h, resumeWaiter,
    if_pos ⟨rfl, hpop⟩]
  have hone : s.queue.items ++ [data] = data :: [] := by rw [hitems, List.nil_append]
  rw [afterPop_cons writeLoop hone, beginWrite_cons _ hdata]
  simp only [hitems]

theorem close_busy {s : Session} (h : s.queue.waiter = none) :
    s.close = { s with queue := { s.queue with closed := true } } := by
  rw [close, ResponseQueue.close_fst, ResponseQueue.close_snd, h]
  simp only [resumeWaiter, ← h]

/-- A close that finds the write loop waiting ends it. -/
theorem close_waiting {s : Session} (h : s.queue.waiter = some .writer)
    (hpop : s.writer = .onPop) (hitems : s.queue.items = []) :
    s.close =
      { s with
        writer := .done
        queue := { s.queue with waiter := none, closed := true } } := by
  rw [close, ResponseQueue.close_fst, ResponseQueue.close_snd, h, resumeWaiter,
    if_pos ⟨rfl, hpop⟩]
  exact afterPop_nil writeLoop hitems

/-! ### What the inner loop does -/

/-- One message of the inner loop, by whether it is an accepted request. -/
theorem onMessage_eq (flavor : Flavor) (codec : EchoCodec) (s : Session) (m : Message) :
    onMessage flavor codec s m.1 m.2 =
      match codec.accepts m with
      | none => s.note m
      | some r =>
          match flavor with
          | .sync => (s.note m).push (codec.response r.1 r.2)
          | .async => (s.note m).sleep r.1 r.2 := by
  rw [onMessage, EchoCodec.accepts]
  split
  · rw [handleRequest]
    cases codec.parseEchoRequest m.2 <;> rfl
  · rfl

/-- What the inner loop keeps, from the three things it does with a message. -/
theorem handleAll_induction {flavor : Flavor} {codec : EchoCodec} {P : Session → Prop}
    (ignore : ∀ s m, codec.accepts m = none → P s → P (s.note m))
    (answer : flavor = .sync → ∀ s m r, codec.accepts m = some r → P s →
      P ((s.note m).push (codec.response r.1 r.2)))
    (delay : flavor = .async → ∀ s m r, codec.accepts m = some r → P s →
      P ((s.note m).sleep r.1 r.2)) (ms : List Message) :
    ∀ s, P s → P (handleAll (onMessage flavor codec) s ms) := by
  induction ms with
  | nil => exact fun s h => h
  | cons m ms ih =>
      intro s h
      refine ih _ ?_
      change P (onMessage flavor codec s m.1 m.2)
      rw [onMessage_eq]
      cases haccepts : codec.accepts m with
      | none => exact ignore s m haccepts h
      | some r =>
          cases flavor with
          | sync => exact answer rfl s m r haccepts h
          | async => exact delay rfl s m r haccepts h

/-- The handler goes back to `Read` with what the inner loop left unread. -/
def readAgain (s : Session) (buf : Buffer) : Session :=
  ({ s with conn := { s.conn with readBuffer := buf } } : Session).startRead

section ReadAgain

variable (s : Session) (buf : Buffer)

@[simp] theorem readAgain_writer : (s.readAgain buf).writer = s.writer := rfl

@[simp] theorem readAgain_queue : (s.readAgain buf).queue = s.queue := rfl

@[simp] theorem readAgain_handlers : (s.readAgain buf).handlers = s.handlers := rfl

@[simp] theorem readAgain_delivered : (s.readAgain buf).delivered = s.delivered := rfl

@[simp] theorem readAgain_pushed : (s.readAgain buf).pushed = s.pushed := rfl

@[simp] theorem readAgain_popped : (s.readAgain buf).popped = s.popped := rfl

@[simp] theorem readAgain_wire : (s.readAgain buf).wire = s.wire := rfl

@[simp] theorem readAgain_writeBuffer :
    (s.readAgain buf).conn.writeBuffer = s.conn.writeBuffer := rfl

end ReadAgain

theorem getSpan_readAgain {s : Session} {buf : Buffer} (hv : buf.Valid)
    (hmode : buf.isFixed = s.conn.readBufIdx.isSome) :
    (s.readAgain buf).conn.readBuffer.getSpan = buf.getSpan :=
  CoroConnection.getSpan_read (c := { s.conn with readBuffer := buf }) ⟨hv, hmode⟩

/-- A completed read is handled by one burst of the decoder. -/
theorem readDone_data (flavor : Flavor) (codec : EchoCodec) {s : Session} {res : Int}
    (hres : 0 < res) {bytes : List UInt8} (hv : s.conn.readBuffer.Valid)
    (hroom : bytes.length ≤ s.conn.readBuffer.writableBytes) :
    ∃ buf, buf.Valid ∧ buf.isFixed = s.conn.readBuffer.isFixed ∧
      buf.getSpan = (frames.drain (s.conn.readBuffer.getSpan ++ bytes)).2 ∧
      readDone flavor codec s res bytes =
        (handleAll (onMessage flavor codec) (s.received bytes)
          (frames.drain (s.conn.readBuffer.getSpan ++ bytes)).1).readAgain buf := by
  have hv' := Buffer.valid_append hv bytes hroom
  have hspan := Buffer.getSpan_append hv bytes
  obtain ⟨n, hn, hrest, hloop⟩ :=
    parseLoop_spec (onMessage flavor codec) hv' (s.received bytes)
  rw [hspan] at hrest hloop
  refine ⟨_, Buffer.valid_hasRead hv' hn, rfl, hrest, ?_⟩
  have hbuf : (s.received bytes).conn.readBuffer =
      (s.conn.readBuffer.storeAtWriteBegin bytes).hasWritten bytes.length := rfl
  rw [readDone, if_neg (not_le.mpr hres), parseMessages, hbuf]
  simp only [hloop]
  rfl

end Session

end CRpc
