import CRpc.Buffer
import CRpc.IoContext

/-!
# The coroutine connection

Model of `CoroConnection` (`coro_connection.h`, `coro_connection.cpp`) and of
the awaitables it returns (`coro.h`): construction, `Close`, `Read`, `WriteOnce`
and the loop of `Write`.

`Read` and `WriteOnce` give the connection with its prepared buffer and the
submission entry they post.  What the kernel then does is a separate step:
`readDone` for a completed read, `accepted` for the bytes a write took.
The coroutine `Write` is cut at its suspension point: `WriteFrame` is its frame
while it waits in `co_await WriteOnce(ptr, remaining)`.
-/

namespace CRpc

open Lib

/-- `CoroConnection`.  `bufSize` is `io_ctx_->BufSize()`. -/
structure CoroConnection where
  fd : Int
  closed : Bool
  fixedFileIdx : Option Nat
  readBufIdx : Option Nat
  writeBufIdx : Option Nat
  readBuffer : Buffer
  writeBuffer : Buffer
  bufSize : Nat
deriving DecidableEq, Repr

namespace CoroConnection

/--
The constructor.  `readMem` and `writeMem` are what the two registered buffers
contain when they are handed out.
-/
def create (r : FixedResources) (fd : Int) (updateOk : Bool)
    (readMem writeMem : List UInt8) : CoroConnection × FixedResources :=
  let file := r.registerFile fd updateOk
  let rd := file.2.allocateBuffer
  let wr := rd.2.allocateBuffer
  ({ fd := fd
     closed := false
     fixedFileIdx := file.1
     readBufIdx := rd.1
     writeBufIdx := wr.1
     readBuffer :=
       match rd.1 with
       | some _ => Buffer.fixed readMem r.bufSize
       | none => Buffer.dynamic 65536
     writeBuffer :=
       match wr.1 with
       | some _ => Buffer.fixed writeMem r.bufSize
       | none => Buffer.dynamic 8192
     bufSize := r.bufSize }, wr.2)

/-- `Close`; the descriptor and the two `Buffer` objects stay as they are. -/
def close (c : CoroConnection) (r : FixedResources) (updateOk : Bool) :
    CoroConnection × FixedResources :=
  if c.closed then (c, r)
  else
    let r := match c.fixedFileIdx with
      | some idx => r.unregisterFile idx updateOk
      | none => r
    let r := match c.readBufIdx with
      | some idx => r.freeBuffer idx
      | none => r
    let r := match c.writeBufIdx with
      | some idx => r.freeBuffer idx
      | none => r
    ({ c with
       closed := true
       fixedFileIdx := none
       readBufIdx := none
       writeBufIdx := none }, r)

/-- `target` in `Read` and `WriteOnce`. -/
def target (c : CoroConnection) : Target :=
  match c.fixedFileIdx with
  | some idx => .fixedFile idx
  | none => .fd c.fd

/-- The room `Read` asks for: one byte in fixed mode, 4096 in dynamic mode. -/
def readRequest (c : CoroConnection) : Nat :=
  if c.readBufIdx.isSome then 1 else 4096

/-- `Read`: make room (ignoring a refusal) and post a read of all of it. -/
def read (c : CoroConnection) : CoroConnection × Sqe :=
  let buf := (c.readBuffer.ensureWritable c.readRequest).2
  ({ c with readBuffer := buf },
    .read c.target c.readBufIdx buf.writeIdx (toU32 buf.writableBytes))

/-- The kernel has stored `bytes` at `WriteBegin()`; `ReadAwaitable::await_resume`. -/
def readDone (c : CoroConnection) (bytes : List UInt8) : CoroConnection :=
  { c with
    readBuffer := (c.readBuffer.storeAtWriteBegin bytes).hasWritten bytes.length }

/-- `WriteOnce`: stage the data (at most one buffer of it in fixed mode). -/
def writeOnce (c : CoroConnection) (data : List UInt8) : CoroConnection × Sqe :=
  match c.writeBufIdx with
  | some idx =>
      let toWrite := min data.length c.bufSize
      let buf :=
        (Buffer.fixed (overwrite c.writeBuffer.data 0 (data.take toWrite))
          c.bufSize).hasWritten toWrite
      ({ c with writeBuffer := buf },
        .write c.target (some idx) buf.readIdx (toU32 buf.readableBytes))
  | none =>
      let buf :=
        ((Buffer.dynamic data.length).storeAtWriteBegin data).hasWritten data.length
      ({ c with writeBuffer := buf },
        .write c.target none buf.readIdx (toU32 buf.readableBytes))

/-- The bytes of a posted write that the socket takes on a result `w`. -/
def accepted (c : CoroConnection) (sqe : Sqe) (w : Int) : List UInt8 :=
  match sqe with
  | .write _ _ addr len => slice c.writeBuffer.data addr (min len w.toNat)
  | _ => []

end CoroConnection

/-- Frame of `Write` while it is suspended in `co_await WriteOnce(ptr, remaining)`. -/
structure WriteFrame where
  data : List UInt8
  ptr : Nat
  remaining : Nat
deriving DecidableEq, Repr

/-- `Write` either waits for a posted operation or has returned its result. -/
inductive WriteOutcome where
  | suspended (conn : CoroConnection) (sqe : Sqe) (frame : WriteFrame)
  | returned (w : Int)

namespace CoroConnection

/-- The head of the loop of `Write`. -/
def writeHead (c : CoroConnection) (f : WriteFrame) : WriteOutcome :=
  if 0 < f.remaining then
    .suspended (c.writeOnce (slice f.data f.ptr f.remaining)).1
      (c.writeOnce (slice f.data f.ptr f.remaining)).2 f
  else
    .returned (toInt32 f.data.length)

/-- `Write(data, len)` up to its first suspension. -/
def write (c : CoroConnection) (data : List UInt8) : WriteOutcome :=
  c.writeHead { data := data, ptr := 0, remaining := data.length }

/-- `Write` resumed with the result `w` of its operation. -/
def writeResume (c : CoroConnection) (f : WriteFrame) (w : Int) : WriteOutcome :=
  if w ≤ 0 then .returned w
  else
    c.writeHead
      { f with ptr := f.ptr + w.toNat, remaining := f.remaining - w.toNat }

end CoroConnection

end CRpc
