import CRpc.PendingOps
import CRpc.SessionRun

/-!
# An echo server on one event loop

Model of one worker thread of the echo servers (`main` in `coro_echo.cpp` and
`coro_echo_async.cpp`): `CoroTcpServer` with its `AcceptLoop`
(`coro_tcp_server.cpp`), the connections it accepts with their coroutines
(`EchoSession`), and the `IoContext` they run on (`EventLoop`).

When the loop dispatches a completion, the coroutine that waits for it runs
until control is back in the loop.  The operations it posts go to the submission
ring one after the other.  `Read`, `WriteOnce` and `AsyncSleep` dereference the
entry they get without a check, so a full ring is the end of the process
(`crashed`); `AcceptLoop` checks and ends.

A `CoroConnection` is shared by the frames of `handleConnection` and `writeLoop`
and destroyed when both have ended.  A sleeping `handleRequest` keeps only the
queue alive.
-/

namespace CRpc

open Lib Protocol

/-- The coroutines of a worker; connections are numbered in the order of accepts. -/
inductive Handle where
  | acceptLoop
  | session (cid : Nat) (role : Role)
deriving DecidableEq, Repr

/-- Where `AcceptLoop` is. -/
inductive AcceptState where
  | notStarted
  | running
  | onAccept
  | done
deriving DecidableEq, Repr

/-- A connection; `held` while one of the two loops keeps the `CoroConnection` alive. -/
structure Peer where
  session : Session
  held : Bool

/-- The allocator behind `new RequestData`: a non-null address not in use. -/
structure Heap where
  new : List Nat → Nat
  ne_zero : ∀ used, new used ≠ 0
  notMem : ∀ used, new used ∉ used

/-- What the kernel decides while the loop resumes a coroutine. -/
structure Input where
  /-- The bytes a completed read stored. -/
  bytes : List UInt8
  /-- The contents of the registered buffers handed to a new connection. -/
  readMem : List UInt8
  writeMem : List UInt8
  /-- Outcomes of `io_uring_register_files_update`. -/
  registerOk : Bool
  unregisterOk : Bool
  heap : Heap

/-- The registered buffers handed out have the registered size. -/
def Input.Sized (input : Input) (r : FixedResources) : Prop :=
  input.readMem.length = r.bufSize ∧ input.writeMem.length = r.bufSize

instance (input : Input) (r : FixedResources) : Decidable (input.Sized r) :=
  inferInstanceAs (Decidable (_ ∧ _))

/-- One worker thread. -/
structure Server where
  loop : EventLoop Handle Handle
  resources : FixedResources
  running : Bool
  listenFd : Int
  accept : AcceptState
  peers : List Peer
  crashed : Bool

namespace Server

/-- A new context and a new `CoroTcpServer`. -/
def init (entries : Nat) (listenFd : Int) (resources : FixedResources) : Server :=
  { loop := EventLoop.init entries fun _ => 0
    resources := resources, running := false, listenFd := listenFd
    accept := .notStarted, peers := [], crashed := false }

/-- `IoContext::Submit` by a coroutine, into its own result slot. -/
def submit (heap : Heap) (s : Server) (handle : Handle) (op : Sqe) : Server :=
  { s with loop := s.loop.submit op handle handle (heap.new s.loop.pool.allocated) }

/-- The entries of `Read`, `WriteOnce` and `AsyncSleep`, in order. -/
def submitAll (heap : Heap) : Server → List (Handle × Sqe) → Server
  | s, [] => s
  | s, (handle, op) :: rest =>
      if s.loop.HasSqe then submitAll heap (s.submit heap handle op) rest
      -- `io_uring_prep_*` writes through a null pointer
      else { s with crashed := true }

/-- The operations a session posted. -/
def posted (cid : Nat) (t : Session) : List (Handle × Sqe) :=
  t.posts.map fun op => (.session cid op.1, op.2)

/-- Both loops of a connection have ended. -/
def ended (t : Session) : Bool := t.reader = .done ∧ t.writer = .done

/-- `~CoroConnection`, when a coroutine that ends drops the last reference. -/
def destroy (updateOk : Bool) (r : FixedResources) (held : Bool) (t : Session) :
    FixedResources :=
  if held ∧ ended t then (t.conn.close r updateOk).2 else r

/-- The coroutines of a connection have run and left the session `t`. -/
def settle (input : Input) (s : Server) (cid : Nat) (held : Bool) (t : Session) : Server :=
  submitAll input.heap
    { s with
      resources := destroy input.unregisterOk s.resources held t
      peers := s.peers.set cid
        { session := { t with posts := [] }, held := held && !ended t } }
    (posted cid t)

/-- The head of the loop of `AcceptLoop`. -/
def acceptLoop (heap : Heap) (s : Server) : Server :=
  if s.running ∧ s.loop.HasSqe then
    { s.submit heap .acceptLoop (.accept s.listenFd) with accept := .onAccept }
  else { s with accept := .done }

/-- `make_shared<CoroConnection>` and the call of `handleConnection`. -/
def connect (input : Input) (s : Server) (clientFd : Int) : Server :=
  let made := CoroConnection.create s.resources clientFd input.registerOk
    input.readMem input.writeMem
  let t := Session.start made.1
  submitAll input.heap
    { s with
      resources := made.2
      peers := s.peers ++ [{ session := { t with posts := [] }, held := true }] }
    (posted s.peers.length t)

/-- `AcceptLoop` resumed with the result of its accept. -/
def acceptDone (input : Input) (s : Server) (clientFd : Int) : Server :=
  if clientFd < 0 then { s with accept := .done }
  else
    let t := ({ s with accept := .running } : Server).connect input clientFd
    if t.crashed then t else t.acceptLoop input.heap

/--
`handle.resume()` after the completion of `op`; the coroutine finds `res` in its
result slot.  There is no step for a result the kernel cannot report.
-/
def resume (flavor : Flavor) (codec : EchoCodec) (input : Input) (s : Server)
    (handle : Handle) (op : Sqe) (res : Int) : Option Server :=
  match handle with
  | .acceptLoop =>
      if input.Sized s.resources then some (s.acceptDone input res) else none
  | .session cid role =>
      match s.peers[cid]? with
      -- a handle of no coroutine
      | none => some { s with crashed := true }
      | some p =>
          match role with
          | .reader =>
              if Live.ReadResult op res input.bytes then
                some (s.settle input cid p.held
                  (Session.readDone flavor codec p.session res input.bytes))
              else none
          | .writer =>
              if res ≤ postedWrite op then
                some (s.settle input cid p.held
                  ((p.session.kernelWrites op res).writeDone res))
              else none
          | .handler id =>
              some (s.settle input cid p.held (Session.timerDone codec p.session id))

/-- The coroutine returns to the event loop. -/
def returns (s : Server) : Server :=
  if s.crashed then s
  else
    match s.loop.resumeReturns with
    | some l => { s with loop := l }
    | none => s

/-- The next completion of the batch, up to the return of the coroutine. -/
def fetch (flavor : Flavor) (codec : EchoCodec) (input : Input) (s : Server) :
    Option Server :=
  match s.loop.fetch with
  | none => none
  | some l =>
      match s.loop.next with
      | none => some { s with loop := l }
      | some (handle, cqe) =>
          (resume flavor codec input { s with loop := l } handle cqe.entry.op
            (l.slots handle)).map returns

/-- `CoroTcpServer::Start`, before `Run`. -/
def start (heap : Heap) (s : Server) : Option Server :=
  if s.loop.phase = .setup ∧ s.accept = .notStarted then
    some (({ s with running := true } : Server).acceptLoop heap)
  else none

/-- `CoroTcpServer::Stop`. -/
def stop (s : Server) : Server := { s with running := false, listenFd := -1 }

/-- What can happen to a worker. -/
inductive Event where
  | start (heap : Heap)
  | stop
  | fetch (input : Input)
  /-- A step of `Run`, of the kernel or of `IoContext::Stop`. -/
  | loop (e : EventLoop.Event Handle Handle)

/-- The events of the event loop in which no coroutine takes part. -/
def isOwn : EventLoop.Event Handle Handle → Bool
  | .submit _ _ _ _ => false
  | .fetch => false
  | .resumeReturns => false
  | _ => true

/-- A worker under an arbitrary kernel; nothing happens after a crash. -/
def machine (flavor : Flavor) (codec : EchoCodec) : Machine Server Event where
  step s e :=
    if s.crashed then none
    else
      match e with
      | .start heap => s.start heap
      | .stop => some s.stop
      | .fetch input => s.fetch flavor codec input
      | .loop e =>
          if isOwn e then (EventLoop.machine.step s.loop e).map fun l => { s with loop := l }
          else none

end Server

/-! ### Data for examples -/

/-- An allocator that counts. -/
def countingHeap : Heap where
  new used := used.foldr max 0 + 1
  ne_zero used := Nat.succ_ne_zero _
  notMem used := by
    have hle : ∀ x, x ∈ used → x ≤ used.foldr max 0 := by
      induction used with
      | nil => simp
      | cons y used ih =>
          intro x hx
          rw [List.foldr_cons]
          rcases List.mem_cons.mp hx with rfl | hin
          · exact Nat.le_max_left _ _
          · exact (ih x hin).trans (Nat.le_max_right _ _)
    intro hin
    have hlt := hle _ hin
    omega

/-- Four registered buffers of 24 bytes and the file table. -/
def smallResources : FixedResources := FixedResources.setup true 4 24 true true true

/-- A resumption in which a read stores `bytes`. -/
def smallInput (bytes : List UInt8) : Input :=
  { bytes := bytes, readMem := List.replicate 24 0, writeMem := List.replicate 24 0
    registerOk := true, unregisterOk := true, heap := countingHeap }

end CRpc
