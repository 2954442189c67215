import CRpc.IoContext
import CRpc.Lib.FreeList
import CRpc.Lib.Machine

/-!
# The event loop

Model of the request pool and the event loop of `IoContext` (`io_context.h`,
`io_context.cpp`): `AllocRequestData`, `FreeRequestData`, `Submit`, `Run` with
its drain phase, and `Stop`.

Coroutine handles `H` and result slots `S` are arbitrary, and so is what the
coroutines do: while a handle is being resumed (and before `Run`), `submit`
events happen in any number and order.  The kernel completes submitted entries
at any moment and in any order, each exactly once.

`Run` is cut at every point where the environment can act.  `Phase` names these
points; the flag `drain` tells the loop of the drain phase from the main loop,
and `count` is the counter of the batch.  Memory addresses are numbers, `0` is
`nullptr`, and the address `new` returns is part of the event.

History kept for the specification only: each call of `Submit` has a ticket, its
position in `submitted`; `dispatched` records each completion handled.
-/

namespace CRpc

open Lib

universe u v

/-- `RequestData`. -/
structure RequestData (H : Type u) (S : Type v) where
  handle : Option H
  result : Option S
  nextFree : Nat

/-- The heap nodes of type `RequestData` and `req_pool_head_`. -/
structure RequestPool (H : Type u) (S : Type v) where
  node : Nat → RequestData H S
  allocated : List Nat
  reqPoolHead : Nat

namespace RequestPool

variable {H : Type u} {S : Type v}

/-- `next_free` of a node. -/
def nextFree (p : RequestPool H S) (a : Nat) : Nat := (p.node a).nextFree

/-- `AllocRequestData`; `fresh` is what `new` returns if it is called. -/
def allocRequestData (p : RequestPool H S) (handle : H) (result : S)
    (fresh : Nat) : Nat × RequestPool H S :=
  if p.reqPoolHead ≠ 0 then
    (p.reqPoolHead,
      { p with
        node := Function.update p.node p.reqPoolHead
          { handle := some handle, result := some result, nextFree := 0 }
        reqPoolHead := p.nextFree p.reqPoolHead })
  else
    (fresh,
      { p with
        node := Function.update p.node fresh
          { handle := some handle, result := some result, nextFree := 0 }
        allocated := fresh :: p.allocated })

/-- `FreeRequestData`. -/
def freeRequestData (p : RequestPool H S) (req : Nat) : RequestPool H S :=
  { p with
    node := Function.update p.node req
      { handle := none, result := none, nextFree := p.reqPoolHead }
    reqPoolHead := req }

/-- What `new` may return: a non-null address not in use. -/
def FreshFor (p : RequestPool H S) (fresh : Nat) : Prop :=
  p.reqPoolHead = 0 → fresh ≠ 0 ∧ fresh ∉ p.allocated

instance (p : RequestPool H S) (fresh : Nat) : Decidable (p.FreshFor fresh) :=
  inferInstanceAs (Decidable (_ → _))

end RequestPool

/-- A submission entry in the rings; `ticket` is history, `none` for the cancel. -/
structure Entry where
  userData : Nat
  ticket : Option Nat
  op : Sqe

/-- A completion: the entry whose `user_data` it carries, and `cqe->res`. -/
structure Cqe where
  entry : Entry
  res : Int

/-- One handled completion: where the result went and who was resumed. -/
structure Dispatch (H : Type u) (S : Type v) where
  cqe : Cqe
  slot : S
  stored : Int
  handle : H

/-- Where the thread of the event loop is. -/
inductive Phase where
  | setup
  | test (drain : Bool)
  | waiting (drain : Bool)
  | batch (drain : Bool) (count : Nat)
  | resumed (drain : Bool) (count : Nat)
  | drainEntry
  | returned
  | fault
deriving DecidableEq, Repr

/-- Completions of the current batch that the loop has passed. -/
def Phase.seen : Phase → Nat
  | .batch _ count => count
  | .resumed _ count => count + 1
  | _ => 0

/-- Coroutines run before `Run` and while the loop resumes one. -/
def Phase.inCoroutine : Phase → Bool
  | .setup => true
  | .resumed _ _ => true
  | _ => false

/-- `-EINTR` or `-ETIME`, on which the main loop continues. -/
def Transient (ret : Int) : Prop := -ret = 4 ∨ -ret = 62

instance (ret : Int) : Decidable (Transient ret) :=
  inferInstanceAs (Decidable (_ ∨ _))

/-- `IoContext` with its rings, for coroutine handles `H` and result slots `S`. -/
structure EventLoop (H : Type u) (S : Type v) where
  entries : Nat
  pool : RequestPool H S
  inFlight : Int
  running : Bool
  phase : Phase
  /-- Entries taken with `io_uring_get_sqe` since the last submission. -/
  sq : List Entry
  /-- Entries submitted and not completed. -/
  kernel : List Entry
  /-- Completions between the head and the tail of the completion ring. -/
  cq : List Cqe
  slots : S → Int
  submitted : List (H × S)
  dispatched : List (Dispatch H S)

namespace EventLoop

variable {H : Type u} {S : Type v} [DecidableEq S]

/-- A new context; `res` is what the result slots contain. -/
def init (entries : Nat) (res : S → Int) : EventLoop H S :=
  { entries := entries
    pool :=
      { node := fun _ => { handle := none, result := none, nextFree := 0 }
        allocated := [], reqPoolHead := 0 }
    inFlight := 0, running := false, phase := .setup
    sq := [], kernel := [], cq := [], slots := res
    submitted := [], dispatched := [] }

/-- `io_uring_get_sqe` does not return null. -/
def HasSqe (l : EventLoop H S) : Prop := l.sq.length < l.entries

instance (l : EventLoop H S) : Decidable l.HasSqe := Nat.decLt _ _

/-- `io_uring_get_sqe`, the preparation of the entry, and `Submit`. -/
def submit (l : EventLoop H S) (op : Sqe) (handle : H) (result : S)
    (fresh : Nat) : EventLoop H S :=
  let req := l.pool.allocRequestData handle result fresh
  { l with
    pool := req.2
    sq := l.sq ++ [{ userData := req.1, ticket := some l.submitted.length, op := op }]
    inFlight := l.inFlight + 1
    submitted := l.submitted ++ [(handle, result)] }

/-- The kernel takes all prepared entries. -/
def flush (l : EventLoop H S) : EventLoop H S :=
  { l with sq := [], kernel := l.kernel ++ l.sq }

/-- The entry of the drain phase that cancels everything in flight. -/
def cancelEntry : Entry := { userData := 0, ticket := none, op := .cancelAll }

/-- `running_ = true` at the start of `Run`. -/
def run (l : EventLoop H S) : Option (EventLoop H S) :=
  match l.phase with
  | .setup => some { l with running := true, phase := .test false }
  | _ => none

/-- `Stop`. -/
def stop (l : EventLoop H S) : EventLoop H S := { l with running := false }

/-- The two loop conditions; a wait starts with the submission of all entries. -/
def test (l : EventLoop H S) : Option (EventLoop H S) :=
  match l.phase with
  | .test false =>
      if l.running then some { l.flush with phase := .waiting false }
      else some { l with phase := .drainEntry }
  | .test true =>
      if 0 < l.inFlight then some { l.flush with phase := .waiting true }
      else some { l with phase := .returned }
  | _ => none

/-- The wait returns `ret`. -/
def wake (l : EventLoop H S) (ret : Int) : Option (EventLoop H S) :=
  match l.phase with
  | .waiting false =>
      if ret < 0 then
        if Transient ret then some { l with phase := .test false }
        else some { l with phase := .drainEntry }
      else some { l with phase := .batch false 0 }
  | .waiting true =>
      if ret < 0 then some { l with phase := .returned }
      else some { l with phase := .batch true 0 }
  | _ => none

/-- The kernel completes the submitted entry number `i` with `res`. -/
def complete (l : EventLoop H S) (i : Nat) (res : Int) : Option (EventLoop H S) :=
  match l.kernel[i]? with
  | some e =>
      some { l with kernel := l.kernel.eraseIdx i, cq := l.cq ++ [{ entry := e, res := res }] }
  | none => none

/--
Body of `io_uring_for_each_cqe` up to `handle.resume()`: store the result, free
the node, count down.
-/
def dispatch (l : EventLoop H S) (drain : Bool) (count : Nat) (cqe : Cqe) :
    EventLoop H S :=
  let req := l.pool.node cqe.entry.userData
  match req.handle, req.result with
  | some handle, some result =>
      let slots := Function.update l.slots result cqe.res
      { l with
        slots := slots
        pool := l.pool.freeRequestData cqe.entry.userData
        inFlight := l.inFlight - 1
        phase := .resumed drain count
        dispatched := l.dispatched ++
          [{ cqe := cqe, slot := result, stored := slots result, handle := handle }] }
  -- a null `result` or an empty handle is dereferenced
  | _, _ => { l with phase := .fault }

/-- The next completion of the batch; one without `user_data` is only counted. -/
def fetch (l : EventLoop H S) : Option (EventLoop H S) :=
  match l.phase with
  | .batch drain count =>
      match l.cq[count]? with
      | some cqe =>
          if cqe.entry.userData ≠ 0 then some (l.dispatch drain count cqe)
          else some { l with phase := .batch drain (count + 1) }
      | none => none
  | _ => none

/-- `handle.resume()` returns to the loop. -/
def resumeReturns (l : EventLoop H S) : Option (EventLoop H S) :=
  match l.phase with
  | .resumed drain count => some { l with phase := .batch drain (count + 1) }
  | _ => none

/-- `io_uring_cq_advance` at the end of a batch. -/
def advance (l : EventLoop H S) : Option (EventLoop H S) :=
  match l.phase with
  | .batch drain count =>
      if l.cq.length ≤ count then
        some { l with cq := l.cq.drop count, phase := .test drain }
      else none
  | _ => none

/-- The beginning of the drain phase: cancel everything, if an entry is left. -/
def enterDrain (l : EventLoop H S) : Option (EventLoop H S) :=
  match l.phase with
  | .drainEntry =>
      if 0 < l.inFlight then
        if l.HasSqe then
          some { ({ l with sq := l.sq ++ [cancelEntry] } : EventLoop H S).flush with
            phase := .test true }
        else some { l with phase := .test true }
      else some { l with phase := .returned }
  | _ => none

/-- What can happen to a context. -/
inductive Event (H : Type u) (S : Type v) where
  | submit (op : Sqe) (handle : H) (result : S) (fresh : Nat)
  | run
  | stop
  | test
  | wake (ret : Int)
  | complete (i : Nat) (res : Int)
  | fetch
  | resumeReturns
  | advance
  | enterDrain

/-- The context under arbitrary coroutines. -/
def machine : Machine (EventLoop H S) (Event H S) where
  step l
    | .submit op handle result fresh =>
        if l.phase.inCoroutine ∧ l.HasSqe ∧ l.pool.FreshFor fresh then
          some (l.submit op handle result fresh)
        else none
    | .run => l.run
    | .stop => some l.stop
    | .test => l.test
    | .wake ret => l.wake ret
    | .complete i res => l.complete i res
    | .fetch => l.fetch
    | .resumeReturns => l.resumeReturns
    | .advance => l.advance
    | .enterDrain => l.enterDrain

/-- Entries whose completion the loop has not handled. -/
def pending (l : EventLoop H S) : List Entry :=
  l.sq ++ l.kernel ++ (l.cq.drop l.phase.seen).map Cqe.entry

/-- Nodes owned by a list of entries; the cancel owns none. -/
def nodes (es : List Entry) : List Nat :=
  (es.map Entry.userData).filter (fun a => a ≠ 0)

end EventLoop

end CRpc
