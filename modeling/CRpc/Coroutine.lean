import CRpc.Lib.Machine

/-!
# Coroutines

Model of `Task` and `TaskT` (`coro.h`) and of the coroutine machinery under them:
frames, promises, continuations, and the stack of coroutines that are running.

A coroutine is the tree of what it does from now on (`Body`): it suspends on
operations, calls other coroutines, awaits them and returns.  Branches depend on
what it gets, and every path is finite.  A called coroutine starts at once
(`suspend_never`), so it runs on top of its caller until it suspends or ends.

Operations complete at any moment and in any order.  A completion resumes the
coroutine that waits for it on top of whatever is running: nothing when the event
loop dispatches it, the coroutine that calls `Push` or `Close` when it is a `Pop`.

`TaskT` objects are variables of the coroutine that made the call.  They die in the
reverse order of their construction, at the end of their scope or at `co_return`.
The frame of an unfinished coroutine must not be destroyed, since its operation is
still in flight; the model stops there with `fault`.

History kept for the specification only: `suspensions` are the awaits that
suspended, `returned` the values of `co_return`, and `handovers` the resumptions of
continuations with the value obtained.
-/

namespace CRpc

open Lib

universe u v

/-- What a coroutine does from now on; `R` are results of operations. -/
inductive Body (R : Type u) (V : Type v) where
  /-- `co_return v` -/
  | coReturn (v : V)
  /-- `co_await` of an operation that suspends -/
  | coAwaitOp (k : R → Body R V)
  /-- `TaskT<T> t = callee(...)` -/
  | call (callee rest : Body R V)
  /-- `co_await t`, for the `TaskT` number `i` in scope, the innermost being `0` -/
  | coAwait (i : Nat) (k : V → Body R V)
  /-- The scope of the innermost `TaskT` ends. -/
  | endScope (rest : Body R V)

namespace Body

variable {R : Type u} {V : Type v}

/-- `T v = co_await callee(...)`; the temporary dies at the end of the expression. -/
def coAwaitCall (callee : Body R V) (k : V → Body R V) : Body R V :=
  .call callee (.coAwait 0 fun v => .endScope (k v))

/--
Each `TaskT` is awaited, by the coroutine that started it, before its scope ends; the
flags tell which of those in scope have been awaited.
-/
def AwaitsAll : Body R V → List Bool → Prop
  | .coReturn _, fs => ∀ f, f ∈ fs → f = true
  | .coAwaitOp k, fs => ∀ res, (k res).AwaitsAll fs
  | .call callee rest, fs => callee.AwaitsAll [] ∧ rest.AwaitsAll (false :: fs)
  | .coAwait i k, fs => i < fs.length ∧ ∀ v, (k v).AwaitsAll (fs.set i true)
  | .endScope _, [] => False
  | .endScope rest, f :: fs => f = true ∧ rest.AwaitsAll fs

end Body

/-- A coroutine that awaits every `TaskT` it starts, and so do those it calls. -/
structure Program (R : Type u) (V : Type v) where
  body : Body R V
  awaitsAll : body.AwaitsAll []

/-- `Task` frees its frame at the end; a `TaskT` stays at its final suspension point. -/
inductive Kind where
  | task
  | taskT
deriving DecidableEq, Repr

/-- Where a coroutine is. -/
inductive Status (R : Type u) (V : Type v) where
  | running (body : Body R V)
  | onOp (k : R → Body R V)
  | onTask (task : Nat) (k : V → Body R V)
  | final
  | destroyed

/-- A coroutine frame; `value` and `continuation` are those of the `promise_type`. -/
structure Frame (R : Type u) (V : Type v) where
  kind : Kind
  status : Status R V
  value : V
  continuation : Option Nat
  /-- The `TaskT` objects in scope, the innermost first. -/
  tasks : List Nat

/-- `FinalAwaiter` resumed `awaiter`, whose `co_await` yielded `value`. -/
structure Handover (V : Type v) where
  task : Nat
  awaiter : Nat
  value : V
deriving DecidableEq

/-- The coroutine frames of a thread; a `coroutine_handle` is the number of a frame. -/
structure Coroutines (R : Type u) (V : Type v) where
  frame : Nat → Frame R V
  count : Nat
  /-- The running coroutines, the innermost first. -/
  stack : List Nat
  fault : Bool
  suspensions : List (Nat × Nat)
  returned : List (Nat × V)
  handovers : List (Handover V)

namespace Coroutines

variable {R : Type u} {V : Type v} [Inhabited V]

def init : Coroutines R V :=
  { frame := fun _ =>
      { kind := .task, status := .destroyed, value := default, continuation := none
        tasks := [] }
    count := 0, stack := [], fault := false
    suspensions := [], returned := [], handovers := [] }

def setStatus (s : Coroutines R V) (c : Nat) (status : Status R V) : Coroutines R V :=
  { s with frame := Function.update s.frame c { s.frame c with status := status } }

def setTasks (s : Coroutines R V) (c : Nat) (tasks : List Nat) : Coroutines R V :=
  { s with frame := Function.update s.frame c { s.frame c with tasks := tasks } }

/-- The call of a coroutine: a new frame, whose body starts at once. -/
def create (s : Coroutines R V) (kind : Kind) (body : Body R V) : Coroutines R V :=
  { s with
    frame := Function.update s.frame s.count
      { kind := kind, status := .running body, value := default, continuation := none
        tasks := [] }
    count := s.count + 1
    stack := s.count :: s.stack }

/-- `handle.done()` -/
def done (s : Coroutines R V) (t : Nat) : Bool :=
  match (s.frame t).status with
  | .final => true
  | _ => false

/-! ### `TaskT` -/

/-- `TaskT::await_ready` -/
def awaitReady (s : Coroutines R V) (t : Nat) : Bool := s.done t

/-- `TaskT::await_suspend`, called by the coroutine `h`. -/
def awaitSuspend (s : Coroutines R V) (t h : Nat) : Coroutines R V :=
  { s with frame := Function.update s.frame t { s.frame t with continuation := some h } }

/-- `TaskT::await_resume` -/
def awaitResume (s : Coroutines R V) (t : Nat) : V := (s.frame t).value

/-- `~TaskT` -/
def destroy (s : Coroutines R V) (t : Nat) : Coroutines R V :=
  if s.done t then s.setStatus t .destroyed else { s with fault := true }

/-- `promise_type::return_value` -/
def returnValue (s : Coroutines R V) (c : Nat) (v : V) : Coroutines R V :=
  { s with
    frame := Function.update s.frame c { s.frame c with value := v }
    returned := s.returned ++ [(c, v)] }

/-- `FinalAwaiter::await_suspend`; `none` is `noop_coroutine`. -/
def finalAwaitSuspend (s : Coroutines R V) (c : Nat) : Option Nat := (s.frame c).continuation

/-! ### Running -/

/-- The coroutine `h` goes on after its `co_await`, since `task` has ended. -/
def resume (s : Coroutines R V) (task h : Nat) : Coroutines R V :=
  match (s.frame h).status with
  | .onTask t k =>
      { s.setStatus h (.running (k (s.awaitResume t))) with
        stack := h :: s.stack
        handovers := s.handovers ++ [{ task := task, awaiter := h, value := s.awaitResume t }] }
  -- not suspended there
  | _ => { s with fault := true }

/-- The variables of `c` die, the innermost first. -/
def dropTasks (s : Coroutines R V) (c : Nat) : Coroutines R V :=
  ((s.frame c).tasks.foldl destroy s).setTasks c []

/-- `co_return v` and the final suspension point; `rest` is below `c` on the stack. -/
def coReturn (s : Coroutines R V) (c : Nat) (rest : List Nat) (v : V) : Coroutines R V :=
  match (s.frame c).kind with
  | .task => { (s.dropTasks c).setStatus c .destroyed with stack := rest }
  | .taskT =>
      let s' := { ((s.returnValue c v).dropTasks c).setStatus c .final with stack := rest }
      match s'.finalAwaitSuspend c with
      | some h => s'.resume c h
      | none => s'

/-- `co_await` of the `TaskT` with the handle `t`. -/
def coAwait (s : Coroutines R V) (c : Nat) (rest : List Nat) (t : Nat)
    (k : V → Body R V) : Coroutines R V :=
  if s.awaitReady t then s.setStatus c (.running (k (s.awaitResume t)))
  else
    { (s.awaitSuspend t c).setStatus c (.onTask t k) with
      stack := rest
      suspensions := s.suspensions ++ [(t, c)] }

/-- The running coroutine `c` goes on to its next call, await or return. -/
def runBody (s : Coroutines R V) (c : Nat) (rest : List Nat) : Body R V → Coroutines R V
  | .coReturn v => s.coReturn c rest v
  | .coAwaitOp k => { s.setStatus c (.onOp k) with stack := rest }
  | .call callee body =>
      ((s.setStatus c (.running body)).setTasks c (s.count :: (s.frame c).tasks)).create .taskT
        callee
  | .coAwait i k =>
      match (s.frame c).tasks[i]? with
      | some t => s.coAwait c rest t k
      -- no such variable
      | none => { s with fault := true }
  | .endScope body =>
      match (s.frame c).tasks with
      | t :: tasks => ((s.destroy t).setTasks c tasks).setStatus c (.running body)
      | [] => { s with fault := true }

/-- What can happen to the coroutines of a thread. -/
inductive Event (R : Type u) (V : Type v) where
  /-- Somebody calls a `Task` coroutine. -/
  | spawn (p : Program R V)
  /-- The operation the coroutine `c` waits for completes, and `c` is resumed. -/
  | complete (c : Nat) (res : R)
  /-- The innermost coroutine goes on. -/
  | run

def step (s : Coroutines R V) : Event R V → Option (Coroutines R V)
  | .spawn p => some (s.create .task p.body)
  | .complete c res =>
      match (s.frame c).status with
      | .onOp k => some { s.setStatus c (.running (k res)) with stack := c :: s.stack }
      | _ => none
  | .run =>
      match s.stack with
      | [] => none
      | c :: rest =>
          match (s.frame c).status with
          | .running body => some (s.runBody c rest body)
          | _ => some { s with fault := true }

/-- Coroutines under arbitrary completions; nothing happens after a fault. -/
def machine : Machine (Coroutines R V) (Event R V) where
  step s e := if s.fault then none else s.step e

end Coroutines

end CRpc
