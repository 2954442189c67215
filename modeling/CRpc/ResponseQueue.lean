import Mathlib.Tactic

/-!
# The response queue

Model of `ResponseQueue` (`response_queue.h`): the queue between the handler
coroutines of a connection and its write loop.

`Push` and `Close` hand back the coroutine they resume, if one waits; resuming
it is the business of the caller's model, because it runs on the stack of the
call.  `Pop` is the three functions of its awaitable.
-/

namespace CRpc

universe u v

/-- `ResponseQueue` with items of type `α` and coroutine handles `H`. -/
structure ResponseQueue (α : Type u) (H : Type v) where
  items : List α
  waiter : Option H
  closed : Bool

namespace ResponseQueue

variable {α : Type u} {H : Type v}

/-- A new queue. -/
def empty : ResponseQueue α H := { items := [], waiter := none, closed := false }

/-- `PopAwaitable::await_ready`. -/
def awaitReady (q : ResponseQueue α H) : Bool := !q.items.isEmpty || q.closed

/-- `PopAwaitable::await_suspend`. -/
def awaitSuspend (q : ResponseQueue α H) (h : H) : ResponseQueue α H :=
  { q with waiter := some h }

/-- `PopAwaitable::await_resume`. -/
def awaitResume (q : ResponseQueue α H) : Option α × ResponseQueue α H :=
  match q.items with
  | [] => (none, q)
  | item :: rest => (some item, { q with items := rest })

/-- `std::exchange(waiter_, {})`, if there is a waiter. -/
def takeWaiter (q : ResponseQueue α H) : ResponseQueue α H × Option H :=
  match q.waiter with
  | some h => ({ q with waiter := none }, some h)
  | none => (q, none)

/-- `Push`: the queue when a waiter is resumed, and the waiter. -/
def push (q : ResponseQueue α H) (data : α) : ResponseQueue α H × Option H :=
  ({ q with items := q.items ++ [data] } : ResponseQueue α H).takeWaiter

/-- `Close`: the queue when a waiter is resumed, and the waiter. -/
def close (q : ResponseQueue α H) : ResponseQueue α H × Option H :=
  ({ q with closed := true } : ResponseQueue α H).takeWaiter

theorem awaitReady_eq_false_iff {q : ResponseQueue α H} :
    q.awaitReady = false ↔ q.items = [] ∧ q.closed = false := by
  simp [awaitReady]

theorem takeWaiter_eq (q : ResponseQueue α H) :
    q.takeWaiter = ({ q with waiter := none }, q.waiter) := by
  rw [takeWaiter]
  cases hw : q.waiter with
  | none => simp only [← hw]
  | some h => rfl

@[simp] theorem push_fst (q : ResponseQueue α H) (data : α) :
    (q.push data).1 = { q with items := q.items ++ [data], waiter := none } := by
  rw [push, takeWaiter_eq]

@[simp] theorem push_snd (q : ResponseQueue α H) (data : α) :
    (q.push data).2 = q.waiter := by
  rw [push, takeWaiter_eq]

@[simp] theorem close_fst (q : ResponseQueue α H) :
    q.close.1 = { q with waiter := none, closed := true } := by
  rw [close, takeWaiter_eq]

@[simp] theorem close_snd (q : ResponseQueue α H) : q.close.2 = q.waiter := by
  rw [close, takeWaiter_eq]

end ResponseQueue

end CRpc
