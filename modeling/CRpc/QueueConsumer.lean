import CRpc.Lib.Machine
import CRpc.ResponseQueue
import Mathlib.Data.List.ReduceOption

/-!
# The response queue and its consumer

`ResponseQueue` with the one coroutine that awaits `Pop` on it, under any
interleaving of `Push` and `Close` calls.  Between two `Pop`s the consumer runs
arbitrary code: it may push, wait for other events, or end.

`Push` and `Close` resume the waiting coroutine on their own stack.  Nothing
follows `h.resume()` in either, so a call is over for the queue when the
consumer has its item; what the consumer does before it suspends again are
further events, and so are pushes made meanwhile.

* `pop_fifo`: no item is lost or returned twice, no wake-up is lost, and nothing
  but a coroutine suspended on `Pop` is resumed.
-/

namespace CRpc

open Lib

universe u v

/-- Where the consumer is; `elsewhere` before its start and in other awaits. -/
inductive ConsumerState where
  | running
  | onPop
  | elsewhere
  | finished
deriving DecidableEq, Repr

/--
A queue, the handle and the state of its consumer, and the history: the items
pushed and the results of `Pop` so far.  `misresumed` is set when `Push` or `Close`
resumes a coroutine that is not suspended on `Pop`.
-/
structure PopRun (α : Type u) (H : Type v) where
  self : H
  queue : ResponseQueue α H
  consumer : ConsumerState
  pushed : List α
  results : List (Option α)
  misresumed : Bool

namespace PopRun

variable {α : Type u} {H : Type v}

/-- A new queue, and a consumer that has not started. -/
def init (h : H) : PopRun α H :=
  { self := h, queue := ResponseQueue.empty, consumer := .elsewhere
    pushed := [], results := [], misresumed := false }

/-- The items `Pop` has returned. -/
def popped (s : PopRun α H) : List α := s.results.reduceOption

/-- `await_resume`: the consumer has the result of its `Pop` and goes on. -/
def deliver (s : PopRun α H) : PopRun α H :=
  { s with
    queue := s.queue.awaitResume.2
    consumer := .running
    results := s.results ++ [s.queue.awaitResume.1] }

/-- `co_await queue->Pop()` by the consumer. -/
def pop (s : PopRun α H) : PopRun α H :=
  if s.queue.awaitReady then s.deliver
  else { s with queue := s.queue.awaitSuspend s.self, consumer := .onPop }

section Machine

variable [DecidableEq H]

/-- `h.resume()` at the end of `Push` and `Close`. -/
def resume (s : PopRun α H) : Option H → PopRun α H
  | none => s
  | some h =>
      if h = s.self ∧ s.consumer = .onPop then s.deliver
      else { s with misresumed := true }

/-- `Push(data)`. -/
def push (s : PopRun α H) (data : α) : PopRun α H :=
  ({ s with queue := (s.queue.push data).1, pushed := s.pushed ++ [data] } :
    PopRun α H).resume (s.queue.push data).2

/-- `Close()`. -/
def close (s : PopRun α H) : PopRun α H :=
  ({ s with queue := s.queue.close.1 } : PopRun α H).resume s.queue.close.2

/-- What can happen to a queue and its consumer. -/
inductive Event (α : Type u) where
  | push (data : α)
  | close
  /-- The consumer awaits `Pop`. -/
  | pop
  /-- The consumer suspends on something else. -/
  | leave
  /-- The consumer starts, or what it waited for elsewhere happens. -/
  | wake
  /-- The consumer ends. -/
  | finish

/-- The queue and its consumer in any interleaving. -/
def machine : Machine (PopRun α H) (Event α) where
  step s
    | .push data => some (s.push data)
    | .close => some s.close
    | .pop => if s.consumer = .running then some s.pop else none
    | .leave => if s.consumer = .running then some { s with consumer := .elsewhere } else none
    | .wake => if s.consumer = .elsewhere then some { s with consumer := .running } else none
    | .finish => if s.consumer = .running then some { s with consumer := .finished } else none

end Machine

/-- The invariant of a queue and its consumer. -/
structure Ok (s : PopRun α H) : Prop where
  conserved : s.popped ++ s.queue.items = s.pushed
  waiter : s.queue.waiter = if s.consumer = .onPop then some s.self else none
  parked : s.consumer = .onPop → s.queue.items = [] ∧ s.queue.closed = false
  resumed : s.misresumed = false

variable {s t : PopRun α H}

theorem ok_init (h : H) : (init h : PopRun α H).Ok := by
  refine ⟨rfl, rfl, fun hpop => ?_, rfl⟩
  cases hpop

/-- A consumer that is not suspended on `Pop` may be at any other place. -/
theorem Ok.move (hs : s.Ok) (hfrom : s.consumer ≠ .onPop) {c : ConsumerState}
    (hto : c ≠ .onPop) : ({ s with consumer := c } : PopRun α H).Ok := by
  refine ⟨hs.conserved, ?_, fun hpop => absurd hpop hto, hs.resumed⟩
  rw [if_neg hto, hs.waiter, if_neg hfrom]

/-! ### The result of `Pop` -/

/-- The item returned is the first of those queued. -/
theorem deliver_conserved :
    s.deliver.popped ++ s.deliver.queue.items = s.popped ++ s.queue.items := by
  simp only [deliver, popped, ResponseQueue.awaitResume]
  cases hitems : s.queue.items with
  | nil => simp [hitems, List.reduceOption_append]
  | cons item rest => simp [List.reduceOption_append]

theorem deliver_waiter : s.deliver.queue.waiter = s.queue.waiter := by
  simp only [deliver, ResponseQueue.awaitResume]
  split <;> rfl

theorem deliver_closed : s.deliver.queue.closed = s.queue.closed := by
  simp only [deliver, ResponseQueue.awaitResume]
  split <;> rfl

/-- `nullopt` is returned for an empty queue only, and leaves it so. -/
theorem items_of_deliver_none (h : s.deliver.results = s.results ++ [none]) :
    s.queue.items = [] ∧ s.deliver.queue.items = [] := by
  simp only [deliver, List.append_cancel_left_eq, List.cons.injEq, and_true,
    ResponseQueue.awaitResume] at h ⊢
  cases hitems : s.queue.items with
  | nil => simp [hitems]
  | cons item rest => simp [hitems] at h

/-- A consumer that nobody waits for gets its result. -/
theorem ok_deliver (hconserved : s.popped ++ s.queue.items = s.pushed)
    (hwaiter : s.queue.waiter = none) (hresumed : s.misresumed = false) : s.deliver.Ok := by
  refine ⟨deliver_conserved.trans hconserved, ?_, fun hpop => ?_, hresumed⟩
  · rw [deliver_waiter, hwaiter]
    rfl
  · cases hpop

theorem Ok.pop (hs : s.Ok) (hrunning : s.consumer = .running) : s.pop.Ok := by
  have hwaiter : s.queue.waiter = none := by
    rw [hs.waiter, hrunning]
    rfl
  rw [PopRun.pop]
  split
  next => exact ok_deliver hs.conserved hwaiter hs.resumed
  next hready =>
    have hempty := ResponseQueue.awaitReady_eq_false_iff.mp (Bool.eq_false_iff.mpr hready)
    exact ⟨hs.conserved, rfl, fun _ => hempty, hs.resumed⟩

/-! ### `Push` and `Close` -/

variable [DecidableEq H]

/--
A call that has taken the waiter and resumes it, whatever it did to the items: the
waiter is the consumer suspended on `Pop`, or there is none.
-/
theorem Ok.resume (hs : s.Ok) {m : PopRun α H} (hself : m.self = s.self)
    (hconsumer : m.consumer = s.consumer) (hwaiter : m.queue.waiter = none)
    (hconserved : m.popped ++ m.queue.items = m.pushed) (hresumed : m.misresumed = false) :
    (m.resume s.queue.waiter).Ok := by
  rw [hs.waiter]
  split
  next hpop =>
    rw [PopRun.resume, if_pos ⟨hself.symm, hconsumer.trans hpop⟩]
    exact ok_deliver hconserved hwaiter hresumed
  next hpop =>
    rw [← hconsumer] at hpop
    exact ⟨hconserved, hwaiter.trans (if_neg hpop).symm, fun h => absurd h hpop, hresumed⟩

theorem Ok.push (hs : s.Ok) (data : α) : (s.push data).Ok := by
  rw [PopRun.push, ResponseQueue.push_snd]
  refine hs.resume rfl rfl (by rw [ResponseQueue.push_fst]) ?_ hs.resumed
  rw [ResponseQueue.push_fst, ← hs.conserved, List.append_assoc]
  rfl

theorem Ok.close (hs : s.Ok) : s.close.Ok := by
  rw [PopRun.close, ResponseQueue.close_snd]
  refine hs.resume rfl rfl (by rw [ResponseQueue.close_fst]) ?_ hs.resumed
  rw [ResponseQueue.close_fst]
  exact hs.conserved

/-- What a step can be. -/
theorem step_cases {e : Event α} (hstep : machine.step s e = some t) :
    (∃ data, t = s.push data) ∨ t = s.close ∨ (s.consumer = .running ∧ t = s.pop) ∨
      (s.consumer ≠ .onPop ∧ ∃ c, c ≠ .onPop ∧ t = { s with consumer := c }) := by
  cases e with
  | push data => exact Or.inl ⟨data, (Option.some.inj hstep).symm⟩
  | close => exact Or.inr (Or.inl (Option.some.inj hstep).symm)
  | pop =>
      simp only [machine, Option.ite_none_right_eq_some, Option.some.injEq] at hstep
      exact Or.inr (Or.inr (Or.inl ⟨hstep.1, hstep.2.symm⟩))
  | leave =>
      simp only [machine, Option.ite_none_right_eq_some, Option.some.injEq] at hstep
      exact Or.inr (Or.inr (Or.inr ⟨by simp [hstep.1], .elsewhere, by simp, hstep.2.symm⟩))
  | wake =>
      simp only [machine, Option.ite_none_right_eq_some, Option.some.injEq] at hstep
      exact Or.inr (Or.inr (Or.inr ⟨by simp [hstep.1], .running, by simp, hstep.2.symm⟩))
  | finish =>
      simp only [machine, Option.ite_none_right_eq_some, Option.some.injEq] at hstep
      exact Or.inr (Or.inr (Or.inr ⟨by simp [hstep.1], .finished, by simp, hstep.2.symm⟩))

theorem ok_step {e : Event α} (hs : s.Ok) (hstep : machine.step s e = some t) : t.Ok := by
  rcases step_cases hstep with ⟨data, rfl⟩ | rfl | ⟨hrunning, rfl⟩ | ⟨hfrom, c, hto, rfl⟩
  · exact hs.push data
  · exact hs.close
  · exact hs.pop hrunning
  · exact hs.move hfrom hto

theorem resume_self (s : PopRun α H) (waiter : Option H) : (s.resume waiter).self = s.self := by
  cases waiter with
  | none => rfl
  | some h =>
      rw [PopRun.resume]
      split <;> rfl

/-- The consumer stays the same coroutine. -/
theorem self_step {e : Event α} (hstep : machine.step s e = some t) : t.self = s.self := by
  rcases step_cases hstep with ⟨data, rfl⟩ | rfl | ⟨_, rfl⟩ | ⟨_, c, _, rfl⟩
  · exact resume_self _ _
  · exact resume_self _ _
  · rw [PopRun.pop]
    split <;> rfl
  · rfl

theorem self_exec {h : H} {es : List (Event α)} (hrun : machine.exec (init h) es = some t) :
    t.self = h :=
  Machine.exec_invariant (I := fun s => s.self = h)
    (fun _ _ _ hs hstep => (self_step hstep).trans hs) hrun rfl

theorem ok_exec {h : H} {es : List (Event α)} (hrun : machine.exec (init h) es = some t) : t.Ok :=
  Machine.exec_invariant (fun _ _ _ hs hstep => ok_step hs hstep) hrun (ok_init h)

/-! ### The end of the queue -/

/-- `nullopt` is returned by a closed and empty queue only. -/
theorem Ok.closed_of_none {e : Event α} (hs : s.Ok) (hstep : machine.step s e = some t)
    (hnone : t.results = s.results ++ [none]) :
    t.queue.closed = true ∧ t.queue.items = [] := by
  have hsame : t.results ≠ s.results := by
    rw [hnone]
    simp
  rcases step_cases hstep with ⟨data, rfl⟩ | rfl | ⟨_, rfl⟩ | ⟨_, c, _, rfl⟩
  · simp only [PopRun.push, ResponseQueue.push_fst, ResponseQueue.push_snd] at hnone hsame
    rw [hs.waiter] at hnone hsame
    split at hnone
    next hpop =>
      -- the item pushed is there for the consumer
      rw [PopRun.resume, if_pos ⟨rfl, hpop⟩] at hnone
      have hempty := (items_of_deliver_none hnone).1
      simp at hempty
    next hpop =>
      rw [if_neg hpop] at hsame
      exact absurd rfl hsame
  · simp only [PopRun.close, ResponseQueue.close_fst, ResponseQueue.close_snd] at hnone hsame ⊢
    rw [hs.waiter] at hnone hsame ⊢
    split at hnone
    next hpop =>
      rw [if_pos hpop]
      rw [PopRun.resume, if_pos ⟨rfl, hpop⟩] at hnone ⊢
      exact ⟨deliver_closed, (items_of_deliver_none hnone).2⟩
    next hpop =>
      rw [if_neg hpop] at hsame
      exact absurd rfl hsame
  · rw [PopRun.pop] at hnone hsame ⊢
    split at hnone
    next hready =>
      rw [if_pos hready]
      have hempty := items_of_deliver_none hnone
      have hclosed : s.queue.closed = true := by
        simpa [ResponseQueue.awaitReady, hempty.1] using hready
      exact ⟨deliver_closed.trans hclosed, hempty.2⟩
    next hready =>
      rw [if_neg hready] at hsame
      exact absurd rfl hsame
  · exact absurd rfl hsame

/--
`ResponseQueue` is a queue without loss, duplication or lost wake-ups.  In every
run, what `Pop` has returned followed by what is queued is what was pushed; a
consumer suspended on `Pop` means an empty queue that is not closed, and it is
then, and only then, the waiter; nothing else has been resumed; and each `nullopt`
was returned by a closed and empty queue.
-/
theorem pop_fifo {h : H} {es : List (Event α)} (hrun : machine.exec (init h) es = some t) :
    t.popped ++ t.queue.items = t.pushed ∧
      (t.consumer = .onPop → t.queue.items = [] ∧ t.queue.closed = false) ∧
      (t.consumer = .onPop ↔ t.queue.waiter.isSome) ∧
      (∀ h', t.queue.waiter = some h' → h' = h) ∧
      t.misresumed = false ∧
      (∀ s e s', machine.Takes (init h) es s e → machine.step s e = some s' →
        s'.results = s.results ++ [none] → s'.queue.closed = true ∧ s'.queue.items = []) := by
  have hok := ok_exec hrun
  refine ⟨hok.conserved, hok.parked, ?_, ?_, hok.resumed, ?_⟩
  · rw [hok.waiter]
    split <;> simp_all
  · intro h' hwaiter
    rw [hok.waiter, Option.ite_none_right_eq_some, Option.some.injEq] at hwaiter
    exact hwaiter.2.symm.trans (self_exec hrun)
  · rintro s e s' ⟨before, _, _, hs⟩ hstep hnone
    exact (ok_exec hs).closed_of_none hstep hnone

/--
The consumer is resumed by a push, waits elsewhere while two more arrive, pops
both, parks, and gets `nullopt` from `Close`.
-/
theorem pop_fifo_three_items :
    ∃ t : PopRun Nat Unit,
      machine.exec (init ()) [.wake, .pop, .push 1, .leave, .push 2, .push 3, .wake, .pop, .pop,
        .pop, .close] = some t ∧
      t.results = [some 1, some 2, some 3, none] ∧ t.popped ++ t.queue.items = t.pushed ∧
      t.misresumed = false := by
  have hrun : machine.exec (init ()) [.wake, .pop, .push 1, .leave, .push 2, .push 3, .wake,
      .pop, .pop, .pop, .close] = some (_ : PopRun Nat Unit) := rfl
  have hfifo := pop_fifo hrun
  exact ⟨_, hrun, rfl, hfifo.1, hfifo.2.2.2.2.1⟩

end PopRun

end CRpc
