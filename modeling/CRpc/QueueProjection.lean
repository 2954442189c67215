import CRpc.QueueConsumer
import CRpc.SessionRun

/-!
# The write loop as the consumer of its queue

The queue of a connection of an echo server, with `writeLoop` as its consumer, runs
as `PopRun.machine`: each `Push` and `Close` of the handlers and of the read loop is
one event, and what the write loop does after a `Pop` is the next event (`leave`
when it waits for a write, `finish` when it ends).  Therefore what is proved about
`PopRun.machine` for an arbitrary consumer holds in the servers.

* `Live.queue_exec`: the queue of a connection runs as `PopRun.machine`.
-/

namespace CRpc

open Lib Protocol

/-- Where the write loop is, for the queue. -/
def WriterState.consumer : WriterState → ConsumerState
  | .running => .running
  | .onPop => .onPop
  | .onWrite _ => .elsewhere
  | .done => .finished

namespace Session

/-- The queue of the session, its consumer and its history are those of `q`. -/
structure Projects (s : Session) (q : PopRun (List UInt8) Role) : Prop where
  self : q.self = .writer
  queue : q.queue = s.queue
  consumer : q.consumer = s.writer.consumer
  pushed : q.pushed = s.pushed
  popped : q.popped = s.popped

/-- A run of `PopRun.machine` leads to the queue of the session. -/
def QueueReached (s : Session) : Prop :=
  ∃ ds q, PopRun.machine.exec (PopRun.init .writer) ds = some q ∧ s.Projects q

variable {s t : Session} {ds : List (PopRun.Event (List UInt8))}
variable {q q' m : PopRun (List UInt8) Role}

/-- What the queue and its consumer have to do with a session. -/
def queueView (s : Session) :
    ResponseQueue (List UInt8) Role × WriterState × List (List UInt8) × List (List UInt8) :=
  (s.queue, s.writer, s.pushed, s.popped)

theorem QueueReached.congr (h : s.QueueReached) (hview : t.queueView = s.queueView) :
    t.QueueReached := by
  simp only [queueView, Prod.mk.injEq] at hview
  obtain ⟨hqueue, hwriter, hpushed, hpopped⟩ := hview
  obtain ⟨ds, q, hq, hp⟩ := h
  refine ⟨ds, q, hq, hp.self, ?_, ?_, ?_, ?_⟩
  · rw [hqueue, hp.queue]
  · rw [hwriter, hp.consumer]
  · rw [hpushed, hp.pushed]
  · rw [hpopped, hp.popped]

theorem queueReached_concat {e : PopRun.Event (List UInt8)}
    (hq : PopRun.machine.exec (PopRun.init .writer) ds = some q)
    (hstep : PopRun.machine.step q e = some q') (hp : s.Projects q') : s.QueueReached :=
  ⟨ds ++ [e], q', Machine.exec_concat_eq_some.mpr ⟨q, hq, hstep⟩, hp⟩

/-- A step of a consumer that runs: it leaves, or it ends. -/
theorem step_leave (hrunning : q.consumer = .running) :
    PopRun.machine.step q .leave = some { q with consumer := .elsewhere } := if_pos hrunning

theorem step_finish (hrunning : q.consumer = .running) :
    PopRun.machine.step q .finish = some { q with consumer := .finished } := if_pos hrunning

/-! ### The write loop runs -/

/-- The write loop with the result of its `Pop`. -/
theorem queueReached_afterPop (again : Session → Session)
    (hm : PopRun.machine.exec (PopRun.init .writer) ds = some m.deliver)
    (hp : s.Projects { m with consumer := s.writer.consumer }) :
    (afterPop again s).QueueReached := by
  have hqueue : m.queue = s.queue := hp.queue
  have hpopped : m.results.reduceOption = s.popped := hp.popped
  cases hitems : s.queue.items with
  | nil =>
      rw [afterPop_nil again hitems]
      refine queueReached_concat hm (step_finish rfl) ⟨hp.self, ?_, rfl, hp.pushed, ?_⟩
      · simp only [PopRun.deliver, ResponseQueue.awaitResume, hqueue, hitems]
      · simp [PopRun.deliver, PopRun.popped, ResponseQueue.awaitResume, hqueue, hitems,
          List.reduceOption_append, hpopped]
  | cons item rest =>
      have hqueue' : m.deliver.queue = { s.queue with items := rest } := by
        simp only [PopRun.deliver, ResponseQueue.awaitResume, hqueue, hitems]
      have hpopped' : m.deliver.popped = s.popped ++ [item] := by
        simp [PopRun.deliver, PopRun.popped, ResponseQueue.awaitResume, hqueue, hitems,
          List.reduceOption_append, hpopped]
      rw [afterPop_cons again hitems]
      by_cases hitem : item = []
      · rw [hitem, beginWrite_nil]
        rw [hitem] at hpopped'
        exact queueReached_concat hm (step_finish rfl) ⟨hp.self, hqueue', rfl, hp.pushed, hpopped'⟩
      · rw [beginWrite_cons _ hitem]
        exact queueReached_concat hm (step_leave rfl) ⟨hp.self, hqueue', rfl, hp.pushed, hpopped'⟩

theorem QueueReached.writeLoop (h : s.QueueReached) (hrunning : s.writer = .running) :
    s.writeLoop.QueueReached := by
  obtain ⟨ds, q, hq, hp⟩ := h
  have hconsumer : q.consumer = .running := by
    rw [hp.consumer, hrunning]
    rfl
  have hpop : PopRun.machine.exec (PopRun.init .writer) (ds ++ [.pop]) = some q.pop :=
    Machine.exec_concat_eq_some.mpr ⟨q, hq, if_pos hconsumer⟩
  rw [PopRun.pop, hp.queue] at hpop
  cases hready : s.queue.awaitReady with
  | true =>
      rw [hready, if_pos rfl] at hpop
      rw [writeLoop_ready hready]
      exact queueReached_afterPop _ hpop ⟨hp.self, hp.queue, rfl, hp.pushed, hp.popped⟩
  | false =>
      rw [hready, if_neg (by simp), hp.self] at hpop
      rw [writeLoop_suspends hready]
      exact ⟨_, _, hpop, rfl, rfl, rfl, hp.pushed, hp.popped⟩

/-- A queue operation resumes the write loop if it waits in `Pop`. -/
theorem queueReached_resumeWaiter {waiter : Option Role}
    (hm : PopRun.machine.exec (PopRun.init .writer) ds = some (m.resume waiter))
    (hp : s.Projects m)
    (hwaiter : waiter = if m.consumer = .onPop then some m.self else none) :
    (s.resumeWaiter waiter).QueueReached := by
  subst hwaiter
  by_cases hpop : m.consumer = .onPop
  · have hwriter : s.writer = .onPop := by
      have hsame := hp.consumer
      rw [hpop] at hsame
      cases hw : s.writer <;> simp [hw, WriterState.consumer] at hsame ⊢
    rw [if_pos hpop, PopRun.resume, if_pos ⟨rfl, hpop⟩] at hm
    rw [if_pos hpop, resumeWaiter, if_pos ⟨hp.self, hwriter⟩]
    exact queueReached_afterPop _ hm ⟨hp.self, hp.queue, rfl, hp.pushed, hp.popped⟩
  · rw [if_neg hpop] at hm ⊢
    exact ⟨ds, m, hm, hp⟩

theorem QueueReached.push (h : s.QueueReached) (data : List UInt8) :
    (s.push data).QueueReached := by
  obtain ⟨ds, q, hq, hp⟩ := h
  have hpush : PopRun.machine.exec (PopRun.init .writer) (ds ++ [.push data]) =
      some (q.push data) := Machine.exec_concat_eq_some.mpr ⟨q, hq, rfl⟩
  rw [PopRun.push, hp.queue] at hpush
  rw [Session.push]
  refine queueReached_resumeWaiter hpush ⟨hp.self, rfl, hp.consumer, ?_, hp.popped⟩ ?_
  · rw [hp.pushed]
  · rw [ResponseQueue.push_snd, ← hp.queue]
    exact (PopRun.ok_exec hq).waiter

theorem QueueReached.close (h : s.QueueReached) : s.close.QueueReached := by
  obtain ⟨ds, q, hq, hp⟩ := h
  have hclose : PopRun.machine.exec (PopRun.init .writer) (ds ++ [.close]) = some q.close :=
    Machine.exec_concat_eq_some.mpr ⟨q, hq, rfl⟩
  rw [PopRun.close, hp.queue] at hclose
  rw [Session.close]
  refine queueReached_resumeWaiter hclose ⟨hp.self, rfl, hp.consumer, hp.pushed, hp.popped⟩ ?_
  rw [ResponseQueue.close_snd, ← hp.queue]
  exact (PopRun.ok_exec hq).waiter

/-! ### The coroutines of a connection -/

variable {flavor : Flavor} {codec : EchoCodec} {base : Ops}

theorem QueueReached.handleAll (flavor : Flavor) (codec : EchoCodec) (h : s.QueueReached)
    (ms : List Message) :
    (CRpc.handleAll (onMessage flavor codec) s ms).QueueReached := by
  refine handleAll_induction ?_ ?_ ?_ ms s h
  · exact fun t m _ ht => ht.congr rfl
  · intro _ t m r _ ht
    exact QueueReached.push (s := t.note m) (ht.congr rfl) _
  · exact fun _ t m r _ ht => ht.congr rfl

theorem queueView_readAgain (s : Session) (buf : Buffer) :
    (s.readAgain buf).queueView = s.queueView := rfl

theorem QueueReached.readDone (h : s.QueueReached) {sqe : Sqe}
    (hok : Ok ((.reader, sqe) :: base) s) (res : Int) {bytes : List UInt8}
    (hbytes : bytes.length ≤ postedRead sqe) :
    (readDone flavor codec s res bytes).QueueReached := by
  rcases hok.readDone_cases flavor codec res hbytes with ⟨_, heq⟩ | ⟨_, buf, heq⟩
  · have hclosed := QueueReached.close (s := { s with reader := .running })
      (h.congr rfl)
    rw [heq, endRead]
    exact hclosed.congr rfl
  · have hall := QueueReached.handleAll (s := s.received bytes) flavor codec
      (h.congr rfl) (frames.drain (s.conn.readBuffer.getSpan ++ bytes)).1
    rw [heq]
    exact hall.congr (queueView_readAgain _ buf)

theorem QueueReached.timerDone (h : s.QueueReached) (id : Nat) :
    (timerDone codec s id).QueueReached := by
  rw [Session.timerDone]
  split
  next hd _ =>
    exact QueueReached.push
      (s := { s with handlers := s.handlers.eraseP (fun h => h.id = id) })
      (h.congr rfl) _
  next => exact h.congr rfl

/-- The write loop is resumed by the completion of its write. -/
theorem QueueReached.writeDone (h : s.QueueReached) (w : Int) : (s.writeDone w).QueueReached := by
  rw [Session.writeDone]
  split
  next f hwriter =>
    obtain ⟨ds, q, hq, hp⟩ := h
    have helsewhere : q.consumer = .elsewhere := by
      rw [hp.consumer, hwriter]
      rfl
    have hwake : PopRun.machine.exec (PopRun.init .writer) (ds ++ [.wake]) =
        some { q with consumer := .running } :=
      Machine.exec_concat_eq_some.mpr ⟨q, hq, if_pos helsewhere⟩
    have hrunning : ({ s with writer := .running } : Session).QueueReached :=
      ⟨_, _, hwake, hp.self, hp.queue, rfl, hp.pushed, hp.popped⟩
    cases s.conn.writeResume f w with
    | suspended c sqe f' =>
        exact queueReached_concat hwake (step_leave rfl)
          ⟨hp.self, hp.queue, rfl, hp.pushed, hp.popped⟩
    | returned v =>
        rw [afterWrite]
        split
        · exact queueReached_concat hwake (step_finish rfl)
            ⟨hp.self, hp.queue, rfl, hp.pushed, hp.popped⟩
        · exact hrunning.writeLoop rfl
  next => exact h.congr rfl

theorem queueReached_start (c : CoroConnection) : (start c).QueueReached := by
  rw [start_eq]
  exact ⟨[.wake, .pop], _, rfl, rfl, rfl, rfl, rfl, rfl⟩

end Session

namespace Live

variable {flavor : Flavor} {codec : EchoCodec}

/-- The queue of a connection and its write loop run as a queue and its consumer. -/
theorem queue_exec {c : CoroConnection} (hread : c.FreshRead) (hwrite : c.WriteOk)
    {es : List Event} {t : Live} (hrun : (machine flavor codec).exec (init c) es = some t) :
    t.session.QueueReached := by
  refine Machine.run_induction (motive := fun _ t => t.session.QueueReached) ?_ ?_ hrun
  · exact (Session.queueReached_start c).congr rfl
  · rintro es t e t' hexec hreached hstep
    have hok := ok_exec hread hwrite hexec
    rcases step_cases hstep with
      ⟨res, bytes, sqe, rfl, hop, hres, rfl⟩ | ⟨w, sqe, rfl, hop, hw, rfl⟩ |
        ⟨id, sqe, rfl, hop, rfl⟩
    · exact (hreached.readDone (hok.take hop) res hres.2).congr rfl
    · have hsent : (t.session.kernelWrites sqe w).QueueReached := hreached.congr rfl
      exact (hsent.writeDone w).congr rfl
    · exact (hreached.timerDone id).congr rfl

end Live

end CRpc
