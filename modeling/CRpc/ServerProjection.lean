import CRpc.QueueProjection
import CRpc.ServerInvariant
import CRpc.SessionHistory
import CRpc.WriteOrder

/-!
# A worker, part by part

A run of a worker is at once a run of its event loop and, for each connection, a
run of that connection under an environment that completes its operations.
Therefore what is proved about `EventLoop.machine` for arbitrary coroutines and
about `Live.machine` for an arbitrary environment holds in the worker, and so does
what is proved about `PopRun.machine` for an arbitrary consumer of the queue.

* `loop_exec`: the event loop of a worker runs as `EventLoop.machine`.
* `session_exec`: each connection of a worker runs as `Live.machine`, and its
  operations in flight are those the event loop has for it.
* `queue_exec`: the queue of each connection runs as `PopRun.machine`.
* `peer_history`: what a client has been sent, whatever the other clients do.
-/

namespace CRpc

open Lib Protocol

namespace Server

variable {r : FixedResources} {s : Server} {flavor : Flavor} {codec : EchoCodec}

/-! ### The event loop -/

theorem submit_step (heap : Heap) (handle : Handle) (op : Sqe)
    (hco : s.loop.phase.inCoroutine = true) (hroom : s.loop.HasSqe) :
    EventLoop.machine.step s.loop
        (.submit op handle handle (heap.new s.loop.pool.allocated)) =
      some (s.submit heap handle op).loop :=
  if_pos ⟨hco, hroom, Heap.freshFor heap _⟩

/-- The entries a coroutine takes are submissions of the event loop. -/
theorem submitAll_exec (heap : Heap) (ops : List (Handle × Sqe)) :
    ∀ {s : Server} {l : EventLoop Handle Handle}, s.loop = l → l.phase.inCoroutine = true →
      ∃ ds, EventLoop.machine.exec l ds = some (submitAll heap s ops).loop := by
  induction ops with
  | nil =>
      rintro s l rfl _
      exact ⟨[], rfl⟩
  | cons op ops ih =>
      rintro s l rfl hco
      rw [submitAll]
      split
      next hroom =>
        obtain ⟨ds, hds⟩ := ih (s := s.submit heap op.1 op.2) rfl hco
        exact ⟨_ :: ds, Machine.exec_cons_eq_some.mpr
          ⟨_, submit_step heap op.1 op.2 hco hroom, hds⟩⟩
      next => exact ⟨[], rfl⟩

theorem acceptLoop_exec (heap : Heap) (hco : s.loop.phase.inCoroutine = true) :
    ∃ ds, EventLoop.machine.exec s.loop ds = some (s.acceptLoop heap).loop := by
  rw [acceptLoop]
  split
  next hroom =>
    exact ⟨[_], Machine.exec_cons_eq_some.mpr
      ⟨_, submit_step heap .acceptLoop (.accept s.listenFd) hco hroom.2, rfl⟩⟩
  next => exact ⟨[], rfl⟩

theorem resume_exec {input : Input} {handle : Handle} {op : Sqe} {res : Int} {s' : Server}
    (hres : resume flavor codec input s handle op res = some s')
    (hco : s.loop.phase.inCoroutine = true) :
    ∃ ds, EventLoop.machine.exec s.loop ds = some s'.loop := by
  rcases resume_cases hres with
    ⟨_, _, rfl⟩ | ⟨_, _, _, _, rfl⟩ | ⟨cid, role, p, t, _, _, _, rfl⟩
  · rw [acceptDone]
    split
    · exact ⟨[], rfl⟩
    · obtain ⟨ds, hds⟩ : ∃ ds, EventLoop.machine.exec s.loop ds =
          some (({ s with accept := .running } : Server).connect input res).loop :=
        submitAll_exec _ _ rfl hco
      simp only
      split
      · exact ⟨ds, hds⟩
      · -- the accept loop goes on in the same resumption
        obtain ⟨l, crashed, heq, hphase⟩ := submitAll_frame input.heap _ _
        have hco' : (({ s with accept := .running } : Server).connect input
            res).loop.phase.inCoroutine = true := by
          rw [connect, heq, hphase]
          exact hco
        obtain ⟨ds', hds'⟩ := acceptLoop_exec input.heap hco'
        exact ⟨ds ++ ds', Machine.exec_append_eq_some.mpr ⟨_, hds, hds'⟩⟩
  · exact ⟨[], rfl⟩
  · exact submitAll_exec _ _ rfl hco

theorem returns_exec (s : Server) :
    ∃ ds, EventLoop.machine.exec s.loop ds = some s.returns.loop := by
  rw [Server.returns]
  split
  · exact ⟨[], rfl⟩
  · split
    next l hl => exact ⟨[.resumeReturns], Machine.exec_cons_eq_some.mpr ⟨l, hl, rfl⟩⟩
    next => exact ⟨[], rfl⟩

theorem Ok.fetch_exec (h : s.Ok flavor codec r) {input : Input} {s' : Server}
    (hstep : s.fetch flavor codec input = some s') :
    ∃ ds, EventLoop.machine.exec s.loop ds = some s'.loop := by
  obtain ⟨l, hl, hcases⟩ := h.fetch_cases hstep
  have hfirst : EventLoop.machine.exec s.loop [.fetch] = some l :=
    Machine.exec_cons_eq_some.mpr ⟨l, hl, rfl⟩
  rcases hcases with ⟨_, rfl⟩ | ⟨handle, op, res, t, _, hco, _, _, ht, rfl⟩
  · exact ⟨_, hfirst⟩
  · obtain ⟨ds, hds⟩ := resume_exec ht hco
    obtain ⟨ds', hds'⟩ := returns_exec t
    exact ⟨[.fetch] ++ ds ++ ds', Machine.exec_append_eq_some.mpr
      ⟨_, Machine.exec_append_eq_some.mpr ⟨_, hfirst, hds⟩, hds'⟩⟩

/-- One step of a worker is some steps of its event loop. -/
theorem Ok.step_exec (h : s.Ok flavor codec r) {e : Event} {s' : Server}
    (hstep : (machine flavor codec).step s e = some s') :
    ∃ ds, EventLoop.machine.exec s.loop ds = some s'.loop := by
  simp only [machine, Option.ite_none_left_eq_some] at hstep
  obtain ⟨_, hstep⟩ := hstep
  cases e with
  | start heap =>
      simp only [Server.start, Option.ite_none_right_eq_some, Option.some.injEq] at hstep
      obtain ⟨⟨hsetup, _⟩, rfl⟩ := hstep
      exact acceptLoop_exec (s := { s with running := true }) heap (by rw [hsetup]; rfl)
  | stop =>
      cases hstep
      exact ⟨[], rfl⟩
  | fetch input => exact h.fetch_exec hstep
  | loop e =>
      simp only [Option.ite_none_right_eq_some, Option.map_eq_some_iff] at hstep
      obtain ⟨_, l, hl, rfl⟩ := hstep
      exact ⟨[e], Machine.exec_cons_eq_some.mpr ⟨l, hl, rfl⟩⟩

/-- The event loop of a worker runs as the event loop under arbitrary coroutines. -/
theorem loop_exec {entries : Nat} {listenFd : Int} {es : List Event} {t : Server}
    (hrun : (machine flavor codec).exec (init entries listenFd r) es = some t) :
    ∃ ds, EventLoop.machine.exec (EventLoop.init entries fun _ => 0) ds = some t.loop := by
  refine Machine.exec_simulation (f := Server.loop) ?_ hrun
  intro es s e s' hs hstep
  exact (ok_exec hs (crashed_of_step hstep)).step_exec hstep

/-! ### One connection -/

/--
Each connection of a worker runs as a connection under an arbitrary environment,
and what it has in flight are its operations in the event loop.
-/
theorem session_exec {entries : Nat} {listenFd : Int} {es : List Event} {t : Server}
    (hrun : (machine flavor codec).exec (init entries listenFd r) es = some t)
    (hcrash : t.crashed = false) {cid : Nat} {p : Peer} (hp : t.peers[cid]? = some p) :
    Live.Reached flavor codec p.session (opsOf cid t.loop.ops) :=
  ((ok_exec hrun hcrash).consistent.peers cid p hp).reached

/-- The queue of each connection of a worker and its write loop run as `PopRun.machine`. -/
theorem queue_exec {entries : Nat} {listenFd : Int} {es : List Event} {t : Server}
    (hrun : (machine flavor codec).exec (init entries listenFd r) es = some t)
    (hcrash : t.crashed = false) {cid : Nat} {p : Peer} (hp : t.peers[cid]? = some p) :
    p.session.QueueReached := by
  obtain ⟨c, ds, flight, hread, hwrite, hsession, _⟩ := session_exec hrun hcrash hp
  exact Live.queue_exec hread hwrite hsession

/--
Each connection of a worker has answered every accepted request once or has a
handler that sleeps for it, the bytes sent are the queued responses in order, up
to some point, and the event loop has at most one write for it.
-/
theorem peer_history {entries : Nat} {listenFd : Int} {es : List Event} {t : Server}
    (hrun : (machine flavor codec).exec (init entries listenFd r) es = some t)
    (hcrash : t.crashed = false) {cid : Nat} {p : Peer} (hp : t.peers[cid]? = some p) :
    p.session.Answered flavor codec ∧ p.session.wire <+: p.session.pushed.flatten ∧
      ((opsOf cid t.loop.ops).filter (fun op => op.2.isWrite)).length ≤ 1 := by
  have hreached := session_exec hrun hcrash hp
  refine ⟨?_, hreached.ok.wire_prefix_pushed, hreached.ok.one_write⟩
  obtain ⟨c, ds, flight, hread, hwrite, hsession, _⟩ := hreached
  exact Live.answered_exec hread hwrite hsession

end Server

end CRpc
