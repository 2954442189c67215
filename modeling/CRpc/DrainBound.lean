import CRpc.WorkerHistory

/-!
# How long the drain phase can take

After the cancel of the drain phase the operations in flight complete with an
error.  A coroutine that is resumed with an error ends without posting anything,
with one exception: `AsyncSleep` ignores its result, so that a handler goes on and
pushes its response, for which the write loop may post a write.

Each operation in flight is therefore weighed by the completions it can still lead
to: two for a sleeping handler, one for any other.  A failing completion lowers the
sum (`Handles.toCome_lt`), and the drain phase handles at most twice as many
completions as there are operations in flight when it begins (`drain_bounded`).
-/

namespace CRpc

open Lib Protocol

/-- The completions that the operation of a coroutine can lead to, if all of them fail. -/
def Role.weight : Role → Nat
  | .handler _ => 2
  | .reader => 1
  | .writer => 1

def Handle.weight : Handle → Nat
  | .acceptLoop => 1
  | .session _ role => role.weight

/-! ### One connection -/

namespace Session

variable {flavor : Flavor} {codec : EchoCodec} {t t' : Session} {base : Ops} {op : Sqe}

theorem Ok.close_posts (h : Ok base t) : t.close.posts = t.posts := by
  by_cases hpop : t.writer = .onPop
  · obtain ⟨hwaiter, hitems, _⟩ := h.onPop hpop
    rw [close_waiting hwaiter hpop hitems]
  · rw [close_busy (h.waiter_none hpop)]

/-- A push posts at most one write. -/
theorem Ok.push_posts (h : Ok base t) {data : List UInt8} (hdata : data ≠ []) :
    (t.push data).posts = t.posts ∨ ∃ sqe, (t.push data).posts = t.posts ++ [(.writer, sqe)] := by
  by_cases hpop : t.writer = .onPop
  · obtain ⟨hwaiter, hitems, _⟩ := h.onPop hpop
    rw [push_waiting hwaiter hpop hitems hdata]
    exact Or.inr ⟨_, rfl⟩
  · rw [push_busy (h.waiter_none hpop)]
    exact Or.inl rfl

/-- What a coroutine posts when its operation has failed weighs less than the operation. -/
theorem posts_of_failed {res : Int} {bytes : List UInt8} {role : Role}
    (hran : Live.Resumes flavor codec t op res bytes role t') (hok : Ok ((role, op) :: base) t)
    (hposts : t.posts = []) (hneg : res < 0) :
    (t'.posts.map fun op => op.1.weight).sum < role.weight := by
  cases hran with
  | reader _ =>
      obtain ⟨_, _, _, hrun⟩ := hok.resumeReader
      have hnone : t.endRead.posts = [] := hrun.close_posts.trans hposts
      rw [readDone, if_pos hneg.le, hnone]
      decide
  | writer _ =>
      obtain ⟨f, hwriter, _⟩ := hok.resumeWriter
      rw [writeDone_failed op hwriter hneg.le]
      simp only [sent, hposts]
      decide
  | handler id =>
      -- the handler answers although its timer was cancelled
      obtain ⟨hd, hfind, hrun⟩ := hok.resumeHandler
      simp only [timerDone, hfind]
      rcases hrun.push_posts (codec.response_ne_nil hd.header hd.message) with hnone | ⟨sqe, hone⟩
      · rw [hnone, hposts]
        exact Nat.two_pos
      · rw [hone, hposts]
        simp [Role.weight]

end Session

namespace Server

variable {flavor : Flavor} {codec : EchoCodec} {r : FixedResources} {s s' t : Server}
variable {ops ops' : List (Handle × Sqe)}

/-! ### The operations in flight -/

/-- The completions still to come, if all of them fail. -/
def toCome (ops : List (Handle × Sqe)) : Nat := (ops.map fun op => op.1.weight).sum

theorem toCome_perm (h : ops.Perm ops') : toCome ops = toCome ops' := (h.map _).sum_nat

theorem toCome_append (ops ops' : List (Handle × Sqe)) :
    toCome (ops ++ ops') = toCome ops + toCome ops' := by
  rw [toCome, List.map_append, List.sum_append, toCome, toCome]

theorem toCome_cons (op : Handle × Sqe) (ops : List (Handle × Sqe)) :
    toCome (op :: ops) = op.1.weight + toCome ops := by
  rw [toCome, List.map_cons, List.sum_cons, toCome]

theorem toCome_posted (cid : Nat) (u : Session) :
    toCome (posted cid u) = (u.posts.map fun op => op.1.weight).sum := by
  rw [toCome, posted, List.map_map]
  rfl

theorem Handle.weight_bounds (handle : Handle) : 1 ≤ handle.weight ∧ handle.weight ≤ 2 := by
  cases handle with
  | acceptLoop => exact ⟨le_rfl, by decide⟩
  | session cid role => cases role <;> simp [Handle.weight, Role.weight]

theorem toCome_bounds (ops : List (Handle × Sqe)) :
    ops.length ≤ toCome ops ∧ toCome ops ≤ 2 * ops.length := by
  induction ops with
  | nil => exact ⟨le_rfl, le_rfl⟩
  | cons op ops ih =>
      have hop := Handle.weight_bounds op.1
      rw [toCome_cons, List.length_cons]
      omega

/-- A completion that fails is one of those to come. -/
theorem Handles.toCome_lt {input : Input} {d : Dispatch Handle Handle}
    {l : EventLoop Handle Handle} (h : Handles flavor codec r s input d l t)
    (hcrash : t.crashed = false) (hneg : d.stored < 0) :
    toCome t.loop.ops < toCome s.loop.ops := by
  rw [toCome_perm h.ops, toCome_cons]
  rcases resume_cases h.ran with
    ⟨hd, _, rfl⟩ | ⟨_, _, _, _, rfl⟩ | ⟨cid, role, p, u, hd, hp, hran, rfl⟩
  · rw [acceptDone, if_pos hneg, hd]
    simp [Handle.weight]
  · cases hcrash
  · have hpeer := (h.consistent.peers cid p hp).reached
    rw [hd, opsOf_cons_self] at hpeer
    have hfew := Session.posts_of_failed hran hpeer.ok.session hpeer.ok.posts hneg
    obtain ⟨l', heq, _, _, hops⟩ := submitAll_spec (posted cid u) _ h.loop h.slots hcrash
    have hcome := toCome_perm hops
    rw [toCome_append, toCome_posted] at hcome
    rw [settle, heq]
    simp only [hd, Handle.weight]
    simp only at hcome
    omega

/-! ### A run in which everything fails -/

/-- What a run in which every completion fails has done since `s`. -/
structure Drains (s t : Server) (new : List (Dispatch Handle Handle)) : Prop where
  record : t.loop.dispatched = s.loop.dispatched ++ new
  phase : t.loop.phase ≠ .setup
  bound : (∀ d, d ∈ new → d.stored < 0) → new.length + toCome t.loop.ops ≤ toCome s.loop.ops

theorem drains_step {new : List (Dispatch Handle Handle)} {u : Server} {e : Event}
    (h : t.Ok flavor codec r) (hdrains : Drains s t new)
    (hstep : (machine flavor codec).step t e = some u) (hcrash : u.crashed = false) :
    ∃ new', Drains s u new' := by
  rcases h.history_cases hstep with
    ⟨hdispatched, hops, _, _, hphase⟩ | ⟨hsetup, _⟩ | ⟨input, d, l, v, hran, rfl⟩
  · refine ⟨new, hdispatched.trans hdrains.record, hphase hdrains.phase, fun hneg => ?_⟩
    rw [toCome_perm hops]
    exact hdrains.bound hneg
  · exact absurd hsetup hdrains.phase
  · have hlive := crashed_of_returns hcrash
    obtain ⟨hdispatched, hops, _, _⟩ := (hran.ok hlive).returns_same
    refine ⟨new ++ [d], ?_, hran.phase_ne_setup, fun hneg => ?_⟩
    · rw [hdispatched, hran.dispatched, hdrains.record, List.append_assoc]
    · have hbefore := hdrains.bound fun d' hd' => hneg d' (List.mem_append_left _ hd')
      have hlt := hran.toCome_lt hlive (hneg d (by simp))
      rw [toCome_perm hops, List.length_append, List.length_singleton]
      omega

/--
The drain phase is bounded.  From any state of it on, and indeed from any state in which
`Run` has been entered, as long as every completion that is handled has failed, the
completions handled and the operations still in flight are together at most twice the
operations in flight at first.
-/
theorem drain_bounded {entries : Nat} {listenFd : Int} {es ds : List Event}
    (hrun : (machine flavor codec).exec (init entries listenFd r) es = some s)
    (hentered : s.loop.phase ≠ .setup)
    (hrun' : (machine flavor codec).exec s ds = some t) (hcrash : t.crashed = false)
    (hfailed : ∀ d, d ∈ t.loop.dispatched.drop s.loop.dispatched.length → d.stored < 0) :
    ((t.loop.dispatched.drop s.loop.dispatched.length).length : Int) + t.loop.inFlight ≤
      2 * s.loop.inFlight := by
  obtain ⟨new, hdrains⟩ : ∃ new, Drains s t new := by
    refine Machine.run_induction
      (motive := fun _ t => t.crashed = false → ∃ new, Drains s t new) ?_ ?_ hrun' hcrash
    · exact fun _ => ⟨[], by simp, hentered, fun _ => by simp⟩
    · intro ds t e u ht ih hstep hcrash'
      have hbefore := crashed_of_step hstep
      obtain ⟨new, hdrains⟩ := ih hbefore
      have hok := ok_exec (Machine.exec_append_eq_some.mpr ⟨s, hrun, ht⟩) hbefore
      exact drains_step hok hdrains hstep hcrash'
  rw [hdrains.record, List.drop_left] at hfailed ⊢
  have hbound := hdrains.bound hfailed
  have hs : s.crashed = false := by
    cases ds with
    | nil =>
        simp only [Machine.exec_nil, Option.some.injEq] at hrun'
        rw [hrun', hcrash]
    | cons e ds =>
        obtain ⟨_, hstep, _⟩ := Machine.exec_cons_eq_some.mp hrun'
        exact crashed_of_step hstep
  have hok := ok_exec (Machine.exec_append_eq_some.mpr ⟨s, hrun, hrun'⟩) hcrash
  rw [hok.loop.inFlight_eq_length, (ok_exec hrun hs).loop.inFlight_eq_length]
  have hlow := (toCome_bounds t.loop.ops).1
  have hhigh := (toCome_bounds s.loop.ops).2
  omega

/-- A worker that is stopped while a handler sleeps. -/
def stoppedAsleep : List Event :=
  [.start countingHeap, .loop .run, .loop .test, .loop (.complete 0 5), .loop (.wake 0),
    .fetch (smallInput []), .loop .advance, .loop .test, .loop (.complete 0 12),
    .loop (.wake 0), .fetch (smallInput emptyRequest), .loop .advance, .loop .test, .loop .stop,
    .loop (.wake (-4)), .loop .test, .loop .enterDrain]

/-- Timer, accept, read and the cancel itself complete; the handler goes on to a write. -/
def cancelledAsleep : List Event :=
  [.loop .test, .loop (.complete 1 (-125)), .loop (.complete 0 (-125)), .loop (.complete 0 (-125)),
    .loop (.complete 0 3), .loop (.wake 0), .fetch (smallInput []), .fetch (smallInput []),
    .fetch (smallInput []), .fetch (smallInput []), .loop .advance]

set_option maxRecDepth 4000 in
/-- Three operations are in flight; their completions lead to a write. -/
theorem drain_bounded_asleep :
    ∃ s t, (machine .async protoCodec).exec (init 8 3 smallResources) stoppedAsleep = some s ∧
      s.peers.map (fun p => p.session.handlers.length) = [1] ∧ s.loop.inFlight = 3 ∧
      (machine .async protoCodec).exec s cancelledAsleep = some t ∧ t.loop.inFlight = 1 ∧
      ((t.loop.dispatched.drop s.loop.dispatched.length).length : Int) + t.loop.inFlight ≤
        2 * s.loop.inFlight := by
  have hrun : ((machine .async protoCodec).exec (init 8 3 smallResources) stoppedAsleep).any
      (fun s => s.loop.phase ≠ .setup ∧
        s.peers.map (fun p => p.session.handlers.length) = [1] ∧ s.loop.inFlight = 3 ∧
        ((machine .async protoCodec).exec s cancelledAsleep).any (fun t =>
          t.crashed = false ∧ t.loop.inFlight = 1 ∧
            ∀ d, d ∈ t.loop.dispatched.drop s.loop.dispatched.length → d.stored < 0)) =
      true := by decide
  obtain ⟨s, hs, hstate⟩ := (Option.any_eq_true _ _).mp hrun
  obtain ⟨hentered, hasleep, hbefore, hnext⟩ := of_decide_eq_true hstate
  obtain ⟨t, ht, hend⟩ := (Option.any_eq_true _ _).mp hnext
  obtain ⟨hcrash, hafter, hfailed⟩ := of_decide_eq_true hend
  exact ⟨s, t, hs, hasleep, hbefore, ht, hafter, drain_bounded hs hentered ht hcrash hfailed⟩

end Server

end CRpc
