import CRpc.ControlFlow
import CRpc.ServerProjection

/-!
# A stop request

`IoContext::Stop` is called from another thread, for example by the signal handler
`HandleSigInt`, at any moment after the construction of the context.  For this
module the thread of `main` is cut once more: the main loop of `Run` first reads
`running_` (`test`) and then calls `io_uring_submit_and_wait_timeout` (`wait`), and
`Stop` can fall between the two.

* `atomic_exec`: for everything else the two are one step, as in `Server.machine`.
* `stop_honoured_iff`: a stop request is kept if and only if `Run` has already
  assigned `running_`.
* `stop_before_run`: a request made before is overwritten by `running_ = true`.
-/

namespace CRpc

open Lib

universe u v

namespace EventLoop

variable {H : Type u} {S : Type v}

theorem Goes.entered {l l' : EventLoop H S} {p q : Phase} (h : Goes l l' p q)
    (hq : q ≠ .setup) : l'.phase ≠ .setup ∧ (l'.running = true → l.running = true) := by
  rw [h.target, h.running]
  exact ⟨hq, id⟩

variable [DecidableEq S]

/-- Once `Run` has assigned `running_`, nothing sets it again. -/
theorem entered_step {l l' : EventLoop H S} {e : Event H S} (hentered : l.phase ≠ .setup)
    (hstep : machine.step l e = some l') :
    l'.phase ≠ .setup ∧ (l'.running = true → l.running = true) := by
  cases flow_of_step hstep with
  | submit hphase hrunning =>
      rw [hphase, hrunning]
      exact ⟨hentered, id⟩
  | complete hphase hrunning =>
      rw [hphase, hrunning]
      exact ⟨hentered, id⟩
  | stop hphase hrunning =>
      rw [hphase, hrunning]
      exact ⟨hentered, fun h => absurd h Bool.false_ne_true⟩
  | run hsource => exact absurd hsource hentered
  | resume _ htarget hrunning =>
      rw [htarget, hrunning]
      exact ⟨by simp, id⟩
  | wait h => exact h.entered (by simp)
  | leave h => exact h.entered (by simp)
  | drainWait h => exact h.entered (by simp)
  | drained h => exact h.entered (by simp)
  | retry h => exact h.entered (by simp)
  | failed h => exact h.entered (by simp)
  | drainFailed h => exact h.entered (by simp)
  | woken h => exact h.entered (by simp)
  | skip h => exact h.entered (by simp)
  | fault h => exact h.entered (by simp)
  | resumeReturns h => exact h.entered (by simp)
  | advance h => exact h.entered (by simp)
  | cancel h => exact h.entered (by simp)
  | idle h => exact h.entered (by simp)

theorem entered_exec {l l' : EventLoop H S} {es : List (Event H S)}
    (hrun : machine.exec l es = some l') (hentered : l.phase ≠ .setup) :
    l'.phase ≠ .setup ∧ (l'.running = true → l.running = true) := by
  refine Machine.exec_invariant
    (I := fun m => m.phase ≠ .setup ∧ (m.running = true → l.running = true)) ?_ hrun
    ⟨hentered, id⟩
  rintro m e m' ⟨hm, hrunning⟩ hstep
  obtain ⟨hm', hrunning'⟩ := entered_step hm hstep
  exact ⟨hm', fun h => hrunning (hrunning' h)⟩

end EventLoop

namespace Server

variable {r : FixedResources} {s s' : Server} {flavor : Flavor} {codec : EchoCodec}

theorem loop_step {e : EventLoop.Event Handle Handle}
    (hstep : (machine flavor codec).step s (.loop e) = some s') :
    ∃ l, EventLoop.machine.step s.loop e = some l ∧ s' = { s with loop := l } := by
  simp only [machine, Option.ite_none_left_eq_some, Option.ite_none_right_eq_some,
    Option.map_eq_some_iff] at hstep
  obtain ⟨_, _, l, hl, rfl⟩ := hstep
  exact ⟨l, hl, rfl⟩

/-- Nothing that happens before `Run` ends the process. -/
theorem crashed_of_setup {entries : Nat} {listenFd : Int} {es : List Event} {t : Server}
    (hrun : (machine flavor codec).exec (init entries listenFd r) es = some t)
    (hsetup : t.loop.phase = .setup) : t.crashed = false := by
  refine Machine.run_induction
    (motive := fun _ t => t.loop.phase = .setup → t.crashed = false) (fun _ => rfl) ?_ hrun
    hsetup
  intro es s e s' hs _ hstep hsetup'
  have hlive : s.crashed = false := crashed_of_step hstep
  by_cases hentered : s.loop.phase = .setup
  · cases e with
    | start heap =>
        simp only [machine, hlive, Server.start, Bool.false_eq_true, if_false,
          Option.ite_none_right_eq_some, Option.some.injEq] at hstep
        obtain ⟨_, rfl⟩ := hstep
        rw [acceptLoop]
        split <;> rfl
    | stop =>
        simp only [machine, hlive, Bool.false_eq_true, if_false, Option.some.injEq] at hstep
        rw [← hstep]
        exact hlive
    | fetch input =>
        simp only [machine, hlive, Server.fetch, EventLoop.fetch, hentered] at hstep
        cases hstep
    | loop e =>
        obtain ⟨l, _, rfl⟩ := loop_step hstep
        exact hlive
  · obtain ⟨ds, hds⟩ := (ok_exec hs hlive).step_exec hstep
    exact absurd hsetup' (EventLoop.entered_exec hds hentered).1

end Server

/-- A worker thread whose main loop reads `running_` and waits in two steps. -/
structure Worker where
  server : Server
  /-- The condition of the main loop has read `true`, and the wait has not begun. -/
  passed : Bool

namespace Worker

/-- What can happen to a worker thread. -/
inductive Event where
  /-- `while (running_)` of the main loop reads `running_`. -/
  | test
  /-- The main loop calls `io_uring_submit_and_wait_timeout`. -/
  | wait
  /-- Another step of the thread, or a step of the kernel, or `IoContext::Stop`. -/
  | server (e : Server.Event)

def init (entries : Nat) (listenFd : Int) (resources : FixedResources) : Worker :=
  { server := Server.init entries listenFd resources, passed := false }

/-- The wait of the main loop begins. -/
def beginWait (s : Server) : Server :=
  { s with loop := { s.loop.flush with phase := .waiting false } }

/--
`IoContext::Stop` and the kernel act at any moment.  The thread calls
`server.Start()` before `ctx->Run()`, and does nothing between the condition of the
main loop and its wait.
-/
def canTake (x : Worker) : Server.Event → Bool
  | .loop .stop => true
  | .loop (.complete _ _) => true
  | .loop .run => !x.passed && x.server.accept ≠ .notStarted
  | .loop .test => !x.passed && x.server.loop.phase ≠ .test false
  | _ => !x.passed

/-- One worker under an arbitrary kernel and arbitrary calls of `IoContext::Stop`. -/
def machine (flavor : Flavor) (codec : EchoCodec) : Machine Worker Event where
  step x
    | .test =>
        if x.passed = false ∧ x.server.crashed = false ∧ x.server.loop.phase = .test false then
          if x.server.loop.running then some { x with passed := true }
          else
            ((Server.machine flavor codec).step x.server (.loop .test)).map fun s =>
              { x with server := s }
        else none
    | .wait => if x.passed then some { server := beginWait x.server, passed := false } else none
    | .server e =>
        if x.canTake e then
          ((Server.machine flavor codec).step x.server e).map fun s => { x with server := s }
        else none

/-- A call of `IoContext::Stop`. -/
def stopCall : Event := .server (.loop .stop)

def isWait : Event → Bool
  | .wait => true
  | _ => false

variable {flavor : Flavor} {codec : EchoCodec} {r : FixedResources}
variable {x y : Worker} {entries : Nat} {listenFd : Int} {es : List Event}

/-! ### What one step can do -/

/-- Between the condition and the wait only `IoContext::Stop` and the kernel act. -/
theorem canTake_of_passed {e : Server.Event} (hcan : x.canTake e = true)
    (hpassed : x.passed = true) :
    ∃ d, e = .loop d ∧ (d = .stop ∨ ∃ i res, d = .complete i res) := by
  unfold canTake at hcan
  split at hcan
  · exact ⟨_, rfl, Or.inl rfl⟩
  · exact ⟨_, rfl, Or.inr ⟨_, _, rfl⟩⟩
  all_goals simp [hpassed] at hcan

theorem step_cases {e : Event} (hstep : (machine flavor codec).step x e = some y) :
    (e = .test ∧ x.passed = false ∧ x.server.crashed = false ∧
      x.server.loop.phase = .test false ∧ x.server.loop.running = true ∧
      y = { x with passed := true }) ∨
    (e = .wait ∧ x.passed = true ∧ y = { server := beginWait x.server, passed := false }) ∨
    (∃ d s, isWait e = false ∧
      (x.passed = true → ∃ d', d = .loop d' ∧ (d' = .stop ∨ ∃ i res, d' = .complete i res)) ∧
      (Server.machine flavor codec).step x.server d = some s ∧ y = { x with server := s }) := by
  cases e with
  | test =>
      simp only [machine, Option.ite_none_right_eq_some] at hstep
      obtain ⟨⟨hpassed, hlive, hphase⟩, hstep⟩ := hstep
      split at hstep
      next hrunning =>
        cases hstep
        exact Or.inl ⟨rfl, hpassed, hlive, hphase, hrunning, rfl⟩
      next =>
        obtain ⟨s, hs, rfl⟩ := Option.map_eq_some_iff.mp hstep
        refine Or.inr (Or.inr ⟨_, s, rfl, fun h => ?_, hs, rfl⟩)
        rw [hpassed] at h
        cases h
  | wait =>
      simp only [machine, Option.ite_none_right_eq_some, Option.some.injEq] at hstep
      obtain ⟨hpassed, rfl⟩ := hstep
      exact Or.inr (Or.inl ⟨rfl, hpassed, rfl⟩)
  | server d =>
      simp only [machine, Option.ite_none_right_eq_some, Option.map_eq_some_iff] at hstep
      obtain ⟨hcan, s, hs, rfl⟩ := hstep
      exact Or.inr (Or.inr ⟨d, s, rfl, canTake_of_passed hcan, hs, rfl⟩)

/-- Between the condition and the wait the thread stays where it is. -/
theorem passed_exec (hrun : (machine flavor codec).exec (init entries listenFd r) es = some x)
    (hpassed : x.passed = true) :
    x.server.crashed = false ∧ x.server.loop.phase = .test false := by
  refine Machine.exec_invariant
    (I := fun x => x.passed = true → x.server.crashed = false ∧
      x.server.loop.phase = .test false) ?_ hrun (fun h => by cases h) hpassed
  intro x e y hx hstep hy
  rcases step_cases hstep with
    ⟨_, _, hlive, hphase, _, rfl⟩ | ⟨_, _, rfl⟩ | ⟨d, s, _, hd, hs, rfl⟩
  · exact ⟨hlive, hphase⟩
  · cases hy
  · obtain ⟨hlive, hphase⟩ := hx hy
    obtain ⟨d', rfl, hd'⟩ := hd hy
    obtain ⟨l, hl, rfl⟩ := Server.loop_step hs
    refine ⟨hlive, ?_⟩
    rw [← hphase]
    rcases hd' with rfl | ⟨i, res, rfl⟩
    · cases EventLoop.flow_of_step hl with
      | stop hkept => exact hkept
    · cases EventLoop.flow_of_step hl with
      | complete hkept => exact hkept

/-! ### The condition and the wait as one step -/

/-- A passed condition counts as the beginning of the wait. -/
def atomic (x : Worker) : Server :=
  if x.passed then beginWait x.server else x.server

theorem beginWait_step {s : Server} (hlive : s.crashed = false)
    (hphase : s.loop.phase = .test false) (hrunning : s.loop.running = true) :
    (Server.machine flavor codec).step s (.loop .test) = some (beginWait s) := by
  simp [Server.machine, Server.isOwn, EventLoop.machine, EventLoop.test, beginWait, hlive,
    hphase, hrunning]

/-- The wait may begin before `IoContext::Stop` or a completion instead of after it. -/
theorem beginWait_commutes {s s' : Server} {d : EventLoop.Event Handle Handle}
    (hd : d = .stop ∨ ∃ i res, d = .complete i res)
    (hstep : (Server.machine flavor codec).step s (.loop d) = some s') :
    (Server.machine flavor codec).step (beginWait s) (.loop d) = some (beginWait s') := by
  have hlive := Server.crashed_of_step hstep
  obtain ⟨l, hl, rfl⟩ := Server.loop_step hstep
  rcases hd with rfl | ⟨i, res, rfl⟩
  · cases hl
    simp [Server.machine, Server.isOwn, EventLoop.machine, EventLoop.stop, EventLoop.flush,
      beginWait, hlive]
  · simp only [EventLoop.machine, EventLoop.complete] at hl
    split at hl
    next e he =>
      cases hl
      have hlt : i < s.loop.kernel.length := (List.getElem?_eq_some_iff.mp he).1
      simp [Server.machine, Server.isOwn, EventLoop.machine, EventLoop.complete,
        EventLoop.flush, beginWait, hlive, List.getElem?_append_left hlt, he,
        List.eraseIdx_append_of_lt_length hlt]
    next => cases hl

/-- A run of a worker is a run of `Server.machine`. -/
theorem atomic_exec (hrun : (machine flavor codec).exec (init entries listenFd r) es = some x) :
    ∃ ds, (Server.machine flavor codec).exec (Server.init entries listenFd r) ds =
      some x.atomic := by
  refine Machine.exec_simulation (f := atomic) ?_ hrun
  intro es x e y _ hstep
  rcases step_cases hstep with
    ⟨_, hpassed, hlive, hphase, hrunning, rfl⟩ | ⟨_, hpassed, rfl⟩ | ⟨d, s, _, hd, hs, rfl⟩
  · refine ⟨[.loop .test], Machine.exec_cons_eq_some.mpr ⟨_, ?_, rfl⟩⟩
    simpa [atomic, hpassed] using beginWait_step hlive hphase hrunning
  · refine ⟨[], ?_⟩
    simp [atomic, hpassed]
  · refine ⟨[d], Machine.exec_cons_eq_some.mpr ⟨_, ?_, rfl⟩⟩
    cases hpassed : x.passed with
    | false => simpa [atomic, hpassed] using hs
    | true =>
        obtain ⟨d', rfl, hd'⟩ := hd hpassed
        simpa [atomic, hpassed] using beginWait_commutes hd' hs

theorem server_exec (hrun : (machine flavor codec).exec (init entries listenFd r) es = some x)
    (hpassed : x.passed = false) :
    ∃ ds, (Server.machine flavor codec).exec (Server.init entries listenFd r) ds =
      some x.server := by
  have hatomic : x.atomic = x.server := by simp [atomic, hpassed]
  exact hatomic ▸ atomic_exec hrun

/-! ### After a stop request -/

/-- What was said about the event loop holds in the worker. -/
theorem entered_step (hrun : (machine flavor codec).exec (init entries listenFd r) es = some x)
    (hentered : x.server.loop.phase ≠ .setup) {e : Event}
    (hstep : (machine flavor codec).step x e = some y) :
    y.server.loop.phase ≠ .setup ∧
      (y.server.loop.running = true → x.server.loop.running = true) := by
  rcases step_cases hstep with ⟨_, _, _, _, _, rfl⟩ | ⟨_, _, rfl⟩ | ⟨d, s, _, hd, hs, rfl⟩
  · exact ⟨hentered, id⟩
  · exact ⟨by simp [beginWait], id⟩
  · cases hpassed : x.passed with
    | false =>
        obtain ⟨ds, hds⟩ := server_exec hrun hpassed
        have hok := Server.ok_exec hds (Server.crashed_of_step hs)
        obtain ⟨es', hloop⟩ := hok.step_exec hs
        exact EventLoop.entered_exec hloop hentered
    | true =>
        obtain ⟨d', rfl, _⟩ := hd hpassed
        obtain ⟨l, hl, rfl⟩ := Server.loop_step hs
        exact EventLoop.entered_step hentered hl

theorem stop_step (hlive : x.server.crashed = false) :
    (machine flavor codec).step x stopCall =
      some { x with server := { x.server with loop := x.server.loop.stop } } := by
  simp [machine, stopCall, canTake, Server.machine, Server.isOwn, EventLoop.machine, hlive]

/-- `IoContext::Stop` after `Run` has assigned `running_`: one wait at most begins. -/
theorem waits_after_stop
    (hrun : (machine flavor codec).exec (init entries listenFd r) es = some x)
    (hentered : x.server.loop.phase ≠ .setup) {ds : List Event}
    (hafter : (machine flavor codec).exec x (stopCall :: ds) = some y) :
    ds.countP isWait + y.passed.toNat ≤ x.passed.toNat := by
  obtain ⟨z, hz, hds⟩ := Machine.exec_cons_eq_some.mp hafter
  have hlive : x.server.crashed = false := by
    rw [stopCall] at hz
    rcases step_cases hz with ⟨h, _⟩ | ⟨h, _⟩ | ⟨_, _, _, _, hs, _⟩
    · cases h
    · cases h
    · exact Server.crashed_of_step hs
  rw [stop_step hlive, Option.some.injEq] at hz
  subst hz
  -- the request stands, and no test passes any more
  refine (Machine.run_induction
    (motive := fun ds y => y.server.loop.phase ≠ .setup ∧ y.server.loop.running = false ∧
      ds.countP isWait + y.passed.toNat ≤ x.passed.toNat) ?_ ?_ hds).2.2
  · exact ⟨hentered, rfl, by simp⟩
  · rintro ds m e m' hm ⟨hphase, hrunning, hcount⟩ hstep
    have hreached : (machine flavor codec).exec (init entries listenFd r)
        (es ++ stopCall :: ds) = some m :=
      Machine.exec_append_eq_some.mpr
        ⟨x, hrun, Machine.exec_cons_eq_some.mpr ⟨_, stop_step hlive, hm⟩⟩
    obtain ⟨hphase', hrunning'⟩ := entered_step hreached hphase hstep
    have hstopped : m'.server.loop.running = false := by
      rw [← Bool.not_eq_true] at hrunning ⊢
      exact fun h => hrunning (hrunning' h)
    refine ⟨hphase', hstopped, ?_⟩
    rw [List.countP_append, List.countP_singleton]
    rcases step_cases hstep with
      ⟨_, _, _, _, hpass, _⟩ | ⟨rfl, hpassed, rfl⟩ | ⟨d, s, hwait, _, _, rfl⟩
    · rw [hrunning] at hpass
      cases hpass
    · simpa [isWait, hpassed] using hcount
    · simpa [hwait] using hcount

/--
A call of `IoContext::Stop` now is honoured: whatever happens next, the main loop
begins no wait except the one whose condition has already been read.
-/
def StopHonoured (flavor : Flavor) (codec : EchoCodec) (x : Worker) : Prop :=
  ∀ ds y, (machine flavor codec).exec x (stopCall :: ds) = some y →
    ds.countP isWait ≤ x.passed.toNat

/-- After a call of `IoContext::Stop` now the main loop begins no wait at all. -/
def NoWaitAfterStop (flavor : Flavor) (codec : EchoCodec) (x : Worker) : Prop :=
  ∀ ds y, (machine flavor codec).exec x (stopCall :: ds) = some y → ds.countP isWait = 0

/-- `Run` assigns `running_`, reads it back and waits. -/
theorem run_test_wait (flavor : Flavor) (codec : EchoCodec) (hpassed : x.passed = false)
    (hlive : x.server.crashed = false) (hsetup : x.server.loop.phase = .setup)
    (haccept : x.server.accept ≠ .notStarted) :
    ∃ y, (machine flavor codec).exec x [.server (.loop .run), .test, .wait] = some y := by
  have hrun : (machine flavor codec).step x (.server (.loop .run)) =
      some { x with server := { x.server with
        loop := { x.server.loop with running := true, phase := .test false } } } := by
    simp [machine, canTake, Server.machine, Server.isOwn, EventLoop.machine, EventLoop.run,
      hpassed, hlive, hsetup, haccept]
  simp only [Machine.exec, hrun, Option.bind_some]
  simp [machine, hpassed, hlive]

/-- Before `Run` a wait is still to come, whatever `running_` is. -/
theorem wait_of_setup (flavor : Flavor) (codec : EchoCodec) (hpassed : x.passed = false)
    (hlive : x.server.crashed = false) (hsetup : x.server.loop.phase = .setup) :
    ∃ ds y, (machine flavor codec).exec x ds = some y ∧ 0 < ds.countP isWait := by
  by_cases haccept : x.server.accept = .notStarted
  · have hstart : (machine flavor codec).step x (.server (.start countingHeap)) =
        some { x with server :=
          ({ x.server with running := true } : Server).acceptLoop countingHeap } := by
      simp [machine, canTake, Server.machine, Server.start, hpassed, hlive, hsetup, haccept]
    have hloop : ∃ l a, ({ x.server with running := true } : Server).acceptLoop countingHeap =
        { x.server with running := true, loop := l, accept := a } ∧
        l.phase = .setup ∧ a ≠ .notStarted := by
      rw [Server.acceptLoop]
      split
      · exact ⟨_, _, rfl, hsetup, by simp⟩
      · exact ⟨_, _, rfl, hsetup, by simp⟩
    obtain ⟨l, a, heq, hl, ha⟩ := hloop
    rw [heq] at hstart
    obtain ⟨y, hy⟩ := run_test_wait flavor codec
      (x := { x with server := { x.server with running := true, loop := l, accept := a } })
      hpassed hlive hl ha
    exact ⟨_, y, Machine.exec_cons_eq_some.mpr ⟨_, hstart, hy⟩, by simp [isWait]⟩
  · obtain ⟨y, hy⟩ := run_test_wait flavor codec hpassed hlive hsetup haccept
    exact ⟨_, y, hy, by simp [isWait]⟩

/-- A request made before `Run` assigns `running_` is overwritten. -/
theorem wait_after_early_stop
    (hrun : (machine flavor codec).exec (init entries listenFd r) es = some x)
    (hsetup : x.server.loop.phase = .setup) :
    x.passed = false ∧ ∃ ds y, (machine flavor codec).exec x (stopCall :: ds) = some y ∧
      0 < ds.countP isWait := by
  have hpassed : x.passed = false := by
    rw [← Bool.not_eq_true]
    intro hpassed
    have hphase := (passed_exec hrun hpassed).2
    rw [hsetup] at hphase
    cases hphase
  obtain ⟨es', hserver⟩ := server_exec hrun hpassed
  have hlive := Server.crashed_of_setup hserver hsetup
  obtain ⟨ds, y, hds, hwait⟩ := wait_of_setup flavor codec
    (x := { x with server := { x.server with loop := x.server.loop.stop } })
    hpassed hlive hsetup
  exact ⟨hpassed, ds, y, Machine.exec_cons_eq_some.mpr ⟨_, stop_step hlive, hds⟩, hwait⟩

/-- A request between the condition and the wait does not keep the wait from beginning. -/
theorem wait_after_late_stop
    (hrun : (machine flavor codec).exec (init entries listenFd r) es = some x)
    (hpassed : x.passed = true) :
    ∃ y, (machine flavor codec).exec x [stopCall, .wait] = some y := by
  have hlive := (passed_exec hrun hpassed).1
  simp only [Machine.exec, stop_step hlive, Option.bind_some]
  simp [machine, hpassed]

/--
A stop request made in a reachable state is kept if and only if `Run` has already
assigned `running_`: then the main loop begins no wait except the one whose
condition has been read.  It begins none at all if and only if, besides, the request
does not fall between the condition and the wait.
-/
theorem stop_honoured_iff
    (hrun : (machine flavor codec).exec (init entries listenFd r) es = some x) :
    (x.StopHonoured flavor codec ↔ x.server.loop.phase ≠ .setup) ∧
      (x.NoWaitAfterStop flavor codec ↔
        x.server.loop.phase ≠ .setup ∧ x.passed = false) := by
  refine ⟨⟨?_, ?_⟩, ⟨?_, ?_⟩⟩
  · intro hhonoured hsetup
    obtain ⟨hpassed, ds, y, hds, hwait⟩ := wait_after_early_stop hrun hsetup
    have hbound := hhonoured ds y hds
    rw [hpassed, Bool.toNat_false] at hbound
    omega
  · intro hentered ds y hds
    have hbound := waits_after_stop hrun hentered hds
    omega
  · intro hnone
    refine ⟨?_, ?_⟩
    · intro hsetup
      obtain ⟨_, ds, y, hds, hwait⟩ := wait_after_early_stop hrun hsetup
      exact absurd (hnone ds y hds) (ne_of_gt hwait)
    · rw [← Bool.not_eq_true]
      intro hpassed
      obtain ⟨y, hy⟩ := wait_after_late_stop hrun hpassed
      exact absurd (hnone _ y hy) (by simp [isWait])
  · rintro ⟨hentered, hpassed⟩ ds y hds
    have hbound := waits_after_stop hrun hentered hds
    rw [hpassed, Bool.toNat_false] at hbound
    omega

/-- A request during the first wait is kept. -/
theorem stop_honoured_first_wait :
    ∃ x, (machine .async protoCodec).exec (init 8 3 smallResources)
        [.server (.start countingHeap), .server (.loop .run), .test, .wait] = some x ∧
      x.StopHonoured .async protoCodec ∧ x.NoWaitAfterStop .async protoCodec := by
  have hrun : ((machine .async protoCodec).exec (init 8 3 smallResources)
      [.server (.start countingHeap), .server (.loop .run), .test, .wait]).any
        (fun x => x.server.loop.phase = .waiting false ∧ x.passed = false) = true := by
    decide
  obtain ⟨x, hx, hstate⟩ := (Option.any_eq_true _ _).mp hrun
  obtain ⟨hphase, hpassed⟩ := of_decide_eq_true hstate
  obtain ⟨hhonoured, hnone⟩ := stop_honoured_iff hx
  exact ⟨x, hx, hhonoured.mpr (by simp [hphase]), hnone.mpr ⟨by simp [hphase], hpassed⟩⟩

/--
`server.Start()`, then the signal, then `ctx->Run()`: `running_ = true` overwrites the
request, and the main loop waits as if nothing had happened.
-/
theorem stop_before_run :
    ∃ x y, (machine .async protoCodec).exec (init 8 3 smallResources)
        [.server (.start countingHeap)] = some x ∧
      (machine .async protoCodec).exec x
        [stopCall, .server (.loop .run), .test, .wait] = some y ∧
      y.server.loop.phase = .waiting false ∧ y.server.loop.running = true ∧
      ¬ x.StopHonoured .async protoCodec := by
  have hstart : ((machine .async protoCodec).exec (init 8 3 smallResources)
      [.server (.start countingHeap)]).any
        (fun x => x.passed = false ∧ ((machine .async protoCodec).exec x
          [stopCall, .server (.loop .run), .test, .wait]).any
            (fun y => y.server.loop.phase = .waiting false ∧
              y.server.loop.running = true)) = true := by
    decide
  obtain ⟨x, hx, hrest⟩ := (Option.any_eq_true _ _).mp hstart
  obtain ⟨hpassed, hrest⟩ := of_decide_eq_true hrest
  obtain ⟨y, hy, hstate⟩ := (Option.any_eq_true _ _).mp hrest
  obtain ⟨hphase, hrunning⟩ := of_decide_eq_true hstate
  refine ⟨x, y, hx, hy, hphase, hrunning, ?_⟩
  intro hhonoured
  have hbound := hhonoured _ y hy
  rw [hpassed] at hbound
  exact absurd hbound (by decide)

end Worker

end CRpc
