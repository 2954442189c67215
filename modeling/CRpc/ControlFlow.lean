import CRpc.EventLoop

/-!
# The control flow of `Run`

`Flow` lists the edges of `IoContext::Run`: from which phase a step goes to which,
under which condition, and what it does to `running_` and `in_flight_`.  The rings,
the request pool and the result slots do not occur.  `flow_of_step` says that
`EventLoop.machine` follows these edges; results about the phases of `Run` are case
analyses over `Flow`.
-/

namespace CRpc

open Lib

universe u v

namespace EventLoop

variable {H : Type u} {S : Type v}

/-- A step from the phase `p` to the phase `q` that only moves the thread of the loop. -/
structure Goes (l l' : EventLoop H S) (p q : Phase) : Prop where
  source : l.phase = p
  target : l'.phase = q
  running : l'.running = l.running
  inFlight : l'.inFlight = l.inFlight

/-- The edges of `Run`, and the events that come from outside. -/
inductive Flow (l l' : EventLoop H S) : Event H S → Prop
  | submit {op : Sqe} {handle : H} {result : S} {fresh : Nat}
      (hphase : l'.phase = l.phase) (hrunning : l'.running = l.running) :
      Flow l l' (.submit op handle result fresh)
  | complete {i : Nat} {res : Int} (hphase : l'.phase = l.phase)
      (hrunning : l'.running = l.running) (hcount : l'.inFlight = l.inFlight) :
      Flow l l' (.complete i res)
  | stop (hphase : l'.phase = l.phase) (hrunning : l'.running = false)
      (hcount : l'.inFlight = l.inFlight) : Flow l l' .stop
  | run (hsource : l.phase = .setup) (htarget : l'.phase = .test false)
      (hrunning : l'.running = true) : Flow l l' .run
  | wait (h : Goes l l' (.test false) (.waiting false)) (hrunning : l.running = true) :
      Flow l l' .test
  | leave (h : Goes l l' (.test false) .drainEntry) (hrunning : l.running = false) :
      Flow l l' .test
  | drainWait (h : Goes l l' (.test true) (.waiting true)) (hpos : 0 < l.inFlight) :
      Flow l l' .test
  | drained (h : Goes l l' (.test true) .returned) (hzero : ¬ 0 < l.inFlight) :
      Flow l l' .test
  | retry {ret : Int} (h : Goes l l' (.waiting false) (.test false)) (hneg : ret < 0)
      (htransient : Transient ret) : Flow l l' (.wake ret)
  | failed {ret : Int} (h : Goes l l' (.waiting false) .drainEntry) (hneg : ret < 0)
      (htransient : ¬ Transient ret) : Flow l l' (.wake ret)
  | drainFailed {ret : Int} (h : Goes l l' (.waiting true) .returned) (hneg : ret < 0) :
      Flow l l' (.wake ret)
  | woken {ret : Int} {drain : Bool} (h : Goes l l' (.waiting drain) (.batch drain 0))
      (hok : ¬ ret < 0) : Flow l l' (.wake ret)
  | skip {drain : Bool} {count : Nat}
      (h : Goes l l' (.batch drain count) (.batch drain (count + 1))) : Flow l l' .fetch
  | resume {drain : Bool} {count : Nat} (hsource : l.phase = .batch drain count)
      (htarget : l'.phase = .resumed drain count) (hrunning : l'.running = l.running) :
      Flow l l' .fetch
  | fault {drain : Bool} {count : Nat} (h : Goes l l' (.batch drain count) .fault) :
      Flow l l' .fetch
  | resumeReturns {drain : Bool} {count : Nat}
      (h : Goes l l' (.resumed drain count) (.batch drain (count + 1))) :
      Flow l l' .resumeReturns
  | advance {drain : Bool} {count : Nat}
      (h : Goes l l' (.batch drain count) (.test drain)) : Flow l l' .advance
  | cancel (h : Goes l l' .drainEntry (.test true)) (hpos : 0 < l.inFlight) :
      Flow l l' .enterDrain
  | idle (h : Goes l l' .drainEntry .returned) (hzero : ¬ 0 < l.inFlight) :
      Flow l l' .enterDrain

theorem test_flow {l l' : EventLoop H S} (hstep : l.test = some l') : Flow l l' .test := by
  simp only [EventLoop.test] at hstep
  split at hstep
  next hphase =>
    split at hstep
    next hrunning =>
      cases hstep
      exact .wait ⟨hphase, rfl, rfl, rfl⟩ hrunning
    next hrunning =>
      cases hstep
      exact .leave ⟨hphase, rfl, rfl, rfl⟩ ((Bool.not_eq_true _).mp hrunning)
  next hphase =>
    split at hstep
    next hpos =>
      cases hstep
      exact .drainWait ⟨hphase, rfl, rfl, rfl⟩ hpos
    next hzero =>
      cases hstep
      exact .drained ⟨hphase, rfl, rfl, rfl⟩ hzero
  next => cases hstep

theorem wake_flow {l l' : EventLoop H S} {ret : Int} (hstep : l.wake ret = some l') :
    Flow l l' (.wake ret) := by
  simp only [EventLoop.wake] at hstep
  split at hstep
  next hphase =>
    split at hstep
    next hneg =>
      split at hstep
      next htransient =>
        cases hstep
        exact .retry ⟨hphase, rfl, rfl, rfl⟩ hneg htransient
      next htransient =>
        cases hstep
        exact .failed ⟨hphase, rfl, rfl, rfl⟩ hneg htransient
    next hok =>
      cases hstep
      exact .woken ⟨hphase, rfl, rfl, rfl⟩ hok
  next hphase =>
    split at hstep
    next hneg =>
      cases hstep
      exact .drainFailed ⟨hphase, rfl, rfl, rfl⟩ hneg
    next hok =>
      cases hstep
      exact .woken ⟨hphase, rfl, rfl, rfl⟩ hok
  next => cases hstep

theorem resumeReturns_flow {l l' : EventLoop H S} (hstep : l.resumeReturns = some l') :
    Flow l l' .resumeReturns := by
  simp only [EventLoop.resumeReturns] at hstep
  split at hstep
  next hphase =>
    cases hstep
    exact .resumeReturns ⟨hphase, rfl, rfl, rfl⟩
  next => cases hstep

theorem advance_flow {l l' : EventLoop H S} (hstep : l.advance = some l') :
    Flow l l' .advance := by
  simp only [EventLoop.advance] at hstep
  split at hstep
  next hphase =>
    split at hstep
    · cases hstep
      exact .advance ⟨hphase, rfl, rfl, rfl⟩
    · cases hstep
  next => cases hstep

theorem enterDrain_flow {l l' : EventLoop H S} (hstep : l.enterDrain = some l') :
    Flow l l' .enterDrain := by
  simp only [EventLoop.enterDrain] at hstep
  split at hstep
  next hphase =>
    split at hstep
    next hpos =>
      split at hstep
      · cases hstep
        exact .cancel ⟨hphase, rfl, rfl, rfl⟩ hpos
      · cases hstep
        exact .cancel ⟨hphase, rfl, rfl, rfl⟩ hpos
    next hzero =>
      cases hstep
      exact .idle ⟨hphase, rfl, rfl, rfl⟩ hzero
  next => cases hstep

variable [DecidableEq S]

theorem fetch_flow {l l' : EventLoop H S} (hstep : l.fetch = some l') : Flow l l' .fetch := by
  simp only [EventLoop.fetch] at hstep
  split at hstep
  next hphase =>
    split at hstep
    next =>
      split at hstep
      · cases hstep
        rw [EventLoop.dispatch]
        split
        · exact .resume hphase rfl rfl
        · exact .fault ⟨hphase, rfl, rfl, rfl⟩
      · cases hstep
        exact .skip ⟨hphase, rfl, rfl, rfl⟩
    next => cases hstep
  next => cases hstep

/-- Every step of the event loop follows an edge of `Run`, or comes from outside. -/
theorem flow_of_step {l l' : EventLoop H S} {e : Event H S}
    (hstep : machine.step l e = some l') : Flow l l' e := by
  cases e with
  | submit op handle result fresh =>
      simp only [machine, Option.ite_none_right_eq_some, Option.some.injEq] at hstep
      obtain ⟨_, rfl⟩ := hstep
      exact .submit rfl rfl
  | run =>
      simp only [machine, EventLoop.run] at hstep
      split at hstep
      next hphase =>
        cases hstep
        exact .run hphase rfl rfl
      next => cases hstep
  | stop =>
      cases hstep
      exact .stop rfl rfl rfl
  | complete i res =>
      simp only [machine, EventLoop.complete] at hstep
      split at hstep
      · cases hstep
        exact .complete rfl rfl rfl
      · cases hstep
  | test => exact test_flow hstep
  | wake ret => exact wake_flow hstep
  | fetch => exact fetch_flow hstep
  | resumeReturns => exact resumeReturns_flow hstep
  | advance => exact advance_flow hstep
  | enterDrain => exact enterDrain_flow hstep

end EventLoop

end CRpc
