import CRpc.ControlFlow
import CRpc.ServerInvariant

/-!
# Shutdown

When `Run` returns with `in_flight_ = 0`, every coroutine has ended and every
registered buffer and file slot is back in its pool (`Ok.drained`).

The drain phase of `Run` has one more exit: it breaks on every negative result of
the wait, also on `-EINTR` and `-ETIME`, on which the main loop continues.
`shutdown_drains_iff` says that this exit is the only flaw: a worker whose `Run`
has returned is drained if and only if no wait of the drain phase failed.
`shutdown_interrupted` is a run that leaves a connection behind.
-/

namespace CRpc

open Lib

universe u v

namespace EventLoop

variable {H : Type u} {S : Type v}

/-- The wait of the drain phase returns an error. -/
def Interrupted (l : EventLoop H S) (e : Event H S) : Prop :=
  l.phase = .waiting true ∧ ∃ ret, ret < 0 ∧ e = .wake ret

/-- What the phase says about the operations; `clean` says that no drain was interrupted. -/
structure Account (l : EventLoop H S) (clean : Prop) : Prop where
  returned : l.phase = .returned → (l.inFlight = 0 ↔ clean)
  waiting : l.phase = .waiting true → 0 < l.inFlight
  running : l.phase ≠ .returned → clean

/-- A step between phases in which `Run` neither has returned nor then waits to drain. -/
theorem account_of_phase {l l' : EventLoop H S} {e : Event H S} {clean : Prop} {p q : Phase}
    (hacc : l.Account clean) (hsource : l.phase = p) (htarget : l'.phase = q)
    (he : ¬ l.Interrupted e)
    (hp : p ≠ .returned) (hreturned : q ≠ .returned) (hwaiting : q ≠ .waiting true) :
    l'.Account (clean ∧ ¬ l.Interrupted e) where
  returned h := absurd (htarget.symm.trans h) hreturned
  waiting h := absurd (htarget.symm.trans h) hwaiting
  running _ := ⟨hacc.running (fun h => hp (hsource.symm.trans h)), he⟩

/-- A step that keeps the phase and the count. -/
theorem account_same {l l' : EventLoop H S} {e : Event H S} {clean : Prop}
    (hacc : l.Account clean) (hphase : l'.phase = l.phase)
    (hcount : l'.inFlight = l.inFlight) (he : ¬ l.Interrupted e) :
    l'.Account (clean ∧ ¬ l.Interrupted e) where
  returned h := by
    rw [hcount, hacc.returned (hphase ▸ h), and_iff_left he]
  waiting h := by
    rw [hcount]
    exact hacc.waiting (hphase ▸ h)
  running h := ⟨hacc.running (hphase ▸ h), he⟩

/-- `Run` returns because nothing is in flight. -/
theorem account_returns {l l' : EventLoop H S} {e : Event H S} {clean : Prop}
    (hacc : l.Account clean) (hl : l.phase ≠ .returned) (he : ¬ l.Interrupted e)
    (hreturned : l'.phase = .returned) (hzero : l'.inFlight = 0) :
    l'.Account (clean ∧ ¬ l.Interrupted e) where
  returned _ := ⟨fun _ => ⟨hacc.running hl, he⟩, fun _ => hzero⟩
  waiting h := by
    rw [hreturned] at h
    cases h
  running h := absurd hreturned h

theorem not_interrupted_of_phase {l : EventLoop H S} {e : Event H S} {p : Phase}
    (hphase : l.phase = p) (hp : p ≠ .waiting true) : ¬ l.Interrupted e :=
  fun hi => hp (hphase.symm.trans hi.1)

theorem not_interrupted_of_nonneg {l : EventLoop H S} {ret : Int} (hok : ¬ ret < 0) :
    ¬ l.Interrupted (.wake ret) := by
  rintro ⟨_, ret', hneg, heq⟩
  cases heq
  exact hok hneg

/-- An edge between two phases none of which belongs to the drain phase or its end. -/
theorem Account.goes {l l' : EventLoop H S} {e : Event H S} {clean : Prop} {p q : Phase}
    (hacc : l.Account clean) (h : Goes l l' p q)
    (hp : p ≠ .returned ∧ p ≠ .waiting true) (hq : q ≠ .returned ∧ q ≠ .waiting true) :
    l'.Account (clean ∧ ¬ l.Interrupted e) :=
  account_of_phase hacc h.source h.target (not_interrupted_of_phase h.source hp.2)
    hp.1 hq.1 hq.2

/-- The exits of the drain phase that test `in_flight_`. -/
theorem Account.exit {l l' : EventLoop H S} {e : Event H S} {clean : Prop} {p : Phase}
    (hacc : l.Account clean) (hnonneg : 0 ≤ l.inFlight) (hzero : ¬ 0 < l.inFlight)
    (h : Goes l l' p .returned) (hp : p ≠ .returned ∧ p ≠ .waiting true) :
    l'.Account (clean ∧ ¬ l.Interrupted e) := by
  refine account_returns hacc (fun hr => hp.1 (h.source.symm.trans hr))
    (not_interrupted_of_phase h.source hp.2) h.target ?_
  rw [h.inFlight]
  exact le_antisymm (not_lt.mp hzero) hnonneg

/-- The exit of the drain phase with operations in flight. -/
theorem Account.interrupted {l l' : EventLoop H S} {ret : Int} {clean : Prop}
    (hacc : l.Account clean) (h : Goes l l' (.waiting true) .returned) (hneg : ret < 0) :
    l'.Account (clean ∧ ¬ l.Interrupted (.wake ret)) where
  returned _ := by
    rw [h.inFlight]
    constructor
    · intro hzero
      exact absurd hzero (ne_of_gt (hacc.waiting h.source))
    · intro hclean
      exact absurd ⟨h.source, ret, hneg, rfl⟩ hclean.2
  waiting hwaiting := by
    rw [h.target] at hwaiting
    cases hwaiting
  running hrunning := absurd h.target hrunning

variable [DecidableEq S]

/-- The steps of `Run` and of the kernel keep the account. -/
theorem Ok.account_step {l l' : EventLoop H S} {e : Event H S} {clean : Prop}
    (h : l.Ok) (hacc : l.Account clean) (hstep : machine.step l e = some l')
    (hfetch : e ≠ .fetch) (hsubmit : ∀ op x y n, e ≠ .submit op x y n) :
    l'.Account (clean ∧ ¬ l.Interrupted e) := by
  have hnonneg : 0 ≤ l.inFlight := by
    rw [h.inFlight_eq_length]
    exact Int.natCast_nonneg _
  cases flow_of_step hstep with
  | submit => exact absurd rfl (hsubmit _ _ _ _)
  | skip => exact absurd rfl hfetch
  | resume => exact absurd rfl hfetch
  | fault => exact absurd rfl hfetch
  | complete hphase _ hcount => exact account_same hacc hphase hcount (by simp [Interrupted])
  | stop hphase _ hcount => exact account_same hacc hphase hcount (by simp [Interrupted])
  | run hsource htarget =>
      exact account_of_phase hacc hsource htarget
        (not_interrupted_of_phase hsource (by simp)) (by simp) (by simp) (by simp)
  | wait hgoes => exact hacc.goes hgoes (by simp) (by simp)
  | leave hgoes => exact hacc.goes hgoes (by simp) (by simp)
  | drainWait hgoes hpos =>
      have hnot := not_interrupted_of_phase (e := Event.test) hgoes.source (by simp)
      refine ⟨by simp [hgoes.target], fun _ => ?_, fun _ => ?_⟩
      · rw [hgoes.inFlight]
        exact hpos
      · exact ⟨hacc.running (by simp [hgoes.source]), hnot⟩
  | drained hgoes hzero => exact hacc.exit hnonneg hzero hgoes (by simp)
  | retry hgoes => exact hacc.goes hgoes (by simp) (by simp)
  | failed hgoes => exact hacc.goes hgoes (by simp) (by simp)
  | drainFailed hgoes hneg => exact hacc.interrupted hgoes hneg
  | woken hgoes hok =>
      exact account_of_phase hacc hgoes.source hgoes.target (not_interrupted_of_nonneg hok)
        (by simp) (by simp) (by simp)
  | resumeReturns hgoes => exact hacc.goes hgoes (by simp) (by simp)
  | advance hgoes => exact hacc.goes hgoes (by simp) (by simp)
  | cancel hgoes => exact hacc.goes hgoes (by simp) (by simp)
  | idle hgoes hzero => exact hacc.exit hnonneg hzero hgoes (by simp)

/-- Inside a batch `Run` has not returned and does not wait. -/
theorem fetch_phase {l l' : EventLoop H S} (h : l.fetch = some l') :
    (l.phase ≠ .returned ∧ l.phase ≠ .waiting true) ∧
      l'.phase ≠ .returned ∧ l'.phase ≠ .waiting true := by
  cases fetch_flow h with
  | skip hgoes => simp [hgoes.source, hgoes.target]
  | resume hsource htarget => simp [hsource, htarget]
  | fault hgoes => simp [hgoes.source, hgoes.target]

end EventLoop

namespace Server

variable {r : FixedResources} {s : Server} {flavor : Flavor} {codec : EchoCodec}

/-! ### A worker without operations in flight -/

/-- All coroutines have ended and all resources are back. -/
structure Drained (r : FixedResources) (s : Server) : Prop where
  inFlight : s.loop.inFlight = 0
  accept : s.accept ≠ .onAccept
  peers : ∀ p, p ∈ s.peers → p.session.reader = .done ∧ p.session.writer = .done ∧
    p.session.handlers = [] ∧ p.held = false
  buffers : s.resources.freeBufIndices.Perm r.freeBufIndices
  files : s.resources.freeFileIndices.Perm r.freeFileIndices

/-- The coroutines of a connection without operations have ended. -/
theorem PeerOk.ended {p : Peer} (h : PeerOk flavor codec [] p) :
    p.session.reader = .done ∧ p.session.writer = .done ∧
      p.session.handlers = [] ∧ p.held = false := by
  have hlive := h.reached.ok
  have hloops : p.session.reader = .done ∧ p.session.writer = .done := by
    by_contra hrunning
    obtain ⟨_, _, hop, _⟩ := hlive.transfer (not_and_or.mp hrunning)
    cases hop
  have hroles := hlive.session.roles
  rw [hlive.posts] at hroles
  have hnobody : p.session.waiting = [] := List.perm_nil.mp hroles.symm
  simp only [Session.waiting, List.append_eq_nil_iff, List.map_eq_nil_iff] at hnobody
  refine ⟨hloops.1, hloops.2, hnobody.2, ?_⟩
  rw [h.held, ended_eq_true.mpr hloops]
  rfl

theorem Ok.drained (h : s.Ok flavor codec r) (hzero : s.loop.inFlight = 0) : s.Drained r := by
  have hops : s.loop.ops = [] := by
    have hlen := h.loop.inFlight_eq_length
    rw [hzero] at hlen
    exact List.length_eq_zero_iff.mp (by omega)
  have hcons := h.consistent
  rw [hops] at hcons
  have hpeers : ∀ p, p ∈ s.peers → p.session.reader = .done ∧ p.session.writer = .done ∧
      p.session.handlers = [] ∧ p.held = false := by
    intro p hp
    obtain ⟨cid, hcid⟩ := List.mem_iff_getElem?.mp hp
    exact (hcons.peers cid p hcid).ended
  have hbuffers : s.peers.flatMap Peer.buffers = [] := by
    rw [List.flatMap_eq_nil_iff]
    intro p hp
    simp [Peer.buffers, (hpeers p hp).2.2.2]
  have hfiles : s.peers.flatMap Peer.files = [] := by
    rw [List.flatMap_eq_nil_iff]
    intro p hp
    simp [Peer.files, (hpeers p hp).2.2.2]
  refine ⟨hzero, ?_, hpeers, ?_, ?_⟩
  · intro haccept
    have hone := hcons.accepting
    rw [if_pos haccept] at hone
    cases hone
  · have hall := hcons.buffers
    rwa [hbuffers, List.append_nil] at hall
  · have hall := hcons.files
    rwa [hfiles, List.append_nil] at hall

/-! ### The phases of a worker -/

theorem submitAll_phase (heap : Heap) (ops : List (Handle × Sqe)) (s : Server) :
    (submitAll heap s ops).loop.phase = s.loop.phase := by
  obtain ⟨l, crashed, heq, hphase⟩ := submitAll_frame heap ops s
  rw [heq]
  exact hphase

theorem acceptLoop_phase (heap : Heap) (s : Server) :
    (s.acceptLoop heap).loop.phase = s.loop.phase := by
  rw [acceptLoop]
  split <;> rfl

/-- Coroutines do not change the phase. -/
theorem resume_phase {input : Input} {handle : Handle} {op : Sqe} {res : Int} {s' : Server}
    (hres : resume flavor codec input s handle op res = some s') :
    s'.loop.phase = s.loop.phase := by
  rcases resume_cases hres with
    ⟨_, _, rfl⟩ | ⟨_, _, _, _, rfl⟩ | ⟨cid, role, p, t, _, _, _, rfl⟩
  · rw [acceptDone]
    split
    · rfl
    · simp only
      split
      · exact submitAll_phase _ _ _
      · rw [acceptLoop_phase]
        exact submitAll_phase _ _ _
  · rfl
  · exact submitAll_phase _ _ _

theorem fetch_phase {input : Input} {s' : Server}
    (hstep : s.fetch flavor codec input = some s') :
    (s.loop.phase ≠ .returned ∧ s.loop.phase ≠ .waiting true) ∧
      s'.loop.phase ≠ .returned ∧ s'.loop.phase ≠ .waiting true := by
  rw [Server.fetch] at hstep
  split at hstep
  next => cases hstep
  next l hl =>
    obtain ⟨hbefore, hafter⟩ := EventLoop.fetch_phase hl
    refine ⟨hbefore, ?_⟩
    split at hstep
    next =>
      cases hstep
      exact hafter
    next handle cqe _ =>
      obtain ⟨t, ht, rfl⟩ := Option.map_eq_some_iff.mp hstep
      have hphase : t.loop.phase = l.phase := resume_phase ht
      rw [← hphase] at hafter
      rw [Server.returns]
      split
      · exact hafter
      · split
        next l' hl' =>
          simp only [EventLoop.resumeReturns] at hl'
          split at hl'
          · cases hl'
            simp
          · cases hl'
        next => exact hafter

/-- The wait of the drain phase returns an error. -/
def Interrupted (s : Server) : Event → Prop
  | .loop e => s.loop.Interrupted e
  | _ => False

/-- In every run: what the phase of `Run` says about the operations in flight. -/
theorem account_exec {entries : Nat} {listenFd : Int} {es : List Event} {t : Server}
    (hrun : (machine flavor codec).exec (init entries listenFd r) es = some t) :
    (t.loop.phase = .returned → t.crashed = false) ∧
      t.loop.Account (∀ s e, (machine flavor codec).Takes (init entries listenFd r) es s e →
        ¬ s.Interrupted e) := by
  refine Machine.run_induction
    (motive := fun es t => (t.loop.phase = .returned → t.crashed = false) ∧
      t.loop.Account (∀ s e, (machine flavor codec).Takes (init entries listenFd r) es s e →
        ¬ s.Interrupted e)) ?_ ?_ hrun
  · refine ⟨fun _ => rfl, ?_⟩
    exact ⟨by simp [init, EventLoop.init], by simp [init, EventLoop.init],
      fun _ s e htakes => absurd htakes Machine.takes_nil⟩
  · rintro es s e s' hs ⟨_, hacc⟩ hstep
    rw [Machine.forall_takes_concat hs]
    simp only [machine, Option.ite_none_left_eq_some] at hstep
    obtain ⟨hlive, hstep⟩ := hstep
    have hcrash : s.crashed = false := (Bool.not_eq_true _).mp hlive
    cases e with
    | start heap =>
        simp only [Server.start, Option.ite_none_right_eq_some, Option.some.injEq] at hstep
        obtain ⟨⟨hsetup, _⟩, rfl⟩ := hstep
        have hphase : (({ s with running := true } : Server).acceptLoop heap).loop.phase =
            .setup := (acceptLoop_phase _ _).trans hsetup
        exact ⟨by simp [hphase], by simp [hphase], by simp [hphase],
          fun _ => ⟨hacc.running (by simp [hsetup]), fun h => h⟩⟩
    | stop =>
        cases hstep
        exact ⟨fun _ => hcrash, fun h => (hacc.returned h).trans (by simp [Interrupted]),
          hacc.waiting, fun h => ⟨hacc.running h, fun h => h⟩⟩
    | fetch input =>
        obtain ⟨hbefore, hreturned, hwaiting⟩ := fetch_phase hstep
        exact ⟨fun h => absurd h hreturned, fun h => absurd h hreturned,
          fun h => absurd h hwaiting, fun _ => ⟨hacc.running hbefore.1, fun h => h⟩⟩
    | loop e =>
        simp only [Option.ite_none_right_eq_some, Option.map_eq_some_iff] at hstep
        obtain ⟨hown, l, hl, rfl⟩ := hstep
        refine ⟨fun _ => hcrash, (ok_exec hs hcrash).loop.account_step hacc hl ?_ ?_⟩
        · rintro rfl
          cases hown
        · rintro op x y n rfl
          cases hown

/--
Shutdown.  A worker whose `Run` has returned has no operation in flight, no
suspended coroutine and no connection that keeps a resource, if and only if no
wait of the drain phase returned an error.
-/
theorem shutdown_drains_iff {entries : Nat} {listenFd : Int} {es : List Event} {t : Server}
    (hrun : (machine flavor codec).exec (init entries listenFd r) es = some t)
    (hreturned : t.loop.phase = .returned) :
    t.Drained r ↔
      ∀ s e, (machine flavor codec).Takes (init entries listenFd r) es s e →
        ¬ s.Interrupted e := by
  obtain ⟨hcrash, hacc⟩ := account_exec hrun
  rw [← hacc.returned hreturned]
  exact ⟨Drained.inFlight, (ok_exec hrun (hcrash hreturned)).drained⟩

/-- The accept is cancelled and the worker drains. -/
theorem shutdown_drains_idle :
    ∃ t,
      (machine .async protoCodec).exec (init 8 3 smallResources)
        [.start countingHeap, .loop .run, .loop .test, .loop .stop, .loop (.wake (-4)),
          .loop .test, .loop .enterDrain, .loop .test, .loop (.complete 0 (-125)),
          .loop (.complete 0 1), .loop (.wake 0), .fetch (smallInput []),
          .fetch (smallInput []), .loop .advance, .loop .test] = some t ∧
      t.loop.phase = .returned ∧ t.Drained smallResources ∧
      ∀ s e, (machine .async protoCodec).Takes (init 8 3 smallResources)
        [.start countingHeap, .loop .run, .loop .test, .loop .stop, .loop (.wake (-4)),
          .loop .test, .loop .enterDrain, .loop .test, .loop (.complete 0 (-125)),
          .loop (.complete 0 1), .loop (.wake 0), .fetch (smallInput []),
          .fetch (smallInput []), .loop .advance, .loop .test] s e →
        ¬ s.Interrupted e := by
  have hrun : ((machine .async protoCodec).exec (init 8 3 smallResources)
      [.start countingHeap, .loop .run, .loop .test, .loop .stop, .loop (.wake (-4)),
        .loop .test, .loop .enterDrain, .loop .test, .loop (.complete 0 (-125)),
        .loop (.complete 0 1), .loop (.wake 0), .fetch (smallInput []),
        .fetch (smallInput []), .loop .advance, .loop .test]).any
        (fun t => t.crashed = false ∧ t.loop.phase = .returned ∧ t.loop.inFlight = 0) = true := by
    decide
  obtain ⟨t, ht, hstate⟩ := (Option.any_eq_true _ _).mp hrun
  obtain ⟨hcrash, hreturned, hzero⟩ := of_decide_eq_true hstate
  have hdrained := (ok_exec ht hcrash).drained hzero
  exact ⟨t, ht, hreturned, hdrained, (shutdown_drains_iff ht hreturned).mp hdrained⟩

/--
A client connects just before the cancel.  The accept loop posts a read for it
and another accept, which nothing cancels; the next wait of the drain phase ends
with `-ETIME`, and `Run` returns with both in flight and the connection open.
-/
theorem shutdown_interrupted :
    ∃ t,
      (machine .async protoCodec).exec (init 8 3 smallResources)
        [.start countingHeap, .loop .run, .loop .test, .loop .stop, .loop (.wake (-4)),
          .loop .test, .loop .enterDrain, .loop .test, .loop (.complete 0 5),
          .loop (.complete 0 0), .loop (.wake 0), .fetch (smallInput []),
          .fetch (smallInput []), .loop .advance, .loop .test, .loop (.wake (-62))] =
        some t ∧
      t.loop.phase = .returned ∧ t.loop.inFlight = 2 ∧
      t.peers.map Peer.held = [true] ∧ ¬ t.Drained smallResources := by
  have hrun : ((machine .async protoCodec).exec (init 8 3 smallResources)
      [.start countingHeap, .loop .run, .loop .test, .loop .stop, .loop (.wake (-4)),
        .loop .test, .loop .enterDrain, .loop .test, .loop (.complete 0 5),
        .loop (.complete 0 0), .loop (.wake 0), .fetch (smallInput []),
        .fetch (smallInput []), .loop .advance, .loop .test, .loop (.wake (-62))]).any
        (fun t => t.loop.phase = .returned ∧ t.loop.inFlight = 2 ∧
          t.peers.map Peer.held = [true]) = true := by
    decide
  obtain ⟨t, ht, hstate⟩ := (Option.any_eq_true _ _).mp hrun
  obtain ⟨hreturned, hflight, hheld⟩ := of_decide_eq_true hstate
  refine ⟨t, ht, hreturned, hflight, hheld, ?_⟩
  intro hdrained
  have hzero := hdrained.inFlight
  rw [hflight] at hzero
  cases hzero

end Server

end CRpc
