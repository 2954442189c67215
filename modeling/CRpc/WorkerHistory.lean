import CRpc.Shutdown

/-!
# The completions a worker has handled

`Ok.history_cases` says what one step of a worker does in terms of the history of
its event loop: a step leaves the history alone, or it starts the accept loop, or
one completion is added and the coroutine that waited for it has run with its
result.

`accepted_exactly` is the history of the accept loop.  Every connection the kernel
has handed over is served, in order and once; the accept loop ends with the first
failure, and no connection is made after it.
-/

namespace CRpc

open Lib Protocol

universe u v

namespace EventLoop

variable {H : Type u} {S : Type v} [DecidableEq S]

/-- A dispatch adds one record: the result goes where the coroutine looks for it. -/
theorem Ok.dispatch_record {l l' : EventLoop H S} (h : l.Ok) {handle : H} {cqe : Cqe}
    (hnext : l.next = some (handle, cqe)) (hfetch : l.fetch = some l') :
    ∃ d : Dispatch H S, l'.dispatched = l.dispatched ++ [d] ∧ d.handle = handle ∧
      d.cqe = cqe ∧ d.stored = l'.slots d.slot ∧ (d.handle, d.slot) ∈ l.submitted := by
  obtain ⟨drain, count, hphase, hcqe, hne, hnode⟩ := next_eq_some hnext
  obtain ⟨k, handle', slot, _, hx, hh, hr⟩ :=
    h.routing.owns cqe.entry ((pending_at hphase hcqe).mem_iff.mpr List.mem_cons_self) hne
  obtain rfl : handle' = handle := Option.some.inj (hh.symm.trans hnode)
  have hl' : l.dispatch drain count cqe = l' := by
    simpa only [EventLoop.fetch, hphase, hcqe, if_pos hne, Option.some.injEq] using hfetch
  subst hl'
  simp only [EventLoop.dispatch, hh, hr]
  exact ⟨_, rfl, rfl, rfl, rfl, List.mem_of_getElem? hx⟩

/-- Where the loop is after it has fetched a completion. -/
theorem fetch_phase_cases {l l' : EventLoop H S} (hstep : l.fetch = some l') :
    (∃ drain count, l'.phase = .resumed drain count) ∨
      (∃ drain count, l'.phase = .batch drain count) ∨ l'.phase = .fault := by
  simp only [EventLoop.fetch] at hstep
  split at hstep
  next drain count _ =>
    split at hstep
    next cqe _ =>
      split at hstep
      · cases hstep
        rw [EventLoop.dispatch]
        simp only
        split
        · exact Or.inl ⟨_, _, rfl⟩
        · exact Or.inr (Or.inr rfl)
      · cases hstep
        exact Or.inr (Or.inl ⟨_, _, rfl⟩)
    next => cases hstep
  next => cases hstep

/-- `Run` is entered once. -/
theorem phase_ne_setup {l l' : EventLoop H S} {e : Event H S}
    (hstep : machine.step l e = some l') (hphase : l.phase ≠ .setup) : l'.phase ≠ .setup := by
  cases e with
  | submit op handle result fresh =>
      simp only [machine, Option.ite_none_right_eq_some, Option.some.injEq] at hstep
      rw [← hstep.2]
      exact hphase
  | run =>
      simp [machine, EventLoop.run] at hstep
  | stop =>
      cases hstep
      exact hphase
  | test =>
      simp only [machine, EventLoop.test] at hstep
      split at hstep
      · split at hstep <;> cases hstep <;> simp
      · split at hstep <;> cases hstep <;> simp
      · cases hstep
  | wake ret =>
      simp only [machine, EventLoop.wake] at hstep
      split at hstep
      · split at hstep
        · split at hstep <;> cases hstep <;> simp
        · cases hstep
          simp
      · split at hstep <;> cases hstep <;> simp
      · cases hstep
  | complete i res =>
      simp only [machine, EventLoop.complete] at hstep
      split at hstep
      · cases hstep
        exact hphase
      · cases hstep
  | fetch =>
      rcases fetch_phase_cases hstep with ⟨_, _, hl'⟩ | ⟨_, _, hl'⟩ | hl'
      all_goals simp [hl']
  | resumeReturns =>
      simp only [machine, EventLoop.resumeReturns] at hstep
      split at hstep
      · cases hstep
        simp
      · cases hstep
  | advance =>
      simp only [machine, EventLoop.advance] at hstep
      split at hstep
      · split at hstep
        · cases hstep
          simp
        · cases hstep
      · cases hstep
  | enterDrain =>
      simp only [machine, EventLoop.enterDrain] at hstep
      split at hstep
      · split at hstep
        · split at hstep <;> cases hstep <;> simp
        · cases hstep
          simp
      · cases hstep

end EventLoop

namespace Server

variable {flavor : Flavor} {codec : EchoCodec} {r : FixedResources} {s s' t : Server}

/-! ### Coroutines do not handle completions -/

theorem submitAll_dispatched (heap : Heap) (ops : List (Handle × Sqe)) :
    ∀ s : Server, (submitAll heap s ops).loop.dispatched = s.loop.dispatched := by
  induction ops with
  | nil => exact fun s => rfl
  | cons op ops ih =>
      intro s
      rw [submitAll]
      split
      · exact ih (s.submit heap op.1 op.2)
      · rfl

theorem acceptLoop_dispatched (heap : Heap) (s : Server) :
    (s.acceptLoop heap).loop.dispatched = s.loop.dispatched := by
  rw [acceptLoop]
  split <;> rfl

theorem resume_dispatched {input : Input} {handle : Handle} {op : Sqe} {res : Int}
    (hres : resume flavor codec input s handle op res = some t) :
    t.loop.dispatched = s.loop.dispatched := by
  rcases resume_cases hres with
    ⟨_, _, rfl⟩ | ⟨_, _, _, _, rfl⟩ | ⟨cid, role, p, t, _, _, _, rfl⟩
  · rw [acceptDone]
    split
    · rfl
    · simp only
      split
      · exact submitAll_dispatched _ _ _
      · rw [acceptLoop_dispatched]
        exact submitAll_dispatched _ _ _
  · rfl
  · exact submitAll_dispatched _ _ _

theorem Ok.returns_moved (h : s.Ok flavor codec r) :
    s.returns = s ∨ ∃ l, EventLoop.Moved s.loop l ∧ s.returns = { s with loop := l } := by
  rw [Server.returns]
  split
  · exact Or.inl rfl
  · split
    next l hl =>
      rcases h.loop.step_cases (e := .resumeReturns) hl with
        ⟨_, _, _, _, he, _⟩ | ⟨_, _, _, he, _⟩ | hmoved
      · cases he
      · cases he
      · exact Or.inr ⟨l, hmoved, rfl⟩
    next => exact Or.inl rfl

/-- The return of a coroutine to the event loop changes nothing that is counted. -/
theorem Ok.returns_same (h : s.Ok flavor codec r) :
    s.returns.loop.dispatched = s.loop.dispatched ∧ s.returns.loop.ops.Perm s.loop.ops ∧
      s.returns.peers = s.peers ∧ s.returns.accept = s.accept := by
  rcases h.returns_moved with heq | ⟨l, hmoved, heq⟩
  · rw [heq]
    exact ⟨rfl, List.Perm.refl _, rfl, rfl⟩
  · rw [heq]
    exact ⟨hmoved.dispatched, h.loop.ops_moved hmoved, rfl, rfl⟩

/-! ### One step -/

/--
One completion is handled in `s`: the event loop comes to `l`, with the record `d`
and without the operation, and the coroutine that waited runs to the state `t`.
-/
structure Handles (flavor : Flavor) (codec : EchoCodec) (r : FixedResources) (s : Server)
    (input : Input) (d : Dispatch Handle Handle) (l : EventLoop Handle Handle) (t : Server) :
    Prop where
  next : s.loop.next = some (d.handle, d.cqe)
  stored : d.stored = d.cqe.res
  loop : l.Ok
  phase : ∃ drain count, l.phase = .resumed drain count
  slots : ∀ x, x ∈ l.submitted → x.1 = x.2
  record : l.dispatched = s.loop.dispatched ++ [d]
  ops : s.loop.ops.Perm ((d.handle, d.cqe.entry.op) :: l.ops)
  consistent : Consistent flavor codec r ((d.handle, d.cqe.entry.op) :: l.ops)
    { s with loop := l }
  ran : resume flavor codec input { s with loop := l } d.handle d.cqe.entry.op d.stored = some t

theorem Handles.ok {input : Input} {d : Dispatch Handle Handle} {l : EventLoop Handle Handle}
    (h : Handles flavor codec r s input d l t) (hcrash : t.crashed = false) :
    t.Ok flavor codec r :=
  resume_ok h.loop h.slots h.consistent h.ran hcrash

theorem Handles.dispatched {input : Input} {d : Dispatch Handle Handle}
    {l : EventLoop Handle Handle} (h : Handles flavor codec r s input d l t) :
    t.loop.dispatched = s.loop.dispatched ++ [d] :=
  (resume_dispatched h.ran).trans h.record

/-- The coroutine has returned to the batch, or the worker has crashed. -/
theorem Handles.phase_ne_setup {input : Input} {d : Dispatch Handle Handle}
    {l : EventLoop Handle Handle} (h : Handles flavor codec r s input d l t) :
    t.returns.loop.phase ≠ .setup := by
  obtain ⟨drain, count, hl⟩ := h.phase
  have hphase : t.loop.phase = .resumed drain count := (resume_phase h.ran).trans hl
  rw [Server.returns]
  split
  · rw [hphase]
    simp
  · simp only [EventLoop.resumeReturns, hphase]
    simp

/-- The loop has come to a completion: it is recorded and its coroutine is to run. -/
theorem Ok.handles_next (h : s.Ok flavor codec r) {handle : Handle} {cqe : Cqe}
    (hnext : s.loop.next = some (handle, cqe)) :
    ∃ d l, s.loop.fetch = some l ∧ d.handle = handle ∧ d.cqe = cqe ∧ d.stored = cqe.res ∧
      l.slots handle = cqe.res ∧ l.entries = s.loop.entries ∧ l.sq = s.loop.sq ∧
      ∀ input t, resume flavor codec input { s with loop := l } handle cqe.entry.op cqe.res =
        some t → Handles flavor codec r s input d l t := by
  obtain ⟨_, _, slot, l, hfetch, hloop, hphase, hentries, hsq, hsubmitted, hmem, hslot, hops⟩ :=
    h.loop.ops_dispatch hnext
  obtain ⟨d, hrecord, rfl, rfl, hstored, hmem'⟩ := h.loop.dispatch_record hnext hfetch
  have hown : d.handle = slot := h.slots _ hmem
  have hown' : d.handle = d.slot := h.slots _ hmem'
  rw [← hown] at hslot
  rw [← hown', hslot] at hstored
  refine ⟨d, l, hfetch, rfl, rfl, hstored, hslot, hentries, hsq, fun input t ht => ?_⟩
  rw [← hstored] at ht
  exact ⟨hnext, hstored, hloop, ⟨_, _, hphase⟩, fun x hx => h.slots x (hsubmitted ▸ hx), hrecord,
    hops, Consistent.perm { h.consistent with } hops, ht⟩

/-- What the next completion can do. -/
theorem Ok.fetch_handles (h : s.Ok flavor codec r) {input : Input}
    (hstep : s.fetch flavor codec input = some s') :
    (∃ l, s.loop.next = none ∧ s.loop.fetch = some l ∧ EventLoop.Moved s.loop l ∧
      s' = { s with loop := l }) ∨
      ∃ d l t, Handles flavor codec r s input d l t ∧ s' = t.returns := by
  rw [Server.fetch] at hstep
  split at hstep
  next => cases hstep
  next l hl =>
    split at hstep
    next hnext =>
      cases hstep
      rcases EventLoop.fetch_dispatch_or_moved hl with
        ⟨drain, count, cqe, hphase, hcqe, hne, _⟩ | hmoved
      · -- a pending completion has a coroutine to resume
        obtain ⟨k, handle, _, _, _, hh, _⟩ := h.loop.routing.owns cqe.entry
          ((EventLoop.pending_at hphase hcqe).mem_iff.mpr List.mem_cons_self) hne
        simp [EventLoop.next, hphase, hcqe, hne, hh] at hnext
      · exact Or.inl ⟨l, hnext, hl, hmoved, rfl⟩
    next handle cqe hnext =>
      obtain ⟨d, l', hfetch, _, _, _, hslot, _, _, hhandles⟩ := h.handles_next hnext
      obtain rfl : l' = l := Option.some.inj (hfetch.symm.trans hl)
      obtain ⟨t, ht, rfl⟩ := Option.map_eq_some_iff.mp hstep
      rw [hslot] at ht
      exact Or.inr ⟨d, l', t, hhandles input t ht, rfl⟩

/-- What one step does to the history. -/
theorem Ok.history_cases (h : s.Ok flavor codec r) {e : Event}
    (hstep : (machine flavor codec).step s e = some s') :
    (s'.loop.dispatched = s.loop.dispatched ∧ s'.loop.ops.Perm s.loop.ops ∧
      s'.peers = s.peers ∧ s'.accept = s.accept ∧
      (s.loop.phase ≠ .setup → s'.loop.phase ≠ .setup)) ∨
    (s.loop.phase = .setup ∧ s.accept = .notStarted ∧
      ∃ heap, s' = ({ s with running := true } : Server).acceptLoop heap) ∨
    ∃ input d l t, Handles flavor codec r s input d l t ∧ s' = t.returns := by
  simp only [machine, Option.ite_none_left_eq_some] at hstep
  obtain ⟨_, hstep⟩ := hstep
  cases e with
  | start heap =>
      simp only [Server.start, Option.ite_none_right_eq_some, Option.some.injEq] at hstep
      obtain ⟨⟨hsetup, haccept⟩, rfl⟩ := hstep
      exact Or.inr (Or.inl ⟨hsetup, haccept, heap, rfl⟩)
  | stop =>
      cases hstep
      exact Or.inl ⟨rfl, List.Perm.refl _, rfl, rfl, fun hphase => hphase⟩
  | fetch input =>
      rcases h.fetch_handles hstep with ⟨l, _, hl, hmoved, rfl⟩ | ⟨d, l, t, hran, rfl⟩
      · exact Or.inl ⟨hmoved.dispatched, h.loop.ops_moved hmoved, rfl, rfl,
          EventLoop.phase_ne_setup (e := .fetch) hl⟩
      · exact Or.inr (Or.inr ⟨input, d, l, t, hran, rfl⟩)
  | loop e =>
      simp only [Option.ite_none_right_eq_some, Option.map_eq_some_iff] at hstep
      obtain ⟨hown, l, hl, rfl⟩ := hstep
      rcases h.loop.step_cases hl with ⟨_, _, _, _, rfl, _⟩ | ⟨_, _, _, rfl, _⟩ | hmoved
      · cases hown
      · cases hown
      · exact Or.inl ⟨hmoved.dispatched, h.loop.ops_moved hmoved, rfl, rfl,
          EventLoop.phase_ne_setup hl⟩

/-! ### The accept loop -/

/-- The results the accept loop was resumed with. -/
def acceptResults (s : Server) : List Int :=
  (s.loop.dispatched.filter fun d => d.handle = .acceptLoop).map Dispatch.stored

/-- The descriptors of the connections, in the order in which they were made. -/
def fds (s : Server) : List Int := s.peers.map fun p => p.session.conn.fd

theorem acceptResults_eq (hdispatched : s'.loop.dispatched = s.loop.dispatched) :
    s'.acceptResults = s.acceptResults := by
  rw [acceptResults, acceptResults, hdispatched]

theorem fds_submitAll (heap : Heap) (ops : List (Handle × Sqe)) (s : Server) :
    (submitAll heap s ops).fds = s.fds ∧ (submitAll heap s ops).accept = s.accept := by
  obtain ⟨l, crashed, heq, _⟩ := submitAll_frame heap ops s
  rw [heq]
  exact ⟨rfl, rfl⟩

theorem fds_acceptLoop (heap : Heap) (s : Server) : (s.acceptLoop heap).fds = s.fds := by
  rw [acceptLoop]
  split <;> rfl

/-- A new connection has the descriptor that `accept` returned. -/
theorem fds_connect (input : Input) (s : Server) (clientFd : Int) :
    (s.connect input clientFd).fds = s.fds ++ [clientFd] := by
  rw [connect, (fds_submitAll _ _ _).1]
  simp only [fds, List.map_append, List.map_singleton]
  rw [(Session.sameResources_start _).fd]
  rfl

/-- A connection keeps its descriptor while its coroutines run. -/
theorem fds_settle {input : Input} {cid : Nat} {held : Bool} {p : Peer} {u : Session}
    (hp : s.peers[cid]? = some p)
    (hsame : CoroConnection.SameResources p.session.conn u.conn) :
    (s.settle input cid held u).fds = s.fds ∧ (s.settle input cid held u).accept = s.accept := by
  obtain ⟨hfds, haccept⟩ := fds_submitAll input.heap (posted cid u)
    { s with
      resources := destroy input.unregisterOk s.resources held u
      peers := s.peers.set cid { session := { u with posts := [] }, held := held && !ended u } }
  refine ⟨hfds.trans ?_, haccept⟩
  obtain ⟨hlt, rfl⟩ := List.getElem?_eq_some_iff.mp hp
  simp only [fds, List.map_set, hsame.fd]
  rw [← List.getElem_map (fun p : Peer => p.session.conn.fd)]
  · exact List.set_getElem_self _
  · rwa [List.length_map]

/-- Every descriptor handed over has its connection; a failure ends the loop. -/
structure Accepts (s : Server) : Prop where
  valid : ∀ fd, fd ∈ s.fds → 0 ≤ fd
  results : s.acceptResults = s.fds ∨
    ∃ res, res < 0 ∧ s.acceptResults = s.fds ++ [res] ∧ s.accept = .done

theorem Accepts.of_same (h : s.Accepts) (hdispatched : s'.loop.dispatched = s.loop.dispatched)
    (hfds : s'.fds = s.fds) (haccept : s'.accept = s.accept) : s'.Accepts where
  valid := by
    rw [hfds]
    exact h.valid
  results := by
    rw [acceptResults_eq hdispatched, hfds, haccept]
    exact h.results

/-- The accept loop is resumed only while it waits. -/
theorem Handles.onAccept {input : Input} {d : Dispatch Handle Handle}
    {l : EventLoop Handle Handle} (h : Handles flavor codec r s input d l t)
    (hd : d.handle = .acceptLoop) : s.accept = .onAccept := by
  have hone := h.consistent.accepting
  rw [hd] at hone
  by_contra hne
  rw [if_neg hne] at hone
  cases hone

/-- What a handled completion does to the accept loop and to the descriptors. -/
theorem Handles.accept_cases {input : Input} {d : Dispatch Handle Handle}
    {l : EventLoop Handle Handle} (h : Handles flavor codec r s input d l t)
    (hcrash : t.crashed = false) :
    (d.handle ≠ .acceptLoop ∧ t.fds = s.fds ∧ t.accept = s.accept) ∨
      (d.handle = .acceptLoop ∧ d.stored < 0 ∧ t.fds = s.fds ∧ t.accept = .done) ∨
      (d.handle = .acceptLoop ∧ 0 ≤ d.stored ∧ t.fds = s.fds ++ [d.stored]) := by
  rcases resume_cases h.ran with
    ⟨hd, _, rfl⟩ | ⟨_, _, _, _, rfl⟩ | ⟨cid, role, p, u, hd, hp, hran, rfl⟩
  · right
    rw [acceptDone]
    split
    next hneg => exact Or.inl ⟨hd, hneg, rfl, rfl⟩
    next hfd =>
      refine Or.inr ⟨hd, not_lt.mp hfd, ?_⟩
      simp only
      split
      · exact fds_connect _ _ _
      · rw [fds_acceptLoop]
        exact fds_connect _ _ _
  · cases hcrash
  · left
    have hpeer := (h.consistent.peers cid p hp).reached
    rw [hd, opsOf_cons_self] at hpeer
    have hsame := resumes_sameResources hran hpeer.ok.session
    exact ⟨by rw [hd]; simp, fds_settle (s := { s with loop := l }) hp hsame⟩

theorem accepts_step (h : s.Ok flavor codec r) (haccepts : s.Accepts) {e : Event}
    (hstep : (machine flavor codec).step s e = some s') (hcrash : s'.crashed = false) :
    s'.Accepts := by
  rcases h.history_cases hstep with
    ⟨hdispatched, _, hpeers, haccept, _⟩ | ⟨_, hstart, heap, rfl⟩ | ⟨input, d, l, t, hran, rfl⟩
  · exact haccepts.of_same hdispatched (by rw [fds, fds, hpeers]) haccept
  · -- nothing has been accepted before the start
    have hresults := acceptResults_eq (acceptLoop_dispatched heap { s with running := true })
    have hfds := fds_acceptLoop heap { s with running := true }
    refine ⟨fun fd hfd => haccepts.valid fd (hfds ▸ hfd), ?_⟩
    rcases haccepts.results with heq | ⟨_, _, _, hdone⟩
    · exact Or.inl (hresults.trans (heq.trans hfds.symm))
    · rw [hstart] at hdone
      cases hdone
  · have hlive := crashed_of_returns hcrash
    obtain ⟨hdispatched, _, hpeers, haccept⟩ := (hran.ok hlive).returns_same
    suffices t.Accepts from this.of_same hdispatched (by rw [fds, fds, hpeers]) haccept
    have hrecord := hran.dispatched
    rcases hran.accept_cases hlive with
      ⟨hd, hfds, hsame⟩ | ⟨hd, hneg, hfds, hdone⟩ | ⟨hd, hpos, hfds⟩
    · have hresults : t.acceptResults = s.acceptResults := by
        rw [acceptResults, acceptResults, hrecord, List.filter_append]
        simp [hd]
      refine ⟨by rw [hfds]; exact haccepts.valid, ?_⟩
      rw [hresults, hfds, hsame]
      exact haccepts.results
    · have hresults : t.acceptResults = s.acceptResults ++ [d.stored] := by
        rw [acceptResults, acceptResults, hrecord, List.filter_append]
        simp [hd]
      refine ⟨by rw [hfds]; exact haccepts.valid, ?_⟩
      rcases haccepts.results with heq | ⟨_, _, _, hbefore⟩
      · exact Or.inr ⟨d.stored, hneg, by rw [hresults, heq, hfds], hdone⟩
      · rw [hran.onAccept hd] at hbefore
        cases hbefore
    · have hresults : t.acceptResults = s.acceptResults ++ [d.stored] := by
        rw [acceptResults, acceptResults, hrecord, List.filter_append]
        simp [hd]
      refine ⟨?_, ?_⟩
      · rw [hfds]
        exact List.forall_mem_append.mpr ⟨haccepts.valid, List.forall_mem_singleton.mpr hpos⟩
      rcases haccepts.results with heq | ⟨_, _, _, hbefore⟩
      · exact Or.inl (by rw [hresults, heq, hfds])
      · rw [hran.onAccept hd] at hbefore
        cases hbefore

/-- An accept loop that has ended makes no connection. -/
theorem done_step (h : s.Ok flavor codec r) (hdone : s.accept = .done) {e : Event}
    (hstep : (machine flavor codec).step s e = some s') (hcrash : s'.crashed = false) :
    s'.fds = s.fds ∧ s'.accept = .done := by
  rcases h.history_cases hstep with
    ⟨_, _, hpeers, haccept, _⟩ | ⟨_, hstart, _⟩ | ⟨input, d, l, t, hran, rfl⟩
  · exact ⟨by rw [fds, fds, hpeers], haccept.trans hdone⟩
  · rw [hstart] at hdone
    cases hdone
  · have hlive := crashed_of_returns hcrash
    obtain ⟨_, _, hpeers, haccept⟩ := (hran.ok hlive).returns_same
    rcases hran.accept_cases hlive with ⟨_, hfds, hsame⟩ | ⟨hd, _⟩ | ⟨hd, _⟩
    · exact ⟨by rw [fds, hpeers]; exact hfds, haccept.trans (hsame.trans hdone)⟩
    · rw [hran.onAccept hd] at hdone
      cases hdone
    · rw [hran.onAccept hd] at hdone
      cases hdone

/--
The accept loop of a worker.  The descriptors of its connections, none of them negative,
are in order the results of its accepts up to the first failure, which is the last
result; and once the loop has ended, whatever happens later, no connection is made.
-/
theorem accepted_exactly {entries : Nat} {listenFd : Int} {es : List Event}
    (hrun : (machine flavor codec).exec (init entries listenFd r) es = some t)
    (hcrash : t.crashed = false) :
    (∀ fd, fd ∈ t.fds → 0 ≤ fd) ∧
    (t.acceptResults = t.fds ∨
      ∃ res, res < 0 ∧ t.acceptResults = t.fds ++ [res] ∧ t.accept = .done) ∧
    ∀ ds u, (machine flavor codec).exec t ds = some u → u.crashed = false →
      t.accept = .done → u.fds = t.fds := by
  have haccepts : t.Accepts := by
    refine Machine.run_induction (motive := fun _ t => t.crashed = false → t.Accepts)
      (fun _ => ⟨by simp [init, fds], Or.inl rfl⟩) ?_ hrun hcrash
    intro es s e s' hs haccepts hstep hcrash'
    have hbefore := crashed_of_step hstep
    exact accepts_step (ok_exec hs hbefore) (haccepts hbefore) hstep hcrash'
  refine ⟨haccepts.valid, haccepts.results, ?_⟩
  intro ds u hds hcrash' hdone
  refine (Machine.run_induction (motive := fun _ u => u.crashed = false →
    u.fds = t.fds ∧ u.accept = .done) (fun _ => ⟨rfl, hdone⟩) ?_ hds hcrash').1
  intro ds s e s' hs ih hstep hcrash''
  have hbefore := crashed_of_step hstep
  obtain ⟨hfds, haccept⟩ := ih hbefore
  have hok := ok_exec (Machine.exec_append_eq_some.mpr ⟨t, hrun, hs⟩) hbefore
  obtain ⟨hfds', haccept'⟩ := done_step hok haccept hstep hcrash''
  exact ⟨hfds'.trans hfds, haccept'⟩

set_option maxRecDepth 2000 in
/-- One connection is accepted, then the accept fails. -/
theorem accepted_exactly_one_connection :
    ∃ t, (machine .async protoCodec).exec (init 8 3 smallResources)
        [.start countingHeap, .loop .run, .loop .test, .loop (.complete 0 5), .loop (.wake 0),
          .fetch (smallInput []), .loop .advance, .loop .test, .loop (.complete 1 (-22)),
          .loop (.wake 0), .fetch (smallInput []), .loop .advance] = some t ∧
      t.fds = [5] ∧ t.acceptResults = [5, -22] ∧
      ∀ ds u, (machine .async protoCodec).exec t ds = some u → u.crashed = false →
        u.fds = t.fds := by
  have hrun : ((machine .async protoCodec).exec (init 8 3 smallResources)
      [.start countingHeap, .loop .run, .loop .test, .loop (.complete 0 5), .loop (.wake 0),
        .fetch (smallInput []), .loop .advance, .loop .test, .loop (.complete 1 (-22)),
        .loop (.wake 0), .fetch (smallInput []), .loop .advance]).any
      (fun t => t.crashed = false ∧ t.fds = [5] ∧ t.acceptResults = [5, -22] ∧
        t.accept = .done) = true := by decide
  obtain ⟨t, ht, hstate⟩ := (Option.any_eq_true _ _).mp hrun
  obtain ⟨hcrash, hfds, hresults, hdone⟩ := of_decide_eq_true hstate
  exact ⟨t, ht, hfds, hresults, fun ds u hds hu =>
    (accepted_exactly ht hcrash).2.2 ds u hds hu hdone⟩

end Server

end CRpc
