import CRpc.ClientView
import CRpc.Link
import CRpc.ResourceLifetime
import CRpc.SubmissionQueue

/-!
# Serving one client of a worker

`ClientView` says that a connection of a worker does nothing that its coroutines
could not do alone.  Here is the converse: between two rounds of the event loop a
worker can still do for one client all that the connection could do alone, whatever
the other clients have done before.

* `Rests.serve`: one round of the loop that handles one completion.
* `Hosts.exec`: every run of the connection alone is what one client sees of a run
  of the worker that touches no other client (`client_unhindered`).
* `client_answered`: hence a client can always get its answers.  Completions of its
  own writes and timers put the response to each of its requests on the wire.
-/

namespace CRpc

open Lib Protocol

universe u v

/-! ### One round of the event loop -/

namespace EventLoop

variable {H : Type u} {S : Type v} [DecidableEq S]

/-- The loop waits, the kernel completes an operation and the loop comes to it. -/
theorem Ok.round {l : EventLoop H S} (h : l.Ok) {drain : Bool} (hphase : l.phase = .test drain)
    (hgoes : drain = false → l.running = true) (hcq : l.cq = []) {handle : H} {op : Sqe}
    (hop : (handle, op) ∈ l.ops) (res : Int) :
    ∃ i l' cqe, machine.exec l [.test, .complete i res, .wake 0] = some l' ∧
      l'.phase = .batch drain 0 ∧ l'.sq = [] ∧ l'.entries = l.entries ∧ l'.running = l.running ∧
      l'.cq = [cqe] ∧ cqe.res = res ∧ cqe.entry.op = op ∧ l'.next = some (handle, cqe) := by
  have hflight : 0 < l.inFlight := by
    rw [h.inFlight_eq_length]
    exact Int.natCast_pos.mpr (List.length_pos_of_mem hop)
  obtain ⟨e, he, hwaiter⟩ := List.mem_filterMap.mp hop
  have hin : e ∈ l.kernel ++ l.sq := by
    simp only [pending, hcq, List.drop_nil, List.map_nil, List.append_nil] at he
    exact (List.perm_append_comm.mem_iff).mp he
  obtain ⟨i, hi⟩ := List.mem_iff_getElem?.mp hin
  rcases h.waiter_cases he with ⟨_, hnone⟩ | ⟨k, x, hne, hk, hx⟩
  · rw [waiter_none hnone] at hwaiter
    cases hwaiter
  · rw [waiter_some hk hx, Option.some.injEq, Prod.mk.injEq] at hwaiter
    obtain ⟨rfl, rfl⟩ := hwaiter
    obtain ⟨k', handle, result, hk', hx', hh, _⟩ := h.routing.owns e he hne
    rw [hk, Option.some.injEq] at hk'
    rw [← hk', hx, Option.some.injEq] at hx'
    refine ⟨i, { l.flush with
      phase := .batch drain 0, kernel := (l.kernel ++ l.sq).eraseIdx i,
      cq := [{ entry := e, res := res }] }, { entry := e, res := res }, ?_, rfl, rfl, rfl, rfl,
      rfl, rfl, rfl, ?_⟩
    · cases drain with
      | false =>
          simp [Machine.exec, machine, EventLoop.test, hphase, hgoes, EventLoop.complete, flush,
            hi, EventLoop.wake, hcq]
      | true =>
          simp [Machine.exec, machine, EventLoop.test, hphase, hflight, EventLoop.complete,
            flush, hi, EventLoop.wake, hcq]
    · simp [next, flush, hne, hh, hx']

/-- The dispatch of a completion leaves the loop in its batch. -/
theorem Ok.fetch_next {l l' : EventLoop H S} (h : l.Ok) {drain : Bool} {count : Nat}
    (hphase : l.phase = .batch drain count) {handle : H} {cqe : Cqe}
    (hnext : l.next = some (handle, cqe)) (hfetch : l.fetch = some l') :
    l'.phase = .resumed drain count ∧ l'.cq = l.cq ∧ l'.running = l.running := by
  obtain ⟨drain', count', hphase', hcqe, hne, _⟩ := next_eq_some hnext
  obtain ⟨rfl, rfl⟩ : drain = drain' ∧ count = count' := by
    simpa using hphase.symm.trans hphase'
  obtain ⟨_, _, _, _, _, hh, hr⟩ :=
    h.routing.owns cqe.entry ((pending_at hphase hcqe).mem_iff.mpr List.mem_cons_self) hne
  simp only [EventLoop.fetch, hphase, hcqe, if_pos hne, Option.some.injEq] at hfetch
  rw [← hfetch]
  simp only [EventLoop.dispatch, hh, hr, and_self]

end EventLoop

/-! ### A connection alone -/

namespace Live

variable {flavor : Flavor} {codec : EchoCodec} {c : CoroConnection} {t t' : Live}
variable {es : List Event}

/-- The submission entries that a completion makes the connection take. -/
def demand (flavor : Flavor) (codec : EchoCodec) (t : Live) : Event → Nat
  | .read res bytes => t.session.readDemand flavor codec res bytes
  | .write w => t.session.writeDemand w
  | .timer _ => t.session.timerDemand

/-- A step is the resumption of the coroutine that waits for the completion. -/
theorem Ok.step_resumes (hok : t.Ok) {e : Event}
    (hstep : (machine flavor codec).step t e = some t') :
    ∃ role op res bytes u, e = eventOf role res bytes ∧ t.opOf role = some op ∧
      Resumes flavor codec t.session op res bytes role u ∧ t' = settle u (t.without role) ∧
      u.posts.length = t.demand flavor codec e := by
  have hposts : t.session.posts.length = 0 := by
    rw [hok.posts]
    rfl
  rcases step_cases hstep with
    ⟨res, bytes, op, rfl, hop, hres, rfl⟩ | ⟨w, op, rfl, hop, hw, rfl⟩ | ⟨id, op, rfl, hop, rfl⟩
  · refine ⟨.reader, op, res, bytes, _, rfl, hop, .reader hres, rfl, ?_⟩
    rw [(hok.take hop).posts_readDone res hres.2, hposts, Nat.zero_add, demand]
  · refine ⟨.writer, op, w, [], _, rfl, hop, .writer hw, rfl, ?_⟩
    rw [(hok.take hop).posts_writeDone hw, hposts, Nat.zero_add, demand]
  · refine ⟨.handler id, op, 0, [], _, rfl, hop, .handler id, rfl, ?_⟩
    rw [(hok.take hop).posts_timerDone, hposts, Nat.zero_add, demand]

/-- A completed write takes one entry at most, and so does a timer. -/
theorem demand_le_one {e : Event} (he : ∀ res bytes, e ≠ .read res bytes) :
    t.demand flavor codec e ≤ 1 := by
  cases e with
  | read res bytes => exact absurd rfl (he res bytes)
  | write w =>
      rw [demand, Session.writeDemand]
      split
      · split_ifs <;> omega
      · omega
  | timer id =>
      rw [demand, Session.timerDemand]
      split <;> omega

/-- Completions of writes and timers can put the response to each request on the wire. -/
def Answers (flavor : Flavor) (codec : EchoCodec) (input : List (List UInt8)) (t : Live) : Prop :=
  ∃ ds t', (machine flavor codec).exec t ds = some t' ∧
    (∀ e, e ∈ ds → ∀ res bytes, e ≠ .read res bytes) ∧
    ∃ rs : List (RpcHeader × List UInt8),
      rs.Perm (codec.requests (frames.feed [] input).1) ∧
      t'.session.wire = (rs.map codec.respond).flatten

theorem Answers.after {input : List (List UInt8)} {e : Event}
    (hstep : (machine flavor codec).step t e = some t') (he : ∀ res bytes, e ≠ .read res bytes)
    (h : Answers flavor codec input t') : Answers flavor codec input t := by
  obtain ⟨ds, t'', hexec, hds, hrs⟩ := h
  exact ⟨e :: ds, t'', Machine.exec_cons_eq_some.mpr ⟨t', hstep, hexec⟩,
    List.forall_mem_cons.mpr ⟨he, hds⟩, hrs⟩

/-- A connection that is sent frames that fit can always answer what it has read. -/
theorem answers_exec {ms : List Message} (hread : c.FreshRead) (hwrite : c.WriteOk)
    (hfits : Fits codec c ms) (hrun : (machine flavor codec).exec (init c) es = some t)
    (hgood : ∀ e, e ∈ es → e.Succeeds) (hpre : (chunks es).flatten <+: encodedStream ms) :
    Answers flavor codec (chunks es) t := by
  -- each completion uses up a handler asleep, or bytes to be written
  induction hm : (toLex (t.session.handlers.length, t.unsent) : ℕ ×ₗ ℕ)
    using WellFoundedLT.induction generalizing es t with
  | ind m ih =>
      have hok := ok_exec hread hwrite hrun
      have hconcat : ∀ {e t'}, (machine flavor codec).step t e = some t' → e.Succeeds →
          chunks [e] = [] → toLex (t'.session.handlers.length, t'.unsent) < m →
          Answers flavor codec (chunks es) t' := by
        intro e t' hstep hsucceeds hnone hlt
        have hchunks : chunks (es ++ [e]) = chunks es := by
          rw [chunks_append, hnone, List.append_nil]
        rw [← hchunks] at hpre ⊢
        refine ih _ hlt (Machine.exec_concat_eq_some.mpr ⟨t, hrun, hstep⟩) ?_ hpre rfl
        intro d hd
        rcases List.mem_append.mp hd with hold | hnew
        · exact hgood d hold
        · rw [List.mem_singleton.mp hnew]
          exact hsucceeds
      rw [← hm] at hconcat
      rcases answered_or_possible hread hwrite hfits hrun hgood hpre with
        ⟨t', ht'⟩ | ⟨id, t', ht'⟩ | ⟨rs, hperm, hwire⟩
      · obtain ⟨_, hhandlers, _⟩ := hok.wire_write ht'
        refine .after ht' (by simp) (hconcat ht' Int.one_pos rfl ?_)
        rw [hhandlers, Prod.Lex.toLex_lt_toLex]
        exact Or.inr ⟨rfl, hok.unsent_lt Int.one_pos ht'⟩
      · obtain ⟨_, hcount⟩ := hok.wire_timer ht'
        refine .after ht' (by simp) (hconcat ht' trivial rfl ?_)
        rw [Prod.Lex.toLex_lt_toLex]
        exact Or.inl (by omega)
      · rw [(delivered_exec hread hwrite hrun).1] at hperm
        exact ⟨[], t, rfl, by simp, rs, hperm, hwire⟩

end Live

/-! ### A worker serves one of its clients -/

namespace Server

variable {flavor : Flavor} {codec : EchoCodec} {r : FixedResources} {s t : Server}
variable {drain : Bool} {cid : Nat} {p : Peer} {role : Role} {op : Sqe} {res : Int}
variable {bytes : List UInt8} {u : Session}

/-- Steps of the event loop in which no coroutine takes part. -/
theorem Ok.own_exec :
    ∀ {es : List (EventLoop.Event Handle Handle)} {s : Server} {l : EventLoop Handle Handle},
      s.Ok flavor codec r → s.crashed = false → (∀ e, e ∈ es → isOwn e = true) →
      EventLoop.machine.exec s.loop es = some l →
      (machine flavor codec).exec s (es.map .loop) = some { s with loop := l } ∧
        ({ s with loop := l } : Server).Ok flavor codec r ∧
        l.dispatched = s.loop.dispatched ∧ l.ops.Perm s.loop.ops
  | [], s, l, h, _, _, hrun => by
      cases hrun
      exact ⟨rfl, h, rfl, List.Perm.refl _⟩
  | e :: es, s, l, h, hlive, hown, hrun => by
      obtain ⟨m, hm, hrest⟩ := Machine.exec_cons_eq_some.mp hrun
      have he := hown e List.mem_cons_self
      have hstep : (machine flavor codec).step s (.loop e) = some { s with loop := m } := by
        simp [machine, hlive, he, hm]
      rcases h.loop.step_cases hm with ⟨_, _, _, _, rfl, _⟩ | ⟨_, _, _, rfl, _⟩ | hmoved
      · cases he
      · cases he
      · obtain ⟨hexec, hok, hrecord, hops⟩ := Ok.own_exec (s := { s with loop := m })
          (h.of_moved hmoved) hlive (fun e he => hown e (List.mem_cons_of_mem _ he)) hrest
        exact ⟨Machine.exec_cons_eq_some.mpr ⟨_, hstep, hexec⟩, hok,
          hrecord.trans hmoved.dispatched, hops.trans (h.loop.ops_moved hmoved)⟩

theorem resume_of_resumes {input : Input} (hp : s.peers[cid]? = some p)
    (hran : Live.Resumes flavor codec p.session op res input.bytes role u) :
    resume flavor codec input s (.session cid role) op res =
      some (s.settle input cid p.held u) := by
  cases hran with
  | reader hres =>
      simp only [resume, hp]
      exact if_pos hres
  | writer hw =>
      simp only [resume, hp]
      exact if_pos hw
  | handler id => simp only [resume, hp]

/-- Submission leaves the completions and the state of `Run` alone. -/
theorem submitAll_keeps (heap : Heap) (ops : List (Handle × Sqe)) :
    ∀ s : Server, (submitAll heap s ops).loop.phase = s.loop.phase ∧
      (submitAll heap s ops).loop.cq = s.loop.cq ∧
      (submitAll heap s ops).loop.entries = s.loop.entries ∧
      (submitAll heap s ops).loop.running = s.loop.running := by
  induction ops with
  | nil => exact fun s => ⟨rfl, rfl, rfl, rfl⟩
  | cons op ops ih =>
      intro s
      rw [submitAll]
      split
      · exact ih (s.submit heap op.1 op.2)
      · exact ⟨rfl, rfl, rfl, rfl⟩

/-- The coroutines of a connection have run and find an entry for each operation. -/
theorem settle_spec {input : Input} {held : Bool} (ht : s.settle input cid held u = t)
    (hlive : s.crashed = false) (hloop : s.loop.Ok)
    (hslots : ∀ x, x ∈ s.loop.submitted → x.1 = x.2) (hroom : u.posts.length ≤ s.room) :
    t.crashed = false ∧
      t.peers = s.peers.set cid
        { session := { u with posts := [] }, held := held && !ended u } ∧
      t.loop.phase = s.loop.phase ∧ t.loop.cq = s.loop.cq ∧
      t.loop.entries = s.loop.entries ∧ t.loop.running = s.loop.running ∧
      t.loop.ops.Perm (s.loop.ops ++ posted cid u) := by
  rw [settle] at ht
  generalize hv : ({ s with
    resources := destroy input.unregisterOk s.resources held u
    peers := s.peers.set cid
      { session := { u with posts := [] }, held := held && !ended u } } : Server) = v at ht
  subst ht
  have hcrash : (submitAll input.heap v (posted cid u)).crashed = false := by
    refine (submitAll_crashed _ _ v (by rw [← hv]; exact hlive)).mpr ?_
    rw [posted_length, ← hv]
    exact hroom
  obtain ⟨l, heq, _, _, hops⟩ := submitAll_spec (posted cid u) v (by rw [← hv]; exact hloop)
    (by rw [← hv]; exact hslots) hcrash
  have hkeeps := submitAll_keeps input.heap (posted cid u) v
  rw [heq] at hkeeps hcrash ⊢
  subst hv
  exact ⟨hcrash, rfl, hkeeps.1, hkeeps.2.1, hkeeps.2.2.1, hkeeps.2.2.2, hops⟩

/-- The coroutine returns to the batch. -/
theorem returns_eq (hlive : s.crashed = false) {count : Nat}
    (hphase : s.loop.phase = .resumed drain count) :
    s.returns = { s with loop := { s.loop with phase := .batch drain (count + 1) } } := by
  rw [Server.returns, hlive]
  simp [EventLoop.resumeReturns, hphase]

/-- An operation of connection `cid` was completed, and its coroutine has left `u`. -/
structure Served (s t : Server) (cid : Nat) (role : Role) (op : Sqe) (res : Int) (u : Session) :
    Prop where
  entries : t.loop.entries = s.loop.entries
  running : t.loop.running = s.loop.running
  peers : ∃ held, t.peers = s.peers.set cid { session := { u with posts := [] }, held := held }
  record : ∃ d, t.loop.dispatched = s.loop.dispatched ++ [d] ∧
    d.handle = .session cid role ∧ d.stored = res
  ops : ∃ rest, s.loop.ops.Perm ((.session cid role, op) :: rest) ∧
    t.loop.ops.Perm (rest ++ posted cid u)

theorem Served.peer (h : Served s t cid role op res u) (hp : s.peers[cid]? = some p) :
    ∃ held, t.peers[cid]? = some { session := { u with posts := [] }, held := held } := by
  obtain ⟨held, hpeers⟩ := h.peers
  exact ⟨held, by rw [hpeers, List.getElem?_set_self (List.getElem?_eq_some_iff.mp hp).1]⟩

/-- The operation of the connection is gone, and those posted have joined the others. -/
theorem Served.flight (h : Served s t cid role op res u) :
    ∃ rest, (opsOf cid s.loop.ops).Perm ((role, op) :: rest) ∧
      (opsOf cid t.loop.ops).Perm (rest ++ u.posts) := by
  obtain ⟨rest, hbefore, hafter⟩ := h.ops
  refine ⟨opsOf cid rest, ?_, ?_⟩
  · rw [← opsOf_cons_self]
    exact hbefore.filterMap _
  · rw [← opsOf_posted_self cid u, ← opsOf_append]
    exact hafter.filterMap _

/-- The loop comes to a completion of connection `cid`, with room for what follows. -/
theorem Ok.fetch_session (h : s.Ok flavor codec r) (hlive : s.crashed = false) {count : Nat}
    (hbatch : s.loop.phase = .batch drain count) {cqe : Cqe}
    (hnext : s.loop.next = some (.session cid role, cqe)) (hp : s.peers[cid]? = some p)
    (input : Input)
    (hran : Live.Resumes flavor codec p.session cqe.entry.op cqe.res input.bytes role u)
    (hroom : u.posts.length ≤ s.room) :
    ∃ t, s.fetch flavor codec input = some t ∧ t.crashed = false ∧ t.Ok flavor codec r ∧
      t.loop.phase = .batch drain (count + 1) ∧ t.loop.cq = s.loop.cq ∧
      Served s t cid role cqe.entry.op cqe.res u := by
  obtain ⟨d, l, hfetch, hhandle, hdcqe, hstored, hslot, hentries, hsq, hhandles⟩ :=
    h.handles_next hnext
  obtain ⟨hphase, hcq, hrunning⟩ := h.loop.fetch_next hbatch hnext hfetch
  have hres := resume_of_resumes (s := { s with loop := l }) hp hran
  have hhand := hhandles input _ hres
  have hroom' : u.posts.length ≤ ({ s with loop := l } : Server).room := by
    rw [room, hentries, hsq]
    exact hroom
  generalize hv : settle input { s with loop := l } cid p.held u = v at hres hhand
  obtain ⟨hvlive, hpeers, hphase', hcq', hentries', hrunning', hops⟩ :=
    settle_spec hv hlive hhand.loop hhand.slots hroom'
  have hok := hhand.ok hvlive
  obtain ⟨hsame, hsameOps, hsamePeers, _⟩ := hok.returns_same
  have hreturns := returns_eq hvlive (hphase'.trans hphase)
  refine ⟨v.returns, ?_, ?_, hok.returns, ?_, ?_, ?_⟩
  · rw [Server.fetch, hfetch]
    simp only [hnext, hslot, hres, Option.map_some]
  · rw [returns_crashed]
    exact hvlive
  · rw [hreturns]
  · rw [hreturns]
    exact hcq'.trans hcq
  · refine ⟨?_, ?_, ⟨_, hsamePeers.trans hpeers⟩, ⟨d, hsame.trans hhand.dispatched, hhandle,
      hstored⟩, l.ops, ?_, hsameOps.trans hops⟩
    · rw [hreturns]
      exact hentries'.trans hentries
    · rw [hreturns]
      exact hrunning'.trans hrunning
    · rw [← hhandle, ← hdcqe]
      exact hhand.ops

/-- The worker is about to test the condition of a loop of `Run`, with nothing to handle. -/
structure Rests (flavor : Flavor) (codec : EchoCodec) (r : FixedResources) (drain : Bool)
    (s : Server) : Prop where
  ok : s.Ok flavor codec r
  live : s.crashed = false
  phase : s.loop.phase = .test drain
  empty : s.loop.cq = []
  goes : drain = false → s.loop.running = true

/-- One round of the loop: an operation of connection `cid` completes and is handled. -/
theorem Rests.serve (h : Rests flavor codec r drain s) (hp : s.peers[cid]? = some p)
    (hop : (.session cid role, op) ∈ s.loop.ops)
    (hran : Live.Resumes flavor codec p.session op res bytes role u)
    (hroom : u.posts.length ≤ s.loop.entries) :
    ∃ ds t, (machine flavor codec).exec s ds = some t ∧ Rests flavor codec r drain t ∧
      Served s t cid role op res u ∧
      ∀ k, clientView flavor codec k s ds =
        if cid = k then [Live.eventOf role res bytes] else [] := by
  -- the loop waits, and the kernel completes the operation
  obtain ⟨i, l, cqe, hround, hbatch, hsq, hentries, hrunning, hlcq, rfl, rfl, hnext⟩ :=
    h.ok.loop.round h.phase h.goes h.empty hop res
  obtain ⟨hexec, hok, hrecord, hops⟩ := h.ok.own_exec h.live (by simp [isOwn]) hround
  have hfree : u.posts.length ≤ ({ s with loop := l } : Server).room := by
    rw [room, hsq, hentries]
    exact hroom
  obtain ⟨v, hfetch, hlive, hvok, hvbatch, hvcq, hserved⟩ :=
    hok.fetch_session h.live hbatch hnext hp (smallInput bytes) hran hfree
  have hfetched : (machine flavor codec).exec { s with loop := l } [.fetch (smallInput bytes)] =
      some v :=
    Machine.exec_cons_eq_some.mpr ⟨v, (if_neg (by simp [h.live])).trans hfetch, rfl⟩
  -- the batch is over
  have hadvance : EventLoop.machine.exec v.loop [.advance] =
      some { v.loop with phase := .test drain, cq := [] } := by
    simp [Machine.exec, EventLoop.machine, EventLoop.advance, hvbatch, hvcq, hlcq]
  obtain ⟨hexec', hok', _, hops'⟩ := hvok.own_exec hlive (by simp [isOwn]) hadvance
  obtain ⟨hsentries, hsrunning, hpeers, ⟨d, hd, hdrest⟩, rest, hbefore, hafter⟩ := hserved
  have hrun := Machine.exec_append_eq_some.mpr
    ⟨_, hexec, Machine.exec_append_eq_some.mpr ⟨_, hfetched, hexec'⟩⟩
  have hgoes : v.loop.running = s.loop.running := hsrunning.trans hrunning
  refine ⟨_, _, hrun, ⟨hok', hlive, rfl, rfl, fun hmain => hgoes.trans (h.goes hmain)⟩,
    ⟨hsentries.trans hentries, hgoes, hpeers, ⟨d, hd.trans (by rw [hrecord]), hdrest⟩,
      ⟨rest, hops.symm.trans hbefore, hops'.trans hafter⟩⟩, fun k => ?_⟩
  rw [clientView_append hexec, clientView_append hfetched, clientView_own, clientView_own,
    clientView_singleton]
  simp only [eventFor, hnext, List.nil_append, List.append_nil]
  rfl

/-- The worker is between two rounds, and connection `cid` is where `x` is. -/
structure Hosts (flavor : Flavor) (codec : EchoCodec) (r : FixedResources) (drain : Bool)
    (cid : Nat) (x : Live) (s : Server) : Prop where
  rests : Rests flavor codec r drain s
  peer : ∃ p, s.peers[cid]? = some p ∧ p.session = x.session
  flight : x.flight.Perm (opsOf cid s.loop.ops)

/-- A run of the worker in which exactly `fs` happens to one client and nothing to others. -/
structure ServesOnly (flavor : Flavor) (codec : EchoCodec) (cid : Nat) (fs : List Live.Event)
    (s : Server) (ds : List Event) (t : Server) : Prop where
  run : (machine flavor codec).exec s ds = some t
  view : ∀ k, clientView flavor codec k s ds = if cid = k then fs else []
  others : ∀ k, k ≠ cid → t.peers[k]? = s.peers[k]?
  entries : t.loop.entries = s.loop.entries

section Hosts

variable {x x' : Live} {fs : List Live.Event} {ds ds' : List Event}

theorem ServesOnly.trans {s' : Server} {gs : List Live.Event}
    (h : ServesOnly flavor codec cid fs s ds s') (h' : ServesOnly flavor codec cid gs s' ds' t) :
    ServesOnly flavor codec cid (fs ++ gs) s (ds ++ ds') t where
  run := Machine.exec_append_eq_some.mpr ⟨s', h.run, h'.run⟩
  view k := by
    rw [clientView_append h.run, h.view, h'.view]
    split <;> rfl
  others k hk := (h'.others k hk).trans (h.others k hk)
  entries := h'.entries.trans h.entries

theorem Hosts.ok (h : Hosts flavor codec r drain cid x s) : x.Ok := by
  obtain ⟨p, hp, hsession⟩ := h.peer
  have hok := ((h.rests.ok.consistent.peers cid p hp).reached.perm h.flight.symm).ok
  rw [hsession] at hok
  exact hok

/-- The worker follows one step of the connection. -/
theorem Hosts.step (h : Hosts flavor codec r drain cid x s) {e : Live.Event}
    (hstep : (Live.machine flavor codec).step x e = some x')
    (hroom : x.demand flavor codec e ≤ s.loop.entries) :
    ∃ ds t, ServesOnly flavor codec cid [e] s ds t ∧ Hosts flavor codec r drain cid x' t := by
  obtain ⟨role, op, res, bytes, u, rfl, hop, hran, rfl, hposts⟩ := h.ok.step_resumes hstep
  obtain ⟨p, hp, hsession⟩ := h.peer
  have hperm := Live.perm_without hop
  have hin : (.session cid role, op) ∈ s.loop.ops :=
    mem_opsOf.mp (h.flight.mem_iff.mp (hperm.mem_iff.mpr List.mem_cons_self))
  rw [← hsession] at hran
  obtain ⟨ds, t, hexec, hrests, hserved, hview⟩ := h.rests.serve hp hin hran (hposts ▸ hroom)
  obtain ⟨_, hpeers⟩ := hserved.peers
  obtain ⟨_, hp'⟩ := hserved.peer hp
  obtain ⟨rest, hbefore, hafter⟩ := hserved.flight
  refine ⟨ds, t, ⟨hexec, hview, fun k hk => ?_, hserved.entries⟩, hrests, ⟨_, hp', rfl⟩, ?_⟩
  · rw [hpeers, List.getElem?_set_ne (Ne.symm hk)]
  · have hrest := List.Perm.cons_inv ((hperm.symm.trans h.flight).trans hbefore)
    exact (hrest.append_right _).trans hafter.symm

/-- The worker follows a run of the connection. -/
theorem Hosts.exec (h : Hosts flavor codec r drain cid x s)
    (hrun : (Live.machine flavor codec).exec x fs = some x')
    (hroom : ∀ y e, (Live.machine flavor codec).Takes x fs y e →
      y.demand flavor codec e ≤ s.loop.entries) :
    ∃ ds t, ServesOnly flavor codec cid fs s ds t ∧ Hosts flavor codec r drain cid x' t := by
  refine Machine.run_induction (motive := fun fs x' =>
    (∀ y e, (Live.machine flavor codec).Takes x fs y e →
      y.demand flavor codec e ≤ s.loop.entries) →
    ∃ ds t, ServesOnly flavor codec cid fs s ds t ∧ Hosts flavor codec r drain cid x' t)
    ?_ ?_ hrun hroom
  · exact fun _ => ⟨[], s, ⟨rfl, fun k => by simp [clientView], fun _ _ => rfl, rfl⟩, h⟩
  · intro fs y e y' hy ih hstep hroom
    obtain ⟨hbefore, hlast⟩ := (Machine.forall_takes_concat hy).mp hroom
    obtain ⟨ds, t, hserves, hhosts⟩ := ih hbefore
    obtain ⟨ds', t', hserves', hhosts'⟩ := hhosts.step hstep (hserves.entries ▸ hlast)
    exact ⟨ds ++ ds', t', hserves.trans hserves', hhosts'⟩

end Hosts

/--
Clients do not hinder each other.  Between two rounds of the event loop of a worker,
whatever has happened before, everything that the coroutines of one connection can do
alone is what its client sees in some run of the worker, in which no other client sees
anything; the only condition is that no resumption takes more entries than the
submission ring has.
-/
theorem client_unhindered {entries : Nat} {listenFd : Int} {es : List Event}
    {fs : List Live.Event} {x : Live}
    (hrun : (machine flavor codec).exec (init entries listenFd r) es = some s)
    (hcrash : s.crashed = false) (hphase : s.loop.phase = .test drain) (hcq : s.loop.cq = [])
    (hgoes : drain = false → s.loop.running = true) (hp : s.peers[cid]? = some p)
    (halone : (Live.machine flavor codec).exec
      { session := p.session, flight := opsOf cid s.loop.ops } fs = some x)
    (hroom : ∀ y e, (Live.machine flavor codec).Takes
      { session := p.session, flight := opsOf cid s.loop.ops } fs y e →
      y.demand flavor codec e ≤ s.loop.entries) :
    ∃ ds t q, (machine flavor codec).exec s ds = some t ∧ t.crashed = false ∧
      t.loop.phase = .test drain ∧ t.peers[cid]? = some q ∧ q.session = x.session ∧
      clientView flavor codec cid s ds = fs ∧
      ∀ k, k ≠ cid → clientView flavor codec k s ds = [] ∧ t.peers[k]? = s.peers[k]? := by
  have hhosts : Hosts flavor codec r drain cid
      { session := p.session, flight := opsOf cid s.loop.ops } s :=
    ⟨⟨ok_exec hrun hcrash, hcrash, hphase, hcq, hgoes⟩, ⟨p, hp, rfl⟩, List.Perm.refl _⟩
  obtain ⟨ds, t, hserves, hhosts'⟩ := hhosts.exec halone hroom
  obtain ⟨q, hq, hsession⟩ := hhosts'.peer
  refine ⟨ds, t, q, hserves.run, hhosts'.rests.live, hhosts'.rests.phase, hq, hsession, ?_,
    fun k hk => ⟨?_, hserves.others k hk⟩⟩
  · rw [hserves.view, if_pos rfl]
  · rw [hserves.view, if_neg (Ne.symm hk)]

set_option maxRecDepth 4000 in
/-- The client that has sent its request gets its response; the other one is left alone. -/
theorem client_unhindered_garbage :
    ∃ s p x ds t, (machine .sync protoCodec).exec (init 8 3 smallResources) twoClients = some s ∧
      s.peers[0]? = some p ∧
      (Live.machine .sync protoCodec).exec
        { session := p.session, flight := opsOf 0 s.loop.ops } [.write 20] = some x ∧
      (machine .sync protoCodec).exec s ds = some t ∧
      clientView .sync protoCodec 0 s ds = [.write 20] ∧ t.peers[1]? = s.peers[1]? := by
  have hrun : ((machine .sync protoCodec).exec (init 8 3 smallResources) twoClients).any
      (fun s => s.crashed = false ∧ s.loop.phase = .test false ∧ s.loop.cq = [] ∧
        s.loop.running = true ∧ s.loop.entries = 8 ∧ s.peers[0]?.any (fun p =>
          ((Live.machine .sync protoCodec).exec
            { session := p.session, flight := opsOf 0 s.loop.ops } [.write 20]).isSome)) =
      true := by decide
  obtain ⟨s, hs, hstate⟩ := (Option.any_eq_true _ _).mp hrun
  obtain ⟨hcrash, hphase, hcq, hrunning, hentries, hpeer⟩ := of_decide_eq_true hstate
  obtain ⟨p, hp, hsome⟩ := (Option.any_eq_true _ _).mp hpeer
  obtain ⟨x, hx⟩ := Option.isSome_iff_exists.mp hsome
  have hroom : ∀ y e, (Live.machine .sync protoCodec).Takes
      { session := p.session, flight := opsOf 0 s.loop.ops } ([] ++ [.write 20]) y e →
      y.demand .sync protoCodec e ≤ s.loop.entries := by
    refine (Machine.forall_takes_concat rfl).mpr ⟨fun y e h => absurd h Machine.takes_nil, ?_⟩
    rw [hentries]
    exact (Live.demand_le_one (by simp)).trans (by decide)
  obtain ⟨ds, t, _, hexec, _, _, _, _, hview, hothers⟩ :=
    client_unhindered hs hcrash hphase hcq (fun _ => hrunning) hp hx hroom
  exact ⟨s, p, x, ds, t, hs, hp, hx, hexec, hview, (hothers 1 (by decide)).2⟩

/--
A client of a worker can always get its answers.  Between two rounds of the event loop,
whatever the other clients have done, if the client has sent frames that fit and none of
its operations has failed, then completions of its own writes and timers alone put the
response to each request read from it on the wire, once; no other client sees anything.
-/
theorem client_answered {entries : Nat} {listenFd : Int} {es : List Event} {ms : List Message}
    (hrun : (machine flavor codec).exec (init entries listenFd r) es = some s)
    (hcrash : s.crashed = false) (hphase : s.loop.phase = .test drain) (hcq : s.loop.cq = [])
    (hgoes : drain = false → s.loop.running = true) (hring : 0 < s.loop.entries)
    (hp : s.peers[cid]? = some p)
    (hgood : ∀ e, e ∈ clientView flavor codec cid (init entries listenFd r) es → e.Succeeds)
    (hpre : (Live.chunks (clientView flavor codec cid (init entries listenFd r) es)).flatten <+:
      encodedStream ms)
    (hfits : Live.Fits codec p.session.conn ms) :
    ∃ ds t q, (machine flavor codec).exec s ds = some t ∧ t.crashed = false ∧
      t.peers[cid]? = some q ∧
      (∀ e, e ∈ clientView flavor codec cid s ds → ∀ res bytes, e ≠ .read res bytes) ∧
      (∀ k, k ≠ cid → clientView flavor codec k s ds = [] ∧ t.peers[k]? = s.peers[k]?) ∧
      ∃ rs : List (RpcHeader × List UInt8),
        rs.Perm (codec.requests (frames.feed []
          (Live.chunks (clientView flavor codec cid (init entries listenFd r) es))).1) ∧
        q.session.wire = (rs.map codec.respond).flatten := by
  obtain ⟨c, flight, hread, hwrite, halone, hflight⟩ := (views_exec hrun hcrash).reached cid p hp
  obtain ⟨fs, x, hfs, hnoread, rs, hperm, hwire⟩ := Live.answers_exec hread hwrite
    (Live.Fits.of_exec hread hwrite halone hfits) halone hgood hpre
  have hhosts : Hosts flavor codec r drain cid { session := p.session, flight := flight } s :=
    ⟨⟨ok_exec hrun hcrash, hcrash, hphase, hcq, hgoes⟩, ⟨p, hp, rfl⟩, hflight⟩
  obtain ⟨ds, t, hserves, hhosts'⟩ := hhosts.exec hfs
    (fun y e htakes => (Live.demand_le_one (hnoread e htakes.mem)).trans hring)
  obtain ⟨q, hq, hsession⟩ := hhosts'.peer
  refine ⟨ds, t, q, hserves.run, hhosts'.rests.live, hq, ?_,
    fun k hk => ⟨?_, hserves.others k hk⟩, rs, hperm, ?_⟩
  · rw [hserves.view, if_pos rfl]
    exact hnoread
  · rw [hserves.view, if_neg (Ne.symm hk)]
  · rw [hsession]
    exact hwire

set_option maxRecDepth 4000 in
/-- The request of the client that shares its worker with one that sends garbage. -/
theorem client_answered_garbage :
    ∃ s ds t q, (machine .sync protoCodec).exec (init 8 3 smallResources) twoClients = some s ∧
      (machine .sync protoCodec).exec s ds = some t ∧ t.peers[0]? = some q ∧
      ∃ rs : List (RpcHeader × List UInt8),
        rs.Perm (protoCodec.requests (frames.feed [] [emptyRequest]).1) ∧
        q.session.wire = (rs.map protoCodec.respond).flatten := by
  have hrun : ((machine .sync protoCodec).exec (init 8 3 smallResources) twoClients).any
      (fun s => s.crashed = false ∧ s.loop.phase = .test false ∧ s.loop.cq = [] ∧
        s.loop.running = true ∧ s.loop.entries = 8 ∧ s.peers[0]?.any (fun p =>
          p.session.conn.readBuffer.capacity = 24 ∧ p.session.conn.bufSize = 24)) = true := by
    decide
  have hview : clientView .sync protoCodec 0 (init 8 3 smallResources) twoClients =
      [.read 12 emptyRequest] := by decide
  obtain ⟨s, hs, hstate⟩ := (Option.any_eq_true _ _).mp hrun
  obtain ⟨hcrash, hphase, hcq, hrunning, hentries, hpeer⟩ := of_decide_eq_true hstate
  obtain ⟨p, hp, hconn⟩ := (Option.any_eq_true _ _).mp hpeer
  obtain ⟨hcapacity, hsize⟩ := of_decide_eq_true hconn
  have hfits : Live.Fits protoCodec p.session.conn [(⟨magicNumber, 1, 0, 7, 0⟩, [])] := by
    refine ⟨by decide, fun _ _ _ hparse => protoCodec_response_lt hparse,
      fun _ => ?_, fun _ => ?_, fun _ => ?_⟩
    · rw [hcapacity]
      decide
    · rw [hcapacity]
      decide
    · rw [hsize]
      decide
  have hgood : ∀ e, e ∈ clientView .sync protoCodec 0 (init 8 3 smallResources) twoClients →
      e.Succeeds := by
    rw [hview]
    intro e he
    rw [List.mem_singleton.mp he]
    exact (by decide : (0 : Int) < 12)
  obtain ⟨ds, t, q, hexec, _, hq, _, _, rs, hperm, hwire⟩ :=
    client_answered hs hcrash hphase hcq (fun _ => hrunning) (by rw [hentries]; decide) hp hgood
      (by rw [hview]; decide) hfits
  rw [hview] at hperm
  exact ⟨s, ds, t, q, hs, hexec, hq, rs, hperm, hwire⟩

end Server

end CRpc
