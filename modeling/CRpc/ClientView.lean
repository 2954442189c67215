import CRpc.ServerProjection
import CRpc.WorkerHistory

/-!
# What one client sees of a worker

A worker serves many clients on one event loop, from shared pools of buffers and
file slots.  `clientView` extracts from a run of the worker what has happened to one
connection: the completions of its own reads, writes and timers, with the bytes its
reads have stored.

`views_exec` says that the connection is where these completions alone bring it.
Hence what a client is sent depends on nothing that other clients do
(`client_isolated`): the answers are answers to requests that it has sent itself,
each once.
-/

namespace CRpc

open Lib Protocol

namespace Live

variable {flavor : Flavor} {codec : EchoCodec} {session t' : Session} {ops ops' : Ops}

/-- The completion of the operation of a coroutine. -/
def eventOf : Role → Int → List UInt8 → Event
  | .reader, res, bytes => .read res bytes
  | .writer, res, _ => .write res
  | .handler id, _, _ => .timer id

/-- A session that the completions `es` have brought a new connection to. -/
def ReachedBy (flavor : Flavor) (codec : EchoCodec) (es : List Event) (session : Session)
    (ops : Ops) : Prop :=
  ∃ (c : CoroConnection) (flight : Ops), c.FreshRead ∧ c.WriteOk ∧
    (machine flavor codec).exec (init c) es = some { session := session, flight := flight } ∧
    flight.Perm ops

theorem ReachedBy.perm {es : List Event} (h : ReachedBy flavor codec es session ops)
    (hperm : ops.Perm ops') : ReachedBy flavor codec es session ops' := by
  obtain ⟨c, flight, hread, hwrite, hrun, hflight⟩ := h
  exact ⟨c, flight, hread, hwrite, hrun, hflight.trans hperm⟩

theorem ReachedBy.resumes {es : List Event} {op : Sqe} {res : Int} {bytes : List UInt8}
    {role : Role} (h : ReachedBy flavor codec es session ((role, op) :: ops))
    (hran : Resumes flavor codec session op res bytes role t') :
    ReachedBy flavor codec (es ++ [eventOf role res bytes]) { t' with posts := [] }
      (ops ++ t'.posts) := by
  obtain ⟨c, flight, hread, hwrite, hrun, hflight⟩ := h
  have hop := (ok_exec hread hwrite hrun).opOf_of_mem
    (hflight.mem_iff.mpr List.mem_cons_self)
  have hstep : (machine flavor codec).step { session := session, flight := flight }
      (eventOf role res bytes) = some (settle t' (without
        { session := session, flight := flight } role)) := by
    cases hran with
    | reader hres => simp only [eventOf, machine, hop, if_pos hres]
    | writer hw => simp only [eventOf, machine, hop, if_pos hw]
    | handler id => simp only [eventOf, machine, hop]
  refine ⟨c, _, hread, hwrite, Machine.exec_concat_eq_some.mpr ⟨_, hrun, hstep⟩, ?_⟩
  exact (List.Perm.cons_inv ((perm_without hop).symm.trans hflight)).append_right _

end Live

namespace Server

variable {flavor : Flavor} {codec : EchoCodec} {r : FixedResources} {s s' t : Server}
variable {ops ops' : List (Handle × Sqe)} {peers : List Peer} {view : Nat → List Live.Event}

/-- What a step of the worker is for the connection `cid`. -/
def eventFor (cid : Nat) (s : Server) : Event → List Live.Event
  | .fetch input =>
      match s.loop.next with
      | some (.session c role, cqe) =>
          if c = cid then [Live.eventOf role cqe.res input.bytes] else []
      | _ => []
  | _ => []

/-- What has happened to the connection `cid` in a run. -/
def clientView (flavor : Flavor) (codec : EchoCodec) (cid : Nat) :
    Server → List Event → List Live.Event
  | _, [] => []
  | s, e :: es =>
      s.eventFor cid e ++
        match (machine flavor codec).step s e with
        | some t => clientView flavor codec cid t es
        | none => []

theorem clientView_append {cid : Nat} {ds : List Event} :
    ∀ {es : List Event} {s : Server}, (machine flavor codec).exec s es = some t →
      clientView flavor codec cid s (es ++ ds) =
        clientView flavor codec cid s es ++ clientView flavor codec cid t ds
  | [], s, hrun => by
      cases hrun
      rfl
  | d :: es, s, hrun => by
      obtain ⟨m, hm, hrest⟩ := Machine.exec_cons_eq_some.mp hrun
      simp only [List.cons_append, clientView, hm, clientView_append hrest, List.append_assoc]

theorem clientView_singleton (cid : Nat) (s : Server) (e : Event) :
    clientView flavor codec cid s [e] = s.eventFor cid e := by
  simp only [clientView]
  split <;> simp

theorem clientView_concat {cid : Nat} {e : Event} {es : List Event}
    (hrun : (machine flavor codec).exec s es = some t) :
    clientView flavor codec cid s (es ++ [e]) =
      clientView flavor codec cid s es ++ t.eventFor cid e := by
  rw [clientView_append hrun, clientView_singleton]

/-- The steps in which no coroutine takes part are nobody's. -/
theorem clientView_own (cid : Nat) :
    ∀ (es : List (EventLoop.Event Handle Handle)) (s : Server),
      clientView flavor codec cid s (es.map .loop) = []
  | [], _ => rfl
  | e :: es, s => by
      simp only [List.map_cons, clientView, eventFor, List.nil_append]
      split
      · exact clientView_own cid es _
      · rfl

/-- Every connection is where its own completions have brought it. -/
structure Views (flavor : Flavor) (codec : EchoCodec) (ops : List (Handle × Sqe))
    (peers : List Peer) (view : Nat → List Live.Event) : Prop where
  reached : ∀ cid p, peers[cid]? = some p →
    Live.ReachedBy flavor codec (view cid) p.session (opsOf cid ops)
  known : ∀ cid, peers.length ≤ cid → view cid = [] ∧ opsOf cid ops = []

namespace Views

theorem of_opsOf (h : Views flavor codec ops peers view)
    (hops : ∀ cid, (opsOf cid ops).Perm (opsOf cid ops')) :
    Views flavor codec ops' peers view where
  reached cid p hp := (h.reached cid p hp).perm (hops cid)
  known cid hcid := by
    obtain ⟨hview, hnone⟩ := h.known cid hcid
    have hperm := hops cid
    rw [hnone] at hperm
    exact ⟨hview, hperm.nil_eq.symm⟩

theorem perm (h : Views flavor codec ops peers view) (hperm : ops.Perm ops') :
    Views flavor codec ops' peers view :=
  h.of_opsOf fun _ => hperm.filterMap _

/-- The operation of the accept loop belongs to no connection. -/
theorem dropAccept {op : Sqe} (h : Views flavor codec ((.acceptLoop, op) :: ops) peers view) :
    Views flavor codec ops peers view :=
  h.of_opsOf fun _ => List.Perm.refl _

theorem addAccept (h : Views flavor codec ops peers view) (op : Sqe) :
    Views flavor codec (ops ++ [(.acceptLoop, op)]) peers view :=
  h.of_opsOf fun cid => by rw [opsOf_append, opsOf_accept, List.append_nil]

/-- A coroutine of connection `cid` has run. -/
theorem settle {cid : Nat} {role : Role} {op : Sqe} {res : Int} {bytes : List UInt8} {p : Peer}
    {u : Session} (h : Views flavor codec ((.session cid role, op) :: ops) peers view)
    (hp : peers[cid]? = some p)
    (hran : Live.Resumes flavor codec p.session op res bytes role u) (held : Bool) :
    Views flavor codec (ops ++ posted cid u)
      (peers.set cid { session := { u with posts := [] }, held := held })
      (fun c => view c ++ if cid = c then [Live.eventOf role res bytes] else []) where
  reached c q hq := by
    rcases getElem?_set_cases hq with ⟨rfl, rfl⟩ | ⟨hne, hq⟩
    · have hreached := h.reached cid p hp
      rw [opsOf_cons_self] at hreached
      rw [if_pos rfl, opsOf_append, opsOf_posted_self]
      exact hreached.resumes hran
    · have hreached := h.reached c q hq
      rw [opsOf_cons_other hne] at hreached
      rw [if_neg hne, List.append_nil, opsOf_append, opsOf_posted_other hne, List.append_nil]
      exact hreached
  known c hc := by
    obtain ⟨hlt, _⟩ := List.getElem?_eq_some_iff.mp hp
    rw [List.length_set] at hc
    have hne : cid ≠ c := by omega
    obtain ⟨hview, hnone⟩ := h.known c hc
    rw [opsOf_cons_other hne] at hnone
    rw [if_neg hne, List.append_nil, opsOf_append, opsOf_posted_other hne, List.append_nil]
    exact ⟨hview, hnone⟩

/-- A connection is made. -/
theorem connect {c : CoroConnection} (h : Views flavor codec ops peers view)
    (hread : c.FreshRead) (hwrite : c.WriteOk) :
    Views flavor codec (ops ++ posted peers.length (Session.start c))
      (peers ++ [{ session := { Session.start c with posts := [] }, held := true }]) view where
  reached cid p hp := by
    rcases getElem?_concat_cases hp with ⟨rfl, rfl⟩ | ⟨hlt, hp⟩
    · obtain ⟨hview, hnone⟩ := h.known _ le_rfl
      rw [hview, opsOf_append, hnone, opsOf_posted_self]
      exact ⟨c, _, hread, hwrite, rfl, List.Perm.refl _⟩
    · rw [opsOf_append, opsOf_posted_other (by omega), List.append_nil]
      exact h.reached cid p hp
  known cid hcid := by
    rw [List.length_append, List.length_singleton] at hcid
    rw [opsOf_append, opsOf_posted_other (by omega), List.append_nil]
    exact h.known cid (by omega)

/-- The accept loop posts its next accept, or ends. -/
theorem acceptLoop (h : Views flavor codec s.loop.ops s.peers view) (hloop : s.loop.Ok)
    (hslots : ∀ x, x ∈ s.loop.submitted → x.1 = x.2) (heap : Heap) :
    Views flavor codec (s.acceptLoop heap).loop.ops (s.acceptLoop heap).peers view := by
  rw [Server.acceptLoop]
  split
  · obtain ⟨_, _, hops⟩ := submit_ok heap .acceptLoop (.accept s.listenFd) hloop hslots
    exact (h.addAccept _).perm hops.symm
  · exact h

end Views

/-- One completion is handled: it belongs to the view of one connection, or to none. -/
theorem Handles.views {input : Input} {d : Dispatch Handle Handle} {l : EventLoop Handle Handle}
    (h : Handles flavor codec r s input d l t) (hcrash : t.crashed = false)
    (hviews : Views flavor codec s.loop.ops s.peers view) :
    Views flavor codec t.loop.ops t.peers
      (fun cid => view cid ++ s.eventFor cid (.fetch input)) := by
  have hbefore := hviews.perm h.ops
  rcases resume_cases h.ran with
    ⟨hd, hsized, rfl⟩ | ⟨_, _, _, _, rfl⟩ | ⟨cid, role, p, u, hd, hp, hran, rfl⟩
  · have hnone : ∀ cid, s.eventFor cid (.fetch input) = [] := by
      intro cid
      simp only [eventFor, h.next, hd]
    simp only [hnone, List.append_nil]
    rw [hd] at hbefore
    have hrest := hbefore.dropAccept
    rw [acceptDone] at hcrash ⊢
    split
    · exact hrest
    next hfd =>
      rw [if_neg hfd] at hcrash
      simp only at hcrash ⊢
      split
      next hcrashed =>
        rw [if_pos hcrashed, hcrashed] at hcrash
        cases hcrash
      next hlive =>
        obtain ⟨l', heq, hl', hslots, hops⟩ := submitAll_spec _ _ h.loop h.slots
          ((Bool.not_eq_true _).mp hlive)
        have hmade := hrest.connect (CoroConnection.freshRead_create s.resources d.stored
          input.registerOk hsized.1 input.writeMem) (CoroConnection.writeOk_create s.resources
          d.stored input.registerOk input.readMem input.writeMem hsized.2)
        rw [connect, heq]
        exact (hmade.perm hops.symm).acceptLoop hl' hslots input.heap
  · cases hcrash
  · have hone : ∀ c, s.eventFor c (.fetch input) =
        if cid = c then [Live.eventOf role d.stored input.bytes] else [] := by
      intro c
      simp only [eventFor, h.next, hd, h.stored]
    simp only [hone]
    rw [hd] at hbefore
    obtain ⟨l', heq, _, _, hops⟩ := submitAll_spec (posted cid u) _ h.loop h.slots hcrash
    rw [Server.settle, heq]
    exact (hbefore.settle hp hran _).perm hops.symm

theorem views_step {e : Event} (h : s.Ok flavor codec r)
    (hviews : Views flavor codec s.loop.ops s.peers view)
    (hstep : (machine flavor codec).step s e = some s') (hcrash : s'.crashed = false) :
    Views flavor codec s'.loop.ops s'.peers (fun cid => view cid ++ s.eventFor cid e) := by
  simp only [machine, Option.ite_none_left_eq_some] at hstep
  obtain ⟨_, hstep⟩ := hstep
  cases e with
  | start heap =>
      simp only [Server.start, Option.ite_none_right_eq_some, Option.some.injEq] at hstep
      obtain ⟨_, rfl⟩ := hstep
      simp only [eventFor, List.append_nil]
      exact hviews.acceptLoop (s := { s with running := true }) h.loop h.slots heap
  | stop =>
      cases hstep
      simp only [eventFor, List.append_nil]
      exact hviews
  | fetch input =>
      rcases h.fetch_handles hstep with ⟨l, hnext, _, hmoved, rfl⟩ | ⟨d, l, t, hran, rfl⟩
      · simp only [eventFor, hnext, List.append_nil]
        exact hviews.perm (h.loop.ops_moved hmoved).symm
      · have hlive := crashed_of_returns hcrash
        obtain ⟨_, hops, hpeers, _⟩ := (hran.ok hlive).returns_same
        rw [hpeers]
        exact (hran.views hlive hviews).perm hops.symm
  | loop e =>
      simp only [Option.ite_none_right_eq_some, Option.map_eq_some_iff] at hstep
      obtain ⟨hown, l, hl, rfl⟩ := hstep
      simp only [eventFor, List.append_nil]
      rcases h.loop.step_cases hl with ⟨_, _, _, _, rfl, _⟩ | ⟨_, _, _, rfl, _⟩ | hmoved
      · cases hown
      · cases hown
      · exact hviews.perm (h.loop.ops_moved hmoved).symm

/-- Each connection of a worker runs on its own completions. -/
theorem views_exec {entries : Nat} {listenFd : Int} {es : List Event}
    (hrun : (machine flavor codec).exec (init entries listenFd r) es = some t)
    (hcrash : t.crashed = false) :
    Views flavor codec t.loop.ops t.peers
      (fun cid => clientView flavor codec cid (init entries listenFd r) es) := by
  refine Machine.run_induction (motive := fun es t => t.crashed = false →
    Views flavor codec t.loop.ops t.peers
      (fun cid => clientView flavor codec cid (init entries listenFd r) es)) ?_ ?_ hrun hcrash
  · intro _
    exact ⟨fun cid p hp => by simp [init] at hp, fun cid _ => ⟨rfl, rfl⟩⟩
  · intro es s e s' hs ih hstep hcrash'
    have hbefore := crashed_of_step hstep
    simp only [clientView_concat hs]
    exact views_step (ok_exec hs hbefore) (ih hbefore) hstep hcrash'

/--
Clients are isolated from each other.  In every run of a worker, what a client has
been sent is a beginning of the responses to requests `rs` that stand in the bytes
read from this client; each of its requests is in `rs` once or in the hands of a
handler that sleeps, and the synchronous server answers in order.
-/
theorem client_isolated {entries : Nat} {listenFd : Int} {es : List Event} {cid : Nat} {p : Peer}
    (hrun : (machine flavor codec).exec (init entries listenFd r) es = some t)
    (hcrash : t.crashed = false) (hp : t.peers[cid]? = some p) :
    ∃ rs : List (RpcHeader × List UInt8),
      p.session.wire <+: (rs.map codec.respond).flatten ∧
      (rs ++ p.session.handlers.map Handler.request).Perm
        (codec.requests (frames.feed []
          (Live.chunks (clientView flavor codec cid (init entries listenFd r) es))).1) ∧
      (flavor = .sync → rs = codec.requests (frames.feed []
        (Live.chunks (clientView flavor codec cid (init entries listenFd r) es))).1) := by
  obtain ⟨c, flight, hread, hwrite, hlive, _⟩ := (views_exec hrun hcrash).reached cid p hp
  obtain ⟨rs, hpushed, hperm, hsync⟩ := Live.answered_exec hread hwrite hlive
  have hdelivered := (Live.delivered_exec hread hwrite hlive).1
  simp only at hpushed hperm hsync hdelivered
  rw [hdelivered] at hperm hsync
  refine ⟨rs, ?_, hperm, fun hflavor => (hsync hflavor).2⟩
  rw [← hpushed]
  exact (Live.ok_exec hread hwrite hlive).wire_prefix_pushed

/-- Two clients, one of which sends garbage; the request of the other one is its own. -/
def twoClients : List Event :=
  [.start countingHeap, .loop .run, .loop .test, .loop (.complete 0 5), .loop (.wake 0),
    .fetch (smallInput []), .loop .advance, .loop .test, .loop (.complete 1 6),
    .loop (.wake 0), .fetch (smallInput []), .loop .advance, .loop .test,
    .loop (.complete 1 3), .loop (.complete 0 12), .loop (.wake 0),
    .fetch (smallInput [0, 0, 0]), .fetch (smallInput emptyRequest), .loop .advance]

set_option maxRecDepth 4000 in
theorem client_isolated_garbage :
    ∃ t p, (machine .sync protoCodec).exec (init 8 3 smallResources) twoClients = some t ∧
      t.peers[0]? = some p ∧
      clientView .sync protoCodec 0 (init 8 3 smallResources) twoClients =
        [.read 12 emptyRequest] ∧
      ∃ rs : List (RpcHeader × List UInt8),
        p.session.wire <+: (rs.map protoCodec.respond).flatten ∧
        rs = protoCodec.requests (frames.feed [] [emptyRequest]).1 := by
  have hrun : ((machine .sync protoCodec).exec (init 8 3 smallResources) twoClients).any
      (fun t => t.crashed = false ∧ t.peers[0]?.isSome) = true := by decide
  have hview : clientView .sync protoCodec 0 (init 8 3 smallResources) twoClients =
      [.read 12 emptyRequest] := by decide
  obtain ⟨t, ht, hstate⟩ := (Option.any_eq_true _ _).mp hrun
  obtain ⟨hcrash, hsome⟩ := of_decide_eq_true hstate
  obtain ⟨p, hp⟩ := Option.isSome_iff_exists.mp hsome
  obtain ⟨rs, hwire, _, hsync⟩ := client_isolated ht hcrash hp
  rw [hview] at hsync
  exact ⟨t, p, ht, hp, hview, rs, hwire, hsync rfl⟩

end Server

end CRpc
