import CRpc.ServerInvariant
import CRpc.WriteOrder

/-!
# Registered resources outlive the operations that name them

A `CoroConnection` of an echo server is destroyed, and its file slot and its two
buffers go back to the pools, when the later of its two loops ends.  Which loop
that is depends on the results of the operations, and the write loop may be
anywhere when the read loop leaves.

In every state of a worker in which control is back in the event loop,

* an operation in flight that names a registered buffer or a file slot belongs to
  a connection that exists and holds it, so it is not in a pool
  (`resources_outlive_operations`, first part);
* a connection that exists has a read or a write in flight (second part), so its
  loops will be resumed.

The assumption is that `io_uring_get_sqe` has not returned null (`crashed = false`).
-/

namespace CRpc

open Lib Protocol

/-- The registered buffer an operation names. -/
def Sqe.buffer : Sqe → Option Nat
  | .read _ idx _ _ => idx
  | .write _ idx _ _ => idx
  | _ => none

/-- The target of an operation. -/
def Sqe.target : Sqe → Option Target
  | .read target _ _ _ => some target
  | .write target _ _ _ => some target
  | _ => none

namespace Session

variable {base : Ops} {s : Session}

/--
An operation that names a buffer or a slot belongs to a loop that has not ended, and
names what the connection holds.
-/
structure Names (s : Session) (op : Sqe) : Prop where
  running : op.buffer.isSome ∨ op.target.isSome → s.reader ≠ .done ∨ s.writer ≠ .done
  buffer : ∀ idx, op.buffer = some idx → idx ∈ s.conn.buffers
  slot : ∀ idx, op.target = some (.fixedFile idx) → idx ∈ s.conn.files

theorem mem_files_of_target {c : CoroConnection} {idx : Nat} (h : c.target = .fixedFile idx) :
    idx ∈ c.files := by
  rw [CoroConnection.target] at h
  split at h
  next slot hslot =>
    cases h
    rw [CoroConnection.files, hslot]
    exact List.mem_singleton_self _
  next => cases h

theorem Ok.names (h : Ok base s) {role : Role} {op : Sqe} (hop : (role, op) ∈ base ++ s.posts) :
    s.Names op := by
  cases role with
  | reader =>
      have hreader := h.onRead_of_mem hop rfl
      obtain ⟨addr, len, hread, _⟩ := h.reading hreader
      obtain rfl := h.op_unique .reader hop hread
      refine ⟨fun _ => Or.inl (by simp [hreader]), ?_, ?_⟩
      · intro idx hidx
        rw [CoroConnection.buffers, show s.conn.readBufIdx = some idx from hidx]
        exact List.mem_append_left _ (List.mem_singleton_self idx)
      · intro idx hidx
        exact mem_files_of_target (Option.some.inj hidx)
  | writer =>
      obtain ⟨f, hwriter⟩ := h.onWrite_of_mem hop rfl
      obtain ⟨_, sqe, hwrite, hstaged⟩ := h.writing f hwriter
      obtain rfl := h.op_unique .writer hop hwrite
      obtain ⟨len, rfl⟩ := hstaged.op
      refine ⟨fun _ => Or.inr (by simp [hwriter]), ?_, ?_⟩
      · intro idx hidx
        rw [CoroConnection.buffers, show s.conn.writeBufIdx = some idx from hidx]
        exact List.mem_append_right _ (List.mem_singleton_self idx)
      · intro idx hidx
        exact mem_files_of_target (Option.some.inj hidx)
  | handler id =>
      obtain rfl : op = .timeout 0 10000000 := h.sleeping _ hop id rfl
      refine ⟨?_, ?_, ?_⟩
      · rintro (hsome | hsome) <;> cases hsome
      · intro idx hidx
        cases hidx
      · intro idx hidx
        cases hidx

end Session

namespace Server

variable {flavor : Flavor} {codec : EchoCodec} {r : FixedResources} {s t : Server}

theorem mem_opsOf {cid : Nat} {role : Role} {op : Sqe} {ops : List (Handle × Sqe)} :
    (role, op) ∈ opsOf cid ops ↔ (.session cid role, op) ∈ ops := by
  rw [opsOf, List.mem_filterMap]
  constructor
  · rintro ⟨⟨handle, op'⟩, hmem, hop⟩
    cases handle with
    | acceptLoop => cases hop
    | session c role' =>
        simp only [opFor, Option.ite_none_right_eq_some, Option.some.injEq, Prod.mk.injEq] at hop
        obtain ⟨rfl, rfl, rfl⟩ := hop
        exact hmem
  · intro hmem
    exact ⟨_, hmem, if_pos rfl⟩

/-! ### The accept loop names no registered resource -/

/-- The operations of the accept loop are accepts. -/
def AcceptsOnly (ops : List (Handle × Sqe)) : Prop :=
  ∀ op, (Handle.acceptLoop, op) ∈ ops → ∃ fd, op = .accept fd

theorem AcceptsOnly.of_perm {ops ops' : List (Handle × Sqe)} (h : AcceptsOnly ops)
    (hperm : ops'.Perm ops) : AcceptsOnly ops' :=
  fun op hop => h op (hperm.mem_iff.mp hop)

theorem AcceptsOnly.posted {ops : List (Handle × Sqe)} (h : AcceptsOnly ops) (cid : Nat)
    (t : Session) : AcceptsOnly (ops ++ posted cid t) := by
  intro op hop
  rcases List.mem_append.mp hop with hop | hop
  · exact h op hop
  · obtain ⟨_, _, heq⟩ := List.mem_map.mp hop
    cases heq

theorem AcceptsOnly.acceptLoop (h : AcceptsOnly s.loop.ops) (hloop : s.loop.Ok) (heap : Heap) :
    AcceptsOnly (s.acceptLoop heap).loop.ops := by
  rw [Server.acceptLoop]
  split
  · intro op hop
    have hops := hloop.ops_submit (.accept s.listenFd) Handle.acceptLoop Handle.acceptLoop
      (heap.new s.loop.pool.allocated)
    rcases List.mem_append.mp (hops.mem_iff.mp hop) with hop | hop
    · exact h op hop
    · cases List.mem_singleton.mp hop
      exact ⟨_, rfl⟩
  · exact h

/-- What a coroutine of a connection posts is not the accept loop's. -/
theorem acceptsOnly_submitAll {l : EventLoop Handle Handle} {heap : Heap} {cid : Nat}
    {t : Session} (hcrash : (submitAll heap s (posted cid t)).crashed = false) (hl : s.loop = l)
    (h : AcceptsOnly l.ops) (hloop : l.Ok) (hslots : ∀ x, x ∈ l.submitted → x.1 = x.2) :
    AcceptsOnly (submitAll heap s (posted cid t)).loop.ops ∧
      (submitAll heap s (posted cid t)).loop.Ok := by
  subst hl
  obtain ⟨l', heq, hl', _, hperm⟩ := submitAll_spec (posted cid t) s hloop hslots hcrash
  rw [heq]
  exact ⟨(h.posted cid t).of_perm hperm, hl'⟩

theorem AcceptsOnly.resume {input : Input} {handle : Handle} {op : Sqe} {res : Int}
    (h : AcceptsOnly s.loop.ops) (hloop : s.loop.Ok)
    (hslots : ∀ x, x ∈ s.loop.submitted → x.1 = x.2)
    (hres : resume flavor codec input s handle op res = some t) (hcrash : t.crashed = false) :
    AcceptsOnly t.loop.ops := by
  rcases resume_cases hres with
    ⟨_, _, rfl⟩ | ⟨_, _, _, _, rfl⟩ | ⟨cid, role, p, t, _, _, _, rfl⟩
  · rw [acceptDone] at hcrash ⊢
    split
    · exact h
    next hfd =>
      rw [if_neg hfd] at hcrash
      simp only at hcrash ⊢
      split
      next hcrashed =>
        rw [if_pos hcrashed, hcrashed] at hcrash
        cases hcrash
      next hlive =>
        have hlive' := (Bool.not_eq_true _).mp hlive
        rw [connect] at hlive' ⊢
        obtain ⟨hops, hl⟩ := acceptsOnly_submitAll hlive' rfl h hloop hslots
        exact hops.acceptLoop hl input.heap
  · cases hcrash
  · exact (acceptsOnly_submitAll hcrash rfl h hloop hslots).1

theorem AcceptsOnly.moved {l l' : EventLoop Handle Handle} (h : AcceptsOnly l.ops) (hok : l.Ok)
    (hmoved : EventLoop.Moved l l') : AcceptsOnly l'.ops :=
  h.of_perm (hok.ops_moved hmoved)

theorem AcceptsOnly.returns (h : AcceptsOnly s.loop.ops) (hloop : s.loop.Ok) :
    AcceptsOnly s.returns.loop.ops := by
  rw [Server.returns]
  split
  · exact h
  · split
    next l hl =>
      rcases hloop.step_cases (e := .resumeReturns) hl with
        ⟨_, _, _, _, he, _⟩ | ⟨_, _, _, he, _⟩ | hmoved
      · cases he
      · cases he
      · exact h.moved hloop hmoved
    next => exact h

theorem acceptsOnly_step {e : Event} (hok : s.Ok flavor codec r) (h : AcceptsOnly s.loop.ops)
    (hstep : (machine flavor codec).step s e = some t) (hcrash : t.crashed = false) :
    AcceptsOnly t.loop.ops := by
  simp only [machine, Option.ite_none_left_eq_some] at hstep
  obtain ⟨_, hstep⟩ := hstep
  cases e with
  | start heap =>
      simp only [Server.start, Option.ite_none_right_eq_some, Option.some.injEq] at hstep
      obtain ⟨_, rfl⟩ := hstep
      exact AcceptsOnly.acceptLoop (s := { s with running := true }) h hok.loop heap
  | stop =>
      cases hstep
      exact h
  | fetch input =>
      obtain ⟨l, _, ⟨hmoved, rfl⟩ |
        ⟨handle, op, res, m, hloop, _, hsubmitted, hops, hm, rfl⟩⟩ := hok.fetch_cases hstep
      · exact h.moved hok.loop hmoved
      · have hlive := crashed_of_returns hcrash
        have hslots : ∀ x, x ∈ l.submitted → x.1 = x.2 := by
          rw [hsubmitted]
          exact hok.slots
        have hrest : AcceptsOnly l.ops := fun op hop =>
          h op (hops.mem_iff.mpr (List.mem_cons_of_mem _ hop))
        have hcons : Consistent flavor codec r ((handle, op) :: l.ops) { s with loop := l } :=
          Consistent.perm { hok.consistent with } hops
        have hm_ok := resume_ok (s := { s with loop := l }) hloop hslots hcons hm hlive
        exact (AcceptsOnly.resume (s := { s with loop := l }) hrest hloop hslots hm hlive).returns
          hm_ok.loop
  | loop e =>
      simp only [Option.ite_none_right_eq_some, Option.map_eq_some_iff] at hstep
      obtain ⟨hown, l, hl, rfl⟩ := hstep
      rcases hok.loop.step_cases hl with ⟨_, _, _, _, rfl, _⟩ | ⟨_, _, _, rfl, _⟩ | hmoved
      · cases hown
      · cases hown
      · exact h.moved hok.loop hmoved

theorem acceptsOnly_exec {entries : Nat} {listenFd : Int} {es : List Event}
    (hrun : (machine flavor codec).exec (init entries listenFd r) es = some t)
    (hcrash : t.crashed = false) : AcceptsOnly t.loop.ops := by
  refine Machine.run_induction
    (motive := fun _ t => t.crashed = false → AcceptsOnly t.loop.ops) ?_ ?_ hrun hcrash
  · intro _ op hop
    cases hop
  · intro es m e m' hm ih hstep hcrash'
    have hlive := crashed_of_step hstep
    exact acceptsOnly_step (ok_exec hm hlive) (ih hlive) hstep hcrash'

/-! ### Lifetime -/

/-- An operation in flight for a connection names what that connection holds. -/
theorem Ok.names (h : s.Ok flavor codec r) {cid : Nat} {role : Role} {op : Sqe}
    (hop : (Handle.session cid role, op) ∈ s.loop.ops) :
    ∃ p, s.peers[cid]? = some p ∧ (∀ idx, op.buffer = some idx → idx ∈ p.buffers) ∧
      ∀ idx, op.target = some (.fixedFile idx) → idx ∈ p.files := by
  have hin := mem_opsOf.mpr hop
  cases hp : s.peers[cid]? with
  | none =>
      rw [h.consistent.known cid (List.getElem?_eq_none_iff.mp hp)] at hin
      cases hin
  | some p =>
      have hpeer := h.consistent.peers cid p hp
      have hnames := hpeer.reached.ok.session.names (List.mem_append_left _ hin)
      have hheld : op.buffer.isSome ∨ op.target.isSome → p.held = true := by
        intro hsome
        rw [hpeer.held, Bool.not_eq_true']
        cases hended : ended p.session with
        | false => rfl
        | true =>
            obtain ⟨hreader, hwriter⟩ := ended_eq_true.mp hended
            exact absurd (hnames.running hsome) (by simp [hreader, hwriter])
      refine ⟨p, rfl, ?_, ?_⟩
      · intro idx hidx
        rw [Peer.buffers, if_pos (hheld (Or.inl (by rw [hidx]; rfl)))]
        exact hnames.buffer idx hidx
      · intro idx hidx
        rw [Peer.files, if_pos (hheld (Or.inr (by rw [hidx]; rfl)))]
        exact hnames.slot idx hidx

/-- A connection that exists waits for a read or a write. -/
theorem Ok.transfer (h : s.Ok flavor codec r) {cid : Nat} {p : Peer}
    (hp : s.peers[cid]? = some p) (hheld : p.held = true) :
    ∃ role op, (Handle.session cid role, op) ∈ s.loop.ops ∧ op.isTransfer = true := by
  have hpeer := h.consistent.peers cid p hp
  have hok := hpeer.reached.ok
  have hrunning : p.session.reader ≠ .done ∨ p.session.writer ≠ .done := by
    by_contra hdone
    push Not at hdone
    rw [hpeer.held, ended_eq_true.mpr hdone] at hheld
    cases hheld
  obtain ⟨role, op, hop, htransfer⟩ := hok.transfer hrunning
  exact ⟨role, op, mem_opsOf.mp hop, htransfer⟩

/--
Registered resources outlive the operations that name them.  In every run of an echo
server, with any number of connections and any results: a buffer or slot that an
operation in flight names is not free, but held by the connection whose coroutine
waits for the operation; every connection that still exists has a read or a write
in flight; and the resources of the pools are, each once, either free or held by one
connection that still exists.
-/
theorem resources_outlive_operations {enable memalignOk buffersOk filesOk : Bool}
    {bufCount bufSize entries : Nat} {listenFd : Int} {es : List Event}
    (hrun : (machine flavor codec).exec (init entries listenFd
      (FixedResources.setup enable bufCount bufSize memalignOk buffersOk filesOk)) es = some t)
    (hcrash : t.crashed = false) :
    (∀ handle op, (handle, op) ∈ t.loop.ops →
      (∀ idx, op.buffer = some idx → idx ∉ t.resources.freeBufIndices ∧
        ∃ cid role p, handle = .session cid role ∧ t.peers[cid]? = some p ∧ p.held = true ∧
          idx ∈ p.session.conn.buffers) ∧
      (∀ idx, op.target = some (.fixedFile idx) → idx ∉ t.resources.freeFileIndices ∧
        ∃ cid role p, handle = .session cid role ∧ t.peers[cid]? = some p ∧ p.held = true ∧
          idx ∈ p.session.conn.files)) ∧
    (∀ cid p, t.peers[cid]? = some p → p.held = true →
      ∃ role op, (Handle.session cid role, op) ∈ t.loop.ops ∧ op.isTransfer = true) ∧
    (t.resources.freeBufIndices ++ t.peers.flatMap Peer.buffers).Perm
      (FixedResources.setup enable bufCount bufSize memalignOk buffersOk filesOk).freeBufIndices ∧
    (t.resources.freeFileIndices ++ t.peers.flatMap Peer.files).Perm
      (FixedResources.setup enable bufCount bufSize memalignOk buffersOk
        filesOk).freeFileIndices := by
  obtain ⟨hbuffers, hfiles⟩ :=
    FixedResources.setup_nodup enable bufCount bufSize memalignOk buffersOk filesOk
  have hok := ok_exec hrun hcrash
  refine ⟨?_, fun cid p hp hheld => hok.transfer hp hheld, hok.consistent.buffers,
    hok.consistent.files⟩
  intro handle op hop
  cases handle with
  | acceptLoop =>
      obtain ⟨fd, rfl⟩ := acceptsOnly_exec hrun hcrash op hop
      refine ⟨?_, ?_⟩
      · intro idx hidx
        cases hidx
      · intro idx hidx
        cases hidx
  | session cid role =>
      obtain ⟨p, hp, hnamed, hslot⟩ := hok.names hop
      have hmem := List.mem_of_getElem? hp
      refine ⟨?_, ?_⟩
      · intro idx hidx
        have hheld := hnamed idx hidx
        refine ⟨?_, cid, role, p, rfl, hp, List.mem_ite_nil_right.mp hheld⟩
        exact fun hfree => pool_free_disjoint hok.consistent.buffers hbuffers hmem hfree hheld
      · intro idx hidx
        have hheld := hslot idx hidx
        refine ⟨?_, cid, role, p, rfl, hp, List.mem_ite_nil_right.mp hheld⟩
        exact fun hfree => pool_free_disjoint hok.consistent.files hfiles hmem hfree hheld

set_option maxRecDepth 2000 in
/-- The peer of the first connection closes; the second one is given its resources. -/
theorem resources_outlive_operations_release :
    ∃ t,
      (machine .async protoCodec).exec (init 8 3 (FixedResources.setup true 4 24 true true true))
        [.start countingHeap, .loop .run, .loop .test, .loop (.complete 0 5), .loop (.wake 0),
          .fetch (smallInput []), .loop .advance, .loop .test, .loop (.complete 0 0),
          .loop (.complete 0 6), .loop (.wake 0), .fetch (smallInput []),
          .fetch (smallInput [])] = some t ∧
      t.crashed = false ∧ t.peers.map Peer.held = [false, true] ∧
      (∀ cid p, t.peers[cid]? = some p → p.held = true →
        ∃ role op, (Handle.session cid role, op) ∈ t.loop.ops ∧ op.isTransfer = true) ∧
      (t.resources.freeBufIndices ++ t.peers.flatMap Peer.buffers).Perm [0, 1, 2, 3] := by
  have hrun : ((machine .async protoCodec).exec
      (init 8 3 (FixedResources.setup true 4 24 true true true))
      [.start countingHeap, .loop .run, .loop .test, .loop (.complete 0 5), .loop (.wake 0),
        .fetch (smallInput []), .loop .advance, .loop .test, .loop (.complete 0 0),
        .loop (.complete 0 6), .loop (.wake 0), .fetch (smallInput []),
        .fetch (smallInput [])]).any
        (fun t => t.crashed = false ∧ t.peers.map Peer.held = [false, true]) = true := by
    decide
  obtain ⟨t, ht, hlive⟩ := (Option.any_eq_true _ _).mp hrun
  obtain ⟨hcrash, hheld⟩ := of_decide_eq_true hlive
  obtain ⟨_, htransfer, hbuffers, _⟩ := resources_outlive_operations ht hcrash
  exact ⟨t, ht, hcrash, hheld, htransfer, hbuffers⟩

end Server

end CRpc
