import CRpc.ConnectionResources
import CRpc.Lib.Pool
import CRpc.Server

/-!
# The invariant of a worker

`Server.Ok` ties together the three parts of a worker that has not crashed.  The
bag of operations in the event loop is split among the coroutines: the accept
loop waits for one accept or for nothing, and each connection is in a state that
its own coroutines can come to (`Live.Reached`) with exactly its share of the
operations in flight.  The pools and the connections that still exist share the
registered resources the worker started with.

`Consistent` is the part that does not look at the rings.  It is stated for any
bag of operations, so that it can be kept while a coroutine runs and its
operations are not yet submitted; `submitAll_ok` then closes the gap.
-/

namespace CRpc

open Lib Protocol

/-- The buffers a connection keeps from the pool. -/
def Peer.buffers (p : Peer) : List Nat := if p.held then p.session.conn.buffers else []

/-- The file slot a connection keeps from the table. -/
def Peer.files (p : Peer) : List Nat := if p.held then p.session.conn.files else []

namespace Server

open CoroConnection (SameResources)

/-! ### Operations of one connection -/

/-- The operation, if it belongs to the connection. -/
def opFor (cid : Nat) : Handle × Sqe → Option (Role × Sqe)
  | (.session c role, op) => if c = cid then some (role, op) else none
  | (.acceptLoop, _) => none

/-- The operations of a connection. -/
def opsOf (cid : Nat) (ops : List (Handle × Sqe)) : Ops := ops.filterMap (opFor cid)

/-- The operation, if it belongs to the accept loop. -/
def acceptOp : Handle × Sqe → Option Sqe
  | (.acceptLoop, op) => some op
  | (.session _ _, _) => none

/-- The operations of the accept loop. -/
def acceptOps (ops : List (Handle × Sqe)) : List Sqe := ops.filterMap acceptOp

theorem opsOf_append (cid : Nat) (ops ops' : List (Handle × Sqe)) :
    opsOf cid (ops ++ ops') = opsOf cid ops ++ opsOf cid ops' :=
  List.filterMap_append

theorem acceptOps_append (ops ops' : List (Handle × Sqe)) :
    acceptOps (ops ++ ops') = acceptOps ops ++ acceptOps ops' :=
  List.filterMap_append

theorem opsOf_cons_self (cid : Nat) (role : Role) (op : Sqe) (ops : List (Handle × Sqe)) :
    opsOf cid ((.session cid role, op) :: ops) = (role, op) :: opsOf cid ops :=
  List.filterMap_cons_some (by simp [opFor])

theorem opsOf_cons_other {cid c : Nat} (hne : c ≠ cid) (role : Role) (op : Sqe)
    (ops : List (Handle × Sqe)) :
    opsOf cid ((.session c role, op) :: ops) = opsOf cid ops :=
  List.filterMap_cons_none (by simp [opFor, hne])

theorem opsOf_accept (cid : Nat) (op : Sqe) : opsOf cid [(.acceptLoop, op)] = [] := rfl

@[simp] theorem opsOf_posted_self (cid : Nat) (t : Session) :
    opsOf cid (posted cid t) = t.posts := by
  rw [opsOf, posted, List.filterMap_map]
  refine (List.filterMap_congr fun op _ => ?_).trans (List.filterMap_some)
  simp [opFor]

theorem opsOf_posted_other {cid c : Nat} (hne : c ≠ cid) (t : Session) :
    opsOf cid (posted c t) = [] := by
  rw [opsOf, posted, List.filterMap_map, List.filterMap_eq_nil_iff]
  intro op _
  simp [opFor, hne]

@[simp] theorem acceptOps_posted (cid : Nat) (t : Session) :
    acceptOps (posted cid t) = [] := by
  rw [acceptOps, posted, List.filterMap_map, List.filterMap_eq_nil_iff]
  exact fun op _ => rfl

theorem ended_eq_true {t : Session} :
    ended t = true ↔ t.reader = .done ∧ t.writer = .done := by
  simp [ended]

/-! ### The invariant -/

/-- A connection while control is in the event loop. -/
structure PeerOk (flavor : Flavor) (codec : EchoCodec) (ops : Ops) (p : Peer) : Prop where
  reached : Live.Reached flavor codec p.session ops
  held : p.held = !ended p.session
  opened : p.session.conn.closed = false

/-- The coroutines wait for the operations `ops`, and no resource is lost. -/
structure Consistent (flavor : Flavor) (codec : EchoCodec) (r : FixedResources)
    (ops : List (Handle × Sqe)) (s : Server) : Prop where
  peers : ∀ cid p, s.peers[cid]? = some p → PeerOk flavor codec (opsOf cid ops) p
  known : ∀ cid, s.peers.length ≤ cid → opsOf cid ops = []
  accepting : (acceptOps ops).length = if s.accept = .onAccept then 1 else 0
  buffers : (s.resources.freeBufIndices ++ s.peers.flatMap Peer.buffers).Perm
    r.freeBufIndices
  files : (s.resources.freeFileIndices ++ s.peers.flatMap Peer.files).Perm
    r.freeFileIndices

/-- The invariant of a worker. -/
structure Ok (flavor : Flavor) (codec : EchoCodec) (r : FixedResources) (s : Server) :
    Prop where
  loop : s.loop.Ok
  slots : ∀ x, x ∈ s.loop.submitted → x.1 = x.2
  consistent : Consistent flavor codec r s.loop.ops s

variable {flavor : Flavor} {codec : EchoCodec} {r : FixedResources} {s : Server}
variable {ops ops' : List (Handle × Sqe)}

theorem PeerOk.perm {p : Peer} {ops ops' : Ops} (h : PeerOk flavor codec ops p)
    (hperm : ops.Perm ops') : PeerOk flavor codec ops' p where
  reached := h.reached.perm hperm
  held := h.held
  opened := h.opened

/-- The order of the operations does not matter. -/
theorem Consistent.perm (h : Consistent flavor codec r ops s) (hperm : ops.Perm ops') :
    Consistent flavor codec r ops' s where
  peers cid p hp := (h.peers cid p hp).perm (hperm.filterMap _)
  known cid hcid := by
    have hnone := (hperm.filterMap (opFor cid)).length_eq
    rw [show ops.filterMap (opFor cid) = [] from h.known cid hcid] at hnone
    exact List.length_eq_zero_iff.mp hnone.symm
  accepting := by
    rw [← h.accepting]
    exact (hperm.filterMap acceptOp).length_eq.symm
  buffers := h.buffers
  files := h.files

/-! ### A coroutine of a connection runs -/

/-- The resources after the coroutines of a connection ran. -/
theorem destroy_resources {p : Peer} {t : Session} (hopen : p.session.conn.closed = false)
    (hsame : SameResources p.session.conn t.conn) (updateOk : Bool) (r : FixedResources) :
    ((destroy updateOk r p.held t).freeBufIndices ++
        Peer.buffers { session := { t with posts := [] }, held := p.held && !ended t }).Perm
      (r.freeBufIndices ++ p.buffers) ∧
    ((destroy updateOk r p.held t).freeFileIndices ++
        Peer.files { session := { t with posts := [] }, held := p.held && !ended t }).Perm
      (r.freeFileIndices ++ p.files) := by
  have hclose := CoroConnection.close_resources (hsame.closed.trans hopen) r updateOk
  rw [hsame.buffers_eq, hsame.files_eq] at hclose
  cases hheld : p.held <;> cases hended : ended t <;>
    simp [destroy, Peer.buffers, Peer.files, hheld, hended, hclose, hsame.buffers_eq,
      hsame.files_eq]

section Resumes

variable {t t' : Session} {op : Sqe} {res : Int} {bytes : List UInt8} {role : Role}
variable {base : Ops}

theorem resumes_sameResources (h : Live.Resumes flavor codec t op res bytes role t')
    (hok : t.Ok ((role, op) :: base)) : SameResources t.conn t'.conn := by
  cases h with
  | reader hread => exact hok.sameResources_readDone res hread.2
  | writer hw => exact hok.sameResources_writeDone hw
  | handler id => exact hok.sameResources_timerDone

/-- A connection whose loops have ended is not revived. -/
theorem resumes_ended (h : Live.Resumes flavor codec t op res bytes role t')
    (hok : t.Ok ((role, op) :: base)) (hended : ended t = true) : ended t' = true := by
  obtain ⟨hreader, hwriter⟩ := ended_eq_true.mp hended
  cases h with
  | reader hread =>
      rw [hok.resumeReader.1] at hreader
      cases hreader
  | writer hw =>
      obtain ⟨f, hf, _⟩ := hok.resumeWriter
      rw [hf] at hwriter
      cases hwriter
  | handler id =>
      obtain ⟨hd, hfind, hrun⟩ := hok.resumeHandler
      have hpush := hrun.push_writer (codec.response_ne_nil hd.header hd.message)
      have hframe := Session.frame_push
        { t with handlers := t.handlers.eraseP (fun hd => hd.id = id) }
        (codec.response hd.header hd.message)
      rw [Session.timerDone, hfind, ended_eq_true]
      refine ⟨hframe.reader.trans hreader, ?_⟩
      rw [hpush, if_neg (by simp [hwriter])]
      exact hwriter

end Resumes

/-- A coroutine of connection `cid` was resumed and ran. -/
theorem Consistent.settle {cid : Nat} {role : Role} {op : Sqe} {res : Int}
    {bytes : List UInt8} {p : Peer} {t : Session}
    (h : Consistent flavor codec r ((.session cid role, op) :: ops) s)
    (hp : s.peers[cid]? = some p)
    (hran : Live.Resumes flavor codec p.session op res bytes role t) (updateOk : Bool) :
    Consistent flavor codec r (ops ++ posted cid t)
      { s with
        resources := destroy updateOk s.resources p.held t
        peers := s.peers.set cid
          { session := { t with posts := [] }, held := p.held && !ended t } } := by
  have hpeer := h.peers cid p hp
  have hreached := hpeer.reached
  rw [opsOf_cons_self] at hreached
  have hsame := resumes_sameResources hran hreached.ok.session
  obtain ⟨hbuffers, hfiles⟩ :=
    destroy_resources hpeer.opened hsame updateOk s.resources
  have hother : ∀ c, c ≠ cid →
      opsOf c (ops ++ posted cid t) = opsOf c ((.session cid role, op) :: ops) := by
    intro c hne
    rw [opsOf_append, opsOf_posted_other hne.symm, List.append_nil,
      opsOf_cons_other hne.symm]
  constructor
  · intro c q hq
    by_cases hc : c = cid
    · subst hc
      obtain ⟨hlt, _⟩ := List.getElem?_eq_some_iff.mp hp
      rw [List.getElem?_set_self hlt, Option.some.injEq] at hq
      subst hq
      refine ⟨?_, ?_, hsame.closed.trans hpeer.opened⟩
      · rw [opsOf_append, opsOf_posted_self]
        exact hreached.resumes hran
      · change (p.held && !ended t) = !ended t
        rw [hpeer.held]
        cases hbefore : ended p.session with
        | false => rfl
        | true => rw [resumes_ended hran hreached.ok.session hbefore]; rfl
    · rw [List.getElem?_set_ne (Ne.symm hc)] at hq
      rw [hother c hc]
      exact h.peers c q hq
  · intro c hc
    obtain ⟨hlt, _⟩ := List.getElem?_eq_some_iff.mp hp
    rw [List.length_set] at hc
    rw [hother c (by omega)]
    exact h.known c hc
  · rw [acceptOps_append, acceptOps_posted, List.append_nil]
    exact h.accepting
  · exact pool_set h.buffers hp hbuffers
  · exact pool_set h.files hp hfiles

/-! ### A connection is accepted -/

theorem Consistent.connect (h : Consistent flavor codec r ops s) {input : Input}
    (hsized : input.Sized s.resources) (clientFd : Int) {made : CoroConnection × FixedResources}
    (hmade : CoroConnection.create s.resources clientFd input.registerOk input.readMem
      input.writeMem = made) :
    Consistent flavor codec r (ops ++ posted s.peers.length (Session.start made.1))
      { s with
        resources := made.2
        peers := s.peers ++
          [{ session := { Session.start made.1 with posts := [] }, held := true }] } := by
  have hbuffers := CoroConnection.create_buffers s.resources clientFd input.registerOk
    input.readMem input.writeMem
  have hfiles := CoroConnection.create_files s.resources clientFd input.registerOk
    input.readMem input.writeMem
  have hread := CoroConnection.freshRead_create s.resources clientFd input.registerOk
    hsized.1 input.writeMem
  have hwrite := CoroConnection.writeOk_create s.resources clientFd input.registerOk
    input.readMem input.writeMem hsized.2
  have hopen : (CoroConnection.create s.resources clientFd input.registerOk input.readMem
    input.writeMem).1.closed = false := rfl
  rw [hmade] at hbuffers hfiles hread hwrite hopen
  have hsame := Session.sameResources_start made.1
  have hnotEnded : ended (Session.start made.1) = false := by
    rw [Session.start_eq]
    rfl
  constructor
  · intro cid p hp
    rcases Nat.lt_or_ge cid s.peers.length with hlt | hge
    · rw [List.getElem?_append_left hlt] at hp
      rw [opsOf_append, opsOf_posted_other (by omega), List.append_nil]
      exact h.peers cid p hp
    · rw [List.getElem?_append_right hge] at hp
      obtain ⟨hzero, hp⟩ := List.getElem?_eq_some_iff.mp hp
      simp only [List.length_singleton, Nat.lt_one_iff] at hzero
      obtain rfl : cid = s.peers.length := by omega
      simp only [Nat.sub_self, List.getElem_cons_zero] at hp
      subst hp
      rw [opsOf_append, h.known _ le_rfl, opsOf_posted_self]
      refine ⟨Live.reached_start hread hwrite, ?_, hsame.closed.trans hopen⟩
      change true = !ended (Session.start made.1)
      rw [hnotEnded]
      rfl
  · intro cid hcid
    rw [List.length_append, List.length_singleton] at hcid
    rw [opsOf_append, opsOf_posted_other (by omega), List.append_nil]
    exact h.known cid (by omega)
  · rw [acceptOps_append, acceptOps_posted, List.append_nil]
    exact h.accepting
  · have hnew : Peer.buffers
        { session := { Session.start made.1 with posts := [] }, held := true } =
        made.1.buffers := hsame.buffers_eq
    exact pool_concat h.buffers (by rw [hnew]; exact hbuffers)
  · have hnew : Peer.files
        { session := { Session.start made.1 with posts := [] }, held := true } =
        made.1.files := hsame.files_eq
    exact pool_concat h.files (by rw [hnew, hfiles])

/-! ### Submission -/

theorem Heap.freshFor (heap : Heap) (p : RequestPool Handle Handle) :
    p.FreshFor (heap.new p.allocated) :=
  fun _ => ⟨heap.ne_zero _, heap.notMem _⟩

/-- One operation goes from the coroutine to the ring. -/
theorem submit_ok (heap : Heap) (handle : Handle) (op : Sqe) (hloop : s.loop.Ok)
    (hslots : ∀ x, x ∈ s.loop.submitted → x.1 = x.2) :
    (s.submit heap handle op).loop.Ok ∧
      (∀ x, x ∈ (s.submit heap handle op).loop.submitted → x.1 = x.2) ∧
      (s.submit heap handle op).loop.ops.Perm (s.loop.ops ++ [(handle, op)]) := by
  refine ⟨hloop.submit op handle handle (Heap.freshFor heap _), ?_,
    hloop.ops_submit op handle handle _⟩
  intro x hx
  rcases List.mem_append.mp hx with hin | hlast
  · exact hslots x hin
  · rw [List.mem_singleton.mp hlast]

/-- Submission touches only the event loop, and not its phase. -/
theorem submitAll_frame (heap : Heap) (ops : List (Handle × Sqe)) :
    ∀ s : Server, ∃ l crashed, submitAll heap s ops = { s with loop := l, crashed := crashed } ∧
      l.phase = s.loop.phase := by
  induction ops with
  | nil => exact fun s => ⟨s.loop, s.crashed, rfl, rfl⟩
  | cons op ops ih =>
      intro s
      rw [submitAll]
      split
      · obtain ⟨l, crashed, heq, hphase⟩ := ih (s.submit heap op.1 op.2)
        exact ⟨l, crashed, heq, hphase⟩
      · exact ⟨s.loop, true, rfl, rfl⟩

/-- A coroutine that finds all its entries only adds its operations to the bag. -/
theorem submitAll_spec {heap : Heap} (ops : List (Handle × Sqe)) :
    ∀ s : Server, s.loop.Ok → (∀ x, x ∈ s.loop.submitted → x.1 = x.2) →
      (submitAll heap s ops).crashed = false →
      ∃ l, submitAll heap s ops = { s with loop := l } ∧ l.Ok ∧
        (∀ x, x ∈ l.submitted → x.1 = x.2) ∧ l.ops.Perm (s.loop.ops ++ ops) := by
  induction ops with
  | nil =>
      intro s hloop hslots _
      exact ⟨s.loop, rfl, hloop, hslots, by rw [List.append_nil]⟩
  | cons op ops ih =>
      obtain ⟨handle, op⟩ := op
      intro s hloop hslots hcrash
      rw [submitAll] at hcrash ⊢
      split at hcrash
      next hroom =>
        rw [if_pos hroom]
        obtain ⟨hloop', hslots', hops⟩ := submit_ok heap handle op hloop hslots
        obtain ⟨l, heq, hl, hsl, hperm⟩ := ih _ hloop' hslots' hcrash
        refine ⟨l, heq, hl, hsl, ?_⟩
        rw [List.append_cons]
        exact hperm.trans (hops.append_right ops)
      next => cases hcrash

/-- The operations a coroutine posted complete the invariant once all are submitted. -/
theorem submitAll_ok {heap : Heap} {ops : List (Handle × Sqe)} (hloop : s.loop.Ok)
    (hslots : ∀ x, x ∈ s.loop.submitted → x.1 = x.2)
    (hcons : Consistent flavor codec r (s.loop.ops ++ ops) s)
    (hcrash : (submitAll heap s ops).crashed = false) :
    (submitAll heap s ops).Ok flavor codec r := by
  obtain ⟨l, heq, hl, hsl, hperm⟩ := submitAll_spec ops s hloop hslots hcrash
  rw [heq]
  exact ⟨hl, hsl, Consistent.perm { hcons with } hperm.symm⟩

/-- The accept loop posts its next accept, or ends. -/
theorem Ok.acceptLoop (h : s.Ok flavor codec r) (hwait : s.accept ≠ .onAccept) (heap : Heap) :
    (s.acceptLoop heap).Ok flavor codec r := by
  have hnone := h.consistent.accepting
  rw [if_neg hwait] at hnone
  rw [Server.acceptLoop]
  split
  · obtain ⟨hloop, hslots, hops⟩ :=
      submit_ok heap .acceptLoop (.accept s.listenFd) h.loop h.slots
    refine ⟨hloop, hslots, Consistent.perm ?_ hops.symm⟩
    exact { h.consistent with
      peers := fun cid p hp => by
        rw [opsOf_append, opsOf_accept, List.append_nil]
        exact h.consistent.peers cid p hp
      known := fun cid hcid => by
        rw [opsOf_append, opsOf_accept, List.append_nil]
        exact h.consistent.known cid hcid
      accepting := by
        rw [acceptOps_append, List.length_append, hnone]
        rfl }
  · exact ⟨h.loop, h.slots, { h.consistent with accepting := hnone }⟩

/-! ### Resumption -/

/-- A step of the event loop that leaves the operations alone. -/
theorem Ok.of_moved (h : s.Ok flavor codec r) {l : EventLoop Handle Handle}
    (hmoved : EventLoop.Moved s.loop l) : ({ s with loop := l } : Server).Ok flavor codec r where
  loop := h.loop.moved hmoved
  slots := by
    rw [hmoved.submitted]
    exact h.slots
  consistent := Consistent.perm { h.consistent with } (h.loop.ops_moved hmoved).symm

theorem Ok.returns (h : s.Ok flavor codec r) : s.returns.Ok flavor codec r := by
  rw [Server.returns]
  split
  · exact h
  · split
    next l hl =>
      rcases h.loop.step_cases (e := .resumeReturns) hl with
        ⟨_, _, _, _, he, _⟩ | ⟨_, _, _, he, _⟩ | hmoved
      · cases he
      · cases he
      · exact h.of_moved hmoved
    next => exact h

/-- What `handle.resume()` can do. -/
theorem resume_cases {input : Input} {handle : Handle} {op : Sqe} {res : Int} {s' : Server}
    (hres : resume flavor codec input s handle op res = some s') :
    (handle = .acceptLoop ∧ input.Sized s.resources ∧ s' = s.acceptDone input res) ∨
      (∃ cid role, handle = .session cid role ∧ s.peers[cid]? = none ∧
        s' = { s with crashed := true }) ∨
      (∃ cid role p t, handle = .session cid role ∧ s.peers[cid]? = some p ∧
        Live.Resumes flavor codec p.session op res input.bytes role t ∧
        s' = s.settle input cid p.held t) := by
  cases handle with
  | acceptLoop =>
      simp only [resume, Option.ite_none_right_eq_some, Option.some.injEq] at hres
      exact Or.inl ⟨rfl, hres.1, hres.2.symm⟩
  | session cid role =>
      simp only [resume] at hres
      split at hres
      next hp =>
        cases hres
        exact Or.inr (Or.inl ⟨cid, role, rfl, hp, rfl⟩)
      next p hp =>
        refine Or.inr (Or.inr ⟨cid, role, p, ?_⟩)
        cases role with
        | reader =>
            simp only [Option.ite_none_right_eq_some, Option.some.injEq] at hres
            exact ⟨_, rfl, hp, .reader hres.1, hres.2.symm⟩
        | writer =>
            simp only [Option.ite_none_right_eq_some, Option.some.injEq] at hres
            exact ⟨_, rfl, hp, .writer hres.1, hres.2.symm⟩
        | handler id =>
            simp only [Option.some.injEq] at hres
            exact ⟨_, rfl, hp, .handler id, hres.symm⟩

theorem acceptDone_ok {input : Input} {op : Sqe} (hloop : s.loop.Ok)
    (hslots : ∀ x, x ∈ s.loop.submitted → x.1 = x.2)
    (h : Consistent flavor codec r ((.acceptLoop, op) :: s.loop.ops) s)
    (hsized : input.Sized s.resources) (res : Int)
    (hcrash : (s.acceptDone input res).crashed = false) :
    (s.acceptDone input res).Ok flavor codec r := by
  have hnone : (acceptOps s.loop.ops).length = 0 := by
    have hone : (acceptOps s.loop.ops).length + 1 = _ := h.accepting
    split at hone <;> omega
  -- the accept loop waits for nothing while it runs
  have hrun : ∀ st, st ≠ .onAccept →
      Consistent flavor codec r s.loop.ops { s with accept := st } := by
    intro st hst
    exact { h with
      accepting := by rw [hnone, if_neg hst] }
  rw [acceptDone] at hcrash ⊢
  split
  · exact ⟨hloop, hslots, hrun .done (by simp)⟩
  next hfd =>
    rw [if_neg hfd] at hcrash
    have hconn := (hrun .running (by simp)).connect hsized res rfl
    simp only at hcrash ⊢
    split
    next hcrashed =>
      rw [if_pos hcrashed, hcrashed] at hcrash
      cases hcrash
    next hlive =>
      have hok : (({ s with accept := .running } : Server).connect input res).Ok flavor codec r :=
        submitAll_ok hloop hslots hconn ((Bool.not_eq_true _).mp hlive)
      refine hok.acceptLoop ?_ input.heap
      obtain ⟨l, crashed, heq, _⟩ := submitAll_frame input.heap _ _
      rw [connect, heq]
      simp

/-- A resumed coroutine finds its operation done and leaves the invariant. -/
theorem resume_ok {input : Input} {handle : Handle} {op : Sqe} {res : Int} {s' : Server}
    (hloop : s.loop.Ok) (hslots : ∀ x, x ∈ s.loop.submitted → x.1 = x.2)
    (h : Consistent flavor codec r ((handle, op) :: s.loop.ops) s)
    (hres : resume flavor codec input s handle op res = some s')
    (hcrash : s'.crashed = false) : s'.Ok flavor codec r := by
  rcases resume_cases hres with
    ⟨rfl, hsized, rfl⟩ | ⟨_, _, _, _, rfl⟩ | ⟨cid, role, p, t, rfl, hp, hran, rfl⟩
  · exact acceptDone_ok hloop hslots h hsized res hcrash
  · cases hcrash
  · exact submitAll_ok hloop hslots (h.settle hp hran input.unregisterOk) hcrash

/-- What the next completion can do: none is left, or the coroutine that waits runs. -/
theorem Ok.fetch_cases (h : s.Ok flavor codec r) {input : Input} {s' : Server}
    (hstep : s.fetch flavor codec input = some s') :
    ∃ l, s.loop.fetch = some l ∧
      ((EventLoop.Moved s.loop l ∧ s' = { s with loop := l }) ∨
        ∃ handle op res t, l.Ok ∧ l.phase.inCoroutine = true ∧
          l.submitted = s.loop.submitted ∧ s.loop.ops.Perm ((handle, op) :: l.ops) ∧
          resume flavor codec input { s with loop := l } handle op res = some t ∧
          s' = t.returns) := by
  rw [Server.fetch] at hstep
  split at hstep
  next => cases hstep
  next l hl =>
    refine ⟨l, hl, ?_⟩
    split at hstep
    next hnext =>
      cases hstep
      rcases h.loop.step_cases (e := .fetch) hl with
        ⟨_, _, _, _, he, _⟩ | ⟨drain, count, cqe, _, hphase, hcqe, hne, _⟩ | hmoved
      · cases he
      · -- a pending completion has a coroutine to resume
        obtain ⟨k, handle, _, _, _, hh, _⟩ := h.loop.routing.owns cqe.entry
          ((EventLoop.pending_at hphase hcqe).mem_iff.mpr List.mem_cons_self) hne
        simp [EventLoop.next, hphase, hcqe, hne, hh] at hnext
      · exact Or.inl ⟨hmoved, rfl⟩
    next handle cqe hnext =>
      obtain ⟨_, _, slot, l', hfetch, hloop, hphase, _, _, hsubmitted, _, _, hops⟩ :=
        h.loop.ops_dispatch hnext
      obtain rfl : l' = l := Option.some.inj (hfetch.symm.trans hl)
      obtain ⟨t, ht, rfl⟩ := Option.map_eq_some_iff.mp hstep
      exact Or.inr ⟨handle, _, _, t, hloop, by rw [hphase]; rfl, hsubmitted, hops, ht, rfl⟩

theorem crashed_of_returns (hcrash : s.returns.crashed = false) : s.crashed = false := by
  cases hc : s.crashed with
  | false => rfl
  | true =>
      rw [Server.returns, if_pos hc, hc] at hcrash
      cases hcrash

theorem Ok.fetch (h : s.Ok flavor codec r) {input : Input} {s' : Server}
    (hstep : s.fetch flavor codec input = some s') (hcrash : s'.crashed = false) :
    s'.Ok flavor codec r := by
  obtain ⟨l, _, ⟨hmoved, rfl⟩ |
    ⟨handle, op, res, t, hloop, _, hsubmitted, hops, ht, rfl⟩⟩ := h.fetch_cases hstep
  · exact h.of_moved hmoved
  · refine (resume_ok hloop ?_ ?_ ht (crashed_of_returns hcrash)).returns
    · intro x hx
      exact h.slots x (hsubmitted ▸ hx)
    · exact Consistent.perm { h.consistent with } hops

theorem Ok.start (h : s.Ok flavor codec r) {heap : Heap} {s' : Server}
    (hstep : s.start heap = some s') : s'.Ok flavor codec r := by
  simp only [Server.start, Option.ite_none_right_eq_some, Option.some.injEq] at hstep
  obtain ⟨⟨_, haccept⟩, rfl⟩ := hstep
  have hrunning : ({ s with running := true } : Server).Ok flavor codec r :=
    ⟨h.loop, h.slots, { h.consistent with }⟩
  exact hrunning.acceptLoop (by simp [haccept]) heap

/-- Every step that does not crash keeps the invariant. -/
theorem ok_step {s' : Server} {e : Event} (h : s.Ok flavor codec r)
    (hstep : (machine flavor codec).step s e = some s') (hcrash : s'.crashed = false) :
    s'.Ok flavor codec r := by
  simp only [machine, Option.ite_none_left_eq_some] at hstep
  obtain ⟨_, hstep⟩ := hstep
  cases e with
  | start heap => exact h.start hstep
  | stop =>
      cases hstep
      exact ⟨h.loop, h.slots, { h.consistent with }⟩
  | fetch input => exact h.fetch hstep hcrash
  | loop e =>
      simp only [Option.ite_none_right_eq_some, Option.map_eq_some_iff] at hstep
      obtain ⟨hown, l, hl, rfl⟩ := hstep
      rcases h.loop.step_cases hl with ⟨_, _, _, _, rfl, _⟩ | ⟨_, _, _, rfl, _⟩ | hmoved
      · cases hown
      · cases hown
      · exact h.of_moved hmoved

/-- A worker that takes a step has not crashed. -/
theorem crashed_of_step {s' : Server} {e : Event}
    (hstep : (machine flavor codec).step s e = some s') : s.crashed = false := by
  simp only [machine, Option.ite_none_left_eq_some] at hstep
  exact (Bool.not_eq_true _).mp hstep.1

theorem ok_init (entries : Nat) (listenFd : Int) (r : FixedResources) :
    (init entries listenFd r).Ok flavor codec r where
  loop := EventLoop.ok_init entries _
  slots := by simp [init, EventLoop.init]
  consistent :=
    { peers := by simp [init]
      known := fun _ _ => rfl
      accepting := rfl
      buffers := by simp [init]
      files := by simp [init] }

/-- The invariant holds in every run that has not crashed. -/
theorem ok_exec {entries : Nat} {listenFd : Int} {es : List Event} {t : Server}
    (hrun : (machine flavor codec).exec (init entries listenFd r) es = some t)
    (hcrash : t.crashed = false) : t.Ok flavor codec r := by
  refine Machine.exec_invariant (I := fun s => s.crashed = false → s.Ok flavor codec r) ?_ hrun
    (fun _ => ok_init entries listenFd r) hcrash
  intro m e m' hm hstep hcrash'
  exact ok_step (hm (crashed_of_step hstep)) hstep hcrash'

end Server

end CRpc
