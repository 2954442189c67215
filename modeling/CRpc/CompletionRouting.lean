import CRpc.EventLoop

/-!
# Completion routing

Each completion reaches the result slot and the coroutine of the `Submit` call
that posted its operation, exactly once, whatever the coroutines and the kernel
do.

The argument has three layers.

* `PoolOk`: the nodes of the request pool are split into nodes owned by
  operations and the free list.  `PoolOk.alloc` and `PoolOk.release` are the two
  transfers between the parts.
* `Routing`: every pending entry owns a node that holds the handle and the slot
  of its ticket, and the tickets not pending have been dispatched.  It does not
  depend on which ring an entry is in.
* `EventLoop.Ok`: `Routing` for the entries in the rings, kept by every step.
-/

namespace CRpc

open Lib

universe u v

variable {H : Type u} {S : Type v}

/-! ### The request pool -/

/-- The pool consists of the nodes `owned` by operations and the list `free`. -/
structure PoolOk (p : RequestPool H S) (owned free : List Nat) : Prop where
  chain : Chain 0 p.nextFree p.reqPoolHead free
  owned_nodup : owned.Nodup
  disjoint : ∀ a, a ∈ free → a ∉ owned
  owned_allocated : ∀ a, a ∈ owned → a ∈ p.allocated
  free_allocated : ∀ a, a ∈ free → a ∈ p.allocated
  null_notMem : 0 ∉ p.allocated

namespace PoolOk

variable {p : RequestPool H S} {owned owned' free : List Nat}

theorem perm (h : PoolOk p owned free) (hperm : owned.Perm owned') :
    PoolOk p owned' free where
  chain := h.chain
  owned_nodup := hperm.nodup_iff.mp h.owned_nodup
  disjoint a ha := fun hin => h.disjoint a ha (hperm.mem_iff.mpr hin)
  owned_allocated a ha := h.owned_allocated a (hperm.mem_iff.mpr ha)
  free_allocated := h.free_allocated
  null_notMem := h.null_notMem

/-- Links of a pool in which one node has been overwritten. -/
theorem nextFree_update (node : Nat → RequestData H S) (req a : Nat)
    (d : RequestData H S) (hne : a ≠ req) :
    (Function.update node req d a).nextFree = (node a).nextFree := by
  rw [Function.update_of_ne hne]

theorem allocRequestData_of_empty (hhead : p.reqPoolHead = 0) (handle : H)
    (result : S) (fresh : Nat) :
    p.allocRequestData handle result fresh =
      (fresh,
        { p with
          node := Function.update p.node fresh
            { handle := some handle, result := some result, nextFree := 0 }
          allocated := fresh :: p.allocated }) :=
  if_neg (not_not.mpr hhead)

theorem allocRequestData_of_head (hhead : p.reqPoolHead ≠ 0) (handle : H)
    (result : S) (fresh : Nat) :
    p.allocRequestData handle result fresh =
      (p.reqPoolHead,
        { p with
          node := Function.update p.node p.reqPoolHead
            { handle := some handle, result := some result, nextFree := 0 }
          reqPoolHead := p.nextFree p.reqPoolHead }) :=
  if_pos hhead

/-- `AllocRequestData` hands out a node that nobody owned. -/
theorem alloc (h : PoolOk p owned free) (handle : H) (result : S)
    {fresh : Nat} (hfresh : p.FreshFor fresh) :
    (p.allocRequestData handle result fresh).1 ≠ 0 ∧
      (p.allocRequestData handle result fresh).2.node
          (p.allocRequestData handle result fresh).1 =
        { handle := some handle, result := some result, nextFree := 0 } ∧
      (∀ a, a ∈ owned →
        (p.allocRequestData handle result fresh).2.node a = p.node a) ∧
      ∃ free', PoolOk (p.allocRequestData handle result fresh).2
        ((p.allocRequestData handle result fresh).1 :: owned) free' := by
  by_cases hhead : p.reqPoolHead = 0
  · -- the pool is empty: a new node
    obtain ⟨hne, hnew⟩ := hfresh hhead
    have hnotOwned : fresh ∉ owned := fun hin => hnew (h.owned_allocated fresh hin)
    have hnotFree : fresh ∉ free := fun hin => hnew (h.free_allocated fresh hin)
    rw [allocRequestData_of_empty hhead]
    refine ⟨hne, Function.update_self _ _ _, ?_, free, ?_⟩
    · intro a ha
      exact Function.update_of_ne (ne_of_mem_of_not_mem ha hnotOwned) _ _
    · constructor
      · refine h.chain.congr fun a ha => ?_
        exact nextFree_update _ _ _ _ (ne_of_mem_of_not_mem ha hnotFree)
      · exact List.nodup_cons.mpr ⟨hnotOwned, h.owned_nodup⟩
      · intro a ha hin
        rcases List.mem_cons.mp hin with rfl | hin
        · exact hnotFree ha
        · exact h.disjoint a ha hin
      · intro a ha
        rcases List.mem_cons.mp ha with rfl | ha
        · exact List.mem_cons_self
        · exact List.mem_cons_of_mem _ (h.owned_allocated a ha)
      · exact fun a ha => List.mem_cons_of_mem _ (h.free_allocated a ha)
      · intro hin
        rcases List.mem_cons.mp hin with heq | hin
        · exact hne heq.symm
        · exact h.null_notMem hin
  · -- the head of the free list
    obtain ⟨rest, rfl, hrest⟩ := h.chain.exists_cons hhead
    have hnodup := List.nodup_cons.mp h.chain.nodup
    have hnotOwned : p.reqPoolHead ∉ owned := h.disjoint _ List.mem_cons_self
    rw [allocRequestData_of_head hhead]
    refine ⟨hhead, Function.update_self _ _ _, ?_, rest, ?_⟩
    · intro a ha
      exact Function.update_of_ne (ne_of_mem_of_not_mem ha hnotOwned) _ _
    · constructor
      · refine hrest.congr fun a ha => ?_
        exact nextFree_update _ _ _ _ (ne_of_mem_of_not_mem ha hnodup.1)
      · exact List.nodup_cons.mpr ⟨hnotOwned, h.owned_nodup⟩
      · intro a ha hin
        rcases List.mem_cons.mp hin with rfl | hin
        · exact hnodup.1 ha
        · exact h.disjoint a (List.mem_cons_of_mem _ ha) hin
      · intro a ha
        rcases List.mem_cons.mp ha with rfl | ha
        · exact h.free_allocated _ List.mem_cons_self
        · exact h.owned_allocated a ha
      · exact fun a ha => h.free_allocated a (List.mem_cons_of_mem _ ha)
      · exact h.null_notMem

/-- `FreeRequestData` returns an owned node to the free list. -/
theorem release {req : Nat} (h : PoolOk p (req :: owned) free) :
    PoolOk (p.freeRequestData req) owned (req :: free) ∧
      ∀ a, a ∈ owned → (p.freeRequestData req).node a = p.node a := by
  have hnodup := List.nodup_cons.mp h.owned_nodup
  have hreq : req ∈ p.allocated := h.owned_allocated req List.mem_cons_self
  have hne : req ≠ 0 := fun heq => h.null_notMem (heq ▸ hreq)
  have hnotFree : req ∉ free := fun hin => h.disjoint req hin List.mem_cons_self
  refine ⟨?_, ?_⟩
  · constructor
    · have hlink : (p.freeRequestData req).nextFree req = p.reqPoolHead := by
        simp only [RequestPool.nextFree, RequestPool.freeRequestData,
          Function.update_self]
      have htail : Chain 0 (p.freeRequestData req).nextFree p.reqPoolHead free :=
        h.chain.congr fun a ha =>
          nextFree_update _ _ _ _ (ne_of_mem_of_not_mem ha hnotFree)
      rw [← hlink] at htail
      exact Chain.cons hne htail
    · exact hnodup.2
    · intro a ha hin
      rcases List.mem_cons.mp ha with rfl | ha
      · exact hnodup.1 hin
      · exact h.disjoint a ha (List.mem_cons_of_mem _ hin)
    · exact fun a ha => h.owned_allocated a (List.mem_cons_of_mem _ ha)
    · intro a ha
      rcases List.mem_cons.mp ha with rfl | ha
      · exact hreq
      · exact h.free_allocated a ha
    · exact h.null_notMem
  · intro a ha
    exact Function.update_of_ne (ne_of_mem_of_not_mem ha hnodup.1) _ _

end PoolOk

/-! ### Tickets -/

open EventLoop (nodes cancelEntry)

/-- The ticket of a dispatched completion. -/
def Dispatch.ticket (r : Dispatch H S) : Option Nat := r.cqe.entry.ticket

/-- The completion went where the `Submit` call of its ticket said. -/
def Dispatch.Exact (submitted : List (H × S)) (r : Dispatch H S) : Prop :=
  ∃ k, r.ticket = some k ∧ submitted[k]? = some (r.handle, r.slot) ∧
    r.stored = r.cqe.res

/-- An entry owns a node with the handle and the slot of its ticket. -/
def Entry.Owns (p : RequestPool H S) (submitted : List (H × S)) (e : Entry) : Prop :=
  ∃ k handle result, e.ticket = some k ∧
    submitted[k]? = some (handle, result) ∧
    (p.node e.userData).handle = some handle ∧
    (p.node e.userData).result = some result

/-- All pending operations are tracked and all others have been dispatched. -/
structure Routing (p : RequestPool H S) (submitted : List (H × S))
    (dispatched : List (Dispatch H S)) (inFlight : Int)
    (pending : List Entry) : Prop where
  pool : ∃ free, PoolOk p (nodes pending) free
  owns : ∀ e, e ∈ pending → e.userData ≠ 0 → e.Owns p submitted
  untracked : ∀ e, e ∈ pending → e.userData = 0 → e.ticket = none
  exactly : ∀ r, r ∈ dispatched → r.Exact submitted
  tickets : (pending.filterMap Entry.ticket ++
    dispatched.filterMap Dispatch.ticket).Perm (List.range submitted.length)
  count : inFlight = (nodes pending).length

namespace Routing

variable {p : RequestPool H S} {submitted : List (H × S)}
variable {dispatched : List (Dispatch H S)} {inFlight : Int}
variable {pending pending' : List Entry} {e : Entry}

theorem nodes_perm (hperm : pending.Perm pending') :
    (nodes pending).Perm (nodes pending') :=
  (hperm.map _).filter _

theorem nodes_cons_tracked (hne : e.userData ≠ 0) :
    nodes (e :: pending) = e.userData :: nodes pending := by
  simp [nodes, hne]

theorem nodes_cons_untracked (heq : e.userData = 0) :
    nodes (e :: pending) = nodes pending := by
  simp [nodes, heq]

theorem mem_nodes (he : e ∈ pending) (hne : e.userData ≠ 0) :
    e.userData ∈ nodes pending := by
  simp only [nodes, List.mem_filter, List.mem_map, decide_eq_true_eq]
  exact ⟨⟨e, he, rfl⟩, hne⟩

/-- It does not matter in which order, or in which ring, the entries are. -/
theorem perm (h : Routing p submitted dispatched inFlight pending)
    (hperm : pending.Perm pending') :
    Routing p submitted dispatched inFlight pending' where
  pool := by
    obtain ⟨free, hfree⟩ := h.pool
    exact ⟨free, hfree.perm (nodes_perm hperm)⟩
  owns e he := h.owns e (hperm.mem_iff.mpr he)
  untracked e he := h.untracked e (hperm.mem_iff.mpr he)
  exactly := h.exactly
  tickets := ((hperm.filterMap _).append_right _).symm.trans h.tickets
  count := by rw [h.count, (nodes_perm hperm).length_eq]

theorem getElem?_append_self {submitted : List (H × S)} {k : Nat} {x y : H × S}
    (h : submitted[k]? = some x) : (submitted ++ [y])[k]? = some x := by
  obtain ⟨hlt, _⟩ := List.getElem?_eq_some_iff.mp h
  rw [List.getElem?_append_left hlt, h]

/-- `Submit` adds one tracked operation. -/
theorem submit (h : Routing p submitted dispatched inFlight pending)
    (op : Sqe) (handle : H) (result : S) {fresh : Nat} (hfresh : p.FreshFor fresh) :
    Routing (p.allocRequestData handle result fresh).2
      (submitted ++ [(handle, result)]) dispatched (inFlight + 1)
      ({ userData := (p.allocRequestData handle result fresh).1
         ticket := some submitted.length, op := op } :: pending) := by
  obtain ⟨free, hfree⟩ := h.pool
  obtain ⟨hne, hnew, hold, free', hfree'⟩ := hfree.alloc handle result hfresh
  constructor
  · exact ⟨free', by rw [nodes_cons_tracked hne]; exact hfree'⟩
  · intro e he hdata
    rcases List.mem_cons.mp he with rfl | he
    · exact ⟨submitted.length, handle, result, rfl, by simp, by simp [hnew], by simp [hnew]⟩
    · obtain ⟨k, handle', result', hk, hsub, hh, hr⟩ := h.owns e he hdata
      have hsame := hold e.userData (mem_nodes he hdata)
      exact ⟨k, handle', result', hk, getElem?_append_self hsub,
        by rw [hsame, hh], by rw [hsame, hr]⟩
  · intro e he hdata
    rcases List.mem_cons.mp he with rfl | he
    · exact absurd hdata hne
    · exact h.untracked e he hdata
  · intro r hr
    obtain ⟨k, hk, hsub, hstored⟩ := h.exactly r hr
    exact ⟨k, hk, getElem?_append_self hsub, hstored⟩
  · rw [List.length_append, List.length_singleton, List.range_succ]
    refine List.Perm.trans ?_ (List.perm_append_singleton _ _).symm
    simpa using h.tickets
  · rw [nodes_cons_tracked hne, List.length_cons, h.count]
    push_cast
    rfl

/-- The cancel entry is not tracked. -/
theorem addCancel (h : Routing p submitted dispatched inFlight pending) :
    Routing p submitted dispatched inFlight (cancelEntry :: pending) where
  pool := by rw [nodes_cons_untracked rfl]; exact h.pool
  owns e he hdata := by
    rcases List.mem_cons.mp he with rfl | he
    · exact absurd rfl hdata
    · exact h.owns e he hdata
  untracked e he hdata := by
    rcases List.mem_cons.mp he with rfl | he
    · rfl
    · exact h.untracked e he hdata
  exactly := h.exactly
  tickets := by simpa [cancelEntry] using h.tickets
  count := by rw [nodes_cons_untracked rfl]; exact h.count

/-- A completion without `user_data` only disappears. -/
theorem skip (h : Routing p submitted dispatched inFlight (e :: pending))
    (heq : e.userData = 0) : Routing p submitted dispatched inFlight pending where
  pool := by
    have hpool := h.pool
    rwa [nodes_cons_untracked heq] at hpool
  owns e' he' := h.owns e' (List.mem_cons_of_mem _ he')
  untracked e' he' := h.untracked e' (List.mem_cons_of_mem _ he')
  exactly := h.exactly
  tickets := by
    have hnone := h.untracked e List.mem_cons_self heq
    simpa [hnone] using h.tickets
  count := by
    have hcount := h.count
    rwa [nodes_cons_untracked heq] at hcount

/-- Handling a tracked completion moves its ticket to the dispatched ones. -/
theorem dispatch (h : Routing p submitted dispatched inFlight (e :: pending))
    (hne : e.userData ≠ 0) {handle : H} {result : S}
    (hhandle : (p.node e.userData).handle = some handle)
    (hresult : (p.node e.userData).result = some result) (res : Int) :
    Routing (p.freeRequestData e.userData) submitted
      (dispatched ++
        [{ cqe := { entry := e, res := res }, slot := result, stored := res,
           handle := handle }])
      (inFlight - 1) pending := by
  obtain ⟨free, hfree⟩ := h.pool
  rw [nodes_cons_tracked hne] at hfree
  obtain ⟨hfree', hsame⟩ := hfree.release
  obtain ⟨k, handle', result', hk, hsub, hh, hr⟩ := h.owns e List.mem_cons_self hne
  obtain rfl : handle' = handle := Option.some.inj (hh.symm.trans hhandle)
  obtain rfl : result' = result := Option.some.inj (hr.symm.trans hresult)
  constructor
  · exact ⟨e.userData :: free, hfree'⟩
  · intro e' he' hdata
    obtain ⟨k', h', r', hk', hsub', hh', hr'⟩ :=
      h.owns e' (List.mem_cons_of_mem _ he') hdata
    have hnode := hsame e'.userData (mem_nodes he' hdata)
    exact ⟨k', h', r', hk', hsub', by rw [hnode, hh'], by rw [hnode, hr']⟩
  · exact fun e' he' => h.untracked e' (List.mem_cons_of_mem _ he')
  · intro r hr
    rcases List.mem_append.mp hr with hin | hlast
    · exact h.exactly r hin
    · obtain rfl := List.mem_singleton.mp hlast
      exact ⟨k, hk, hsub, rfl⟩
  · have htickets := h.tickets
    rw [List.filterMap_cons_some hk, List.cons_append] at htickets
    have hlast : ∀ r : Dispatch H S, r.cqe.entry = e →
        [r].filterMap Dispatch.ticket = [k] := by
      intro r hr
      rw [List.filterMap_cons_some (by rw [Dispatch.ticket, hr, hk]), List.filterMap_nil]
    rw [List.filterMap_append, hlast _ rfl, ← List.append_assoc]
    exact (List.perm_append_singleton _ _).trans htickets
  · have hcount := h.count
    rw [nodes_cons_tracked hne, List.length_cons] at hcount
    push_cast at hcount
    omega

/-- Tickets count the tracked entries. -/
theorem length_tickets
    (howns : ∀ e, e ∈ pending → e.userData ≠ 0 → e.Owns p submitted)
    (huntracked : ∀ e, e ∈ pending → e.userData = 0 → e.ticket = none) :
    (pending.filterMap Entry.ticket).length = (nodes pending).length := by
  induction pending with
  | nil => rfl
  | cons e pending ih =>
      have ih' := ih (fun e' he' => howns e' (List.mem_cons_of_mem _ he'))
        (fun e' he' => huntracked e' (List.mem_cons_of_mem _ he'))
      by_cases hdata : e.userData = 0
      · rw [nodes_cons_untracked hdata,
          List.filterMap_cons_none (huntracked e List.mem_cons_self hdata), ih']
      · obtain ⟨k, _, _, hk, _⟩ := howns e List.mem_cons_self hdata
        rw [nodes_cons_tracked hdata, List.filterMap_cons_some hk, List.length_cons,
          List.length_cons, ih']

theorem length_dispatched (hexact : ∀ r, r ∈ dispatched → r.Exact submitted) :
    (dispatched.filterMap Dispatch.ticket).length = dispatched.length := by
  induction dispatched with
  | nil => rfl
  | cons r dispatched ih =>
      obtain ⟨k, hk, _⟩ := hexact r List.mem_cons_self
      rw [List.filterMap_cons_some hk, List.length_cons, List.length_cons,
        ih fun r' hr' => hexact r' (List.mem_cons_of_mem _ hr')]

/-- `in_flight_` is the number of operations submitted and not dispatched. -/
theorem inFlight_eq (h : Routing p submitted dispatched inFlight pending) :
    inFlight = submitted.length - dispatched.length := by
  have hlen := h.tickets.length_eq
  rw [List.length_append, length_tickets h.owns h.untracked,
    length_dispatched h.exactly, List.length_range] at hlen
  rw [h.count]
  omega

end Routing

/-! ### The event loop keeps the routing -/

namespace EventLoop

/-- Every operation in the rings is tracked, and no null pointer was followed. -/
structure Ok (l : EventLoop H S) : Prop where
  routing : Routing l.pool l.submitted l.dispatched l.inFlight l.pending
  seen_le : l.phase.seen ≤ l.cq.length
  noFault : l.phase ≠ .fault

theorem ok_init (entries : Nat) (res : S → Int) :
    (init entries res : EventLoop H S).Ok where
  routing :=
    { pool := ⟨[], Chain.nil, List.nodup_nil, by simp, by simp [pending, init, nodes],
        by simp, by simp [init]⟩
      owns := by simp [pending, init]
      untracked := by simp [pending, init]
      exactly := by simp [init]
      tickets := by simp [pending, init]
      count := by simp [pending, init, nodes] }
  seen_le := Nat.zero_le _
  noFault := by simp [init]

theorem Ok.submit {l : EventLoop H S} (h : l.Ok) (op : Sqe) (handle : H)
    (result : S) {fresh : Nat} (hfresh : l.pool.FreshFor fresh) :
    (l.submit op handle result fresh).Ok where
  routing := by
    refine (h.routing.submit op handle result hfresh).perm ?_
    simp only [pending, EventLoop.submit, List.append_assoc]
    exact List.perm_middle.symm
  seen_le := h.seen_le
  noFault := h.noFault

/-- The completion that the loop handles next. -/
theorem pending_at {l : EventLoop H S} {drain : Bool} {count : Nat} {cqe : Cqe}
    (hphase : l.phase = .batch drain count) (hcqe : l.cq[count]? = some cqe) :
    l.pending.Perm
      (cqe.entry :: (l.sq ++ l.kernel ++ (l.cq.drop (count + 1)).map Cqe.entry)) := by
  obtain ⟨hlt, rfl⟩ := List.getElem?_eq_some_iff.mp hcqe
  simp only [pending, hphase, Phase.seen]
  rw [List.drop_eq_getElem_cons hlt, List.map_cons]
  exact List.perm_middle

/--
A step that leaves the tracked operations alone: it changes the phase, moves
entries between the rings, adds the cancel entry or passes its completion.
-/
structure Moved (l l' : EventLoop H S) : Prop where
  entries : l'.entries = l.entries
  pool : l'.pool = l.pool
  submitted : l'.submitted = l.submitted
  dispatched : l'.dispatched = l.dispatched
  inFlight : l'.inFlight = l.inFlight
  pending : l'.pending.Perm l.pending ∨ l'.pending.Perm (cancelEntry :: l.pending) ∨
    ∃ e, e.userData = 0 ∧ l.pending.Perm (e :: l'.pending)
  seen_le : l'.phase.seen ≤ l'.cq.length
  noFault : l'.phase ≠ .fault

theorem Ok.moved {l l' : EventLoop H S} (h : l.Ok) (hmoved : Moved l l') : l'.Ok where
  routing := by
    rw [hmoved.pool, hmoved.submitted, hmoved.dispatched, hmoved.inFlight]
    rcases hmoved.pending with hperm | hperm | ⟨e, hzero, hperm⟩
    · exact h.routing.perm hperm.symm
    · exact h.routing.addCancel.perm hperm.symm
    · exact (h.routing.perm hperm).skip hzero
  seen_le := hmoved.seen_le
  noFault := hmoved.noFault

/-- Only the phase, or `running_`, changes. -/
theorem Ok.moved_phase {l : EventLoop H S} (h : l.Ok) {ph : Phase} {running : Bool}
    (hseen : ph.seen = l.phase.seen) (hph : ph ≠ .fault) :
    Moved l { l with phase := ph, running := running } := by
  refine ⟨rfl, rfl, rfl, rfl, rfl, Or.inl ?_, hseen ▸ h.seen_le, hph⟩
  simp only [EventLoop.pending, hseen]
  exact List.Perm.refl _

/-- The kernel takes the prepared entries, and the phase changes. -/
theorem Ok.moved_flush {l : EventLoop H S} (h : l.Ok) {ph : Phase}
    (hseen : ph.seen = l.phase.seen) (hph : ph ≠ .fault) :
    Moved l { l.flush with phase := ph } := by
  refine ⟨rfl, rfl, rfl, rfl, rfl, Or.inl ?_, hseen ▸ h.seen_le, hph⟩
  simp only [EventLoop.pending, EventLoop.flush, hseen, List.nil_append]
  exact List.perm_append_comm.append_right _

/-- The cancel entry goes to the kernel behind the prepared entries. -/
theorem Ok.moved_cancel {l : EventLoop H S} (h : l.Ok) {ph : Phase}
    (hseen : ph.seen = l.phase.seen) (hph : ph ≠ .fault) :
    Moved l { ({ l with sq := l.sq ++ [cancelEntry] } : EventLoop H S).flush with
      phase := ph } := by
  refine ⟨rfl, rfl, rfl, rfl, rfl, Or.inr (Or.inl ?_), hseen ▸ h.seen_le, hph⟩
  simp only [EventLoop.pending, EventLoop.flush, hseen, List.nil_append]
  have hfront : (l.kernel ++ (l.sq ++ [cancelEntry])).Perm
      (cancelEntry :: (l.sq ++ l.kernel)) := by
    rw [← List.append_assoc]
    exact (List.perm_append_singleton _ _).trans (List.perm_append_comm.cons _)
  exact hfront.append_right _

/-- A completion moves an entry between two rings. -/
theorem Ok.moved_complete {l : EventLoop H S} (h : l.Ok) {i : Nat} {e : Entry}
    (hi : l.kernel[i]? = some e) (res : Int) :
    Moved l
      { l with
        kernel := l.kernel.eraseIdx i
        cq := l.cq ++ [{ entry := e, res := res }] } := by
  refine ⟨rfl, rfl, rfl, rfl, rfl, Or.inl ?_, ?_, h.noFault⟩
  · obtain ⟨hlt, hget⟩ := List.getElem?_eq_some_iff.mp hi
    have hmove : l.kernel.Perm (e :: l.kernel.eraseIdx i) := by
      rw [← hget]
      exact (List.getElem_cons_eraseIdx_perm hlt).symm
    simp only [EventLoop.pending, List.append_assoc,
      List.drop_append_of_le_length h.seen_le, List.map_append]
    refine List.Perm.append_left _ (List.Perm.symm ?_)
    refine (hmove.append_right _).trans ?_
    refine (List.perm_append_singleton e _).symm.trans ?_
    simp [List.append_assoc]
  · rw [List.length_append]
    exact h.seen_le.trans (Nat.le_add_right _ _)

theorem Ok.moved_run {l l' : EventLoop H S} (h : l.Ok) (hstep : l.run = some l') :
    Moved l l' := by
  simp only [EventLoop.run] at hstep
  split at hstep
  next hphase =>
    cases hstep
    exact h.moved_phase (by rw [hphase]; rfl) (by simp)
  next => cases hstep

theorem Ok.moved_test {l l' : EventLoop H S} (h : l.Ok) (hstep : l.test = some l') :
    Moved l l' := by
  simp only [EventLoop.test] at hstep
  split at hstep
  next hphase =>
    split at hstep
    · cases hstep
      exact h.moved_flush (by rw [hphase]; rfl) (by simp)
    · cases hstep
      exact h.moved_phase (by rw [hphase]; rfl) (by simp)
  next hphase =>
    split at hstep
    · cases hstep
      exact h.moved_flush (by rw [hphase]; rfl) (by simp)
    · cases hstep
      exact h.moved_phase (by rw [hphase]; rfl) (by simp)
  next => cases hstep

theorem Ok.moved_wake {l l' : EventLoop H S} (h : l.Ok) {ret : Int}
    (hstep : l.wake ret = some l') : Moved l l' := by
  simp only [EventLoop.wake] at hstep
  split at hstep
  next hphase =>
    split at hstep
    · split at hstep
      all_goals
        cases hstep
        exact h.moved_phase (by rw [hphase]; rfl) (by simp)
    · cases hstep
      exact h.moved_phase (by rw [hphase]; rfl) (by simp)
  next hphase =>
    split at hstep
    all_goals
      cases hstep
      exact h.moved_phase (by rw [hphase]; rfl) (by simp)
  next => cases hstep

theorem Ok.moved_resumeReturns {l l' : EventLoop H S} (h : l.Ok)
    (hstep : l.resumeReturns = some l') : Moved l l' := by
  simp only [EventLoop.resumeReturns] at hstep
  split at hstep
  next hphase =>
    cases hstep
    exact h.moved_phase (by rw [hphase]; rfl) (by simp)
  next => cases hstep

/-- The completions of the batch leave the ring; all of them have been seen. -/
theorem moved_advance {l l' : EventLoop H S} (hstep : l.advance = some l') : Moved l l' := by
  simp only [EventLoop.advance] at hstep
  split at hstep
  next drain count hphase =>
    split at hstep
    · cases hstep
      refine ⟨rfl, rfl, rfl, rfl, rfl, Or.inl ?_, Nat.zero_le _, by simp⟩
      simp only [pending, hphase, Phase.seen, List.drop_zero]
      exact List.Perm.refl _
    · cases hstep
  next => cases hstep

theorem Ok.moved_enterDrain {l l' : EventLoop H S} (h : l.Ok)
    (hstep : l.enterDrain = some l') : Moved l l' := by
  simp only [EventLoop.enterDrain] at hstep
  split at hstep
  next hphase =>
    split at hstep
    · split at hstep
      · cases hstep
        exact h.moved_cancel (by rw [hphase]; rfl) (by simp)
      · cases hstep
        exact h.moved_phase (by rw [hphase]; rfl) (by simp)
    · cases hstep
      exact h.moved_phase (by rw [hphase]; rfl) (by simp)
  next => cases hstep

variable [DecidableEq S]

/-- The node of a pending completion is intact: the loop follows no null pointer. -/
theorem Ok.dispatch {l : EventLoop H S} (h : l.Ok) {drain : Bool} {count : Nat}
    {cqe : Cqe} (hphase : l.phase = .batch drain count)
    (hcqe : l.cq[count]? = some cqe) (hne : cqe.entry.userData ≠ 0) :
    (l.dispatch drain count cqe).Ok := by
  have hrouting := h.routing.perm (pending_at hphase hcqe)
  obtain ⟨k, handle, result, _, _, hh, hr⟩ :=
    hrouting.owns cqe.entry List.mem_cons_self hne
  simp only [EventLoop.dispatch, hh, hr, Function.update_self]
  exact ⟨hrouting.dispatch hne hh hr cqe.res, (List.getElem?_eq_some_iff.mp hcqe).1,
    by simp⟩

/-- A fetched completion is dispatched, unless it is the one of the cancel entry. -/
theorem fetch_dispatch_or_moved {l l' : EventLoop H S} (hstep : l.fetch = some l') :
    (∃ drain count cqe, l.phase = .batch drain count ∧ l.cq[count]? = some cqe ∧
      cqe.entry.userData ≠ 0 ∧ l' = l.dispatch drain count cqe) ∨ Moved l l' := by
  simp only [EventLoop.fetch] at hstep
  split at hstep
  next drain count hphase =>
    split at hstep
    next cqe hcqe =>
      split at hstep
      next hne =>
        cases hstep
        exact Or.inl ⟨drain, count, cqe, hphase, hcqe, hne, rfl⟩
      next hzero =>
        cases hstep
        exact Or.inr ⟨rfl, rfl, rfl, rfl, rfl,
          Or.inr (Or.inr ⟨cqe.entry, not_not.mp hzero, pending_at hphase hcqe⟩),
          (List.getElem?_eq_some_iff.mp hcqe).1, by simp⟩
    next => cases hstep
  next => cases hstep

/-- What one step can do: submit, dispatch a completion, or move entries. -/
theorem Ok.step_cases {l l' : EventLoop H S} {e : Event H S} (h : l.Ok)
    (hstep : machine.step l e = some l') :
    (∃ op handle result fresh, e = .submit op handle result fresh ∧
      l.pool.FreshFor fresh ∧ l' = l.submit op handle result fresh) ∨
    (∃ drain count cqe, e = .fetch ∧ l.phase = .batch drain count ∧
      l.cq[count]? = some cqe ∧ cqe.entry.userData ≠ 0 ∧
      l' = l.dispatch drain count cqe) ∨
    Moved l l' := by
  cases e with
  | submit op handle result fresh =>
      simp only [machine, Option.ite_none_right_eq_some, Option.some.injEq] at hstep
      obtain ⟨⟨_, _, hfresh⟩, rfl⟩ := hstep
      exact Or.inl ⟨op, handle, result, fresh, rfl, hfresh, rfl⟩
  | fetch =>
      rcases fetch_dispatch_or_moved hstep with ⟨drain, count, cqe, hdispatch⟩ | hmoved
      · exact Or.inr (Or.inl ⟨drain, count, cqe, rfl, hdispatch⟩)
      · exact Or.inr (Or.inr hmoved)
  | stop =>
      cases hstep
      exact Or.inr (Or.inr (h.moved_phase rfl h.noFault))
  | complete i res =>
      simp only [machine, EventLoop.complete] at hstep
      split at hstep
      next e hi =>
        cases hstep
        exact Or.inr (Or.inr (h.moved_complete hi res))
      next => cases hstep
  | run => exact Or.inr (Or.inr (h.moved_run hstep))
  | test => exact Or.inr (Or.inr (h.moved_test hstep))
  | wake ret => exact Or.inr (Or.inr (h.moved_wake hstep))
  | resumeReturns => exact Or.inr (Or.inr (h.moved_resumeReturns hstep))
  | advance => exact Or.inr (Or.inr (moved_advance hstep))
  | enterDrain => exact Or.inr (Or.inr (h.moved_enterDrain hstep))

theorem ok_step {l l' : EventLoop H S} {e : Event H S} (h : l.Ok)
    (hstep : machine.step l e = some l') : l'.Ok := by
  rcases h.step_cases hstep with
    ⟨op, handle, result, fresh, _, hfresh, rfl⟩ | ⟨drain, count, cqe, _, hphase, hcqe, hne, rfl⟩ |
      hmoved
  · exact h.submit op handle result hfresh
  · exact h.dispatch hphase hcqe hne
  · exact h.moved hmoved

/-- The invariant holds in every reachable state. -/
theorem ok_exec {entries : Nat} {res : S → Int} {es : List (Event H S)}
    {l : EventLoop H S} (hrun : machine.exec (init entries res) es = some l) : l.Ok :=
  Machine.exec_invariant (fun _ _ _ h hstep => ok_step h hstep) hrun
    (ok_init entries res)

/--
Completion routing is exact.  In every reachable state each completion handled
so far stored its result in the slot, and resumed the handle, of the `Submit`
call with its ticket; each ticket is pending or was handled, exactly once; the
operations in flight own distinct nodes that are not on the free list, which is
finite and without repetition; and `in_flight_` counts them.
-/
theorem completion_routing_exact {entries : Nat} {res : S → Int}
    {es : List (Event H S)} {l : EventLoop H S}
    (hrun : machine.exec (init entries res) es = some l) :
    (∀ r, r ∈ l.dispatched → r.Exact l.submitted) ∧
      (l.pending.filterMap Entry.ticket ++
        l.dispatched.filterMap Dispatch.ticket).Perm (List.range l.submitted.length) ∧
      (nodes l.pending).Nodup ∧
      (∃ free, Chain 0 l.pool.nextFree l.pool.reqPoolHead free ∧ free.Nodup ∧
        ∀ a, a ∈ free → a ∉ nodes l.pending) ∧
      l.inFlight = l.submitted.length - l.dispatched.length ∧
      0 ≤ l.inFlight ∧
      l.phase ≠ .fault := by
  have hok := ok_exec hrun
  obtain ⟨free, hfree⟩ := hok.routing.pool
  refine ⟨hok.routing.exactly, hok.routing.tickets, hfree.owned_nodup,
    ⟨free, hfree.chain, hfree.chain.nodup, hfree.disjoint⟩, hok.routing.inFlight_eq,
    ?_, hok.noFault⟩
  rw [hok.routing.count]
  exact Int.natCast_nonneg _

/--
Two operations complete in the opposite order, and the coroutine resumed first
submits again while it runs, on the node just freed.
-/
theorem completion_routing_exact_reuse :
    ∃ l : EventLoop Nat Nat,
      machine.exec (init 8 fun _ => 0)
        [.submit (.timeout 0 1) 1 10 100, .submit (.timeout 0 2) 2 20 101, .run, .test,
          .complete 1 5, .complete 0 6, .wake 0, .fetch,
          .submit (.timeout 0 3) 2 21 102, .resumeReturns, .fetch, .resumeReturns,
          .advance] = some l ∧
      (∀ r, r ∈ l.dispatched → r.Exact l.submitted) ∧
      l.inFlight = l.submitted.length - l.dispatched.length := by
  obtain ⟨l, hl⟩ : ∃ l : EventLoop Nat Nat,
      machine.exec (init 8 fun _ => 0)
        [.submit (.timeout 0 1) 1 10 100, .submit (.timeout 0 2) 2 20 101, .run, .test,
          .complete 1 5, .complete 0 6, .wake 0, .fetch,
          .submit (.timeout 0 3) 2 21 102, .resumeReturns, .fetch, .resumeReturns,
          .advance] = some l :=
    Option.isSome_iff_exists.mp (by decide)
  have hmain := completion_routing_exact hl
  exact ⟨l, hl, hmain.1, hmain.2.2.2.2.1⟩

end EventLoop

end CRpc
