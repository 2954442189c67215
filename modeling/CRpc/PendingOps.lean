import CRpc.CompletionRouting

/-!
# The event loop as a bag of operations

For the coroutines the event loop is a bag of operations: `Submit` puts one in,
the dispatch of a completion takes one out and resumes the coroutine that put it
in, and nothing else changes it.  `ops` is this abstract view of the rings.

* `Ok.ops_submit`, `Ok.ops_dispatch` and `Ok.ops_moved` are the three kinds of
  steps in these terms.
* `Ok.inFlight_eq_length`: `in_flight_` is the size of the bag.
-/

namespace CRpc

open Lib

universe u v

variable {H : Type u} {S : Type v}

namespace EventLoop

/-- The coroutine that waits for an entry, with its operation; none for the cancel. -/
def waiter (submitted : List (H × S)) (e : Entry) : Option (H × Sqe) :=
  e.ticket.bind fun k => submitted[k]?.map fun x => (x.1, e.op)

/-- The operations whose completion has not been dispatched. -/
def ops (l : EventLoop H S) : List (H × Sqe) :=
  l.pending.filterMap (waiter l.submitted)

/-- The coroutine that the loop resumes next, and the completion. -/
def next (l : EventLoop H S) : Option (H × Cqe) :=
  match l.phase with
  | .batch _ count =>
      match l.cq[count]? with
      | some cqe =>
          if cqe.entry.userData ≠ 0 then
            (l.pool.node cqe.entry.userData).handle.map fun handle => (handle, cqe)
          else none
      | none => none
  | _ => none

theorem waiter_none {submitted : List (H × S)} {e : Entry} (h : e.ticket = none) :
    waiter submitted e = none := by
  rw [waiter, h, Option.bind_none]

theorem waiter_some {submitted : List (H × S)} {e : Entry} {k : Nat} {x : H × S}
    (hk : e.ticket = some k) (hx : submitted[k]? = some x) :
    waiter submitted e = some (x.1, e.op) := by
  rw [waiter, hk, Option.bind_some, hx, Option.map_some]

/-- A pending entry is untracked, or a coroutine waits for it. -/
theorem Ok.waiter_cases {l : EventLoop H S} (h : l.Ok) {e : Entry} (he : e ∈ l.pending) :
    (e.userData = 0 ∧ e.ticket = none) ∨
      ∃ k x, e.userData ≠ 0 ∧ e.ticket = some k ∧ l.submitted[k]? = some x := by
  by_cases hzero : e.userData = 0
  · exact Or.inl ⟨hzero, h.routing.untracked e he hzero⟩
  · obtain ⟨k, handle, result, hk, hx, _⟩ := h.routing.owns e he hzero
    exact Or.inr ⟨k, (handle, result), hzero, hk, hx⟩

theorem Ok.ops_moved {l l' : EventLoop H S} (h : l.Ok) (hmoved : Moved l l') :
    l'.ops.Perm l.ops := by
  rw [ops, ops, hmoved.submitted]
  rcases hmoved.pending with hperm | hperm | ⟨e, hzero, hperm⟩
  · exact hperm.filterMap _
  · have hops := hperm.filterMap (waiter l.submitted)
    rwa [List.filterMap_cons_none (waiter_none rfl)] at hops
  · have hnone := h.routing.untracked e (hperm.mem_iff.mpr List.mem_cons_self) hzero
    have hops := hperm.filterMap (waiter l.submitted)
    rw [List.filterMap_cons_none (waiter_none hnone)] at hops
    exact hops.symm

/-- `Submit` puts one operation into the bag. -/
theorem Ok.ops_submit {l : EventLoop H S} (h : l.Ok) (op : Sqe) (handle : H) (result : S)
    (fresh : Nat) :
    (l.submit op handle result fresh).ops.Perm (l.ops ++ [(handle, op)]) := by
  have hpending : (l.submit op handle result fresh).pending.Perm
      (l.pending ++ [{ userData := (l.pool.allocRequestData handle result fresh).1
                       ticket := some l.submitted.length, op := op }]) := by
    simp only [pending, EventLoop.submit, List.append_assoc]
    refine List.Perm.append_left _ ?_
    rw [← List.append_assoc l.kernel]
    exact List.perm_append_comm
  -- the tickets of the other entries are older
  have hold : ∀ e, e ∈ l.pending →
      waiter (l.submitted ++ [(handle, result)]) e = waiter l.submitted e := by
    intro e he
    rcases h.waiter_cases he with ⟨_, hnone⟩ | ⟨k, x, _, hk, hx⟩
    · rw [waiter_none hnone, waiter_none hnone]
    · rw [waiter_some hk hx, waiter_some hk (Routing.getElem?_append_self hx)]
  refine (hpending.filterMap _).trans ?_
  rw [List.filterMap_append]
  change (l.pending.filterMap (waiter (l.submitted ++ [(handle, result)])) ++
    [_].filterMap (waiter (l.submitted ++ [(handle, result)]))).Perm _
  rw [List.filterMap_congr hold, List.filterMap_cons_some
    (waiter_some rfl (List.getElem?_concat_length)), List.filterMap_nil]
  exact List.Perm.refl _

theorem Ok.inFlight_eq_length {l : EventLoop H S} (h : l.Ok) :
    l.inFlight = l.ops.length := by
  have hlen : ∀ es : List Entry, (∀ e, e ∈ es → e ∈ l.pending) →
      (es.filterMap (waiter l.submitted)).length = (nodes es).length := by
    intro es
    induction es with
    | nil => exact fun _ => rfl
    | cons e es ih =>
        intro hall
        have ih' := ih fun e' he' => hall e' (List.mem_cons_of_mem _ he')
        rcases h.waiter_cases (hall e List.mem_cons_self) with
          ⟨hzero, hnone⟩ | ⟨k, x, hne, hk, hx⟩
        · rw [List.filterMap_cons_none (waiter_none hnone),
            Routing.nodes_cons_untracked hzero, ih']
        · rw [List.filterMap_cons_some (waiter_some hk hx),
            Routing.nodes_cons_tracked hne, List.length_cons, List.length_cons, ih']
  rw [h.routing.count, ops, hlen l.pending fun e he => he]

theorem next_eq_some {l : EventLoop H S} {handle : H} {cqe : Cqe}
    (hnext : l.next = some (handle, cqe)) :
    ∃ drain count, l.phase = .batch drain count ∧ l.cq[count]? = some cqe ∧
      cqe.entry.userData ≠ 0 ∧ (l.pool.node cqe.entry.userData).handle = some handle := by
  rw [next] at hnext
  split at hnext
  next drain count hphase =>
    split at hnext
    next cqe' hcqe =>
      simp only [Option.ite_none_right_eq_some, Option.map_eq_some_iff, Prod.mk.injEq] at hnext
      obtain ⟨hne, handle', hnode, rfl, rfl⟩ := hnext
      exact ⟨drain, count, hphase, hcqe, hne, hnode⟩
    next => cases hnext
  next => cases hnext

variable [DecidableEq S]

/-- A dispatch takes out an operation, with the coroutine that waits for it. -/
theorem Ok.ops_dispatch {l : EventLoop H S} (h : l.Ok) {handle : H} {cqe : Cqe}
    (hnext : l.next = some (handle, cqe)) :
    ∃ drain count slot l', l.fetch = some l' ∧ l'.Ok ∧
      l'.phase = .resumed drain count ∧ l'.entries = l.entries ∧ l'.sq = l.sq ∧
      l'.submitted = l.submitted ∧ (handle, slot) ∈ l.submitted ∧
      l'.slots slot = cqe.res ∧ l.ops.Perm ((handle, cqe.entry.op) :: l'.ops) := by
  obtain ⟨drain, count, hphase, hcqe, hne, hnode⟩ := next_eq_some hnext
  have hperm := pending_at hphase hcqe
  obtain ⟨k, handle', slot, hk, hx, hh, hr⟩ :=
    h.routing.owns cqe.entry (hperm.mem_iff.mpr List.mem_cons_self) hne
  obtain rfl : handle' = handle := Option.some.inj (hh.symm.trans hnode)
  have hok := h.dispatch hphase hcqe hne
  have hfetch : l.fetch = some (l.dispatch drain count cqe) := by
    simp only [EventLoop.fetch, hphase, hcqe, if_pos hne]
  have hops := hperm.filterMap (waiter l.submitted)
  rw [List.filterMap_cons_some (waiter_some hk hx)] at hops
  refine ⟨drain, count, slot, _, hfetch, hok, ?_⟩
  simp only [EventLoop.dispatch, hh, hr, Function.update_self, true_and]
  exact ⟨List.mem_of_getElem? hx, hops⟩

end EventLoop

end CRpc
