import CRpc.CompletionRouting

/-!
# Destruction of a context

`~IoContext` deletes the nodes of the request pool by walking the free list.  Here
the loop is run on a heap that tells on it: reading or deleting a node that is not
allocated is a fault.

`teardown_leaves_in_flight`: after any run of the event loop, under arbitrary
coroutines and an arbitrary kernel, the loop ends without a fault, and the nodes it
leaves allocated are those of the operations in flight, `in_flight_` in number.
-/

namespace CRpc

open Lib

universe u v

variable {H : Type u} {S : Type v}

namespace RequestPool

/--
One round of the last loop of `~IoContext`: read `next_free` of the head, delete the
head, go on with what was read.
-/
def deleteHead (p : RequestPool H S) : Option (RequestPool H S) :=
  if p.reqPoolHead ∈ p.allocated then
    some { p with
      reqPoolHead := p.nextFree p.reqPoolHead
      allocated := p.allocated.erase p.reqPoolHead }
  else none

/-- The loop `while (req_pool_head_)` of `~IoContext`, for at most `fuel` rounds. -/
def destroyPool : Nat → RequestPool H S → Option (RequestPool H S)
  | fuel, p =>
      if p.reqPoolHead = 0 then some p
      else
        match fuel with
        | 0 => none
        | fuel + 1 => p.deleteHead.bind fun p' => destroyPool fuel p'

/-- The loop deletes the nodes of the free list, each once. -/
theorem destroyPool_chain {owned free : List Nat} :
    ∀ {p : RequestPool H S} {fuel : Nat}, Chain 0 p.nextFree p.reqPoolHead free →
      p.allocated.Perm (owned ++ free) → free.length ≤ fuel →
      ∃ p', p.destroyPool fuel = some p' ∧ p'.reqPoolHead = 0 ∧ p'.allocated.Perm owned := by
  induction free with
  | nil =>
      intro p fuel hchain hall _
      refine ⟨p, ?_, hchain.head_nil, by simpa using hall⟩
      unfold destroyPool
      exact if_pos hchain.head_nil
  | cons a free ih =>
      intro p fuel hchain hall hfuel
      obtain ⟨hhead, hne, hrest⟩ := hchain.head_cons
      have hmem : a ∈ p.allocated := by
        rw [hall.mem_iff]
        simp
      -- the node is gone, and the rest of the list is as it was
      have hall' : (p.allocated.erase a).Perm (owned ++ free) := by
        have hperm := (hall.trans List.perm_middle).erase a
        rwa [List.erase_cons_head] at hperm
      cases fuel with
      | zero => simp at hfuel
      | succ fuel =>
          obtain ⟨p', hp', hdone⟩ := ih
            (p := { p with reqPoolHead := p.nextFree a, allocated := p.allocated.erase a })
            hrest hall' (Nat.le_of_succ_le_succ hfuel)
          refine ⟨p', ?_, hdone⟩
          unfold destroyPool
          simp only [deleteHead, hhead, if_neg hne, if_pos hmem, Option.bind_some]
          exact hp'

end RequestPool

/-! ### Every node is owned or free -/

/-- The pool has no nodes but those `owned` by operations and those of the free list. -/
def PoolFull (p : RequestPool H S) (owned : List Nat) : Prop :=
  ∃ free, PoolOk p owned free ∧ p.allocated.Perm (owned ++ free)

namespace PoolFull

variable {p : RequestPool H S} {owned owned' : List Nat}

theorem perm (h : PoolFull p owned) (hperm : owned.Perm owned') : PoolFull p owned' := by
  obtain ⟨free, hok, hall⟩ := h
  exact ⟨free, hok.perm hperm, hall.trans (hperm.append_right free)⟩

/-- `AllocRequestData` moves a node from the free list to the operations, or makes one. -/
theorem alloc (h : PoolFull p owned) (handle : H) (result : S) {fresh : Nat}
    (hfresh : p.FreshFor fresh) :
    PoolFull (p.allocRequestData handle result fresh).2
      ((p.allocRequestData handle result fresh).1 :: owned) := by
  obtain ⟨free, hok, hall⟩ := h
  obtain ⟨_, _, _, free', hok'⟩ := hok.alloc handle result hfresh
  refine ⟨free', hok', ?_⟩
  have hchain' := hok'.chain
  by_cases hhead : p.reqPoolHead = 0
  · -- both lists are empty
    have hfree := hok.chain
    rw [PoolOk.allocRequestData_of_empty hhead] at hchain' ⊢
    rw [hhead] at hfree
    simp only [hhead] at hchain'
    rw [hfree.eq_nil] at hall
    rw [hchain'.eq_nil]
    exact hall.cons fresh
  · obtain ⟨rest, rfl, hrest⟩ := hok.chain.exists_cons hhead
    have hnotMem := (List.nodup_cons.mp hok.chain.nodup).1
    rw [PoolOk.allocRequestData_of_head hhead] at hchain' ⊢
    -- overwriting the node has not touched the rest of the list
    have hrest' := hchain'.unique (hrest.congr fun a ha =>
      PoolOk.nextFree_update _ _ _ _ (ne_of_mem_of_not_mem ha hnotMem))
    rw [hrest']
    exact hall.trans List.perm_middle

/-- `FreeRequestData` moves a node from the operations to the free list. -/
theorem release {req : Nat} (h : PoolFull p (req :: owned)) :
    PoolFull (p.freeRequestData req) owned := by
  obtain ⟨free, hok, hall⟩ := h
  exact ⟨req :: free, hok.release.1, hall.trans List.perm_middle.symm⟩

end PoolFull

namespace EventLoop

variable [DecidableEq S]

theorem poolFull_step {l l' : EventLoop H S} {e : Event H S} (h : l.Ok)
    (hfull : PoolFull l.pool (nodes l.pending)) (hstep : machine.step l e = some l') :
    PoolFull l'.pool (nodes l'.pending) := by
  rcases h.step_cases hstep with
    ⟨op, handle, result, fresh, rfl, hfresh, rfl⟩ |
      ⟨drain, count, cqe, rfl, hphase, hcqe, hne, rfl⟩ | hmoved
  · have hpending : (l.submit op handle result fresh).pending.Perm
        ({ userData := (l.pool.allocRequestData handle result fresh).1
           ticket := some l.submitted.length, op := op } :: l.pending) := by
      simp only [pending, EventLoop.submit, List.append_assoc]
      exact List.perm_middle
    obtain ⟨hne, _⟩ := h.routing.pool.choose_spec.alloc handle result hfresh
    have hnodes := Routing.nodes_perm hpending
    rw [Routing.nodes_cons_tracked hne] at hnodes
    exact (hfull.alloc handle result hfresh).perm hnodes.symm
  · have hpending := pending_at hphase hcqe
    obtain ⟨_, handle, result, _, _, hh, hr⟩ :=
      h.routing.owns cqe.entry (hpending.mem_iff.mpr List.mem_cons_self) hne
    have hnodes := Routing.nodes_perm hpending
    rw [Routing.nodes_cons_tracked hne] at hnodes
    simp only [EventLoop.dispatch, hh, hr]
    exact (hfull.perm hnodes).release
  · rw [hmoved.pool]
    rcases hmoved.pending with hperm | hperm | ⟨e, hzero, hperm⟩
    · exact hfull.perm (Routing.nodes_perm hperm).symm
    · have hnodes := Routing.nodes_perm hperm
      rw [Routing.nodes_cons_untracked rfl] at hnodes
      exact hfull.perm hnodes.symm
    · have hnodes := Routing.nodes_perm hperm
      rw [Routing.nodes_cons_untracked hzero] at hnodes
      exact hfull.perm hnodes

theorem poolFull_exec {l : EventLoop H S} {entries : Nat} {res : S → Int} {es : List (Event H S)}
    (hrun : machine.exec (init entries res) es = some l) :
    PoolFull l.pool (nodes l.pending) := by
  refine Machine.run_induction
    (motive := fun _ l => PoolFull l.pool (nodes l.pending)) ?_ ?_ hrun
  · obtain ⟨free, hfree⟩ := (ok_init (H := H) entries res).routing.pool
    refine ⟨free, hfree, ?_⟩
    rw [hfree.chain.eq_nil]
    exact List.Perm.refl _
  · intro es l e l' hl hfull hstep
    exact poolFull_step (ok_exec hl) hfull hstep

/--
The destructor after any run: its loop ends within as many rounds as nodes were
made, it reads and deletes only nodes that are allocated, and what it leaves are the
nodes of the operations in flight, `in_flight_` of them.
-/
theorem teardown_leaves_in_flight {l : EventLoop H S} {entries : Nat} {res : S → Int}
    {es : List (Event H S)} (hrun : machine.exec (init entries res) es = some l) :
    ∃ p, l.pool.destroyPool l.pool.allocated.length = some p ∧ p.reqPoolHead = 0 ∧
      p.allocated.Perm (nodes l.pending) ∧ (p.allocated.length : Int) = l.inFlight := by
  obtain ⟨free, hok, hall⟩ := poolFull_exec hrun
  have hfuel : free.length ≤ l.pool.allocated.length := by
    rw [hall.length_eq, List.length_append]
    omega
  obtain ⟨p, hp, hhead, hleft⟩ := RequestPool.destroyPool_chain hok.chain hall hfuel
  refine ⟨p, hp, hhead, hleft, ?_⟩
  rw [hleft.length_eq, (ok_exec hrun).routing.count]

/-- Two operations, one of them completed: its node is deleted, the other one is left. -/
theorem teardown_leaves_in_flight_one :
    ∃ l p, machine.exec (init 8 fun _ => 0 : EventLoop Nat Nat)
        [.submit (.timeout 0 1) 1 10 100, .submit (.timeout 0 2) 2 20 101, .run, .test,
          .complete 0 5, .wake 0, .fetch, .resumeReturns, .advance] = some l ∧
      l.pool.destroyPool l.pool.allocated.length = some p ∧ p.allocated.length = 1 := by
  have hrun : (machine.exec (init 8 fun _ => 0 : EventLoop Nat Nat)
      [.submit (.timeout 0 1) 1 10 100, .submit (.timeout 0 2) 2 20 101, .run, .test,
        .complete 0 5, .wake 0, .fetch, .resumeReturns, .advance]).any
      (fun l => l.inFlight = 1) = true := by decide
  obtain ⟨l, hl, hone⟩ := (Option.any_eq_true _ _).mp hrun
  obtain ⟨p, hp, _, _, hcount⟩ := teardown_leaves_in_flight hl
  refine ⟨l, p, hl, hp, ?_⟩
  rw [of_decide_eq_true hone] at hcount
  exact_mod_cast hcount

end EventLoop

end CRpc
