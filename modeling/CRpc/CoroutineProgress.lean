import CRpc.TaskAwait
import Mathlib.Logic.Hydra

/-!
# Coroutines come to an end

Each step replaces what one coroutine still has to do by something that comes later
in its body, and by the body of a coroutine it calls.  The relation `Later` is
well-founded since bodies are finite trees, and so is its extension to multisets:
however the operations complete, only finitely many steps follow each other unless
somebody starts a new `Task` (`progress_wellFounded`).

When nothing is running and no operation is pending, everything has ended
(`Ok.idle_destroyed`): a coroutine suspended on a `TaskT` would need an endless chain
of `TaskT`s that wait for each other.  Together: every await is answered
(`awaits_answered`).
-/

namespace CRpc

open Lib Relation

universe u v

namespace Coroutines

variable {R : Type u} {V : Type v}
variable {s s' : Coroutines R V} {c t : Nat} {rest : List Nat}

/-! ### What is left to do -/

/-- What the status of a coroutine can become, and the start of what it calls. -/
inductive Later : Status R V → Status R V → Prop
  | callee {callee body : Body R V} :
      Later (.running callee) (.running (.call callee body))
  | caller {callee body : Body R V} :
      Later (.running body) (.running (.call callee body))
  | operation {k : R → Body R V} : Later (.onOp k) (.running (.coAwaitOp k))
  | completed {k : R → Body R V} {res : R} : Later (.running (k res)) (.onOp k)
  | suspended {i t : Nat} {k : V → Body R V} :
      Later (.onTask t k) (.running (.coAwait i k))
  | ready {i : Nat} {k : V → Body R V} {v : V} :
      Later (.running (k v)) (.running (.coAwait i k))
  | resumed {t : Nat} {k : V → Body R V} {v : V} : Later (.running (k v)) (.onTask t k)
  | scope {body : Body R V} : Later (.running body) (.running (.endScope body))

theorem acc_onTask {k : V → Body R V} (h : ∀ v, Acc Later (Status.running (k v))) (t : Nat) :
    Acc Later (Status.onTask t k) := by
  constructor
  intro status hlater
  cases hlater with
  | resumed => exact h _

/-- A body is a finite tree. -/
theorem acc_running (body : Body R V) : Acc Later (Status.running body) := by
  induction body with
  | coReturn v =>
      constructor
      intro status hlater
      cases hlater
  | coAwaitOp k ih =>
      constructor
      intro status hlater
      cases hlater with
      | operation =>
          constructor
          intro status hlater
          cases hlater with
          | completed => exact ih _
  | call callee body ihCallee ihBody =>
      constructor
      intro status hlater
      cases hlater with
      | callee => exact ihCallee
      | caller => exact ihBody
  | coAwait i k ih =>
      constructor
      intro status hlater
      cases hlater with
      | suspended => exact acc_onTask ih _
      | ready => exact ih _
  | endScope body ih =>
      constructor
      intro status hlater
      cases hlater with
      | scope => exact ih

theorem later_wellFounded : WellFounded (Later : Status R V → Status R V → Prop) := by
  constructor
  intro status
  cases status with
  | running body => exact acc_running body
  | onOp k =>
      constructor
      intro status hlater
      cases hlater with
      | completed => exact acc_running _
  | onTask t k => exact acc_onTask (fun v => acc_running (k v)) t
  | final =>
      constructor
      intro status hlater
      cases hlater
  | destroyed =>
      constructor
      intro status hlater
      cases hlater

/-- What a coroutine has left to do; nothing once it has ended. -/
def left : Status R V → Multiset (Status R V)
  | .final => 0
  | .destroyed => 0
  | status => {status}

/-- What all coroutines have left to do. -/
def work (s : Coroutines R V) : Multiset (Status R V) :=
  ∑ c ∈ Finset.range s.count, left (s.frame c).status

/-- One coroutine changes. -/
theorem work_change (s s' : Coroutines R V) (hcount : s'.count = s.count) (hc : c < s.count)
    (hsame : ∀ d, d ≠ c → left (s'.frame d).status = left (s.frame d).status) :
    s'.work + left (s.frame c).status = s.work + left (s'.frame c).status := by
  have hmem : c ∈ Finset.range s.count := Finset.mem_range.mpr hc
  have hrest : ∑ d ∈ (Finset.range s.count).erase c, left (s'.frame d).status =
      ∑ d ∈ (Finset.range s.count).erase c, left (s.frame d).status :=
    Finset.sum_congr rfl fun d hd => hsame d (Finset.ne_of_mem_erase hd)
  rw [work, work, hcount, ← Finset.add_sum_erase _ _ hmem, ← Finset.add_sum_erase _ _ hmem,
    hrest]
  abel

theorem cutExpand_change {status : Status R V} (hcount : s'.count = s.count) (hc : c < s.count)
    (hsame : ∀ d, d ≠ c → left (s'.frame d).status = left (s.frame d).status)
    (hold : left (s.frame c).status = {status})
    (hnew : ∀ x, x ∈ left (s'.frame c).status → Later x status) :
    CutExpand Later s'.work s.work := by
  refine ⟨left (s'.frame c).status, status, hnew, ?_⟩
  rw [← hold]
  exact work_change s s' hcount hc hsame

/-! ### Every step makes progress -/

theorem complete_work (h : s.Ok) {k : R → Body R V} (hc : (s.frame c).status = .onOp k)
    (res : R) (stack : List Nat) :
    CutExpand Later (work { s.setStatus c (.running (k res)) with stack := stack }) s.work := by
  refine cutExpand_change (c := c) rfl (h.tree.lt_count (by simp [hc])) ?_ (by rw [hc]; rfl) ?_
  · intro d hd
    simp [setStatus_frame, hd]
  · simp only [setStatus_frame, if_true, left, Multiset.mem_singleton, forall_eq]
    exact .completed

/-- A coroutine moves on by itself. -/
theorem setStatus_work (h : s.Ok) {body : Body R V} {status : Status R V}
    (hc : (s.frame c).status = .running body) (hlater : Later status (.running body))
    (stack : List Nat) :
    CutExpand Later (work { s.setStatus c status with stack := stack }) s.work := by
  refine cutExpand_change (c := c) rfl (h.tree.lt_count (by simp [hc])) ?_ (by rw [hc]; rfl) ?_
  · intro d hd
    simp [setStatus_frame, hd]
  · intro x hx
    simp only [setStatus_frame, if_true] at hx
    have hx' : x = status := by
      cases status with
      | final => cases hx
      | destroyed => cases hx
      | running => exact Multiset.mem_singleton.mp hx
      | onOp => exact Multiset.mem_singleton.mp hx
      | onTask => exact Multiset.mem_singleton.mp hx
    exact hx' ▸ hlater

theorem create_work [Inhabited V] (s : Coroutines R V) (kind : Kind) (body : Body R V) :
    (s.create kind body).work = s.work + {.running body} := by
  have hcount : (s.create kind body).count = s.count + 1 := rfl
  rw [work, hcount, Finset.sum_range_succ, work]
  congr 1
  · refine Finset.sum_congr rfl fun d hd => ?_
    rw [create_frame, if_neg (Finset.mem_range.mp hd).ne]
  · rw [create_frame, if_pos rfl]
    rfl

theorem call_work [Inhabited V] (h : s.Ok) {callee body : Body R V}
    (hc : (s.frame c).status = .running (.call callee body)) :
    CutExpand Later (work (((s.setStatus c (.running body)).setTasks c
      (s.count :: (s.frame c).tasks)).create .taskT callee)) s.work := by
  refine ⟨{.running body} + {.running callee}, .running (.call callee body), ?_, ?_⟩
  · intro x hx
    rcases Multiset.mem_add.mp hx with hx | hx
    · rw [Multiset.mem_singleton.mp hx]
      exact .caller
    · rw [Multiset.mem_singleton.mp hx]
      exact .callee
  · have hchange := work_change (c := c) s
      ((s.setStatus c (.running body)).setTasks c (s.count :: (s.frame c).tasks)) rfl
      (h.tree.lt_count (by simp [hc]))
      (by
        intro d hd
        simp [setTasks_frame, setStatus_frame, hd])
    simp only [hc, setTasks_frame, setStatus_frame, if_true, left] at hchange
    rw [create_work, add_right_comm, hchange, add_assoc]

/-- Variables of finished coroutines die, and the coroutine goes on or ends. -/
theorem dropped_work (h : s.Ok) {body : Body R V} {ds ks : List Nat} {status : Status R V}
    (hc : (s.frame c).status = .running body)
    (hfinal : ∀ t, t ∈ ds → (s.frame t).status = .final)
    (hnew : ∀ x, x ∈ left status → Later x (.running body)) :
    CutExpand Later (work (s.dropped c ds ks status)) s.work := by
  refine cutExpand_change (c := c) rfl (h.tree.lt_count (by simp [hc])) ?_ (by rw [hc]; rfl) ?_
  · intro d hd
    rw [dropped_frame, if_neg hd]
    split
    next hin =>
      rw [hfinal d hin]
      rfl
    next => rfl
  · rw [dropped_frame, if_pos rfl]
    exact hnew

theorem finished_work (h : s.Ok) {v : V} (rest : List Nat)
    (hc : (s.frame c).status = .running (.coReturn v)) :
    CutExpand Later (s.finished c rest v).work s.work := by
  have hfinal := h.tasks_final hc
  refine cutExpand_change (c := c) rfl (h.tree.lt_count (by simp [hc])) ?_ (by rw [hc]; rfl) ?_
  · intro d hd
    have hdead := hfinal d
    simp only [finished, dropped_frame, returnValue_frame, if_neg hd]
    split
    next hin =>
      rw [hdead hin]
      rfl
    next => rfl
  · intro x hx
    simp only [finished, dropped_frame, if_true, left] at hx
    cases hx

/-- One case per constructor of the body; a handover is two changes. -/
theorem Ok.runBody_work [Inhabited V] (h : s.Ok) {body : Body R V}
    (hc : (s.frame c).status = .running body) :
    TransGen (CutExpand Later) (s.runBody c rest body).work s.work := by
  cases body with
  | coReturn v =>
      cases hkind : (s.frame c).kind with
      | task =>
          have hfinal := h.tasks_final hc
          simp only [Coroutines.runBody, Coroutines.coReturn, hkind,
            dropTasks_setStatus h.tree hfinal]
          exact .single (dropped_work h hc hfinal (by simp [left]))
      | taskT =>
          rcases h.coReturn_cases rest hkind hc with ⟨_, heq⟩ | ⟨d, k, _, hk, heq⟩
          · rw [Coroutines.runBody, heq]
            exact .single (finished_work h rest hc)
          · rw [Coroutines.runBody, heq]
            refine .tail (.single ?_) (finished_work h rest hc)
            have hstatus := h.finished_onTask rest hc hk
            refine cutExpand_change (c := d) rfl ?_ ?_ (by rw [hstatus]; rfl) ?_
            · exact h.tree.lt_count (by simp [hk])
            · intro e he
              simp [setStatus_frame, he]
            · simp only [setStatus_frame, if_true, left, Multiset.mem_singleton, forall_eq]
              exact .resumed
  | coAwaitOp k => exact .single (setStatus_work h hc .operation rest)
  | call callee body => exact .single (call_work h hc)
  | coAwait i k =>
      obtain ⟨t, _, ht, _⟩ := h.coAwait_variable hc
      simp only [Coroutines.runBody, ht, Coroutines.coAwait]
      split
      next => exact .single (setStatus_work h hc .ready s.stack)
      next =>
        refine .single (cutExpand_change (c := c) rfl (h.tree.lt_count (by simp [hc])) ?_
          (by rw [hc]; rfl) ?_)
        · intro d hd
          simp only [setStatus_frame, awaitSuspend_frame, if_neg hd]
          split <;> rfl
        · simp only [setStatus_frame, if_true, left, Multiset.mem_singleton, forall_eq]
          exact .suspended
  | endScope body =>
      obtain ⟨t, tasks, _, htasks, hfinal, _⟩ := h.endScope_variable hc
      simp only [Coroutines.runBody, htasks, destroy_setTasks h.tree htasks hfinal]
      refine .single (dropped_work h hc (by simpa using hfinal) ?_)
      simp only [left, Multiset.mem_singleton, forall_eq]
      exact .scope

def Event.isSpawn : Event R V → Bool
  | .spawn _ => true
  | _ => false

theorem Ok.step_work [Inhabited V] (h : s.Ok) {e : Event R V} (he : e.isSpawn = false)
    (hstep : machine.step s e = some s') : TransGen (CutExpand Later) s'.work s.work := by
  rcases step_cases hstep with
    ⟨p, rfl, _⟩ | ⟨c, k, res, _, hk, rfl⟩ | ⟨c, rest, body, _, _, hbody, rfl⟩ |
      ⟨c, rest, _, hstack, hnot, _⟩
  · cases he
  · exact .single (complete_work h hk res _)
  · exact h.runBody_work hbody
  · exact absurd (h.running_of_stack hstack) hnot

/-- Without new `Task`s only finitely many steps follow each other. -/
theorem progress_wellFounded [Inhabited V] :
    WellFounded fun s' s : Coroutines R V =>
      s.Ok ∧ ∃ e : Event R V, e.isSpawn = false ∧ machine.step s e = some s' := by
  refine Subrelation.wf ?_
    (InvImage.wf work (WellFounded.cutExpand later_wellFounded).transGen)
  rintro s' s ⟨h, e, he, hstep⟩
  exact h.step_work he hstep

/-! ### The end -/

/-- Nothing is running and no operation is pending. -/
structure Idle (s : Coroutines R V) : Prop where
  stack : s.stack = []
  noOp : ∀ c k, (s.frame c).status ≠ .onOp k

/-- A `TaskT` that is awaited and waits for no operation waits for a younger one. -/
theorem Ok.waits_for_younger (h : s.Ok) (hidle : s.Idle) {k : V → Body R V}
    (hc : (s.frame c).status = .onTask t k) :
    c < t ∧ t < s.count ∧ ∃ t' k', (s.frame t).status = .onTask t' k' := by
  have hmem := h.tree.mem_of_onTask hc
  have halive := (h.tree.tasks_alive c t hmem).2
  refine ⟨h.tree.tasks_lt c t hmem, h.tree.lt_count halive, ?_⟩
  cases hstatus : (s.frame t).status with
  | running body =>
      have hin : t ∈ s.stack := (h.stacked.mem_iff t).mpr ⟨body, hstatus⟩
      rw [hidle.stack] at hin
      cases hin
  | onOp k => exact absurd hstatus (hidle.noOp t k)
  | onTask t' k' => exact ⟨t', k', rfl⟩
  | final => exact absurd hstatus (h.links.recorded c t k hc).2
  | destroyed => exact absurd hstatus halive

/-- Nobody waits for a `TaskT` for ever: the chain of those who wait is finite. -/
theorem Ok.idle_not_onTask (h : s.Ok) (hidle : s.Idle) :
    ∀ n c t k, s.count - c = n → (s.frame c).status ≠ .onTask t k := by
  intro n
  induction n using Nat.strong_induction_on with
  | _ n ih =>
      intro c t k hn hc
      obtain ⟨hlt, hcount, t', k', ht⟩ := h.waits_for_younger hidle hc
      exact ih (s.count - t) (by omega) t t' k' rfl ht

/-- When nothing is left to happen, every frame is gone. -/
theorem Ok.idle_destroyed (h : s.Ok) (hidle : s.Idle) (c : Nat) :
    (s.frame c).status = .destroyed := by
  have hended : ∀ d, (s.frame d).status = .final ∨ (s.frame d).status = .destroyed := by
    intro d
    cases hstatus : (s.frame d).status with
    | running body =>
        have hin : d ∈ s.stack := (h.stacked.mem_iff d).mpr ⟨body, hstatus⟩
        rw [hidle.stack] at hin
        cases hin
    | onOp k => exact absurd hstatus (hidle.noOp d k)
    | onTask t k => exact absurd hstatus (h.idle_not_onTask hidle _ d t k rfl)
    | final => exact Or.inl rfl
    | destroyed => exact Or.inr rfl
  refine (hended c).resolve_left ?_
  intro hfinal
  -- a finished `TaskT` is a variable of a coroutine, which has none any more
  obtain ⟨d, hd⟩ := h.tree.owned c (h.tree.final_kind c hfinal) (by simp [hfinal])
  have hnone : (s.frame d).tasks = [] := by
    rcases hended d with hend | hend
    · exact h.tree.tasks_of_final hend
    · exact h.tree.tasks_of_destroyed hend
  rw [hnone] at hd
  cases hd

/-- As long as something is left, something can happen. -/
theorem Ok.idle_or_step [Inhabited V] [Inhabited R] (h : s.Ok) :
    s.Idle ∨ ∃ e s', Event.isSpawn e = false ∧ machine.step s e = some s' := by
  cases hstack : s.stack with
  | cons c rest =>
      obtain ⟨body, hbody⟩ := h.running_of_stack hstack
      exact Or.inr ⟨.run, _, rfl, h.run_step hstack hbody⟩
  | nil =>
      by_cases hop : ∃ c k, (s.frame c).status = .onOp k
      · obtain ⟨c, k, hc⟩ := hop
        exact Or.inr ⟨.complete c default, _, rfl, h.complete_step hc default⟩
      · exact Or.inl ⟨hstack, fun c k hc => hop ⟨c, k, hc⟩⟩

/-- The coroutines can be run to their end. -/
theorem Ok.exists_idle [Inhabited V] [Inhabited R] (s : Coroutines R V) :
    s.Ok → ∃ es s', (∀ e, e ∈ es → Event.isSpawn e = false) ∧
      machine.exec s es = some s' ∧ s'.Idle := by
  refine progress_wellFounded.induction
    (C := fun s => s.Ok → ∃ es s', (∀ e, e ∈ es → Event.isSpawn e = false) ∧
      machine.exec s es = some s' ∧ s'.Idle) s ?_
  intro s ih h
  rcases h.idle_or_step with hidle | ⟨e, m, he, hstep⟩
  · exact ⟨[], s, by simp, rfl, hidle⟩
  · obtain ⟨es, s', hes, hexec, hidle⟩ := ih m ⟨h, e, he, hstep⟩ (ok_step h hstep)
    refine ⟨e :: es, s', ?_, Machine.exec_cons_eq_some.mpr ⟨m, hstep, hexec⟩, hidle⟩
    intro e' he'
    rcases List.mem_cons.mp he' with rfl | hin
    · exact he
    · exact hes e' hin

/-- At the end of a run every await that suspended has been answered, exactly once. -/
theorem idle_answered [Inhabited V] {es : List (Event R V)}
    (hrun : machine.exec init es = some s) (hidle : s.Idle) (hin : (t, c) ∈ s.suspensions) :
    ∃ v, (t, v) ∈ s.returned ∧ s.handoversOf t = [{ task := t, awaiter := c, value := v }] := by
  have hok := ok_exec hrun
  rcases hok.answered_once (history_exec hrun) hin with ⟨⟨k, hk⟩, _⟩ | ⟨_, hanswered⟩
  · exact absurd hk (hok.idle_not_onTask hidle _ c t k rfl)
  · exact hanswered

/--
For coroutines with finite bodies, which await every `TaskT` they call before its scope
ends (`AwaitsAll`): every run can be continued, without new `Task`s, to a state in which
all frames are gone and every await that suspended has been answered exactly once; by
`progress_wellFounded` no order of completions keeps it from getting there.  A body with
an unbounded loop, as that of `AcceptLoop`, is not one of them.
-/
theorem awaits_answered [Inhabited V] [Inhabited R] {es : List (Event R V)}
    (hrun : machine.exec init es = some s) :
    ∃ ds s', (∀ e, e ∈ ds → Event.isSpawn e = false) ∧ machine.exec s ds = some s' ∧
      (∀ c, (s'.frame c).status = .destroyed) ∧
      ∀ t c, (t, c) ∈ s'.suspensions →
        ∃ v, (t, v) ∈ s'.returned ∧
          s'.handoversOf t = [{ task := t, awaiter := c, value := v }] := by
  obtain ⟨ds, s', hds, hexec, hidle⟩ := Ok.exists_idle s (ok_exec hrun)
  have hrun' : machine.exec init (es ++ ds) = some s' :=
    Machine.exec_append_eq_some.mpr ⟨s, hrun, hexec⟩
  exact ⟨ds, s', hds, hexec, (ok_exec hrun').idle_destroyed hidle,
    fun t c hin => idle_answered hrun' hidle hin⟩

/-- Two chains, both of which wait for an operation of their last coroutine. -/
theorem awaits_answered_two_chains :
    ∃ s, machine.exec init (twoChains.take 10) = some s ∧ (1, 0) ∈ s.suspensions ∧
      ∃ ds s', (∀ e, e ∈ ds → Event.isSpawn e = false) ∧ machine.exec s ds = some s' ∧
        ∀ c, (s'.frame c).status = .destroyed := by
  have hrun : (machine.exec init (twoChains.take 10)).any
      (fun s => (1, 0) ∈ s.suspensions) = true := by decide +kernel
  obtain ⟨s, hs, hstate⟩ := (Option.any_eq_true _ _).mp hrun
  obtain ⟨ds, s', hds, hexec, hdestroyed, _⟩ := awaits_answered hs
  exact ⟨s, hs, of_decide_eq_true hstate, ds, s', hds, hexec, hdestroyed⟩

end Coroutines

end CRpc
