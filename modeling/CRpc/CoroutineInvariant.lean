import CRpc.CoroutineTree

/-!
# The invariant of coroutines

* `Stacked`: the running coroutines are those on the stack.
* `Links`: a coroutine suspended on a `TaskT` is its continuation, and the
  continuation of an unfinished `TaskT` is suspended on it.
* `Ok`: both, with the tree of the frames; no step faults.

One spec lemma per kind of step; `ok_exec` is the invariant of every run.
-/

namespace CRpc

open Lib

universe u v

namespace Coroutines

variable {R : Type u} {V : Type v}
variable {s s' : Coroutines R V} {c t : Nat} {rest : List Nat}

/-! ### The stack -/

def Running (s : Coroutines R V) (c : Nat) : Prop :=
  ∃ body, (s.frame c).status = .running body

/-- The running coroutines are those on the stack. -/
structure Stacked (s : Coroutines R V) : Prop where
  nodup : s.stack.Nodup
  mem_iff : ∀ c, c ∈ s.stack ↔ s.Running c

theorem Stacked.push (h : s.Stacked) (hold : ¬ s.Running c) (hnew : s'.Running c)
    (hother : ∀ d, d ≠ c → (s'.Running d ↔ s.Running d)) (hstack : s'.stack = c :: s.stack) :
    s'.Stacked where
  nodup := by
    rw [hstack, List.nodup_cons, h.mem_iff]
    exact ⟨hold, h.nodup⟩
  mem_iff d := by
    rw [hstack, List.mem_cons]
    by_cases hd : d = c
    · subst hd
      simp [hnew]
    · rw [hother d hd, ← h.mem_iff]
      simp [hd]

theorem Stacked.pop (h : s.Stacked) (hstack : s.stack = c :: s'.stack) (hnew : ¬ s'.Running c)
    (hother : ∀ d, d ≠ c → (s'.Running d ↔ s.Running d)) : s'.Stacked := by
  have hnodup := h.nodup
  rw [hstack, List.nodup_cons] at hnodup
  refine ⟨hnodup.2, fun d => ?_⟩
  by_cases hd : d = c
  · subst hd
    exact ⟨fun hin => absurd hin hnodup.1, fun hrun => absurd hrun hnew⟩
  · rw [hother d hd, ← h.mem_iff, hstack, List.mem_cons]
    simp [hd]

theorem Stacked.stay (h : s.Stacked) (hstack : s'.stack = s.stack)
    (hsame : ∀ d, s'.Running d ↔ s.Running d) : s'.Stacked where
  nodup := hstack ▸ h.nodup
  mem_iff d := by
    rw [hstack, hsame]
    exact h.mem_iff d

/-! ### Continuations -/

/-- Who is suspended on a `TaskT`, and whom its end resumes. -/
structure Links (s : Coroutines R V) : Prop where
  recorded : ∀ c t k, (s.frame c).status = .onTask t k →
    (s.frame t).continuation = some c ∧ (s.frame t).status ≠ .final
  continues : ∀ t c, (s.frame t).continuation = some c →
    (s.frame t).status = .final ∨ (s.frame t).status = .destroyed ∨
      ∃ k, (s.frame c).status = .onTask t k

/-- A coroutine that is suspended on a `TaskT` holds it. -/
theorem Tree.mem_of_onTask (h : s.Tree) {k : V → Body R V}
    (hc : (s.frame c).status = .onTask t k) : t ∈ (s.frame c).tasks := by
  have howes := h.owes c
  rw [hc] at howes
  obtain ⟨_, _, _, hi, _⟩ := howes
  exact List.mem_of_getElem? hi

/-- A status of a coroutine that neither waits for a `TaskT` nor has ended. -/
def Active : Status R V → Prop
  | .running _ => True
  | .onOp _ => True
  | _ => False

theorem Links.setStatus (h : s.Links) (status : Status R V) (hold : Active (s.frame c).status)
    (hnew : Active status) : (s.setStatus c status).Links where
  recorded d t k hd := by
    have hrec := h.recorded d t k
    grind [Active]
  continues t d hd := by
    have hcont := h.continues t d
    grind [Active]

theorem Links.create [Inhabited V] (h : s.Links)
    (hunused : (s.frame s.count).status = .destroyed)
    (hnobody : ∀ d k, (s.frame d).status ≠ .onTask s.count k) (kind : Kind)
    (body : Body R V) : (s.create kind body).Links where
  recorded d t k hd := by
    have hrec := h.recorded d t k
    have hnobody' := hnobody d k
    grind
  continues t d hd := by
    have hcont := h.continues t d
    grind

/-- The coroutine `c` suspends on the `TaskT` `t` and is recorded there. -/
theorem Links.suspend (h : s.Links) (htree : s.Tree) {k : V → Body R V}
    (hc : Active (s.frame c).status) (ht : t ∈ (s.frame c).tasks)
    (hfinal : (s.frame t).status ≠ .final) :
    ((s.awaitSuspend t c).setStatus c (.onTask t k)).Links where
  recorded d t' k' hd := by
    have hrec := h.recorded d t' k'
    have hlt := htree.tasks_lt c t ht
    have hmem := htree.mem_of_onTask (c := d) (t := t') (k := k')
    have howner := htree.owner_unique c d t ht
    grind [Active]
  continues t' d hd := by
    have hcont := h.continues t' d
    grind [Active]

/-- Variables of `c` die, and `c` goes on or ends with nobody waiting for it. -/
theorem Links.drop (h : s.Links) {ds ks : List Nat} {status : Status R V}
    (hfinal : ∀ t, t ∈ ds → (s.frame t).status = .final) (hc : Active (s.frame c).status)
    (hnew : ∀ t k, status ≠ .onTask t k)
    (hnobody : status = .final → ∀ d k, (s.frame d).status ≠ .onTask c k) :
    (s.dropped c ds ks status).Links where
  recorded d t k hd := by
    have hrec := h.recorded d t k
    have hdead := hfinal t
    have hnobody' := fun hf => hnobody hf d k
    grind [Active]
  continues t d hd := by
    have hcont := h.continues t d
    have hdead := hfinal d
    grind [Active]

/-- The coroutine `c` ends, and its continuation `d` goes on. -/
theorem Links.handover (h : s.Links) {ds ks : List Nat} {d : Nat} {body : Body R V}
    (hfinal : ∀ t, t ∈ ds → (s.frame t).status = .final) (hc : Active (s.frame c).status)
    (hd : (s.frame c).continuation = some d) :
    ((s.dropped c ds ks .final).setStatus d (.running body)).Links where
  recorded e t k he := by
    have hrec := h.recorded e t k
    have hdead := hfinal t
    grind [Active]
  continues t e he := by
    have hcont := h.continues t e
    have hrec := h.recorded d
    have hlink := h.continues c d hd
    have hdead := hfinal e
    grind [Active]

/-! ### The invariant -/

/-- The invariant of coroutines. -/
structure Ok (s : Coroutines R V) : Prop where
  noFault : s.fault = false
  tree : s.Tree
  stacked : s.Stacked
  links : s.Links

/-- The stack and the history are no part of the tree and of the continuations. -/
theorem Ok.of_frame (htree : s.Tree) (hlinks : s.Links) (hframe : s'.frame = s.frame)
    (hcount : s'.count = s.count) (hfault : s'.fault = false) (hstacked : s'.Stacked) :
    s'.Ok := by
  refine ⟨hfault, htree.congr hcount fun d => ?_, hstacked, ⟨?_, ?_⟩⟩
  · rw [hframe]
    exact ⟨rfl, rfl, rfl⟩
  · rw [hframe]
    exact hlinks.recorded
  · rw [hframe]
    exact hlinks.continues

theorem ok_init [Inhabited V] : (init : Coroutines R V).Ok where
  noFault := rfl
  tree :=
    { unused := fun _ _ => rfl
      tasks_nodup := fun _ => List.nodup_nil
      tasks_lt := by simp [init]
      tasks_alive := by simp [init]
      owner_unique := by simp [init]
      owned := by simp [init]
      final_kind := by simp [init]
      owes := fun _ => rfl }
  stacked := ⟨List.nodup_nil, by simp [init, Running]⟩
  links := ⟨by simp [init], by simp [init]⟩

theorem running_setStatus_of_ne {status : Status R V} {d : Nat} (hd : d ≠ c) :
    (s.setStatus c status).Running d ↔ s.Running d := by
  simp [Running, setStatus_frame, hd]

theorem Stacked.create [Inhabited V] (h : s.Stacked)
    (hunused : (s.frame s.count).status = .destroyed) (kind : Kind) (body : Body R V) :
    (s.create kind body).Stacked := by
  refine h.push (c := s.count) (by simp [Running, hunused]) ?_ ?_ rfl
  · simp [Running, create_frame]
  · intro d hd
    simp [Running, create_frame, hd]

/-- Nobody waits for a coroutine that does not exist. -/
theorem Ok.not_onTask_count (h : s.Ok) (d : Nat) (k : V → Body R V) :
    (s.frame d).status ≠ .onTask s.count k := by
  intro hd
  have halive := (h.tree.tasks_alive d s.count (h.tree.mem_of_onTask hd)).2
  exact halive (h.tree.unused s.count le_rfl)

theorem Ok.spawn [Inhabited V] (h : s.Ok) (p : Program R V) : (s.create .task p.body).Ok where
  noFault := h.noFault
  tree := h.tree.spawn p.awaitsAll
  stacked := h.stacked.create (h.tree.unused s.count le_rfl) .task p.body
  links := h.links.create (h.tree.unused s.count le_rfl) h.not_onTask_count .task p.body

/-- An operation completes, and the coroutine that waits for it goes on. -/
theorem Ok.complete (h : s.Ok) {k : R → Body R V} (hc : (s.frame c).status = .onOp k)
    (res : R) :
    Ok { s.setStatus c (.running (k res)) with stack := c :: s.stack } := by
  have howes := h.tree.owes c
  rw [hc] at howes
  obtain ⟨fs, hflags, hk⟩ := howes
  have htree := h.tree.setStatus (c := c) (.running (k res)) (by simp [hc]) (by simp)
    ⟨fs, hflags, hk res⟩
  have hlinks := h.links.setStatus (c := c) (.running (k res)) (by simp [hc, Active]) trivial
  refine .of_frame htree hlinks rfl rfl h.noFault ?_
  refine h.stacked.push (c := c) (by simp [Running, hc]) ?_ ?_ rfl
  · simp [Running, setStatus_frame]
  · intro d hd
    exact running_setStatus_of_ne hd

/-- The innermost coroutine suspends on an operation. -/
theorem Ok.coAwaitOp (h : s.Ok) {k : R → Body R V} (hstack : s.stack = c :: rest)
    (hc : (s.frame c).status = .running (.coAwaitOp k)) :
    Ok { s.setStatus c (.onOp k) with stack := rest } := by
  have howes := h.tree.owes c
  rw [hc] at howes
  have htree := h.tree.setStatus (c := c) (.onOp k) (by simp [hc]) (by simp) howes
  have hlinks := h.links.setStatus (c := c) (.onOp k) (by simp [hc, Active]) trivial
  refine .of_frame htree hlinks rfl rfl h.noFault ?_
  refine h.stacked.pop hstack ?_ ?_
  · simp [Running, setStatus_frame]
  · intro d hd
    exact running_setStatus_of_ne hd

/-- The innermost coroutine calls another one, which starts at once. -/
theorem Ok.call [Inhabited V] (h : s.Ok) {callee body : Body R V}
    (hc : (s.frame c).status = .running (.call callee body)) :
    Ok (((s.setStatus c (.running body)).setTasks c (s.count :: (s.frame c).tasks)).create
      .taskT callee) := by
  have hunused := h.tree.unused s.count le_rfl
  have hstatus : ∀ d, (((s.setStatus c (.running body)).setTasks c
      (s.count :: (s.frame c).tasks)).frame d).status =
      ((s.setStatus c (.running body)).frame d).status := by
    grind
  have hnew : ((s.setStatus c (.running body)).frame s.count).status = .destroyed := by
    grind
  refine ⟨h.noFault, h.tree.call hc, ?_, ?_⟩
  · have hstacked : ((s.setStatus c (.running body)).setTasks c
        (s.count :: (s.frame c).tasks)).Stacked := by
      refine h.stacked.stay rfl fun d => ?_
      simp only [Running, hstatus]
      by_cases hd : d = c
      · subst hd
        simp [setStatus_frame, hc]
      · exact running_setStatus_of_ne hd
    exact hstacked.create ((hstatus _).trans hnew) .taskT callee
  · have hlinks := h.links.setStatus (c := c) (.running body) (by simp [hc, Active]) trivial
    refine Links.create ⟨?_, ?_⟩ ((hstatus _).trans hnew) ?_ _ _
    · intro d t k hd
      have hrec := hlinks.recorded d t k
      grind
    · intro t d hd
      have hcont := hlinks.continues t d
      grind
    · intro d k
      have hnot := h.not_onTask_count d k
      grind

/-- An awaited variable is in scope. -/
theorem Ok.coAwait_variable (h : s.Ok) {i : Nat} {k : V → Body R V}
    (hc : (s.frame c).status = .running (.coAwait i k)) :
    ∃ t fs, (s.frame c).tasks[i]? = some t ∧ s.Flags fs (s.frame c).tasks ∧
      ∀ v, (k v).AwaitsAll (fs.set i true) := by
  have howes := h.tree.owes c
  rw [hc] at howes
  obtain ⟨fs, hflags, hi, hk⟩ := howes
  rw [List.Forall₂.length_eq hflags] at hi
  exact ⟨_, fs, List.getElem?_eq_getElem hi, hflags, hk⟩

/-- `co_await` of a `TaskT` in scope: the value at once, or a recorded suspension. -/
theorem Ok.coAwait (h : s.Ok) {i : Nat} {k : V → Body R V} (hstack : s.stack = c :: rest)
    (hc : (s.frame c).status = .running (.coAwait i k)) {fs : List Bool}
    (hti : (s.frame c).tasks[i]? = some t) (hflags : s.Flags fs (s.frame c).tasks)
    (hk : ∀ v, (k v).AwaitsAll (fs.set i true)) : (s.coAwait c rest t k).Ok := by
  rw [Coroutines.coAwait]
  split
  next hready =>
    have hfinal : (s.frame t).status = .final := done_iff.mp hready
    refine ⟨h.noFault, ?_, ?_, ?_⟩
    · exact h.tree.setStatus _ (by simp [hc]) (by simp) ⟨_, hflags.set hti hfinal, hk _⟩
    · refine h.stacked.stay rfl fun d => ?_
      by_cases hd : d = c
      · subst hd
        simp [Running, setStatus_frame, hc]
      · exact running_setStatus_of_ne hd
    · exact h.links.setStatus _ (by simp [hc, Active]) trivial
  next hready =>
    have hfinal : (s.frame t).status ≠ .final := fun hf => hready (done_iff.mpr hf)
    have hwait : (s.awaitSuspend t c).Tree := h.tree.congr rfl (by grind)
    have hstatus : ((s.awaitSuspend t c).frame c).status = .running (.coAwait i k) := by grind
    have htasks : ((s.awaitSuspend t c).frame c).tasks = (s.frame c).tasks := by grind
    have htree := hwait.setStatus (c := c) (.onTask t k) (by simp [hstatus]) (by simp)
      ⟨fs, i, by rw [htasks]; exact hflags.mono (by grind), by rw [htasks]; exact hti, hk⟩
    have hlinks := h.links.suspend h.tree (k := k) (c := c) (t := t) (by simp [hc, Active])
      (List.mem_of_getElem? hti) hfinal
    refine .of_frame htree hlinks rfl rfl h.noFault ?_
    refine h.stacked.pop hstack ?_ ?_
    · simp [Running, setStatus_frame]
    · intro d hd
      simp only [Running]
      grind

/-! ### The end of a scope and of a coroutine -/

theorem dropTasks_setStatus (h : s.Tree)
    (hfinal : ∀ t, t ∈ (s.frame c).tasks → (s.frame t).status = .final)
    (status : Status R V) :
    (s.dropTasks c).setStatus c status = s.dropped c (s.frame c).tasks [] status := by
  have hself : c ∉ (s.frame c).tasks := fun hin => lt_irrefl c (h.tasks_lt c c hin)
  rw [dropTasks, foldl_destroy _ s hfinal (h.tasks_nodup c)]
  simp only [setTasks, Coroutines.setStatus, dropped, mk.injEq, and_true]
  funext d
  simp only [Function.update_apply]
  by_cases hd : d = c
  · subst hd
    simp [hself]
  · simp [hd]

theorem destroy_setTasks (h : s.Tree) {tasks : List Nat} (htasks : (s.frame c).tasks = t :: tasks)
    (hfinal : (s.frame t).status = .final) (status : Status R V) :
    ((s.destroy t).setTasks c tasks).setStatus c status = s.dropped c [t] tasks status := by
  have hlt := h.tasks_lt c t (by simp [htasks])
  have hdestroy : s.destroy t = s.setStatus t .destroyed := if_pos (done_iff.mpr hfinal)
  rw [hdestroy]
  simp only [setTasks, Coroutines.setStatus, dropped, mk.injEq, and_true]
  funext d
  simp only [Function.update_apply]
  grind

/-- Dead variables were not running. -/
theorem running_dropped_of_ne {ds ks : List Nat} {status : Status R V} {d : Nat}
    (hfinal : ∀ t, t ∈ ds → (s.frame t).status = .final) (hd : d ≠ c) :
    (s.dropped c ds ks status).Running d ↔ s.Running d := by
  simp only [Running, dropped_frame, if_neg hd]
  split
  next hin => simp [hfinal d hin]
  next => rfl

/-- A variable whose scope ends belongs to a coroutine that has finished. -/
theorem Ok.endScope_variable (h : s.Ok) {body : Body R V}
    (hc : (s.frame c).status = .running (.endScope body)) :
    ∃ t tasks fs, (s.frame c).tasks = t :: tasks ∧ (s.frame t).status = .final ∧
      s.Flags fs tasks ∧ body.AwaitsAll fs := by
  have howes := h.tree.owes c
  rw [hc] at howes
  obtain ⟨fs, hflags, hbody⟩ := howes
  cases htasks : (s.frame c).tasks with
  | nil =>
      rw [htasks] at hflags
      cases hflags
      cases hbody
  | cons t tasks =>
      rw [htasks] at hflags
      obtain ⟨f, fs', hhead, htail, rfl⟩ := List.forall₂_cons_right_iff.mp hflags
      exact ⟨t, tasks, fs', rfl, hhead hbody.1, htail, hbody.2⟩

/-- The innermost `TaskT` of the running coroutine dies. -/
theorem Ok.endScope (h : s.Ok) {body : Body R V}
    (hc : (s.frame c).status = .running (.endScope body)) {tasks : List Nat} {fs : List Bool}
    (htasks : (s.frame c).tasks = t :: tasks) (hfinal : (s.frame t).status = .final)
    (hflags : s.Flags fs tasks) (hbody : body.AwaitsAll fs) :
    Ok (((s.destroy t).setTasks c tasks).setStatus c (.running body)) := by
  have hdead : ∀ t', t' ∈ [t] → (s.frame t').status = .final := by
    simpa using hfinal
  rw [destroy_setTasks h.tree htasks hfinal]
  refine ⟨h.noFault, ?_, ?_, ?_⟩
  · exact h.tree.drop htasks hdead (by simp [hc]) (by simp) ⟨fs, hflags, hbody⟩
  · refine h.stacked.stay rfl fun d => ?_
    by_cases hd : d = c
    · subst hd
      simp [Running, dropped_frame, hc]
    · exact running_dropped_of_ne hdead hd
  · exact h.links.drop hdead (by simp [hc, Active]) (by simp) (by simp)

/-- The state after `co_return v` of a `TaskT`, before the continuation goes on. -/
def finished (s : Coroutines R V) (c : Nat) (rest : List Nat) (v : V) : Coroutines R V :=
  { (s.returnValue c v).dropped c (s.frame c).tasks [] .final with stack := rest }

theorem Ok.tasks_final (h : s.Ok) {v : V} (hc : (s.frame c).status = .running (.coReturn v)) :
    ∀ t, t ∈ (s.frame c).tasks → (s.frame t).status = .final := by
  have howes := h.tree.owes c
  rw [hc] at howes
  obtain ⟨fs, hflags, hall⟩ := howes
  exact hflags.all_final hall

theorem returnValue_tree (h : s.Tree) (v : V) : (s.returnValue c v).Tree :=
  h.congr rfl (by grind)

theorem finished_final (v : V) : ((s.finished c rest v).frame c).status = .final := by
  simp [finished, dropped_frame]

/-- Who waits for a `TaskT` still waits when another coroutine has ended. -/
theorem Ok.finished_onTask (h : s.Ok) {v : V} {d : Nat} {k : V → Body R V} (rest : List Nat)
    (hc : (s.frame c).status = .running (.coReturn v)) (hd : (s.frame d).status = .onTask t k) :
    ((s.finished c rest v).frame d).status = .onTask t k := by
  have hdead := h.tasks_final hc d
  simp only [finished]
  grind

/-- `co_return v` of a `TaskT`: its continuation, if any, goes on with `v`. -/
theorem Ok.coReturn_cases (h : s.Ok) {v : V} (rest : List Nat) (hkind : (s.frame c).kind = .taskT)
    (hc : (s.frame c).status = .running (.coReturn v)) :
    ((s.frame c).continuation = none ∧ s.coReturn c rest v = s.finished c rest v) ∨
      ∃ d k, (s.frame c).continuation = some d ∧ (s.frame d).status = .onTask c k ∧
        s.coReturn c rest v =
          { (s.finished c rest v).setStatus d (.running (k v)) with
            stack := d :: rest
            handovers := s.handovers ++ [{ task := c, awaiter := d, value := v }] } := by
  have hfinal := h.tasks_final hc
  have hdrop : ((s.returnValue c v).dropTasks c).setStatus c .final =
      (s.returnValue c v).dropped c (s.frame c).tasks [] .final := by
    have htasks : ((s.returnValue c v).frame c).tasks = (s.frame c).tasks := by grind
    rw [← htasks]
    refine dropTasks_setStatus (returnValue_tree h.tree v) ?_ .final
    intro t ht
    have hdead := hfinal t
    grind
  have hcont : (s.finished c rest v).finalAwaitSuspend c = (s.frame c).continuation := by
    simp [finalAwaitSuspend, finished, dropped_frame, returnValue_frame]
  have hfold : ({ (s.returnValue c v).dropped c (s.frame c).tasks [] .final with
      stack := rest } : Coroutines R V) = s.finished c rest v := rfl
  cases hd : (s.frame c).continuation with
  | none =>
      refine Or.inl ⟨rfl, ?_⟩
      simp only [Coroutines.coReturn, hkind, hdrop, hfold, hcont, hd]
  | some d =>
      obtain ⟨k, hk⟩ : ∃ k, (s.frame d).status = .onTask c k := by
        rcases h.links.continues c d hd with hstop | hstop | hwait
        · rw [hc] at hstop
          cases hstop
        · rw [hc] at hstop
          cases hstop
        · exact hwait
      refine Or.inr ⟨d, k, rfl, hk, ?_⟩
      have hstatus := h.finished_onTask rest hc hk
      have hvalue : (s.finished c rest v).awaitResume c = v := by
        simp [awaitResume, finished, dropped_frame, returnValue_frame]
      have hresume : s.coReturn c rest v = (s.finished c rest v).resume c d := by
        simp only [Coroutines.coReturn, hkind, hdrop, hfold, hcont, hd]
      rw [hresume]
      simp only [resume, hstatus, hvalue]
      rfl

theorem Ok.finished_tree (h : s.Ok) {v : V} (rest : List Nat) (hkind : (s.frame c).kind = .taskT)
    (hc : (s.frame c).status = .running (.coReturn v)) : (s.finished c rest v).Tree := by
  have hfinal := h.tasks_final hc
  have htasks : ((s.returnValue c v).frame c).tasks = (s.frame c).tasks ++ [] := by grind
  have htree : ((s.returnValue c v).dropped c (s.frame c).tasks [] .final).Tree := by
    refine (returnValue_tree h.tree v).drop htasks ?_ (by grind) ⟨by simp, fun _ => by grind⟩ rfl
    intro t ht
    have hdead := hfinal t
    grind
  exact htree.congr rfl fun _ => ⟨rfl, rfl, rfl⟩

theorem Ok.finished_stacked (h : s.Ok) {v : V} (hstack : s.stack = c :: rest)
    (hc : (s.frame c).status = .running (.coReturn v)) : (s.finished c rest v).Stacked := by
  have hfinal := h.tasks_final hc
  refine h.stacked.pop hstack ?_ ?_
  · simp [Running, finished, dropped_frame]
  · intro d hd
    have hdead := hfinal d
    simp only [Running, finished]
    grind

theorem returnValue_links (h : s.Links) (v : V) : (s.returnValue c v).Links where
  recorded d t k hd := by
    have hrec := h.recorded d t k
    grind
  continues t d hd := by
    have hcont := h.continues t d
    grind

/-- A `TaskT` ends. -/
theorem Ok.coReturn_taskT (h : s.Ok) {v : V} (hstack : s.stack = c :: rest)
    (hkind : (s.frame c).kind = .taskT) (hc : (s.frame c).status = .running (.coReturn v)) :
    (s.coReturn c rest v).Ok := by
  have hfinal : ∀ t, t ∈ (s.frame c).tasks → ((s.returnValue c v).frame t).status = .final := by
    intro t ht
    have hdead := h.tasks_final hc t ht
    grind
  have hactive : Active ((s.returnValue c v).frame c).status := by
    have hstatus : ((s.returnValue c v).frame c).status = .running (.coReturn v) := by grind
    rw [hstatus]
    trivial
  have htree := h.finished_tree rest hkind hc
  have hstacked := h.finished_stacked hstack hc
  rcases h.coReturn_cases rest hkind hc with ⟨hnone, heq⟩ | ⟨d, k, hd, hk, heq⟩
  · rw [heq]
    have hlinks : ((s.returnValue c v).dropped c (s.frame c).tasks [] .final).Links := by
      refine (returnValue_links h.links v).drop hfinal hactive (by simp) ?_
      intro _ d k hd
      have hrec := h.links.recorded d c k
      grind
    exact .of_frame htree ⟨hlinks.recorded, hlinks.continues⟩ rfl rfl h.noFault hstacked
  · rw [heq]
    have hlinks : (((s.returnValue c v).dropped c (s.frame c).tasks [] .final).setStatus d
        (.running (k v))).Links :=
      (returnValue_links h.links v).handover hfinal hactive (by grind)
    have hstatus := h.finished_onTask rest hc hk
    have howes := htree.owes d
    rw [hstatus] at howes
    obtain ⟨fs, i, hflags, hi, hbody⟩ := howes
    have htree' := htree.setStatus (c := d) (.running (k v)) (by simp [hstatus]) (by simp)
      ⟨_, hflags.set hi (finished_final v), hbody v⟩
    refine .of_frame htree' ⟨hlinks.recorded, hlinks.continues⟩ rfl rfl h.noFault ?_
    refine hstacked.push (c := d) (by simp [Running, hstatus]) ?_ ?_ rfl
    · simp [Running, setStatus_frame]
    · intro e he
      exact running_setStatus_of_ne he

/-- A `Task` ends. -/
theorem Ok.coReturn_task (h : s.Ok) {v : V} (hstack : s.stack = c :: rest)
    (hkind : (s.frame c).kind = .task) (hc : (s.frame c).status = .running (.coReturn v)) :
    (s.coReturn c rest v).Ok := by
  have hfinal := h.tasks_final hc
  simp only [Coroutines.coReturn, hkind, dropTasks_setStatus h.tree hfinal]
  have htree : (s.dropped c (s.frame c).tasks [] .destroyed).Tree :=
    h.tree.drop (by simp) hfinal (by simp [hc]) ⟨fun _ => hkind, by simp⟩ rfl
  have hlinks : (s.dropped c (s.frame c).tasks [] .destroyed).Links :=
    h.links.drop hfinal (by simp [hc, Active]) (by simp) (by simp)
  refine .of_frame htree hlinks rfl rfl h.noFault ?_
  refine h.stacked.pop hstack ?_ ?_
  · simp [Running, dropped_frame]
  · intro d hd
    exact running_dropped_of_ne hfinal hd

/-! ### Steps and runs -/

/-- The innermost coroutine goes on; one case per constructor of its body. -/
theorem Ok.runBody [Inhabited V] (h : s.Ok) {body : Body R V} (hstack : s.stack = c :: rest)
    (hc : (s.frame c).status = .running body) : (s.runBody c rest body).Ok := by
  cases body with
  | coReturn v =>
      cases hkind : (s.frame c).kind with
      | task => exact h.coReturn_task hstack hkind hc
      | taskT => exact h.coReturn_taskT hstack hkind hc
  | coAwaitOp k => exact h.coAwaitOp hstack hc
  | call callee body => exact h.call hc
  | coAwait i k =>
      obtain ⟨t, fs, ht, hflags, hk⟩ := h.coAwait_variable hc
      simp only [Coroutines.runBody, ht]
      exact h.coAwait hstack hc ht hflags hk
  | endScope body =>
      obtain ⟨t, tasks, fs, htasks, hfinal, hflags, hbody⟩ := h.endScope_variable hc
      simp only [Coroutines.runBody, htasks]
      exact h.endScope hc htasks hfinal hflags hbody

/-- What one step can do. -/
theorem step_cases [Inhabited V] {e : Event R V} (hstep : machine.step s e = some s') :
    (∃ p, e = .spawn p ∧ s' = s.create .task p.body) ∨
    (∃ c k res, e = .complete c res ∧ (s.frame c).status = .onOp k ∧
      s' = { s.setStatus c (.running (k res)) with stack := c :: s.stack }) ∨
    (∃ c rest body, e = .run ∧ s.stack = c :: rest ∧ (s.frame c).status = .running body ∧
      s' = s.runBody c rest body) ∨
    (∃ c rest, e = .run ∧ s.stack = c :: rest ∧ ¬ s.Running c ∧
      s' = { s with fault := true }) := by
  simp only [machine, Option.ite_none_left_eq_some] at hstep
  obtain ⟨_, hstep⟩ := hstep
  cases e with
  | spawn p =>
      cases hstep
      exact Or.inl ⟨p, rfl, rfl⟩
  | complete c res =>
      simp only [step] at hstep
      split at hstep
      next k hk =>
        cases hstep
        exact Or.inr (Or.inl ⟨c, k, res, rfl, hk, rfl⟩)
      next => cases hstep
  | run =>
      simp only [step] at hstep
      split at hstep
      next => cases hstep
      next c rest hstack =>
        split at hstep
        next body hbody =>
          cases hstep
          exact Or.inr (Or.inr (Or.inl ⟨c, rest, body, rfl, hstack, hbody, rfl⟩))
        next hnot =>
          cases hstep
          refine Or.inr (Or.inr (Or.inr ⟨c, rest, rfl, hstack, ?_, rfl⟩))
          rintro ⟨body, hbody⟩
          exact hnot body hbody

/-- The innermost coroutine can always go on. -/
theorem Ok.run_step [Inhabited V] (h : s.Ok) {body : Body R V} (hstack : s.stack = c :: rest)
    (hc : (s.frame c).status = .running body) :
    machine.step s .run = some (s.runBody c rest body) := by
  simp [machine, h.noFault, step, hstack, hc]

/-- A pending operation can always complete. -/
theorem Ok.complete_step [Inhabited V] (h : s.Ok) {k : R → Body R V}
    (hc : (s.frame c).status = .onOp k) (res : R) :
    machine.step s (.complete c res) =
      some { s.setStatus c (.running (k res)) with stack := c :: s.stack } := by
  simp [machine, h.noFault, step, hc]

theorem Ok.running_of_stack (h : s.Ok) (hstack : s.stack = c :: rest) : s.Running c :=
  (h.stacked.mem_iff c).mp (hstack ▸ List.mem_cons_self)

theorem ok_step [Inhabited V] {e : Event R V} (h : s.Ok) (hstep : machine.step s e = some s') :
    s'.Ok := by
  rcases step_cases hstep with
    ⟨p, _, rfl⟩ | ⟨c, k, res, _, hk, rfl⟩ | ⟨c, rest, body, _, hstack, hbody, rfl⟩ |
      ⟨c, rest, _, hstack, hnot, rfl⟩
  · exact h.spawn p
  · exact h.complete hk res
  · exact h.runBody hstack hbody
  · exact absurd (h.running_of_stack hstack) hnot

/-- The invariant holds in every reachable state. -/
theorem ok_exec [Inhabited V] {es : List (Event R V)} (hrun : machine.exec init es = some s) :
    s.Ok :=
  Machine.exec_invariant (fun _ _ _ h hstep => ok_step h hstep) hrun ok_init

end Coroutines

end CRpc
