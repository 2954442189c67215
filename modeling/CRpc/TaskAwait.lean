import CRpc.CoroutineInvariant

/-!
# Awaiting a `TaskT`

No `co_await` of a `TaskT` loses or repeats a resumption.  `History` relates the
history of the awaits to the frames: an await that suspended is still waiting or has
been answered by a handover, and a handover carries the value that `co_return`
stored.

* `Ok.coReturn_resumes`: `co_return v` resumes the continuation and nobody else.
* `Ok.coAwait_done`: a finished `TaskT` does not suspend its awaiter.
* `taskT_await_exact`: both in every reachable state, with the history of the run.
-/

namespace CRpc

open Lib

universe u v

namespace Coroutines

variable {R : Type u} {V : Type v}
variable {s s' : Coroutines R V} {c t : Nat} {rest : List Nat}

/-! ### History -/

/-- What the history of the awaits says about the frames. -/
structure History (s : Coroutines R V) : Prop where
  ended : ∀ t v, (t, v) ∈ s.returned → t < s.count ∧
    ((s.frame t).status = .destroyed ∨ (s.frame t).status = .final ∧ (s.frame t).value = v)
  returned : ∀ t, (s.frame t).status = .final → (t, (s.frame t).value) ∈ s.returned
  returned_nodup : (s.returned.map Prod.fst).Nodup
  waiting : ∀ c t k, (s.frame c).status = .onTask t k → (t, c) ∈ s.suspensions
  answered : ∀ t c, (t, c) ∈ s.suspensions →
    (∃ k, (s.frame c).status = .onTask t k) ∨
      ∃ v, { task := t, awaiter := c, value := v } ∈ s.handovers
  handed : ∀ x, x ∈ s.handovers →
    (x.task, x.awaiter) ∈ s.suspensions ∧ (x.task, x.value) ∈ s.returned
  suspensions_nodup : (s.suspensions.map Prod.fst).Nodup
  handovers_nodup : (s.handovers.map Handover.task).Nodup

/-- A step in which nobody awaits a `TaskT` and no `TaskT` ends. -/
structure Quiet (s s' : Coroutines R V) : Prop where
  suspensions : s'.suspensions = s.suspensions
  returned : s'.returned = s.returned
  handovers : s'.handovers = s.handovers
  count : s.count ≤ s'.count
  destroyed : ∀ d, d < s.count → (s.frame d).status = .destroyed →
    (s'.frame d).status = .destroyed
  final : ∀ d, (s.frame d).status = .final →
    (s'.frame d).status = .destroyed ∨
      (s'.frame d).status = .final ∧ (s'.frame d).value = (s.frame d).value
  final_of : ∀ d, (s'.frame d).status = .final →
    (s.frame d).status = .final ∧ (s'.frame d).value = (s.frame d).value
  onTask : ∀ d t k, (s'.frame d).status = .onTask t k ↔ (s.frame d).status = .onTask t k

theorem History.quiet (h : s.History) (hq : Quiet s s') : s'.History where
  ended t v ht := by
    rw [hq.returned] at ht
    obtain ⟨hlt, hstatus⟩ := h.ended t v ht
    have hdestroyed := hq.destroyed t hlt
    have hfinal := hq.final t
    refine ⟨lt_of_lt_of_le hlt hq.count, ?_⟩
    grind
  returned t ht := by
    obtain ⟨hfinal, hvalue⟩ := hq.final_of t ht
    rw [hq.returned, hvalue]
    exact h.returned t hfinal
  returned_nodup := hq.returned ▸ h.returned_nodup
  waiting c t k hc := by
    rw [hq.suspensions]
    exact h.waiting c t k ((hq.onTask c t k).mp hc)
  answered t c hin := by
    rw [hq.suspensions] at hin
    rw [hq.handovers]
    refine (h.answered t c hin).imp_left ?_
    rintro ⟨k, hk⟩
    exact ⟨k, (hq.onTask c t k).mpr hk⟩
  handed x hx := by
    rw [hq.handovers] at hx
    rw [hq.suspensions, hq.returned]
    exact h.handed x hx
  suspensions_nodup := hq.suspensions ▸ h.suspensions_nodup
  handovers_nodup := hq.handovers ▸ h.handovers_nodup

theorem quiet_create [Inhabited V] (h : s.Ok) (kind : Kind) (body : Body R V) :
    Quiet s (s.create kind body) := by
  have hunused := h.tree.unused s.count le_rfl
  refine ⟨rfl, rfl, rfl, Nat.le_succ _, ?_, ?_, ?_, ?_⟩ <;> grind

theorem quiet_call [Inhabited V] (h : s.Ok) {callee body : Body R V}
    (hc : (s.frame c).status = .running (.call callee body)) :
    Quiet s (((s.setStatus c (.running body)).setTasks c (s.count :: (s.frame c).tasks)).create
      .taskT callee) := by
  have hunused := h.tree.unused s.count le_rfl
  refine ⟨rfl, rfl, rfl, Nat.le_succ _, ?_, ?_, ?_, ?_⟩ <;> grind

/-- A coroutine goes on, or suspends on an operation. -/
theorem quiet_setStatus (status : Status R V) (hold : Active (s.frame c).status)
    (hnew : Active status) (stack : List Nat) :
    Quiet s { s.setStatus c status with stack := stack } := by
  refine ⟨rfl, rfl, rfl, le_rfl, ?_, ?_, ?_, ?_⟩ <;> grind [Active]

/-- Variables die, and the coroutine goes on or is destroyed. -/
theorem quiet_dropped {ds ks : List Nat} (status : Status R V)
    (hfinal : ∀ t, t ∈ ds → (s.frame t).status = .final) (hc : Active (s.frame c).status)
    (hnew : status ≠ .final ∧ ∀ t k, status ≠ .onTask t k) (stack : List Nat) :
    Quiet s { s.dropped c ds ks status with stack := stack } := by
  refine ⟨rfl, rfl, rfl, le_rfl, ?_, ?_, ?_, ?_⟩ <;> grind [Active]

/-- A `TaskT` that has returned or has been handed over is not running. -/
theorem History.not_returned (h : s.History) {body : Body R V}
    (hc : (s.frame c).status = .running body) (v : V) : (c, v) ∉ s.returned := by
  intro hin
  rcases (h.ended c v hin).2 with hstop | ⟨hstop, _⟩
  · rw [hc] at hstop
    cases hstop
  · rw [hc] at hstop
    cases hstop

/-- Nobody has suspended on a `TaskT` before its owner does. -/
theorem History.not_suspended (h : s.History) (hok : s.Ok) {body : Body R V}
    (hc : (s.frame c).status = .running body) (ht : t ∈ (s.frame c).tasks)
    (hfinal : (s.frame t).status ≠ .final) (d : Nat) : (t, d) ∉ s.suspensions := by
  intro hin
  rcases h.answered t d hin with ⟨k, hk⟩ | ⟨v, hv⟩
  · -- only the owner holds the variable, and it is running
    have howner := hok.tree.owner_unique c d t ht (hok.tree.mem_of_onTask hk)
    rw [← howner, hc] at hk
    cases hk
  · rcases (h.ended t v (h.handed _ hv).2).2 with hstop | ⟨hstop, _⟩
    · exact (hok.tree.tasks_alive c t ht).2 hstop
    · exact hfinal hstop

/-- An entry under a new key. -/
theorem nodup_map_concat {α : Type u} {β : Type v} {f : α → β} {l : List α} {y : α}
    (hl : (l.map f).Nodup) (hnew : ∀ x, x ∈ l → f x ≠ f y) : ((l ++ [y]).map f).Nodup := by
  rw [List.map_append]
  refine List.nodup_append.mpr ⟨hl, List.nodup_singleton _, ?_⟩
  intro a ha b hb
  obtain ⟨x, hx, rfl⟩ := List.mem_map.mp ha
  rw [List.mem_singleton.mp hb]
  exact hnew x hx

/-- An await suspends. -/
theorem History.suspend (h : s.History) (hok : s.Ok) {body : Body R V} {k : V → Body R V}
    (hc : (s.frame c).status = .running body) (ht : t ∈ (s.frame c).tasks)
    (hfinal : (s.frame t).status ≠ .final) :
    History { (s.awaitSuspend t c).setStatus c (.onTask t k) with
      stack := rest
      suspensions := s.suspensions ++ [(t, c)] } where
  ended t' v hin := by
    have hended := h.ended t' v hin
    refine ⟨hended.1, ?_⟩
    grind
  returned t' hin := by
    have hret := h.returned t'
    change (t', (((s.awaitSuspend t c).setStatus c (.onTask t k)).frame t').value) ∈ s.returned
    grind
  returned_nodup := h.returned_nodup
  waiting d t' k' hd := by
    have hwait := h.waiting d t' k'
    grind
  answered t' d hin := by
    rcases List.mem_append.mp hin with hold | hnew
    · refine (h.answered t' d hold).imp_left ?_
      rintro ⟨k', hk'⟩
      exact ⟨k', by grind⟩
    · obtain ⟨rfl, rfl⟩ : t' = t ∧ d = c := by simpa using hnew
      exact Or.inl ⟨k, by grind⟩
  handed x hx := by
    obtain ⟨hsusp, hret⟩ := h.handed x hx
    exact ⟨List.mem_append_left _ hsusp, hret⟩
  suspensions_nodup := by
    refine nodup_map_concat h.suspensions_nodup ?_
    rintro ⟨t', d⟩ hin rfl
    exact h.not_suspended hok hc ht hfinal d hin
  handovers_nodup := h.handovers_nodup

/-- A `TaskT` ends and nobody waits for it. -/
theorem History.finished (h : s.History) (hok : s.Ok) {v : V} (rest : List Nat)
    (hc : (s.frame c).status = .running (.coReturn v)) : (s.finished c rest v).History := by
  have hfinal := hok.tasks_final hc
  have hlt := hok.tree.lt_count (c := c) (by simp [hc])
  constructor
  case ended =>
    intro t w hin
    rcases List.mem_append.mp hin with hold | hnew
    · have hended := h.ended t w hold
      refine ⟨hended.1, ?_⟩
      simp only [Coroutines.finished]
      grind
    · obtain ⟨rfl, rfl⟩ : t = c ∧ w = v := by simpa using hnew
      refine ⟨hlt, Or.inr ?_⟩
      simp only [Coroutines.finished]
      grind
  case returned =>
    intro t ht
    have hret := h.returned t
    change (t, ((s.finished c rest v).frame t).value) ∈ s.returned ++ [(c, v)]
    simp only [Coroutines.finished] at ht ⊢
    grind
  case returned_nodup =>
    refine nodup_map_concat h.returned_nodup ?_
    rintro ⟨t, w⟩ hin rfl
    exact h.not_returned hc w hin
  case waiting =>
    intro d t k hd
    have hwait := h.waiting d t k
    change (t, d) ∈ s.suspensions
    simp only [Coroutines.finished] at hd
    grind
  case answered =>
    intro t d hin
    have hdead := hfinal d
    refine (h.answered t d hin).imp_left ?_
    rintro ⟨k, hk⟩
    refine ⟨k, ?_⟩
    simp only [Coroutines.finished]
    grind
  case handed =>
    intro x hx
    obtain ⟨hsusp, hret⟩ := h.handed x hx
    exact ⟨hsusp, List.mem_append_left _ hret⟩
  case suspensions_nodup => exact h.suspensions_nodup
  case handovers_nodup => exact h.handovers_nodup

/-- A `TaskT` ends and its continuation `d` goes on. -/
theorem History.handover (h : s.History) (hok : s.Ok) {v : V} {d : Nat} {k : V → Body R V}
    (hc : (s.frame c).status = .running (.coReturn v))
    (hd : (s.frame d).status = .onTask c k) :
    History { (s.finished c rest v).setStatus d (.running (k v)) with
      stack := d :: rest
      handovers := s.handovers ++ [{ task := c, awaiter := d, value := v }] } := by
  have hfin := h.finished hok rest hc
  have hwaits := hok.finished_onTask rest hc hd
  constructor
  case ended =>
    intro t w hin
    have hended := hfin.ended t w hin
    refine ⟨hended.1, ?_⟩
    grind
  case returned =>
    intro t ht
    have hret := hfin.returned t
    change (t, (((s.finished c rest v).setStatus d (.running (k v))).frame t).value) ∈
      (s.finished c rest v).returned
    grind
  case returned_nodup => exact hfin.returned_nodup
  case waiting =>
    intro e t k' he
    have hwait := hfin.waiting e t k'
    change (t, e) ∈ (s.finished c rest v).suspensions
    grind
  case answered =>
    intro t e hin
    rcases hfin.answered t e hin with ⟨k', hk'⟩ | ⟨w, hw⟩
    · by_cases he : e = d
      · -- the await that has just been answered
        rw [he, hwaits] at hk'
        cases hk'
        exact Or.inr ⟨v, List.mem_append_right _ (by simp [he])⟩
      · exact Or.inl ⟨k', by grind⟩
    · exact Or.inr ⟨w, List.mem_append_left _ hw⟩
  case handed =>
    intro x hx
    rcases List.mem_append.mp hx with hold | hnew
    · exact hfin.handed x hold
    · rw [List.mem_singleton.mp hnew]
      refine ⟨hfin.waiting d c k hwaits, ?_⟩
      exact List.mem_append_right _ (List.mem_singleton_self _)
  case suspensions_nodup => exact hfin.suspensions_nodup
  case handovers_nodup =>
    refine nodup_map_concat h.handovers_nodup ?_
    rintro x hx rfl
    exact h.not_returned hc x.value (h.handed x hx).2

theorem history_init [Inhabited V] : (init : Coroutines R V).History where
  ended := by simp [init]
  returned := by simp [init]
  returned_nodup := List.nodup_nil
  waiting := by simp [init]
  answered := by simp [init]
  handed := by simp [init]
  suspensions_nodup := List.nodup_nil
  handovers_nodup := List.nodup_nil

/-- One case per constructor of the body. -/
theorem History.runBody [Inhabited V] (h : s.History) (hok : s.Ok) {body : Body R V}
    (hc : (s.frame c).status = .running body) : (s.runBody c rest body).History := by
  cases body with
  | coReturn v =>
      cases hkind : (s.frame c).kind with
      | task =>
          have hfinal := hok.tasks_final hc
          simp only [Coroutines.runBody, Coroutines.coReturn, hkind,
            dropTasks_setStatus hok.tree hfinal]
          exact h.quiet (quiet_dropped .destroyed hfinal (by simp [hc, Active]) (by simp) rest)
      | taskT =>
          rcases hok.coReturn_cases rest hkind hc with
            ⟨_, heq⟩ | ⟨d, k, _, hk, heq⟩
          · rw [Coroutines.runBody, heq]
            exact h.finished hok rest hc
          · rw [Coroutines.runBody, heq]
            exact h.handover hok hc hk
  | coAwaitOp k =>
      exact h.quiet (quiet_setStatus (.onOp k) (by simp [hc, Active]) trivial rest)
  | call callee body => exact h.quiet (quiet_call hok hc)
  | coAwait i k =>
      obtain ⟨t, _, ht, _⟩ := hok.coAwait_variable hc
      simp only [Coroutines.runBody, ht, Coroutines.coAwait]
      split
      next =>
        exact h.quiet (quiet_setStatus (.running (k (s.awaitResume t)))
          (by simp [hc, Active]) trivial s.stack)
      next hready =>
        exact h.suspend hok hc (List.mem_of_getElem? ht) fun hf => hready (done_iff.mpr hf)
  | endScope body =>
      obtain ⟨t, tasks, _, htasks, hfinal, _⟩ := hok.endScope_variable hc
      simp only [Coroutines.runBody, htasks, destroy_setTasks hok.tree htasks hfinal]
      exact h.quiet (quiet_dropped (.running body) (by simpa using hfinal)
        (by simp [hc, Active]) (by simp) s.stack)

theorem history_step [Inhabited V] {e : Event R V} (h : s.History) (hok : s.Ok)
    (hstep : machine.step s e = some s') : s'.History := by
  rcases step_cases hstep with
    ⟨p, _, rfl⟩ | ⟨c, k, res, _, hk, rfl⟩ | ⟨c, rest, body, _, _, hbody, rfl⟩ |
      ⟨c, rest, _, hstack, hnot, rfl⟩
  · exact h.quiet (quiet_create hok .task p.body)
  · exact h.quiet (quiet_setStatus (.running (k res)) (by simp [hk, Active]) trivial _)
  · exact h.runBody hok hbody
  · exact absurd (hok.running_of_stack hstack) hnot

theorem history_exec [Inhabited V] {es : List (Event R V)}
    (hrun : machine.exec init es = some s) : s.History :=
  Machine.run_induction (motive := fun _ s => s.History) history_init
    (fun _ _ _ _ hm h hstep => history_step h (ok_exec hm) hstep) hrun

/-! ### The awaits of a run -/

/-- The coroutine `c` is suspended, on an operation or on a `TaskT`. -/
def Suspended (s : Coroutines R V) (c : Nat) : Prop :=
  (∃ k, (s.frame c).status = .onOp k) ∨ ∃ t k, (s.frame c).status = .onTask t k

/-- The step from `s` to `s'` resumes `c`. -/
def Resumes (s s' : Coroutines R V) (c : Nat) : Prop :=
  s.Suspended c ∧ s'.Running c

/-- The continuations resumed by the end of `t`, with what they obtained. -/
def handoversOf (s : Coroutines R V) (t : Nat) : List (Handover V) :=
  s.handovers.filter fun x => x.task = t

/-- A coroutine that stays suspended is not resumed. -/
theorem not_resumes (hsame : (s'.frame c).status = (s.frame c).status) :
    ¬ s.Resumes s' c := by
  rintro ⟨⟨k, hk⟩ | ⟨t, k, hk⟩, body, hbody⟩
  · rw [hsame, hk] at hbody
    cases hbody
  · rw [hsame, hk] at hbody
    cases hbody

/-- Only its end changes a coroutine that is running; others keep their status. -/
theorem Ok.finished_status (h : s.Ok) {v : V}
    (ht : (s.frame t).status = .running (.coReturn v)) (hc : s.Suspended c) :
    ((s.finished t rest v).frame c).status = (s.frame c).status := by
  have hdead := h.tasks_final ht c
  simp only [finished, Suspended] at hc ⊢
  grind

/-- `co_return v` resumes the continuation, which obtains `v`, and nobody else. -/
theorem Ok.coReturn_resumes [Inhabited V] (h : s.Ok) {v : V} (hstack : s.stack = t :: rest)
    (hkind : (s.frame t).kind = .taskT) (ht : (s.frame t).status = .running (.coReturn v)) :
    ∃ s', machine.step s .run = some s' ∧ s'.done t = true ∧
      (∀ c, s.Resumes s' c ↔ (s.frame t).continuation = some c) ∧
      ∀ c k, (s.frame c).status = .onTask t k →
        (s'.frame c).status = .running (k v) ∧ s'.stack = c :: rest := by
  refine ⟨_, h.run_step hstack ht, ?_⟩
  have hend : ((s.finished t rest v).frame t).status = .final := finished_final v
  rcases h.coReturn_cases rest hkind ht with ⟨hnone, heq⟩ | ⟨d, k, hd, hk, heq⟩
  · rw [Coroutines.runBody, heq]
    refine ⟨done_iff.mpr hend, fun c => ?_, fun c k hc => ?_⟩
    · constructor
      · exact fun hres => absurd hres (not_resumes (h.finished_status ht hres.1))
      · intro hc
        rw [hnone] at hc
        cases hc
    · have hrec := (h.links.recorded c t k hc).1
      rw [hnone] at hrec
      cases hrec
  · have hne : t ≠ d := by
      rintro rfl
      rw [ht] at hk
      cases hk
    rw [Coroutines.runBody, heq]
    refine ⟨?_, fun c => ?_, fun c k' hc => ?_⟩
    · rw [done_iff, setStatus_frame, if_neg hne]
      exact hend
    · constructor
      · intro hres
        by_contra hother
        have hcd : c ≠ d := fun hcd => hother (hcd ▸ hd)
        refine not_resumes ?_ hres
        rw [setStatus_frame, if_neg hcd]
        exact h.finished_status ht hres.1
      · intro hc
        obtain rfl : d = c := Option.some.inj (hd.symm.trans hc)
        exact ⟨Or.inr ⟨t, k, hk⟩, k v, by simp [setStatus_frame]⟩
    · have hrec := (h.links.recorded c t k' hc).1
      obtain rfl : d = c := Option.some.inj (hd.symm.trans hrec)
      rw [hk] at hc
      cases hc
      exact ⟨by simp [setStatus_frame], rfl⟩

/-- The `co_await` of a finished `TaskT` goes on at once with the value returned. -/
theorem Ok.coAwait_done [Inhabited V] (h : s.Ok) (hhistory : s.History) {i : Nat}
    {k : V → Body R V} (hstack : s.stack = c :: rest)
    (hc : (s.frame c).status = .running (.coAwait i k))
    (ht : (s.frame c).tasks[i]? = some t) (hdone : s.done t = true) :
    ∃ s' v, machine.step s .run = some s' ∧ (t, v) ∈ s.returned ∧ s'.stack = s.stack ∧
      (s'.frame c).status = .running (k v) := by
  have hready : s.awaitReady t = true := hdone
  have hbody : s.runBody c rest (.coAwait i k) =
      s.setStatus c (.running (k (s.awaitResume t))) := by
    simp only [Coroutines.runBody, ht, Coroutines.coAwait, hready, if_true]
  refine ⟨_, s.awaitResume t, h.run_step hstack hc, hhistory.returned t (done_iff.mp hdone),
    ?_, ?_⟩
  · rw [hbody]
    rfl
  · rw [hbody, setStatus_frame, if_pos rfl]

theorem History.handoversOf_eq (h : s.History) {x : Handover V} (hx : x ∈ s.handovers) :
    s.handoversOf x.task = [x] := by
  rw [handoversOf]
  have hnodup := h.handovers_nodup
  clear h
  generalize s.handovers = l at hnodup hx
  induction l with
  | nil => cases hx
  | cons y l ih =>
      obtain ⟨hfresh, hnodup⟩ := List.nodup_cons.mp hnodup
      rcases List.mem_cons.mp hx with rfl | hin
      · have hrest : l.filter (fun z => z.task = x.task) = [] := by
          rw [List.filter_eq_nil_iff]
          intro z hz heq
          exact hfresh (of_decide_eq_true heq ▸ List.mem_map_of_mem hz)
        simp [hrest]
      · have hne : y.task ≠ x.task := fun heq => hfresh (heq ▸ List.mem_map_of_mem hin)
        simpa [hne] using ih hnodup hin

/-- An await that suspended is still waiting, or it has been answered exactly once. -/
theorem Ok.answered_once (h : s.Ok) (hhistory : s.History) (hin : (t, c) ∈ s.suspensions) :
    ((∃ k, (s.frame c).status = .onTask t k) ∧ s.handoversOf t = []) ∨
      (¬ (∃ k, (s.frame c).status = .onTask t k) ∧
        ∃ v, (t, v) ∈ s.returned ∧
          s.handoversOf t = [{ task := t, awaiter := c, value := v }]) := by
  -- a task with a handover has ended, so nobody waits for it any more
  have hended : ∀ x, x ∈ s.handovers → x.task = t →
      ¬ ∃ k, (s.frame c).status = .onTask t k := by
    rintro x hx rfl ⟨k, hk⟩
    rcases (hhistory.ended _ _ (hhistory.handed x hx).2).2 with hstop | ⟨hstop, _⟩
    · exact (h.tree.tasks_alive c x.task (h.tree.mem_of_onTask hk)).2 hstop
    · exact (h.links.recorded c x.task k hk).2 hstop
  by_cases hwait : ∃ k, (s.frame c).status = .onTask t k
  · refine Or.inl ⟨hwait, ?_⟩
    rw [handoversOf, List.filter_eq_nil_iff]
    intro x hx heq
    exact hended x hx (of_decide_eq_true heq) hwait
  · obtain ⟨v, hv⟩ := (hhistory.answered t c hin).resolve_left hwait
    exact Or.inr ⟨hwait, v, (hhistory.handed _ hv).2, hhistory.handoversOf_eq hv⟩

/--
Awaiting a `TaskT` neither loses nor repeats a resumption.  In every reachable state

* a coroutine suspended on a `TaskT` is its continuation, and the `TaskT` is not done;
* when the body of a `TaskT` returns `v`, its continuation and nobody else is resumed,
  and obtains `v`;
* the `co_await` of a finished `TaskT` does not suspend, and obtains what it returned;
* each await that suspended is still waiting and has not been answered, or it has been
  answered exactly once, with what the `TaskT` returned, and nothing else is handed
  over;
* a `TaskT` returns at most once.
-/
theorem taskT_await_exact [Inhabited V] {es : List (Event R V)}
    (hrun : machine.exec init es = some s) :
    s.fault = false ∧
    (∀ c t k, (s.frame c).status = .onTask t k →
      (s.frame t).continuation = some c ∧ s.done t = false ∧
        (s.frame t).status ≠ .destroyed ∧ (t, c) ∈ s.suspensions) ∧
    (∀ t rest v, s.stack = t :: rest → (s.frame t).kind = .taskT →
      (s.frame t).status = .running (.coReturn v) →
      ∃ s', machine.step s .run = some s' ∧ s'.done t = true ∧
        (∀ c, s.Resumes s' c ↔ (s.frame t).continuation = some c) ∧
        ∀ c k, (s.frame c).status = .onTask t k →
          (s'.frame c).status = .running (k v) ∧ s'.stack = c :: rest) ∧
    (∀ c rest i k t, s.stack = c :: rest →
      (s.frame c).status = .running (.coAwait i k) → (s.frame c).tasks[i]? = some t →
      s.done t = true →
      ∃ s' v, machine.step s .run = some s' ∧ (t, v) ∈ s.returned ∧ s'.stack = s.stack ∧
        (s'.frame c).status = .running (k v)) ∧
    (∀ t c, (t, c) ∈ s.suspensions →
      ((∃ k, (s.frame c).status = .onTask t k) ∧ s.handoversOf t = []) ∨
        (¬ (∃ k, (s.frame c).status = .onTask t k) ∧
          ∃ v, (t, v) ∈ s.returned ∧
            s.handoversOf t = [{ task := t, awaiter := c, value := v }])) ∧
    (∀ x, x ∈ s.handovers → (x.task, x.awaiter) ∈ s.suspensions) ∧
    (s.returned.map Prod.fst).Nodup := by
  have hok := ok_exec hrun
  have hhistory := history_exec hrun
  refine ⟨hok.noFault, ?_, ?_, ?_, ?_, ?_, hhistory.returned_nodup⟩
  · intro c t k hc
    obtain ⟨hrec, hfinal⟩ := hok.links.recorded c t k hc
    have hnot : s.done t = false := by
      rw [← Bool.not_eq_true, done_iff]
      exact hfinal
    exact ⟨hrec, hnot, (hok.tree.tasks_alive c t (hok.tree.mem_of_onTask hc)).2,
      hhistory.waiting c t k hc⟩
  · intro t rest v hstack hkind ht
    exact hok.coReturn_resumes hstack hkind ht
  · intro c rest i k t hstack hc ht hdone
    exact hok.coAwait_done hhistory hstack hc ht hdone
  · intro t c hin
    exact hok.answered_once hhistory hin
  · intro x hx
    exact (hhistory.handed x hx).1

/-! ### Two chains -/

/-- Suspends once. -/
def receive : Body Int Nat := .coAwaitOp fun n => .coReturn n.toNat

/-- A chain of three; its second coroutine also awaits one that never suspends. -/
def chain : Program Int Nat where
  body := .coAwaitCall
    (.coAwaitCall receive fun n => .coAwaitCall (.coReturn 5) fun m => .coReturn (n + m))
    .coReturn
  awaitsAll := by simp [Body.coAwaitCall, Body.AwaitsAll, receive]

/-- A chain of two. -/
def pair : Program Int Nat where
  body := .coAwaitCall receive .coReturn
  awaitsAll := by simp [Body.coAwaitCall, Body.AwaitsAll, receive]

/-- The operation of the second chain completes first. -/
def twoChains : List (Event Int Nat) :=
  [.spawn chain, .run, .run, .run, .run, .run, .spawn pair, .run, .run, .run, .complete 4 7,
    .run, .run, .run, .complete 2 30, .run, .run, .run, .run, .run, .run, .run, .run, .run]

/-- Each of the three awaits that suspended is answered once. -/
theorem taskT_await_exact_two_chains :
    ∃ s, machine.exec init twoChains = some s ∧ s.stack = [] ∧ s.fault = false ∧
      (∃ v, (1, v) ∈ s.returned ∧ s.handoversOf 1 = [{ task := 1, awaiter := 0, value := v }]) ∧
      (∃ v, (2, v) ∈ s.returned ∧ s.handoversOf 2 = [{ task := 2, awaiter := 1, value := v }]) ∧
      (∃ v, (4, v) ∈ s.returned ∧ s.handoversOf 4 = [{ task := 4, awaiter := 3, value := v }]) := by
  have hrun : (machine.exec init twoChains).any (fun s => s.stack = [] ∧
      s.suspensions = [(2, 1), (1, 0), (4, 3)] ∧
      s.handovers.map Handover.task = [4, 2, 1]) = true := by
    decide +kernel
  obtain ⟨s, hs, hstate⟩ := (Option.any_eq_true _ _).mp hrun
  obtain ⟨hstack, hsuspensions, hhandovers⟩ := of_decide_eq_true hstate
  obtain ⟨hfault, _, _, _, honce, _⟩ := taskT_await_exact hs
  have hanswered : ∀ t c, (t, c) ∈ s.suspensions → t ∈ s.handovers.map Handover.task →
      ∃ v, (t, v) ∈ s.returned ∧
        s.handoversOf t = [{ task := t, awaiter := c, value := v }] := by
    intro t c hin ht
    rcases honce t c hin with ⟨_, hnone⟩ | ⟨_, hsome⟩
    · obtain ⟨x, hx, rfl⟩ := List.mem_map.mp ht
      rw [handoversOf, List.filter_eq_nil_iff] at hnone
      exact absurd (decide_eq_true rfl) (hnone x hx)
    · exact hsome
  refine ⟨s, hs, hstack, hfault, hanswered 1 0 ?_ ?_, hanswered 2 1 ?_ ?_, hanswered 4 3 ?_ ?_⟩
  all_goals simp [hsuspensions, hhandovers]

end Coroutines

end CRpc
