import CRpc.Coroutine

/-!
# The frames of coroutines as a tree

Every `TaskT` frame is owned by the coroutine that made the call, through a variable
in its scope.  `Tree` is this structure, with what each coroutine still owes the
variables in its scope: a variable that is marked as awaited belongs to a coroutine
that has finished.  Hence `~TaskT` only meets finished coroutines.

One lemma per change of the frames: `Tree.setStatus`, `Tree.spawn`, `Tree.call`,
`Tree.drop`.
-/

namespace CRpc

open Lib

universe u v

namespace Coroutines

variable {R : Type u} {V : Type v}
variable {s s' : Coroutines R V} {c t : Nat}

/-! ### The frames after an update -/

@[grind =] theorem setStatus_frame (status : Status R V) (d : Nat) :
    (s.setStatus c status).frame d =
      if d = c then { s.frame d with status := status } else s.frame d := by
  simp only [setStatus, Function.update_apply]
  split
  next h => rw [h]
  next => rfl

@[grind =] theorem setTasks_frame (tasks : List Nat) (d : Nat) :
    (s.setTasks c tasks).frame d =
      if d = c then { s.frame d with tasks := tasks } else s.frame d := by
  simp only [setTasks, Function.update_apply]
  split
  next h => rw [h]
  next => rfl

@[grind =] theorem awaitSuspend_frame (h d : Nat) :
    (s.awaitSuspend t h).frame d =
      if d = t then { s.frame d with continuation := some h } else s.frame d := by
  simp only [awaitSuspend, Function.update_apply]
  split
  next h => rw [h]
  next => rfl

@[grind =] theorem returnValue_frame (v : V) (d : Nat) :
    (s.returnValue c v).frame d =
      if d = c then { s.frame d with value := v } else s.frame d := by
  simp only [returnValue, Function.update_apply]
  split
  next h => rw [h]
  next => rfl

@[grind =] theorem create_frame [Inhabited V] (kind : Kind) (body : Body R V) (d : Nat) :
    (s.create kind body).frame d =
      if d = s.count then
        { kind := kind, status := .running body, value := default, continuation := none
          tasks := [] }
      else s.frame d := by
  simp only [create, Function.update_apply]

@[simp, grind =] theorem setStatus_count (status : Status R V) :
    (s.setStatus c status).count = s.count := rfl

@[simp, grind =] theorem setTasks_count (tasks : List Nat) :
    (s.setTasks c tasks).count = s.count := rfl

@[grind =] theorem done_iff : s.done t = true ↔ (s.frame t).status = .final := by
  rw [done]
  split <;> simp_all

/-- `~TaskT` on finished coroutines destroys their frames and nothing else. -/
theorem foldl_destroy (ts : List Nat) :
    ∀ s : Coroutines R V, (∀ t, t ∈ ts → (s.frame t).status = .final) → ts.Nodup →
      ts.foldl destroy s = { s with frame := fun d =>
        if d ∈ ts then { s.frame d with status := .destroyed } else s.frame d } := by
  induction ts with
  | nil => simp
  | cons t ts ih =>
      intro s hfinal hnodup
      have hdone : s.done t = true := done_iff.mpr (hfinal t List.mem_cons_self)
      obtain ⟨hnotMem, hnodup⟩ := List.nodup_cons.mp hnodup
      have hdestroy : s.destroy t = s.setStatus t .destroyed := if_pos hdone
      have hrest : ∀ t', t' ∈ ts → ((s.setStatus t .destroyed).frame t').status = .final := by
        intro t' ht'
        have hne : t' ≠ t := fun h => hnotMem (h ▸ ht')
        rw [setStatus_frame, if_neg hne]
        exact hfinal t' (List.mem_cons_of_mem t ht')
      rw [List.foldl_cons, hdestroy, ih _ hrest hnodup]
      simp only [setStatus, mk.injEq, and_true]
      funext d
      simp only [Function.update_apply, List.mem_cons]
      by_cases hd : d = t
      · simp [hd, hnotMem]
      · simp [hd]

/-! ### What a coroutine owes -/

/-- The flags of the variables `tasks`: what has been awaited has finished. -/
def Flags (s : Coroutines R V) (fs : List Bool) (tasks : List Nat) : Prop :=
  List.Forall₂ (fun f t => f = true → (s.frame t).status = .final) fs tasks

/-- What a coroutine still owes the `TaskT` objects in its scope. -/
def Owes (s : Coroutines R V) (tasks : List Nat) : Status R V → Prop
  | .running body => ∃ fs, s.Flags fs tasks ∧ body.AwaitsAll fs
  | .onOp k => ∃ fs, s.Flags fs tasks ∧ ∀ res, (k res).AwaitsAll fs
  | .onTask t k => ∃ fs i, s.Flags fs tasks ∧ tasks[i]? = some t ∧
      ∀ v, (k v).AwaitsAll (fs.set i true)
  | .final => tasks = []
  | .destroyed => tasks = []

theorem Flags.mono {fs : List Bool} {tasks : List Nat} (h : s.Flags fs tasks)
    (hfinal : ∀ t, t ∈ tasks → (s.frame t).status = .final → (s'.frame t).status = .final) :
    s'.Flags fs tasks := by
  induction h with
  | nil => exact .nil
  | @cons f t fs tasks hhead _ ih =>
      refine .cons (fun hf => hfinal t List.mem_cons_self (hhead hf)) (ih ?_)
      exact fun t' ht' => hfinal t' (List.mem_cons_of_mem t ht')

/-- An awaited variable gets its flag. -/
theorem Flags.set {fs : List Bool} {tasks : List Nat} (h : s.Flags fs tasks) :
    ∀ {i : Nat}, tasks[i]? = some t → (s.frame t).status = .final →
      s.Flags (fs.set i true) tasks := by
  induction h with
  | nil => simp [Flags]
  | @cons f t' fs tasks hhead htail ih =>
      intro i hi hfinal
      cases i with
      | zero =>
          simp only [List.getElem?_cons_zero, Option.some.injEq] at hi
          exact .cons (fun _ => hi ▸ hfinal) htail
      | succ i => exact .cons hhead (ih hi hfinal)

theorem Flags.all_final {fs : List Bool} {tasks : List Nat} (h : s.Flags fs tasks)
    (hall : ∀ f, f ∈ fs → f = true) : ∀ t, t ∈ tasks → (s.frame t).status = .final := by
  induction h with
  | nil => simp
  | @cons f t fs tasks hhead _ ih =>
      intro t' ht'
      rcases List.mem_cons.mp ht' with rfl | hin
      · exact hhead (hall f List.mem_cons_self)
      · exact ih (fun f' hf' => hall f' (List.mem_cons_of_mem f hf')) t' hin

theorem Owes.mono {tasks : List Nat} {status : Status R V} (h : s.Owes tasks status)
    (hfinal : ∀ t, t ∈ tasks → (s.frame t).status = .final → (s'.frame t).status = .final) :
    s'.Owes tasks status := by
  cases status with
  | running body =>
      obtain ⟨fs, hflags, hbody⟩ := h
      exact ⟨fs, hflags.mono hfinal, hbody⟩
  | onOp k =>
      obtain ⟨fs, hflags, hk⟩ := h
      exact ⟨fs, hflags.mono hfinal, hk⟩
  | onTask t k =>
      obtain ⟨fs, i, hflags, hi, hk⟩ := h
      exact ⟨fs, i, hflags.mono hfinal, hi, hk⟩
  | final => exact h
  | destroyed => exact h

/-! ### The tree -/

/-- The `TaskT` variables make a tree of the frames that exist. -/
structure Tree (s : Coroutines R V) : Prop where
  unused : ∀ c, s.count ≤ c → (s.frame c).status = .destroyed
  tasks_nodup : ∀ c, (s.frame c).tasks.Nodup
  tasks_lt : ∀ c t, t ∈ (s.frame c).tasks → c < t
  tasks_alive : ∀ c t, t ∈ (s.frame c).tasks →
    (s.frame t).kind = .taskT ∧ (s.frame t).status ≠ .destroyed
  owner_unique : ∀ c d t, t ∈ (s.frame c).tasks → t ∈ (s.frame d).tasks → c = d
  owned : ∀ t, (s.frame t).kind = .taskT → (s.frame t).status ≠ .destroyed →
    ∃ c, t ∈ (s.frame c).tasks
  final_kind : ∀ c, (s.frame c).status = .final → (s.frame c).kind = .taskT
  owes : ∀ c, s.Owes (s.frame c).tasks (s.frame c).status

theorem Tree.lt_count (h : s.Tree) (hc : (s.frame c).status ≠ .destroyed) : c < s.count := by
  by_contra hle
  exact hc (h.unused c (not_lt.mp hle))

theorem Tree.tasks_of_final (h : s.Tree) (hc : (s.frame c).status = .final) :
    (s.frame c).tasks = [] := by
  have howes := h.owes c
  rwa [hc] at howes

theorem Tree.tasks_of_destroyed (h : s.Tree) (hc : (s.frame c).status = .destroyed) :
    (s.frame c).tasks = [] := by
  have howes := h.owes c
  rwa [hc] at howes

/-- Values and continuations are no part of the tree. -/
theorem Tree.congr (h : s.Tree) (hcount : s'.count = s.count)
    (hframe : ∀ d, (s'.frame d).kind = (s.frame d).kind ∧
      (s'.frame d).status = (s.frame d).status ∧ (s'.frame d).tasks = (s.frame d).tasks) :
    s'.Tree where
  unused d hd := by
    rw [(hframe d).2.1]
    exact h.unused d (hcount ▸ hd)
  tasks_nodup d := by
    rw [(hframe d).2.2]
    exact h.tasks_nodup d
  tasks_lt d t ht := h.tasks_lt d t ((hframe d).2.2 ▸ ht)
  tasks_alive d t ht := by
    rw [(hframe t).1, (hframe t).2.1]
    exact h.tasks_alive d t ((hframe d).2.2 ▸ ht)
  owner_unique d e t hd he :=
    h.owner_unique d e t ((hframe d).2.2 ▸ hd) ((hframe e).2.2 ▸ he)
  owned t hkind hstatus := by
    rw [(hframe t).1] at hkind
    rw [(hframe t).2.1] at hstatus
    obtain ⟨d, hd⟩ := h.owned t hkind hstatus
    exact ⟨d, (hframe d).2.2 ▸ hd⟩
  final_kind d hd := by
    rw [(hframe d).2.1] at hd
    rw [(hframe d).1]
    exact h.final_kind d hd
  owes d := by
    rw [(hframe d).2.1, (hframe d).2.2]
    refine (h.owes d).mono ?_
    intro t _ hfinal
    rw [(hframe t).2.1]
    exact hfinal

/-- A coroutine that has not finished goes on or suspends. -/
theorem Tree.setStatus (h : s.Tree) (status : Status R V)
    (hold : (s.frame c).status ≠ .destroyed ∧ (s.frame c).status ≠ .final)
    (hnew : status ≠ .destroyed ∧ status ≠ .final)
    (howes : s.Owes (s.frame c).tasks status) : (s.setStatus c status).Tree where
  unused d hd := by
    have hd' := h.unused d hd
    grind
  tasks_nodup d := by
    have hd := h.tasks_nodup d
    grind
  tasks_lt d t ht := by
    have hd := h.tasks_lt d t
    grind
  tasks_alive d t ht := by
    have hd := h.tasks_alive d t
    grind
  owner_unique d e t hd he := by
    have hsame := h.owner_unique d e t
    grind
  owned t hkind hstatus := by
    obtain ⟨d, hd⟩ := h.owned t (by grind) (by grind)
    exact ⟨d, by grind⟩
  final_kind d hd := by
    have hkind := h.final_kind d
    grind
  owes d := by
    have hmono : ∀ t, (s.frame t).status = .final →
        ((s.setStatus c status).frame t).status = .final := by
      grind
    rw [setStatus_frame]
    split
    next hd =>
      subst hd
      exact howes.mono fun t _ => hmono t
    next => exact (h.owes d).mono fun t _ => hmono t

/-- A `Task` starts. -/
theorem Tree.spawn [Inhabited V] (h : s.Tree) {body : Body R V} (hbody : body.AwaitsAll []) :
    (s.create .task body).Tree where
  unused d hd := by
    have hlt : s.count + 1 ≤ d := hd
    have hd' := h.unused d (by omega)
    grind
  tasks_nodup d := by
    have hd := h.tasks_nodup d
    grind
  tasks_lt d t ht := by
    have hd := h.tasks_lt d t
    grind
  tasks_alive d t ht := by
    have hd := h.tasks_alive d t
    have hlt := h.unused s.count le_rfl
    grind
  owner_unique d e t hd he := by
    have hsame := h.owner_unique d e t
    grind
  owned t hkind hstatus := by
    obtain ⟨d, hd⟩ := h.owned t (by grind) (by grind)
    have hempty := h.tasks_of_destroyed (h.unused s.count le_rfl)
    exact ⟨d, by grind⟩
  final_kind d hd := by
    have hkind := h.final_kind d
    grind
  owes d := by
    rw [create_frame]
    split
    · exact ⟨[], .nil, hbody⟩
    · refine (h.owes d).mono ?_
      have hnew := h.unused s.count le_rfl
      grind

theorem call_frame [Inhabited V] (callee body : Body R V) (d : Nat) :
    (((s.setStatus c (.running body)).setTasks c (s.count :: (s.frame c).tasks)).create .taskT
      callee).frame d =
      if d = s.count then
        { kind := .taskT, status := .running callee, value := default, continuation := none
          tasks := [] }
      else if d = c then
        { s.frame d with status := .running body, tasks := s.count :: (s.frame d).tasks }
      else s.frame d := by
  grind

/-- A coroutine calls another one and keeps its `TaskT`. -/
theorem Tree.call [Inhabited V] (h : s.Tree) {callee body : Body R V}
    (hc : (s.frame c).status = .running (.call callee body)) :
    (((s.setStatus c (.running body)).setTasks c (s.count :: (s.frame c).tasks)).create .taskT
      callee).Tree := by
  have hnew := h.unused s.count le_rfl
  have hempty := h.tasks_of_destroyed hnew
  have hlt := h.lt_count (c := c) (by simp [hc])
  have hfresh : ∀ d, s.count ∉ (s.frame d).tasks := by
    intro d hd
    exact (h.tasks_alive d s.count hd).2 hnew
  have howes := h.owes c
  rw [hc] at howes
  obtain ⟨fs, hflags, hcallee, hbody⟩ := howes
  constructor
  case unused =>
    intro d hd
    have hd' : s.count + 1 ≤ d := hd
    have hunused := h.unused d (by omega)
    grind
  case tasks_nodup =>
    intro d
    have hd := h.tasks_nodup d
    have hnotMem := hfresh c
    grind
  case tasks_lt =>
    intro d t ht
    have hd := h.tasks_lt d t
    grind
  case tasks_alive =>
    intro d t ht
    have hd := h.tasks_alive d t
    grind
  case owner_unique =>
    intro d e t hd he
    have hsame := h.owner_unique d e t
    have hd' := hfresh d
    have he' := hfresh e
    grind
  case owned =>
    intro t hkind hstatus
    by_cases ht : t = s.count
    · exact ⟨c, by grind⟩
    · obtain ⟨d, hd⟩ := h.owned t (by grind) (by grind)
      exact ⟨d, by grind⟩
  case final_kind =>
    intro d hd
    have hkind := h.final_kind d
    grind
  case owes =>
    intro d
    have hmono : ∀ t, (s.frame t).status = .final →
        ((((s.setStatus c (.running body)).setTasks c
          (s.count :: (s.frame c).tasks)).create .taskT callee).frame t).status = .final := by
      grind
    rw [call_frame]
    split
    next => exact ⟨[], .nil, hcallee⟩
    next =>
      split
      next hd =>
        rw [hd]
        refine ⟨false :: fs, .cons (by simp) ?_, hbody⟩
        exact Flags.mono hflags fun t _ => hmono t
      next => exact (h.owes d).mono fun t _ => hmono t

/-- The variables `ds` of `c` die, `ks` stay, and `c` goes on with `status`. -/
def dropped (s : Coroutines R V) (c : Nat) (ds ks : List Nat) (status : Status R V) :
    Coroutines R V :=
  { s with frame := fun d =>
      if d = c then { s.frame d with status := status, tasks := ks }
      else if d ∈ ds then { s.frame d with status := .destroyed }
      else s.frame d }

@[grind =] theorem dropped_frame (ds ks : List Nat) (status : Status R V) (d : Nat) :
    (s.dropped c ds ks status).frame d =
      if d = c then { s.frame d with status := status, tasks := ks }
      else if d ∈ ds then { s.frame d with status := .destroyed }
      else s.frame d := rfl

/-- Variables whose coroutines have finished die. -/
theorem Tree.drop (h : s.Tree) {ds ks : List Nat} {status : Status R V}
    (hsplit : (s.frame c).tasks = ds ++ ks)
    (hfinal : ∀ t, t ∈ ds → (s.frame t).status = .final)
    (hold : (s.frame c).status ≠ .destroyed ∧ (s.frame c).status ≠ .final)
    (hnew : (status = .destroyed → (s.frame c).kind = .task) ∧
      (status = .final → (s.frame c).kind = .taskT))
    (howes : s.Owes ks status) : (s.dropped c ds ks status).Tree := by
  have hnodup := h.tasks_nodup c
  rw [hsplit] at hnodup
  have hdisjoint : ∀ t, t ∈ ks → t ∉ ds := fun t hk hd =>
    List.disjoint_of_nodup_append hnodup hd hk
  have howner : ∀ d t, t ∈ ds → t ∈ (s.frame d).tasks → d = c := by
    intro d t ht hd
    exact h.owner_unique d c t hd (by rw [hsplit]; exact List.mem_append_left _ ht)
  have hself : c ∉ ds := fun hc => hold.2 (hfinal c hc)
  have hempty : ∀ t, t ∈ ds → (s.frame t).tasks = [] := fun t ht =>
    h.tasks_of_final (hfinal t ht)
  constructor
  case unused =>
    intro d hd
    have hunused := h.unused d hd
    grind
  case tasks_nodup =>
    intro d
    have hd := h.tasks_nodup d
    have hks := (List.nodup_append.mp hnodup).2.1
    grind
  case tasks_lt =>
    intro d t ht
    have hd := h.tasks_lt d t
    grind
  case tasks_alive =>
    intro d t ht
    have hd := h.tasks_alive d t
    have howner' := howner d t
    have hdisjoint' := hdisjoint t
    grind
  case owner_unique =>
    intro d e t hd he
    have hsame := h.owner_unique d e t
    grind
  case owned =>
    intro t hkind hstatus
    obtain ⟨d, hd⟩ := h.owned t (by grind) (by grind)
    have hempty' := hempty d
    exact ⟨d, by grind⟩
  case final_kind =>
    intro d hd
    have hkind := h.final_kind d
    grind
  case owes =>
    intro d
    rw [dropped_frame]
    split
    next hd =>
      refine howes.mono ?_
      intro t ht hstatus
      have hdisjoint' := hdisjoint t ht
      grind
    next hd =>
      split
      next hin => exact hempty d hin
      next hin =>
        refine (h.owes d).mono ?_
        intro t ht hstatus
        have howner' := howner d t
        grind

end Coroutines

end CRpc
