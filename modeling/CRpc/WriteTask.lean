import CRpc.PartialWrites
import CRpc.TaskAwait

/-!
# `Write` as a `TaskT`

`CoroConnection::Write` is the `TaskT` that the servers await.  `WriteRun` and the
write loop of a `Session` run it inside the coroutine that awaits it.  Here it is a
coroutine of its own, with a frame among those of the thread.

* `LeafAt`: where a `TaskT` is that awaits operations only.  `leaf_exec`: this depends
  on the results of its own operations, whatever the other coroutines do.
* `write_returns`: the `TaskT` of `Write` returns what `WriteRun` returns, and its
  awaiter obtains that.
-/

namespace CRpc

open Lib

universe u v

namespace Body

variable {R : Type u} {V : Type v}

/-- A body that awaits operations only. -/
def Leaf : Body R V → Prop
  | .coReturn _ => True
  | .coAwaitOp k => ∀ res, (k res).Leaf
  | _ => False

/-- A body alone: the operation it awaits completes, and it goes on. -/
def machine : Machine (Body R V) R where
  step b res :=
    match b with
    | .coAwaitOp k => some (k res)
    | _ => none

end Body

namespace Coroutines

variable {R : Type u} {V : Type v}
variable {s s' : Coroutines R V} {b : Body R V} {c t : Nat} {rest : List Nat}

/-! ### A coroutine that awaits operations only -/

/-- What the `TaskT` `t` has left to do is `b`. -/
inductive At (s : Coroutines R V) (t : Nat) : Body R V → Prop
  | running {b : Body R V} (status : (s.frame t).status = .running b) : At s t b
  | waiting {k : R → Body R V} (status : (s.frame t).status = .onOp k) :
      At s t (.coAwaitOp k)
  | ended {v : V}
      (status : (s.frame t).status = .final ∨ (s.frame t).status = .destroyed)
      (returned : (t, v) ∈ s.returned) : At s t (.coReturn v)

theorem At.eq_of_running (h : s.At t b) {body : Body R V}
    (hstatus : (s.frame t).status = .running body) : b = body := by
  cases h with
  | running hb =>
      rw [hstatus] at hb
      cases hb
      rfl
  | waiting hk =>
      rw [hstatus] at hk
      cases hk
  | ended hend =>
      rw [hstatus] at hend
      rcases hend with hend | hend
      · cases hend
      · cases hend

theorem At.eq_of_onOp (h : s.At t b) {k : R → Body R V}
    (hstatus : (s.frame t).status = .onOp k) : b = .coAwaitOp k := by
  cases h with
  | running hb =>
      rw [hstatus] at hb
      cases hb
  | waiting hk =>
      rw [hstatus] at hk
      cases hk
      rfl
  | ended hend =>
      rw [hstatus] at hend
      rcases hend with hend | hend
      · cases hend
      · cases hend

/-- The `TaskT` `t` awaits operations only, and has `b` left to do. -/
structure LeafAt (s : Coroutines R V) (t : Nat) (b : Body R V) : Prop where
  leaf : b.Leaf
  lt_count : t < s.count
  kind : (s.frame t).kind = .taskT
  place : s.At t b

/-- All that a step of others can do to `t` is to destroy it after its end. -/
structure Spares (s s' : Coroutines R V) (t : Nat) : Prop where
  count : s.count ≤ s'.count
  kind : (s'.frame t).kind = (s.frame t).kind
  status : (s'.frame t).status = (s.frame t).status ∨
    (s.frame t).status = .final ∧ (s'.frame t).status = .destroyed
  returned : ∀ v, (t, v) ∈ s.returned → (t, v) ∈ s'.returned

theorem LeafAt.spares (h : s.LeafAt t b) (hs : Spares s s' t) : s'.LeafAt t b where
  leaf := h.leaf
  lt_count := lt_of_lt_of_le h.lt_count hs.count
  kind := hs.kind.trans h.kind
  place := by
    have hstatus := hs.status
    cases h.place with
    | running hb => exact .running (by grind)
    | waiting hk => exact .waiting (by grind)
    | ended hend hret => exact .ended (by grind) (hs.returned _ hret)

theorem LeafAt.not_onTask (h : s.LeafAt t b) (d : Nat) (k : V → Body R V) :
    (s.frame t).status ≠ .onTask d k := by
  cases h.place with
  | running hb => simp [hb]
  | waiting hk => simp [hk]
  | ended hend =>
      rcases hend with hend | hend
      · simp [hend]
      · simp [hend]

theorem spares_setStatus (status : Status R V) (ht : t ≠ c) (stack : List Nat) :
    Spares s { s.setStatus c status with stack := stack } t := by
  refine ⟨le_rfl, ?_, Or.inl ?_, fun _ => id⟩
  · simp [setStatus_frame, ht]
  · simp [setStatus_frame, ht]

theorem spares_create [Inhabited V] (ht : t < s.count) (kind : Kind) (body : Body R V) :
    Spares s (s.create kind body) t := by
  refine ⟨Nat.le_succ _, ?_, Or.inl ?_, fun _ => id⟩
  · simp [create_frame, ht.ne]
  · simp [create_frame, ht.ne]

theorem spares_dropped {ds : List Nat} (ks : List Nat) (status : Status R V)
    (hfinal : ∀ t, t ∈ ds → (s.frame t).status = .final) (ht : t ≠ c) (stack : List Nat) :
    Spares s { s.dropped c ds ks status with stack := stack } t := by
  have hdead := hfinal t
  refine ⟨le_rfl, ?_, ?_, fun _ => id⟩
  · grind
  · grind

theorem Ok.spares_finished (h : s.Ok) {v : V} (rest : List Nat)
    (hc : (s.frame c).status = .running (.coReturn v)) (ht : t ≠ c) :
    Spares s (s.finished c rest v) t := by
  have hdead := h.tasks_final hc t
  refine ⟨le_rfl, ?_, ?_, fun _ => List.mem_append_left _⟩
  · simp only [finished]
    grind
  · simp only [finished]
    grind

/-- Another coroutine goes on; one case per constructor of its body. -/
theorem Ok.spares_runBody [Inhabited V] (h : s.Ok) {body : Body R V}
    (hc : (s.frame c).status = .running body) (ht : t ≠ c) (hlt : t < s.count)
    (hnot : ∀ d k, (s.frame t).status ≠ .onTask d k) :
    Spares s (s.runBody c rest body) t := by
  cases body with
  | coReturn v =>
      cases hkind : (s.frame c).kind with
      | task =>
          have hfinal := h.tasks_final hc
          simp only [Coroutines.runBody, Coroutines.coReturn, hkind,
            dropTasks_setStatus h.tree hfinal]
          exact spares_dropped [] .destroyed hfinal ht rest
      | taskT =>
          have hspares := h.spares_finished rest hc ht
          rcases h.coReturn_cases rest hkind hc with ⟨_, heq⟩ | ⟨d, k, _, hk, heq⟩
          · rw [Coroutines.runBody, heq]
            exact hspares
          · -- the continuation waits for a `TaskT`, so it is not `t`
            have hne : t ≠ d := fun htd => hnot c k (htd ▸ hk)
            rw [Coroutines.runBody, heq]
            refine ⟨hspares.count, ?_, ?_, hspares.returned⟩
            · rw [setStatus_frame, if_neg hne]
              exact hspares.kind
            · rw [setStatus_frame, if_neg hne]
              exact hspares.status
  | coAwaitOp k => exact spares_setStatus (.onOp k) ht rest
  | call callee body =>
      refine ⟨Nat.le_succ _, ?_, Or.inl ?_, fun _ => id⟩
      · rw [Coroutines.runBody, call_frame, if_neg hlt.ne, if_neg ht]
      · rw [Coroutines.runBody, call_frame, if_neg hlt.ne, if_neg ht]
  | coAwait i k =>
      obtain ⟨d, _, hd, _⟩ := h.coAwait_variable hc
      simp only [Coroutines.runBody, hd, Coroutines.coAwait]
      split
      next => exact spares_setStatus (.running (k (s.awaitResume d))) ht s.stack
      next =>
        refine ⟨le_rfl, ?_, Or.inl ?_, fun _ => id⟩
        · grind
        · grind
  | endScope body =>
      obtain ⟨d, tasks, _, htasks, hfinal, _⟩ := h.endScope_variable hc
      simp only [Coroutines.runBody, htasks, destroy_setTasks h.tree htasks hfinal]
      exact spares_dropped tasks (.running body) (by simpa using hfinal) ht s.stack

/-- The coroutine itself goes on, to its next operation or to its end. -/
theorem LeafAt.runBody [Inhabited V] (h : s.LeafAt t b) (hok : s.Ok) {body : Body R V}
    (hstatus : (s.frame t).status = .running body) : (s.runBody t rest body).LeafAt t b := by
  obtain rfl := h.place.eq_of_running hstatus
  cases b with
  | coReturn v =>
      have hkind : ((s.finished t rest v).frame t).kind = .taskT := by
        simp only [finished, dropped_frame, returnValue_frame, if_true]
        exact h.kind
      have hret : (t, v) ∈ (s.finished t rest v).returned :=
        List.mem_append_right _ (List.mem_singleton_self _)
      rcases hok.coReturn_cases rest h.kind hstatus with ⟨_, heq⟩ | ⟨d, k, _, hk, heq⟩
      · rw [Coroutines.runBody, heq]
        exact ⟨trivial, h.lt_count, hkind, .ended (Or.inl (finished_final v)) hret⟩
      · have hne : t ≠ d := fun htd => h.not_onTask t k (htd ▸ hk)
        rw [Coroutines.runBody, heq]
        refine ⟨trivial, h.lt_count, ?_, .ended (Or.inl ?_) hret⟩
        · rw [setStatus_frame, if_neg hne]
          exact hkind
        · rw [setStatus_frame, if_neg hne]
          exact finished_final v
  | coAwaitOp k =>
      refine ⟨h.leaf, h.lt_count, ?_, .waiting ?_⟩
      · simpa [Coroutines.runBody, setStatus_frame] using h.kind
      · simp [Coroutines.runBody, setStatus_frame]
  | call callee body => exact absurd h.leaf id
  | coAwait i k => exact absurd h.leaf id
  | endScope body => exact absurd h.leaf id

/-- The operation that the coroutine awaits completes. -/
theorem LeafAt.complete (h : s.LeafAt t b) {k : R → Body R V}
    (hk : (s.frame t).status = .onOp k) (res : R) (stack : List Nat) :
    Body.machine.step b res = some (k res) ∧
      LeafAt { s.setStatus t (.running (k res)) with stack := stack } t (k res) := by
  obtain rfl := h.place.eq_of_onOp hk
  refine ⟨rfl, h.leaf res, h.lt_count, ?_, .running ?_⟩
  · simpa [setStatus_frame] using h.kind
  · simp [setStatus_frame]

/-- The result that the event brings to `t`. -/
def Event.resultFor (t : Nat) : Event R V → Option R
  | .complete c res => if c = t then some res else none
  | _ => none

/-- The results of the operations of `t`, in the order in which they complete. -/
def resultsFor (t : Nat) (es : List (Event R V)) : List R := es.filterMap (Event.resultFor t)

theorem LeafAt.step [Inhabited V] {e : Event R V} (h : s.LeafAt t b) (hok : s.Ok)
    (hstep : machine.step s e = some s') :
    ∃ b', Body.machine.exec b (resultsFor t [e]) = some b' ∧ s'.LeafAt t b' := by
  rcases step_cases hstep with
    ⟨p, rfl, rfl⟩ | ⟨c, k, res, rfl, hk, rfl⟩ | ⟨c, rest, body, rfl, _, hbody, rfl⟩ |
      ⟨c, rest, _, hstack, hnot, _⟩
  · exact ⟨b, rfl, h.spares (spares_create h.lt_count .task p.body)⟩
  · by_cases hct : c = t
    · subst hct
      obtain ⟨hb, hleaf⟩ := h.complete hk res (c :: s.stack)
      refine ⟨k res, ?_, hleaf⟩
      simp [resultsFor, Event.resultFor, Machine.exec, hb]
    · refine ⟨b, ?_, h.spares (spares_setStatus _ (Ne.symm hct) _)⟩
      simp [resultsFor, Event.resultFor, hct]
  · refine ⟨b, rfl, ?_⟩
    by_cases hct : c = t
    · subst hct
      exact h.runBody hok hbody
    · exact h.spares (hok.spares_runBody hbody (Ne.symm hct) h.lt_count h.not_onTask)
  · exact absurd (hok.running_of_stack hstack) hnot

/-- Whatever else runs, the coroutine goes on with the results of its own operations. -/
theorem leaf_exec [Inhabited V] {es : List (Event R V)} (h : s.LeafAt t b) (hok : s.Ok)
    (hrun : machine.exec s es = some s') :
    ∃ b', Body.machine.exec b (resultsFor t es) = some b' ∧ s'.LeafAt t b' := by
  refine Machine.run_induction
    (motive := fun es s' => ∃ b', Body.machine.exec b (resultsFor t es) = some b' ∧
      s'.LeafAt t b') ⟨b, rfl, h⟩ ?_ hrun
  rintro es m e m' hm ⟨b', hb', hleaf⟩ hstep
  have hmok : m.Ok := Machine.exec_invariant (fun _ _ _ hi he => ok_step hi he) hm hok
  obtain ⟨b'', hb'', hleaf'⟩ := hleaf.step hmok hstep
  refine ⟨b'', ?_, hleaf'⟩
  rw [resultsFor, List.filterMap_append]
  exact Machine.exec_append_eq_some.mpr ⟨b', hb', hb''⟩

/-- What a coroutine has returned is what it had left to return. -/
theorem LeafAt.eq_of_returned (h : s.LeafAt t b) (hhistory : s.History) {v : V}
    (hin : (t, v) ∈ s.returned) : b = .coReturn v := by
  cases h.place with
  | running hb => exact absurd hin (hhistory.not_returned hb v)
  | waiting hk =>
      rcases (hhistory.ended t v hin).2 with hend | ⟨hend, _⟩
      · rw [hk] at hend
        cases hend
      · rw [hk] at hend
        cases hend
  | ended _ hret =>
      have hsame := List.inj_on_of_nodup_map hhistory.returned_nodup hret hin rfl
      rw [(Prod.mk.inj hsame).2]

/-- A coroutine that has a value left to return and is not running has returned it. -/
theorem LeafAt.returned (hok : s.Ok) {v : V} (h : s.LeafAt t (.coReturn v))
    (hstack : t ∉ s.stack) : (t, v) ∈ s.returned := by
  cases h.place with
  | running hb => exact absurd ((hok.stacked.mem_iff t).mpr ⟨_, hb⟩) hstack
  | ended _ hret => exact hret

end Coroutines

/-! ### `Write` -/

/-- `Write` at the head of its loop. -/
def WriteFrame.headBody (f : WriteFrame) : Body Int Int :=
  if 0 < f.remaining then
    .coAwaitOp fun w =>
      if w ≤ 0 then .coReturn w
      else
        headBody { f with ptr := f.ptr + w.toNat, remaining := f.remaining - w.toNat }
  else
    .coReturn (toInt32 f.data.length)
termination_by f.remaining

/-- `Write` after its `co_await`. -/
def WriteFrame.resumeBody (f : WriteFrame) (w : Int) : Body Int Int :=
  if w ≤ 0 then .coReturn w
  else WriteFrame.headBody { f with ptr := f.ptr + w.toNat, remaining := f.remaining - w.toNat }

/-- The coroutine `Write(data, len)`. -/
def writeBody (data : List UInt8) : Body Int Int :=
  WriteFrame.headBody { data := data, ptr := 0, remaining := data.length }

/-- What a call of `Write` has left to do. -/
def WriteOutcome.body : WriteOutcome → Body Int Int
  | .suspended _ _ f => .coAwaitOp f.resumeBody
  | .returned w => .coReturn w

theorem WriteFrame.leaf_headBody (f : WriteFrame) : f.headBody.Leaf := by
  induction f using WriteFrame.headBody.induct with
  | case1 f hpos ih =>
      rw [headBody, if_pos hpos]
      intro w
      by_cases hw : w ≤ 0
      · simp [hw, Body.Leaf]
      · simpa [hw] using ih w hw
  | case2 f hzero =>
      rw [headBody, if_neg hzero]
      trivial

theorem body_writeHead (c : CoroConnection) (f : WriteFrame) :
    (c.writeHead f).body = f.headBody := by
  rw [CoroConnection.writeHead, WriteFrame.headBody]
  split
  next => rfl
  next => rfl

theorem body_writeResume (c : CoroConnection) (f : WriteFrame) (w : Int) :
    (c.writeResume f w).body = f.resumeBody w := by
  rw [CoroConnection.writeResume, WriteFrame.resumeBody]
  split
  next => rfl
  next => exact body_writeHead c _

namespace WriteRun

variable {conn : CoroConnection} {data : List UInt8} {ws : List Int} {r r' : WriteRun}

theorem body_step {w : Int} (hstep : machine.step r w = some r') :
    Body.machine.step r.outcome.body w = some r'.outcome.body := by
  simp only [machine] at hstep
  split at hstep
  next c sqe f houtcome =>
    obtain ⟨_, hr'⟩ := Option.ite_none_right_eq_some.mp hstep
    cases hr'
    rw [houtcome, body_writeResume]
    rfl
  next => cases hstep

/-- A call of `Write` goes through the body of the coroutine. -/
theorem body_exec (hrun : machine.exec (start conn data) ws = some r) :
    Body.machine.exec (writeBody data) ws = some r.outcome.body := by
  have hstart : (start conn data).outcome.body = writeBody data := body_writeHead conn _
  obtain ⟨b, hb, hbody⟩ := Machine.exec_refinement (N := Body.machine)
    (R := fun r b => r.outcome.body = b) (f := fun w => w)
    (fun r w r' b hrb hstep => ⟨r'.outcome.body, hrb ▸ body_step hstep, rfl⟩) hstart hrun
  rw [List.map_id'] at hb
  rw [hb, hbody]

end WriteRun

theorem WriteOutcome.eq_returned_of_body {o : WriteOutcome} {v : Int}
    (h : o.body = .coReturn v) : o = .returned v := by
  cases o with
  | suspended c sqe f => cases h
  | returned w =>
      cases h
      rfl

namespace Coroutines

variable {s s' : Coroutines Int Int} {c : Nat} {rest : List Nat}

/--
Somebody calls `Write`.  However many other coroutines run meanwhile, and in whatever
order the operations complete, what `WriteRun` says about the completions of the
operations of this call holds of its `TaskT`: it returns what `WriteRun` returns, as
soon as it is not running any more, and nothing else, and that is what its awaiter
obtains.
-/
theorem write_returns {es ds : List (Event Int Int)} {data : List UInt8}
    {body : Body Int Int} {conn : CoroConnection} {r : WriteRun}
    (hreached : machine.exec init es = some s) (hstack : s.stack = c :: rest)
    (hcall : (s.frame c).status = .running (.call (writeBody data) body))
    (hrun : machine.exec s (.run :: ds) = some s')
    (hwrite : WriteRun.machine.exec (WriteRun.start conn data) (resultsFor s.count ds) =
      some r) :
    (∀ v, (s.count, v) ∈ s'.returned → r.outcome = .returned v) ∧
    (∀ v, r.outcome = .returned v → s.count ∉ s'.stack → (s.count, v) ∈ s'.returned) ∧
    (∀ x, x ∈ s'.handovers → x.task = s.count → r.outcome = .returned x.value) := by
  have hok := ok_exec hreached
  obtain ⟨m, hm, hds⟩ := Machine.exec_cons_eq_some.mp hrun
  rw [hok.run_step hstack hcall, Option.some.injEq] at hm
  subst hm
  have hrun' : machine.exec init (es ++ .run :: ds) = some s' :=
    Machine.exec_append_eq_some.mpr ⟨s, hreached, hrun⟩
  have hok' := ok_exec hrun'
  have hhistory := history_exec hrun'
  -- the new frame has the whole body of `Write` before it
  have hstart : (s.runBody c rest (.call (writeBody data) body)).LeafAt s.count
      (writeBody data) := by
    refine ⟨WriteFrame.leaf_headBody _, Nat.lt_succ_self _, ?_, .running ?_⟩
    · rw [Coroutines.runBody, call_frame, if_pos rfl]
    · rw [Coroutines.runBody, call_frame, if_pos rfl]
  obtain ⟨b, hb, hleaf⟩ := leaf_exec hstart (hok.runBody hstack hcall) hds
  rw [WriteRun.body_exec hwrite, Option.some.injEq] at hb
  have hreturned : ∀ v, (s.count, v) ∈ s'.returned → r.outcome = .returned v := by
    intro v hin
    exact WriteOutcome.eq_returned_of_body (hb.trans (hleaf.eq_of_returned hhistory hin))
  refine ⟨hreturned, ?_, ?_⟩
  · intro v hv hnot
    rw [hv, WriteOutcome.body] at hb
    exact LeafAt.returned hok' (hb ▸ hleaf) hnot
  · intro x hx htask
    exact hreturned x.value (htask ▸ (hhistory.handed x hx).2)

theorem awaitsAll_of_leaf : ∀ {b : Body Int Int}, b.Leaf → b.AwaitsAll []
  | .coReturn _, _ => by simp [Body.AwaitsAll]
  | .coAwaitOp _, h => fun res => awaitsAll_of_leaf (h res)

/-- A coroutine that writes three bytes. -/
def threeBytes : Program Int Int where
  body := .coAwaitCall (writeBody [1, 2, 3]) .coReturn
  awaitsAll := ⟨awaitsAll_of_leaf (WriteFrame.leaf_headBody _), by simp [Body.AwaitsAll]⟩

/-- The three bytes are written in two parts, and `Write` returns `3`. -/
theorem write_returns_three_bytes :
    ∃ s s', machine.exec init [.spawn threeBytes] = some s ∧
      machine.exec s [.run, .run, .run, .complete 1 2, .run, .complete 1 1, .run] = some s' ∧
      (s.count, 3) ∈ s'.returned := by
  have hrun : (machine.exec (init.create .task threeBytes.body)
      [.run, .run, .run, .complete 1 2, .run, .complete 1 1, .run]).any
        (fun s' => 1 ∉ s'.stack) = true := by decide +kernel
  have hwrite : (WriteRun.machine.exec (WriteRun.start WriteRun.stagingConn [1, 2, 3]) [2, 1]).map
      WriteRun.outcome = some (.returned 3) := rfl
  obtain ⟨s', hs', hstack⟩ := (Option.any_eq_true _ _).mp hrun
  obtain ⟨r, hr, hreturned⟩ := Option.map_eq_some_iff.mp hwrite
  have hspawn : machine.exec init [.spawn threeBytes] =
      some (init.create .task threeBytes.body) := rfl
  exact ⟨_, s', hspawn, hs', (write_returns (c := 0) hspawn rfl rfl hs' hr).2.1 3 hreturned
    (of_decide_eq_true hstack)⟩

end Coroutines

end CRpc
