import CRpc.StopRequest

/-!
# The process and SIGINT

Model of `main` and `HandleSigInt` (`coro_echo.cpp`, `coro_echo_async.cpp`).  `main`
makes one context after the other, enters it into `g_all_ctxs` and starts its thread;
`HandleSigInt` calls `Stop` on the contexts in `g_all_ctxs`, one after the other,
while the threads go on.  The handler is taken to run in the thread of `main`, so
that `g_all_ctxs` does not change under it; a second SIGINT waits until it returns.

* `worker_exec`: each thread of the process runs as `Worker.machine`, whatever the
  others do.
* `sigint_honoured_iff`: a SIGINT ends the main loop of every thread if and only if
  all threads exist and each has assigned `running_`.
-/

namespace CRpc

open Lib

/-- The constants of `main`; thread number `i` listens on `listenFd i`. -/
structure ProcessConfig where
  nThreads : Nat
  entries : Nat
  listenFd : Nat → Int
  resources : FixedResources

/-- The process. -/
structure Process where
  /-- The threads, in the order of `g_all_ctxs`. -/
  workers : List Worker
  /-- The position of the loop of `HandleSigInt`, while it runs. -/
  handler : Option Nat

namespace Process

/-- What can happen in the process. -/
inductive Event where
  /-- One round of the loop of `main`. -/
  | spawn
  /-- A step of thread number `i`, or of the kernel on its ring. -/
  | worker (i : Nat) (e : Worker.Event)
  /-- The signal arrives. -/
  | sigint
  /-- One round of the loop of `HandleSigInt`, or its end. -/
  | next

def init : Process := { workers := [], handler := none }

/-- No thread has dereferenced a null pointer. -/
def Alive (s : Process) : Prop := ∀ x, x ∈ s.workers → x.server.crashed = false

instance (s : Process) : Decidable s.Alive := inferInstanceAs (Decidable (∀ _, _ → _))

/-- Only `HandleSigInt` calls `IoContext::Stop`. -/
def isStop : Worker.Event → Bool
  | .server (.loop .stop) => true
  | _ => false

/-- One round of the loop of `main`. -/
def spawn (g : ProcessConfig) (s : Process) : Option Process :=
  if s.handler = none ∧ s.workers.length < g.nThreads then
    some { s with
      workers := s.workers ++
        [Worker.init g.entries (g.listenFd s.workers.length) g.resources] }
  else none

/-- A step of one thread. -/
def workerStep (flavor : Flavor) (codec : EchoCodec) (s : Process) (i : Nat)
    (e : Worker.Event) : Option Process :=
  match s.workers[i]? with
  | some x => ((Worker.machine flavor codec).step x e).map fun y =>
      { s with workers := s.workers.set i y }
  | none => none

/-- The loop of `HandleSigInt`. -/
def handleSigInt (flavor : Flavor) (codec : EchoCodec) (s : Process) : Option Process :=
  match s.handler with
  | some k =>
      if k < s.workers.length then
        (s.workerStep flavor codec k Worker.stopCall).map fun t =>
          { t with handler := some (k + 1) }
      else some { s with handler := none }
  | none => none

/-- The process; nothing happens after a crash of one of its threads. -/
def machine (flavor : Flavor) (codec : EchoCodec) (g : ProcessConfig) : Machine Process Event where
  step s e :=
    if s.Alive then
      match e with
      | .spawn => s.spawn g
      | .worker i e => if isStop e then none else s.workerStep flavor codec i e
      | .sigint => if s.handler = none then some { s with handler := some 0 } else none
      | .next => s.handleSigInt flavor codec
    else none

variable {flavor : Flavor} {codec : EchoCodec} {g : ProcessConfig} {s s' t : Process}
variable {es ds : List Event}

/-! ### What one step can do -/

theorem workerStep_eq_some {i : Nat} {e : Worker.Event} :
    s.workerStep flavor codec i e = some s' ↔
      ∃ x y, s.workers[i]? = some x ∧ (Worker.machine flavor codec).step x e = some y ∧
        s' = { s with workers := s.workers.set i y } := by
  rw [workerStep]
  constructor
  · intro hstep
    split at hstep
    next x hx =>
      obtain ⟨y, hy, rfl⟩ := Option.map_eq_some_iff.mp hstep
      exact ⟨x, y, hx, hy, rfl⟩
    next => cases hstep
  · rintro ⟨x, y, hx, hy, rfl⟩
    simp only [hx, hy, Option.map_some]

/-- A step of the process: `main`, a thread, the signal, or the handler. -/
theorem step_cases {e : Event} (hstep : (machine flavor codec g).step s e = some s') :
    s.Alive ∧
    ((e = .spawn ∧ s.handler = none ∧ s.workers.length < g.nThreads ∧
        s' = { s with workers := s.workers ++
          [Worker.init g.entries (g.listenFd s.workers.length) g.resources] }) ∨
      (∃ i d x y, e = .worker i d ∧ s.workers[i]? = some x ∧
        (Worker.machine flavor codec).step x d = some y ∧
        s' = { s with workers := s.workers.set i y }) ∨
      (e = .sigint ∧ s.handler = none ∧ s' = { s with handler := some 0 }) ∨
      (∃ k x y, e = .next ∧ s.handler = some k ∧ s.workers[k]? = some x ∧
        (Worker.machine flavor codec).step x Worker.stopCall = some y ∧
        s' = { workers := s.workers.set k y, handler := some (k + 1) }) ∨
      (∃ k, e = .next ∧ s.handler = some k ∧ s.workers.length ≤ k ∧
        s' = { s with handler := none })) := by
  simp only [machine, Option.ite_none_right_eq_some] at hstep
  obtain ⟨halive, hstep⟩ := hstep
  refine ⟨halive, ?_⟩
  cases e with
  | spawn =>
      simp only [Process.spawn, Option.ite_none_right_eq_some, Option.some.injEq] at hstep
      obtain ⟨⟨hidle, hlt⟩, rfl⟩ := hstep
      exact Or.inl ⟨rfl, hidle, hlt, rfl⟩
  | worker i d =>
      simp only [Option.ite_none_left_eq_some] at hstep
      obtain ⟨x, y, hx, hy, rfl⟩ := workerStep_eq_some.mp hstep.2
      exact Or.inr (Or.inl ⟨i, d, x, y, rfl, hx, hy, rfl⟩)
  | sigint =>
      simp only [Option.ite_none_right_eq_some, Option.some.injEq] at hstep
      obtain ⟨hidle, rfl⟩ := hstep
      exact Or.inr (Or.inr (Or.inl ⟨rfl, hidle, rfl⟩))
  | next =>
      simp only [handleSigInt] at hstep
      split at hstep
      next k hk =>
        split at hstep
        next hlt =>
          obtain ⟨m, hm, rfl⟩ := Option.map_eq_some_iff.mp hstep
          obtain ⟨x, y, hx, hy, rfl⟩ := workerStep_eq_some.mp hm
          exact Or.inr (Or.inr (Or.inr (Or.inl ⟨k, x, y, rfl, hk, hx, hy, rfl⟩)))
        next hge =>
          cases hstep
          exact Or.inr (Or.inr (Or.inr (Or.inr ⟨k, rfl, hk, Nat.le_of_not_lt hge, rfl⟩)))
      next => cases hstep

/-! ### The threads -/

/-- Each thread of the process runs as a worker on its own. -/
theorem worker_exec (hrun : (machine flavor codec g).exec init es = some s) {i : Nat}
    {x : Worker} (hx : s.workers[i]? = some x) :
    ∃ ds, (Worker.machine flavor codec).exec
      (Worker.init g.entries (g.listenFd i) g.resources) ds = some x := by
  refine Machine.exec_invariant
    (I := fun s => ∀ i x, s.workers[i]? = some x → ∃ ds, (Worker.machine flavor codec).exec
      (Worker.init g.entries (g.listenFd i) g.resources) ds = some x) ?_ hrun
    (fun i x hx => by simp [init] at hx) i x hx
  intro s e s' ih hstep i x hx
  have hset : ∀ {k d y z}, s.workers[k]? = some y → (Worker.machine flavor codec).step y d =
      some z → (s.workers.set k z)[i]? = some x → ∃ ds, (Worker.machine flavor codec).exec
        (Worker.init g.entries (g.listenFd i) g.resources) ds = some x := by
    intro k d y z hy hz hx
    rcases getElem?_set_cases hx with ⟨rfl, rfl⟩ | ⟨_, hx⟩
    · obtain ⟨ds, hds⟩ := ih k y hy
      exact ⟨ds ++ [d], Machine.exec_concat_eq_some.mpr ⟨y, hds, hz⟩⟩
    · exact ih i x hx
  rcases (step_cases hstep).2 with
    ⟨_, _, _, rfl⟩ | ⟨k, d, y, z, _, hy, hz, rfl⟩ | ⟨_, _, rfl⟩ | ⟨k, y, z, _, _, hy, hz, rfl⟩ |
      ⟨_, _, _, _, rfl⟩
  · rcases getElem?_concat_cases hx with ⟨rfl, rfl⟩ | ⟨_, hx⟩
    · exact ⟨[], rfl⟩
    · exact ih i x hx
  · exact hset hy hz hx
  · exact ih i x hx
  · exact hset hy hz hx
  · exact ih i x hx

theorem length_le_exec (hrun : (machine flavor codec g).exec init es = some s) :
    s.workers.length ≤ g.nThreads := by
  refine Machine.exec_invariant (I := fun s => s.workers.length ≤ g.nThreads) ?_ hrun
    (Nat.zero_le _)
  intro s e s' hle hstep
  rcases (step_cases hstep).2 with
    ⟨_, _, hlt, rfl⟩ | ⟨_, _, _, _, _, _, _, rfl⟩ | ⟨_, _, rfl⟩ | ⟨_, _, _, _, _, _, _, rfl⟩ |
      ⟨_, _, _, _, rfl⟩
  · rw [List.length_append]
    exact hlt
  · rw [List.length_set]
    exact hle
  · exact hle
  · rw [List.length_set]
    exact hle
  · exact hle

/-- A thread that takes a step has not crashed. -/
theorem live_of_step {x y : Worker} {d : Worker.Event} {entries : Nat} {listenFd : Int}
    {r : FixedResources} {ds : List Worker.Event}
    (hrun : (Worker.machine flavor codec).exec (Worker.init entries listenFd r) ds = some x)
    (hstep : (Worker.machine flavor codec).step x d = some y) : x.server.crashed = false := by
  rcases Worker.step_cases hstep with
    ⟨_, _, hlive, _⟩ | ⟨_, hpassed, _⟩ | ⟨_, _, _, _, hs, _⟩
  · exact hlive
  · exact (Worker.passed_exec hrun hpassed).1
  · exact Server.crashed_of_step hs

theorem Alive.set (h : s.Alive) {i : Nat} {y : Worker} (hy : y.server.crashed = false) :
    ({ s with workers := s.workers.set i y } : Process).Alive := by
  intro x hx
  obtain ⟨k, hk⟩ := List.mem_iff_getElem?.mp hx
  rcases getElem?_set_cases hk with ⟨_, rfl⟩ | ⟨_, hold⟩
  · exact hy
  · exact h x (List.mem_of_getElem? hold)

/-- What a thread can do on its own it can do in the process. -/
theorem lift_exec {i : Nat} {listenFd : Int} {y : Worker} :
    ∀ {ds bs : List Worker.Event} {x : Worker} {s : Process},
      (Worker.machine flavor codec).exec (Worker.init g.entries listenFd g.resources) bs =
        some x →
      s.Alive → s.workers[i]? = some x → (∀ d, d ∈ ds → isStop d = false) →
      (Worker.machine flavor codec).exec x ds = some y →
      ∃ t, (machine flavor codec g).exec s (ds.map (.worker i)) = some t
  | [], _, _, s, _, _, _, _, _ => ⟨s, rfl⟩
  | d :: ds, bs, x, s, hbs, halive, hx, hown, hds => by
      obtain ⟨z, hz, hrest⟩ := Machine.exec_cons_eq_some.mp hds
      have hd := hown d List.mem_cons_self
      have hstep : (machine flavor codec g).step s (.worker i d) =
          some { s with workers := s.workers.set i z } := by
        simp only [machine, if_pos halive, hd, Bool.false_eq_true, if_false]
        exact workerStep_eq_some.mpr ⟨x, z, hx, hz, rfl⟩
      have hbs' := Machine.exec_concat_eq_some.mpr ⟨x, hbs, hz⟩
      cases ds with
      | nil => exact ⟨_, Machine.exec_cons_eq_some.mpr ⟨_, hstep, rfl⟩⟩
      | cons d' ds =>
          -- the next step shows that this one was not a crash
          obtain ⟨_, hz', _⟩ := Machine.exec_cons_eq_some.mp hrest
          have hlt := (List.getElem?_eq_some_iff.mp hx).1
          obtain ⟨t, ht⟩ := lift_exec hbs' (halive.set (live_of_step hbs' hz'))
            (List.getElem?_set_self hlt) (fun e he => hown e (List.mem_cons_of_mem _ he)) hrest
          exact ⟨t, Machine.exec_cons_eq_some.mpr ⟨_, hstep, ht⟩⟩

/-! ### SIGINT -/

/-- Thread number `i` begins a wait of its main loop. -/
def isWaitOf (i : Nat) : Event → Bool
  | .worker j e => j = i && Worker.isWait e
  | _ => false

/-- The wait that thread number `i` is about to begin, its condition having been read. -/
def due (s : Process) (i : Nat) : Nat :=
  match s.workers[i]? with
  | some x => x.passed.toNat
  | none => 0

/-- The threads leave their main loops: none begins a wait, except one that is due. -/
def Ends (flavor : Flavor) (codec : EchoCodec) (g : ProcessConfig) (s : Process) : Prop :=
  ∀ ds t, (machine flavor codec g).exec s ds = some t →
    ∀ i, ds.countP (isWaitOf i) ≤ s.due i

/-- A SIGINT that arrives now ends the threads, once its handler has returned. -/
def SigintHonoured (flavor : Flavor) (codec : EchoCodec) (g : ProcessConfig) (s : Process) :
    Prop :=
  ∀ ds t, (machine flavor codec g).exec s (.sigint :: ds) = some t → t.handler = none →
    t.Ends flavor codec g

/-- All threads exist and have assigned `running_`. -/
structure Entered (g : ProcessConfig) (s : Process) : Prop where
  all : s.workers.length = g.nThreads
  entered : ∀ (i : Nat) (x : Worker), s.workers[i]? = some x → x.server.loop.phase ≠ .setup

/-- `running_` of thread number `i` is false. -/
def StoppedAt (s : Process) (i : Nat) : Prop :=
  ∀ x : Worker, s.workers[i]? = some x → x.server.loop.running = false

/-- A step of thread number `k`. -/
theorem Entered.set (h : s.Entered g) (hrun : (machine flavor codec g).exec init es = some s)
    {k : Nat} {d : Worker.Event} {y z : Worker} (hy : s.workers[k]? = some y)
    (hz : (Worker.machine flavor codec).step y d = some z) (o : Option Nat) :
    Entered g { workers := s.workers.set k z, handler := o } ∧
      ∀ i, s.StoppedAt i → StoppedAt { workers := s.workers.set k z, handler := o } i := by
  obtain ⟨bs, hbs⟩ := worker_exec hrun hy
  obtain ⟨hphase, hkept⟩ := Worker.entered_step hbs (h.entered k y hy) hz
  refine ⟨⟨by rw [List.length_set, h.all], fun i x hx => ?_⟩, fun i hi x hx => ?_⟩
  · rcases getElem?_set_cases hx with ⟨rfl, rfl⟩ | ⟨_, hold⟩
    · exact hphase
    · exact h.entered i x hold
  · rcases getElem?_set_cases hx with ⟨rfl, rfl⟩ | ⟨_, hold⟩
    · rw [← Bool.not_eq_true]
      intro hrunning
      rw [hi y hy] at hkept
      exact absurd (hkept hrunning) Bool.false_ne_true
    · exact hi x hold

/-- Nothing sets `running_` of a thread again. -/
theorem Entered.step (h : s.Entered g) (hrun : (machine flavor codec g).exec init es = some s)
    {e : Event} (hstep : (machine flavor codec g).step s e = some s') :
    s'.Entered g ∧ ∀ i, s.StoppedAt i → s'.StoppedAt i := by
  rcases (step_cases hstep).2 with
    ⟨_, _, hlt, _⟩ | ⟨k, d, y, z, _, hy, hz, rfl⟩ | ⟨_, _, rfl⟩ | ⟨k, y, z, _, _, hy, hz, rfl⟩ |
      ⟨_, _, _, _, rfl⟩
  · exact absurd h.all (by omega)
  · exact h.set hrun hy hz _
  · exact ⟨⟨h.all, h.entered⟩, fun _ hi => hi⟩
  · exact h.set hrun hy hz _
  · exact ⟨⟨h.all, h.entered⟩, fun _ hi => hi⟩

/-- The request stands in the threads before the position of the handler, or in all. -/
def Told (s : Process) : Prop :=
  (∃ k, s.handler = some k ∧ ∀ i, i < k → s.StoppedAt i) ∨ ∀ i, s.StoppedAt i

theorem Told.step (h : s.Told) (hentered : s.Entered g)
    (hrun : (machine flavor codec g).exec init es = some s) {e : Event}
    (hstep : (machine flavor codec g).step s e = some s') : s'.Told := by
  have hkept := (hentered.step hrun hstep).2
  rcases h with ⟨k, hk, hbefore⟩ | hall
  · rcases (step_cases hstep).2 with
      ⟨_, hidle, _⟩ | ⟨_, _, _, _, _, _, _, rfl⟩ | ⟨_, hidle, _⟩ | ⟨k', y, z, _, hk', hy, hz, rfl⟩ |
        ⟨k', _, hk', hlen, rfl⟩
    · rw [hk] at hidle
      cases hidle
    · exact Or.inl ⟨k, hk, fun i hi => hkept i (hbefore i hi)⟩
    · rw [hk] at hidle
      cases hidle
    · rw [hk, Option.some.injEq] at hk'
      subst hk'
      refine Or.inl ⟨k + 1, rfl, fun i hi => ?_⟩
      rcases Nat.lt_succ_iff_lt_or_eq.mp hi with hlt | rfl
      · exact hkept i (hbefore i hlt)
      · -- the thread that the handler has just stopped
        intro x hx
        have hlive := (step_cases hstep).1 y (List.mem_of_getElem? hy)
        rw [Worker.stop_step hlive, Option.some.injEq] at hz
        rw [List.getElem?_set_self (List.getElem?_eq_some_iff.mp hy).1, Option.some.injEq] at hx
        rw [← hx, ← hz]
        rfl
    · rw [hk, Option.some.injEq] at hk'
      subst hk'
      refine Or.inr fun i x hx => ?_
      have hlt : i < s.workers.length := (List.getElem?_eq_some_iff.mp hx).1
      exact hbefore i (by omega) x hx
  · exact Or.inr fun i => hkept i (hall i)

/-- A thread in which the request stands begins only a wait that is due. -/
theorem wait_due {y z : Worker} {d : Worker.Event} (hstopped : y.server.loop.running = false)
    (hz : (Worker.machine flavor codec).step y d = some z) :
    (if Worker.isWait d then 1 else 0) + z.passed.toNat ≤ y.passed.toNat := by
  rcases Worker.step_cases hz with
    ⟨_, _, _, _, hrunning, _⟩ | ⟨rfl, hpassed, rfl⟩ | ⟨_, _, hwait, _, _, rfl⟩
  · rw [hstopped] at hrunning
    cases hrunning
  · simp [Worker.isWait, hpassed]
  · simp [hwait]

theorem due_set {k : Nat} {y z : Worker} (hy : s.workers[k]? = some y) (o : Option Nat)
    (i : Nat) :
    due { workers := s.workers.set k z, handler := o } i =
      if k = i then z.passed.toNat else s.due i := by
  by_cases hk : k = i
  · subst hk
    simp only [due, List.getElem?_set_self (List.getElem?_eq_some_iff.mp hy).1, if_true]
  · simp only [due, List.getElem?_set_ne hk, if_neg hk]

theorem due_step {e : Event} (hentered : s.Entered g) (hstopped : ∀ i, s.StoppedAt i)
    (hstep : (machine flavor codec g).step s e = some s') (i : Nat) :
    (if isWaitOf i e then 1 else 0) + s'.due i ≤ s.due i := by
  rcases (step_cases hstep).2 with
    ⟨_, _, hlt, _⟩ | ⟨k, d, y, z, rfl, hy, hz, rfl⟩ | ⟨rfl, _, rfl⟩ |
      ⟨k, y, z, rfl, _, hy, hz, rfl⟩ | ⟨_, rfl, _, _, rfl⟩
  · exact absurd hentered.all (by omega)
  · have hdue := wait_due (hstopped k y hy) hz
    rw [due_set hy]
    by_cases hk : k = i
    · subst hk
      simpa [isWaitOf, due, hy] using hdue
    · simp [isWaitOf, hk]
  · simp [isWaitOf, due]
  · have hdue := wait_due (hstopped k y hy) hz
    rw [due_set hy]
    by_cases hk : k = i
    · subst hk
      simpa [isWaitOf, due, hy, Worker.stopCall, Worker.isWait] using hdue
    · simp [isWaitOf, hk]
  · simp [isWaitOf, due]

/-- Once the request stands in all threads, every wait was due. -/
theorem ends_of_stopped (hrun : (machine flavor codec g).exec init es = some s)
    (hentered : s.Entered g) (hstopped : ∀ i, s.StoppedAt i) : s.Ends flavor codec g := by
  intro ds t hds i
  refine le_of_add_le_left (b := t.due i) (Machine.run_induction
    (motive := fun ds t => t.Entered g ∧ (∀ i, t.StoppedAt i) ∧
      ds.countP (isWaitOf i) + t.due i ≤ s.due i) ?_ ?_ hds).2.2
  · exact ⟨hentered, hstopped, by simp⟩
  · rintro ds t e t' ht ⟨hentered, hstopped, hcount⟩ hstep
    have hreached := Machine.exec_append_eq_some.mpr ⟨s, hrun, ht⟩
    obtain ⟨hentered', hkept⟩ := hentered.step hreached hstep
    refine ⟨hentered', fun i => hkept i (hstopped i), ?_⟩
    have hdue := due_step hentered hstopped hstep i
    rw [List.countP_append, List.countP_singleton]
    omega

/-! ### A SIGINT that comes too early -/

/-- A thread after a call of `IoContext::Stop` on its context. -/
def stopped (x : Worker) : Worker :=
  { x with server := { x.server with loop := x.server.loop.stop } }

/-- The handler runs to its end while the threads do nothing. -/
theorem handler_returns (flavor : Flavor) (codec : EchoCodec) (g : ProcessConfig) :
    ∀ (n k : Nat) {s : Process}, s.Alive → s.handler = some k → s.workers.length = k + n →
      ∃ t, (machine flavor codec g).exec s (List.replicate (n + 1) .next) = some t ∧
        t.handler = none ∧
        ∀ i, t.workers[i]? = if i < k then s.workers[i]? else s.workers[i]?.map stopped
  | 0, k, s, halive, hk, hlen => by
      refine ⟨{ s with handler := none }, ?_, rfl, fun i => ?_⟩
      · simp [Machine.exec, machine, halive, handleSigInt, hk, hlen]
      · split
        · rfl
        next hge => simp [List.getElem?_eq_none (by omega : s.workers.length ≤ i)]
  | n + 1, k, s, halive, hk, hlen => by
      have hlt : k < s.workers.length := by omega
      obtain ⟨x, hx⟩ : ∃ x, s.workers[k]? = some x := ⟨_, List.getElem?_eq_getElem hlt⟩
      have hlive := halive x (List.mem_of_getElem? hx)
      have hstep : (machine flavor codec g).step s .next =
          some { workers := s.workers.set k (stopped x), handler := some (k + 1) } := by
        have hworker : s.workerStep flavor codec k Worker.stopCall =
            some { s with workers := s.workers.set k (stopped x) } :=
          workerStep_eq_some.mpr ⟨x, stopped x, hx, Worker.stop_step hlive, rfl⟩
        simp [machine, halive, handleSigInt, hk, hlt, hworker]
      obtain ⟨t, ht, hidle, hworkers⟩ := handler_returns flavor codec g n (k + 1)
        (s := { workers := s.workers.set k (stopped x), handler := some (k + 1) })
        (halive.set hlive) rfl (by simp only [List.length_set]; omega)
      refine ⟨t, ?_, hidle, fun i => ?_⟩
      · rw [List.replicate_succ]
        exact Machine.exec_cons_eq_some.mpr ⟨_, hstep, ht⟩
      · rw [hworkers i]
        rcases Nat.lt_trichotomy i k with hi | rfl | hi
        · rw [if_pos (by omega), if_pos hi, List.getElem?_set_ne (by omega)]
        · rw [if_pos (by omega), if_neg (by omega), List.getElem?_set_self hlt, hx,
            Option.map_some]
        · rw [if_neg (by omega), if_neg (by omega), List.getElem?_set_ne (by omega)]

/-- A thread before `Run` goes on to its first wait, whatever `running_` is. -/
theorem exists_wait_run (flavor : Flavor) (codec : EchoCodec) {x : Worker}
    (hpassed : x.passed = false) (hlive : x.server.crashed = false)
    (hsetup : x.server.loop.phase = .setup) :
    ∃ ds y, (Worker.machine flavor codec).exec x ds = some y ∧
      (∀ d, d ∈ ds → isStop d = false) ∧ 0 < ds.countP Worker.isWait := by
  by_cases haccept : x.server.accept = .notStarted
  · obtain ⟨x', hstart, hpassed', hlive', hsetup', haccept'⟩ : ∃ x',
        (Worker.machine flavor codec).step x (.server (.start countingHeap)) = some x' ∧
          x'.passed = false ∧ x'.server.crashed = false ∧ x'.server.loop.phase = .setup ∧
          x'.server.accept ≠ .notStarted := by
      refine ⟨{ x with server :=
        ({ x.server with running := true } : Server).acceptLoop countingHeap }, ?_, hpassed, ?_⟩
      · simp [Worker.machine, Worker.canTake, Server.machine, Server.start, hpassed, hlive, hsetup,
          haccept]
      · simp only [Server.acceptLoop]
        split
        · exact ⟨hlive, hsetup, by simp⟩
        · exact ⟨hlive, hsetup, by simp⟩
    obtain ⟨y, hy⟩ := Worker.run_test_wait flavor codec hpassed' hlive' hsetup' haccept'
    exact ⟨_, y, Machine.exec_cons_eq_some.mpr ⟨_, hstart, hy⟩, by simp [isStop],
      by simp [Worker.isWait]⟩
  · obtain ⟨y, hy⟩ := Worker.run_test_wait flavor codec hpassed hlive hsetup haccept
    exact ⟨_, y, hy, by simp [isStop], by simp [Worker.isWait]⟩

/-- A thread before `Run` makes the process go on. -/
theorem not_ends_of_setup (hrun : (machine flavor codec g).exec init es = some s)
    (halive : s.Alive) {i : Nat} {x : Worker} (hx : s.workers[i]? = some x)
    (hsetup : x.server.loop.phase = .setup) : ¬ s.Ends flavor codec g := by
  intro hends
  obtain ⟨bs, hbs⟩ := worker_exec hrun hx
  have hpassed : x.passed = false := by
    rw [← Bool.not_eq_true]
    intro hpassed
    have hphase := (Worker.passed_exec hbs hpassed).2
    rw [hsetup] at hphase
    cases hphase
  obtain ⟨ds, y, hds, hown, hwait⟩ :=
    exists_wait_run flavor codec hpassed (halive x (List.mem_of_getElem? hx)) hsetup
  obtain ⟨t, ht⟩ := lift_exec hbs halive hx hown hds
  have hcount : (ds.map (Event.worker i)).countP (isWaitOf i) = ds.countP Worker.isWait := by
    rw [List.countP_map]
    exact List.countP_congr fun d _ => by simp [isWaitOf]
  have hbound := hends _ t ht i
  simp only [hcount, due, hx, hpassed, Bool.toNat_false] at hbound
  omega

/-- So does a thread that is still to come. -/
theorem not_ends_of_missing (hrun : (machine flavor codec g).exec init es = some s)
    (halive : s.Alive) (hidle : s.handler = none) (hlt : s.workers.length < g.nThreads) :
    ¬ s.Ends flavor codec g := by
  intro hends
  have hspawn : (machine flavor codec g).step s .spawn = some { s with workers := s.workers ++
      [Worker.init g.entries (g.listenFd s.workers.length) g.resources] } := by
    simp [machine, halive, Process.spawn, hidle, hlt]
  refine not_ends_of_setup (Machine.exec_concat_eq_some.mpr ⟨s, hrun, hspawn⟩) ?_
    (List.getElem?_concat_length) rfl ?_
  · intro x hx
    rcases List.mem_append.mp hx with hold | hnew
    · exact halive x hold
    · rw [List.mem_singleton.mp hnew]
      rfl
  · intro ds t hds i
    have hbound := hends (.spawn :: ds) t (Machine.exec_cons_eq_some.mpr ⟨_, hspawn, hds⟩) i
    have hdue : s.due i ≤ due { s with workers := s.workers ++
        [Worker.init g.entries (g.listenFd s.workers.length) g.resources] } i := by
      rw [due]
      split
      next x hx => simp only [due, List.getElem?_append_left (List.getElem?_eq_some_iff.mp hx).1,
        hx, le_refl]
      next => exact Nat.zero_le _
    rw [List.countP_cons_of_neg (by simp [isWaitOf])] at hbound
    exact hbound.trans hdue

/--
A SIGINT that arrives while no handler runs ends the main loops of all threads if and
only if all threads exist and each has entered `Run`.  A thread that has not is told
to stop before it sets `running_`, or is not in `g_all_ctxs` yet, and goes on.
-/
theorem sigint_honoured_iff (hrun : (machine flavor codec g).exec init es = some s)
    (halive : s.Alive) (hidle : s.handler = none) :
    s.SigintHonoured flavor codec g ↔
      g.nThreads ≤ s.workers.length ∧ ∀ x, x ∈ s.workers → x.server.loop.phase ≠ .setup := by
  have hsigint : (machine flavor codec g).step s .sigint = some { s with handler := some 0 } := by
    simp [machine, halive, hidle]
  have hreached := Machine.exec_concat_eq_some.mpr ⟨s, hrun, hsigint⟩
  constructor
  · intro hhonoured
    obtain ⟨t, ht, hreturned, hworkers⟩ := handler_returns flavor codec g s.workers.length 0
      (s := { s with handler := some 0 }) halive rfl (Nat.zero_add _).symm
    have hends := hhonoured _ t (Machine.exec_cons_eq_some.mpr ⟨_, hsigint, ht⟩) hreturned
    have hreached' := Machine.exec_append_eq_some.mpr ⟨_, hreached, ht⟩
    have hstopped : t.workers = s.workers.map stopped :=
      List.ext_getElem? fun i => by simpa using hworkers i
    have halive' : t.Alive := by
      intro y hy
      rw [hstopped] at hy
      obtain ⟨x, hx, rfl⟩ := List.mem_map.mp hy
      exact halive x hx
    refine ⟨?_, fun x hx hsetup => ?_⟩
    · by_contra hlt
      refine not_ends_of_missing hreached' halive' hreturned ?_ hends
      rw [hstopped, List.length_map]
      omega
    · obtain ⟨i, hi⟩ := List.mem_iff_getElem?.mp hx
      refine not_ends_of_setup hreached' halive' (i := i) (x := stopped x) ?_ hsetup hends
      rw [hstopped, List.getElem?_map, hi, Option.map_some]
  · rintro ⟨hall, hentered⟩ ds t hds hreturned
    obtain ⟨m, hm, hds⟩ := Machine.exec_cons_eq_some.mp hds
    rw [hsigint, Option.some.injEq] at hm
    subst hm
    obtain ⟨hentered', htold⟩ := Machine.run_induction
      (motive := fun _ t => t.Entered g ∧ t.Told)
      ⟨⟨le_antisymm (length_le_exec hreached) hall,
          fun i x hx => hentered x (List.mem_of_getElem? hx)⟩,
        Or.inl ⟨0, rfl, fun i hi => absurd hi (Nat.not_lt_zero i)⟩⟩
      (fun ds m e m' hm ⟨hentered, htold⟩ hstep => by
        have hm' := Machine.exec_append_eq_some.mpr ⟨_, hreached, hm⟩
        exact ⟨(hentered.step hm' hstep).1, htold.step hentered hm' hstep⟩) hds
    refine ends_of_stopped (Machine.exec_append_eq_some.mpr ⟨_, hreached, hds⟩) hentered' ?_
    rcases htold with ⟨k, hk, _⟩ | hstopped
    · rw [hreturned] at hk
      cases hk
    · exact hstopped

/-- A process with one thread. -/
def oneThread : ProcessConfig :=
  { nThreads := 1, entries := 8, listenFd := fun _ => 3, resources := smallResources }

/-- The same signal before and after the thread has entered `Run`. -/
theorem sigint_honoured_iff_one_thread :
    ∃ s t, (machine .async protoCodec oneThread).exec init
        [.spawn, .worker 0 (.server (.start countingHeap))] = some s ∧
      (machine .async protoCodec oneThread).exec s [.worker 0 (.server (.loop .run))] = some t ∧
      ¬ s.SigintHonoured .async protoCodec oneThread ∧
      t.SigintHonoured .async protoCodec oneThread := by
  have hrun : ((machine .async protoCodec oneThread).exec init
      [.spawn, .worker 0 (.server (.start countingHeap))]).any (fun s =>
        s.Alive ∧ s.handler = none ∧ (∃ x ∈ s.workers, x.server.loop.phase = .setup) ∧
        ((machine .async protoCodec oneThread).exec s [.worker 0 (.server (.loop .run))]).any
          (fun t => t.Alive ∧ t.handler = none ∧ 1 ≤ t.workers.length ∧
            ∀ x ∈ t.workers, x.server.loop.phase ≠ .setup)) = true := by decide
  obtain ⟨s, hs, hstate⟩ := (Option.any_eq_true _ _).mp hrun
  obtain ⟨halive, hidle, ⟨x, hx, hsetup⟩, hnext⟩ := of_decide_eq_true hstate
  obtain ⟨t, ht, hend⟩ := (Option.any_eq_true _ _).mp hnext
  obtain ⟨halive', hidle', hall, hentered⟩ := of_decide_eq_true hend
  have ht' := Machine.exec_append_eq_some.mpr ⟨s, hs, ht⟩
  refine ⟨s, t, hs, ht, ?_, ?_⟩
  · rw [sigint_honoured_iff hs halive hidle]
    exact fun h => h.2 x hx hsetup
  · exact (sigint_honoured_iff ht' halive' hidle').mpr ⟨hall, hentered⟩

end Process

end CRpc
