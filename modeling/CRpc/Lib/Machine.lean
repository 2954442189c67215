import Mathlib.Data.List.Infix
import Mathlib.Tactic

/-!
# State machines driven by events

A machine is a partial step function: an event that is not possible in a state
has no successor.  A run is the execution of a list of events; everything the
environment chooses is part of the event.  The module provides the induction
rules by which run-wide results follow from one-step results.

* `run_induction`: induction over a run, one event at a time from its start.
* `exec_invariant`: what every step keeps holds at the end of every run.
* `Takes`: a run takes an event in a state; `takes_concat` splits the last step.
* `Reaches`: some run leads to a state with a property.
* `exec_simulation`: a step-wise projection projects whole runs.
* `exec_refinement`: a relation that lock-step moves keep relates whole runs.
-/

namespace CRpc
namespace Lib

universe u v w x

/-- A machine with states `σ` and events `ε`. -/
structure Machine (σ : Type u) (ε : Type v) where
  step : σ → ε → Option σ

namespace Machine

variable {σ : Type u} {ε : Type v}
variable (M : Machine σ ε)

/-- The state after a list of events, if all of them are possible in turn. -/
def exec : σ → List ε → Option σ
  | s, [] => some s
  | s, e :: es => (M.step s e).bind fun t => exec t es

/-- The run from `s` along `es` takes the event `e` in the state `t`. -/
def Takes (s : σ) (es : List ε) (t : σ) (e : ε) : Prop :=
  ∃ before after, es = before ++ e :: after ∧ M.exec s before = some t

variable {M}

@[simp] theorem exec_nil (s : σ) : M.exec s [] = some s := rfl

theorem exec_cons_eq_some {s t : σ} {e : ε} {es : List ε} :
    M.exec s (e :: es) = some t ↔
      ∃ m, M.step s e = some m ∧ M.exec m es = some t := by
  rw [exec, Option.bind_eq_some_iff]

theorem exec_append_eq_some {t : σ} :
    ∀ {s : σ} {ds es : List ε},
      M.exec s (ds ++ es) = some t ↔
        ∃ m, M.exec s ds = some m ∧ M.exec m es = some t
  | s, [], es => by simp
  | s, d :: ds, es => by
      rw [List.cons_append, exec_cons_eq_some]
      constructor
      · rintro ⟨m, hm, hrest⟩
        obtain ⟨n, hn, hes⟩ := exec_append_eq_some.mp hrest
        exact ⟨n, exec_cons_eq_some.mpr ⟨m, hm, hn⟩, hes⟩
      · rintro ⟨n, hn, hes⟩
        obtain ⟨m, hm, hds⟩ := exec_cons_eq_some.mp hn
        exact ⟨m, hm, exec_append_eq_some.mpr ⟨n, hds, hes⟩⟩

theorem exec_concat_eq_some {s t : σ} {es : List ε} {e : ε} :
    M.exec s (es ++ [e]) = some t ↔
      ∃ m, M.exec s es = some m ∧ M.step m e = some t := by
  rw [exec_append_eq_some]
  constructor
  · rintro ⟨m, hm, he⟩
    obtain ⟨n, hn, rfl⟩ : ∃ n, M.step m e = some n ∧ n = t := by
      simpa [exec_cons_eq_some] using he
    exact ⟨m, hm, hn⟩
  · rintro ⟨m, hm, he⟩
    exact ⟨m, hm, exec_cons_eq_some.mpr ⟨t, he, rfl⟩⟩

/-- Induction over a run, extending it by one event at a time. -/
theorem run_induction {s : σ} {motive : List ε → σ → Prop}
    (start : motive [] s)
    (step : ∀ es t e t', M.exec s es = some t → motive es t →
      M.step t e = some t' → motive (es ++ [e]) t')
    {es : List ε} {t : σ} (h : M.exec s es = some t) : motive es t := by
  induction es using List.reverseRecOn generalizing t with
  | nil =>
      simp only [exec_nil, Option.some.injEq] at h
      subst h
      exact start
  | append_singleton es e ih =>
      obtain ⟨m, hm, he⟩ := exec_concat_eq_some.mp h
      exact step es m e t hm (ih hm) he

/-- What every step keeps is kept by every run. -/
theorem exec_invariant {I : σ → Prop}
    (hstep : ∀ s e t, I s → M.step s e = some t → I t)
    {s t : σ} {es : List ε} (h : M.exec s es = some t) (hs : I s) : I t :=
  run_induction (motive := fun _ t => I t) hs
    (fun _ m e m' _ hm he => hstep m e m' hm he) h

/-! ### The steps of a run -/

theorem takes_nil {s t : σ} {e : ε} : ¬ M.Takes s [] t e := by
  rintro ⟨before, after, h, _⟩
  simp at h

/-- A longer run takes the steps of the shorter one and its own last step. -/
theorem takes_concat {s t : σ} {es : List ε} {e d : ε} :
    M.Takes s (es ++ [d]) t e ↔
      M.Takes s es t e ∨ (e = d ∧ M.exec s es = some t) := by
  constructor
  · rintro ⟨before, after, hsplit, hexec⟩
    rcases List.eq_nil_or_concat after with rfl | ⟨after', d', rfl⟩
    · obtain ⟨rfl, he⟩ := List.append_inj' hsplit rfl
      simp only [List.cons.injEq, and_true] at he
      exact Or.inr ⟨he.symm, hexec⟩
    · rw [List.concat_eq_append, ← List.cons_append, ← List.append_assoc] at hsplit
      obtain ⟨rfl, _⟩ := List.append_inj' hsplit rfl
      exact Or.inl ⟨before, after', rfl, hexec⟩
  · rintro (⟨before, after, rfl, hexec⟩ | ⟨rfl, hexec⟩)
    · exact ⟨before, after ++ [d], by simp, hexec⟩
    · exact ⟨es, [], rfl, hexec⟩

/-- A property of all steps of a run, split into the last step and the rest. -/
theorem forall_takes_concat {s : σ} {es : List ε} {d : ε} {m : σ}
    {Q : σ → ε → Prop} (hm : M.exec s es = some m) :
    (∀ t e, M.Takes s (es ++ [d]) t e → Q t e) ↔
      (∀ t e, M.Takes s es t e → Q t e) ∧ Q m d := by
  constructor
  · intro h
    exact ⟨fun t e ht => h t e (takes_concat.mpr (Or.inl ht)),
      h m d (takes_concat.mpr (Or.inr ⟨rfl, hm⟩))⟩
  · rintro ⟨h, hd⟩ t e ht
    rcases takes_concat.mp ht with hin | ⟨rfl, hlast⟩
    · exact h t e hin
    · rw [hm, Option.some.injEq] at hlast
      subst hlast
      exact hd

/-- A property of all states a run goes through, split off at the last one. -/
theorem forall_visited_concat {s m : σ} {es : List ε} {d : ε}
    {P : List ε → σ → Prop} (hm : M.exec s (es ++ [d]) = some m) :
    (∀ ds t, ds <+: es ++ [d] → M.exec s ds = some t → P ds t) ↔
      (∀ ds t, ds <+: es → M.exec s ds = some t → P ds t) ∧ P (es ++ [d]) m := by
  constructor
  · intro h
    exact ⟨fun ds t hds => h ds t (hds.trans (List.prefix_append _ _)),
      h _ m List.prefix_rfl hm⟩
  · rintro ⟨h, hlast⟩ ds t hds ht
    rcases List.prefix_concat_iff.mp hds with rfl | hds
    · rw [hm, Option.some.injEq] at ht
      subst ht
      exact hlast
    · exact h ds t hds ht

theorem Takes.mem {s t : σ} {es : List ε} {e : ε}
    (h : M.Takes s es t e) : e ∈ es := by
  obtain ⟨before, after, rfl, _⟩ := h
  simp

/-! ### Reachability -/

variable (M) in
/-- Some run from `s` ends in a state with `P`. -/
def Reaches (s : σ) (P : σ → Prop) : Prop := ∃ es t, M.exec s es = some t ∧ P t

theorem Reaches.here {s : σ} {P : σ → Prop} (h : P s) : M.Reaches s P := ⟨[], s, rfl, h⟩

theorem Reaches.after {s t : σ} {e : ε} {P : σ → Prop} (hstep : M.step s e = some t)
    (h : M.Reaches t P) : M.Reaches s P := by
  obtain ⟨es, u, hes, hu⟩ := h
  exact ⟨e :: es, u, exec_cons_eq_some.mpr ⟨t, hstep, hes⟩, hu⟩

/-! ### Projection of runs -/

/-- If each step of a run of `M` projects to a run of `N`, so does the run. -/
theorem exec_simulation {τ : Type w} {δ : Type x} {N : Machine τ δ} {f : σ → τ} {s : σ}
    (hstep : ∀ es m e t, M.exec s es = some m → M.step m e = some t →
      ∃ ds, N.exec (f m) ds = some (f t))
    {t : σ} {es : List ε} (h : M.exec s es = some t) :
    ∃ ds, N.exec (f s) ds = some (f t) := by
  refine run_induction (motive := fun _ t => ∃ ds, N.exec (f s) ds = some (f t))
    ⟨[], rfl⟩ ?_ h
  rintro es m e m' hm ⟨ds, hds⟩ he
  obtain ⟨ds', hds'⟩ := hstep es m e m' hm he
  exact ⟨ds ++ ds', exec_append_eq_some.mpr ⟨f m, hds, hds'⟩⟩

/-- If related states take related steps, event by event, so do they take runs. -/
theorem exec_refinement {τ : Type w} {δ : Type x} {N : Machine τ δ} {R : σ → τ → Prop}
    {f : ε → δ}
    (hstep : ∀ s e s' t, R s t → M.step s e = some s' →
      ∃ t', N.step t (f e) = some t' ∧ R s' t')
    {s s' : σ} {t : τ} {es : List ε} (hrel : R s t) (h : M.exec s es = some s') :
    ∃ t', N.exec t (es.map f) = some t' ∧ R s' t' := by
  refine run_induction
    (motive := fun es s' => ∃ t', N.exec t (es.map f) = some t' ∧ R s' t')
    ⟨t, rfl, hrel⟩ ?_ h
  rintro es m e m' _ ⟨n, hn, hrel'⟩ he
  obtain ⟨n', hn', hrel''⟩ := hstep m e m' n hrel' he
  refine ⟨n', ?_, hrel''⟩
  rw [List.map_append]
  exact exec_concat_eq_some.mpr ⟨n, hn, hn'⟩

end Machine

end Lib
end CRpc
