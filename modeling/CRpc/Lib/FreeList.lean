import Mathlib.Data.List.Nodup
import Mathlib.Tactic

/-!
# Intrusive singly linked lists

A linked list whose links live in the nodes themselves: `next` gives the link of
each node and `null` ends the list.  `Chain null next p l` says that following
the links from `p` visits the nodes `l` in order and then ends.

A chain is finite by definition.  It is determined by its first node
(`Chain.unique`), hence it has no cycle and visits no node twice
(`Chain.nodup`), and it survives every change to nodes it does not visit
(`Chain.congr`).
-/

namespace CRpc
namespace Lib

universe u

variable {α : Type u} {null : α} {next next' : α → α}

/-- Following `next` from a node visits exactly the listed nodes. -/
inductive Chain (null : α) (next : α → α) : α → List α → Prop
  | nil : Chain null next null []
  | cons {p : α} {l : List α} :
      p ≠ null →
      Chain null next (next p) l →
      Chain null next p (p :: l)

namespace Chain

theorem eq_nil {l : List α} (h : Chain null next null l) : l = [] := by
  cases h with
  | nil => rfl
  | cons hp _ => exact absurd rfl hp

theorem exists_cons {p : α} {l : List α} (h : Chain null next p l)
    (hp : p ≠ null) : ∃ l', l = p :: l' ∧ Chain null next (next p) l' := by
  cases h with
  | nil => exact absurd rfl hp
  | cons _ hrest => exact ⟨_, rfl, hrest⟩

theorem head_nil {p : α} (h : Chain null next p []) : p = null := by
  generalize hl : ([] : List α) = l at h
  cases h with
  | nil => rfl
  | cons _ _ => cases hl

theorem head_cons {p a : α} {l : List α} (h : Chain null next p (a :: l)) :
    p = a ∧ a ≠ null ∧ Chain null next (next a) l := by
  generalize hl : a :: l = l' at h
  cases h with
  | nil => cases hl
  | cons hp hrest =>
      cases hl
      exact ⟨rfl, hp, hrest⟩

/-- The first node determines the list. -/
theorem unique {p : α} {l₁ l₂ : List α}
    (h₁ : Chain null next p l₁) (h₂ : Chain null next p l₂) : l₁ = l₂ := by
  induction h₁ generalizing l₂ with
  | nil => exact h₂.eq_nil.symm
  | cons hp _ ih =>
      obtain ⟨l', rfl, hrest⟩ := h₂.exists_cons hp
      rw [ih hrest]

/-- Every node of the list is the first node of the rest of it. -/
theorem drop_to {x : α} {after : List α} :
    ∀ {p : α} (before : List α), Chain null next p (before ++ x :: after) →
      Chain null next x (x :: after)
  | _, [], h => by
      cases h with
      | cons hp hrest => exact Chain.cons hp hrest
  | _, _ :: before, h => by
      cases h with
      | cons _ hrest => exact drop_to before hrest

/-- No node is visited twice. -/
theorem nodup {p : α} {l : List α} (h : Chain null next p l) : l.Nodup := by
  induction h with
  | nil => exact List.nodup_nil
  | @cons p l hp hrest ih =>
      refine List.nodup_cons.mpr ⟨?_, ih⟩
      intro hmem
      -- a second visit would make the list a proper part of itself
      obtain ⟨before, after, rfl⟩ := List.append_of_mem hmem
      have hsame := (drop_to before hrest).unique (Chain.cons hp hrest)
      have hlen := congrArg List.length hsame
      simp only [List.length_cons, List.length_append] at hlen
      omega

/-- The list depends only on the links of its own nodes. -/
theorem congr {p : α} {l : List α} (h : Chain null next p l)
    (hsame : ∀ x, x ∈ l → next' x = next x) : Chain null next' p l := by
  induction h with
  | nil => exact Chain.nil
  | @cons p l hp _ ih =>
      refine Chain.cons hp ?_
      rw [hsame p (by simp)]
      exact ih fun x hx => hsame x (List.mem_cons_of_mem _ hx)

end Chain

end Lib
end CRpc
