import Mathlib.Data.List.Nodup
import Mathlib.Tactic

/-!
# A pool and the holders of its elements

The elements `all` of a pool are shared between the pool itself (`free`) and a list
of holders; `held x` is what the holder `x` has.  Nothing is lost or shared twice
when `free ++ holders.flatMap held` is a permutation of `all`.

* `pool_set`: one holder exchanges elements with the pool.
* `pool_concat`: a new holder takes its elements from the pool.
* `pool_disjoint`, `pool_free_disjoint`: without repetitions in `all`, an element
  is in one place only.
* `getElem?_set_cases`, `getElem?_concat_cases`: a list of holders, one of whom has
  been replaced or added.
-/

namespace CRpc
namespace Lib

universe u v

variable {α : Type u} {β : Type v} {held : α → List β} {holders : List α}
variable {free free' all : List β} {i j : Nat} {x y : α}

theorem getElem?_set_cases (h : (holders.set j y)[i]? = some x) :
    (j = i ∧ x = y) ∨ (j ≠ i ∧ holders[i]? = some x) := by
  by_cases hj : j = i
  · subst hj
    have hlt := (List.getElem?_eq_some_iff.mp h).1
    rw [List.length_set] at hlt
    rw [List.getElem?_set_self hlt, Option.some.injEq] at h
    exact Or.inl ⟨rfl, h.symm⟩
  · rw [List.getElem?_set_ne hj] at h
    exact Or.inr ⟨hj, h⟩

theorem getElem?_concat_cases (h : (holders ++ [y])[i]? = some x) :
    (i = holders.length ∧ x = y) ∨ (i < holders.length ∧ holders[i]? = some x) := by
  have hlt := (List.getElem?_eq_some_iff.mp h).1
  rw [List.length_append, List.length_singleton] at hlt
  rcases Nat.lt_succ_iff_lt_or_eq.mp hlt with hbefore | rfl
  · rw [List.getElem?_append_left hbefore] at h
    exact Or.inr ⟨hbefore, h⟩
  · rw [List.getElem?_concat_length, Option.some.injEq] at h
    exact Or.inl ⟨rfl, h.symm⟩

/-- Replacing one element of a list, seen through `flatMap`. -/
theorem perm_flatMap_set (held : α → List β) (h : holders[i]? = some x) (y : α) :
    ∃ rest, (holders.flatMap held).Perm (held x ++ rest) ∧
      ((holders.set i y).flatMap held).Perm (held y ++ rest) := by
  obtain ⟨hlt, rfl⟩ := List.getElem?_eq_some_iff.mp h
  refine ⟨(holders.take i).flatMap held ++ (holders.drop (i + 1)).flatMap held, ?_, ?_⟩
  · conv_lhs => rw [← List.take_append_drop i holders, List.drop_eq_getElem_cons hlt]
    rw [List.flatMap_append, List.flatMap_cons]
    exact List.perm_append_comm_assoc _ _ _
  · rw [List.set_eq_take_append_cons_drop, if_pos hlt, List.flatMap_append, List.flatMap_cons]
    exact List.perm_append_comm_assoc _ _ _

/-- One holder exchanges elements with the pool. -/
theorem pool_set (hall : (free ++ holders.flatMap held).Perm all) (hx : holders[i]? = some x)
    (hmove : (free' ++ held y).Perm (free ++ held x)) :
    (free' ++ (holders.set i y).flatMap held).Perm all := by
  obtain ⟨rest, hbefore, hafter⟩ := perm_flatMap_set held hx y
  refine (hafter.append_left _).trans (List.Perm.trans ?_ ((hbefore.append_left _).symm.trans hall))
  rw [← List.append_assoc, ← List.append_assoc]
  exact hmove.append_right rest

/-- A new holder takes its elements from the pool. -/
theorem pool_concat (hall : (free ++ holders.flatMap held).Perm all)
    (htake : (free' ++ held y).Perm free) :
    (free' ++ (holders ++ [y]).flatMap held).Perm all := by
  rw [List.flatMap_append, List.flatMap_singleton]
  refine List.Perm.trans ?_ ((htake.append_right _).trans hall)
  rw [List.append_assoc]
  exact List.perm_append_comm.append_left _

/-- Two holders have nothing in common. -/
theorem pool_disjoint (hall : (free ++ holders.flatMap held).Perm all) (hnodup : all.Nodup)
    (hx : holders[i]? = some x) (hy : holders[j]? = some y) (hne : i ≠ j) :
    (held x).Disjoint (held y) := by
  have hpairs := (List.nodup_flatMap.mp (hall.nodup_iff.mpr hnodup).of_append_right).2
  obtain ⟨hi, rfl⟩ := List.getElem?_eq_some_iff.mp hx
  obtain ⟨hj, rfl⟩ := List.getElem?_eq_some_iff.mp hy
  rw [List.pairwise_iff_getElem] at hpairs
  rcases Nat.lt_or_gt_of_ne hne with hlt | hlt
  · exact hpairs i j hi hj hlt
  · exact (hpairs j i hj hi hlt).symm

/-- What somebody holds is not in the pool. -/
theorem pool_free_disjoint (hall : (free ++ holders.flatMap held).Perm all)
    (hnodup : all.Nodup) (hx : x ∈ holders) : free.Disjoint (held x) := by
  have hdisjoint := List.disjoint_of_nodup_append (hall.nodup_iff.mpr hnodup)
  intro b hfree hb
  exact hdisjoint hfree (List.mem_flatMap.mpr ⟨x, hx, hb⟩)

end Lib
end CRpc
