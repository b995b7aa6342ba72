import Mathlib.Data.List.Nodup

/-! # Lists in the order of their keys

A list is sorted by a key of its elements. When keys are distinct, the result
does not depend on the order the elements came in.
-/

namespace Lite3.Ordered

variable {α β κ : Type*} [LE κ] [DecidableLE κ] {f : α → κ} {xs ys : List α}

/-- The elements in the order of what `f` gives. -/
def sortOn (f : α → κ) (xs : List α) : List α := xs.mergeSort fun x y => f x ≤ f y

theorem sortOn_perm (f : α → κ) (xs : List α) : (sortOn f xs).Perm xs := List.mergeSort_perm xs _

@[simp] theorem mem_sortOn {x : α} : x ∈ sortOn f xs ↔ x ∈ xs := (sortOn_perm f xs).mem_iff

theorem sortOn_of_pairwise (h : xs.Pairwise fun x y => f x ≤ f y) : sortOn f xs = xs :=
  List.mergeSort_of_pairwise (h.imp fun hle => by simpa using hle)

theorem map_sortOn (f' : β → κ) (g : α → β) (h : ∀ x ∈ xs, f' (g x) = f x) :
    (sortOn f xs).map g = sortOn f' (xs.map g) := by
  apply List.map_mergeSort
  intro x hx y hy
  rw [h x hx, h y hy]

variable [Std.IsLinearOrder κ]

theorem pairwise_sortOn (f : α → κ) (xs : List α) :
    (sortOn f xs).Pairwise fun x y => f x ≤ f y := by
  have h : (sortOn f xs).Pairwise fun x y => decide (f x ≤ f y) = true := by
    apply List.pairwise_mergeSort
    · intro x y z hxy hyz
      simp only [decide_eq_true_eq] at hxy hyz ⊢
      exact Std.le_trans hxy hyz
    · intro x y
      simpa using Std.le_total
  simpa using h

theorem sortOn_sortOn (f : α → κ) (xs : List α) : sortOn f (sortOn f xs) = sortOn f xs :=
  sortOn_of_pairwise (pairwise_sortOn f xs)

/-- There is one order by distinct keys. -/
theorem eq_sortOn (hnodup : (xs.map f).Nodup) (hperm : ys.Perm xs)
    (hsorted : ys.Pairwise fun x y => f x ≤ f y) : ys = sortOn f xs := by
  have hsame : ys.Perm (sortOn f xs) := hperm.trans (sortOn_perm f xs).symm
  refine hsame.eq_of_pairwise (fun x y hx hy hxy hyx => ?_) hsorted (pairwise_sortOn f xs)
  exact List.inj_on_of_nodup_map hnodup (hperm.mem_iff.mp hx) (mem_sortOn.mp hy)
    (Std.le_antisymm hxy hyx)

theorem sortOn_congr (hnodup : (xs.map f).Nodup) (hperm : ys.Perm xs) : sortOn f ys = sortOn f xs :=
  eq_sortOn hnodup ((sortOn_perm f ys).trans hperm) (pairwise_sortOn f ys)

end Lite3.Ordered
