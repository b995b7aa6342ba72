import Mathlib.Algebra.Order.BigOperators.Group.List
import Lite3.Tree.Ascending

/-! # The first levels of a tree

The keys of the nodes down to some depth, in order.
-/

namespace Lite3.Tree

theorem rest_nil {α : Type*} (ks : List α) : rest [] ks = ks := by
  cases ks <;> rfl

namespace BTree

variable {ν α : Type} {h : ℕ}

/-- The in-order sequence of the root and `n` levels below it -/
def top : (n : ℕ) → {h : ℕ} → BTree ν α h → List α
  | _, 0, t => t.keys
  | 0, _ + 1, t => t.keys
  | n + 1, _ + 1, t => weave (t.kids.map (top n)) t.keys

theorem mem_inorder_of_mem_top {x : α} (n : ℕ) {t : BTree ν α h} (hx : x ∈ t.top n) :
    x ∈ t.inorder := by
  induction h generalizing n with
  | zero =>
    unfold top at hx
    exact hx
  | succ h ih =>
    cases n with
    | zero => exact mem_inorder_of_mem_keys hx
    | succ n =>
      rcases mem_weave.mp hx with hx | ⟨c, hc, hx⟩
      · exact mem_inorder_of_mem_keys hx
      · obtain ⟨t', ht', rfl⟩ := List.mem_map.mp hc
        exact mem_inorder_of_mem_kids ht' (ih n hx)

theorem length_top_le (n : ℕ) (t : BTree ν α h) : (t.top n).length ≤ t.inorder.length := by
  induction h generalizing n with
  | zero =>
    unfold top
    exact le_rfl
  | succ h ih =>
    cases n with
    | zero =>
      rw [top, inorder, length_weave]
      exact Nat.le_add_right _ _
    | succ n =>
      rw [top, inorder, length_weave, length_weave, List.map_map, List.map_map]
      apply Nat.add_le_add_left
      apply List.sum_le_sum
      exact fun c _ => ih n c

/-- A tree that is no deeper is there as a whole. -/
theorem top_eq_inorder {n : ℕ} {t : BTree ν α h} (hn : h ≤ n) : t.top n = t.inorder := by
  induction h generalizing n with
  | zero =>
    unfold top
    rfl
  | succ h ih =>
    obtain ⟨n, rfl⟩ := Nat.exists_eq_add_of_le' (Nat.pos_of_ne_zero (by omega) : 1 ≤ n)
    rw [top, inorder]
    congr 1
    exact List.map_congr_left fun c _ => ih (by omega)

theorem mem_top_of_mem_keys {x : α} (n : ℕ) {t : BTree ν α h} (hx : x ∈ t.keys) : x ∈ t.top n := by
  cases h with
  | zero =>
    unfold top
    exact hx
  | succ h =>
    cases n with
    | zero => exact hx
    | succ n => exact mem_weave.mpr (.inl hx)

theorem Rooted.top_eq_nil {n : ℕ} {t : BTree ν α h} (hr : t.Rooted) (ht : t.top n = []) :
    t.inorder = [] := by
  cases h with
  | zero =>
    unfold top at ht
    exact ht
  | succ h =>
    obtain ⟨x, hx⟩ := List.exists_mem_of_ne_nil _ hr
    exact absurd (mem_top_of_mem_keys n hx) (ht ▸ List.not_mem_nil)

end BTree

end Lite3.Tree
