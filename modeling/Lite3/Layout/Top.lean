import Lite3.Layout.Iterate
import Lite3.Loaded.Shown
import Lite3.Tree.Top

/-! # Iteration over trees of any height

An iteration over a laid out tree shows the entries of its first ten levels.
-/

namespace Lite3

open Bytes Config Lite3.Tree Stop

namespace NodeTree

variable {m : Mem} {type : ValueType} {size h n : ℕ} {under : ℕ → ℕ → List Stop}
  {blocks : List (List Entry)}

/-- The children of a node show the blocks of entries. -/
def ShowsBlocks (m : Mem) (size : ℕ) (t : NodeTree h) (under : ℕ → ℕ → List Stop)
    (blocks : List (List Entry)) : Prop :=
  ∀ i ≤ t.keys.length, ∀ l, Iterator.shown m size (under t.ofs i ++ l) =
    ((blocks[i]?).getD []).map Entry.view ++ Iterator.shown m size l

theorem Within.shown_onwards {t : NodeTree h} (hw : t.Within m type size)
    (hu : ShowsBlocks m size t under blocks)
    (hlen : blocks = [] ∨ blocks.length = t.keys.length + 1) (l : List Stop) (i : ℕ)
    (hi : i ≤ t.keys.length) : Iterator.shown m size (onwards m under t.ofs i ++ l) =
      (rest (blocks.drop (i + 1)) (t.keys.drop i)).map Entry.view ++ Iterator.shown m size l := by
  have hcount : NodeView.keyCount m t.ofs = t.keys.length := hw.seen.keyCount
  induction hj : t.keys.length - i generalizing i with
  | zero =>
    have hdrop : blocks.drop (i + 1) = [] := List.drop_eq_nil_of_le (by
      rcases hlen with rfl | hlen
      · exact Nat.zero_le _
      · omega)
    rw [onwards_of_le (by omega), hdrop, List.drop_eq_nil_of_le (by omega)]
    rfl
  | succ j ih =>
    have hlt : i < t.keys.length := by omega
    rw [onwards_of_lt (hcount ▸ hlt), List.cons_append, Iterator.shown, hw.readEntry hlt]
    dsimp only
    rw [List.append_assoc, hu (i + 1) hlt, ih (i + 1) (by omega) (by omega),
      List.drop_eq_getElem_cons hlt, rest]
    rcases hlen with rfl | hlen
    · simp only [List.drop_nil, rest_nil, weave, List.getElem?_nil, Option.getD_none, List.map_nil,
        List.nil_append, List.map_cons, List.cons_append]
    · have hb : i + 1 < blocks.length := by omega
      rw [List.drop_eq_getElem_cons hb, weave_cons, List.getElem?_eq_getElem hb]
      simp

theorem Within.shown_layer {t : NodeTree h} (hw : t.Within m type size)
    (hu : ShowsBlocks m size t under blocks)
    (hlen : blocks = [] ∨ blocks.length = t.keys.length + 1) (l : List Stop) :
    Iterator.shown m size (layer m under t.ofs ++ l) =
      (weave blocks t.keys).map Entry.view ++ Iterator.shown m size l := by
  rw [layer, List.cons_append, Iterator.shown, List.append_assoc, hu 0 (Nat.zero_le _),
    hw.shown_onwards hu hlen l 0 (Nat.zero_le _), List.drop_zero]
  cases blocks with
  | nil => simp [rest_nil, weave]
  | cons b blocks => simp [weave_cons]

theorem Within.shown {t : NodeTree h} (hw : t.Within m type size) (n : ℕ) (l : List Stop) :
    Iterator.shown m size (layer m (below m n) t.ofs ++ l) =
      (t.top n).map Entry.view ++ Iterator.shown m size l := by
  induction n generalizing h l with
  | zero =>
    have hu : ShowsBlocks m size t (below m 0) [] := fun i _ l => by simp [below]
    rw [hw.shown_layer hu (.inl rfl) l]
    cases h <;> simp [BTree.top, weave]
  | succ n ih =>
    cases h with
    | zero =>
      have hu : ShowsBlocks m size t (below m (n + 1)) [] := by
        intro i hi l
        have hle := hw.seen.laid.length_le
        have hc : NodeView.getChildOffset m t.ofs i = 0 := hw.seen.child_leaf (by omega)
        simp [below, hc]
      rw [hw.shown_layer hu (.inl rfl) l]
      simp [BTree.top, weave]
    | succ h =>
      have hu : ShowsBlocks m size t (below m (n + 1)) (t.kids.map (BTree.top n)) := by
        intro i hi l
        have hl := hw.length_kids
        have hk : i < t.kids.length := by omega
        obtain ⟨hc, hne⟩ := hw.child hk
        rw [below, hc, if_neg hne, ih (hw.kid (List.getElem_mem hk)) l]
        simp [hk]
      have hlen : (t.kids.map (BTree.top n)).length = t.keys.length + 1 := by
        rw [List.length_map, hw.length_kids]
      rw [hw.shown_layer hu (.inr hlen) l]
      rfl

end NodeTree

/-- An iteration over an object shows the entries of its first ten levels. -/
theorem Container.shown_top {b : Buffer} {c : Container} {R : List Chunk}
    (ho : b.Owns (c.chunks ++ R)) (hc : c.isArr = false) :
    Iterator.shown b.mem b.data.length (layer b.mem (below b.mem treeHeightMax) c.ofs) =
      (c.tree.top treeHeightMax).map Entry.view := by
  have h := (within ho hc).shown treeHeightMax []
  rwa [List.append_nil, Iterator.shown, List.append_nil] at h

end Lite3
