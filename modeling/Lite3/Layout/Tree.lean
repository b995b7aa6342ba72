import Mathlib.Algebra.Order.Group.Multiset
import Mathlib.Tactic.Abel
import Lite3.Layout.Split

/-! # Trees in the buffer

A tree of blocks and entries is laid out when every block fits the keys and
the children of its node. Its chunks are those of all its nodes and entries.
-/

namespace Lite3

open Bytes Lite3.Tree

abbrev NodeTree := BTree Block Entry

namespace NodeTree

variable {h : ℕ} {type : ValueType} {isArr : Bool}

def ofs (t : NodeTree h) : ℕ := t.label.ofs

/-- Every block fits the keys and children of its node. -/
def Laid (type : ValueType) : {h : ℕ} → NodeTree h → Prop
  | 0, t => Fits type t.label t.keys []
  | _ + 1, t => Fits type t.label t.keys (t.kids.map ofs) ∧ ∀ c ∈ t.kids, Laid type c

def chunks (isArr : Bool) (t : NodeTree h) : List Chunk :=
  t.labels.map Block.chunk ++ t.inorder.map (Entry.chunk isArr)

/-- The chunks of the subtrees below the root. -/
def kidChunks (isArr : Bool) : {h : ℕ} → NodeTree h → List Chunk
  | 0, _ => []
  | _ + 1, t => t.kids.flatMap (chunks isArr)

theorem label_chunk_mem (isArr : Bool) (t : NodeTree h) : t.label.chunk ∈ t.chunks isArr :=
  List.mem_append_left _ (List.mem_map_of_mem t.label_mem_labels)

theorem perm_of_coe {α : Type*} {xs ys : List α} (h : (xs : Multiset α) = ys) : xs.Perm ys :=
  Multiset.coe_eq_coe.mp h

theorem flatMap_chunks_perm (isArr : Bool) (cs : List (NodeTree h)) :
    (cs.flatMap (chunks isArr)).Perm
      ((cs.flatMap BTree.labels).map Block.chunk ++
        (cs.map BTree.inorder).flatten.map (Entry.chunk isArr)) := by
  induction cs with
  | nil => simp
  | cons c cs ih =>
    simp only [List.flatMap_cons, List.map_append, List.map_cons, List.flatten_cons]
    refine (ih.append_left _).trans (perm_of_coe ?_)
    simp only [chunks, ← Multiset.coe_add]
    abel

theorem chunks_perm (isArr : Bool) (t : NodeTree h) : (t.chunks isArr).Perm
    (t.label.chunk :: (t.keys.map (Entry.chunk isArr) ++ t.kidChunks isArr)) := by
  cases h with
  | zero => simp [chunks, kidChunks, BTree.labels, BTree.inorder]
  | succ h =>
    rw [chunks, BTree.labels, List.map_cons, List.cons_append]
    refine List.Perm.cons _ ?_
    have hw := (weave_perm (t.kids.map BTree.inorder) t.keys).map (Entry.chunk isArr)
    have hf := flatMap_chunks_perm isArr t.kids
    refine (hw.append_left _).trans ((perm_of_coe ?_).trans (hf.symm.append_left _))
    simp only [List.map_append, ← Multiset.coe_add]
    abel

/-- The offsets of the children, none of a leaf. -/
def kidOfs : {h : ℕ} → NodeTree h → List ℕ
  | 0, _ => []
  | _ + 1, t => t.kids.map ofs

theorem Laid.fits {t : NodeTree h} (ht : t.Laid type) : Fits type t.label t.keys t.kidOfs := by
  cases h with
  | zero => exact ht
  | succ h => exact ht.1

theorem Laid.length_le {t : NodeTree h} (ht : t.Laid type) : t.keys.length ≤ 7 :=
  ht.fits.length_le

theorem Laid.keyCount {t : NodeTree h} (ht : t.Laid type) : t.label.keyCount = t.keys.length :=
  ht.fits.count

theorem Laid.setRoot {t : NodeTree h} (ht : t.Laid type) {B : Block} {ks : List Entry}
    (hf : Fits type B ks t.kidOfs) : Laid type (BTree.setRoot B ks t) := by
  cases h with
  | zero => exact hf
  | succ h => exact ⟨hf, ht.2⟩

@[simp] theorem kidChunks_setRoot (t : NodeTree h) (B : Block) (ks : List Entry) :
    kidChunks isArr (BTree.setRoot B ks t) = t.kidChunks isArr := by
  cases h <;> rfl

theorem Laid.type_eq {t : NodeTree h} (ht : t.Laid type) : t.label.type = type := ht.fits.type_eq

end NodeTree

end Lite3
