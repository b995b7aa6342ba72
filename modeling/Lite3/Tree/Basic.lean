import Mathlib.Data.List.Basic
import Mathlib.Data.List.Flatten
import Mathlib.Tactic.Ring
import Mathlib.Tactic.Linarith

/-! # Multiway search trees

A node carries a label, its keys and its children, and a tree of height `h` has
all leaves at that depth by construction. The in-order sequence weaves the
children between the keys. Sizes are bounded below by the fill of the nodes.
-/

namespace Lite3.Tree

structure Node (ν α κ : Type*) where
  label : ν
  keys : List α
  kids : List κ

/-- Trees whose leaves all have depth `h`. -/
def BTree (ν α : Type) : ℕ → Type
  | 0 => Node ν α Empty
  | h + 1 => Node ν α (BTree ν α h)

section Weave

variable {α : Type*}

/-- Interleave the blocks `cs` with the separators `ks`. -/
def weave : List (List α) → List α → List α
  | [], ks => ks
  | c :: cs, [] => c ++ cs.flatten
  | c :: cs, k :: ks => c ++ k :: weave cs ks

/-- Blocks each followed by its separator. -/
def run : List (List α) → List α → List α
  | c :: cs, k :: ks => c ++ k :: run cs ks
  | _, _ => []

/-- Separators each followed by its block. -/
def rest : List (List α) → List α → List α
  | cs, [] => cs.flatten
  | cs, k :: ks => k :: weave cs ks

variable {cs A B : List (List α)} {ks K₁ K₂ : List α} {c : List α} {x : α}

theorem weave_cons (c : List α) (cs : List (List α)) (ks : List α) :
    weave (c :: cs) ks = c ++ rest cs ks := by
  cases ks <;> rfl

theorem weave_append (h : A.length = K₁.length) :
    weave (A ++ B) (K₁ ++ K₂) = run A K₁ ++ weave B K₂ := by
  induction A generalizing K₁ with
  | nil =>
    obtain rfl : K₁ = [] := List.eq_nil_of_length_eq_zero h.symm
    rfl
  | cons a A ih =>
    cases K₁ with
    | nil => simp at h
    | cons k K₁ => simp [weave, run, ih (by simpa using h)]

theorem weave_focus (h : A.length = K₁.length) :
    weave (A ++ c :: B) (K₁ ++ K₂) = run A K₁ ++ (c ++ rest B K₂) := by
  rw [weave_append h, weave_cons]

theorem weave_halves {k : α} (h : A.length = K₁.length + 1) :
    weave (A ++ B) (K₁ ++ k :: K₂) = weave A K₁ ++ k :: weave B K₂ := by
  induction A generalizing K₁ with
  | nil => simp at h
  | cons a A ih =>
    cases K₁ with
    | nil =>
      obtain rfl : A = [] := List.eq_nil_of_length_eq_zero (by simpa using h)
      simp [weave]
    | cons k K₁ => simp [weave, ih (by simpa using h)]

theorem weave_perm (cs : List (List α)) (ks : List α) :
    (weave cs ks).Perm (ks ++ cs.flatten) := by
  induction cs generalizing ks with
  | nil => simp [weave]
  | cons c cs ih =>
    cases ks with
    | nil => simp [weave]
    | cons k ks =>
      rw [weave, List.flatten_cons, List.cons_append, ← List.append_assoc]
      refine List.perm_middle.trans (List.Perm.cons k ?_)
      exact ((ih ks).append_left c).trans
        (by simpa using (List.perm_append_comm : (c ++ ks).Perm _).append_right cs.flatten)

theorem map_weave {β : Type*} (f : α → β) (cs : List (List α)) (ks : List α) :
    (weave cs ks).map f = weave (cs.map (List.map f)) (ks.map f) := by
  induction cs generalizing ks with
  | nil => rfl
  | cons c cs ih =>
    cases ks with
    | nil => simp [weave, List.map_flatten]
    | cons k ks => simp [weave, ih]

theorem mem_weave : x ∈ weave cs ks ↔ x ∈ ks ∨ ∃ c ∈ cs, x ∈ c := by
  rw [(weave_perm cs ks).mem_iff, List.mem_append, List.mem_flatten]

theorem length_weave (cs : List (List α)) (ks : List α) :
    (weave cs ks).length = ks.length + (cs.map List.length).sum := by
  rw [(weave_perm cs ks).length_eq, List.length_append, List.length_flatten]

end Weave

namespace BTree

variable {ν α β : Type} {h : ℕ}

def label : {h : ℕ} → BTree ν α h → ν
  | 0, t => Node.label t
  | _ + 1, t => Node.label t

def keys : {h : ℕ} → BTree ν α h → List α
  | 0, t => Node.keys t
  | _ + 1, t => Node.keys t

def leaf (l : ν) (ks : List α) : BTree ν α 0 := Node.mk l ks []

def inner (l : ν) (ks : List α) (cs : List (BTree ν α h)) : BTree ν α (h + 1) := Node.mk l ks cs

def kids (t : BTree ν α (h + 1)) : List (BTree ν α h) := Node.kids t

@[simp] theorem label_leaf (l : ν) (ks : List α) : (leaf l ks).label = l := rfl
@[simp] theorem keys_leaf (l : ν) (ks : List α) : (leaf l ks).keys = ks := rfl
@[simp] theorem label_inner (l : ν) (ks : List α) (cs : List (BTree ν α h)) :
    (inner l ks cs).label = l := rfl
@[simp] theorem keys_inner (l : ν) (ks : List α) (cs : List (BTree ν α h)) :
    (inner l ks cs).keys = ks := rfl
@[simp] theorem kids_inner (l : ν) (ks : List α) (cs : List (BTree ν α h)) :
    (inner l ks cs).kids = cs := rfl

def inorder : {h : ℕ} → BTree ν α h → List α
  | 0, t => t.keys
  | _ + 1, t => weave (t.kids.map inorder) t.keys

/-- What comes behind child `i` of the root. -/
def after (i : ℕ) : {h : ℕ} → BTree ν α h → List α
  | 0, t => t.keys.drop i
  | _ + 1, t => rest ((t.kids.drop (i + 1)).map inorder) (t.keys.drop i)

/-- The labels of all nodes, every node before its descendants. -/
def labels : {h : ℕ} → BTree ν α h → List ν
  | 0, t => [t.label]
  | _ + 1, t => t.label :: t.kids.flatMap labels

@[simp] theorem inorder_leaf (l : ν) (ks : List α) : (leaf l ks).inorder = ks := rfl
@[simp] theorem inorder_inner (l : ν) (ks : List α) (cs : List (BTree ν α h)) :
    (inner l ks cs).inorder = weave (cs.map inorder) ks := rfl
@[simp] theorem labels_leaf (l : ν) (ks : List α) : (leaf l ks).labels = [l] := rfl
@[simp] theorem labels_inner (l : ν) (ks : List α) (cs : List (BTree ν α h)) :
    (inner l ks cs).labels = l :: cs.flatMap labels := rfl

/-- The tree with another label and other keys at its root. -/
def setRoot (l : ν) (ks : List α) : {h : ℕ} → BTree ν α h → BTree ν α h
  | 0, _ => leaf l ks
  | _ + 1, t => inner l ks t.kids

@[simp] theorem label_setRoot (l : ν) (ks : List α) :
    {h : ℕ} → (t : BTree ν α h) → (t.setRoot l ks).label = l
  | 0, _ => rfl
  | _ + 1, _ => rfl

@[simp] theorem keys_setRoot (l : ν) (ks : List α) :
    {h : ℕ} → (t : BTree ν α h) → (t.setRoot l ks).keys = ks
  | 0, _ => rfl
  | _ + 1, _ => rfl

@[simp] theorem kids_setRoot (l : ν) (ks : List α) (t : BTree ν α (h + 1)) :
    (t.setRoot l ks).kids = t.kids := rfl

@[simp] theorem inorder_setRoot (l : ν) :
    {h : ℕ} → (t : BTree ν α h) → (t.setRoot l t.keys).inorder = t.inorder
  | 0, _ => rfl
  | _ + 1, _ => rfl

theorem mem_inorder_of_mem_keys : {h : ℕ} → {t : BTree ν α h} → {x : α} → x ∈ t.keys →
    x ∈ t.inorder
  | 0, _, _, hx => hx
  | _ + 1, _, _, hx => mem_weave.mpr (Or.inl hx)

theorem mem_inorder_of_mem_kids {t : BTree ν α (h + 1)} {c : BTree ν α h} {x : α}
    (hc : c ∈ t.kids) (hx : x ∈ c.inorder) : x ∈ t.inorder :=
  mem_weave.mpr (Or.inr ⟨c.inorder, List.mem_map_of_mem hc, hx⟩)

theorem label_mem_labels : {h : ℕ} → (t : BTree ν α h) → t.label ∈ t.labels
  | 0, _ => List.mem_singleton_self _
  | _ + 1, _ => List.mem_cons_self

/-- At most `2 * lo + 1` keys in every node and at least `lo` in every proper descendant. -/
def Shaped (lo : ℕ) : {h : ℕ} → BTree ν α h → Prop
  | 0, t => t.keys.length ≤ 2 * lo + 1
  | _ + 1, t => t.keys.length ≤ 2 * lo + 1 ∧ t.kids.length = t.keys.length + 1 ∧
      ∀ c ∈ t.kids, lo ≤ c.keys.length ∧ Shaped lo c

theorem Shaped.setRoot {lo : ℕ} {t : BTree ν α h} (hs : t.Shaped lo) (l : ν) :
    (t.setRoot l t.keys).Shaped lo := by
  cases h <;> exact hs

theorem after_of_le {lo i : ℕ} {t : BTree ν α h} (hs : t.Shaped lo) (hi : t.keys.length ≤ i) :
    t.after i = [] := by
  cases h with
  | zero => exact List.drop_eq_nil_of_le hi
  | succ h =>
    have hl := hs.2.1
    rw [after, List.drop_eq_nil_of_le hi, List.drop_eq_nil_of_le (by omega)]
    rfl

theorem after_leaf {t : BTree ν α 0} {i : ℕ} (hi : i < t.keys.length) :
    t.after i = t.keys[i] :: t.after (i + 1) := List.drop_eq_getElem_cons hi

theorem after_inner {t : BTree ν α (h + 1)} {i : ℕ} (hi : i < t.keys.length)
    (hc : i + 1 < t.kids.length) :
    t.after i = t.keys[i] :: (t.kids[i + 1].inorder ++ t.after (i + 1)) := by
  rw [after, after, List.drop_eq_getElem_cons hi, List.drop_eq_getElem_cons hc, List.map_cons, rest,
    weave_cons]

theorem inorder_inner_eq {t : BTree ν α (h + 1)} (hc : 0 < t.kids.length) :
    t.inorder = t.kids[0].inorder ++ t.after 0 := by
  obtain ⟨c, cs, hcs⟩ := List.exists_cons_of_length_pos hc
  simp only [inorder, after, hcs, List.map_cons, weave_cons, List.drop_succ_cons, List.drop_zero,
    List.getElem_cons_zero]

theorem height_lt_length_labels {lo : ℕ} {t : BTree ν α h} (hs : t.Shaped lo) :
    h < t.labels.length := by
  induction h with
  | zero => simp [labels]
  | succ h ih =>
    obtain ⟨c, cs, hc⟩ : ∃ c cs, t.kids = c :: cs :=
      List.exists_cons_of_ne_nil (by rw [← List.length_pos_iff, hs.2.1]; omega)
    have := ih (hs.2.2 c (by simp [hc])).2
    rw [labels, hc]
    simp only [List.flatMap_cons, List.length_cons, List.length_append]
    omega

/-- A subtree of height `h` with filled nodes holds at least `(lo + 1) ^ (h + 1) - 1` keys. -/
theorem pow_le_length_inorder {lo : ℕ} {t : BTree ν α h} (hs : t.Shaped lo)
    (hk : lo ≤ t.keys.length) : (lo + 1) ^ (h + 1) ≤ t.inorder.length + 1 := by
  induction h with
  | zero => simpa [inorder] using hk
  | succ h ih =>
    have hsum : t.kids.length * ((lo + 1) ^ (h + 1)) ≤
        ((t.kids.map inorder).map List.length).sum + t.kids.length := by
      have hall : ∀ c ∈ t.kids, (lo + 1) ^ (h + 1) ≤ c.inorder.length + 1 := fun c hc =>
        ih (hs.2.2 c hc).2 (hs.2.2 c hc).1
      generalize t.kids = cs at hall
      induction cs with
      | nil => simp
      | cons c cs ihc =>
        have h₁ := hall c (by simp)
        have h₂ := ihc fun d hd => hall d (by simp [hd])
        simp only [List.map_cons, List.sum_cons, List.length_cons]
        linarith
    rw [inorder, length_weave]
    have hl := hs.2.1
    have hmul : (lo + 1) ^ (h + 1 + 1) ≤ t.kids.length * ((lo + 1) ^ (h + 1)) := by
      rw [pow_succ, Nat.mul_comm]
      exact Nat.mul_le_mul_right _ (by omega)
    omega

end BTree

end Lite3.Tree
