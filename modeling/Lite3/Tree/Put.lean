import Lite3.Tree.Basic

/-! # Top-down insertion

Insertion descends from a node that is not full. It replaces the key it meets,
adds to a leaf, or visits a child: a full child is split first and the descent
resumes in the half that a routing test on the promoted median selects. The
relation records the medians promoted on the way, so that what the routing test
gets wrong can be told from them.
-/

namespace Lite3.Tree

namespace BTree

variable {ν α : Type} {h : ℕ}

/-- The two halves of a full tree and its median; the labels of the halves are free. -/
def Splits (lo : ℕ) : {h : ℕ} → BTree ν α h → BTree ν α h → α → BTree ν α h → Prop
  | 0, t, l, m, r => t.keys = l.keys ++ m :: r.keys ∧ l.keys.length = lo ∧ r.keys.length = lo
  | _ + 1, t, l, m, r => t.keys = l.keys ++ m :: r.keys ∧ l.keys.length = lo ∧
      r.keys.length = lo ∧ t.kids = l.kids ++ r.kids ∧ l.kids.length = lo + 1

theorem Splits.keys_eq {lo : ℕ} {m : α} : {h : ℕ} → {t l r : BTree ν α h} →
    Splits lo t l m r → t.keys = l.keys ++ m :: r.keys
  | 0, _, _, _, hs => hs.1
  | _ + 1, _, _, _, hs => hs.1

theorem Splits.length_left {lo : ℕ} {m : α} : {h : ℕ} → {t l r : BTree ν α h} →
    Splits lo t l m r → l.keys.length = lo
  | 0, _, _, _, hs => hs.2.1
  | _ + 1, _, _, _, hs => hs.2.1

theorem Splits.length_right {lo : ℕ} {m : α} : {h : ℕ} → {t l r : BTree ν α h} →
    Splits lo t l m r → r.keys.length = lo
  | 0, _, _, _, hs => hs.2.2
  | _ + 1, _, _, _, hs => hs.2.2.1

theorem Splits.inorder_eq {lo : ℕ} {m : α} {t l r : BTree ν α h} (hs : Splits lo t l m r) :
    t.inorder = l.inorder ++ m :: r.inorder := by
  cases h with
  | zero => exact hs.1
  | succ h =>
    obtain ⟨hk, hl, -, hc, hn⟩ := hs
    rw [inorder, hk, hc, List.map_append, weave_halves (by simp [hn, hl])]
    rfl

theorem Splits.shaped {lo : ℕ} {m : α} {t l r : BTree ν α h} (hs : Splits lo t l m r)
    (ht : t.Shaped lo) : l.Shaped lo ∧ r.Shaped lo := by
  cases h with
  | zero =>
    obtain ⟨-, hl, hr⟩ := hs
    exact ⟨show l.keys.length ≤ _ by omega, show r.keys.length ≤ _ by omega⟩
  | succ h =>
    obtain ⟨hk, hl, hr, hc, hn⟩ := hs
    obtain ⟨-, hlen, hall⟩ := ht
    rw [hc, List.length_append, hk, List.length_append, List.length_cons] at hlen
    rw [hc] at hall
    exact ⟨⟨by omega, by omega, fun c hm => hall c (List.mem_append_left _ hm)⟩,
      ⟨by omega, by omega, fun c hm => hall c (List.mem_append_right _ hm)⟩⟩

/-- The child `c` between `A` and `B` is visited: what becomes of the keys and children around it,
and the medians promoted. -/
inductive Visit (lo : ℕ) (right : α → Prop) (P : BTree ν α h → BTree ν α h → List α → Prop)
    (A B : List (BTree ν α h)) (K₁ K₂ : List α) (c : BTree ν α h) :
    List α → List (BTree ν α h) → List α → Prop

  | whole {c' : BTree ν α h} {ms : List α} : c.keys.length < 2 * lo + 1 → P c c' ms →
      Visit lo right P A B K₁ K₂ c (K₁ ++ K₂) (A ++ c' :: B) ms

  | upper {l r r' : BTree ν α h} {m : α} {ms : List α} : Splits lo c l m r → right m →
      P r r' ms → Visit lo right P A B K₁ K₂ c (K₁ ++ m :: K₂) (A ++ l :: r' :: B) (m :: ms)

  | lower {l r l' : BTree ν α h} {m : α} {ms : List α} : Splits lo c l m r → ¬ right m →
      P l l' ms → Visit lo right P A B K₁ K₂ c (K₁ ++ m :: K₂) (A ++ l' :: r :: B) (m :: ms)

/-- The target falls between the first keys and the next one, if any. -/
structure Spot (cmp : α → Ordering) (K₁ K₂ : List α) : Prop where
  before : ∀ k ∈ K₁, cmp k = .lt
  next : ∀ k ∈ K₂.head?, cmp k = .gt

/-- `x` takes the place of a key that compares equal. -/
def Replaced (cmp : α → Ordering) (x : α) (ks ks' : List α) : Prop :=
  ∃ K₁ e K₂, ks = K₁ ++ e :: K₂ ∧ (∀ k ∈ K₁, cmp k = .lt) ∧ cmp e = .eq ∧ ks' = K₁ ++ x :: K₂

/-- `x` is added where the search for it ends without a hit. -/
def Added (cmp : α → Ordering) (x : α) (ks ks' : List α) : Prop :=
  ∃ K₁ K₂, ks = K₁ ++ K₂ ∧ Spot cmp K₁ K₂ ∧ ks' = K₁ ++ x :: K₂

/-- Putting `x` into a tree whose root is not full promotes the medians in the list. -/
def Put (lo : ℕ) (cmp : α → Ordering) (right : α → Prop) (x : α) :
    {h : ℕ} → BTree ν α h → BTree ν α h → List α → Prop
  | 0, t, t', ms => ms = [] ∧ (Replaced cmp x t.keys t'.keys ∨ Added cmp x t.keys t'.keys)
  | _ + 1, t, t', ms =>
    (ms = [] ∧ Replaced cmp x t.keys t'.keys ∧ t'.kids = t.kids) ∨
    ∃ K₁ K₂ A c B, t.keys = K₁ ++ K₂ ∧ t.kids = A ++ c :: B ∧ A.length = K₁.length ∧
      Spot cmp K₁ K₂ ∧ Visit lo right (Put lo cmp right x) A B K₁ K₂ c t'.keys t'.kids ms

variable {lo : ℕ} {cmp : α → Ordering} {right : α → Prop} {x : α}

theorem Replaced.length_eq {ks ks' : List α} (hr : Replaced cmp x ks ks') :
    ks'.length = ks.length := by
  obtain ⟨K₁, e, K₂, rfl, -, -, rfl⟩ := hr
  simp

theorem Added.length_eq {ks ks' : List α} (ha : Added cmp x ks ks') :
    ks'.length = ks.length + 1 := by
  obtain ⟨K₁, K₂, rfl, -, rfl⟩ := ha
  simp; omega

theorem Put.of_replaced {t : BTree ν α h} {ks : List α} (hr : Replaced cmp x t.keys ks) (l : ν) :
    Put lo cmp right x t (t.setRoot l ks) [] := by
  cases h with
  | zero => exact ⟨rfl, Or.inl hr⟩
  | succ h => exact Or.inl ⟨rfl, hr, rfl⟩

theorem Put.of_setRoot {t t' : BTree ν α h} {l : ν} {ms : List α}
    (hp : Put lo cmp right x (t.setRoot l t.keys) t' ms) : Put lo cmp right x t t' ms := by
  cases h with
  | zero => exact hp
  | succ h => exact hp

theorem Splits.of_setRoot {t a b : BTree ν α h} {l : ν} {m : α}
    (hs : Splits lo (t.setRoot l t.keys) a m b) : Splits lo t a m b := by
  cases h with
  | zero => exact hs
  | succ h => exact hs

theorem Visit.of_setRoot {A B : List (BTree ν α h)} {K₁ K₂ : List α} {c : BTree ν α h} {l : ν}
    {ks : List α} {cs : List (BTree ν α h)} {ms : List α}
    (hv : Visit lo right (Put lo cmp right x) A B K₁ K₂ (c.setRoot l c.keys) ks cs ms) :
    Visit lo right (Put lo cmp right x) A B K₁ K₂ c ks cs ms := by
  cases hv with
  | whole hn hp => exact .whole (by simpa using hn) hp.of_setRoot
  | upper hs hr hp => exact .upper hs.of_setRoot hr hp
  | lower hs hr hp => exact .lower hs.of_setRoot hr hp

theorem Visit.ne_nil_of_full {P : BTree ν α h → BTree ν α h → List α → Prop}
    {A B : List (BTree ν α h)} {K₁ K₂ : List α} {c : BTree ν α h} {ks : List α}
    {cs : List (BTree ν α h)} {ms : List α} (hv : Visit lo right P A B K₁ K₂ c ks cs ms)
    (hc : c.keys.length = 2 * lo + 1) : ms ≠ [] := by
  cases hv with
  | whole hn _ => omega
  | upper => simp
  | lower => simp

/-- A visit keeps the children filled and adds at most one key to the node. -/
theorem Visit.shaped {P : BTree ν α h → BTree ν α h → List α → Prop} {A B : List (BTree ν α h)}
    {K₁ K₂ : List α} {c : BTree ν α h} {ks : List α} {cs : List (BTree ν α h)} {ms : List α}
    (hP : ∀ {c c' : BTree ν α h} {ms : List α}, P c c' ms → c.Shaped lo →
      c.keys.length < 2 * lo + 1 → c'.Shaped lo ∧ c.keys.length ≤ c'.keys.length)
    (hv : Visit lo right P A B K₁ K₂ c ks cs ms)
    (hall : ∀ d ∈ A ++ c :: B, lo ≤ d.keys.length ∧ d.Shaped lo) :
    (∀ d ∈ cs, lo ≤ d.keys.length ∧ d.Shaped lo) ∧
      K₁.length + K₂.length ≤ ks.length ∧ ks.length ≤ K₁.length + K₂.length + 1 ∧
      cs.length + (K₁.length + K₂.length) = A.length + B.length + 1 + ks.length := by
  have hA : ∀ d ∈ A, lo ≤ d.keys.length ∧ d.Shaped lo := fun d hd => hall d (by simp [hd])
  have hB : ∀ d ∈ B, lo ≤ d.keys.length ∧ d.Shaped lo := fun d hd => hall d (by simp [hd])
  have hc := hall c (by simp)
  cases hv with
  | whole hn hp =>
    obtain ⟨hs, hk⟩ := hP hp hc.2 hn
    refine ⟨fun d hd => ?_, by simp, by simp, by simp; omega⟩
    simp only [List.mem_append, List.mem_cons] at hd
    rcases hd with hd | rfl | hd
    · exact hA d hd
    · exact ⟨hc.1.trans hk, hs⟩
    · exact hB d hd
  | @upper l r r' m ms hsp _ hp =>
    have hr := hsp.length_right
    obtain ⟨hs, hk⟩ := hP hp (hsp.shaped hc.2).2 (by omega)
    refine ⟨fun d hd => ?_, by simp, by simp; omega, by simp; omega⟩
    simp only [List.mem_append, List.mem_cons] at hd
    rcases hd with hd | rfl | rfl | hd
    · exact hA d hd
    · exact ⟨hsp.length_left.ge, (hsp.shaped hc.2).1⟩
    · exact ⟨by omega, hs⟩
    · exact hB d hd
  | @lower l r l' m ms hsp _ hp =>
    have hl := hsp.length_left
    obtain ⟨hs, hk⟩ := hP hp (hsp.shaped hc.2).1 (by omega)
    refine ⟨fun d hd => ?_, by simp, by simp; omega, by simp; omega⟩
    simp only [List.mem_append, List.mem_cons] at hd
    rcases hd with hd | rfl | rfl | hd
    · exact hA d hd
    · exact ⟨by omega, hs⟩
    · exact ⟨hsp.length_right.ge, (hsp.shaped hc.2).2⟩
    · exact hB d hd

theorem Put.shaped {t t' : BTree ν α h} {ms : List α} (hp : Put lo cmp right x t t' ms)
    (hs : t.Shaped lo) (hn : t.keys.length < 2 * lo + 1) :
    t'.Shaped lo ∧ t.keys.length ≤ t'.keys.length := by
  induction h generalizing ms with
  | zero =>
    rcases hp with ⟨-, hr | ha⟩
    · exact ⟨show t'.keys.length ≤ _ by rw [hr.length_eq]; exact hn.le, hr.length_eq.ge⟩
    · exact ⟨show t'.keys.length ≤ _ by rw [ha.length_eq]; exact hn, by rw [ha.length_eq]; omega⟩
  | succ h ih =>
    obtain ⟨-, hlen, hall⟩ := hs
    rcases hp with ⟨-, hr, hc⟩ | ⟨K₁, K₂, A, c, B, hk, hc, hA, -, hv⟩
    · exact ⟨⟨by rw [hr.length_eq]; exact hn.le, by rw [hc, hr.length_eq, hlen],
        by rw [hc]; exact hall⟩, hr.length_eq.ge⟩
    · rw [hc] at hall hlen
      rw [hk, List.length_append] at hn hlen ⊢
      simp only [List.length_append, List.length_cons] at hlen
      obtain ⟨hd, h₁, h₂, h₃⟩ := hv.shaped (fun hp hs hn => ih hp hs hn) hall
      exact ⟨⟨by omega, by omega, hd⟩, h₁⟩

/-- Putting into any tree: a full root is split below a new root. -/
inductive PutRoot (lo : ℕ) (cmp : α → Ordering) (right : α → Prop) (x : α) :
    (Σ h, BTree ν α h) → (Σ h, BTree ν α h) → List α → Prop

  | whole {h : ℕ} {t t' : BTree ν α h} {ms : List α} : t.keys.length < 2 * lo + 1 →
      Put lo cmp right x t t' ms → PutRoot lo cmp right x ⟨h, t⟩ ⟨h, t'⟩ ms

  | split {h : ℕ} {t : BTree ν α h} {t' : BTree ν α (h + 1)} {ms : List α} :
      t.keys.length = 2 * lo + 1 →
      Visit lo right (Put lo cmp right x) [] [] [] [] t t'.keys t'.kids ms →
      PutRoot lo cmp right x ⟨h, t⟩ ⟨h + 1, t'⟩ ms

/-- A full root is what makes a tree grow. -/
theorem PutRoot.height_eq {t t' : Σ h, BTree ν α h} {ms : List α}
    (hp : PutRoot lo cmp right x t t' ms) :
    t'.1 = t.1 + if t.2.keys.length = 2 * lo + 1 then 1 else 0 := by
  cases hp with
  | whole hn _ => exact (if_neg hn.ne).symm ▸ rfl
  | split hn _ => exact (if_pos hn).symm ▸ rfl

theorem PutRoot.shaped {t t' : Σ h, BTree ν α h} {ms : List α}
    (hp : PutRoot lo cmp right x t t' ms) (hs : t.2.Shaped lo) : t'.2.Shaped lo := by
  cases hp with
  | whole hn hp => exact (hp.shaped hs hn).1
  | split hn hv =>
    obtain ⟨hd, -, h₂, h₃⟩ := hv.shaped (fun hp hs hn => hp.shaped hs hn)
      (by simpa using ⟨by omega, hs⟩)
    simp only [List.length_nil] at h₂ h₃
    change _ ∧ _ ∧ _
    exact ⟨by dsimp only; omega, by dsimp only; omega, hd⟩

end BTree

end Lite3.Tree
