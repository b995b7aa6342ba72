import Lite3.Tree.Put

/-! # Trees grown in ascending order

Insertions behind all keys only change the last child of every node. The other
children are halves left over from splits and hold the fewest keys that their
height allows, so such a tree is as high as its size permits up to a factor.
-/

namespace Lite3.Tree

namespace BTree

variable {ν α : Type} {h lo : ℕ} {cmp : α → Ordering} {right : α → Prop} {x : α}

/-- A subtree with as few keys as its height allows. -/
def Minimal (lo : ℕ) (t : BTree ν α h) : Prop := t.inorder.length + 1 = (lo + 1) ^ (h + 1)

/-- All children but the last are minimal, and the last one is of this kind again. -/
def Slim (lo : ℕ) : {h : ℕ} → BTree ν α h → Prop
  | 0, _ => True
  | h + 1, t => ∃ A : List (BTree ν α h), ∃ c, t.kids = A ++ [c] ∧ (∀ d ∈ A, Minimal lo d) ∧
      Slim lo c

theorem sum_of_minimal {A : List (BTree ν α h)} (hA : ∀ d ∈ A, Minimal lo d) :
    ((A.map inorder).map List.length).sum + A.length = A.length * (lo + 1) ^ (h + 1) := by
  induction A with
  | nil => simp
  | cons a A ih =>
    have ha : a.inorder.length + 1 = (lo + 1) ^ (h + 1) := hA a (by simp)
    have := ih fun d hd => hA d (by simp [hd])
    simp only [List.map_cons, List.sum_cons, List.length_cons]
    linarith

theorem Slim.length_le {t : BTree ν α h} (h₁ : Slim lo t) (hs : t.Shaped lo) :
    lo * t.inorder.length + (2 * lo + 1) ≤ (2 * lo + 1) * (lo + 1) ^ (h + 1) := by
  induction h with
  | zero =>
    have hk : t.inorder.length ≤ 2 * lo + 1 := hs
    calc lo * t.inorder.length + (2 * lo + 1) ≤ lo * (2 * lo + 1) + (2 * lo + 1) :=
          Nat.add_le_add_right (Nat.mul_le_mul_left lo hk) _
      _ = (2 * lo + 1) * (lo + 1) ^ (0 + 1) := by ring
  | succ h ih =>
    obtain ⟨A, c, hkids, hA, hc⟩ := h₁
    obtain ⟨hk, hlen, hall⟩ := hs
    have hcs := ih hc (hall c (by simp [hkids])).2
    have hsum := sum_of_minimal hA
    rw [hkids, List.length_append, List.length_singleton] at hlen
    obtain hlen : A.length = t.keys.length := by omega
    rw [hlen] at hsum
    have hn : t.inorder.length = t.keys.length * (lo + 1) ^ (h + 1) + c.inorder.length := by
      rw [inorder, length_weave, hkids, ← hsum]
      simp only [List.map_append, List.map_cons, List.map_nil, List.sum_append, List.sum_singleton]
      omega
    calc lo * t.inorder.length + (2 * lo + 1)
        = t.keys.length * (lo * (lo + 1) ^ (h + 1)) +
            (lo * c.inorder.length + (2 * lo + 1)) := by
          rw [hn]
          ring
      _ ≤ (2 * lo + 1) * (lo * (lo + 1) ^ (h + 1)) + (2 * lo + 1) * (lo + 1) ^ (h + 1) :=
          Nat.add_le_add (Nat.mul_le_mul_right _ hk) hcs
      _ = (2 * lo + 1) * (lo + 1) ^ (h + 1 + 1) := by ring

theorem Splits.slim {c l r : BTree ν α h} {m : α} (hsp : Splits lo c l m r) (hs : c.Shaped lo)
    (hc : Slim lo c) : Minimal lo l ∧ Slim lo r := by
  cases h with
  | zero =>
    obtain ⟨-, hl, -⟩ := hsp
    exact ⟨by simpa [Minimal, inorder] using hl, trivial⟩
  | succ h =>
    obtain ⟨A, d, hkids, hA, hd⟩ := hc
    obtain ⟨hk, hl, hr, hcs, hn⟩ := hsp
    have hrk : r.kids ≠ [] := by
      intro hnil
      have hlen := hs.2.1
      rw [hcs, hk, hnil] at hlen
      simp only [List.length_append, List.length_cons, List.length_nil] at hlen
      omega
    obtain ⟨B, e, hB⟩ : ∃ B e, r.kids = B ++ [e] :=
      ⟨_, _, (List.dropLast_append_getLast hrk).symm⟩
    rw [hcs, hB, ← List.append_assoc] at hkids
    obtain ⟨hA', hde⟩ := List.append_inj' hkids rfl
    obtain rfl : e = d := by simpa using hde
    have hlA : ∀ d ∈ l.kids, Minimal lo d := fun d hd => hA d (hA' ▸ List.mem_append_left _ hd)
    have hBA : ∀ d ∈ B, Minimal lo d := fun d hd => hA d (hA' ▸ List.mem_append_right _ hd)
    refine ⟨?_, B, e, hB, hBA, hd⟩
    have hsum := sum_of_minimal hlA
    rw [Minimal, inorder, length_weave, hl]
    rw [hn] at hsum
    calc lo + ((l.kids.map inorder).map List.length).sum + 1
        = ((l.kids.map inorder).map List.length).sum + (lo + 1) := by omega
      _ = (lo + 1) ^ (h + 1 + 1) := by rw [hsum]; ring

/-- Every key of the tree lies before the target, and medians are left behind. -/
def Before (cmp : α → Ordering) (right : α → Prop) (ks : List α) : Prop :=
  ∀ k ∈ ks, cmp k = .lt ∧ right k

theorem Visit.slim {P : BTree ν α h → BTree ν α h → List α → Prop} {A : List (BTree ν α h)}
    {K₁ ks ms : List α} {c : BTree ν α h} {cs : List (BTree ν α h)}
    (hv : Visit lo right P A [] K₁ [] c ks cs ms)
    (hP : ∀ {c c' : BTree ν α h} {ms : List α}, P c c' ms → Before cmp right c.inorder →
      c.Shaped lo → Slim lo c → Slim lo c')
    (hA : ∀ d ∈ A, Minimal lo d) (hb : Before cmp right c.inorder) (hs : c.Shaped lo)
    (hc : Slim lo c) : ∃ A' c', cs = A' ++ [c'] ∧ (∀ d ∈ A', Minimal lo d) ∧ Slim lo c' := by
  cases hv with
  | @whole c' _ _ hp => exact ⟨A, c', rfl, hA, hP hp hb hs hc⟩
  | @upper l r r' m _ hsp _ hp =>
    obtain ⟨hl, hr⟩ := hsp.slim hs hc
    refine ⟨A ++ [l], r', by simp, fun d hd => ?_, hP hp ?_ (hsp.shaped hs).2 hr⟩
    · rcases List.mem_append.mp hd with hd | hd
      · exact hA d hd
      · exact List.mem_singleton.mp hd ▸ hl
    · intro k hk
      exact hb k (by rw [hsp.inorder_eq]; simp [hk])
  | @lower l r l' m _ hsp hm _ =>
    exact absurd (hb m (by rw [hsp.inorder_eq]; simp)).2 hm

theorem not_replaced {ks ks' : List α} (hb : Before cmp right ks) : ¬ Replaced cmp x ks ks' := by
  rintro ⟨K₁, e, K₂, rfl, -, he, -⟩
  have := (hb e (by simp)).1
  rw [he] at this
  cases this

/-- Putting something behind all keys. -/
theorem Put.slim {t t' : BTree ν α h} {ms : List α} (hp : Put lo cmp right x t t' ms)
    (hb : Before cmp right t.inorder) (hs : t.Shaped lo) (ht : Slim lo t) : Slim lo t' := by
  induction h generalizing ms with
  | zero => trivial
  | succ h ih =>
    have hbk : Before cmp right t.keys := fun k hk => hb k (mem_inorder_of_mem_keys hk)
    rcases hp with ⟨-, hr, -⟩ | ⟨K₁, K₂, A, c, B, hk, hc, hA, hsp, hv⟩
    · exact absurd hr (not_replaced hbk)
    · obtain rfl : K₂ = [] := by
        cases K₂ with
        | nil => rfl
        | cons k K₂ =>
          have hgt := hsp.next k rfl
          rw [(hbk k (by simp [hk])).1] at hgt
          cases hgt
      obtain rfl : B = [] := by
        have hlen := hs.2.1
        rw [hc, hk, List.length_append, List.length_cons, List.append_nil, ← hA] at hlen
        exact List.eq_nil_of_length_eq_zero (by omega)
      obtain ⟨A', c', hkids, hmin, hslim⟩ := ht
      rw [hc] at hkids
      obtain ⟨rfl, hcc⟩ := List.append_inj' hkids rfl
      obtain rfl : c = c' := by simpa using hcc
      have hcm : c ∈ t.kids := by simp [hc]
      exact hv.slim (fun hp => ih hp) hmin (fun k hk => hb k (mem_inorder_of_mem_kids hcm hk))
        (hs.2.2 c hcm).2 hslim

theorem PutRoot.slim {t t' : Σ h, BTree ν α h} {ms : List α} (hp : PutRoot lo cmp right x t t' ms)
    (hb : Before cmp right t.2.inorder) (hs : t.2.Shaped lo) (ht : Slim lo t.2) : Slim lo t'.2 := by
  cases hp with
  | whole _ hp => exact hp.slim hb hs ht
  | split _ hv => exact hv.slim (fun hp => hp.slim) (by simp) hb hs ht

/-- The root of a tree that has children has a key. -/
def Rooted : {h : ℕ} → BTree ν α h → Prop
  | 0, _ => True
  | _ + 1, t => t.keys ≠ []

theorem Visit.keys_ne_nil_of_full {P : BTree ν α h → BTree ν α h → List α → Prop}
    {A B : List (BTree ν α h)} {K₁ K₂ : List α} {c : BTree ν α h} {ks : List α}
    {cs : List (BTree ν α h)} {ms : List α} (hv : Visit lo right P A B K₁ K₂ c ks cs ms)
    (hc : c.keys.length = 2 * lo + 1) : ks ≠ [] := by
  cases hv with
  | whole hn _ => omega
  | upper => simp
  | lower => simp

theorem PutRoot.rooted {t t' : Σ h, BTree ν α h} {ms : List α}
    (hp : PutRoot lo cmp right x t t' ms) (hs : t.2.Shaped lo) (ht : t.2.Rooted) : t'.2.Rooted := by
  cases hp with
  | @whole h t t' _ hn hp =>
    have hle := (hp.shaped hs hn).2
    cases h with
    | zero => trivial
    | succ h =>
      intro hnil
      have hnil : t'.keys = [] := hnil
      have ht : t.keys ≠ [] := ht
      rw [hnil, List.length_nil, Nat.le_zero, List.length_eq_zero_iff] at hle
      exact ht hle
  | split hn hv => exact hv.keys_ne_nil_of_full hn

/-- A tree with a key at its root and filled nodes below has at least `2 * (lo + 1) ^ h - 1`
keys. -/
theorem Rooted.pow_le {t : BTree ν α h} (hr : t.Rooted) (hs : t.Shaped lo) (hh : h ≠ 0) :
    2 * (lo + 1) ^ h ≤ t.inorder.length + 1 := by
  obtain ⟨h, rfl⟩ : ∃ k, h = k + 1 := ⟨h - 1, by omega⟩
  obtain ⟨-, hlen, hall⟩ := hs
  have hk : 0 < t.keys.length := List.length_pos_iff.mpr hr
  obtain ⟨c, d, cs, hcs⟩ : ∃ c d cs, t.kids = c :: d :: cs := by
    cases hcs : t.kids with
    | nil => simp [hcs] at hlen
    | cons c cs =>
      cases cs with
      | nil =>
        rw [hcs, List.length_singleton] at hlen
        omega
      | cons d cs => exact ⟨c, d, cs, rfl⟩
  have hc := pow_le_length_inorder (hall c (by simp [hcs])).2 (hall c (by simp [hcs])).1
  have hd := pow_le_length_inorder (hall d (by simp [hcs])).2 (hall d (by simp [hcs])).1
  rw [inorder, length_weave, hcs]
  simp only [List.map_cons, List.sum_cons]
  omega

end BTree

end Lite3.Tree
