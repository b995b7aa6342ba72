import Lite3.Tree.Put

/-! # The number of nodes

An insertion adds a node for every median that it promotes, and one more when
the root is split. As the nodes below the root are filled, a tree has at most
one of them for every `lo` keys.
-/

namespace Lite3.Tree

namespace BTree

variable {ν α : Type} {h lo : ℕ} {cmp : α → Ordering} {right : α → Prop} {x : α}

theorem length_labels_setRoot (l : ν) (ks : List α) :
    {h : ℕ} → (t : BTree ν α h) → (t.setRoot l ks).labels.length = t.labels.length
  | 0, _ => rfl
  | _ + 1, _ => rfl

theorem Splits.length_labels {t l r : BTree ν α h} {m : α} (hs : Splits lo t l m r) :
    l.labels.length + r.labels.length = t.labels.length + 1 := by
  cases h with
  | zero => rfl
  | succ h =>
    obtain ⟨-, -, -, hc, -⟩ := hs
    simp only [labels, hc, List.flatMap_append, List.length_cons, List.length_append]
    omega

theorem Visit.length_labels {P : BTree ν α h → BTree ν α h → List α → Prop}
    {A B : List (BTree ν α h)} {K₁ K₂ : List α} {c : BTree ν α h} {ks : List α}
    {cs : List (BTree ν α h)} {ms : List α}
    (hP : ∀ {c c' : BTree ν α h} {ms : List α}, P c c' ms →
      c'.labels.length = c.labels.length + ms.length)
    (hv : Visit lo right P A B K₁ K₂ c ks cs ms) :
    (cs.flatMap labels).length = ((A ++ c :: B).flatMap labels).length + ms.length := by
  simp only [List.flatMap_append, List.flatMap_cons, List.length_append]
  cases hv with
  | whole _ hp =>
    have := hP hp
    simp only [List.flatMap_append, List.flatMap_cons, List.length_append]
    omega
  | upper hs _ hp =>
    have := hP hp
    have := hs.length_labels
    simp only [List.flatMap_append, List.flatMap_cons, List.length_append, List.length_cons]
    omega
  | lower hs _ hp =>
    have := hP hp
    have := hs.length_labels
    simp only [List.flatMap_append, List.flatMap_cons, List.length_append, List.length_cons]
    omega

theorem Put.length_labels {t t' : BTree ν α h} {ms : List α} (hp : Put lo cmp right x t t' ms) :
    t'.labels.length = t.labels.length + ms.length := by
  induction h generalizing ms with
  | zero =>
    obtain ⟨rfl, -⟩ := hp
    rfl
  | succ h ih =>
    simp only [labels, List.length_cons]
    rcases hp with ⟨rfl, -, hc⟩ | ⟨K₁, K₂, A, c, B, -, hc, -, -, hv⟩
    · rw [hc]
      rfl
    · rw [hv.length_labels fun hp => ih hp, hc]
      omega

theorem PutRoot.length_labels {t t' : Σ h, BTree ν α h} {ms : List α}
    (hp : PutRoot lo cmp right x t t' ms) : t'.2.labels.length =
      t.2.labels.length + (ms.length + if t.2.keys.length = 2 * lo + 1 then 1 else 0) := by
  cases hp with
  | whole hn hp =>
    rw [if_neg hn.ne]
    exact hp.length_labels
  | split hn hv =>
    have hkids := hv.length_labels fun hp => hp.length_labels
    rw [if_pos hn]
    simp only [List.nil_append, List.flatMap_cons, List.flatMap_nil, List.append_nil] at hkids
    simp only [labels, List.length_cons, hkids]
    omega

theorem mul_length_labels_kids {ts : List (BTree ν α h)}
    (hts : ∀ t ∈ ts, lo * t.labels.length ≤ t.inorder.length) :
    lo * (ts.flatMap labels).length ≤ ((ts.map inorder).map List.length).sum := by
  induction ts with
  | nil => simp
  | cons t ts ih =>
    have hhead := hts t (by simp)
    have htail := ih fun u hu => hts u (by simp [hu])
    simp only [List.flatMap_cons, List.length_append, List.map_cons, List.sum_cons, Nat.mul_add]
    omega

/-- The keys pay for the nodes, those of the root aside. -/
theorem mul_length_labels_le {t : BTree ν α h} (hs : t.Shaped lo) :
    lo * t.labels.length + t.keys.length ≤ t.inorder.length + lo := by
  induction h with
  | zero => simp [labels, inorder, Nat.add_comm]
  | succ h ih =>
    have hkids : ∀ c ∈ t.kids, lo * c.labels.length ≤ c.inorder.length := by
      intro c hc
      obtain ⟨hfilled, hshaped⟩ := hs.2.2 c hc
      have := ih hshaped
      omega
    have hsum := mul_length_labels_kids hkids
    rw [inorder, length_weave, labels, List.length_cons, Nat.mul_succ]
    omega

theorem pow_height_le {t : BTree ν α h} (hs : t.Shaped lo) :
    (lo + 1) ^ h ≤ t.inorder.length + 1 := by
  cases h with
  | zero => simp
  | succ h =>
    obtain ⟨-, hlen, hall⟩ := hs
    obtain ⟨c, cs, hkids⟩ : ∃ c cs, t.kids = c :: cs :=
      List.exists_cons_of_ne_nil (by rw [← List.length_pos_iff, hlen]; omega)
    obtain ⟨hfilled, hshaped⟩ := hall c (by simp [hkids])
    have hpow := pow_le_length_inorder hshaped hfilled
    rw [inorder, length_weave, hkids]
    simp only [List.map_cons, List.sum_cons]
    omega

end BTree

end Lite3.Tree
