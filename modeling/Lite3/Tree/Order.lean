import Lite3.Tree.Put

/-! # Insertion and the in-order sequence

Putting `x` into a tree changes the in-order sequence at one place. When what
lies before the target is closed to the left, what lies after it closed to the
right, and every promoted median was routed by the side it lies on, everything
in front of that place lies before the target and everything behind it after.
-/

namespace Lite3.Tree

variable {α : Type} {cmp : α → Ordering} {Lo Hi : α → Prop} {x : α}

/-- What lies before the target is closed to the left in the sequence, what lies after it to the
right. -/
def Cut (cmp : α → Ordering) (Lo Hi : α → Prop) (xs : List α) : Prop :=
  xs.Pairwise fun a b => (Lo b → Lo a) ∧ (Hi a → Hi b) ∧ (cmp b = .eq → Lo a) ∧
    (cmp a = .eq → Hi b)

/-- `x` is inserted into a sequence or replaces an element that compares equal, between what lies
before and what lies after the target. -/
inductive Changed (cmp : α → Ordering) (Lo Hi : α → Prop) (x : α) : List α → List α → Prop

  | insert (u v : List α) : (∀ y ∈ u, Lo y) → (∀ y ∈ v, Hi y) →
      Changed cmp Lo Hi x (u ++ v) (u ++ x :: v)

  | replace (u : List α) (e : α) (v : List α) : (∀ y ∈ u, Lo y) → (∀ y ∈ v, Hi y) →
      cmp e = .eq → Changed cmp Lo Hi x (u ++ e :: v) (u ++ x :: v)

theorem Changed.wrap {xs ys : List α} (hc : Changed cmp Lo Hi x xs ys) (p s : List α)
    (hp : ∀ y ∈ p, Lo y) (hs : ∀ y ∈ s, Hi y) :
    Changed cmp Lo Hi x (p ++ (xs ++ s)) (p ++ (ys ++ s)) := by
  cases hc with
  | insert u v hu hv =>
    have hc : Changed cmp Lo Hi x ((p ++ u) ++ (v ++ s)) ((p ++ u) ++ x :: (v ++ s)) :=
      .insert _ _ (fun y hy => (List.mem_append.mp hy).elim (hp y) (hu y))
        (fun y hy => (List.mem_append.mp hy).elim (hv y) (hs y))
    simpa using hc
  | replace u e v hu hv he =>
    have hc : Changed cmp Lo Hi x ((p ++ u) ++ e :: (v ++ s)) ((p ++ u) ++ x :: (v ++ s)) :=
      .replace _ _ _ (fun y hy => (List.mem_append.mp hy).elim (hp y) (hu y))
        (fun y hy => (List.mem_append.mp hy).elim (hv y) (hs y)) he
    simpa using hc

theorem Changed.mem {xs ys : List α} (hc : Changed cmp Lo Hi x xs ys) {y : α} (hy : y ∈ ys) :
    y = x ∨ y ∈ xs := by
  cases hc <;> simp only [List.mem_append, List.mem_cons] at hy ⊢ <;> tauto

theorem Changed.self_mem {xs ys : List α} (hc : Changed cmp Lo Hi x xs ys) : x ∈ ys := by
  cases hc <;> simp

theorem Changed.stays {xs ys : List α} (hc : Changed cmp Lo Hi x xs ys) {y : α} (hy : y ∈ xs) :
    y ∈ ys ∨ cmp y = .eq := by
  cases hc with
  | insert u v _ _ =>
    simp only [List.mem_append, List.mem_cons] at hy ⊢
    tauto
  | replace u e v _ _ he =>
    simp only [List.mem_append, List.mem_cons] at hy ⊢
    rcases hy with hy | rfl | hy
    · exact .inl (.inl hy)
    · exact .inr he
    · exact .inl (.inr (.inr hy))

theorem Changed.length_le {xs ys : List α} (hc : Changed cmp Lo Hi x xs ys) :
    ys.length ≤ xs.length + 1 := by
  cases hc <;> simp only [List.length_append, List.length_cons] <;> omega

theorem Changed.mem_iff {xs ys : List α}
    (hc : Changed cmp (cmp · = .lt) (cmp · = .gt) x xs ys) {y : α} :
    y ∈ ys ↔ y = x ∨ y ∈ xs ∧ cmp y ≠ .eq := by
  have key : ∀ {u v : List α}, (∀ y ∈ u, cmp y = .lt) → (∀ y ∈ v, cmp y = .gt) →
      ∀ y ∈ u ++ v, cmp y ≠ .eq := by
    intro u v hu hv y hy
    rcases List.mem_append.mp hy with hy | hy
    · simp [hu y hy]
    · simp [hv y hy]
  cases hc with
  | insert u v hu hv =>
    have := key hu hv y
    simp only [List.mem_append, List.mem_cons] at this ⊢
    tauto
  | replace u e v hu hv he =>
    have := key hu hv y
    simp only [List.mem_append, List.mem_cons] at this ⊢
    constructor
    · tauto
    · rintro (h | ⟨h | rfl | h, hn⟩)
      · tauto
      · tauto
      · exact absurd he hn
      · tauto

theorem Changed.eq_append {xs ys : List α}
    (hc : Changed cmp (cmp · = .lt) (cmp · = .gt) x xs ys) (hall : ∀ y ∈ xs, cmp y = .lt) :
    ys = xs ++ [x] := by
  cases hc with
  | insert u v hu hv =>
    cases v with
    | nil => simp
    | cons y v =>
      have := hall y (by simp)
      rw [hv y (by simp)] at this
      cases this
  | replace u e v hu hv he =>
    have := hall e (by simp)
    rw [he] at this
    cases this

theorem Changed.pairwise {R : α → α → Prop} {xs ys : List α} (hc : Changed cmp Lo Hi x xs ys)
    (hxs : xs.Pairwise R) (hlo : ∀ y, Lo y → R y x) (hhi : ∀ y, Hi y → R x y) :
    ys.Pairwise R := by
  have key : ∀ {u v : List α}, (∀ y ∈ u, Lo y) → (∀ y ∈ v, Hi y) → (u ++ v).Pairwise R →
      (u ++ x :: v).Pairwise R := by
    intro u v hu hv h
    rw [List.pairwise_append] at h ⊢
    refine ⟨h.1, List.pairwise_cons.mpr ⟨fun y hy => hhi y (hv y hy), h.2.1⟩, ?_⟩
    intro a ha b hb
    rcases List.mem_cons.mp hb with rfl | hb
    · exact hlo a (hu a ha)
    · exact h.2.2 a ha b hb
  cases hc with
  | insert u v hu hv => exact key hu hv hxs
  | replace u e v hu hv _ =>
    exact key hu hv (hxs.sublist ((List.sublist_cons_self e v).append_left u))

theorem Cut.left {xs ys : List α} (h : Cut cmp Lo Hi (xs ++ ys)) : Cut cmp Lo Hi xs :=
  (List.pairwise_append.mp h).1

theorem Cut.right {xs ys : List α} (h : Cut cmp Lo Hi (xs ++ ys)) : Cut cmp Lo Hi ys :=
  (List.pairwise_append.mp h).2.1

theorem Cut.tail {k : α} {ys : List α} (h : Cut cmp Lo Hi (k :: ys)) : Cut cmp Lo Hi ys :=
  (List.pairwise_cons.mp h).2

theorem Cut.lo {u v : List α} {k : α} (h : Cut cmp Lo Hi (u ++ k :: v)) (hk : Lo k ∨ cmp k = .eq) :
    ∀ y ∈ u, Lo y := by
  intro y hy
  have := (List.pairwise_append.mp h).2.2 y hy k (by simp)
  exact hk.elim this.1 this.2.2.1

theorem Cut.hi {u v : List α} {k : α} (h : Cut cmp Lo Hi (u ++ k :: v)) (hk : Hi k ∨ cmp k = .eq) :
    ∀ y ∈ v, Hi y := by
  intro y hy
  have := (List.pairwise_cons.mp (List.pairwise_append.mp h).2.1).1 y hy
  exact hk.elim this.2.1 this.2.2.2

theorem Cut.run {A : List (List α)} {K : List α} (h : Cut cmp Lo Hi (run A K))
    (hk : ∀ k ∈ K, Lo k) : ∀ y ∈ run A K, Lo y := by
  induction A generalizing K with
  | nil => simp [Tree.run]
  | cons a A ih =>
    cases K with
    | nil => simp [Tree.run]
    | cons k K =>
      rw [Tree.run] at h ⊢
      have hl := Cut.lo h (Or.inl (hk k (by simp)))
      have hr := ih (Cut.tail (Cut.right h)) (fun k' hk' => hk k' (by simp [hk']))
      intro y hy
      simp only [List.mem_append, List.mem_cons] at hy
      rcases hy with hy | rfl | hy
      · exact hl y hy
      · exact hk _ (by simp)
      · exact hr y hy

theorem Cut.rest {B : List (List α)} {K : List α} (h : Cut cmp Lo Hi (rest B K))
    (hB : B.length = K.length) (hk : ∀ k ∈ K.head?, Hi k) : ∀ y ∈ rest B K, Hi y := by
  cases K with
  | nil =>
    obtain rfl : B = [] := List.eq_nil_of_length_eq_zero hB
    simp [Tree.rest]
  | cons k K =>
    have hh : Hi k := hk k rfl
    intro y hy
    rcases List.mem_cons.mp hy with rfl | hy
    · exact hh
    · exact ((List.pairwise_cons.mp h).1 y hy).2.1 hh

namespace BTree

variable {ν : Type} {h lo : ℕ} {right : α → Prop}

theorem Replaced.changed {ks ks' : List α} (hr : Replaced cmp x ks ks') (hc : Cut cmp Lo Hi ks) :
    Changed cmp Lo Hi x ks ks' := by
  obtain ⟨K₁, e, K₂, rfl, -, he, rfl⟩ := hr
  exact .replace _ _ _ (hc.lo (Or.inr he)) (hc.hi (Or.inr he)) he

theorem Added.changed {ks ks' : List α} (ha : Added cmp x ks ks') (hc : Cut cmp Lo Hi ks)
    (hlo : ∀ a, cmp a = .lt → Lo a) (hhi : ∀ a, cmp a = .gt → Hi a) :
    Changed cmp Lo Hi x ks ks' := by
  obtain ⟨K₁, K₂, rfl, hs, rfl⟩ := ha
  refine .insert _ _ (fun y hy => hlo y (hs.before y hy)) (fun y hy => ?_)
  cases K₂ with
  | nil => simp at hy
  | cons k K₂ =>
    have hk := hhi k (hs.next k rfl)
    rcases List.mem_cons.mp hy with rfl | hy
    · exact hk
    · exact hc.hi (Or.inl hk) y hy

theorem Visit.changed {P : BTree ν α h → BTree ν α h → List α → Prop} {A B : List (BTree ν α h)}
    {K₁ K₂ : List α} {c : BTree ν α h} {ks : List α} {cs : List (BTree ν α h)} {ms : List α}
    (hP : ∀ {c c' : BTree ν α h} {ms : List α}, P c c' ms → c.Shaped lo →
      Cut cmp Lo Hi c.inorder → (∀ m ∈ ms, (right m → Lo m) ∧ (¬ right m → Hi m)) →
      Changed cmp Lo Hi x c.inorder c'.inorder)
    (hv : Visit lo right P A B K₁ K₂ c ks cs ms) (hs : c.Shaped lo) (hA : A.length = K₁.length)
    (hcut : Cut cmp Lo Hi (run (A.map inorder) K₁ ++ (c.inorder ++ rest (B.map inorder) K₂)))
    (hm : ∀ m ∈ ms, (right m → Lo m) ∧ (¬ right m → Hi m))
    (hp : ∀ y ∈ run (A.map inorder) K₁, Lo y) (hr : ∀ y ∈ rest (B.map inorder) K₂, Hi y) :
    Changed cmp Lo Hi x (run (A.map inorder) K₁ ++ (c.inorder ++ rest (B.map inorder) K₂))
      (weave (cs.map inorder) ks) := by
  have hc : Cut cmp Lo Hi c.inorder := hcut.right.left
  cases hv with
  | whole hn hpc =>
    rw [List.map_append, List.map_cons, weave_focus (by simpa using hA)]
    exact (hP hpc hs hc hm).wrap _ _ hp hr
  | @upper l r r' m ms hsp hright hpr =>
    have hi := hsp.inorder_eq
    rw [hi] at hc hcut
    have hlo : Lo m := (hm m (by simp)).1 hright
    have hch := (hP hpr (hsp.shaped hs).2 hc.right.tail fun m' hm' => hm m' (by simp [hm'])).wrap
      (run (A.map inorder) K₁ ++ (l.inorder ++ [m])) (rest (B.map inorder) K₂) ?_ hr
    · rw [hi, List.map_append, List.map_cons, weave_focus (by simpa using hA)]
      simpa [Tree.rest, weave_cons] using hch
    · intro y hy
      simp only [List.mem_append, List.mem_singleton] at hy
      rcases hy with hy | hy | rfl
      · exact hp y hy
      · exact hc.lo (Or.inl hlo) y hy
      · exact hlo
  | @lower l r l' m ms hsp hright hpl =>
    have hi := hsp.inorder_eq
    rw [hi] at hc hcut
    have hhi : Hi m := (hm m (by simp)).2 hright
    have hch := (hP hpl (hsp.shaped hs).1 hc.left fun m' hm' => hm m' (by simp [hm'])).wrap
      (run (A.map inorder) K₁) (m :: (r.inorder ++ rest (B.map inorder) K₂)) hp ?_
    · rw [hi, List.map_append, List.map_cons, weave_focus (by simpa using hA)]
      simpa [Tree.rest, weave_cons] using hch
    · intro y hy
      simp only [List.mem_cons, List.mem_append] at hy
      rcases hy with rfl | hy | hy
      · exact hhi
      · exact hc.hi (Or.inl hhi) y hy
      · exact hr y hy

/-- Putting into a tree changes its sequence at one place. -/
theorem Put.changed {t t' : BTree ν α h} {ms : List α} (hp : Put lo cmp right x t t' ms)
    (hlo : ∀ a, cmp a = .lt → Lo a) (hhi : ∀ a, cmp a = .gt → Hi a)
    (hs : t.Shaped lo) (hc : Cut cmp Lo Hi t.inorder)
    (hm : ∀ m ∈ ms, (right m → Lo m) ∧ (¬ right m → Hi m)) :
    Changed cmp Lo Hi x t.inorder t'.inorder := by
  induction h generalizing ms with
  | zero =>
    rcases hp with ⟨-, hr | ha⟩
    · exact hr.changed hc
    · exact ha.changed hc hlo hhi
  | succ h ih =>
    rcases hp with ⟨-, ⟨K₁, e, K₂, hk, -, he, hk'⟩, hcs⟩ | ⟨K₁, K₂, A, c, B, hk, hcs, hA, hsp, hv⟩
    · have hlen := hs.2.1
      rw [hk, List.length_append, List.length_cons] at hlen
      have hw : ∀ y, weave (t.kids.map inorder) (K₁ ++ y :: K₂) =
          weave ((t.kids.take (K₁.length + 1)).map inorder) K₁ ++
            y :: weave ((t.kids.drop (K₁.length + 1)).map inorder) K₂ := by
        intro y
        rw [← weave_halves (by simp; omega), ← List.map_append, List.take_append_drop]
      rw [inorder, hk, hw] at hc ⊢
      rw [inorder, hk', hcs, hw]
      exact .replace _ _ _ (hc.lo (Or.inr he)) (hc.hi (Or.inr he)) he
    · have hlen := hs.2.1
      rw [hk, hcs] at hlen
      simp only [List.length_append, List.length_cons] at hlen
      have he : t.inorder =
          run (A.map inorder) K₁ ++ (c.inorder ++ rest (B.map inorder) K₂) := by
        rw [inorder, hk, hcs, List.map_append, List.map_cons, weave_focus (by simpa using hA)]
      rw [he] at hc ⊢
      exact hv.changed (fun hp hs hc hm => ih hp hs hc hm)
        (hs.2.2 c (by simp [hcs])).2 hA hc hm
        (hc.left.run fun k hk => hlo k (hsp.before k hk))
        (hc.right.right.rest (by simp; omega) fun k hk => hhi k (hsp.next k hk))

theorem PutRoot.changed {t t' : Σ h, BTree ν α h} {ms : List α}
    (hp : PutRoot lo cmp right x t t' ms) (hlo : ∀ a, cmp a = .lt → Lo a)
    (hhi : ∀ a, cmp a = .gt → Hi a) (hs : t.2.Shaped lo) (hc : Cut cmp Lo Hi t.2.inorder)
    (hm : ∀ m ∈ ms, (right m → Lo m) ∧ (¬ right m → Hi m)) :
    Changed cmp Lo Hi x t.2.inorder t'.2.inorder := by
  cases hp with
  | whole _ hp => exact hp.changed hlo hhi hs hc hm
  | split _ hv =>
    have := hv.changed (fun hp hs hc hm => hp.changed hlo hhi hs hc hm) hs rfl
      (by simpa [Tree.run, Tree.rest] using hc) hm (by simp [Tree.run]) (by simp [Tree.rest])
    rw [inorder]
    simpa [Tree.run, Tree.rest] using this

theorem Visit.promoted_mem {P : BTree ν α h → BTree ν α h → List α → Prop}
    {A B : List (BTree ν α h)} {K₁ K₂ : List α} {c : BTree ν α h} {ks : List α}
    {cs : List (BTree ν α h)} {ms : List α}
    (hP : ∀ {c c' : BTree ν α h} {ms : List α}, P c c' ms → ∀ m ∈ ms, m ∈ c.inorder)
    (hv : Visit lo right P A B K₁ K₂ c ks cs ms) : ∀ m ∈ ms, m ∈ c.inorder := by
  cases hv with
  | whole _ hp => exact hP hp
  | upper hs _ hp =>
    intro m hm
    rw [hs.inorder_eq]
    rcases List.mem_cons.mp hm with rfl | hm
    · simp
    · simp [hP hp m hm]
  | lower hs _ hp =>
    intro m hm
    rw [hs.inorder_eq]
    rcases List.mem_cons.mp hm with rfl | hm
    · simp
    · simp [hP hp m hm]

theorem Put.promoted_mem {t t' : BTree ν α h} {ms : List α} (hp : Put lo cmp right x t t' ms) :
    ∀ m ∈ ms, m ∈ t.inorder := by
  induction h generalizing ms with
  | zero => simp [hp.1]
  | succ h ih =>
    rcases hp with ⟨rfl, -, -⟩ | ⟨K₁, K₂, A, c, B, -, hcs, -, -, hv⟩
    · simp
    · exact fun m hm => mem_inorder_of_mem_kids (by simp [hcs]) (hv.promoted_mem ih m hm)

/-- The promoted medians come from the tree. -/
theorem PutRoot.promoted_mem {t t' : Σ h, BTree ν α h} {ms : List α}
    (hp : PutRoot lo cmp right x t t' ms) : ∀ m ∈ ms, m ∈ t.2.inorder := by
  cases hp with
  | whole _ hp => exact hp.promoted_mem
  | split _ hv => exact hv.promoted_mem fun hp => hp.promoted_mem

theorem PutRoot.mem {t t' : Σ h, BTree ν α h} {ms : List α}
    (hp : PutRoot lo cmp right x t t' ms) (hs : t.2.Shaped lo) {y : α} (hy : y ∈ t'.2.inorder) :
    y = x ∨ y ∈ t.2.inorder := by
  have hc : Cut cmp (fun _ => True) (fun _ => True) t.2.inorder :=
    List.pairwise_iff_getElem.mpr fun _ _ _ _ _ => by simp
  exact (hp.changed (fun _ _ => trivial) (fun _ _ => trivial) hs hc (by simp)).mem hy

end BTree

end Lite3.Tree
