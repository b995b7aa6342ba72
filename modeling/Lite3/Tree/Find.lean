import Mathlib.Data.List.TakeWhile
import Lite3.Tree.Order

/-! # Lookup and the promoted medians

Lookup follows one path and returns the key that compares equal. On a sequence
that is strictly ordered around the target it finds what a linear search finds.
The medians that an insertion promotes are a function of the tree and the
target.
-/

namespace Lite3.Tree

variable {α : Type} {cmp : α → Ordering}

/-- The number of leading keys before the target. -/
def seek (cmp : α → Ordering) (ks : List α) : ℕ := (ks.takeWhile (cmp · = .lt)).length

/-- The key that the search among `ks` stops at, if it compares equal. -/
def hit (cmp : α → Ordering) (ks : List α) : Option α :=
  (ks[seek cmp ks]?).filter (cmp · = .eq)

theorem seek_le (cmp : α → Ordering) (ks : List α) : seek cmp ks ≤ ks.length :=
  (List.takeWhile_prefix _).length_le

theorem seek_append {K₁ K₂ : List α} (h₁ : ∀ k ∈ K₁, cmp k = .lt)
    (h₂ : ∀ k ∈ K₂.head?, cmp k ≠ .lt) : seek cmp (K₁ ++ K₂) = K₁.length := by
  rw [seek, List.takeWhile_append_of_pos (by simpa using h₁)]
  cases K₂ with
  | nil => simp
  | cons k K₂ => simp [h₂ k rfl]

theorem hit_append {K₁ K₂ : List α} (h₁ : ∀ k ∈ K₁, cmp k = .lt)
    (h₂ : ∀ k ∈ K₂.head?, cmp k ≠ .lt) : hit cmp (K₁ ++ K₂) = K₂.head?.filter (cmp · = .eq) := by
  rw [hit, seek_append h₁ h₂, List.getElem?_append_right le_rfl, Nat.sub_self,
    List.head?_eq_getElem?]

theorem exists_seek (cmp : α → Ordering) (ks : List α) :
    ∃ K₁ K₂, ks = K₁ ++ K₂ ∧ (∀ k ∈ K₁, cmp k = .lt) ∧ ∀ k ∈ K₂.head?, cmp k ≠ .lt := by
  refine ⟨ks.takeWhile (cmp · = .lt), ks.dropWhile (cmp · = .lt),
    List.takeWhile_append_dropWhile.symm, fun k hk => ?_, fun k hk => ?_⟩
  · simpa using List.mem_takeWhile_imp hk
  · have := List.head?_dropWhile_not (fun a => decide (cmp a = .lt)) ks
    rw [Option.mem_def] at hk
    simpa [hk] using this

/-- Strictly ordered around the target. -/
def Strict (cmp : α → Ordering) (xs : List α) : Prop :=
  xs.Pairwise fun a b => cmp a ≠ .lt → cmp b = .gt

theorem Strict.before {u v : List α} {k : α} (h : Strict cmp (u ++ k :: v)) (hk : cmp k ≠ .gt) :
    ∀ y ∈ u, cmp y = .lt := by
  intro y hy
  by_contra hn
  exact hk ((List.pairwise_append.mp h).2.2 y hy k (by simp) hn)

theorem Strict.after {u v : List α} {k : α} (h : Strict cmp (u ++ k :: v)) (hk : cmp k ≠ .lt) :
    ∀ y ∈ v, cmp y = .gt := by
  intro y hy
  exact (List.pairwise_cons.mp (List.pairwise_append.mp h).2.1).1 y hy hk

theorem Strict.cut {xs : List α} (h : Strict cmp xs) :
    Cut cmp (cmp · = .lt) (cmp · = .gt) xs := by
  refine h.imp fun {a b} hab => ⟨fun hb => ?_, fun ha => hab (by simp [ha]), fun hb => ?_,
    fun ha => hab (by simp [ha])⟩
  · by_contra hn; simp [hab hn] at hb
  · by_contra hn; simp [hab hn] at hb

theorem find?_eq_none_of_lt {xs : List α} (h : ∀ y ∈ xs, cmp y = .lt) :
    xs.find? (cmp · = .eq) = none := by
  simp only [List.find?_eq_none, decide_eq_true_eq]
  intro y hy; simp [h y hy]

theorem find?_eq_none_of_gt {xs : List α} (h : ∀ y ∈ xs, cmp y = .gt) :
    xs.find? (cmp · = .eq) = none := by
  simp only [List.find?_eq_none, decide_eq_true_eq]
  intro y hy; simp [h y hy]

theorem hit_eq_find? {ks : List α} (h : Strict cmp ks) :
    hit cmp ks = ks.find? (cmp · = .eq) := by
  obtain ⟨K₁, K₂, rfl, h₁, h₂⟩ := exists_seek cmp ks
  rw [hit_append h₁ h₂, List.find?_append, find?_eq_none_of_lt h₁, Option.none_or]
  cases K₂ with
  | nil => rfl
  | cons k K₂ =>
    have hk := h₂ k rfl
    by_cases he : cmp k = .eq
    · simp [he]
    · simp [he, find?_eq_none_of_gt (h.after hk)]

namespace BTree

variable {ν : Type} {h lo : ℕ}

def find (cmp : α → Ordering) : {h : ℕ} → BTree ν α h → Option α
  | 0, t => hit cmp t.keys
  | _ + 1, t => (hit cmp t.keys).or ((t.kids[seek cmp t.keys]?).bind (find cmp))

theorem hit_mem {ks : List α} {e : α} (he : hit cmp ks = some e) : e ∈ ks ∧ cmp e = .eq := by
  rw [hit, Option.filter_eq_some_iff] at he
  exact ⟨List.mem_of_getElem? he.1, by simpa using he.2⟩

theorem find_mem {t : BTree ν α h} {e : α} (he : t.find cmp = some e) :
    e ∈ t.inorder ∧ cmp e = .eq := by
  induction h with
  | zero => exact hit_mem he
  | succ h ih =>
    rw [find, Option.or_eq_some_iff] at he
    rcases he with he | ⟨-, he⟩
    · exact ⟨mem_inorder_of_mem_keys (hit_mem he).1, (hit_mem he).2⟩
    · obtain ⟨c, hc, he⟩ := Option.bind_eq_some_iff.mp he
      exact ⟨mem_inorder_of_mem_kids (List.mem_of_getElem? hc) (ih he).1, (ih he).2⟩

/-- Lookup is linear search. -/
theorem find_eq_find? {t : BTree ν α h} (hs : t.Shaped lo) (hst : Strict cmp t.inorder) :
    t.find cmp = t.inorder.find? (cmp · = .eq) := by
  induction h with
  | zero => exact hit_eq_find? hst
  | succ h ih =>
    obtain ⟨K₁, K₂, hk, h₁, h₂⟩ := exists_seek cmp t.keys
    have hlen := hs.2.1
    rw [hk, List.length_append] at hlen
    obtain ⟨A, c, B, hcs, hA⟩ : ∃ A c B, t.kids = A ++ c :: B ∧ A.length = K₁.length :=
      ⟨t.kids.take K₁.length, t.kids[K₁.length], t.kids.drop (K₁.length + 1), by simp,
        by simp; omega⟩
    rw [hcs] at hlen
    simp only [List.length_append, List.length_cons] at hlen
    have hi : t.inorder = run (A.map inorder) K₁ ++ (c.inorder ++ rest (B.map inorder) K₂) := by
      rw [inorder, hk, hcs, List.map_append, List.map_cons, weave_focus (by simpa using hA)]
    have hget : t.kids[seek cmp t.keys]? = some c := by
      rw [hk, seek_append h₁ h₂, hcs, ← hA]; simp
    rw [find, hget, hk, hit_append h₁ h₂, hi, List.find?_append]
    rw [hi] at hst
    have hrun := hst.cut.left.run h₁
    rw [find?_eq_none_of_lt hrun, Option.none_or, List.find?_append]
    have hst' : Strict cmp (c.inorder ++ rest (B.map inorder) K₂) :=
      (List.pairwise_append.mp hst).2.1
    cases K₂ with
    | nil =>
      obtain rfl : B = [] := List.eq_nil_of_length_eq_zero (by simp at hlen; omega)
      simpa [rest] using ih (hs.2.2 c (by simp [hcs])).2 (List.pairwise_append.mp hst').1
    | cons k K₂ =>
      have hk' := h₂ k rfl
      rw [rest] at hst' ⊢
      by_cases he : cmp k = .eq
      · have hb := hst'.before (by simp [he])
        simp [he, find?_eq_none_of_lt hb]
      · have hgt : cmp k = .gt := by cases hc : cmp k <;> simp_all
        have hall : ∀ y ∈ k :: weave (B.map inorder) K₂, cmp y = .gt := by
          intro y hy
          rcases List.mem_cons.mp hy with rfl | hy
          · exact hgt
          · exact hst'.after hk' y hy
        rw [find?_eq_none_of_gt hall, List.head?_cons, Option.filter_some,
          if_neg (by simpa using he)]
        simpa using ih (hs.2.2 c (by simp [hcs])).2 (List.pairwise_append.mp hst').1

theorem find_eq_some_iff {t : BTree ν α h} (hs : t.Shaped lo) (hst : Strict cmp t.inorder) {e : α} :
    t.find cmp = some e ↔ e ∈ t.inorder ∧ cmp e = .eq := by
  refine ⟨find_mem, fun ⟨he, hc⟩ => ?_⟩
  obtain ⟨u, v, huv⟩ := List.append_of_mem he
  rw [find_eq_find? hs hst, huv]
  rw [huv] at hst
  rw [List.find?_append, find?_eq_none_of_lt (hst.before (by simp [hc])), Option.none_or,
    List.find?_cons_of_pos (by simpa using hc)]

/-- The lower half of the keys and children. -/
def lower (lo : ℕ) : {h : ℕ} → BTree ν α h → BTree ν α h
  | 0, t => leaf t.label (t.keys.take lo)
  | _ + 1, t => inner t.label (t.keys.take lo) (t.kids.take (lo + 1))

/-- The upper half of the keys and children. -/
def upper (lo : ℕ) : {h : ℕ} → BTree ν α h → BTree ν α h
  | 0, t => leaf t.label (t.keys.drop (lo + 1))
  | _ + 1, t => inner t.label (t.keys.drop (lo + 1)) (t.kids.drop (lo + 1))

/-- The medians promoted below a node on the way to the target. -/
def promoted (lo : ℕ) (cmp : α → Ordering) (right : α → Bool) : {h : ℕ} → BTree ν α h → List α
  | 0, _ => []
  | _ + 1, t =>
    if (hit cmp t.keys).isSome then []
    else match t.kids[seek cmp t.keys]? with
      | none => []
      | some c =>
        match c.keys[lo]? with
        | some m =>
          if c.keys.length = 2 * lo + 1 then
            m :: promoted lo cmp right (if right m then c.upper lo else c.lower lo)
          else promoted lo cmp right c
        | none => promoted lo cmp right c

/-- The medians promoted by an insertion at the root. -/
def promotedRoot (lo : ℕ) (cmp : α → Ordering) (right : α → Bool) (t : BTree ν α h) : List α :=
  match t.keys[lo]? with
  | some m =>
    if t.keys.length = 2 * lo + 1 then
      m :: promoted lo cmp right (if right m then t.upper lo else t.lower lo)
    else promoted lo cmp right t
  | none => promoted lo cmp right t

theorem keys_lower {lo : ℕ} (t : BTree ν α h) : (t.lower lo).keys = t.keys.take lo := by
  cases h <;> rfl

theorem keys_upper {lo : ℕ} (t : BTree ν α h) : (t.upper lo).keys = t.keys.drop (lo + 1) := by
  cases h <;> rfl

theorem promoted_succ {right : α → Bool} (t : BTree ν α (h + 1)) :
    promoted lo cmp right t = if (hit cmp t.keys).isSome then []
      else (t.kids[seek cmp t.keys]?).elim [] (promotedRoot lo cmp right) := by
  rw [promoted]
  cases t.kids[seek cmp t.keys]? <;> rfl

theorem promoted_congr {right : α → Bool} : {h : ℕ} → {s t : BTree ν α (h + 1)} →
    s.keys = t.keys → s.kids = t.kids → promoted lo cmp right s = promoted lo cmp right t
  | _, _, _, hk, hc => by rw [promoted, promoted, hk, hc]

theorem Splits.promoted_left {right : α → Bool} {c l r : BTree ν α h} {m : α}
    (hs : Splits lo c l m r) : promoted lo cmp right (c.lower lo) = promoted lo cmp right l := by
  cases h with
  | zero => rfl
  | succ h =>
    obtain ⟨hk, hl, -, hc, hn⟩ := hs
    exact promoted_congr (by simp [lower, hk, ← hl]) (by simp [lower, hc, ← hn])

theorem Splits.promoted_right {right : α → Bool} {c l r : BTree ν α h} {m : α}
    (hs : Splits lo c l m r) : promoted lo cmp right (c.upper lo) = promoted lo cmp right r := by
  cases h with
  | zero => rfl
  | succ h =>
    obtain ⟨hk, hl, -, hc, hn⟩ := hs
    exact promoted_congr (by simp [upper, hk, ← hl]) (by simp [upper, hc, ← hn])

theorem mem_of_mem_lower {t : BTree ν α h} {m : α} (hm : m ∈ (t.lower lo).inorder) :
    m ∈ t.inorder := by
  cases h with
  | zero => exact List.mem_of_mem_take hm
  | succ h =>
    rcases mem_weave.mp hm with hm | ⟨c, hc, hm⟩
    · exact mem_weave.mpr (Or.inl (List.mem_of_mem_take hm))
    · obtain ⟨d, hd, rfl⟩ := List.mem_map.mp hc
      exact mem_inorder_of_mem_kids (List.mem_of_mem_take hd) hm

theorem mem_of_mem_upper {t : BTree ν α h} {m : α} (hm : m ∈ (t.upper lo).inorder) :
    m ∈ t.inorder := by
  cases h with
  | zero => exact List.mem_of_mem_drop hm
  | succ h =>
    rcases mem_weave.mp hm with hm | ⟨c, hc, hm⟩
    · exact mem_weave.mpr (Or.inl (List.mem_of_mem_drop hm))
    · obtain ⟨d, hd, rfl⟩ := List.mem_map.mp hc
      exact mem_inorder_of_mem_kids (List.mem_of_mem_drop hd) hm

theorem mem_of_mem_promoted {right : α → Bool} {t : BTree ν α h} {m : α} :
    (m ∈ promoted lo cmp right t → m ∈ t.inorder) ∧
      (m ∈ promotedRoot lo cmp right t → m ∈ t.inorder) := by
  have hroot : ∀ {h : ℕ}, (∀ u : BTree ν α h, m ∈ promoted lo cmp right u → m ∈ u.inorder) →
      ∀ u : BTree ν α h, m ∈ promotedRoot lo cmp right u → m ∈ u.inorder := by
    intro h hp u hm
    rw [promotedRoot] at hm
    split at hm
    · rename_i k hk
      split at hm
      · rcases List.mem_cons.mp hm with rfl | hm
        · exact mem_inorder_of_mem_keys (List.mem_of_getElem? hk)
        · split at hm
          · exact mem_of_mem_upper (hp _ hm)
          · exact mem_of_mem_lower (hp _ hm)
      · exact hp u hm
    · exact hp u hm
  have hprom : ∀ {h : ℕ} (u : BTree ν α h), m ∈ promoted lo cmp right u → m ∈ u.inorder := by
    intro h
    induction h with
    | zero => intro u hm; simp [promoted] at hm
    | succ h ih =>
      intro u hm
      rw [promoted_succ] at hm
      split at hm
      · simp at hm
      · cases hc : u.kids[seek cmp u.keys]? with
        | none => simp [hc] at hm
        | some c =>
          rw [hc] at hm
          exact mem_inorder_of_mem_kids (List.mem_of_getElem? hc) (hroot ih c hm)
  exact ⟨hprom t, hroot hprom t⟩

theorem promotedRoot_of_lt {right : α → Bool} {t : BTree ν α h} (hn : t.keys.length < 2 * lo + 1) :
    promotedRoot lo cmp right t = promoted lo cmp right t := by
  rw [promotedRoot]
  split
  · rw [if_neg hn.ne]
  · rfl

theorem promotedRoot_of_full {right : α → Bool} {t : BTree ν α h} {m : α}
    (hn : t.keys.length = 2 * lo + 1) (hm : t.keys[lo]? = some m) :
    promotedRoot lo cmp right t =
      m :: promoted lo cmp right (if right m then t.upper lo else t.lower lo) := by
  rw [promotedRoot, hm]
  exact if_pos hn

theorem Splits.median {c l r : BTree ν α h} {m : α} (hs : Splits lo c l m r) :
    c.keys[lo]? = some m ∧ c.keys.length = 2 * lo + 1 := by
  rw [hs.keys_eq]
  refine ⟨?_, ?_⟩
  · rw [← hs.length_left]; simp
  · simp [hs.length_left, hs.length_right]; omega

/-- A full tree splits into its halves, whatever their labels. -/
theorem splits_halves {c : BTree ν α h} {m : α} (hs : c.Shaped lo)
    (hn : c.keys.length = 2 * lo + 1) (hm : c.keys[lo]? = some m) (l₁ l₂ : ν) :
    Splits lo c ((c.lower lo).setRoot l₁ (c.lower lo).keys) m
      ((c.upper lo).setRoot l₂ (c.upper lo).keys) := by
  have hk : c.keys = c.keys.take lo ++ m :: c.keys.drop (lo + 1) := by
    obtain ⟨hl, rfl⟩ := List.getElem?_eq_some_iff.mp hm
    rw [← List.drop_eq_getElem_cons hl, List.take_append_drop]
  cases h with
  | zero => exact ⟨hk, by simp [lower]; omega, by simp [upper]; omega⟩
  | succ h =>
    have hl := hs.2.1
    exact ⟨hk, by simp [lower]; omega, by simp [upper]; omega,
      (List.take_append_drop _ _).symm, by simp [lower]; omega⟩

theorem Visit.promoted_eq {right : α → Bool} {P : BTree ν α h → BTree ν α h → List α → Prop}
    {A B : List (BTree ν α h)} {K₁ K₂ : List α} {c : BTree ν α h} {ks : List α}
    {cs : List (BTree ν α h)} {ms : List α}
    (hP : ∀ {c c' : BTree ν α h} {ms : List α}, P c c' ms → ms = promoted lo cmp right c)
    (hv : Visit lo (right · = true) P A B K₁ K₂ c ks cs ms) :
    ms = promotedRoot lo cmp right c := by
  cases hv with
  | whole hn hp =>
    rw [promotedRoot]
    cases c.keys[lo]? with
    | none => exact hP hp
    | some m => simpa [hn.ne] using hP hp
  | upper hsp hr hp =>
    simp [promotedRoot, hsp.median.1, hsp.median.2, hr, hsp.promoted_right, ← hP hp]
  | lower hsp hr hp =>
    simp [promotedRoot, hsp.median.1, hsp.median.2, hr, hsp.promoted_left, ← hP hp]

theorem Put.promoted_eq {right : α → Bool} {x : α} {t t' : BTree ν α h} {ms : List α}
    (hp : Put lo cmp (right · = true) x t t' ms) : ms = promoted lo cmp right t := by
  induction h generalizing ms with
  | zero => exact hp.1
  | succ h ih =>
    rcases hp with ⟨rfl, ⟨K₁, e, K₂, hk, h₁, he, -⟩, -⟩ | ⟨K₁, K₂, A, c, B, hk, hcs, hA, hsp, hv⟩
    · rw [promoted, hk, hit_append h₁ (by simp [he])]
      simp [he]
    · have hn : ∀ k ∈ K₂.head?, cmp k ≠ .lt := fun k hk => by simp [hsp.next k hk]
      have hh : hit cmp t.keys = none := by
        rw [hk, hit_append hsp.before hn]
        cases K₂ with
        | nil => rfl
        | cons k K₂ => simp [hsp.next k rfl]
      rw [promoted, hh, hk, seek_append hsp.before hn, hcs, ← hA]
      simpa [promotedRoot] using hv.promoted_eq (fun hp => ih hp)

theorem PutRoot.promoted_eq {right : α → Bool} {x : α} {t t' : Σ h, BTree ν α h} {ms : List α}
    (hp : PutRoot lo cmp (right · = true) x t t' ms) : ms = promotedRoot lo cmp right t.2 := by
  cases hp with
  | whole hn hp =>
    rw [promotedRoot]
    split <;> simp [hn.ne, hp.promoted_eq]
  | split hn hv => exact hv.promoted_eq (fun hp => hp.promoted_eq)

end BTree

end Lite3.Tree
