import Lite3.Tree.Find

/-! # The nodes that an insertion passes

An insertion passes one node on every level down to the key it meets or to a
leaf. Which nodes these are is a function of the tree and the target, like the
medians promoted on the way.
-/

namespace Lite3.Tree

namespace BTree

variable {ν α : Type} {cmp : α → Ordering} {right : α → Bool} {h lo : ℕ}

/-- The number of nodes passed from a node on that is not full. -/
def passed (lo : ℕ) (cmp : α → Ordering) (right : α → Bool) : {h : ℕ} → BTree ν α h → ℕ
  | 0, _ => 1
  | _ + 1, t =>
    if (hit cmp t.keys).isSome then 1
    else match t.kids[seek cmp t.keys]? with
      | none => 1
      | some c =>
        match c.keys[lo]? with
        | some m =>
          if c.keys.length = 2 * lo + 1 then
            1 + passed lo cmp right (if right m then c.upper lo else c.lower lo)
          else 1 + passed lo cmp right c
        | none => 1 + passed lo cmp right c

/-- The number of nodes passed from any node on; of a full one only half is passed. -/
def passedRoot (lo : ℕ) (cmp : α → Ordering) (right : α → Bool) (t : BTree ν α h) : ℕ :=
  match t.keys[lo]? with
  | some m =>
    if t.keys.length = 2 * lo + 1 then
      passed lo cmp right (if right m then t.upper lo else t.lower lo)
    else passed lo cmp right t
  | none => passed lo cmp right t

theorem passed_succ (t : BTree ν α (h + 1)) :
    passed lo cmp right t = if (hit cmp t.keys).isSome then 1
      else 1 + (t.kids[seek cmp t.keys]?).elim 0 (passedRoot lo cmp right) := by
  rw [passed]
  cases t.kids[seek cmp t.keys]? with
  | none => rfl
  | some c =>
    simp only [Option.elim_some, passedRoot]
    cases c.keys[lo]? with
    | none => rfl
    | some m => split_ifs <;> rfl

theorem passed_congr : {h : ℕ} → {s t : BTree ν α (h + 1)} → s.keys = t.keys → s.kids = t.kids →
    passed lo cmp right s = passed lo cmp right t
  | _, _, _, hk, hc => by rw [passed, passed, hk, hc]

theorem passed_setRoot (l : ν) (t : BTree ν α h) :
    passed lo cmp right (t.setRoot l t.keys) = passed lo cmp right t := by
  cases h with
  | zero => rfl
  | succ h => exact passed_congr (keys_setRoot _ _ _) (kids_setRoot _ _ _)

theorem passedRoot_setRoot (l : ν) (t : BTree ν α h) :
    passedRoot lo cmp right (t.setRoot l t.keys) = passedRoot lo cmp right t := by
  unfold passedRoot
  rw [keys_setRoot]
  cases h with
  | zero => rfl
  | succ h =>
    have hu : ∀ m, passed lo cmp right (if right m then upper lo (t.setRoot l t.keys)
        else lower lo (t.setRoot l t.keys)) =
          passed lo cmp right (if right m then t.upper lo else t.lower lo) := by
      intro m
      split
      · exact passed_congr (by simp [upper]) (by simp [upper])
      · exact passed_congr (by simp [lower]) (by simp [lower])
    simp only [hu, passed_setRoot]

theorem Splits.passed_left {c l r : BTree ν α h} {m : α} (hs : Splits lo c l m r) :
    passed lo cmp right (c.lower lo) = passed lo cmp right l := by
  cases h with
  | zero => rfl
  | succ h =>
    obtain ⟨hk, hl, -, hc, hn⟩ := hs
    exact passed_congr (by simp [lower, hk, ← hl]) (by simp [lower, hc, ← hn])

theorem Splits.passed_right {c l r : BTree ν α h} {m : α} (hs : Splits lo c l m r) :
    passed lo cmp right (c.upper lo) = passed lo cmp right r := by
  cases h with
  | zero => rfl
  | succ h =>
    obtain ⟨hk, hl, -, hc, hn⟩ := hs
    exact passed_congr (by simp [upper, hk, ← hl]) (by simp [upper, hc, ← hn])

theorem passedRoot_of_lt {t : BTree ν α h} (hn : t.keys.length < 2 * lo + 1) :
    passedRoot lo cmp right t = passed lo cmp right t := by
  rw [passedRoot]
  split
  · rw [if_neg hn.ne]
  · rfl

theorem passedRoot_of_full {t : BTree ν α h} {m : α} (hn : t.keys.length = 2 * lo + 1)
    (hm : t.keys[lo]? = some m) : passedRoot lo cmp right t =
      passed lo cmp right (if right m then t.upper lo else t.lower lo) := by
  rw [passedRoot, hm]
  exact if_pos hn

theorem Splits.passedRoot_eq {c l r : BTree ν α h} {m : α} (hs : Splits lo c l m r) :
    passedRoot lo cmp right c =
      if right m then passed lo cmp right r else passed lo cmp right l := by
  rw [passedRoot_of_full hs.median.2 hs.median.1]
  split
  · exact hs.passed_right
  · exact hs.passed_left

theorem passed_spot {t : BTree ν α (h + 1)} {K₁ K₂ : List α} {A B : List (BTree ν α h)}
    {c : BTree ν α h} (hk : t.keys = K₁ ++ K₂) (hcs : t.kids = A ++ c :: B)
    (hA : A.length = K₁.length) (hsp : Spot cmp K₁ K₂) :
    passed lo cmp right t = 1 + passedRoot lo cmp right c := by
  have hn : ∀ k ∈ K₂.head?, cmp k ≠ .lt := fun k hk => by simp [hsp.next k hk]
  have hh : hit cmp t.keys = none := by
    rw [hk, hit_append hsp.before hn]
    cases K₂ with
    | nil => rfl
    | cons k K₂ => simp [hsp.next k rfl]
  rw [passed_succ, hh, hk, seek_append hsp.before hn, hcs, ← hA]
  simp

theorem passed_hit {t : BTree ν α h} {K₁ K₂ : List α} {e : α} (hk : t.keys = K₁ ++ e :: K₂)
    (h₁ : ∀ k ∈ K₁, cmp k = .lt) (he : cmp e = .eq) : passed lo cmp right t = 1 := by
  cases h with
  | zero => rfl
  | succ h =>
    rw [passed_succ, hk, hit_append h₁ (by simp [he])]
    simp [he]

/-- A descent passes at most one node and promotes at most one median on every level. -/
theorem passed_le (t : BTree ν α h) :
    passed lo cmp right t ≤ h + 1 ∧ (promoted lo cmp right t).length ≤ h ∧
      passedRoot lo cmp right t ≤ h + 1 ∧ (promotedRoot lo cmp right t).length ≤ h + 1 := by
  have hroot : ∀ {h : ℕ}, (∀ u : BTree ν α h, passed lo cmp right u ≤ h + 1 ∧
      (promoted lo cmp right u).length ≤ h) → ∀ u : BTree ν α h,
      passedRoot lo cmp right u ≤ h + 1 ∧ (promotedRoot lo cmp right u).length ≤ h + 1 := by
    intro h hu u
    unfold passedRoot promotedRoot
    cases u.keys[lo]? with
    | none => exact ⟨(hu _).1, (hu _).2.trans (Nat.le_succ _)⟩
    | some m =>
      dsimp only
      split_ifs
      · exact ⟨(hu _).1, Nat.succ_le_succ (hu _).2⟩
      · exact ⟨(hu _).1, Nat.succ_le_succ (hu _).2⟩
      · exact ⟨(hu _).1, (hu _).2.trans (Nat.le_succ _)⟩
  have hall : ∀ {h : ℕ} (u : BTree ν α h), passed lo cmp right u ≤ h + 1 ∧
      (promoted lo cmp right u).length ≤ h := by
    intro h
    induction h with
    | zero => exact fun u => ⟨le_rfl, le_rfl⟩
    | succ h ih =>
      intro u
      rw [passed_succ, promoted_succ]
      split_ifs
      · exact ⟨by omega, Nat.zero_le _⟩
      · cases u.kids[seek cmp u.keys]? with
        | none => simp
        | some c =>
          have := hroot ih c
          simp only [Option.elim_some]
          omega
  exact ⟨(hall t).1, (hall t).2, hroot hall t⟩

end BTree

end Lite3.Tree
