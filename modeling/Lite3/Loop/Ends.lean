import Mathlib.Data.Fintype.Pigeonhole
import Mathlib.Logic.Relation
import Lite3.Loop.Basic

/-! # Loops that end

A loop ends after a number of rounds that its start determines. Where it visits
finitely many states, it ends unless it comes back to a state it has left.
-/

namespace Lite3.Loop

variable {σ ρ : Type*} {step : σ → σ ⊕ ρ} {s t : σ} {r r' : ρ} {n k : ℕ}

/-- The loop from `s` ends in its `n`-th round with result `r`. -/
inductive Ends (step : σ → σ ⊕ ρ) : σ → ℕ → ρ → Prop

  | stop {s : σ} {r : ρ} : step s = .inr r → Ends step s 1 r

  | next {s t : σ} {n : ℕ} {r : ρ} : step s = .inl t → Ends step t n r → Ends step s (n + 1) r

/-- The loop ends, and all states that rounds are made from have the property. -/
inductive EndsIn (P : σ → Prop) (step : σ → σ ⊕ ρ) : σ → ℕ → ρ → Prop

  | stop {s : σ} {r : ρ} : P s → step s = .inr r → EndsIn P step s 1 r

  | next {s t : σ} {n : ℕ} {r : ρ} : P s → step s = .inl t → EndsIn P step t n r →
      EndsIn P step s (n + 1) r

theorem EndsIn.ends {P : σ → Prop} (h : EndsIn P step s n r) : Ends step s n r := by
  induction h with
  | stop _ hs => exact .stop hs
  | next _ hs _ ih => exact .next hs ih

theorem EndsIn.visited {P : σ → Prop} (h : EndsIn P step s n r) (k : ℕ) :
    ∀ t ∈ visited step k s, P t := by
  induction h generalizing k with
  | stop hp hs =>
    cases k with
    | zero => simp [Loop.visited]
    | succ k => simpa [Loop.visited, hs] using hp
  | next hp hs _ ih =>
    cases k with
    | zero => simp [Loop.visited]
    | succ k =>
      rw [Loop.visited, hs, List.forall_mem_cons]
      exact ⟨hp, ih k⟩

theorem Ends.run (h : Ends step s n r) (hk : n ≤ k) : run step k s = .inr r := by
  induction h generalizing k with
  | stop hs =>
    obtain ⟨k, rfl⟩ := Nat.exists_eq_add_of_le' hk
    rw [Loop.run, hs]
  | next hs _ ih =>
    obtain ⟨k, rfl⟩ := Nat.exists_eq_add_of_le' ((Nat.le_add_left 1 _).trans hk)
    rw [Loop.run, hs]
    exact ih (by omega)

theorem Ends.rounds (h : Ends step s n r) (hk : n ≤ k) : rounds step k s = n := by
  induction h generalizing k with
  | stop hs =>
    obtain ⟨k, rfl⟩ := Nat.exists_eq_add_of_le' hk
    rw [Loop.rounds, hs]
  | next hs _ ih =>
    obtain ⟨k, rfl⟩ := Nat.exists_eq_add_of_le' ((Nat.le_add_left 1 _).trans hk)
    rw [Loop.rounds, hs]
    exact congrArg (· + 1) (ih (by omega))

theorem ends_of_run (h : run step k s = .inr r) : ∃ n ≤ k, Ends step s n r := by
  induction k generalizing s with
  | zero => simp [run] at h
  | succ k ih =>
    rw [run] at h
    cases hs : step s with
    | inl t =>
      rw [hs] at h
      obtain ⟨n, hn, ht⟩ := ih h
      exact ⟨n + 1, by omega, .next hs ht⟩
    | inr r' =>
      rw [hs] at h
      obtain rfl : r' = r := by simpa using h
      exact ⟨1, by omega, .stop hs⟩

theorem Ends.unique (h : Ends step s n r) (h' : Ends step s k r') : n = k ∧ r = r' := by
  induction h generalizing k with
  | stop hs =>
    cases h' with
    | stop hs' => exact ⟨rfl, by simpa [hs] using hs'⟩
    | next hs' _ => simp [hs] at hs'
  | next hs _ ih =>
    cases h' with
    | stop hs' => simp [hs] at hs'
    | next hs' ht' =>
      obtain rfl : _ = _ := by simpa [hs] using hs'
      obtain ⟨rfl, rfl⟩ := ih ht'
      exact ⟨rfl, rfl⟩

/-- A round goes on from `s` to `t`. -/
def Leads (step : σ → σ ⊕ ρ) (s t : σ) : Prop := step s = .inl t

/-- The loop comes back to a state it has left. -/
def Circles (step : σ → σ ⊕ ρ) (s : σ) : Prop :=
  ∃ t, Relation.ReflTransGen (Leads step) s t ∧ Relation.TransGen (Leads step) t t

theorem Ends.of_leads (h : Ends step s n r) (hl : Leads step s t) : ∃ k < n, Ends step t k r := by
  unfold Leads at hl
  cases h with
  | stop hs => simp [hl] at hs
  | next hs ht =>
    obtain rfl : _ = _ := by simpa [hl] using hs
    exact ⟨_, Nat.lt_succ_self _, ht⟩

theorem Ends.of_reach (h : Ends step s n r) (hr : Relation.ReflTransGen (Leads step) s t) :
    ∃ k ≤ n, Ends step t k r := by
  induction hr with
  | refl => exact ⟨n, le_rfl, h⟩
  | tail _ hl ih =>
    obtain ⟨k, hk, hu⟩ := ih
    obtain ⟨j, hj, ht⟩ := hu.of_leads hl
    exact ⟨j, by omega, ht⟩

theorem Ends.not_circles (h : Ends step s n r) : ¬ Circles step s := by
  rintro ⟨t, hr, hc⟩
  obtain ⟨k, -, hk⟩ := h.of_reach hr
  obtain ⟨u, hl, hu⟩ := Relation.TransGen.head'_iff.mp hc
  obtain ⟨j, hj, hv⟩ := hk.of_leads hl
  obtain ⟨i, hi, ht⟩ := hv.of_reach hu
  have := (hk.unique ht).1
  omega

theorem leads_of_run (h : run step n s = .inl t) {u : σ} (hu : run step (n + 1) s = .inl u) :
    Leads step t u := by
  induction n generalizing s with
  | zero =>
    obtain rfl : s = t := by simpa [run] using h
    rw [run] at hu
    cases hs : step s with
    | inl s' => simpa [hs, run, Leads] using hu
    | inr r => simp [hs] at hu
  | succ n ih =>
    rw [run] at h hu
    cases hs : step s with
    | inl s' =>
      rw [hs] at h hu
      exact ih h hu
    | inr r => simp [hs] at h

/-- A loop with finitely many states to go on to ends exactly when it does not circle. -/
theorem ends_iff {S : Set σ} (hS : S.Finite) (hl : ∀ s t, Leads step s t → t ∈ S) (s : σ) :
    (∃ n r, Ends step s n r) ↔ ¬ Circles step s := by
  refine ⟨fun ⟨n, r, h⟩ => h.not_circles, fun hc => ?_⟩
  by_contra hne
  have hrun : ∀ n, ∃ t, run step n s = .inl t := by
    intro n
    cases h : run step n s with
    | inl t => exact ⟨t, rfl⟩
    | inr r =>
      obtain ⟨k, -, hk⟩ := ends_of_run h
      exact absurd ⟨k, r, hk⟩ hne
  choose f hf using hrun
  have hnext : ∀ n, Leads step (f n) (f (n + 1)) := fun n => leads_of_run (hf n) (hf (n + 1))
  have hpath : ∀ i d, Relation.TransGen (Leads step) (f i) (f (i + d + 1)) := by
    intro i d
    induction d with
    | zero => exact .single (hnext i)
    | succ d ih => exact ih.tail (hnext _)
  -- two of the infinitely many rounds lead to the same state
  have := hS.to_subtype
  let g : ℕ → S := fun n => ⟨f (n + 1), hl _ _ (hnext n)⟩
  obtain ⟨i, j, hne, heq⟩ := Finite.exists_ne_map_eq_of_infinite g
  have heq : f (i + 1) = f (j + 1) := congrArg Subtype.val heq
  have hs : f 0 = s := by simpa [run] using (hf 0).symm
  have hcyc : ∀ i j, i < j → f (i + 1) = f (j + 1) → Circles step s := by
    intro i j hij he
    obtain ⟨d, rfl⟩ := Nat.exists_eq_add_of_lt hij
    have hi := hpath 0 i
    rw [hs, Nat.zero_add] at hi
    have ht := hpath (i + 1) d
    rw [show i + 1 + d + 1 = i + d + 1 + 1 by omega, ← he] at ht
    exact ⟨f (i + 1), hi.to_reflTransGen, ht⟩
  rcases lt_or_gt_of_ne hne with h | h
  · exact hc (hcyc i j h heq)
  · exact hc (hcyc j i h heq.symm)

end Lite3.Loop
