import Mathlib.Data.List.Basic

/-! # Runs of allowed actions

A system takes one action after another. A run is allowed when every action is
allowed in the state it is taken in, and what every allowed action preserves
holds at the end of the run.
-/

namespace Lite3.Loop

variable {σ α : Type*} {step : σ → α → σ} {ok ok' : σ → α → Prop} {s : σ} {as bs : List α}

/-- Every action is allowed in the state it is taken in. -/
def Allowed (step : σ → α → σ) (ok : σ → α → Prop) : σ → List α → Prop
  | _, [] => True
  | s, a :: as => ok s a ∧ Allowed step ok (step s a) as

instance Allowed.decidable [∀ s a, Decidable (ok s a)] :
    (s : σ) → (as : List α) → Decidable (Allowed step ok s as)
  | _, [] => instDecidableTrue
  | s, a :: as => @instDecidableAnd _ _ _ (Allowed.decidable (step s a) as)

theorem allowed_append : Allowed step ok s (as ++ bs) ↔
    Allowed step ok s as ∧ Allowed step ok (as.foldl step s) bs := by
  induction as generalizing s with
  | nil => simp [Allowed]
  | cons a as ih => simp [Allowed, ih, and_assoc]

theorem allowed_iff :
    Allowed step ok s as ↔ ∀ bs a, bs ++ [a] <+: as → ok (bs.foldl step s) a := by
  induction as generalizing s with
  | nil => simp [Allowed]
  | cons a as ih =>
    rw [Allowed, ih]
    constructor
    · rintro ⟨ha, hall⟩ bs b hb
      cases bs with
      | nil =>
        obtain ⟨rfl, -⟩ := List.cons_prefix_cons.mp hb
        exact ha
      | cons c bs =>
        obtain ⟨rfl, hbs⟩ := List.cons_prefix_cons.mp hb
        exact hall bs b hbs
    · intro h
      exact ⟨h [] a (by simp), fun bs b hb => h (a :: bs) b (List.cons_prefix_cons.mpr ⟨rfl, hb⟩)⟩

/-- An invariant of the allowed actions holds after every allowed run. -/
theorem Allowed.invariant {I : σ → Prop} (h : Allowed step ok s as) (hs : I s)
    (hstep : ∀ s a, I s → ok s a → I (step s a)) : I (as.foldl step s) := by
  induction as generalizing s with
  | nil => exact hs
  | cons a as ih => exact ih h.2 (hstep s a hs h.1)

end Lite3.Loop
