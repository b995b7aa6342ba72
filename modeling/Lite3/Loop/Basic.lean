import Mathlib.Data.List.Chain

/-! # Bounded loops

A loop is a step function that yields the next state or a result. Running it
with a bound on the number of iterations gives back the state it has reached
when the bound is spent.
-/

namespace Lite3.Loop

variable {σ ρ : Type*}

/-- Iterate `step` at most `n` times. -/
def run (step : σ → σ ⊕ ρ) : ℕ → σ → σ ⊕ ρ
  | 0, s => .inl s
  | n + 1, s =>
    match step s with
    | .inl s => run step n s
    | .inr r => .inr r

/-- The iterations that a run makes, at most `n` of them. -/
def rounds (step : σ → σ ⊕ ρ) : ℕ → σ → ℕ
  | 0, _ => 0
  | n + 1, s =>
    match step s with
    | .inl s => rounds step n s + 1
    | .inr _ => 1

/-- The states that a run makes its iterations from, at most `n` of them. -/
def visited (step : σ → σ ⊕ ρ) : ℕ → σ → List σ
  | 0, _ => []
  | n + 1, s =>
    s :: match step s with
    | .inl s => visited step n s
    | .inr _ => []

/-- What every iteration preserves holds of all states that iterations are made from. -/
theorem visited_invariant {step : σ → σ ⊕ ρ} {I : σ → Prop}
    (hstep : ∀ s t, I s → step s = .inl t → I t) (n : ℕ) {s : σ} (hs : I s) :
    ∀ t ∈ visited step n s, I t := by
  induction n generalizing s with
  | zero => simp [visited]
  | succ n ih =>
    intro t ht
    rw [visited, List.mem_cons] at ht
    rcases ht with rfl | ht
    · exact hs
    · cases h : step s with
      | inl u =>
        rw [h] at ht
        exact ih (hstep s u hs h) t ht
      | inr r =>
        rw [h] at ht
        cases ht

section Visited

variable {β : Type*} {R : β → β → Prop} {step : σ → σ ⊕ ρ} {f : σ → β} {g : σ ⊕ ρ → β}

theorem head?_visited (hg : ∀ s, g (.inl s) = f s) (n : ℕ) (s : σ) :
    ((visited step n s).map f ++ [g (run step n s)]).head? = some (f s) := by
  cases n with
  | zero => exact congrArg some (hg s)
  | succ n => rfl

theorem isChain_visited (hg : ∀ s, g (.inl s) = f s) (hstep : ∀ s, R (f s) (g (step s))) (n : ℕ)
    (s : σ) : ((visited step n s).map f ++ [g (run step n s)]).IsChain R := by
  induction n generalizing s with
  | zero => exact .singleton _
  | succ n ih =>
    have hs := hstep s
    rw [visited, run]
    cases h : step s with
    | inl t =>
      rw [h, hg] at hs
      rw [List.map_cons, List.cons_append, List.isChain_cons, head?_visited hg]
      exact ⟨by simpa using hs, ih t⟩
    | inr r =>
      rw [h] at hs
      simpa using hs

/-- What every iteration preserves holds of what a run comes to. -/
theorem run_invariant {I : σ ⊕ ρ → Prop} (hstep : ∀ s, I (.inl s) → I (step s)) (n : ℕ) {s : σ}
    (hs : I (.inl s)) : I (run step n s) := by
  induction n generalizing s with
  | zero => exact hs
  | succ n ih =>
    have hstep := hstep s hs
    rw [run]
    cases h : step s with
    | inl t =>
      rw [h] at hstep
      exact ih hstep
    | inr r =>
      rw [h] at hstep
      exact hstep

end Visited

section Guard

variable {ok : σ → Prop} [DecidablePred ok] {stop : σ → ρ} {step : σ → σ ⊕ ρ}

end Guard

end Lite3.Loop
