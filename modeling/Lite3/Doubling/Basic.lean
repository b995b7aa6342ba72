import Mathlib.Data.List.Chain
import Mathlib.Tactic.Ring

/-! # Lengths that double

A vector that is moved to a larger place at least doubles its length. So what
is copied on all moves together is less than what the vector ends with, and it
is moved no more often than its length can double.
-/

namespace Lite3.Doubling

/-- The length stays, or the vector moves. -/
def Doubles (m n : ℕ) : Prop := n = m ∨ 2 * m ≤ n

/-- What is copied: the lengths that are moved away from. -/
def copied : List ℕ → ℕ
  | m :: n :: ns => (if n = m then 0 else m) + copied (n :: ns)
  | _ => 0

/-- How often the vector moves. -/
def moves : List ℕ → ℕ
  | m :: n :: ns => (if n = m then 0 else 1) + moves (n :: ns)
  | _ => 0

variable {m : ℕ} {ns : List ℕ}

theorem copied_le (h : (m :: ns).IsChain Doubles) :
    copied (m :: ns) + m ≤ (m :: ns).getLast (by simp) := by
  induction ns generalizing m with
  | nil => simp [copied]
  | cons n ns ih =>
    obtain ⟨hgrows, hrest⟩ := List.isChain_cons_cons.mp h
    have hle := ih hrest
    rw [List.getLast_cons_cons, copied]
    rcases hgrows with rfl | hdouble
    · simpa using hle
    · split_ifs <;> omega

theorem mul_two_pow_moves_le (h : (m :: ns).IsChain Doubles) :
    m * 2 ^ moves (m :: ns) ≤ (m :: ns).getLast (by simp) := by
  induction ns generalizing m with
  | nil => simp [moves]
  | cons n ns ih =>
    obtain ⟨hgrows, hrest⟩ := List.isChain_cons_cons.mp h
    have hle := ih hrest
    rw [List.getLast_cons_cons, moves]
    rcases hgrows with rfl | hdouble
    · simpa using hle
    · split_ifs with heq
      · simpa [heq] using hle
      · calc m * 2 ^ (1 + moves (n :: ns)) = 2 * m * 2 ^ moves (n :: ns) := by ring
          _ ≤ n * 2 ^ moves (n :: ns) := Nat.mul_le_mul_right _ hdouble
          _ ≤ _ := hle

end Lite3.Doubling
