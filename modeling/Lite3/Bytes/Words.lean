import Mathlib.Logic.Function.Basic
import Lite3.Bytes.Basic

/-! # Little-endian words

Thirty-two-bit words are loaded from four bytes. An array of words is the
concatenation of their bytes, and storing a word at its place in the array is
an update of the array.
-/

namespace Lite3.Bytes

def load32 (m : ℕ → UInt8) (o : ℕ) : UInt32 := UInt32.ofNat (ofLE (slice m o 4))

def bytes32 (v : UInt32) : List UInt8 := toLE 4 v.toNat

/-- The bytes of the words `w k, …, w (k + n - 1)`. -/
def wordBytes (w : ℕ → UInt32) : ℕ → ℕ → List UInt8
  | _, 0 => []
  | k, n + 1 => bytes32 (w k) ++ wordBytes w (k + 1) n

variable {m : ℕ → UInt8} {w w' : ℕ → UInt32} {o n k j : ℕ} {v : UInt32}

@[simp] theorem length_bytes32 (v : UInt32) : (bytes32 v).length = 4 := length_toLE _ _

theorem ofNat_ofLE_bytes32 (v : UInt32) : UInt32.ofNat (ofLE (bytes32 v)) = v := by
  have hv : v.toNat < 256 ^ 4 := v.toNat_lt
  rw [bytes32, ofLE_toLE, Nat.mod_eq_of_lt hv, UInt32.ofNat_toNat]

theorem bytes32_ofNat (n : ℕ) : bytes32 (UInt32.ofNat n) = toLE 4 n := by
  rw [bytes32, UInt32.toNat_ofNat']
  exact toLE_mod 4 n

theorem load32_eq (h : slice m o 4 = bytes32 v) : load32 m o = v := by
  rw [load32, h, ofNat_ofLE_bytes32]

theorem load32_of_at (h : At m o (toLE 4 n)) : load32 m o = .ofNat n :=
  load32_eq (by rw [bytes32_ofNat]; simpa [At] using h)

@[simp] theorem length_wordBytes (w : ℕ → UInt32) (k n : ℕ) :
    (wordBytes w k n).length = 4 * n := by
  induction n generalizing k with
  | zero => rfl
  | succ n ih => simp [wordBytes, ih]; omega

theorem wordBytes_add (w : ℕ → UInt32) (k n j : ℕ) :
    wordBytes w k (n + j) = wordBytes w k n ++ wordBytes w (k + n) j := by
  induction n generalizing k with
  | zero => simp [wordBytes]
  | succ n ih =>
    rw [Nat.add_right_comm, wordBytes, ih, wordBytes, List.append_assoc,
      show k + 1 + n = k + (n + 1) by omega]

theorem wordBytes_congr (h : ∀ i < n, w (k + i) = w' (k + i)) :
    wordBytes w k n = wordBytes w' k n := by
  induction n generalizing k with
  | zero => rfl
  | succ n ih =>
    rw [wordBytes, wordBytes, ih fun i hi => ?_]
    · congr 2; simpa using h 0 (by omega)
    · simpa [Nat.add_right_comm, Nat.add_assoc] using h (i + 1) (by omega)

theorem wordBytes_zero (k n : ℕ) : wordBytes (fun _ => 0) k n = List.replicate (4 * n) 0 := by
  induction n generalizing k with
  | zero => rfl
  | succ n ih =>
    rw [wordBytes, ih, show 4 * (n + 1) = 4 + 4 * n by omega, List.replicate_add]
    rfl

theorem wordBytes_split (w : ℕ → UInt32) (h : k < n) :
    wordBytes w 0 n = wordBytes w 0 k ++ (bytes32 (w k) ++ wordBytes w (k + 1) (n - (k + 1))) := by
  conv_lhs => rw [show n = k + (1 + (n - (k + 1))) by omega, wordBytes_add, wordBytes_add]
  simp [wordBytes]

theorem slice_wordBytes (w : ℕ → UInt32) (h : k < n) :
    slice (view (wordBytes w 0 n)) (4 * k) 4 = bytes32 (w k) := by
  rw [wordBytes_split w h, slice_append_right (by simp), length_wordBytes, Nat.sub_self,
    slice_append_left (by simp)]
  simpa using slice_view_self (bytes32 (w k))

theorem load32_of_slice (h : slice m o (4 * n) = wordBytes w 0 n) (hk : k < n) :
    load32 m (o + 4 * k) = w k :=
  load32_eq (by rw [slice_of_slice h (by omega), slice_wordBytes w hk])

theorem view_wordBytes (w : ℕ → UInt32) (h : k < n) {i : ℕ} (hi : i < 4) :
    view (wordBytes w 0 n) (4 * k + i) = view (bytes32 (w k)) i := by
  rw [← slice_wordBytes w h, view_slice _ _ hi]

theorem overwrite_wordBytes (w : ℕ → UInt32) (h : k < n) (v : UInt32) :
    overwrite (wordBytes w 0 n) (4 * k) (bytes32 v) = wordBytes (Function.update w k v) 0 n := by
  apply ext_view (by simp)
  intro i hi
  rw [length_overwrite, length_wordBytes] at hi
  obtain ⟨j, r, hr, rfl⟩ : ∃ j r, r < 4 ∧ i = 4 * j + r := ⟨i / 4, i % 4, by omega, by omega⟩
  rw [view_overwrite, view_wordBytes _ (by omega) hr, view_wordBytes _ (by omega) hr,
    Function.update_apply]
  simp only [length_bytes32, length_wordBytes]
  by_cases hj : j = k
  · subst hj
    rw [if_pos (by omega), if_pos rfl]; congr 1; omega
  · rw [if_neg (by omega), if_neg hj]

end Lite3.Bytes
