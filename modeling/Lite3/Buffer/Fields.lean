import Mathlib.Data.Nat.Bitwise
import Lite3.Buffer.Node

/-! # The packed fields as numbers

Masks and shifts on a word are divisions and remainders, so what one setter
leaves of the fields is linear arithmetic.
-/

namespace Lite3

namespace ValueType

@[simp] theorem code_ofCode (c : UInt8) : (ofCode c).code = c := by
  unfold ofCode
  split <;> first | rfl | exact (UInt8.toNat_inj.mp (by assumption)).symm

/-- The type tags that the library writes. -/
def Named : ValueType → Prop
  | other _ => False
  | _ => True

@[simp] theorem ofCode_code {t : ValueType} (h : t.Named) : ofCode t.code = t := by
  cases t <;> first | rfl | exact h.elim

end ValueType

namespace Packed

open Config

theorem toNat_generation (w : UInt32) : (generation w).toNat = w.toNat / 256 := by
  have h := Nat.and_two_pow_sub_one_eq_mod (w.toNat >>> 8) 24
  simp only [generation, nodeGenMask, nodeGenShift, UInt32.toNat_shiftRight, UInt32.toNat_and,
    UInt32.reduceToNat, Nat.reduceMod, Nat.shiftRight_and_distrib, Nat.reduceShiftRight]
  simp only [Nat.reducePow, Nat.reduceSub] at h
  have := w.toNat_lt
  rw [h, Nat.shiftRight_eq_div_pow]
  omega

theorem type_eq (w : UInt32) : type w = .ofCode (UInt8.ofNat w.toNat) := by
  have h := Nat.and_two_pow_sub_one_eq_mod w.toNat 8
  simp only [Nat.reducePow, Nat.reduceSub] at h
  unfold type
  congr 1
  apply UInt8.toNat_inj.mp
  simp only [nodeTypeMask, nodeTypeShift, UInt32.toNat_toUInt8, UInt32.toNat_shiftRight,
    UInt32.toNat_and, UInt32.reduceToNat, Nat.reduceMod, Nat.shiftRight_zero, h,
    UInt8.toNat_ofNat', Nat.reducePow, Nat.mod_mod]

theorem toNat_size (w : UInt32) : (size w).toNat = w.toNat / 64 := by
  have h := Nat.and_two_pow_sub_one_eq_mod (w.toNat >>> 6) 26
  simp only [size, nodeSizeMask, nodeSizeShift, UInt32.toNat_shiftRight, UInt32.toNat_and,
    UInt32.reduceToNat, Nat.reduceMod, Nat.shiftRight_and_distrib, Nat.reduceShiftRight]
  simp only [Nat.reducePow, Nat.reduceSub] at h
  have := w.toNat_lt
  rw [h, Nat.shiftRight_eq_div_pow]
  omega

theorem keyCount_eq (w : UInt32) : keyCount w = w.toNat % 8 := by
  have h := Nat.and_two_pow_sub_one_eq_mod w.toNat 3
  simp only [Nat.reducePow, Nat.reduceSub] at h
  simp [keyCount, nodeKeyCountMask, nodeKeyCountShift, h]

theorem keyCount_le (w : UInt32) : keyCount w ≤ 7 := by rw [keyCount_eq]; omega

theorem toNat_low (k : ℕ) : (UInt32.ofNat k &&& nodeKeyCountMask).toNat = k % 8 := by
  have h := Nat.and_two_pow_sub_one_eq_mod (k % 2 ^ 32) 3
  simp only [Nat.reducePow, Nat.reduceSub] at h
  simp only [nodeKeyCountMask, UInt32.toNat_and, UInt32.toNat_ofNat', UInt32.reduceToNat,
    Nat.reducePow, h]
  omega

theorem or_eq_add {a b i : ℕ} (hb : b < 2 ^ i) : a * 2 ^ i ||| b = a * 2 ^ i + b := by
  rw [← Nat.shiftLeft_eq, Nat.shiftLeft_add_eq_or_of_lt hb]

theorem toNat_genType (gen : UInt32) (t : ValueType) :
    (genType gen t).toNat = gen.toNat % 2 ^ 24 * 2 ^ 8 + t.code.toNat := by
  have hc := t.code.toNat_lt
  have h := Nat.and_two_pow_sub_one_eq_mod t.code.toNat 8
  simp only [Nat.reducePow, Nat.reduceSub] at h
  rw [← or_eq_add hc]
  simp only [genType, nodeGenShift, nodeTypeMask, UInt32.toNat_or, UInt32.toNat_shiftLeft,
    UInt32.reduceToNat, Nat.reduceMod, UInt32.toNat_and, UInt8.toNat_toUInt32, h,
    Nat.shiftLeft_eq]
  congr 1 <;> omega

theorem toNat_sizeKc (s : UInt32) (k : ℕ) :
    (sizeKc s k).toNat = s.toNat % 2 ^ 26 * 2 ^ 6 + k % 8 := by
  rw [← or_eq_add (show k % 8 < 2 ^ 6 by omega)]
  simp only [sizeKc, nodeSizeShift, UInt32.toNat_or, UInt32.toNat_shiftLeft, UInt32.reduceToNat,
    Nat.reduceMod, toNat_low, Nat.shiftLeft_eq]
  congr 1; omega

theorem toNat_withKeyCount (w : UInt32) (k : ℕ) :
    (withKeyCount w k).toNat = w.toNat / 8 * 2 ^ 3 + k % 8 := by
  have hw : (w &&& ~~~nodeKeyCountMask).toNat = w.toNat / 8 * 2 ^ 3 := by
    have h := Nat.and_two_pow_sub_one_eq_mod (w.toNat >>> 3) 29
    have hs : (w.toNat &&& 4294967288) >>> 3 = w.toNat / 8 := by
      simp only [Nat.shiftRight_and_distrib, Nat.reduceShiftRight]
      simp only [Nat.reducePow, Nat.reduceSub] at h
      have := w.toNat_lt
      rw [h, Nat.shiftRight_eq_div_pow]; omega
    have hm : (w.toNat &&& 4294967288) % 8 = 0 := by
      have h7 := Nat.and_two_pow_sub_one_eq_mod (w.toNat &&& 4294967288) 3
      rw [Nat.and_assoc] at h7
      simpa using h7.symm
    simp only [nodeKeyCountMask, UInt32.toNat_and, UInt32.toNat_not, UInt32.reduceToNat]
    rw [Nat.shiftRight_eq_div_pow] at hs
    change w.toNat &&& 4294967288 = _
    omega
  rw [← or_eq_add (show k % 8 < 2 ^ 3 by omega), withKeyCount, UInt32.toNat_or, toNat_low, hw]

theorem toNat_withSize (w s : UInt32) :
    (withSize w s).toNat = s.toNat % 2 ^ 26 * 2 ^ 6 + w.toNat % 64 := by
  have hw : (w &&& ~~~nodeSizeMask).toNat = w.toNat % 64 := by
    have h := Nat.and_two_pow_sub_one_eq_mod w.toNat 6
    simp only [Nat.reducePow, Nat.reduceSub] at h
    rw [UInt32.toNat_and, show (~~~nodeSizeMask).toNat = 63 from rfl, h]
  have hs : ((s <<< nodeSizeShift) &&& nodeSizeMask).toNat = s.toNat % 2 ^ 26 * 2 ^ 6 := by
    have he : (s <<< nodeSizeShift).toNat = s.toNat % 2 ^ 26 * 2 ^ 6 := by
      simp only [nodeSizeShift, UInt32.toNat_shiftLeft, UInt32.reduceToNat, Nat.reduceMod,
        Nat.shiftLeft_eq]
      omega
    have h := Nat.and_two_pow_sub_one_eq_mod (s.toNat % 2 ^ 26) 26
    rw [UInt32.toNat_and, he, show nodeSizeMask.toNat = (2 ^ 26 - 1) * 2 ^ 6 from rfl,
      ← Nat.shiftLeft_eq, ← Nat.shiftLeft_eq, ← Nat.shiftLeft_and_distrib, h, Nat.mod_mod]
  rw [← or_eq_add (show w.toNat % 64 < 2 ^ 6 by omega), withSize, UInt32.toNat_or, hw, hs,
    Nat.lor_comm]

@[simp] theorem type_genType {gen : UInt32} {t : ValueType} (h : t.Named) :
    type (genType gen t) = t := by
  rw [type_eq, toNat_genType]
  convert ValueType.ofCode_code h
  apply UInt8.toNat_inj.mp
  have := t.code.toNat_lt
  simp only [UInt8.toNat_ofNat']
  omega

theorem toNat_generation_genType (gen : UInt32) (t : ValueType) :
    (generation (genType gen t)).toNat = gen.toNat % 2 ^ 24 := by
  have := t.code.toNat_lt
  rw [toNat_generation, toNat_genType]; omega

@[simp] theorem keyCount_withKeyCount {w : UInt32} {k : ℕ} (h : k ≤ 7) :
    keyCount (withKeyCount w k) = k := by
  rw [keyCount_eq, toNat_withKeyCount]; omega

@[simp] theorem size_withKeyCount (w : UInt32) (k : ℕ) : size (withKeyCount w k) = size w := by
  apply UInt32.toNat_inj.mp
  rw [toNat_size, toNat_size, toNat_withKeyCount]; omega

@[simp] theorem keyCount_sizeKc {s : UInt32} {k : ℕ} (h : k ≤ 7) : keyCount (sizeKc s k) = k := by
  rw [keyCount_eq, toNat_sizeKc]; omega

@[simp] theorem size_sizeKc_size (w : UInt32) (k : ℕ) : size (sizeKc (size w) k) = size w := by
  apply UInt32.toNat_inj.mp
  have := w.toNat_lt
  rw [toNat_size, toNat_sizeKc, toNat_size]; omega

@[simp] theorem keyCount_withSize (w s : UInt32) : keyCount (withSize w s) = keyCount w := by
  rw [keyCount_eq, keyCount_eq, toNat_withSize]; omega

theorem toNat_size_withSize (w s : UInt32) :
    (size (withSize w s)).toNat = s.toNat % 2 ^ 26 := by
  rw [toNat_size, toNat_withSize]; omega

end Packed

end Lite3
