import Mathlib.Algebra.Group.Nat.Even
import Mathlib.Data.Int.ModEq
import Mathlib.Tactic.Ring
import Lite3.Ring.Basic

/-! # The hash of the ring against FNV-1a

A signed character of `0x80` or more is widened with ones, so that it inverts the
upper 56 bits of the hash. Two such inversions may cancel: what remains after a
byte string is computed from the low bytes of the hash alone.
-/

namespace Lite3

/-- The hash where characters are unsigned. -/
def fnv1a64Unsigned (s : List UInt8) : UInt64 :=
  s.foldl (fun hash c => (hash ^^^ c.toUInt64) * 1099511628211) 14695981039346656037

/-- The 64-bit FNV-1a hash. -/
def fnv1a (s : List UInt8) : ℕ :=
  s.foldl (fun hash c => (hash ^^^ c.toNat) * 1099511628211 % 2 ^ 64) 14695981039346656037

theorem fnv1a64_snoc (s : List UInt8) (c : UInt8) :
    fnv1a64 (s ++ [c]) = (fnv1a64 s ^^^ widen c) * 1099511628211 :=
  List.foldl_concat _ _ _ _

theorem fnv1a64Unsigned_snoc (s : List UInt8) (c : UInt8) :
    fnv1a64Unsigned (s ++ [c]) = (fnv1a64Unsigned s ^^^ c.toUInt64) * 1099511628211 :=
  List.foldl_concat _ _ _ _

theorem fnv1a_snoc (s : List UInt8) (c : UInt8) :
    fnv1a (s ++ [c]) = (fnv1a s ^^^ c.toNat) * 1099511628211 % 2 ^ 64 :=
  List.foldl_concat _ _ _ _

/-- How far the carry out of the low byte is from half the prime. -/
def carry (low : ℕ) : ℤ := (low * 1099511628211 / 256 : ℕ) - 549755814105

structure Drift where
  /-- After an odd number of bytes of `0x80` or more. -/
  odd : Bool
  low : ℕ
  sum : ℤ
  deriving DecidableEq

namespace Drift

def step (d : Drift) (c : UInt8) : Drift :=
  let odd := d.odd != decide (0x80 ≤ c)
  let low := d.low ^^^ c.toNat
  ⟨odd, low * 1099511628211 % 256, d.sum * 1099511628211 + if odd then carry low else 0⟩

def run (s : List UInt8) : Drift := s.foldl step ⟨false, 0x25, 0⟩

theorem run_snoc (s : List UInt8) (c : UInt8) : run (s ++ [c]) = (run s).step c := by
  simp [run]

theorem run_odd (s : List UInt8) : (run s).odd = false ↔ Even (s.countP fun c => 0x80 ≤ c) := by
  induction s using List.reverseRecOn with
  | nil => simp [run]
  | append_singleton s c ih =>
    rw [run_snoc, List.countP_append, List.countP_singleton]
    by_cases hc : 0x80 ≤ c
    · simp [step, hc, Nat.even_add_one, ← ih]
    · simpa [step, hc] using ih

theorem run_of_ascii {s : List UInt8} (h : ∀ c ∈ s, c < 0x80) :
    (run s).odd = false ∧ (run s).sum = 0 := by
  induction s using List.reverseRecOn with
  | nil => simp [run]
  | append_singleton s c ih =>
    have hc : ¬ 0x80 ≤ c := UInt8.not_le.mpr (h c (by simp))
    obtain ⟨ho, hs⟩ := ih fun a ha => h a (by simp [ha])
    rw [run_snoc]
    simp [step, ho, hs, hc]

end Drift

theorem xor_byte_div (x : ℕ) {c : ℕ} (hc : c < 256) : (x ^^^ c) / 256 = x / 256 := by
  have h := Nat.xor_div_two_pow (a := x) (b := c) (n := 8)
  rwa [Nat.div_eq_of_lt hc, Nat.xor_zero] at h

theorem xor_ones_div {x c : ℕ} (hx : x < 2 ^ 64) (hc : c < 256) :
    (x ^^^ (2 ^ 64 - 256 + c)) / 256 = 2 ^ 56 - 1 - x / 256 := by
  have h := Nat.xor_div_two_pow (a := x) (b := 2 ^ 64 - 256 + c) (n := 8)
  have ho : (2 ^ 64 - 256 + c) / 2 ^ 8 = 2 ^ 56 - 1 := by omega
  rw [ho] at h
  have hd : x / 256 < 2 ^ 56 := by omega
  have hn := congrArg BitVec.toNat (BitVec.xor_allOnes (x := BitVec.ofNat 56 (x / 256)))
  rw [BitVec.toNat_xor, BitVec.toNat_not, BitVec.toNat_allOnes, BitVec.toNat_ofNat,
    Nat.mod_eq_of_lt hd] at hn
  exact h.trans hn

theorem xor_byte_mod {x l c w : ℕ} (hx : x % 256 = l) (hw : w % 256 = c) :
    (x ^^^ w) % 256 = l ^^^ c := by
  subst hx hw
  exact Nat.xor_mod_two_pow (a := x) (b := w) (n := 8)

theorem mul_div_byte (x p : ℕ) :
    ((x * p % 2 ^ 64 / 256 : ℕ) : ℤ) ≡ (x / 256 : ℕ) * p + (x % 256 * p / 256 : ℕ)
      [ZMOD 2 ^ 56] := by
  have h := Nat.mod_mul_right_div_self (x * p) 256 (2 ^ 56)
  have hx : x * p = x % 256 * p + 256 * (x / 256 * p) := by
    conv_lhs => rw [← Nat.mod_add_div x 256]
    ring
  have hd : x * p / 256 = x / 256 * p + x % 256 * p / 256 := by
    conv_lhs => rw [hx, Nat.add_mul_div_left _ _ (by decide)]
    exact Nat.add_comm _ _
  have he : x * p % 2 ^ 64 / 256 ≡ x / 256 * p + x % 256 * p / 256 [MOD 2 ^ 56] := by
    rw [← hd]
    exact (congrArg (· % 2 ^ 56) h).trans (Nat.mod_mod _ _)
  exact_mod_cast Int.natCast_modEq_iff.mpr he

theorem mul_mod_byte {x l : ℕ} (p : ℕ) (hx : x % 256 = l) :
    x * p % 2 ^ 64 % 256 = l * p % 256 := by
  subst hx
  rw [Nat.mod_mod_of_dvd _ (by decide), Nat.mod_mul_mod]

theorem widen_toNat (c : UInt8) :
    (widen c).toNat = if 0x80 ≤ c then 2 ^ 64 - 256 + c.toNat else c.toNat := by
  have hw : (widen c).toNat = (c.toBitVec.signExtend 64).toNat := rfl
  have hm : c.toBitVec.msb = decide (0x80 ≤ c) := BitVec.msb_eq_decide _
  have hc := c.toNat_lt
  rw [hw, BitVec.toNat_signExtend, hm, BitVec.toNat_setWidth, UInt8.toNat_toBitVec]
  split_ifs with hm hh hh
  · omega
  · exact absurd (of_decide_eq_true hm) hh
  · exact absurd (decide_eq_true hh) hm
  · omega

/-- `g` is the hash with signed characters and `h` the reference: after an even number of
inversions the upper bits of `g` are off by the drift, after an odd number their inverse is. -/
structure Apart (g h : ℕ) (d : Drift) : Prop where
  fits : g < 2 ^ 64 ∧ h < 2 ^ 64
  low : g % 256 = d.low ∧ h % 256 = d.low
  upper : if d.odd then (g / 256 : ℕ) + (h / 256 : ℕ) + 1 ≡ 2 * d.sum [ZMOD 2 ^ 56]
    else (h / 256 : ℕ) - (g / 256 : ℕ) ≡ 2 * d.sum [ZMOD 2 ^ 56]

namespace Apart

variable {g h : ℕ} {d : Drift}

theorem xor (a : Apart g h d) (c : UInt8) :
    Apart (g ^^^ (widen c).toNat) (h ^^^ c.toNat)
      ⟨d.odd != decide (0x80 ≤ c), d.low ^^^ c.toNat, d.sum⟩ := by
  obtain ⟨hl, hl'⟩ := a.low
  have hc := c.toNat_lt
  have hu := a.upper
  constructor
  · exact ⟨Nat.xor_lt_two_pow a.fits.1 (widen c).toNat_lt, Nat.xor_lt_two_pow a.fits.2 (by omega)⟩
  · refine ⟨xor_byte_mod hl ?_, xor_byte_mod hl' (Nat.mod_eq_of_lt hc)⟩
    rw [widen_toNat]
    split <;> omega
  · rw [xor_byte_div _ hc, widen_toNat]
    by_cases hh : 0x80 ≤ c
    · have hg : ((g ^^^ (2 ^ 64 - 256 + c.toNat)) / 256 : ℕ) = (2 ^ 56 - 1 - g / 256 : ℕ) :=
        xor_ones_div a.fits.1 hc
      have hi : ((2 ^ 56 - 1 - g / 256 : ℕ) : ℤ) = 2 ^ 56 - 1 - (g / 256 : ℕ) := by
        have := a.fits.1
        omega
      simp only [hh, if_true, hg, hi, decide_true]
      cases ho : d.odd
      · simp only [ho, Bool.false_eq_true, if_false] at hu
        calc _ = (h / 256 : ℕ) - (g / 256 : ℕ) + (2 ^ 56 : ℤ) := by push_cast; ring
          _ ≡ _ [ZMOD 2 ^ 56] := by simpa using hu
      · simp only [ho, if_true] at hu
        calc _ = (g / 256 : ℕ) + (h / 256 : ℕ) + 1 - (2 ^ 56 : ℤ) := by push_cast; ring
          _ ≡ _ [ZMOD 2 ^ 56] := by simpa using hu
    · simpa [hh, xor_byte_div _ hc] using hu

theorem mul (a : Apart g h d) :
    Apart (g * 1099511628211 % 2 ^ 64) (h * 1099511628211 % 2 ^ 64)
      ⟨d.odd, d.low * 1099511628211 % 256,
        d.sum * 1099511628211 + if d.odd then carry d.low else 0⟩ := by
  obtain ⟨hl, hl'⟩ := a.low
  have hu := a.upper
  have hg := mul_div_byte g 1099511628211
  have hh := mul_div_byte h 1099511628211
  rw [hl] at hg
  rw [hl'] at hh
  constructor
  · constructor <;> exact Nat.mod_lt _ (by decide)
  · exact ⟨mul_mod_byte _ hl, mul_mod_byte _ hl'⟩
  · cases ho : d.odd
    · simp only [ho, Bool.false_eq_true, if_false] at hu ⊢
      calc _ ≡ _ [ZMOD 2 ^ 56] := hh.sub hg
        _ = ((h / 256 : ℕ) - (g / 256 : ℕ)) * 1099511628211 := by push_cast; ring
        _ ≡ 2 * d.sum * 1099511628211 [ZMOD 2 ^ 56] := hu.mul_right _
        _ = _ := by ring
    · simp only [ho, if_true] at hu ⊢
      calc _ ≡ _ [ZMOD 2 ^ 56] := (hg.add hh).add_right 1
        _ = ((g / 256 : ℕ) + (h / 256 : ℕ) + 1) * 1099511628211 + 2 * carry d.low := by
          unfold carry; push_cast; ring
        _ ≡ 2 * d.sum * 1099511628211 + 2 * carry d.low [ZMOD 2 ^ 56] :=
          (hu.mul_right _).add_right _
        _ = _ := by ring

theorem step (a : Apart g h d) (c : UInt8) :
    Apart ((g ^^^ (widen c).toNat) * 1099511628211 % 2 ^ 64)
      ((h ^^^ c.toNat) * 1099511628211 % 2 ^ 64) (d.step c) :=
  (a.xor c).mul

theorem eq_iff (a : Apart g h d) : g = h ↔ d.odd = false ∧ 2 ^ 55 ∣ d.sum := by
  have hu := a.upper
  obtain ⟨hg, hh⟩ := a.fits
  obtain ⟨hl, hl'⟩ := a.low
  cases ho : d.odd
  · simp only [ho, Bool.false_eq_true, if_false, Int.modEq_iff_dvd] at hu
    constructor
    · rintro rfl
      refine ⟨rfl, ?_⟩
      omega
    · rintro ⟨-, hs⟩
      omega
  · simp only [ho, if_true, Int.modEq_iff_dvd] at hu
    constructor
    · rintro rfl
      omega
    · rintro ⟨hf, -⟩
      cases hf

end Apart

/-- The hash with signed characters and the reference, over the whole string. -/
theorem apart (s : List UInt8) : Apart (fnv1a64 s).toNat (fnv1a s) (.run s) := by
  induction s using List.reverseRecOn with
  | nil =>
    simp only [fnv1a64, fnv1a, Drift.run, List.foldl_nil, UInt64.toNat_ofNat]
    constructor <;> simp
  | append_singleton s c ih =>
    rw [Drift.run_snoc, fnv1a64_snoc, fnv1a_snoc, UInt64.toNat_mul, UInt64.toNat_xor]
    exact ih.step c

theorem fnv1a64Unsigned_toNat (s : List UInt8) : (fnv1a64Unsigned s).toNat = fnv1a s := by
  induction s using List.reverseRecOn with
  | nil => exact UInt64.toNat_ofNat
  | append_singleton s c ih =>
    rw [fnv1a64Unsigned_snoc, fnv1a_snoc, UInt64.toNat_mul, UInt64.toNat_xor, ih,
      UInt8.toNat_toUInt64, UInt64.toNat_ofNat]

/-- The two platforms compute FNV-1a if the inversions cancel. -/
theorem fnv1a64_iff (s : List UInt8) :
    (fnv1a64 s).toNat = fnv1a s ∧ (fnv1a64Unsigned s).toNat = fnv1a s ↔
      Even (s.countP fun c => 0x80 ≤ c) ∧ 2 ^ 55 ∣ (Drift.run s).sum := by
  rw [(apart s).eq_iff, Drift.run_odd]
  exact and_iff_left (fnv1a64Unsigned_toNat s)

example : (fnv1a64 [0xA5, 0x80]).toNat = fnv1a [0xA5, 0x80] := by decide

theorem fnv1a64_of_ascii {s : List UInt8} (h : ∀ c ∈ s, c < 0x80) :
    (fnv1a64 s).toNat = fnv1a s := by
  obtain ⟨ho, hs⟩ := Drift.run_of_ascii h
  rw [(apart s).eq_iff, ho, hs]
  exact ⟨rfl, dvd_zero _⟩

theorem fnv1a64_of_odd {s : List UInt8} (h : Odd (s.countP fun c => 0x80 ≤ c)) :
    (fnv1a64 s).toNat ≠ fnv1a s := by
  rw [Ne, (apart s).eq_iff, Drift.run_odd]
  exact fun hs => Nat.not_even_iff_odd.mpr h hs.1

/-- `é` in UTF-8 -/
theorem fnv1a64_accent :
    (fnv1a64 [0xC3, 0xA9]).toNat ≠ fnv1a [0xC3, 0xA9] ∧
      fnv1a64 [0xC3, 0xA9] ≠ fnv1a64Unsigned [0xC3, 0xA9] := by
  decide

end Lite3
