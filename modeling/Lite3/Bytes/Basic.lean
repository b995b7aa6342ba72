import Mathlib.Data.List.Basic
import Mathlib.Tactic.Ring
import Mathlib.Tactic.NormNum

/-! # Byte vectors

A vector of bytes is a list and a pointer into it is a function from addresses
to bytes. Overwriting replaces a run of bytes in place and never changes the
length; slices read a run back, and little-endian words are slices of fixed
length.
-/

namespace Lite3.Bytes

/-- Replace the bytes of `l` from position `o` on by `bs`, dropping what falls past the end. -/
def overwrite : List UInt8 → ℕ → List UInt8 → List UInt8
  | [], _, _ => []
  | x :: l, o + 1, bs => x :: overwrite l o bs
  | x :: l, 0, [] => x :: l
  | _ :: l, 0, b :: bs => b :: overwrite l 0 bs

/-- The bytes of `l` seen through a pointer to its first one; past the end it reads zero. -/
def view (l : List UInt8) (i : ℕ) : UInt8 := l.getD i 0

/-- The `n` bytes that a pointer sees from address `o` on. -/
def slice (m : ℕ → UInt8) : ℕ → ℕ → List UInt8
  | _, 0 => []
  | o, n + 1 => m o :: slice m (o + 1) n

/-- The `w` little-endian bytes of `n`, the higher ones dropped. -/
def toLE : ℕ → ℕ → List UInt8
  | 0, _ => []
  | w + 1, n => UInt8.ofNat n :: toLE w (n / 256)

/-- The number with the given little-endian bytes. -/
def ofLE : List UInt8 → ℕ
  | [] => 0
  | b :: bs => b.toNat + 256 * ofLE bs

variable {l xs ys bs : List UInt8} {m m' : ℕ → UInt8} {o n k i w : ℕ}

@[simp] theorem view_nil (i : ℕ) : view [] i = 0 := rfl
@[simp] theorem view_cons_zero (x : UInt8) (l : List UInt8) : view (x :: l) 0 = x := rfl
@[simp] theorem view_cons_succ (x : UInt8) (l : List UInt8) (i : ℕ) :
    view (x :: l) (i + 1) = view l i := rfl

theorem view_of_length_le (h : l.length ≤ i) : view l i = 0 := by
  simp [view, List.getD, List.getElem?_eq_none h]

theorem view_append (xs ys : List UInt8) (i : ℕ) :
    view (xs ++ ys) i = if i < xs.length then view xs i else view ys (i - xs.length) := by
  simp only [view, List.getD, List.getElem?_append]
  split <;> rfl

theorem view_replicate_zero (n i : ℕ) : view (List.replicate n 0) i = 0 := by
  simp only [view, List.getD, List.getElem?_replicate]
  split <;> rfl

theorem view_grow (l : List UInt8) (n i : ℕ) : view (l ++ List.replicate n 0) i = view l i := by
  rw [view_append, view_replicate_zero]
  split
  · rfl
  · exact (view_of_length_le (by omega)).symm

@[simp] theorem length_overwrite (l : List UInt8) (o : ℕ) (bs : List UInt8) :
    (overwrite l o bs).length = l.length := by
  fun_induction overwrite l o bs <;> simp_all

@[simp] theorem overwrite_nil (l : List UInt8) (o : ℕ) : overwrite l o [] = l := by
  induction l generalizing o with
  | nil => rfl
  | cons x l ih => cases o <;> simp [overwrite, ih]

theorem view_overwrite (l : List UInt8) (o : ℕ) (bs : List UInt8) (i : ℕ) :
    view (overwrite l o bs) i =
      if o ≤ i ∧ i < o + bs.length ∧ i < l.length then view bs (i - o) else view l i := by
  fun_induction overwrite l o bs generalizing i with
  | case1 o bs => simp
  | case2 x l o bs ih => cases i <;> simp [ih, Nat.add_right_comm]
  | case3 x l => simp
  | case4 y l b bs ih => cases i <;> simp [ih]

theorem overwrite_append (l : List UInt8) (o : ℕ) (xs ys : List UInt8) :
    overwrite (overwrite l o xs) (o + xs.length) ys = overwrite l o (xs ++ ys) := by
  fun_induction overwrite l o xs with
  | case1 o bs => simp [overwrite]
  | case2 x l o bs ih => simp [overwrite, Nat.add_right_comm, ih]
  | case3 x l => simp
  | case4 y l b bs ih => simpa [overwrite] using ih

theorem overwrite_front (h : bs.length ≤ l.length) :
    overwrite l 0 bs = bs ++ l.drop bs.length := by
  induction bs generalizing l with
  | nil => simp
  | cons b bs ih =>
    cases l with
    | nil => simp at h
    | cons x l => simp [overwrite, ih (by simpa using h)]

theorem overwrite_append_right (xs ys : List UInt8) (k : ℕ) (bs : List UInt8) :
    overwrite (xs ++ ys) (xs.length + k) bs = xs ++ overwrite ys k bs := by
  induction xs with
  | nil => simp
  | cons x xs ih =>
    rw [List.cons_append, List.length_cons, Nat.add_right_comm, overwrite, ih, List.cons_append]

@[simp] theorem length_slice (m : ℕ → UInt8) (o n : ℕ) : (slice m o n).length = n := by
  induction n generalizing o with
  | zero => rfl
  | succ n ih => simp [slice, ih]

theorem view_slice (m : ℕ → UInt8) (o : ℕ) (h : i < n) : view (slice m o n) i = m (o + i) := by
  induction n generalizing o i with
  | zero => omega
  | succ n ih =>
    cases i with
    | zero => rfl
    | succ i => rw [slice, view_cons_succ, ih _ (by omega)]; congr 1; omega

theorem slice_add (m : ℕ → UInt8) (o n k : ℕ) :
    slice m o (n + k) = slice m o n ++ slice m (o + n) k := by
  induction n generalizing o with
  | zero => simp [slice]
  | succ n ih =>
    rw [Nat.add_right_comm, slice, ih, slice, List.cons_append, Nat.add_right_comm o 1,
      Nat.add_assoc o n 1]

theorem slice_congr (h : ∀ i < n, m (o + i) = m' (o + i)) : slice m o n = slice m' o n := by
  induction n generalizing o with
  | zero => rfl
  | succ n ih =>
    rw [slice, slice, ih fun i hi => ?_]
    · congr 1; simpa using h 0 (by omega)
    · simpa [Nat.add_right_comm, Nat.add_assoc] using h (i + 1) (by omega)

theorem ext_view (hl : xs.length = ys.length) (h : ∀ i < xs.length, view xs i = view ys i) :
    xs = ys := by
  apply List.ext_getElem hl
  intro i hi hi'
  have := h i hi
  simpa [view, List.getD, List.getElem?_eq_getElem hi, List.getElem?_eq_getElem hi'] using this

theorem slice_view_self (l : List UInt8) : slice (view l) 0 l.length = l :=
  ext_view (by simp) fun i hi => by simpa using view_slice _ 0 (by simpa using hi)

theorem slice_of_slice (h : slice m o n = bs) (hk : k + w ≤ n) :
    slice m (o + k) w = slice (view bs) k w := by
  subst h
  apply ext_view (by simp)
  intro i hi
  rw [length_slice] at hi
  rw [view_slice _ _ hi, view_slice _ _ hi, view_slice _ _ (by omega), Nat.add_assoc]

theorem slice_append_left (h : k + w ≤ xs.length) :
    slice (view (xs ++ ys)) k w = slice (view xs) k w :=
  slice_congr fun i hi => by rw [view_append, if_pos (by omega)]

theorem slice_append_right (h : xs.length ≤ k) :
    slice (view (xs ++ ys)) k w = slice (view ys) (k - xs.length) w := by
  apply ext_view (by simp)
  intro i hi
  rw [length_slice] at hi
  rw [view_slice _ _ hi, view_slice _ _ hi, view_append, if_neg (by omega)]
  congr 1; omega

/-- The memory holds `bs` at `o`. -/
def At (m : ℕ → UInt8) (o : ℕ) (bs : List UInt8) : Prop := slice m o bs.length = bs

theorem at_nil (m : ℕ → UInt8) (o : ℕ) : At m o [] := rfl

theorem at_cons {x : UInt8} : At m o (x :: xs) ↔ m o = x ∧ At m (o + 1) xs :=
  List.cons.injEq .. ▸ .rfl

theorem at_append : At m o (xs ++ ys) ↔ At m o xs ∧ At m (o + xs.length) ys := by
  induction xs generalizing o with
  | nil => simp [at_nil]
  | cons x xs ih =>
    rw [List.cons_append, at_cons, at_cons, ih, List.length_cons, and_assoc,
      show o + 1 + xs.length = o + (xs.length + 1) by omega]

theorem slice_overwrite_of_disjoint (h : o + n ≤ k ∨ k + bs.length ≤ o) :
    slice (view (overwrite l k bs)) o n = slice (view l) o n :=
  slice_congr fun i hi => by rw [view_overwrite, if_neg (by omega)]

theorem slice_overwrite_of_inside (hl : o + n ≤ l.length) :
    slice (view (overwrite l (o + k) bs)) o n = overwrite (slice (view l) o n) k bs := by
  apply ext_view (by simp)
  intro i hi
  rw [length_slice] at hi
  rw [view_slice _ _ hi, view_overwrite, view_overwrite, length_slice, view_slice _ _ hi]
  by_cases h : k ≤ i ∧ i < k + bs.length
  · rw [if_pos (by omega), if_pos (by omega)]; congr 1; omega
  · rw [if_neg (by omega), if_neg (by omega)]

@[simp] theorem length_toLE (w n : ℕ) : (toLE w n).length = w := by
  induction w generalizing n with
  | zero => rfl
  | succ w ih => simp [toLE, ih]

theorem ofLE_toLE (w n : ℕ) : ofLE (toLE w n) = n % 256 ^ w := by
  induction w generalizing n with
  | zero => simp [toLE, ofLE, Nat.mod_one]
  | succ w ih =>
    rw [toLE, ofLE, ih, UInt8.toNat_ofNat', pow_succ' 256 w]
    exact Nat.mod_mul.symm

theorem toLE_mod (w n : ℕ) : toLE w (n % 256 ^ w) = toLE w n := by
  induction w generalizing n with
  | zero => rfl
  | succ w ih =>
    rw [toLE, toLE, pow_succ', Nat.mod_mul_right_div_self, ih]
    congr 1
    apply UInt8.toNat_inj.mp
    simp only [UInt8.toNat_ofNat', Nat.reducePow]
    exact Nat.mod_mul_right_mod n 256 _

end Lite3.Bytes
