import Lite3.Buffer.Walk
import Lite3.Layout.Entry

/-! # Reading entries back

The readers recompute the layout of an entry from its single tag byte. On a
readable entry they agree with the writer: the comparison sees the whole key,
and the value offset and the length found there are the ones written.
-/

namespace Lite3

open Bytes

theorem toNat_tag (n : ℕ) : ((UInt8.ofNat ((n + 1) <<< 2)) >>> 2).toNat = (n + 1) % 64 := by
  rw [UInt8.toNat_shiftRight, UInt8.toNat_ofNat', Nat.shiftLeft_eq, Nat.shiftRight_eq_div_pow]
  simp only [UInt8.reduceToNat, Nat.reduceMod]
  omega

theorem keyBytes_short {key : List UInt8} (h : key.length ≤ 62) :
    keyBytes false key = .ofNat ((key.length + 1) <<< 2) :: (key ++ [0]) := by
  simp [keyBytes, keyTagSize, show key.length < 64 by omega]

namespace Entry

/-- Memory `m` holds the bytes of the entry. -/
def Held (isArr : Bool) (e : Entry) (m : Mem) : Prop := At m e.ofs (e.bytes isArr)

variable {isArr : Bool} {e : Entry} {m : Mem} {o i : ℕ} {hash : UInt32} {key : List UInt8}

theorem Held.keyAt (h : e.Held isArr m) : At m e.ofs (keyBytes isArr e.key) := (at_append.mp h).1

theorem Held.valueAt (h : e.Held isArr m) :
    At m (e.valueOfs isArr) (valueBytes e.type e.val) := (at_append.mp h).2

theorem Held.tag (h : e.Held false m) (hr : e.Readable false) :
    (m e.ofs >>> 2).toNat = e.key.length + 1 := by
  have hk := h.keyAt
  rw [keyBytes_short hr.key, at_cons] at hk
  have hle : e.key.length ≤ 62 := hr.key
  rw [hk.1, toNat_tag, Nat.mod_eq_of_lt (by omega)]

theorem Held.storedKey (h : e.Held false m) (hr : e.Readable false) :
    Lite3.storedKey m e.ofs = e.key := by
  have hk := h.keyAt
  rw [keyBytes_short hr.key, at_cons, at_append] at hk
  have ht : ((m e.ofs >>> 2).toUInt32 - 1).toNat = e.key.length := by
    have := h.tag hr
    have hle := hr.key
    simp only [Bool.false_eq_true, if_false] at hle
    rw [UInt32.toNat_sub_of_le _ _ (UInt32.le_iff_toNat_le.mpr _)] <;>
      simp only [UInt8.toNat_toUInt32, UInt32.reduceToNat, this] <;> omega
  simp only [Lite3.storedKey, ht]
  exact hk.2.1

/-- The comparison orders a readable entry by hash and key. -/
theorem Held.compareNodeKey (h : e.Held isArr m) (hr : e.Readable isArr)
    (hh : NodeView.getHash m o i = e.hash) (ho : NodeView.getKvOffset m o i = e.ofs)
    (hkey : isArr = true → key = []) :
    Lite3.compareNodeKey m o i hash key isArr = e.cmp hash key := by
  have hc : compare e.hash hash =
      if e.hash < hash then .lt else if e.hash = hash then .eq else .gt := rfl
  rw [Lite3.compareNodeKey, Entry.cmp, hh, hc]
  by_cases h₁ : e.hash < hash
  · simp [h₁]
  by_cases h₂ : e.hash > hash
  · simp [h₁, h₂, show e.hash ≠ hash by rintro rfl; exact h₁ h₂]
  have he : e.hash = hash :=
    UInt32.le_antisymm (UInt32.not_lt.mp h₂) (UInt32.not_lt.mp h₁)
  rw [if_neg h₁, if_neg h₂, if_neg h₁, if_pos he, Ordering.eq_then]
  cases isArr with
  | true =>
    have hk := hr.key
    simp only [if_true] at hk
    rw [hk, hkey rfl]
    simp
  | false => rw [if_neg (by simp), ho, h.storedKey hr]

theorem Held.skipKey (h : e.Held isArr m) (hr : e.Readable isArr) :
    Buffer.skipKey m e.ofs isArr = e.valueOfs isArr := by
  rw [Buffer.skipKey, valueOfs]
  cases isArr with
  | true => simp [keyBytes]
  | false =>
    rw [if_neg (by simp), h.tag hr, keyBytes_short hr.key]
    simp; omega

theorem Held.valueOffset (h : e.Held isArr m) (hr : e.Readable isArr)
    (ho : NodeView.getKvOffset m o i = e.ofs) :
    Buffer.valueOffset m o i isArr = e.valueOfs isArr := by
  rw [Buffer.valueOffset, ho, h.skipKey hr]

theorem Held.type (h : e.Held isArr m) (hr : e.Readable isArr) :
    ValueType.ofCode (m (e.valueOfs isArr)) = e.type := by
  rw [(at_cons.mp h.valueAt).1, ValueType.ofCode_code hr.named]

theorem Held.existingTotalLen (h : e.Held isArr m) (hr : e.Readable isArr) :
    Buffer.existingTotalLen m (e.valueOfs isArr) = (valueBytes e.type e.val).length := by
  have hv := (at_cons.mp h.valueAt).2
  have hn := hr.named
  have hl := hr.val
  rw [Buffer.existingTotalLen, h.type hr]
  cases ht : e.type <;> rw [ht] at hv hl hn <;> simp only [valueBytes, ValOk] at hv hl ⊢
  case string | bytes =>
    simp only [if_true, or_true, true_or, at_append] at hv
    rw [load32_of_at hv.1, UInt32.toNat_ofNat_of_lt' hl]
    simp; try omega
  case other => exact hn.elim
  all_goals simp [hl]

theorem Held.payload (h : e.Held isArr m) (hr : e.Readable isArr) :
    Buffer.payload m e.type (e.valueOfs isArr + 1) = e.val := by
  have hv := (at_cons.mp h.valueAt).2
  have hn := hr.named
  have hl := hr.val
  unfold Buffer.payload
  cases ht : e.type <;> rw [ht] at hv hl hn <;> simp only [ValOk] at hv hl ⊢
  case string | bytes =>
    simp only [if_true, or_true, true_or, at_append, length_toLE] at hv
    rw [load32_of_at hv.1, UInt32.toNat_ofNat_of_lt' hl]
    exact hv.2.1
  case other => exact hn.elim
  all_goals
    first
    | exact (List.eq_nil_of_length_eq_zero hl).symm
    | simpa [At, hl, ht] using hv

end Entry

end Lite3
