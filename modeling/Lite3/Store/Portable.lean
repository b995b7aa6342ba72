import Lite3.Store.Lookup

/-! # The signedness of characters

The hash adds every character to an accumulator of 32 bits. A platform with
unsigned characters adds 256 more for each byte from 0x80 on than one with
signed characters, and a buffer is portable where these differences cancel.
-/

namespace Lite3

open Bytes Lite3.Tree

/-- `djb2_hash` on a platform where characters are unsigned -/
def djb2HashUnsigned (key : List UInt8) : UInt32 :=
  key.foldl (fun hash c => ((hash <<< 5) + hash) + c.toUInt32) 5381

/-- One for each byte from 0x80 on, times 33 for each byte behind it. -/
def highWeight (key : List UInt8) : ℕ :=
  key.foldl (fun w c => 33 * w + if 0x80 ≤ c then 1 else 0) 0

/-- The keyed lookup of a platform where characters are unsigned. -/
def Buffer.foundUnsigned (b : Buffer) (ofs : ℕ) (key : List UInt8) :
    Option (Option (ValueType × List UInt8)) :=
  (b.fetch ofs key (djb2HashUnsigned key) false).map fun found =>
    found.map fun (type, _, val) => (type, val)

/-- Where characters are unsigned every key has the value that was set. -/
def Portable (hist : List (List UInt8 × Scalar)) : Prop :=
  ∀ p ∈ hist, (Buffer.setAll hist).foundUnsigned 0 p.1 = some (some (p.2.type, p.2.image))

theorem unsigned_byte (c : UInt8) :
    c.toUInt32 = c.toInt8.toInt32.toUInt32 + 256 * if 0x80 ≤ c then 1 else 0 := by
  have h : ∀ n < 256, (UInt8.ofNat n).toUInt32 = (UInt8.ofNat n).toInt8.toInt32.toUInt32 +
      256 * if 0x80 ≤ UInt8.ofNat n then 1 else 0 := by decide +kernel
  simpa using h c.toNat c.toNat_lt

theorem shiftLeft_add (h : UInt32) : (h <<< 5) + h = 33 * h := by
  apply UInt32.toNat_inj.mp
  simp only [UInt32.toNat_add, UInt32.toNat_shiftLeft, UInt32.toNat_mul, UInt32.reduceToNat,
    Nat.shiftLeft_eq, Nat.reduceMod, Nat.reducePow]
  omega

theorem foldl_unsigned (key : List UInt8) (h : UInt32) (w : ℕ) :
    key.foldl (fun (hash : UInt32) c => ((hash <<< 5) + hash) + c.toUInt32)
        (h + 256 * UInt32.ofNat w) =
      key.foldl (fun (hash : UInt32) c => ((hash <<< 5) + hash) + c.toInt8.toInt32.toUInt32) h +
        256 * UInt32.ofNat (key.foldl (fun w c => 33 * w + if 0x80 ≤ c then 1 else 0) w) := by
  induction key generalizing h w with
  | nil => rfl
  | cons c key ih =>
    rw [List.foldl_cons, List.foldl_cons, List.foldl_cons, ← ih]
    congr 1
    simp only [shiftLeft_add, unsigned_byte c]
    have hw : UInt32.ofNat (33 * w + if 0x80 ≤ c then 1 else 0) =
        33 * UInt32.ofNat w + if 0x80 ≤ c then 1 else 0 := by
      rw [UInt32.ofNat_add, UInt32.ofNat_mul]
      split <;> rfl
    rw [hw]
    grind

theorem djb2HashUnsigned_eq (key : List UInt8) :
    djb2HashUnsigned key = djb2Hash key + 256 * .ofNat (highWeight key) := by
  have h := foldl_unsigned key 5381 0
  rwa [show (5381 : UInt32) + 256 * .ofNat 0 = 5381 from rfl] at h

/-- Both readings of characters give the same hash exactly when the weight of the high bytes fills
whole multiples of the 24 bits above the first byte. -/
theorem djb2Hash_eq_iff (key : List UInt8) :
    djb2HashUnsigned key = djb2Hash key ↔ 2 ^ 24 ∣ highWeight key := by
  have hz : djb2HashUnsigned key = djb2Hash key ↔ 256 * UInt32.ofNat (highWeight key) = 0 := by
    rw [djb2HashUnsigned_eq]
    constructor
    · intro h
      grind
    · intro h
      rw [h]
      grind
  rw [hz, ← UInt32.toNat_inj]
  simp only [UInt32.toNat_mul, UInt32.toNat_ofNat', UInt32.reduceToNat]
  omega

variable {b : Buffer} {c : Container} {l : Cell} {R : List Chunk} {key : List UInt8} {hash : UInt32}

theorem Mirrors.find_other (hm : Mirrors c l) (hne : hash ≠ djb2Hash key) :
    c.tree.find (Entry.cmp hash key) = none := by
  cases h : c.tree.find (Entry.cmp hash key) with
  | none => rfl
  | some e =>
    obtain ⟨he, hcmp⟩ := BTree.find_mem h
    obtain ⟨hh, hk⟩ := Prod.mk.inj (Entry.cmp_eq_eq_iff.mp hcmp)
    exact absurd (hh.symm.trans ((hm.hashed e he).trans (by rw [hk]))) hne

theorem Mirrors.foundUnsigned (hm : Mirrors c l) (ho : b.Owns (c.chunks ++ R))
    (hc : c.isArr = false)
    (hne : djb2HashUnsigned key ≠ djb2Hash key) : b.foundUnsigned c.ofs key = some none := by
  have h : b.fetch _ key (djb2HashUnsigned key) _ = _ := Container.fetch ho (by simp [hc])
  rw [hc, hm.find_other hne] at h
  unfold Buffer.foundUnsigned
  rw [h]
  rfl

/-- What is set where characters are signed is found where they are unsigned exactly when both
readings give every key the same hash. -/
theorem portable_iff (hist : List (List UInt8 × Scalar)) (hshort : ∀ p ∈ hist, p.1.length ≤ 62)
    (hnodup : (hist.map Prod.fst).Nodup) (hfin : (Buffer.setAll hist).usedSize < 2 ^ 32)
    (hok : Loop.Allowed Buffer.setRoot (fun b p => b.Uncrossed 0 p.1)
      Buffer.empty.initObject hist) : Portable hist ↔ ∀ p ∈ hist, 2 ^ 24 ∣ highWeight p.1 := by
  obtain ⟨c, ho, hm, hofs, hc⟩ := mirrors_of_uncrossed hshort hnodup hfin hok
  constructor
  · intro h p hp
    rw [← djb2Hash_eq_iff]
    by_contra hne
    have hnone := hm.foundUnsigned ho hc hne
    rw [hofs, h p hp] at hnone
    simp at hnone
  · intro h p hp
    have hfound := hm.found_lastSet ho hofs hc p.1
    rw [lastSet_of_nodup hnodup hp] at hfound
    unfold Buffer.foundUnsigned
    rw [(djb2Hash_eq_iff p.1).mpr (h p hp)]
    exact hfound

/-- A key of 40 bytes, 32 of them high. -/
def balancedKey : List UInt8 :=
  [233, 233, 233, 233, 233, 97, 97, 233, 233, 233, 233, 233, 97, 233, 233, 97, 233, 233, 233, 97,
    233, 233, 97, 233, 233, 233, 233, 97, 233, 233, 233, 233, 233, 97, 233, 233, 233, 233, 233, 233]

set_option maxRecDepth 10000 in
theorem portable_balanced : Portable [([97], .i64 3), (balancedKey, .str [66])] :=
  (portable_iff _ (by decide) (by decide +kernel) (by decide +kernel) (by decide +kernel)).mpr
    (by decide +kernel)

set_option maxRecDepth 10000 in
/-- A single high byte hides its key. -/
theorem high_byte_hidden : ¬ ∀ hist : List (List UInt8 × Scalar), (∀ p ∈ hist, p.1.length ≤ 62) →
    (hist.map Prod.fst).Nodup → Portable hist := by
  intro h
  have hlost := h [([233], .null)] (by decide) (by decide +kernel) ([233], .null) (by simp)
  revert hlost
  decide +kernel

end Lite3
