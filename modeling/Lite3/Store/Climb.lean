import Lite3.Store.Stacks
import Lite3.Store.Portable
import Lite3.Tree.Ascending

/-! # Trees that outgrow the stacks

Keys set in ascending order of their hashes leave every node but the last of
its level with three keys. Such a tree reaches eleven levels with two and a half
million keys, which take less than 4 GiB.
-/

namespace Lite3

open Bytes Config Lite3.Tree

/-- The first `n` keys set to null. -/
def climb (key : ℕ → List UInt8) (n : ℕ) : List (List UInt8 × Scalar) :=
  (List.range n).map fun i => (key i, .null)

theorem climb_succ (key : ℕ → List UInt8) (n : ℕ) :
    climb key (n + 1) = climb key n ++ [(key n, .null)] := by
  simp [climb, List.range_succ]

/-- What is left of a history of `n` keys in ascending order. -/
structure Climbed (key : ℕ → List UInt8) (n : ℕ) (c : Container) : Prop where
  owns : (Buffer.setAll (climb key n)).Owns (c.chunks ++ [])
  object : c.isArr = false
  ofs : c.ofs = 0
  slim : BTree.Slim 3 c.tree
  rooted : BTree.Rooted c.tree
  length : c.entries.length = n
  hashes : ∀ e ∈ c.entries, ∃ i < n, e.hash = djb2Hash (key i)
  used : (Buffer.setAll (climb key n)).usedSize ≤ 96 + 1300 * n

variable {key : ℕ → List UInt8} {n : ℕ} {c : Container}

theorem Climbed.zero (key : ℕ → List UInt8) : Climbed key 0 (Container.empty false 0) where
  owns := setAll_start
  object := rfl
  ofs := rfl
  slim := trivial
  rooted := trivial
  length := rfl
  hashes := by simp
  used := show (Buffer.setAll []).usedSize ≤ 96 + 1300 * 0 by decide +kernel

theorem Climbed.height_le (h : Climbed key n c) (hn : n < 4000000) : c.height ≤ 10 := by
  by_contra hlt
  have hpow := h.rooted.pow_le c.shaped (by omega)
  have hmono : 4 ^ 11 ≤ 4 ^ c.height := Nat.pow_le_pow_right (by omega) (by omega)
  have hlen : c.tree.inorder.length = n := h.length
  simp only [Nat.reduceAdd, Nat.reducePow] at hpow hmono
  omega

/-- Setting one more key in front of which all others come. -/
theorem Climbed.step (h : Climbed key n c) (hn : n < 3000000) (hshort : (key n).length ≤ 62)
    (hasc : ∀ i < n, djb2Hash (key i) < djb2Hash (key n)) : ∃ c', Climbed key (n + 1) c' := by
  obtain ⟨ho, hc, hofs, hslim, hrooted, hlen, hhash, hused⟩ := id h
  have hheight := h.height_le (by omega)
  have hbefore : ∀ e ∈ c.entries, e.hash < djb2Hash (key n) := by
    intro e he
    obtain ⟨i, hi, heq⟩ := hhash e he
    exact heq ▸ hasc i hi
  have hsize : (setArgs (key n) Scalar.null.type Scalar.null.image).klen +
      (setArgs (key n) Scalar.null.type Scalar.null.image).valTotalLen ≤ 65 := by
    have htag : keyTagSize false (key n).length = 1 := by
      rw [keyTagSize, if_neg (by simp), if_pos (by omega)]
    simp only [SetArgs.klen, SetArgs.valTotalLen, setArgs, Scalar.type, Scalar.image, htag]
    simp
    omega
  have hfin := Container.usedSize_setImpl_lt ho
    (setArgs_writable hshort Scalar.null) hc.symm (by omega)
  rw [hofs] at hfin
  have hset : Buffer.setAll (climb key (n + 1)) =
      (Buffer.setAll (climb key n)).setScalar c.ofs (key n) .null := by
    rw [climb_succ, Buffer.setAll_concat, hofs]
    rfl
  obtain ⟨x, c', ms, hown, hup⟩ := Container.setScalar ho hc hshort .null (by rwa [hofs])
  rw [← hset] at hown hup
  have hent := hup.append hbefore
  have hms : ms.length ≤ c.height + 1 := by
    rw [show ms = c.tree.promotedRoot 3 _ _ from hup.put.promoted_eq]
    exact (c.tree.passed_le).2.2.2
  refine ⟨c', hown, hup.kind.trans hc, hup.ofs.trans hofs, ?_, ?_, ?_, ?_, ?_⟩
  · refine hup.put.slim (fun e he => ⟨Entry.cmp_lt_of_hash_lt (hbefore e he), ?_⟩) c.shaped hslim
    exact decide_eq_true (hbefore e he)
  · exact hup.put.rooted c.shaped hrooted
  · rw [hent, List.length_append, hlen, List.length_singleton]
  · intro e he
    rw [hent, List.mem_append, List.mem_singleton] at he
    rcases he with he | rfl
    · obtain ⟨i, hi, heq⟩ := hhash e he
      exact ⟨i, by omega, heq⟩
    · exact ⟨n, by omega, hup.hash_eq⟩
  · have hadd := hup.added
    rw [Added] at hadd
    split_ifs at hadd <;> omega

/-- Ascending histories of up to three million short keys. -/
theorem climbed (hshort : ∀ i < n, (key i).length ≤ 62) (hn : n ≤ 3000000)
    (hasc : ∀ i j, i < j → j < n → djb2Hash (key i) < djb2Hash (key j)) :
    ∃ c, Climbed key n c := by
  induction n with
  | zero => exact ⟨_, Climbed.zero key⟩
  | succ n ih =>
    obtain ⟨c, h⟩ := ih (fun i hi => hshort i (by omega)) (by omega)
      fun i j hij hj => hasc i j hij (by omega)
    exact h.step (by omega) (hshort n (by omega)) fun i hi => hasc i n hi (by omega)

theorem Climbed.lt_depth (h : Climbed key n c) (hn : 7 * 4 ^ 10 < 3 * n + 7) :
    10 < (Buffer.setAll (climb key n)).depth 0 := by
  have hle := h.slim.length_le c.shaped
  have hlen : c.tree.inorder.length = n := h.length
  have hd := Container.depth h.owns
  rw [h.ofs] at hd
  rw [hd]
  by_contra hlt
  have hmono : 4 ^ (c.height + 1) ≤ 4 ^ 10 := Nat.pow_le_pow_right (by omega) (by omega)
  simp only [Nat.reduceMul, Nat.reduceAdd, Nat.reducePow] at hle hmono hn
  omega

/-- The five digits of `n` to base 33 as letters, by which the hash counts. -/
def ascendingKey (n : ℕ) : List UInt8 :=
  [.ofNat (65 + n / 33 ^ 4 % 33), .ofNat (65 + n / 33 ^ 3 % 33), .ofNat (65 + n / 33 ^ 2 % 33),
    .ofNat (65 + n / 33 % 33), .ofNat (65 + n % 33)]

theorem hash_step {d : ℕ} (h : ℕ) (hd : d < 128) :
    ((UInt32.ofNat h <<< 5) + UInt32.ofNat h) + (UInt8.ofNat d).toInt8.toInt32.toUInt32 =
      UInt32.ofNat (33 * h + d) := by
  have hlow : ¬ 0x80 ≤ UInt8.ofNat d := by
    rw [UInt8.le_iff_toNat_le, UInt8.toNat_ofNat']
    simp
    omega
  have hbyte := unsigned_byte (UInt8.ofNat d)
  rw [if_neg hlow, UInt32.mul_zero, UInt32.add_zero] at hbyte
  rw [← hbyte, shiftLeft_add, UInt32.ofNat_add, UInt32.ofNat_mul]
  congr 1
  apply UInt32.toNat_inj.mp
  rw [UInt8.toNat_toUInt32, UInt8.toNat_ofNat', UInt32.toNat_ofNat']
  omega

theorem toNat_djb2Hash_ascendingKey {n : ℕ} (hn : n < 33 ^ 5) :
    (djb2Hash (ascendingKey n)).toNat = 213645994 + n := by
  unfold djb2Hash ascendingKey
  rw [show (5381 : UInt32) = .ofNat 5381 from rfl]
  simp only [List.foldl_cons, List.foldl_nil]
  rw [hash_step _ (by omega), hash_step _ (by omega), hash_step _ (by omega),
    hash_step _ (by omega), hash_step _ (by omega), UInt32.toNat_ofNat']
  have h₁ : n = 33 * (n / 33) + n % 33 := (Nat.div_add_mod n 33).symm
  have h₂ : n / 33 = 33 * (n / 33 ^ 2) + n / 33 % 33 := by omega
  have h₃ : n / 33 ^ 2 = 33 * (n / 33 ^ 3) + n / 33 ^ 2 % 33 := by omega
  have h₄ : n / 33 ^ 3 = 33 * (n / 33 ^ 4) + n / 33 ^ 3 % 33 := by omega
  have h₅ : n / 33 ^ 4 % 33 = n / 33 ^ 4 := by omega
  rw [h₅]
  generalize n / 33 ^ 4 = q₄ at *
  generalize n / 33 ^ 3 % 33 = r₃ at *
  generalize n / 33 ^ 2 % 33 = r₂ at *
  generalize n / 33 % 33 = r₁ at *
  generalize n % 33 = r₀ at *
  omega

theorem djb2Hash_ascendingKey_lt {i j : ℕ} (hij : i < j) (hj : j < 33 ^ 5) :
    djb2Hash (ascendingKey i) < djb2Hash (ascendingKey j) := by
  rw [UInt32.lt_iff_toNat_lt, toNat_djb2Hash_ascendingKey (by omega),
    toNat_djb2Hash_ascendingKey hj]
  omega

set_option maxRecDepth 10000 in
/-- A full root of two levels is split on the way to the new key. -/
theorem stacks_suffice_split : StacksSuffice (fullRoot ++ [([8], .null)]) :=
  (stacks_suffice_iff _ (by decide) (by decide +kernel)).mpr (by decide +kernel)

/-- The stacks do not suffice for the tree of 2446676 ascending keys. -/
theorem stacks_outgrown : ¬ ∀ hist : List (List UInt8 × Scalar), (∀ p ∈ hist, p.1.length ≤ 62) →
    (Buffer.setAll hist).usedSize < 2 ^ 32 → StacksSuffice hist := by
  intro h
  have hshort : ∀ i < 2446676, (ascendingKey i).length ≤ 62 := fun i _ => by simp [ascendingKey]
  have hasc : ∀ i j, i < j → j < 2446676 →
      djb2Hash (ascendingKey i) < djb2Hash (ascendingKey j) := fun i j hij hj =>
    djb2Hash_ascendingKey_lt hij (by omega)
  obtain ⟨c, hc⟩ := climbed hshort (by omega) hasc
  have hused := hc.used
  have hall := h (climb ascendingKey 2446676) (fun p hp => ?_) (by omega)
  · have hlevels := hall.levels _ List.prefix_rfl
    have hdepth := hc.lt_depth (by omega)
    simp only [treeHeightMax] at hlevels
    omega
  · obtain ⟨i, -, rfl⟩ := List.mem_map.mp hp
    simp [ascendingKey]

end Lite3
