import Lite3.Layout.Node

/-! # Writing into nodes

Inserting into a leaf and updating an entry, on buffers that own the node and
on the keys that the node fits. An update either rewrites the value in place or
points the slot at a new entry at the end of the used bytes.
-/

namespace Lite3

open Bytes

namespace Buffer

@[simp] theorem usedSize_setGenType (b : Buffer) (o : ℕ) (gen : UInt32) (t : ValueType) :
    (b.setGenType o gen t).usedSize = b.usedSize := rfl

@[simp] theorem usedSize_setSize (b : Buffer) (o : ℕ) (s : UInt32) :
    (b.setSize o s).usedSize = b.usedSize := rfl

@[simp] theorem usedSize_setSizeKc (b : Buffer) (o : ℕ) (s : UInt32) (k : ℕ) :
    (b.setSizeKc o s k).usedSize = b.usedSize := rfl

@[simp] theorem usedSize_setKeyCount (b : Buffer) (o k : ℕ) :
    (b.setKeyCount o k).usedSize = b.usedSize := rfl

@[simp] theorem usedSize_setHash (b : Buffer) (o i : ℕ) (v : UInt32) :
    (b.setHash o i v).usedSize = b.usedSize := rfl

@[simp] theorem usedSize_setKvOffset (b : Buffer) (o i v : ℕ) :
    (b.setKvOffset o i v).usedSize = b.usedSize := rfl

@[simp] theorem usedSize_setChildOffset (b : Buffer) (o i v : ℕ) :
    (b.setChildOffset o i v).usedSize = b.usedSize := rfl

@[simp] theorem usedSize_clear (b : Buffer) (o n : ℕ) : (b.clear o n).usedSize = b.usedSize := rfl

@[simp] theorem usedSize_writeValue (b : Buffer) (vo : ℕ) (t : ValueType) (val : List UInt8) :
    (b.writeValue vo t val).usedSize = b.usedSize := by
  rw [writeValue_eq, usedSize_write]

end Buffer

/-- The leaf after an insertion at slot `i`. -/
def Block.insert (B : Block) (i : ℕ) (hash : UInt32) (ofs : ℕ) : Block :=
  (((B.shiftEntries i B.keyCount).setHash i hash).setKvOffset i ofs).setKeyCount (B.keyCount + 1)

namespace Buffer

variable {b : Buffer} {B : Block} {R : List Chunk} {a : SetArgs} {i j n : ℕ}

theorem Owns.moveEntry (xs ys : List Chunk) (h : b.Owns (xs ++ B.chunk :: ys)) (hj : j < 7) :
    (b.moveEntry B.ofs j).Owns (xs ++ (B.moveEntry j).chunk :: ys) := by
  have h₁ := h.setHash xs ys hj (B.hashes (j - 1))
  have h₂ := h₁.setKvOffset xs ys hj (B.kv (j - 1))
  have hk := h₁.held_mid.getKvOffset (show j - 1 < 7 by omega)
  rw [Buffer.moveEntry, h.held_mid.getHash (by omega)]
  exact hk.symm ▸ h₂

theorem Owns.moveKid (xs ys : List Chunk) (h : b.Owns (xs ++ B.chunk :: ys)) (hj : j < 7) :
    (b.moveKid B.ofs j).Owns (xs ++ (B.moveKid j).chunk :: ys) := by
  have h₁ := h.moveEntry xs ys hj
  have hc := h₁.held_mid.getChildOffset (show j < 8 by omega)
  simp only [Block.moveEntry, Block.setHash, Block.setKvOffset] at hc
  rw [Buffer.moveKid, hc]
  exact h₁.setChildOffset xs ys (by omega) (B.child j)

theorem Owns.shiftEntries (xs ys : List Chunk) (i : ℕ) (h : b.Owns (xs ++ B.chunk :: ys))
    (hn : n < 7) :
    (downTo i (fun j b => b.moveEntry B.ofs j) n b).usedSize = b.usedSize ∧
      (downTo i (fun j b => b.moveEntry B.ofs j) n b).Owns
        (xs ++ (B.shiftEntries i n).chunk :: ys) :=
  (downTo_rel (fun (b' : Buffer) (B' : Block) => B'.ofs = B.ofs ∧ b'.usedSize = b.usedSize ∧
      b'.Owns (xs ++ B'.chunk :: ys))
    (fun _ _ _ hj ⟨ho, hu, hown⟩ => ⟨ho, hu, ho ▸ hown.moveEntry xs ys (by omega)⟩)
    ⟨rfl, rfl, h⟩).2

theorem Owns.shiftKids (xs ys : List Chunk) (i : ℕ) (h : b.Owns (xs ++ B.chunk :: ys))
    (hn : n < 7) :
    (downTo i (fun j b => b.moveKid B.ofs j) n b).usedSize = b.usedSize ∧
      (downTo i (fun j b => b.moveKid B.ofs j) n b).Owns
        (xs ++ (B.shiftKids i n).chunk :: ys) :=
  (downTo_rel (fun (b' : Buffer) (B' : Block) => B'.ofs = B.ofs ∧ b'.usedSize = b.usedSize ∧
      b'.Owns (xs ++ B'.chunk :: ys))
    (fun _ _ _ hj ⟨ho, hu, hown⟩ => ⟨ho, hu, ho ▸ hown.moveKid xs ys (by omega)⟩)
    ⟨rfl, rfl, h⟩).2

theorem Owns.insertEntry (h : b.Owns (B.chunk :: R)) (hi : i ≤ B.keyCount) (hn : B.keyCount < 7) :
    ∃ b' : Buffer, b.insertEntry a B.ofs i = (some (b.usedSize + a.klen), b') ∧
      b'.usedSize = b.usedSize + (a.klen + a.valTotalLen) ∧
      b'.Owns ((B.insert i a.keyHash b.usedSize).chunk ::
        (a.entry b.usedSize).chunk a.isAppend :: R) := by
  have h₁ := h.ensureCapacity (a.klen + a.valTotalLen)
  have hl := b.le_length_ensureCapacity (a.klen + a.valTotalLen)
  have h₂ := (h₁.writeEntry (a := a) (by simpa using hl)).perm (.swap _ _ _)
  rw [usedSize_ensureCapacity] at h₂
  obtain ⟨hu, h₃⟩ := h₂.shiftEntries [] _ i hn
  have h₄ := h₃.setHash [] _ (show i < 7 by omega) a.keyHash
  have h₅ := h₄.setKvOffset [] _ (show i < 7 by omega) b.usedSize
  have h₆ := h₅.setKeyCount [] _ (B.keyCount + 1)
  refine ⟨_, ?_, ?_, h₆⟩
  · rw [Buffer.insertEntry, (h.held (by simp)).keyCount, usedSize_ensureCapacity]
    simp only [Block.ofs_shiftEntries, Block.ofs_setHash, Block.ofs_setKvOffset]
  · simp [hu]

/-- An update that needs another length points the slot at a new entry. -/
theorem Owns.appendEntry (h : b.Owns (B.chunk :: R)) (hi : i < 7) :
    (((b.ensureCapacity (a.klen + a.valTotalLen)).setKvOffset B.ofs i b.usedSize).writeEntry a).Owns
      ((B.setKvOffset i b.usedSize).chunk :: (a.entry b.usedSize).chunk a.isAppend :: R) := by
  have hl := b.le_length_ensureCapacity (a.klen + a.valTotalLen)
  have h₁ := (h.ensureCapacity (a.klen + a.valTotalLen)).setKvOffset [] R hi b.usedSize
  have h₂ := h₁.writeEntry (a := a) (by simpa [Buffer.setKvOffset] using hl)
  simpa using h₂.perm (.swap _ _ _)

end Buffer

namespace Fits

variable {type : ValueType} {B : Block} {keys K₁ K₂ : List Entry} {kids : List ℕ} {e x : Entry}

theorem bump (h : Fits type B keys kids) (ht : type.Named) : Fits type B.bump keys kids where
  type_eq := by
    rw [Block.bump, Block.type, Block.setGenType, h.type_eq, Packed.type_genType ht]
  count := h.count
  hash := h.hash
  kv := h.kv
  child := h.child
  ne_zero := h.ne_zero
  leaf := h.leaf

theorem insert (h : Fits type B (K₁ ++ K₂) []) (hn : (K₁ ++ K₂).length < 7)
    (hx : x.ofs < 2 ^ 32) :
    Fits type (B.insert K₁.length x.hash x.ofs) (K₁ ++ x :: K₂) [] := by
  have hc := h.count
  rw [List.length_append] at hn hc
  rw [Block.insert, Block.shiftEntries_eq, hc]
  refine ⟨h.type_eq, ?_, ?_, ?_, h.child, h.ne_zero, h.leaf⟩
  · simp only [Block.keyCount, Block.setKeyCount, Block.setHash, Block.setKvOffset]
    rw [Packed.keyCount_withKeyCount (by omega)]
    simp; omega
  · have hh := h.hash
    rw [List.map_append] at hh ⊢
    rw [List.map_cons]
    refine hh.insert (fun i hi => ?_) ?_ fun i hi hl => ?_ <;>
      simp only [List.length_map] at * <;>
      simp only [Block.setKeyCount, Block.setKvOffset, Block.setHash, Function.update_apply]
    · rw [if_neg (by omega), if_neg (by omega)]
    · simp
    · rw [if_neg (by omega), if_pos (by omega), Nat.add_sub_cancel]
  · have hk := h.kv
    rw [List.map_append] at hk ⊢
    rw [List.map_cons]
    refine hk.insert (fun i hi => ?_) ?_ fun i hi hl => ?_ <;>
      simp only [List.length_map] at * <;>
      simp only [Block.kv, Block.setKeyCount, Block.setKvOffset, Block.setHash,
        Function.update_apply]
    · rw [if_neg (by omega), if_neg (by omega)]
    · rw [if_pos trivial, UInt32.toNat_ofNat_of_lt' hx]
    · rw [if_neg (by omega), if_pos (by omega), Nat.add_sub_cancel]

theorem setKvOffset (h : Fits type B (K₁ ++ e :: K₂) kids) (hh : x.hash = e.hash)
    (hx : x.ofs < 2 ^ 32) :
    Fits type (B.setKvOffset K₁.length x.ofs) (K₁ ++ x :: K₂) kids where
  type_eq := h.type_eq
  count := h.count.trans (by simp)
  hash := by
    change Filed B.hashes _
    simpa [hh] using h.hash
  kv := by
    have hk := h.kv
    rw [List.map_append, List.map_cons] at hk ⊢
    refine hk.replace (fun i hi => ?_) ?_ <;>
      simp only [Block.kv, Block.setKvOffset, Function.update_apply]
    · rw [if_neg (by simpa using hi)]
    · rw [if_pos (by simp), UInt32.toNat_ofNat_of_lt' hx]
  child := h.child
  ne_zero := h.ne_zero
  leaf := h.leaf

theorem inPlace (h : Fits type B (K₁ ++ e :: K₂) kids) (hh : x.hash = e.hash) (ho : x.ofs = e.ofs) :
    Fits type B (K₁ ++ x :: K₂) kids where
  type_eq := h.type_eq
  count := by simpa using h.count
  hash := by simpa [hh] using h.hash
  kv := by simpa [ho] using h.kv
  child := h.child
  ne_zero := h.ne_zero
  leaf := h.leaf

end Fits

end Lite3
