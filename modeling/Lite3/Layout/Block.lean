import Lite3.Bytes.Chunks
import Lite3.Buffer.Fields
import Lite3.Buffer.Basic

/-! # Nodes as blocks of words

A block is the content of a node together with its offset. While the buffer
owns the chunk of a block, the views read its fields and the setters update
them; every other owned chunk keeps its bytes.
-/

namespace Lite3

open Bytes Config

namespace Buffer

/-- The chunks lie apart below the used size, hold their bytes, and the rest is blank. -/
def Owns (b : Buffer) (cs : List Chunk) : Prop := Owned b.data b.usedSize cs

@[simp] theorem usedSize_write (b : Buffer) (o : ℕ) (bs : List UInt8) :
    (b.write o bs).usedSize = b.usedSize := rfl

@[simp] theorem length_write (b : Buffer) (o : ℕ) (bs : List UInt8) :
    (b.write o bs).data.length = b.data.length := length_overwrite _ _ _

@[simp] theorem usedSize_write32 (b : Buffer) (o : ℕ) (v : UInt32) :
    (b.write32 o v).usedSize = b.usedSize := rfl

@[simp] theorem length_write32 (b : Buffer) (o : ℕ) (v : UInt32) :
    (b.write32 o v).data.length = b.data.length := length_overwrite _ _ _

@[simp] theorem usedSize_advance (b : Buffer) (n : ℕ) :
    (b.advance n).usedSize = b.usedSize + n := rfl

@[simp] theorem data_advance (b : Buffer) (n : ℕ) : (b.advance n).data = b.data := rfl

@[simp] theorem usedSize_ensureCapacity (b : Buffer) (n : ℕ) :
    (b.ensureCapacity n).usedSize = b.usedSize := by
  unfold ensureCapacity; split <;> rfl

theorem le_length_ensureCapacity (b : Buffer) (n : ℕ) :
    b.usedSize + n ≤ (b.ensureCapacity n).data.length := by
  unfold ensureCapacity
  split
  · simp only [List.length_append, List.length_replicate]; omega
  · omega

theorem data_ensureCapacity (b : Buffer) (n : ℕ) :
    ∃ k, (b.ensureCapacity n).data = b.data ++ List.replicate k 0 := by
  unfold ensureCapacity
  split
  · exact ⟨_, rfl⟩
  · exact ⟨0, by simp⟩

variable {b : Buffer} {c : Chunk} {cs cs' : List Chunk} {n k : ℕ} {bs : List UInt8}

theorem Owns.perm (h : b.Owns cs) (hp : cs.Perm cs') : b.Owns cs' := Owned.perm h hp

theorem Owns.ensureCapacity (h : b.Owns cs) (n : ℕ) : (b.ensureCapacity n).Owns cs := by
  obtain ⟨k, hk⟩ := b.data_ensureCapacity n
  rw [Owns, hk, usedSize_ensureCapacity]
  exact h.append_zeros k

theorem Owns.advance (h : b.Owns cs) (hl : b.usedSize + n ≤ b.data.length) :
    (b.advance n).Owns (⟨b.usedSize, List.replicate n 0⟩ :: cs) := Owned.cons_zeros h hl

theorem Owns.write (xs ys : List Chunk) (h : b.Owns (xs ++ c :: ys))
    (hk : k + bs.length ≤ c.bytes.length) :
    (b.write (c.ofs + k) bs).Owns (xs ++ ⟨c.ofs, overwrite c.bytes k bs⟩ :: ys) :=
  Owned.write_at xs ys h hk

theorem Owns.slice_eq (h : b.Owns cs) (hc : c ∈ cs) : slice b.mem c.ofs c.bytes.length = c.bytes :=
  h.holds c hc

end Buffer

/-- The fields of a packed node at offset `ofs`. -/
structure Block where
  ofs : ℕ
  genType : UInt32
  hashes : ℕ → UInt32
  sizeKc : UInt32
  kvOfs : ℕ → UInt32
  childOfs : ℕ → UInt32

namespace Block

def word (B : Block) (k : ℕ) : UInt32 :=
  if k = 0 then B.genType
  else if k < 8 then B.hashes (k - 1)
  else if k = 8 then B.sizeKc
  else if k < 16 then B.kvOfs (k - 9)
  else B.childOfs (k - 16)

def chunk (B : Block) : Chunk := ⟨B.ofs, wordBytes B.word 0 24⟩

def generation (B : Block) : UInt32 := Packed.generation B.genType

def type (B : Block) : ValueType := Packed.type B.genType

def size (B : Block) : UInt32 := Packed.size B.sizeKc

def keyCount (B : Block) : ℕ := Packed.keyCount B.sizeKc

def kv (B : Block) (i : ℕ) : ℕ := (B.kvOfs i).toNat

def child (B : Block) (i : ℕ) : ℕ := (B.childOfs i).toNat

def blank (o : ℕ) : Block := ⟨o, 0, fun _ => 0, 0, fun _ => 0, fun _ => 0⟩

def setGenType (B : Block) (gen : UInt32) (type : ValueType) : Block :=
  { B with genType := Packed.genType gen type }

def setSize (B : Block) (size : UInt32) : Block :=
  { B with sizeKc := Packed.withSize B.sizeKc size }

def setSizeKc (B : Block) (size : UInt32) (keyCount : ℕ) : Block :=
  { B with sizeKc := Packed.sizeKc size keyCount }

def setKeyCount (B : Block) (keyCount : ℕ) : Block :=
  { B with sizeKc := Packed.withKeyCount B.sizeKc keyCount }

def setHash (B : Block) (i : ℕ) (hash : UInt32) : Block :=
  { B with hashes := Function.update B.hashes i hash }

def setKvOffset (B : Block) (i ofs : ℕ) : Block :=
  { B with kvOfs := Function.update B.kvOfs i (.ofNat ofs) }

def setChildOffset (B : Block) (i ofs : ℕ) : Block :=
  { B with childOfs := Function.update B.childOfs i (.ofNat ofs) }

/-- The generation counts one visit more. -/
def bump (B : Block) : Block := B.setGenType (B.generation + 1) B.type

@[simp] theorem ofs_setGenType (B : Block) (gen : UInt32) (type : ValueType) :
    (B.setGenType gen type).ofs = B.ofs := rfl

@[simp] theorem ofs_setSizeKc (B : Block) (size : UInt32) (n : ℕ) :
    (B.setSizeKc size n).ofs = B.ofs := rfl

@[simp] theorem ofs_setKeyCount (B : Block) (n : ℕ) : (B.setKeyCount n).ofs = B.ofs := rfl

@[simp] theorem ofs_setHash (B : Block) (i : ℕ) (v : UInt32) : (B.setHash i v).ofs = B.ofs := rfl

@[simp] theorem ofs_setKvOffset (B : Block) (i o : ℕ) : (B.setKvOffset i o).ofs = B.ofs := rfl

@[simp] theorem ofs_setChildOffset (B : Block) (i o : ℕ) : (B.setChildOffset i o).ofs = B.ofs := rfl

@[simp] theorem ofs_bump (B : Block) : B.bump.ofs = B.ofs := rfl

@[simp] theorem ofs_chunk (B : Block) : B.chunk.ofs = B.ofs := rfl

@[simp] theorem length_chunk (B : Block) : B.chunk.bytes.length = 96 := length_wordBytes _ _ _

theorem blank_chunk (o : ℕ) : (blank o).chunk = ⟨o, List.replicate 96 0⟩ := by
  have hw : (blank o).word = fun _ => 0 := by funext k; simp [word, blank]
  rw [chunk, hw, wordBytes_zero]
  rfl

theorem keyCount_le (B : Block) : B.keyCount ≤ 7 := Packed.keyCount_le _

/-- Memory `m` holds the words of the block. -/
def Held (B : Block) (m : Mem) : Prop := slice m B.ofs (4 * 24) = wordBytes B.word 0 24

variable {B : Block} {m : Mem} {i k : ℕ}

theorem Held.load (h : B.Held m) (hk : k < 24) : load32 m (B.ofs + 4 * k) = B.word k :=
  load32_of_slice h hk

theorem Held.genType (h : B.Held m) : NodeView.genType m B.ofs = B.genType :=
  h.load (show 0 < 24 by omega)

theorem Held.sizeKc (h : B.Held m) : NodeView.sizeKc m B.ofs = B.sizeKc :=
  h.load (show 8 < 24 by omega)

theorem Held.generation (h : B.Held m) : NodeView.generation m B.ofs = B.generation := by
  rw [NodeView.generation, h.genType, Block.generation]

theorem Held.type (h : B.Held m) : NodeView.type m B.ofs = B.type := by
  rw [NodeView.type, h.genType, Block.type]

theorem Held.size (h : B.Held m) : NodeView.size m B.ofs = B.size := by
  rw [NodeView.size, h.sizeKc, Block.size]

theorem Held.keyCount (h : B.Held m) : NodeView.keyCount m B.ofs = B.keyCount := by
  rw [NodeView.keyCount, h.sizeKc, Block.keyCount]

theorem Held.getHash (h : B.Held m) (hi : i < 7) : NodeView.getHash m B.ofs i = B.hashes i := by
  rw [NodeView.getHash, show B.ofs + 4 + 4 * i = B.ofs + 4 * (i + 1) by omega, h.load (by omega),
    word, if_neg (by omega), if_pos (by omega), Nat.add_sub_cancel]

theorem Held.getKvOffset (h : B.Held m) (hi : i < 7) :
    NodeView.getKvOffset m B.ofs i = B.kv i := by
  rw [NodeView.getKvOffset, show B.ofs + 36 + 4 * i = B.ofs + 4 * (i + 9) by omega,
    h.load (by omega), word, if_neg (by omega), if_neg (by omega), if_neg (by omega),
    if_pos (by omega), Nat.add_sub_cancel, kv]

theorem Held.getChildOffset (h : B.Held m) (hi : i < 8) :
    NodeView.getChildOffset m B.ofs i = B.child i := by
  rw [NodeView.getChildOffset, show B.ofs + 64 + 4 * i = B.ofs + 4 * (i + 16) by omega,
    h.load (by omega), word, if_neg (by omega), if_neg (by omega), if_neg (by omega),
    if_neg (by omega), Nat.add_sub_cancel, child]

end Block

namespace Buffer

variable {b : Buffer} {B B' : Block} {xs ys cs : List Chunk} {i k n o : ℕ} {v : UInt32}

theorem Owns.held (h : b.Owns cs) (hB : B.chunk ∈ cs) : B.Held b.mem := by
  have hs := h.slice_eq hB
  rwa [Block.length_chunk] at hs

theorem Owns.held_mid (h : b.Owns (xs ++ B.chunk :: ys)) : B.Held b.mem := h.held (by simp)

/-- Storing word `k` of a block turns it into a block that differs from it in that word. -/
theorem Owns.write32 (xs ys : List Chunk) (h : b.Owns (xs ++ B.chunk :: ys)) (hk : k < 24)
    (ho : B'.ofs = B.ofs) (hw : ∀ j < 24, B'.word j = if j = k then v else B.word j) :
    (b.write32 (B.ofs + 4 * k) v).Owns (xs ++ B'.chunk :: ys) := by
  have hown : (b.write (B.ofs + 4 * k) (bytes32 v)).Owns _ :=
    Owns.write xs ys h (by simp; omega)
  have hc : wordBytes (Function.update B.word k v) 0 24 = wordBytes B'.word 0 24 :=
    wordBytes_congr fun j hj => by rw [Nat.zero_add, hw j hj, Function.update_apply]
  rw [Block.chunk, overwrite_wordBytes _ hk, hc] at hown
  rw [Block.chunk, ho]
  exact hown

theorem Owns.setGenType (xs ys : List Chunk) (h : b.Owns (xs ++ B.chunk :: ys)) (gen : UInt32)
    (type : ValueType) :
    (b.setGenType B.ofs gen type).Owns (xs ++ (B.setGenType gen type).chunk :: ys) :=
  h.write32 xs ys (show 0 < 24 by omega) rfl fun j _ => by
    simp only [Block.word, Block.setGenType]; split <;> rfl

theorem Owns.storeSizeKc (xs ys : List Chunk) (h : b.Owns (xs ++ B.chunk :: ys)) (v : UInt32) :
    (b.write32 (B.ofs + 32) v).Owns (xs ++ { B with sizeKc := v }.chunk :: ys) :=
  h.write32 xs ys (show 8 < 24 by omega) rfl fun j _ => by
    simp only [Block.word]; split_ifs <;> first | rfl | omega

theorem Owns.setSize (xs ys : List Chunk) (h : b.Owns (xs ++ B.chunk :: ys)) (size : UInt32) :
    (b.setSize B.ofs size).Owns (xs ++ (B.setSize size).chunk :: ys) := by
  rw [Buffer.setSize, h.held_mid.sizeKc]
  exact h.storeSizeKc xs ys _

theorem Owns.setSizeKc (xs ys : List Chunk) (h : b.Owns (xs ++ B.chunk :: ys)) (size : UInt32)
    (keyCount : ℕ) :
    (b.setSizeKc B.ofs size keyCount).Owns (xs ++ (B.setSizeKc size keyCount).chunk :: ys) :=
  h.storeSizeKc xs ys _

theorem Owns.setKeyCount (xs ys : List Chunk) (h : b.Owns (xs ++ B.chunk :: ys)) (keyCount : ℕ) :
    (b.setKeyCount B.ofs keyCount).Owns (xs ++ (B.setKeyCount keyCount).chunk :: ys) := by
  rw [Buffer.setKeyCount, h.held_mid.sizeKc]
  exact h.storeSizeKc xs ys _

theorem Owns.setHash (xs ys : List Chunk) (h : b.Owns (xs ++ B.chunk :: ys)) (hi : i < 7)
    (v : UInt32) : (b.setHash B.ofs i v).Owns (xs ++ (B.setHash i v).chunk :: ys) := by
  rw [Buffer.setHash, show B.ofs + 4 + 4 * i = B.ofs + 4 * (i + 1) by omega]
  refine h.write32 xs ys (by omega) rfl fun j _ => ?_
  simp only [Block.word, Block.setHash, Function.update_apply]
  split_ifs <;> first | rfl | omega

theorem Owns.setKvOffset (xs ys : List Chunk) (h : b.Owns (xs ++ B.chunk :: ys)) (hi : i < 7)
    (o : ℕ) : (b.setKvOffset B.ofs i o).Owns (xs ++ (B.setKvOffset i o).chunk :: ys) := by
  rw [Buffer.setKvOffset, show B.ofs + 36 + 4 * i = B.ofs + 4 * (i + 9) by omega]
  refine h.write32 xs ys (by omega) rfl fun j _ => ?_
  simp only [Block.word, Block.setKvOffset, Function.update_apply]
  split_ifs <;> first | rfl | omega

theorem Owns.setChildOffset (xs ys : List Chunk) (h : b.Owns (xs ++ B.chunk :: ys)) (hi : i < 8)
    (o : ℕ) : (b.setChildOffset B.ofs i o).Owns (xs ++ (B.setChildOffset i o).chunk :: ys) := by
  rw [Buffer.setChildOffset, show B.ofs + 64 + 4 * i = B.ofs + 4 * (i + 16) by omega]
  refine h.write32 xs ys (by omega) rfl fun j _ => ?_
  simp only [Block.word, Block.setChildOffset, Function.update_apply]
  split_ifs <;> first | rfl | omega

end Buffer

end Lite3
