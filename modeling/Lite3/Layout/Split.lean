import Lite3.Layout.Write

/-! # Splitting nodes

A full node gives its upper keys and children to a new sibling and its median
to the parent. The root keeps its offset: its content moves to a new node and
it becomes the parent. Child slots that a node gave away keep their content
but lie beyond its key count.
-/

namespace Lite3

open Bytes Config

namespace Block

/-- The sibling at offset `o` with the upper keys of a full node. -/
def sibling (N : Block) (o : ℕ) : Block where
  ofs := o
  genType := Packed.genType N.generation N.type
  hashes j := if j < 3 then N.hashes (4 + j) else 0
  sizeKc := Packed.sizeKc 0 3
  kvOfs j := if j < 3 then N.kvOfs (4 + j) else 0
  childOfs j := if j < 4 then N.childOfs (4 + j) else 0

/-- Slot `j` with the entry at slot `k` of `N` and the child behind it. -/
def copyEntry (S N : Block) (k j : ℕ) : Block :=
  ((S.setHash j (N.hashes k)).setKvOffset j (N.kv k)).setChildOffset (j + 1) (N.child (k + 1))

/-- The parent with the median of `N` at slot `i` and the sibling at `o` behind it. -/
def promote (P N : Block) (i o : ℕ) : Block :=
  ((((P.shiftKids i P.keyCount).setHash i (N.hashes 3)).setKvOffset i (N.kv 3)).setChildOffset
    (i + 1) o).setSizeKc P.size (P.keyCount + 1)

/-- The root after its content has moved to `o`. -/
def rootOver (B : Block) (o : ℕ) : Block :=
  ((((blank B.ofs).setGenType 1 B.type).setKeyCount 0).setChildOffset 0 o).setSizeKc B.size 0

/-- The same node at another offset. -/
def moved (B : Block) (o : ℕ) : Block := { B with ofs := o }

@[simp] theorem ofs_copyEntry (S N : Block) (k j : ℕ) : (S.copyEntry N k j).ofs = S.ofs := rfl

/-- The sibling is what copying into a blank node makes of it. -/
theorem sibling_eq (N : Block) (o : ℕ) :
    (((((((blank o).setGenType N.generation N.type).setChildOffset 0 (N.child 4)).copyEntry N 4
      0).copyEntry N 5 1).copyEntry N 6 2).setSizeKc 0 3) = N.sibling o := by
  simp only [copyEntry, setGenType, setChildOffset, setHash, setKvOffset, setSizeKc, blank,
    sibling, kv, child, UInt32.ofNat_toNat, mk.injEq, true_and]
  refine ⟨?_, ?_, ?_⟩ <;> funext j <;> simp only [Function.update_apply] <;>
    rcases j with _ | _ | _ | _ | j <;> simp

@[simp] theorem ofs_moved (B : Block) (o : ℕ) : (B.moved o).ofs = o := rfl

@[simp] theorem ofs_blank (o : ℕ) : (blank o).ofs = o := rfl

@[simp] theorem ofs_promote (P N : Block) (i o : ℕ) : (P.promote N i o).ofs = P.ofs := by
  simp [promote]

@[simp] theorem hashes_promote (P N : Block) (i o : ℕ) :
    (P.promote N i o).hashes i = N.hashes 3 := by
  simp [promote, setSizeKc, setChildOffset, setKvOffset, setHash]

end Block

namespace Buffer

variable {b : Buffer} {B P N : Block} {R : List Chunk} {i : ℕ}

theorem Owns.clear_fresh (h : b.Owns R) (hl : b.usedSize + 96 ≤ b.data.length) :
    ((b.advance 96).clear b.usedSize 96).Owns ((Block.blank b.usedSize).chunk :: R) := by
  have hw : ((b.advance 96).write (b.usedSize + 0) (List.replicate 96 0)).Owns _ :=
    Owns.write [] R (h.advance hl) (by simp)
  rw [overwrite_front (by simp)] at hw
  simpa [Block.blank_chunk, Buffer.clear] using hw

theorem Owns.makeRoom (h : b.Owns R) (par : Option ℕ) :
    (b.makeRoom par).Owns R ∧ b.usedSize ≤ (b.makeRoom par).usedSize ∧
      (b.makeRoom par).usedSize + 96 ≤ (b.makeRoom par).data.length := by
  have hal : b.usedSize ≤ (b.usedSize + nodeAlignment - 1) / nodeAlignment * nodeAlignment := by
    simp only [nodeAlignment]; omega
  generalize hs : (b.usedSize + nodeAlignment - 1) / nodeAlignment * nodeAlignment = s at hal
  generalize hn : (if par.isNone then 2 * nodeSize else nodeSize) = n
  have hn' : 96 ≤ n := by subst hn; split <;> simp [nodeSize]
  have hl := b.le_length_ensureCapacity (n + (s - b.usedSize) + 128)
  have he : b.makeRoom par =
      { b.ensureCapacity (n + (s - b.usedSize) + 128) with usedSize := s } := by
    simp only [Buffer.makeRoom, hs, hn]
  rw [he]
  refine ⟨?_, hal, show s + 96 ≤ (b.ensureCapacity _).data.length by omega⟩
  have hown := h.ensureCapacity (n + (s - b.usedSize) + 128)
  rw [Owns, usedSize_ensureCapacity] at hown
  exact Owned.mono_used hown hal (show s ≤ (b.ensureCapacity _).data.length by omega)

theorem Owns.clear (xs ys : List Chunk) (h : b.Owns (xs ++ B.chunk :: ys)) :
    (b.clear B.ofs nodeSize).Owns (xs ++ (Block.blank B.ofs).chunk :: ys) := by
  have hw : (b.write (B.ofs + 0) (List.replicate 96 0)).Owns _ := Owns.write xs ys h (by simp)
  rw [overwrite_front (by simp), List.drop_eq_nil_of_le (by simp), List.append_nil] at hw
  rw [Block.blank_chunk]
  exact hw

theorem Owns.splitRoot (h : b.Owns (B.chunk :: R)) (hl : b.usedSize + 96 ≤ b.data.length) :
    (b.splitRoot B.ofs).Owns
      ((B.rootOver b.usedSize).chunk :: (B.moved b.usedSize).chunk :: R) := by
  have h₁ : (b.advance nodeSize).Owns _ := h.advance hl
  have hB : slice (b.advance nodeSize).mem B.ofs nodeSize = wordBytes B.word 0 24 :=
    h₁.held (by simp)
  have h₂ : ((b.advance nodeSize).write (b.usedSize + 0)
      (slice (b.advance nodeSize).mem B.ofs nodeSize)).Owns _ :=
    Owns.write [] (B.chunk :: R) h₁ (by simp [nodeSize])
  rw [overwrite_front (by simp [nodeSize]), List.drop_eq_nil_of_le (by simp [nodeSize]),
    List.append_nil, hB] at h₂
  have h₃ : ((b.advance nodeSize).write b.usedSize
      (slice (b.advance nodeSize).mem B.ofs nodeSize)).Owns
      (B.chunk :: (B.moved b.usedSize).chunk :: R) := by
    rw [hB]
    exact h₂.perm (.swap _ _ _)
  have h₄ := h₃.clear [] _
  have h₅ := h₄.setGenType [] _ 1 B.type
  have h₆ := h₅.setKeyCount [] _ 0
  have h₇ := h₆.setChildOffset [] _ (show 0 < 8 by omega) b.usedSize
  have hs : NodeView.size _ (B.moved b.usedSize).ofs = (B.moved b.usedSize).size :=
    (h₇.held (by simp)).size
  have ht : NodeView.type _ B.ofs = B.type := (h₃.held (by simp)).type
  have h₈ := h₇.setSizeKc [] _ B.size 0
  simp only [Block.ofs_setChildOffset, Block.ofs_setKeyCount, Block.ofs_setGenType,
    Block.ofs_blank, Block.ofs_moved] at hs h₈
  simp only [Buffer.splitRoot, ht]
  rw [hs]
  exact h₈

theorem Owns.copyEntry {S : Block} (h : b.Owns (S.chunk :: R)) (hN : N.chunk ∈ R) {j k : ℕ}
    (hj : j < 7) (hk : k < 7) :
    (b.copyEntry N.ofs S.ofs k j).Owns ((S.copyEntry N k j).chunk :: R) := by
  have h₁ := h.setHash [] R hj (N.hashes k)
  have h₂ := h₁.setKvOffset [] R hj (N.kv k)
  have h₃ := h₂.setChildOffset [] R (show j + 1 < 8 by omega) (N.child (k + 1))
  have hk₁ := (h₁.held (List.mem_cons_of_mem _ hN)).getKvOffset hk
  have hc₂ := (h₂.held (List.mem_cons_of_mem _ hN)).getChildOffset (show k + 1 < 8 by omega)
  simp only [Block.ofs_setKvOffset, Block.ofs_setHash] at hc₂ h₃
  simp only [Buffer.copyEntry, (h.held (List.mem_cons_of_mem _ hN)).getHash hk, hk₁, hc₂]
  exact h₃

theorem Owns.newSibling (h : b.Owns R) (hm : N.chunk ∈ R)
    (hl : b.usedSize + 96 ≤ b.data.length) (hN : N.keyCount = 7) :
    (b.newSibling N.ofs).usedSize = b.usedSize + 96 ∧
      (b.newSibling N.ofs).Owns ((N.sibling b.usedSize).chunk :: R) := by
  unfold Buffer.newSibling
  extract_lets s b₀ b₁ b₂ mid n b₃ b₄
  have h₁ : b₁.Owns ((Block.blank s).chunk :: R) := h.clear_fresh hl
  have h₂ : b₂.Owns (((Block.blank s).setGenType N.generation N.type).chunk :: R) := by
    have hN₁ : N.Held b₁.mem := h₁.held (List.mem_cons_of_mem _ hm)
    rw [← hN₁.generation, ← hN₁.type]
    exact h₁.setGenType [] R _ _
  have hN₂ : N.Held b₂.mem := h₂.held (List.mem_cons_of_mem _ hm)
  have hn : n = 3 := by
    change NodeView.keyCount b₂.mem N.ofs - 4 = 3
    rw [hN₂.keyCount, hN]
  have h₃ : b₃.Owns ((((Block.blank s).setGenType N.generation N.type).setChildOffset 0
      (N.child 4)).chunk :: R) := by
    rw [← hN₂.getChildOffset (show 4 < 8 by omega)]
    exact h₂.setChildOffset [] R (show 0 < 8 by omega) _
  have h₄ : b₄.Owns (((((((Block.blank s).setGenType N.generation N.type).setChildOffset 0
      (N.child 4)).copyEntry N 4 0).copyEntry N 5 1).copyEntry N 6 2).chunk :: R) := by
    change Owns ((List.range n).foldl _ b₃) _
    rw [hn]
    exact ((h₃.copyEntry hm (show 0 < 7 by omega) (show 4 < 7 by omega)).copyEntry hm
      (show 1 < 7 by omega) (show 5 < 7 by omega)).copyEntry hm (show 2 < 7 by omega)
      (show 6 < 7 by omega)
  have hu : b₄.usedSize = b.usedSize + 96 := by
    change Buffer.usedSize ((List.range n).foldl _ b₃) = _
    rw [hn]
    rfl
  have h₅ := h₄.setSizeKc [] R 0 3
  rw [Block.sibling_eq] at h₅
  rw [hn]
  exact ⟨hu, h₅⟩

theorem Owns.promoteMedian (xs ys : List Chunk) (h : b.Owns (xs ++ P.chunk :: ys))
    (hm : N.chunk ∈ xs ++ ys) (hP : P.keyCount < 7) (hi : i ≤ P.keyCount)
    (o : ℕ) :
    (b.promoteMedian P.ofs N.ofs i o).usedSize = b.usedSize ∧
      (b.promoteMedian P.ofs N.ofs i o).Owns (xs ++ (P.promote N i o).chunk :: ys) := by
  have hm' : ∀ c : Chunk, N.chunk ∈ xs ++ c :: ys := fun c => by
    simp only [List.mem_append, List.mem_cons] at hm ⊢; tauto
  unfold Buffer.promoteMedian
  extract_lets mid b₁ b₂ b₃ b₄
  obtain ⟨hu, h₁⟩ : b₁.usedSize = b.usedSize ∧
      b₁.Owns (xs ++ (P.shiftKids i P.keyCount).chunk :: ys) := by
    rw [← h.held_mid.keyCount]
    exact h.shiftKids xs ys i (h.held_mid.keyCount ▸ hP)
  have h₂ : b₂.Owns (xs ++ ((P.shiftKids i P.keyCount).setHash i (N.hashes 3)).chunk :: ys) := by
    have hN₁ : N.Held b₁.mem := h₁.held (hm' _)
    rw [← hN₁.getHash (show 3 < 7 by omega)]
    have h := h₁.setHash xs ys (show i < 7 by omega) (NodeView.getHash b₁.mem N.ofs 3)
    rwa [Block.ofs_shiftKids] at h
  have h₃ : b₃.Owns (xs ++ (((P.shiftKids i P.keyCount).setHash i (N.hashes 3)).setKvOffset i
      (N.kv 3)).chunk :: ys) := by
    have hN₂ : N.Held b₂.mem := h₂.held (hm' _)
    rw [← hN₂.getKvOffset (show 3 < 7 by omega)]
    have h := h₂.setKvOffset xs ys (show i < 7 by omega) (NodeView.getKvOffset b₂.mem N.ofs 3)
    rwa [Block.ofs_setHash, Block.ofs_shiftKids] at h
  have h₄ : b₄.Owns (xs ++ ((((P.shiftKids i P.keyCount).setHash i (N.hashes 3)).setKvOffset i
      (N.kv 3)).setChildOffset (i + 1) o).chunk :: ys) := by
    simpa using h₃.setChildOffset xs ys (show i + 1 < 8 by omega) o
  have h₅ := h₄.setSizeKc xs ys P.size (P.keyCount + 1)
  have hP₄ := h₄.held_mid
  have hs := hP₄.size
  have hc := hP₄.keyCount
  simp only [Block.ofs_setHash, Block.ofs_setKvOffset, Block.ofs_setChildOffset,
    Block.ofs_shiftKids] at hs hc h₅
  rw [hs, hc]
  refine ⟨hu, ?_⟩
  simpa [Block.promote, Block.shiftKids_eq, Block.size, Block.keyCount, Block.setHash,
    Block.setKvOffset, Block.setChildOffset] using h₅

theorem Owns.splitChild (h : b.Owns (P.chunk :: N.chunk :: R))
    (hl : b.usedSize + 96 ≤ b.data.length) (hN : N.keyCount = 7) (hP : P.keyCount < 7)
    (hi : i ≤ P.keyCount) :
    (b.splitChild P.ofs N.ofs i).usedSize = b.usedSize + 96 ∧
      (b.splitChild P.ofs N.ofs i).Owns ((P.promote N i b.usedSize).chunk ::
        (N.setKeyCount 3).chunk :: (N.sibling b.usedSize).chunk :: R) := by
  obtain ⟨hu₁, h₁⟩ := h.newSibling (N := N) (by simp) hl hN
  obtain ⟨hu₂, h₂⟩ := Owns.promoteMedian (N := N) [_] _ h₁ (by simp) hP hi b.usedSize
  have h₃ := Owns.setKeyCount [_, _] _ h₂ 3
  refine ⟨by rw [← hu₁, ← hu₂]; rfl, h₃.perm ?_⟩
  exact (List.Perm.swap _ _ _).trans ((List.Perm.swap _ _ _).cons _)

end Buffer

namespace Fits

variable {type : ValueType} {B P N : Block} {keys K₁ K₂ Kl Kr : List Entry}
  {kids Cl Cr A C : List ℕ} {e m : Entry} {o : ℕ}

theorem lower (h : Fits type N (Kl ++ m :: Kr) (Cl ++ Cr)) (hl : Kl.length = 3)
    (hc : Cl = [] → Cr = []) : Fits type (N.setKeyCount 3) Kl Cl where
  type_eq := h.type_eq
  count := by
    rw [hl]
    exact Packed.keyCount_withKeyCount (by omega)
  hash := by
    have hh := h.hash
    rw [List.map_append] at hh
    exact hh.left
  kv := by
    have hk := h.kv
    rw [List.map_append] at hk
    exact hk.left
  child := h.child.left
  ne_zero o ho := h.ne_zero o (List.mem_append_left _ ho)
  leaf hn := h.leaf (by simp [hn, hc hn])

/-- The upper half moves to the sibling. -/
theorem upper (h : Fits type N (Kl ++ m :: Kr) (Cl ++ Cr)) (ht : type.Named)
    (hl : Kl.length = 3) (hr : Kr.length = 3)
    (hc : Cl = [] ∧ Cr = [] ∨ Cl.length = 4 ∧ Cr.length = 4)
    (o : ℕ) : Fits type (N.sibling o) Kr Cr where
  type_eq := by
    rw [Block.type, Block.sibling, h.type_eq, Packed.type_genType ht]
  count := by
    rw [hr]
    exact Packed.keyCount_sizeKc (by omega)
  hash := by
    have hh := h.hash
    rw [List.map_append, List.map_cons, List.append_cons] at hh
    refine hh.right fun i hi => ?_
    simp only [List.length_map, hr] at hi
    simp [Block.sibling, hi, hl]
  kv := by
    have hk := h.kv
    rw [List.map_append, List.map_cons, List.append_cons] at hk
    refine hk.right fun i hi => ?_
    simp only [List.length_map, hr] at hi
    simp [Block.kv, Block.sibling, hi, hl]
  child := by
    rcases hc with ⟨-, rfl⟩ | ⟨hl, hr⟩
    · intro i x hx; simp at hx
    · refine h.child.right fun i hi => ?_
      simp [Block.child, Block.sibling, hl, show i < 4 by omega]
  ne_zero o ho := h.ne_zero o (List.mem_append_right _ ho)
  leaf hn i hi := by
    have hl : Cl = [] := by
      rcases hc with ⟨hl, -⟩ | ⟨-, hr⟩
      · exact hl
      · simp [hn] at hr
    rw [Block.child, Block.sibling]
    dsimp only
    split
    · exact h.leaf (by simp [hl, hn]) (4 + i) (by omega)
    · rfl

theorem promote (h : Fits type P (K₁ ++ K₂) (A ++ N.ofs :: C)) (hA : A.length = K₁.length)
    (hC : C.length = K₂.length) (hn : (K₁ ++ K₂).length < 7)
    (hm : N.hashes 3 = m.hash) (hk : N.kv 3 = m.ofs) (ho : o < 2 ^ 32) (ho₀ : o ≠ 0) :
    Fits type (P.promote N K₁.length o) (K₁ ++ m :: K₂) (A ++ N.ofs :: o :: C) := by
  have hc := h.count
  rw [List.length_append] at hn hc
  rw [Block.promote, Block.shiftKids_eq, hc]
  refine ⟨h.type_eq, ?_, ?_, ?_, ?_, ?_, by simp⟩
  · simp only [Block.keyCount, Block.setSizeKc]
    rw [Packed.keyCount_sizeKc (by omega)]
    simp; omega
  · have hh := h.hash
    rw [List.map_append] at hh ⊢
    rw [List.map_cons]
    refine hh.insert (fun i hi => ?_) ?_ fun i hi hl => ?_ <;>
      simp only [List.length_map] at * <;>
      simp only [Block.setSizeKc, Block.setChildOffset, Block.setKvOffset, Block.setHash,
        Function.update_apply]
    · rw [if_neg (by omega), if_neg (by omega)]
    · rw [if_pos trivial, hm]
    · rw [if_neg (by omega), if_pos (by omega), Nat.add_sub_cancel]
  · have hh := h.kv
    rw [List.map_append] at hh ⊢
    rw [List.map_cons]
    refine hh.insert (fun i hi => ?_) ?_ fun i hi hl => ?_ <;>
      simp only [List.length_map] at * <;>
      simp only [Block.kv, Block.setSizeKc, Block.setChildOffset, Block.setKvOffset, Block.setHash,
        Function.update_apply] at hk ⊢
    · rw [if_neg (by omega), if_neg (by omega)]
    · rw [if_pos trivial, UInt32.ofNat_toNat, hk]
    · rw [if_neg (by omega), if_pos (by omega), Nat.add_sub_cancel]
  · have hh := h.child
    rw [List.append_cons] at hh ⊢
    refine hh.insert (fun i hi => ?_) ?_ fun i hi hl => ?_ <;>
      simp only [List.length_append, List.length_singleton] at * <;>
      simp only [Block.child, Block.setSizeKc, Block.setChildOffset, Block.setKvOffset,
        Block.setHash, Function.update_apply]
    · rw [if_neg (by omega), if_neg (by omega)]
    · rw [if_pos (by omega), UInt32.toNat_ofNat_of_lt' ho]
    · rw [if_neg (by omega), if_pos (by omega), Nat.add_sub_cancel]
  · intro x hx
    simp only [List.mem_append, List.mem_cons] at hx
    rcases hx with hx | rfl | rfl | hx
    · exact h.ne_zero x (by simp [hx])
    · exact h.ne_zero _ (by simp)
    · exact ho₀
    · exact h.ne_zero x (by simp [hx])

theorem rootOver (ht : B.type.Named) (ho : o < 2 ^ 32) (ho₀ : o ≠ 0) :
    Fits B.type (B.rootOver o) [] [o] where
  type_eq := by
    simp only [Block.type, Block.rootOver, Block.setSizeKc, Block.setChildOffset,
      Block.setKeyCount, Block.setGenType] at ht ⊢
    rw [Packed.type_genType ht]
  count := Packed.keyCount_sizeKc (by omega)
  hash i x hx := by simp at hx
  kv i x hx := by simp at hx
  child i x hx := by
    rcases i with _ | i
    · obtain rfl : o = x := by simpa using hx
      simpa [Block.rootOver, Block.child, Block.setSizeKc, Block.setChildOffset] using ho
    · simp at hx
  ne_zero x hx := by simpa [List.mem_singleton.mp hx] using ho₀
  leaf hn := by simp at hn

theorem moved (h : Fits type B keys kids) (o : ℕ) : Fits type (B.moved o) keys kids :=
  ⟨h.type_eq, h.count, h.hash, h.kv, h.child, h.ne_zero, h.leaf⟩

end Fits

end Lite3
