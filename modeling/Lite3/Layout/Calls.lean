import Lite3.Layout.Walk

/-! # Calls on a container

What the setters, the appends and container creation do to the container they
address, for any frame of chunks around it. A new container takes the bytes
behind the type tag, which are blank when the entry was placed at the end.
-/

namespace Lite3

open Bytes Config Lite3.Tree

theorem setArgs_writable {key : List UInt8} (hk : key.length ≤ 62) (v : Scalar) :
    (setArgs key v.type v.image).Writable := by
  refine ⟨hk, by cases v <;> trivial, ?_⟩
  cases v <;> simp [setArgs, Scalar.type, Scalar.image, ValOk]

theorem setArgs_writable_kind {key : List UInt8} (hk : key.length ≤ 62) (isArr : Bool) :
    (setArgs key (kindOf isArr) []).Writable :=
  ⟨hk, kindOf_named isArr, Or.inr (Or.inr (by cases isArr <;> rfl))⟩

theorem appendArgs_writable (i : UInt32) (v : Scalar) :
    (appendArgs i v.type v.image).Writable := by
  refine ⟨rfl, by cases v <;> trivial, ?_⟩
  cases v <;> simp [appendArgs, Scalar.type, Scalar.image, ValOk]

theorem appendArgs_writable_kind (i : UInt32) (isArr : Bool) :
    (appendArgs i (kindOf isArr) []).Writable :=
  ⟨rfl, kindOf_named isArr, Or.inr (Or.inr (by cases isArr <;> rfl))⟩

namespace Container

/-- A container without entries. -/
def empty (isArr : Bool) (o : ℕ) : Container where
  isArr := isArr
  height := 0
  tree := BTree.leaf ((Block.blank o).setGenType 1 (kindOf isArr)) []
  laid := by
    refine ⟨Packed.type_genType (kindOf_named isArr), Packed.keyCount_eq 0, ?_, ?_, ?_, by simp,
      fun _ _ _ => rfl⟩ <;>
      intro i x hx <;> simp at hx
  shaped := Nat.zero_le _
  readable := by simp

@[simp] theorem entries_empty (isArr : Bool) (o : ℕ) : (empty isArr o).entries = [] := rfl

@[simp] theorem ofs_empty (isArr : Bool) (o : ℕ) : (empty isArr o).ofs = o := rfl

@[simp] theorem isArr_empty (isArr : Bool) (o : ℕ) : (empty isArr o).isArr = isArr := rfl

theorem toNat_size_empty (isArr : Bool) (o : ℕ) : (empty isArr o).size.toNat = 0 :=
  Packed.toNat_size 0

theorem fetch_empty {b : Buffer} {R : List Chunk} {isArr : Bool} {o : ℕ} {key : List UInt8}
    (ho : b.Owns ((empty isArr o).chunks ++ R)) (hkey : isArr = true → key = []) (hash : UInt32) :
    b.fetch o key hash isArr = some none := by
  have hf : (empty isArr o).tree.find (Entry.cmp hash key) = none := rfl
  have h : b.fetch _ _ hash _ = _ := fetch (c := empty isArr o) ho hkey
  rw [hf, ofs_empty, isArr_empty] at h
  exact h

/-- The container with another element count in its root. -/
def withSize (c : Container) (s : UInt32) : Container where
  isArr := c.isArr
  height := c.height
  tree := BTree.setRoot (c.tree.label.setSize s) c.tree.keys c.tree
  laid := by
    have hf := c.laid.fits
    exact c.laid.setRoot ⟨hf.type_eq, (Packed.keyCount_withSize _ _).trans hf.count, hf.hash, hf.kv,
      hf.child, hf.ne_zero, hf.leaf⟩
  shaped := c.shaped.setRoot _
  readable := by simpa using c.readable

@[simp] theorem entries_withSize (c : Container) (s : UInt32) :
    (c.withSize s).entries = c.entries := by simp [entries, withSize]

@[simp] theorem ofs_withSize (c : Container) (s : UInt32) : (c.withSize s).ofs = c.ofs := by
  simp [ofs, NodeTree.ofs, withSize, Block.setSize]

@[simp] theorem isArr_withSize (c : Container) (s : UInt32) : (c.withSize s).isArr = c.isArr := rfl

theorem toNat_size_withSize (c : Container) (s : UInt32) :
    (c.withSize s).size.toNat = s.toNat % 2 ^ 26 := by
  rw [size, withSize, BTree.label_setRoot]
  exact Packed.toNat_size_withSize _ _

@[simp] theorem generation_withSize (c : Container) (s : UInt32) :
    (c.withSize s).generation = c.generation := by
  rw [generation, withSize, BTree.label_setRoot]
  rfl

variable {b : Buffer} {c : Container} {R : List Chunk} {key : List UInt8} {isArr : Bool} {o : ℕ}

theorem owns_root (ho : b.Owns (c.chunks ++ R)) :
    b.Owns (c.tree.label.chunk :: (c.tree.keys.map (Entry.chunk c.isArr) ++
      (c.tree.kidChunks c.isArr ++ R))) :=
  ho.perm (by simpa [chunks] using (c.tree.chunks_perm c.isArr).append_right R)

/-- A call pushes an offset in every round. -/
theorem pushes_eq {a : SetArgs} (ho : b.Owns (c.chunks ++ R)) (ha : a.Writable)
    (hk : a.isAppend = c.isArr) (hfin : (b.setImpl c.ofs a).2.usedSize < 2 ^ 32) :
    b.pushes c.ofs a = b.passed c.ofs a.keyHash a.key c.isArr +
      (b.medians c.ofs a.keyHash a.key c.isArr).length +
      if NodeView.keyCount b.mem c.ofs = nodeKeyCountMax then 1 else 0 := by
  have hh := NodeTree.height_lt ho c.shaped
  have hle : 2 * c.height + 3 ≤ 2 * b.data.length + 2 := by omega
  rw [setImpl_eq, setImplWith_snd] at hfin
  obtain ⟨x, b', c', ms, hends, -⟩ := ends (updater_updateEntry a) ho ha hk hle hfin
  have hkey : c.isArr = true → a.key = [] := fun h => by simpa [hk, h] using ha.key
  have hcount : NodeView.keyCount b.mem c.ofs = c.tree.keys.length := (seen ho).keyCount
  rw [Buffer.pushes, setStep_eq, hends.ends.rounds ((c.tree.rounds_le a).trans hle), passed ho hkey,
    medians ho hkey, List.length_map, hcount]
  rfl

theorem size_eq (ho : b.Owns (c.chunks ++ R)) : NodeView.size b.mem c.ofs = c.size :=
  ((owns_root ho).held (by simp)).size

theorem generation_eq (ho : b.Owns (c.chunks ++ R)) :
    NodeView.generation b.mem c.ofs = c.generation :=
  ((owns_root ho).held (by simp)).generation

theorem owns_setSize (ho : b.Owns (c.chunks ++ R)) (s : UInt32) :
    (b.setSize c.ofs s).Owns ((c.withSize s).chunks ++ R) := by
  have h := (owns_root ho).setSize [] _ s
  refine Buffer.Owns.perm h ?_
  have hp := ((c.withSize s).tree.chunks_perm c.isArr).append_right R
  simpa [withSize, chunks] using hp.symm

theorem owns_makeNode_of_run {bs : List UInt8} (hl : bs.length = 96)
    (hz : bs.drop 88 = List.replicate 8 0)
    (ho : ((b.ensureCapacity nodeSize).advance nodeSize).Owns (⟨o + 1, bs⟩ :: R)) :
    (b.makeNode o (kindOf isArr)).Owns ((empty isArr (o + 1)).chunks ++ R) := by
  have hw : (((b.ensureCapacity nodeSize).advance nodeSize).write (o + 1 + 0)
      (List.replicate 88 0)).Owns _ := Buffer.Owns.write [] R ho (by simp [hl])
  rw [overwrite_front (by simp [hl]), List.length_replicate, hz, ← List.replicate_add] at hw
  have hb : (((b.ensureCapacity nodeSize).advance nodeSize).clear (o + 1) (nodeSize - 8)).Owns
      ([] ++ (Block.blank (o + 1)).chunk :: R) := by
    rw [Block.blank_chunk]
    exact hw
  exact hb.setGenType [] R 1 (kindOf isArr)

theorem owns_makeNode_over (isArr : Bool) (ho : b.Owns R) (hu : o + 1 ≤ b.usedSize)
    (ha : ∀ k ∈ R, o + 1 + 96 ≤ k.ofs ∨ k.stop ≤ o + 1) (hz : ∀ i < 8, b.mem (o + 89 + i) = 0) :
    (b.makeNode o (kindOf isArr)).Owns ((empty isArr (o + 1)).chunks ++ R) := by
  have hl := b.le_length_ensureCapacity nodeSize
  obtain ⟨n, hd⟩ := b.data_ensureCapacity nodeSize
  have hused := b.usedSize_ensureCapacity nodeSize
  have h₁ : ((b.ensureCapacity nodeSize).advance nodeSize).Owns
      (⟨o + 1, slice (b.ensureCapacity nodeSize).mem (o + 1) 96⟩ :: R) :=
    Owned.cons_of_apart (n := (b.ensureCapacity nodeSize).usedSize + nodeSize)
      (ho.ensureCapacity nodeSize) (by simp) (by rw [hused]; exact hl)
      (by rw [hused]; simp only [nodeSize]; omega) ha
  refine owns_makeNode_of_run (length_slice _ _ _) ?_ h₁
  have hm : ∀ i, (b.ensureCapacity nodeSize).mem i = b.mem i := fun i => by
    rw [Buffer.mem, hd, view_grow]; rfl
  rw [show 96 = 88 + 8 by rfl, slice_add, List.drop_append_of_le_length (by simp),
    List.drop_eq_nil_of_le (by simp), List.nil_append]
  refine ext_view (by simp) fun i hi => ?_
  rw [length_slice] at hi
  rw [view_slice _ _ hi, view_replicate_zero]
  exact (hm _).trans (hz i hi)

theorem owns_makeNode (isArr : Bool) (ho : b.Owns R) (hu : o + 1 = b.usedSize) :
    (b.makeNode o (kindOf isArr)).Owns ((empty isArr (o + 1)).chunks ++ R) :=
  owns_makeNode_over isArr ho hu.le (fun k hk => Or.inr (hu ▸ ho.below k hk))
    fun i _ => ho.blank _ (by omega)

theorem owns_initStructure_over (isArr : Bool) (ho : b.Owns R) :
    (b.initStructure (kindOf isArr)).Owns ((empty isArr b.usedSize).chunks ++ R) := by
  have h₁ := (ho.ensureCapacity nodeSize).advance (n := nodeSize)
    (by simpa using b.le_length_ensureCapacity nodeSize)
  rw [Buffer.usedSize_ensureCapacity] at h₁
  have hw : (((b.ensureCapacity nodeSize).advance nodeSize).write (b.usedSize + 0)
      (List.replicate nodeSize 0)).Owns _ := Buffer.Owns.write [] R h₁ (by simp)
  rw [overwrite_front (by simp)] at hw
  have hb : (((b.ensureCapacity nodeSize).advance nodeSize).clear b.usedSize nodeSize).Owns
      ([] ++ (Block.blank b.usedSize).chunk :: R) := by
    rw [Block.blank_chunk]
    simpa [nodeSize, Buffer.clear] using hw
  have heq : b.initStructure (kindOf isArr) = (((b.ensureCapacity nodeSize).advance nodeSize).clear
      b.usedSize nodeSize).setGenType b.usedSize 1 (kindOf isArr) := by
    simp only [Buffer.initStructure, Buffer.usedSize_clear, Buffer.usedSize_ensureCapacity]
    rfl
  rw [heq]
  exact hb.setGenType [] R 1 (kindOf isArr)

theorem owns_initStructure (isArr : Bool) :
    (Buffer.empty.initStructure (kindOf isArr)).Owns (empty isArr 0).chunks := by
  have h₀ : Buffer.empty.Owns [] :=
    ⟨le_rfl, by simp, .nil, by simp, fun i _ => by simp [Buffer.empty, view]⟩
  have h := owns_initStructure_over isArr h₀
  rwa [List.append_nil] at h

theorem usedSize_makeNode (b : Buffer) (o : ℕ) (type : ValueType) :
    (b.makeNode o type).usedSize = b.usedSize + 96 := by
  simp [Buffer.makeNode, nodeSize]

theorem usedSize_le_setContainer (b : Buffer) (ofs : ℕ) (key : List UInt8) (isArr : Bool) :
    (b.setImpl ofs (setArgs key (kindOf isArr) [])).2.usedSize ≤
      (b.setContainer ofs key isArr).2.usedSize := by
  unfold Buffer.setContainer
  split
  · rename_i h
    rw [h]
  · rename_i h
    rw [h]
    exact (Nat.le_add_right _ _).trans (usedSize_makeNode _ _ _).ge

theorem usedSize_le_arrAppendContainer (b : Buffer) (ofs : ℕ) (isArr : Bool) :
    (b.setImpl ofs (appendArgs (NodeView.size b.mem ofs) (kindOf isArr) [])).2.usedSize ≤
      (b.arrAppendContainer ofs isArr).2.usedSize := by
  unfold Buffer.arrAppendContainer
  dsimp only
  split
  · rename_i h
    rw [h]
  · rename_i h
    rw [h]
    exact (Nat.le_add_right _ _).trans (usedSize_makeNode _ _ _).ge

theorem valueOfs_kind {a : SetArgs} {x : Entry} (hx : x = a.entry x.ofs) (hv : a.val = [])
    (ht : a.type = kindOf isArr) {n : ℕ} (hp : x.ofs + (a.klen + a.valTotalLen) = n) :
    x.valueOfs a.isAppend + 1 = n := by
  have hl : a.valTotalLen = 1 := by
    rw [SetArgs.valTotalLen, hv, ht]
    cases isArr <;> rfl
  have hk := a.length_keyBytes
  have hkey : x.key = a.key := by rw [hx]; rfl
  rw [Entry.valueOfs, hkey, hk]
  omega

theorem setScalar (ho : b.Owns (c.chunks ++ R)) (hc : c.isArr = false) (hk : key.length ≤ 62)
    (v : Scalar) (hfin : (b.setScalar c.ofs key v).usedSize < 2 ^ 32) :
    ∃ x c' ms, (b.setScalar c.ofs key v).Owns (c'.chunks ++ R) ∧
      Updates (setArgs key v.type v.image) b (b.setScalar c.ofs key v) c c' x ms := by
  obtain ⟨x, c', ms, -, hown, hup⟩ := setImpl ho (setArgs_writable hk v) hc.symm hfin
  exact ⟨x, c', ms, hown, hup⟩

/-- A container is created: an empty one behind the entry put into `c`. -/
structure Creates (c : Container) (b : Buffer) (c' : Container) (R : List Chunk) (key : List UInt8)
    (isArr : Bool) (x : Entry) (ms : List Entry) : Prop where
  result : (b.setContainer c.ofs key isArr).1 = some (x.valueOfs false + 1)
  owns : (b.setContainer c.ofs key isArr).2.Owns
    ((empty isArr (x.valueOfs false + 1)).chunks ++ (c'.chunks ++ R))
  updates : ∃ b', Updates (setArgs key (kindOf isArr) []) b b' c c' x ms

theorem setContainer_eq (ho : b.Owns (c.chunks ++ R)) (hc : c.isArr = false)
    (hk : key.length ≤ 62) (hfin : (b.setContainer c.ofs key isArr).2.usedSize < 2 ^ 32) :
    ∃ x c' ms b', b.setContainer c.ofs key isArr =
        (some (x.valueOfs false + 1), b'.makeNode (x.valueOfs false) (kindOf isArr)) ∧
      b.usedSize ≤ b'.usedSize ∧ b'.Owns (c'.chunks ++ R) ∧
      Updates (setArgs key (kindOf isArr) []) b b' c c' x ms := by
  obtain ⟨x, c', ms, hres, hown, hup⟩ := setImpl ho (setArgs_writable_kind hk isArr) hc.symm
    ((usedSize_le_setContainer b c.ofs key isArr).trans_lt hfin)
  rw [hc] at hres
  refine ⟨x, c', ms, _, ?_, usedSize_le_setImpl _ _ _, hown, hup⟩
  rw [Buffer.setContainer, show b.setImpl c.ofs (setArgs key (kindOf isArr) []) =
    (some (x.valueOfs false), (b.setImpl c.ofs (setArgs key (kindOf isArr) [])).2) from
      Prod.ext hres rfl]

/-- A node behind the type tag of an entry takes no bytes of a chunk, finds zeros where it is not
cleared and is not in the way of a split. -/
structure Room (b : Buffer) (c : Container) (R : List Chunk) (key : List UInt8) (e : Entry) :
    Prop where
  apart : ∀ k ∈ c.chunks ++ R, e.valueOfs false + 1 + 96 ≤ k.ofs ∨ k.stop ≤ e.valueOfs false + 1
  zero : ∀ i < 8, b.mem (e.valueOfs false + 1 + 88 + i) = 0
  behind : b.medians c.ofs (djb2Hash key) key false = [] ∨ e.valueOfs false + 1 + 96 ≤ b.usedSize

/-- Creating a container in place of a type tag with room for a node behind it. -/
theorem setContainer_over (ho : b.Owns (c.chunks ++ R)) (hc : c.isArr = false)
    (hk : key.length ≤ 62) {e : Entry} (he : e ∈ c.entries) (hroom : Room b c R key e)
    (hres : (b.setContainer c.ofs key isArr).1 = some (e.valueOfs false + 1))
    (hne : ∀ k ∈ R, k.bytes ≠ [])
    (hfin : (b.setContainer c.ofs key isArr).2.usedSize < 2 ^ 32) :
    ∃ x c' ms, c.Creates b c' R key isArr x ms := by
  obtain ⟨ha, hz, hbehind⟩ := hroom
  obtain ⟨p, hp⟩ : ∃ p, p = e.valueOfs false + 1 := ⟨_, rfl⟩
  rw [← hp] at ha hz hbehind hres
  have hpu : p ≤ b.usedSize := by
    have := ho.below (e.chunk c.isArr)
      (List.mem_append_left _ (List.mem_append_right _ (List.mem_map_of_mem he)))
    simp only [Chunk.stop, Entry.chunk, Entry.bytes, hc, List.length_append, valueBytes,
      List.length_cons] at this
    rw [hp, Entry.valueOfs]
    omega
  -- the free bytes behind the tag are owned during the call
  obtain ⟨n, hn⟩ : ∃ n, n = min 96 (b.usedSize - p) := ⟨_, rfl⟩
  have hgap : b.Owns (c.chunks ++ (⟨p, slice b.mem p n⟩ :: R)) :=
    Buffer.Owns.perm (Owned.cons_of_apart ho le_rfl ho.fits (o := p) (k := n)
      (by omega) fun k hk => by
      rcases ha k hk with h | h
      · exact Or.inl (by omega)
      · exact Or.inr h) List.perm_middle.symm
  obtain ⟨x, c', ms, b', heq, hle, hown, hup⟩ := setContainer_eq hgap hc hk hfin
  have hdrop : b'.Owns (c'.chunks ++ R) :=
    Owned.sublist hown ((List.sublist_cons_self _ _).append_left _)
  have hx : x.valueOfs false + 1 = p := by simpa [heq] using hres
  refine ⟨x, c', ms, congrArg Prod.fst heq, ?_, b', hup⟩
  rw [heq, hx]
  rcases hup.placed.place with ⟨-, hend⟩ | ⟨d, hd, hdeq, hofs, -⟩
  · have hv := valueOfs_kind hup.placed.eq rfl rfl hend
    rw [← hx]
    exact owns_makeNode _ hdrop hv
  -- either a whole node fits between the chunks, or nothing was placed behind the gap
  have hend : n = 96 ∨ p + n = b.usedSize ∧ b'.usedSize = b.usedSize := by
    rcases hbehind with hm | hbehind
    · rcases hup.placed.still (promoted_nil hgap hc hup hm) with h | h
      · rw [Entry.valueOfs] at hx
        omega
      · omega
    · exact Or.inl (by omega)
  have hapart : ∀ k ∈ c'.chunks ++ R, p + n ≤ k.ofs ∨ k.stop ≤ p := by
    intro k hk
    have h₀ := Buffer.Owns.perm hown List.perm_middle
    have := (List.pairwise_cons.mp h₀.apart).1 k hk
    simpa [Chunk.Apart, Chunk.stop] using this
  rw [show p = x.valueOfs false + 1 from hx.symm]
  refine owns_makeNode_over _ hdrop (by omega) (fun k hk => ?_) fun i hi => ?_
  · rcases hapart k hk with h | h
    · rcases hend with rfl | ⟨hpn, hused⟩
      · exact Or.inl (by omega)
      · have hlt := hdrop.below k hk
        have hpos : 0 < k.bytes.length := by
          refine List.length_pos_iff.mpr ?_
          rcases List.mem_append.mp hk with hk | hk
          · exact NodeTree.chunks_ne_nil _ _ k hk
          · exact hne k hk
        rw [Chunk.stop] at hlt
        omega
    · exact Or.inr (by omega)
  · have hz' := hz i hi
    rw [show p + 88 + i = x.valueOfs false + 89 + i by omega] at hz'
    by_cases hin : x.valueOfs false + 89 + i < p + n
    · have hs : slice b'.mem p n = slice b.mem p n := by
        have := hown.slice_eq (c := ⟨p, slice b.mem p n⟩) (by simp)
        simpa using this
      have hv := congrArg (fun l => view l (89 + i - 1)) hs
      simp only [view_slice _ p (show 89 + i - 1 < n by omega)] at hv
      rw [show p + (89 + i - 1) = x.valueOfs false + 89 + i by omega] at hv
      rw [hv, hz']
    · exact hdrop.blank _ (by omega)

/-- Creating a container when every type tag that it may be put behind has room for its node. -/
theorem setContainer (ho : b.Owns (c.chunks ++ R)) (hc : c.isArr = false) (hk : key.length ≤ 62)
    (hroom : ∀ e ∈ c.entries, (setArgs key (kindOf isArr) []).cmp e = .eq →
      (valueBytes e.type e.val).length = 1 → Room b c R key e)
    (hne : ∀ k ∈ R, k.bytes ≠ [])
    (hfin : (b.setContainer c.ofs key isArr).2.usedSize < 2 ^ 32) :
    ∃ x c' ms, c.Creates b c' R key isArr x ms := by
  obtain ⟨x, c', ms, b', heq, -, hown, hup⟩ := setContainer_eq ho hc hk hfin
  rcases hup.placed.place with ⟨-, hend⟩ | ⟨e, he, hcmp, hofs, hl⟩
  · have hv := valueOfs_kind hup.placed.eq rfl rfl hend
    exact ⟨x, c', ms, congrArg Prod.fst heq, by rw [heq]; exact owns_makeNode _ hown hv, b', hup⟩
  · have hlen : (setArgs key (kindOf isArr) []).valTotalLen = 1 := by cases isArr <;> rfl
    have hkey : x.key = e.key := by
      rw [(SetArgs.eq_of_cmp hcmp).2]
      exact congrArg Prod.snd hup.filed_eq
    refine setContainer_over ho hc hk he (hroom e he hcmp (hl.trans hlen)) ?_ hne hfin
    rw [heq, Entry.valueOfs, Entry.valueOfs, hofs, hkey]

/-- Appending to an array whose indices so far are below its size. -/
theorem arrAppend (ho : b.Owns (c.chunks ++ R)) (hc : c.isArr = true) (v : Scalar)
    (hfin : (b.arrAppend c.ofs v).usedSize < 2 ^ 32) :
    ∃ x c' ms b₁, (b.arrAppend c.ofs v).Owns ((c'.withSize (c.size + 1)).chunks ++ R) ∧
      Updates (appendArgs c.size v.type v.image) b b₁ c c' x ms := by
  have hs := size_eq ho
  rw [Buffer.arrAppend, hs] at hfin ⊢
  obtain ⟨x, c', ms, -, hown, hup⟩ := setImpl ho (appendArgs_writable c.size v) hc.symm hfin
  refine ⟨x, c', ms, _, ?_, hup⟩
  rw [← hup.ofs] at hown ⊢
  exact owns_setSize hown _

theorem arrAppendContainer (ho : b.Owns (c.chunks ++ R)) (hc : c.isArr = true)
    (hall : ∀ e ∈ c.entries, e.hash < c.size)
    (hfin : (b.arrAppendContainer c.ofs isArr).2.usedSize < 2 ^ 32) :
    ∃ x c' ms b₁, b.arrAppendContainer c.ofs isArr =
        (some (x.valueOfs true + 1), (b.arrAppendContainer c.ofs isArr).2) ∧
      (b.arrAppendContainer c.ofs isArr).2.Owns ((empty isArr (x.valueOfs true + 1)).chunks ++
        ((c'.withSize (c.size + 1)).chunks ++ R)) ∧
      Updates (appendArgs c.size (kindOf isArr) []) b b₁ c c' x ms := by
  have hs := size_eq ho
  have hle := usedSize_le_arrAppendContainer b c.ofs isArr
  rw [hs] at hle
  obtain ⟨x, c', ms, hres, hown, hup⟩ := setImpl ho (appendArgs_writable_kind c.size isArr) hc.symm
    (hle.trans_lt hfin)
  obtain ⟨-, hend⟩ := hup.fresh fun e he heq => by
    have hlt : (appendArgs c.size (kindOf isArr) []).cmp e = .lt :=
      Entry.cmp_lt_of_hash_lt (hall e he)
    simp [hlt] at heq
  have hv := valueOfs_kind hup.placed.eq rfl rfl hend
  rw [hc] at hres
  have he : b.arrAppendContainer c.ofs isArr = (some (x.valueOfs true + 1),
      ((b.setImpl c.ofs (appendArgs c.size (kindOf isArr) [])).2.makeNode (x.valueOfs true)
        (kindOf isArr)).setSize c.ofs (c.size + 1)) := by
    rw [Buffer.arrAppendContainer, hs, show b.setImpl c.ofs (appendArgs c.size (kindOf isArr) []) =
      (some (x.valueOfs true), (b.setImpl c.ofs (appendArgs c.size (kindOf isArr) [])).2) from
        Prod.ext hres rfl]
  rw [he]
  refine ⟨x, c', ms, _, rfl, ?_, hup⟩
  have h₁ := Buffer.Owns.perm (owns_makeNode isArr hown hv) (List.perm_append_comm_assoc _ _ _)
  have h₂ := Buffer.Owns.perm (owns_setSize h₁ (c.size + 1)) (List.perm_append_comm_assoc _ _ _)
  rwa [hup.ofs] at h₂

end Container

end Lite3
