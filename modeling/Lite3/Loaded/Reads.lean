import Lite3.Loaded.Iteration

/-! # What an iteration reads

The regions that an iterator reads are listed beside its functions, in the order
of the reads. Entries are read only where they lie inside the vector, nodes are
read wherever an offset leads. What an iterator does depends on nothing else.
-/

namespace Lite3

open NodeView Config

/-- The bytes from `ofs` on. -/
structure Region where
  ofs : ℕ
  length : ℕ
  deriving DecidableEq

namespace Region

/-- The bytes of the node at `o`. -/
def node (o : ℕ) : Region := ⟨o, nodeSize⟩

/-- The region ends within a vector of `size` bytes. -/
def Inside (size : ℕ) (r : Region) : Prop := r.ofs + r.length ≤ size

instance (size : ℕ) : DecidablePred (Inside size) := fun r =>
  inferInstanceAs (Decidable (r.ofs + r.length ≤ size))

/-- Both pointers see the same bytes in the region. -/
def Same (m m' : Mem) (r : Region) : Prop := ∀ i < r.length, m (r.ofs + i) = m' (r.ofs + i)

end Region

namespace Iterator

/-- The nodes on the way down to a first key -/
def descendReads (m : Mem) : ℕ → List (ℕ × ℕ) → List Region
  | n + 1, (o, i) :: st =>
    .node o ::
      if getChildOffset m o 0 ≠ 0 then descendReads m n ((getChildOffset m o 0, 0) :: (o, i) :: st)
      else []
  | 0, (o, _) :: _ => [.node o]
  | _, [] => []

def findFirstReads (m : Mem) (size : ℕ) (it : Iterator) : List Region :=
  if it.hasBuffer then
    if size = 0 then []
    else if it.generation ≠ NodeView.generation m 0 then [.node 0]
    else .node 0 :: descendReads m (treeHeightMax + 1 - it.stack.length) it.stack
  else []

/-- The nodes whose keys are used up, and the one that has a key to go -/
def unwindReads (m : Mem) : List (ℕ × ℕ) → List Region
  | [] => []
  | (o, i) :: st => .node o :: if keyCount m o ≤ i then unwindReads m st else []

/-- The key tag, the characters of the key and the type tag, as far as they lie within the vector -/
def entryReads (m : Mem) (size kvOffset : ℕ) : List Region :=
  if size ≤ kvOffset then []
  else
    let keySize := ((m kvOffset) >>> 2).toNat
    if keySize = 0 ∨ size < kvOffset + 1 + keySize then [⟨kvOffset, 1⟩]
    else
      let valueOffset := kvOffset + 1 + keySize
      if size ≤ valueOffset then [⟨kvOffset, 1⟩, ⟨kvOffset + 1, keySize - 1⟩]
      else [⟨kvOffset, 1⟩, ⟨kvOffset + 1, keySize - 1⟩, ⟨valueOffset, 1⟩]

def findNextReads (m : Mem) (size : ℕ) (it : Iterator) : List Region :=
  if it.hasBuffer then
    if size = 0 then []
    else if it.generation ≠ NodeView.generation m 0 then [.node 0]
    else
      .node 0 :: (unwindReads m it.stack ++
        match unwind m it.stack with
        | [] => []
        | (o, i) :: st =>
          entryReads m size (getKvOffset m o i) ++
            match readEntry m size (getKvOffset m o i) with
            | none => []
            | some v =>
              let child := getChildOffset m o (i + 1)
              if child ≠ 0 ∧ st.length < treeHeightMax then
                findFirstReads m size
                  { it with current := some v, stack := (child, 0) :: (o, i + 1) :: st }
              else [])
  else []

/-- The reads of the constructor on a buffer that is not empty -/
def startReads (m : Mem) (size nodeOffset : ℕ) (generation : UInt32) : List Region :=
  let it : Iterator := ⟨true, generation, [(nodeOffset, 0)], none⟩
  findFirstReads m size it ++ findNextReads m size (findFirst m size it)

def beginReads (m : Mem) (size ofs : ℕ) : List Region :=
  if size = 0 then [] else .node 0 :: startReads m size ofs (NodeView.generation m 0)

/-- The reads of `begin`, and of the `k`-th increment after it. -/
def readsAt (m : Mem) (size ofs : ℕ) : ℕ → List Region
  | 0 => beginReads m size ofs
  | k + 1 => findNextReads m size (nth m size ofs k)

end Iterator

variable {m m' : Mem} {size o i n k : ℕ} {st : List (ℕ × ℕ)}

namespace Region.Same

theorem load32 (h : (node o).Same m m') (ho : o ≤ k) (hk : k + 4 ≤ o + 96) :
    Bytes.load32 m k = Bytes.load32 m' k := by
  obtain ⟨j, rfl⟩ := Nat.exists_eq_add_of_le ho
  unfold Bytes.load32
  congr 2
  apply Bytes.slice_congr
  intro i hi
  rw [Nat.add_assoc]
  exact h (j + i) (show j + i < 96 by omega)

theorem generation (h : (node o).Same m m') : generation m o = generation m' o :=
  congrArg Packed.generation (h.load32 le_rfl (by omega))

theorem keyCount (h : (node o).Same m m') : keyCount m o = keyCount m' o :=
  congrArg Packed.keyCount (h.load32 (by omega) (by omega))

theorem getKvOffset (h : (node o).Same m m') (hi : i < 7) :
    getKvOffset m o i = getKvOffset m' o i :=
  congrArg UInt32.toNat (h.load32 (by omega) (by omega))

theorem getChildOffset (h : (node o).Same m m') (hi : i < 8) :
    getChildOffset m o i = getChildOffset m' o i :=
  congrArg UInt32.toNat (h.load32 (by omega) (by omega))

end Region.Same

namespace Iterator

theorem descend_congr (h : ∀ r ∈ descendReads m n st, r.Same m m') :
    descend m n st = descend m' n st ∧ descendReads m n st = descendReads m' n st := by
  induction n generalizing st with
  | zero => cases st <;> exact ⟨rfl, rfl⟩
  | succ n ih =>
    cases st with
    | nil => exact ⟨rfl, rfl⟩
    | cons p st =>
      obtain ⟨o, i⟩ := p
      unfold descendReads at h
      have hc := (h _ (.head _)).getChildOffset (show 0 < 8 by decide)
      unfold descend descendReads
      rw [← hc]
      split
      · next hne =>
        rw [if_pos hne] at h
        obtain ⟨hs, hr⟩ := ih fun r hr => h r (.tail _ hr)
        rw [hs, hr]
        exact ⟨rfl, rfl⟩
      · exact ⟨rfl, rfl⟩

variable {it : Iterator}

theorem findFirst_congr (h : ∀ r ∈ findFirstReads m size it, r.Same m m') :
    findFirst m size it = findFirst m' size it ∧
      findFirstReads m size it = findFirstReads m' size it := by
  unfold findFirst findFirstReads at *
  by_cases hb : it.hasBuffer
  · by_cases hz : size = 0
    · simp [hz]
    · have hg : NodeView.generation m 0 = NodeView.generation m' 0 := by
        apply Region.Same.generation
        apply h
        split_ifs <;> exact .head _
      simp only [hb, hz, ← hg, if_true, if_false] at h ⊢
      split_ifs with hgen
      · exact ⟨rfl, rfl⟩
      · rw [if_neg hgen] at h
        obtain ⟨hs, hr⟩ := descend_congr fun r hr => h r (.tail _ hr)
        rw [hs, hr]
        exact ⟨rfl, rfl⟩
  · simp [hb]

theorem unwind_congr (h : ∀ r ∈ unwindReads m st, r.Same m m') :
    unwind m st = unwind m' st ∧ unwindReads m st = unwindReads m' st := by
  induction st with
  | nil => exact ⟨rfl, rfl⟩
  | cons p st ih =>
    obtain ⟨o, i⟩ := p
    unfold unwindReads at h
    have hc := (h _ (.head _)).keyCount
    unfold unwind unwindReads
    rw [← hc]
    split_ifs with hk
    · rw [if_pos hk] at h
      obtain ⟨hs, hr⟩ := ih fun r hr => h r (.tail _ hr)
      rw [hs, hr]
      exact ⟨rfl, rfl⟩
    · exact ⟨rfl, rfl⟩

theorem node_mem_unwindReads {st' : List (ℕ × ℕ)} (h : unwind m st = (o, i) :: st') :
    .node o ∈ unwindReads m st := by
  induction st with
  | nil => simp [unwind] at h
  | cons p st ih =>
    obtain ⟨o', i'⟩ := p
    unfold unwind at h
    unfold unwindReads
    split at h
    · next hk =>
      rw [if_pos hk]
      exact .tail _ (ih h)
    · obtain ⟨⟨rfl, rfl⟩, rfl⟩ : (o' = o ∧ i' = i) ∧ st = st' := by simpa using h
      exact .head _

theorem readEntry_congr (h : ∀ r ∈ entryReads m size k, r.Same m m') :
    readEntry m size k = readEntry m' size k ∧ entryReads m size k = entryReads m' size k := by
  unfold readEntry entryReads at *
  by_cases hk : size ≤ k
  · simp [hk]
  · have ht : m k = m' k := by
      have hs : (⟨k, 1⟩ : Region).Same m m' := by
        apply h
        rw [if_neg hk]
        dsimp only
        split_ifs <;> exact .head _
      exact hs 0 Nat.one_pos
    simp only [hk, if_false, ← ht] at h ⊢
    split_ifs with hs hv
    · exact ⟨rfl, trivial⟩
    · exact ⟨rfl, trivial⟩
    · rw [if_neg hs, if_neg hv] at h
      have hkey : Bytes.slice m (k + 1) (((m k) >>> 2).toNat - 1) =
          Bytes.slice m' (k + 1) (((m k) >>> 2).toNat - 1) :=
        Bytes.slice_congr (h _ (.tail _ (.head _)))
      have htype : m (k + 1 + ((m k) >>> 2).toNat) = m' (k + 1 + ((m k) >>> 2).toNat) :=
        h _ (.tail _ (.tail _ (.head _))) 0 Nat.one_pos
      rw [hkey, htype]
      exact ⟨rfl, trivial⟩

/-- What an increment does and reads depends on nothing but what it reads. -/
theorem findNext_congr (h : ∀ r ∈ findNextReads m size it, r.Same m m') :
    findNext m size it = findNext m' size it ∧
      findNextReads m size it = findNextReads m' size it := by
  unfold findNext findNextReads at *
  by_cases hb : it.hasBuffer
  · by_cases hz : size = 0
    · simp [hz]
    · have hg : NodeView.generation m 0 = NodeView.generation m' 0 := by
        apply Region.Same.generation
        apply h
        rw [if_pos hb, if_neg hz]
        split_ifs <;> exact .head _
      simp only [hb, hz, ← hg, if_true, if_false, false_or] at h ⊢
      split_ifs with hgen
      · exact ⟨rfl, rfl⟩
      · rw [if_neg hgen] at h
        obtain ⟨hs, hr⟩ := unwind_congr fun r hr => h r (.tail _ (List.mem_append_left _ hr))
        rw [← hs, ← hr]
        cases hu : unwind m it.stack with
        | nil => exact ⟨rfl, rfl⟩
        | cons p st =>
          obtain ⟨o, i⟩ := p
          have hi := lt_of_unwind hu
          have hnode : (Region.node o).Same m m' :=
            h _ (.tail _ (List.mem_append_left _ (node_mem_unwindReads hu)))
          simp only [hu] at h
          dsimp only
          rw [← hnode.getKvOffset hi, ← hnode.getChildOffset (show i + 1 < 8 by omega)]
          obtain ⟨he, her⟩ := readEntry_congr fun r hr =>
            h r (.tail _ (List.mem_append_right _ (List.mem_append_left _ hr)))
          rw [← he, ← her]
          cases hv : readEntry m size (getKvOffset m o i) with
          | none => exact ⟨rfl, rfl⟩
          | some v =>
            simp only [hv] at h
            dsimp only
            split_ifs with hc
            · rw [if_pos hc] at h
              obtain ⟨hf, hfr⟩ := findFirst_congr fun r hr =>
                h r (.tail _ (List.mem_append_right _ (List.mem_append_right _ hr)))
              rw [← hf, ← hfr]
              exact ⟨rfl, rfl⟩
            · exact ⟨rfl, rfl⟩
  · simp [hb]

variable {ofs : ℕ}

theorem begin_congr (h : ∀ r ∈ beginReads m size ofs, r.Same m m') :
    beginAt m size ofs = beginAt m' size ofs ∧ beginReads m size ofs = beginReads m' size ofs := by
  unfold beginAt beginReads startReads start at *
  by_cases hz : size = 0
  · simp [hz]
  · rw [if_neg hz] at h
    rw [if_neg hz, if_neg hz, if_neg hz, if_neg hz, ← (h _ (.head _)).generation]
    dsimp only at h ⊢
    obtain ⟨hf, hfr⟩ := findFirst_congr fun r hr => h r (.tail _ (List.mem_append_left _ hr))
    obtain ⟨hn, hnr⟩ := findNext_congr fun r hr => h r (.tail _ (List.mem_append_right _ hr))
    rw [← hf, ← hfr, ← hn, ← hnr]
    exact ⟨rfl, rfl⟩

theorem nth_congr (h : ∀ k, ∀ r ∈ readsAt m size ofs k, r.Same m m') (k : ℕ) :
    nth m size ofs k = nth m' size ofs k := by
  induction k with
  | zero => exact (begin_congr (h 0)).1
  | succ k ih =>
    rw [nth_succ, nth_succ, ← ih]
    exact (findNext_congr (h (k + 1))).1

theorem readsAt_congr (h : ∀ k, ∀ r ∈ readsAt m size ofs k, r.Same m m') (k : ℕ) :
    readsAt m size ofs k = readsAt m' size ofs k := by
  cases k with
  | zero => exact (begin_congr (h 0)).2
  | succ k =>
    rw [readsAt, readsAt, ← nth_congr h k]
    exact (findNext_congr (h (k + 1))).2

end Iterator

end Lite3
