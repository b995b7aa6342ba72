import Lite3.Buffer.Api
import Lite3.Layout.Descent

/-! # Containers

A container is a laid out tree whose entries can be read. Setting an entry is
an insertion at its root and leaves everything outside the tree as it is;
looking an entry up is a search in the tree.
-/

namespace Lite3

open Bytes Lite3.Tree

theorem kindOf_named (isArr : Bool) : (kindOf isArr).Named := by cases isArr <;> trivial

structure Container where
  isArr : Bool
  height : ℕ
  tree : NodeTree height
  laid : tree.Laid (kindOf isArr)
  shaped : tree.Shaped 3
  readable : ∀ e ∈ tree.inorder, e.Readable isArr

namespace Container

def ofs (c : Container) : ℕ := c.tree.ofs

def chunks (c : Container) : List Chunk := c.tree.chunks c.isArr

def entries (c : Container) : List Entry := c.tree.inorder

def size (c : Container) : UInt32 := c.tree.label.size

def generation (c : Container) : UInt32 := c.tree.label.generation

end Container

/-- Arguments that describe a readable entry, up to the length of strings and byte strings. -/
structure SetArgs.Writable (a : SetArgs) : Prop where
  key : if a.isAppend then a.key = [] else a.key.length ≤ 62
  named : a.type.Named
  val : a.type = .string ∨ a.type = .bytes ∨ ValOk a.type a.val

theorem SetArgs.Writable.readable {a : SetArgs} (h : a.Writable) (hl : a.valTotalLen < 2 ^ 32)
    (o : ℕ) : (a.entry o).Readable a.isAppend := by
  refine ⟨h.key, h.named, ?_⟩
  rw [SetArgs.valTotalLen] at hl
  rcases h.val with ht | ht | hv
  · simp only [ht, true_or, if_true] at hl
    simp only [SetArgs.entry, ht, ValOk]
    omega
  · simp only [ht, or_true, if_true, reduceCtorEq, if_false] at hl
    simp only [SetArgs.entry, ht, ValOk]
    omega
  · exact hv

theorem Placed.valTotalLen_lt {a : SetArgs} {b b' : Buffer} {c : Container} {R : List Chunk}
    {x : Entry} {ms : List Entry} (hp : Placed a b b' c.entries x ms) (ho : b.Owns (c.chunks ++ R))
    (hb : b.usedSize ≤ b'.usedSize) (hfin : b'.usedSize < 2 ^ 32) : a.valTotalLen < 2 ^ 32 := by
  rcases hp.place with ⟨-, hl⟩ | ⟨e, he, -, -, hl⟩
  · omega
  · have hmem : e.chunk c.isArr ∈ c.chunks ++ R :=
      List.mem_append_left _ (List.mem_append_right _ (List.mem_map_of_mem he))
    have hle := ho.below _ hmem
    simp only [Chunk.stop, Entry.chunk, Entry.bytes, List.length_append] at hle
    omega

namespace NodeTree

variable {update : Update} {a : SetArgs} {b : Buffer} {type : ValueType} {R : List Chunk}
  {h n d : ℕ}

theorem chunks_ne_nil (isArr : Bool) (t : NodeTree h) : ∀ c ∈ t.chunks isArr, c.bytes ≠ [] := by
  intro c hc
  simp only [chunks, List.mem_append, List.mem_map] at hc
  rcases hc with ⟨B, -, rfl⟩ | ⟨e, -, rfl⟩
  · intro hn
    have := B.length_chunk
    simp [hn] at this
  · simp [Entry.chunk, Entry.bytes, valueBytes]

theorem height_lt {t : NodeTree h} {isArr : Bool} (ho : b.Owns (t.chunks isArr ++ R))
    (hs : t.Shaped 3) : h < b.data.length := by
  have hle := Owned.length_le (Owned.sublist ho (List.sublist_append_left _ R))
    (t.chunks_ne_nil isArr)
  have hlt := BTree.height_lt_length_labels hs
  have hf := ho.fits
  rw [chunks, List.length_append, List.length_map] at hle
  omega

/-- The rounds of a call at the root: one for each node passed, each median promoted, and the split
of the root. -/
def rounds (a : SetArgs) (t : NodeTree h) : ℕ :=
  t.passedRoot 3 a.cmp a.right + (t.promotedRoot 3 a.cmp a.right).length +
    if t.keys.length = 7 then 1 else 0

theorem rounds_le (a : SetArgs) (t : NodeTree h) : t.rounds a ≤ 2 * h + 3 := by
  have : t.passed 3 a.cmp a.right ≤ h + 1 ∧ _ := t.passed_le
  unfold rounds
  split_ifs <;> omega

/-- The state after the split of a full root: the tree is ready below a node without keys. -/
theorem Ready.splitRoot (update : Update) (d : ℕ) {t : NodeTree h} (hr : Ready a b type R t)
    (hk : t.keys.length = 7) :
    ∃ b₁ s, setStepWith update a ⟨b, none, t.ofs, d⟩ = .inl ⟨b₁, some t.ofs, s, d⟩ ∧
      b.usedSize ≤ b₁.usedSize ∧ b₁.usedSize ≤ b.usedSize + 99 ∧ s ≤ b₁.usedSize ∧
      Ready a b₁ type ((t.label.bump.rootOver s).chunk :: R)
        (BTree.setRoot (t.label.bump.moved s) t.keys t : NodeTree h) ∧
      (s < 2 ^ 32 → Fits type (t.label.bump.rootOver s) [] [s]) := by
  have hs := hr.stands
  obtain ⟨hroom, hu, hlen⟩ := hs.touch.owns.makeRoom none
  have hu' : ((b.touch t.ofs).makeRoom none).usedSize ≤ b.usedSize + 3 :=
    ((b.touch t.ofs).usedSize_makeRoom _).2
  have hstep : setStepWith update a ⟨b, none, _, d⟩ = _ := step_splitRoot hs hk
  have hofs : t.label.ofs = t.ofs := rfl
  rw [hofs] at hroom hu hlen hstep
  generalize (b.touch t.ofs).makeRoom none = b₀ at hroom hu hu' hlen hstep
  have hgrown := b₀.usedSize_splitRoot t.ofs
  have hs₀ : b₀.usedSize ≠ 0 := by
    have := hroom.below t.label.bump.chunk (by simp)
    simp only [Chunk.stop, Block.length_chunk] at this
    omega
  have hbelow : b.usedSize ≤ b₀.usedSize := hu
  have hf := hr.laid.fits.bump hr.named
  refine ⟨_, _, hstep, by omega, by omega, by omega, ?_, fun hs32 => ?_⟩
  · have hown := hroom.splitRoot hlen
    refine ⟨owns_setRoot (hown.perm (perm_of_coe ?_)), hr.laid.setRoot (hf.moved _), ?_, ?_,
      hr.named, hr.keyed⟩
    · simp only [← Multiset.coe_add, ← Multiset.cons_coe, ← Multiset.singleton_add]
      abel
    · exact hr.shaped.setRoot _
    · simpa using hr.readable
  · have := Fits.rootOver (B := t.label.bump) (by rw [hf.type_eq]; exact hr.named) hs32 hs₀
    rwa [hf.type_eq] at this

theorem Ready.root (hup : Updater update a) {t : NodeTree h} (hr : Ready a b type R t)
    (hn : 2 * h + 3 ≤ n)
    (hfin : (SetState.bufOf
      (Loop.run (setStepWith update a) n ⟨b, none, t.ofs, d⟩)).usedSize < 2 ^ 32) :
    ∃ x b' ms, ∃ t' : Σ h, NodeTree h,
      Loop.EndsIn SetState.Inside (setStepWith update a) ⟨b, none, t.ofs, d⟩ (t.rounds a)
        (some (x.valueOfs a.isAppend), b') ∧
      BTree.PutRoot 3 a.cmp (a.right · = true) x ⟨h, t⟩ t' ms ∧ t'.2.Laid type ∧
      b'.Owns (t'.2.chunks a.isAppend ++ R) ∧ Placed a b b' t.inorder x ms ∧
      Added a b b' (ms.length + if t.keys.length = 7 then 1 else 0) ∧
      t'.2.ofs = t.ofs ∧ t'.2.label.size = t.label.size ∧
      t'.2.label.generation = if t.keys.length = 7 then 1 else t.label.bump.generation := by
  rcases Nat.lt_or_ge t.keys.length 7 with hk | hk
  · obtain ⟨x, b', ms, t', hrun, hp, hlaid, hown, hkept, hpl, hadd⟩ :=
      putsAll hup type h hr hk (by omega) hfin
    refine ⟨x, b', ms, ⟨h, t'⟩, ?_, .whole hk hp, hlaid, hown, hpl, ?_, hkept.ofs, hkept.size, ?_⟩
    · rw [rounds, if_neg hk.ne, BTree.passedRoot_of_lt hk, BTree.promotedRoot_of_lt hk,
        ← hp.promoted_eq]
      exact hrun
    · rwa [if_neg hk.ne]
    · rw [if_neg hk.ne]
      exact congrArg Packed.generation hkept.genType
  have hk7 : t.keys.length = 7 := le_antisymm hr.laid.length_le hk
  obtain ⟨n, rfl⟩ : ∃ k, n = k + 1 := ⟨n - 1, by omega⟩
  obtain ⟨b₁, s, hstep, hu, hu', hs, hready, hfits⟩ := hr.splitRoot update d hk7
  rw [Loop.run, hstep] at hfin
  dsimp only at hfin
  have hs32 : s < 2 ^ 32 := by
    have := usedSize_le_run hup.grows n ⟨b₁, some t.ofs, s, d⟩
    dsimp only at this
    omega
  have hP := hfits hs32
  have hvisits : Visits update a type R
      ⟨b₁, some (t.label.bump.rootOver s).ofs,
        ofs (BTree.setRoot (t.label.bump.moved s) t.keys t), d⟩
      (t.label.bump.rootOver s) [] [] [] []
      (BTree.setRoot (t.label.bump.moved s) t.keys t) :=
    (putsAll hup type h).visit (n := n) hup.grows hready (by simpa [ofs] using hP) rfl rfl (by simp)
      (by simp) (by omega) (by simpa [ofs, Block.rootOver] using hfin)
  obtain ⟨x, b', ms, P', D, E, hrun, hv, hf', hD, hown', hkept, hpl, hadd⟩ := hvisits
  simp only [List.nil_append, List.append_nil] at hv hf' hown'
  have hv' := BTree.Visit.of_setRoot (c := t) (l := t.label.bump.moved s) hv
  have hp : BTree.PutRoot 3 a.cmp (a.right · = true) x ⟨h, t⟩ ⟨h + 1, BTree.inner P' E D⟩ ms :=
    .split hk7 hv'
  have hlaid : NodeTree.Laid type (BTree.inner P' E D : NodeTree (h + 1)) := ⟨hf', hD⟩
  refine ⟨x, b', ms, ⟨h + 1, BTree.inner P' E D⟩, ?_, hp, hlaid,
    hown'.perm (perm_of_coe ?_), ?_, ?_, hkept.ofs, hkept.size.trans ?_, ?_⟩
  · rw [rounds, if_pos hk7, ← show ms = t.promotedRoot 3 a.cmp a.right from hp.promoted_eq]
    rw [BTree.passedRoot_setRoot] at hrun
    exact .next (hr.inside none d) hstep (by simpa [ofs, Block.rootOver] using hrun)
  · have hp := (chunks_perm a.isAppend (BTree.inner P' E D)).append_right R
    exact Multiset.coe_eq_coe.mpr (by simpa [kidChunks] using hp.symm)
  · refine hpl.weaken ?_ (by simp) fun hms => absurd hms (hv'.ne_nil_of_full hk7)
    exact hu
  · rw [if_pos hk7]
    simp only [Added] at hadd ⊢
    omega
  · simp [Block.rootOver, Block.size, Block.setSizeKc, Block.bump, Block.setGenType]
  · rw [if_pos hk7]
    have hg : P'.genType = Packed.genType 1 t.label.bump.type := hkept.genType
    apply UInt32.toNat_inj.mp
    rw [BTree.label_inner, Block.generation, hg, Packed.toNat_generation_genType]
    rfl

end NodeTree

/-- A call turns container `c` into `c'`: entry `x` is put into its tree, promoting `ms`. -/
structure Updates (a : SetArgs) (b b' : Buffer) (c c' : Container) (x : Entry) (ms : List Entry) :
    Prop where
  kind : c'.isArr = c.isArr
  put : BTree.PutRoot 3 a.cmp (a.right · = true) x ⟨c.height, c.tree⟩ ⟨c'.height, c'.tree⟩ ms
  placed : Placed a b b' c.entries x ms
  added : Added a b b' (ms.length + if c.tree.keys.length = 7 then 1 else 0)
  ofs : c'.ofs = c.ofs
  size : c'.size = c.size
  generation : c'.generation =
    if c.tree.keys.length = 7 then 1 else c.tree.label.bump.generation

namespace Container

variable {update : Update} {a : SetArgs} {b : Buffer} {c : Container} {R : List Chunk} {n d : ℕ}

/-- The descent from the root of a container, when the buffer stays below 4 GiB. -/
theorem ends (hup : Updater update a) (ho : b.Owns (c.chunks ++ R)) (ha : a.Writable)
    (hk : a.isAppend = c.isArr) (hn : 2 * c.height + 3 ≤ n)
    (hfin : (SetState.bufOf
      (Loop.run (setStepWith update a) n ⟨b, none, c.ofs, d⟩)).usedSize < 2 ^ 32) :
    ∃ x b' c' ms, Loop.EndsIn SetState.Inside (setStepWith update a) ⟨b, none, c.ofs, d⟩
        (c.tree.rounds a) (some (x.valueOfs c.isArr), b') ∧
      b'.Owns (c'.chunks ++ R) ∧ Updates a b b' c c' x ms := by
  have hkey : a.isAppend = true → a.key = [] := fun h => by simpa [h] using ha.key
  have hready : NodeTree.Ready a b (kindOf c.isArr) R c.tree :=
    ⟨by rw [hk]; exact ho, c.laid, c.shaped, by rw [hk]; exact c.readable, kindOf_named _, hkey⟩
  obtain ⟨x, b', ms, ⟨h, t'⟩, hends, hp, hlaid, hown, hpl, hadd, hofs, hsize, hgen⟩ :=
    hready.root hup hn hfin
  have hrun := hends.ends.run ((c.tree.rounds_le a).trans hn)
  have hb := usedSize_le_run hup.grows n ⟨b, none, c.tree.ofs, d⟩
  rw [show c.ofs = c.tree.ofs from rfl, hrun] at hfin
  rw [hrun] at hb
  rw [hk] at hown hends
  refine ⟨x, b', ⟨c.isArr, h, t', hlaid, hp.shaped c.shaped, fun e he => ?_⟩, ms, hends, hown,
    ⟨rfl, hp, hpl, hadd, hofs, hsize, hgen⟩⟩
  rcases hp.mem c.shaped he with rfl | he
  · rw [hpl.eq, ← hk]
    exact ha.readable (hpl.valTotalLen_lt ho hb hfin) _
  · exact c.readable e he

theorem setImplWith (hup : Updater update a) (ho : b.Owns (c.chunks ++ R)) (ha : a.Writable)
    (hk : a.isAppend = c.isArr) (hfin : (b.setImplWith update c.ofs a).2.usedSize < 2 ^ 32) :
    ∃ x c' ms, (b.setImplWith update c.ofs a).1 = some (x.valueOfs c.isArr) ∧
      (b.setImplWith update c.ofs a).2.Owns (c'.chunks ++ R) ∧
      Updates a b (b.setImplWith update c.ofs a).2 c c' x ms := by
  have hh := NodeTree.height_lt ho c.shaped
  have hle : 2 * c.height + 3 ≤ 2 * b.data.length + 2 := by omega
  rw [setImplWith_snd] at hfin
  obtain ⟨x, b', c', ms, hends, hown, hupd⟩ := ends hup ho ha hk hle hfin
  have hset : b.setImplWith update c.ofs a = (some (x.valueOfs c.isArr), b') := by
    rw [Buffer.setImplWith, hends.ends.run ((c.tree.rounds_le a).trans hle)]
  rw [hset]
  exact ⟨x, c', ms, rfl, hown, hupd⟩

theorem setImpl (ho : b.Owns (c.chunks ++ R)) (ha : a.Writable) (hk : a.isAppend = c.isArr)
    (hfin : (b.setImpl c.ofs a).2.usedSize < 2 ^ 32) :
    ∃ x c' ms, (b.setImpl c.ofs a).1 = some (x.valueOfs c.isArr) ∧
      (b.setImpl c.ofs a).2.Owns (c'.chunks ++ R) ∧
      Updates a b (b.setImpl c.ofs a).2 c c' x ms :=
  setImplWith (updater_updateEntry a) ho ha hk hfin

theorem usedSize_setImpl_lt (ho : b.Owns (c.chunks ++ R)) (ha : a.Writable)
    (hk : a.isAppend = c.isArr)
    (hroom : b.usedSize + (99 * (2 * c.height + 3) + (a.klen + a.valTotalLen)) < 2 ^ 32) :
    (b.setImpl c.ofs a).2.usedSize < 2 ^ 32 := by
  have hh := NodeTree.height_lt ho c.shaped
  have hup := updater_updateEntry a
  have hrun := usedSize_run_le hup.grows (2 * c.height + 3) ⟨b, none, c.ofs, 0⟩
  obtain ⟨x, b', c', ms, hends, -⟩ :=
    ends (n := 2 * c.height + 3) hup ho ha hk le_rfl (hrun.trans_lt hroom)
  have hle := c.tree.rounds_le a
  rw [hends.ends.run hle] at hrun
  rw [setImpl_eq, setImplWith_snd, hends.ends.run (by omega)]
  exact hrun.trans_lt hroom

end Container

namespace NodeTree

/-- A readable tree whose nodes and entries lie in memory `m`. -/
structure Seen (m : Mem) (type : ValueType) (isArr : Bool) {h : ℕ} (t : NodeTree h) : Prop where
  laid : t.Laid type
  shaped : t.Shaped 3
  readable : ∀ e ∈ t.inorder, e.Readable isArr
  at_chunks : ∀ c ∈ t.chunks isArr, At m c.ofs c.bytes

variable {m : Mem} {type : ValueType} {isArr : Bool} {hash : UInt32} {key : List UInt8} {h n : ℕ}

theorem Seen.label {t : NodeTree h} (hs : t.Seen m type isArr) : t.label.Held m := by
  have := hs.at_chunks _ (t.label_chunk_mem isArr)
  rwa [At, Block.length_chunk] at this

theorem Seen.entry {t : NodeTree h} (hs : t.Seen m type isArr) {e : Entry} (he : e ∈ t.inorder) :
    e.Held isArr m ∧ e.Readable isArr :=
  ⟨hs.at_chunks (e.chunk isArr) (List.mem_append_right _ (List.mem_map_of_mem he)),
    hs.readable e he⟩

theorem Seen.keys {t : NodeTree h} (hs : t.Seen m type isArr) :
    ∀ e ∈ t.keys, e.Held isArr m ∧ e.Readable isArr :=
  fun _ he => hs.entry (BTree.mem_inorder_of_mem_keys he)

theorem Seen.kid {t : NodeTree (h + 1)} (hs : t.Seen m type isArr) {c : NodeTree h}
    (hc : c ∈ t.kids) : c.Seen m type isArr where
  laid := hs.laid.2 c hc
  shaped := (hs.shaped.2.2 c hc).2
  readable e he := hs.readable e (BTree.mem_inorder_of_mem_kids hc he)
  at_chunks d hd := hs.at_chunks d ((t.chunks_perm isArr).mem_iff.mpr (List.mem_cons_of_mem _
    (List.mem_append_right _ (List.mem_flatMap.mpr ⟨c, hc, hd⟩))))

namespace Seen

variable {t : NodeTree h} {K₁ K₂ : List Entry} {e : Entry}

theorem keyCount (hs : t.Seen m type isArr) : NodeView.keyCount m t.ofs = t.keys.length :=
  hs.label.keyCount.trans hs.laid.keyCount

theorem kidOfs_eq_nil (hs : t.Seen m type isArr) (ht : t.kidOfs[t.keys.length]? = none) :
    t.kidOfs = [] := by
  cases h with
  | zero => rfl
  | succ h =>
    have hlen := hs.shaped.2.1
    rw [List.getElem?_eq_none_iff, kidOfs, List.length_map] at ht
    omega

theorem getStep_found (hs : t.Seen m type isArr) (hkey : isArr = true → key = [])
    (hks : t.keys = K₁ ++ e :: K₂) (h₁ : ∀ k ∈ K₁, Entry.cmp hash key k = .lt)
    (he : Entry.cmp hash key e = .eq) :
    getStep m hash key isArr t.ofs = .inr (some (e.type, e.valueOfs isArr + 1)) := by
  have hB := hs.label
  have hr := hs.keys
  have hf := hs.laid.fits
  have hc := hs.keyCount
  rw [hks] at hf hr hc
  have hn : ∀ k ∈ (e :: K₂).head?, Entry.cmp hash key k ≠ .lt := by simp [he]
  have hse : searchNode m t.ofs hash key isArr (K₁ ++ e :: K₂).length = K₁.length :=
    hf.searchNode hB hr hkey h₁ hn
  have hcmp : compareNodeKey m t.ofs K₁.length hash key isArr = .eq :=
    (hf.compareNodeKey hB hr hkey (i := K₁.length) (e := e) (by simp)).trans he
  obtain ⟨hm, hrd⟩ := hr e (by simp)
  have hvo : Buffer.valueOffset m t.ofs K₁.length isArr = e.valueOfs isArr :=
    hm.valueOffset hrd (hf.getKvOffset hB (by simp))
  simp only [getStep, hc, hse, hcmp, hvo, hm.type hrd]
  rw [if_pos (by simp)]

theorem getStep_next (hs : t.Seen m type isArr) (hkey : isArr = true → key = [])
    (hks : t.keys = K₁ ++ K₂) (hsp : BTree.Spot (Entry.cmp hash key) K₁ K₂) :
    getStep m hash key isArr t.ofs =
      match t.kidOfs[K₁.length]? with
      | some o => .inl o
      | none => .inr none := by
  have hB := hs.label
  have hr := hs.keys
  have hf := hs.laid.fits
  have hle := hs.laid.length_le
  have hc := hs.keyCount
  have hlast := hs.kidOfs_eq_nil
  rw [hks] at hf hr hc hle hlast
  have hn : ∀ k ∈ K₂.head?, Entry.cmp hash key k ≠ .lt := fun k hk => by simp [hsp.next k hk]
  have hse : searchNode m t.ofs hash key isArr (K₁ ++ K₂).length = K₁.length :=
    hf.searchNode hB hr hkey hsp.before hn
  have hcmp : ¬ (K₁.length < (K₁ ++ K₂).length ∧
      compareNodeKey m t.ofs K₁.length hash key isArr = .eq) := by
    rintro ⟨hlt, heq⟩
    cases K₂ with
    | nil => simp at hlt
    | cons k K₂ =>
      have : compareNodeKey m t.ofs K₁.length hash key isArr = Entry.cmp hash key k :=
        hf.compareNodeKey hB hr hkey (by simp)
      rw [hsp.next k rfl] at this
      exact absurd (heq.symm.trans this) (by simp)
  have hlt : K₁.length < 8 := by
    simp at hle
    omega
  have hch : NodeView.getChildOffset m t.ofs K₁.length = t.label.child K₁.length :=
    hB.getChildOffset hlt
  simp only [getStep, hc, hse]
  rw [if_neg hcmp, hch]
  cases hk : t.kidOfs[K₁.length]? with
  | some o => rw [hf.child _ _ hk, if_pos (hf.ne_zero o (List.mem_of_getElem? hk))]
  | none =>
    have hnil : t.kidOfs = [] := by
      apply hlast
      rw [List.getElem?_eq_none_iff] at hk ⊢
      rw [List.length_append]
      omega
    rw [hf.leaf hnil _ hlt, if_neg (by simp)]

end Seen

theorem getStep_eq {t : NodeTree h} (hs : t.Seen m type isArr) (hkey : isArr = true → key = []) :
    getStep m hash key isArr t.ofs =
      match hit (Entry.cmp hash key) t.keys with
      | some e => .inr (some (e.type, e.valueOfs isArr + 1))
      | none =>
        match t.kidOfs[seek (Entry.cmp hash key) t.keys]? with
        | some o => .inl o
        | none => .inr none := by
  rcases hit_or_spot (Entry.cmp hash key) t.keys with
    ⟨K₁, e, K₂, hks, h₁, he⟩ | ⟨K₁, K₂, hks, hsp⟩
  · have hn : ∀ k ∈ (e :: K₂).head?, Entry.cmp hash key k ≠ .lt := by simp [he]
    have hh : hit (Entry.cmp hash key) t.keys = some e := by
      rw [hks, hit_append h₁ hn]
      simp [he]
    rw [hs.getStep_found hkey hks h₁ he, hh]
  · have hn : ∀ k ∈ K₂.head?, Entry.cmp hash key k ≠ .lt := fun k hk => by simp [hsp.next k hk]
    have hh : hit (Entry.cmp hash key) t.keys = none := by
      rw [hks, hit_append hsp.before hn]
      cases K₂ with
      | nil => rfl
      | cons k K₂ => simp [hsp.next k rfl]
    have hsk : seek (Entry.cmp hash key) t.keys = K₁.length := by
      rw [hks, seek_append hsp.before hn]
    rw [hs.getStep_next hkey hks hsp, hh, hsk]

/-- Lookup in a laid out tree is search in the tree. -/
theorem run_getStep (hash : UInt32) {t : NodeTree h} (hs : t.Seen m type isArr)
    (hkey : isArr = true → key = []) (hn : h < n) :
    Loop.run (getStep m hash key isArr) n t.ofs =
      .inr ((t.find (Entry.cmp hash key)).map fun e => (e.type, e.valueOfs isArr + 1)) := by
  obtain ⟨n, rfl⟩ : ∃ k, n = k + 1 := ⟨n - 1, by omega⟩
  induction h generalizing n with
  | zero =>
    rw [Loop.run, getStep_eq hs hkey, BTree.find]
    cases hit (Entry.cmp hash key) t.keys <;> simp [kidOfs]
  | succ h ih =>
    rw [Loop.run, getStep_eq hs hkey, BTree.find]
    cases hh : hit (Entry.cmp hash key) t.keys with
    | some e => simp
    | none =>
      rw [kidOfs, List.getElem?_map]
      cases hc : t.kids[seek (Entry.cmp hash key) t.keys]? with
      | none => simp
      | some c =>
        obtain ⟨n, rfl⟩ : ∃ k, n = k + 1 := ⟨n - 1, by omega⟩
        simpa using ih (hs.kid (List.mem_of_getElem? hc)) n (by omega)

end NodeTree

theorem Container.seen {b : Buffer} {c : Container} {R : List Chunk}
    (ho : b.Owns (c.chunks ++ R)) : c.tree.Seen b.mem (kindOf c.isArr) c.isArr where
  laid := c.laid
  shaped := c.shaped
  readable := c.readable
  at_chunks _ hd := ho.slice_eq (List.mem_append_left _ hd)

/-- A lookup in a container is a search in its tree. -/
theorem Container.getImpl {b : Buffer} {c : Container} {R : List Chunk} {key : List UInt8}
    {hash : UInt32} (ho : b.Owns (c.chunks ++ R)) (hkey : c.isArr = true → key = []) :
    b.getImpl c.ofs key hash c.isArr =
      some ((c.tree.find (Entry.cmp hash key)).map fun e => (e.type, e.valueOfs c.isArr + 1)) := by
  have hh := NodeTree.height_lt ho c.shaped
  rw [Buffer.getImpl, show c.ofs = c.tree.ofs from rfl,
    NodeTree.run_getStep hash (seen ho) hkey (show c.height < b.data.length + 1 by omega)]

theorem Container.fetch {b : Buffer} {c : Container} {R : List Chunk} {key : List UInt8}
    {hash : UInt32} (ho : b.Owns (c.chunks ++ R)) (hkey : c.isArr = true → key = []) :
    b.fetch c.ofs key hash c.isArr =
      some ((c.tree.find (Entry.cmp hash key)).map fun e =>
        (e.type, e.valueOfs c.isArr + 1, e.val)) := by
  rw [Buffer.fetch, getImpl ho hkey, Option.map_some, Option.map_map]
  refine congrArg some (Option.map_congr fun e he => ?_)
  obtain ⟨h, hr⟩ := (seen ho).entry (BTree.find_mem he).1
  simp [h.payload hr]

end Lite3
