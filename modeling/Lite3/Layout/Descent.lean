import Lite3.Layout.Step
import Lite3.Loop.Ends
import Lite3.Tree.Passed

/-! # The descent puts an entry into the tree

On a laid out tree the loop of `set_impl` refines top-down insertion, however it
updates the entry it finds: it ends after a round for each node it passes and
each median it promotes, the tree at its end is the old one with the entry put
in, and everything outside the tree keeps its bytes.
-/

namespace Lite3

open Bytes Lite3.Tree

/-- The promoted median that sends the descent to the right. -/
def SetArgs.right (a : SetArgs) (m : Entry) : Bool := m.hash < a.keyHash

/-- The block at the same offset with the same generation, type and size. -/
structure Kept (B B' : Block) : Prop where
  ofs : B'.ofs = B.ofs
  genType : B'.genType = B.genType
  size : B'.size = B.size

theorem Kept.promote (P N : Block) (i o : ℕ) : Kept P (P.promote N i o) := by
  refine ⟨Block.ofs_promote _ _ _ _, ?_, Packed.size_sizeKc_size _ _⟩
  simp [Block.promote, Block.shiftKids_eq, Block.setSizeKc, Block.setChildOffset,
    Block.setKvOffset, Block.setHash]

/-- The entry written: at the end of the used bytes, or in place of one of the same length, which
takes no room unless medians are promoted. -/
structure Placed (a : SetArgs) (b b' : Buffer) (es : List Entry) (x : Entry) (ms : List Entry) :
    Prop where
  eq : x = a.entry x.ofs
  place : b.usedSize ≤ x.ofs ∧ x.ofs + (a.klen + a.valTotalLen) = b'.usedSize ∨
    ∃ e ∈ es, a.cmp e = .eq ∧ x.ofs = e.ofs ∧ (valueBytes e.type e.val).length = a.valTotalLen
  still : ms = [] → b.usedSize ≤ x.ofs ∨ b'.usedSize = b.usedSize

/-- The buffer has grown by no more than `n` nodes, aligned, and an entry. -/
def Added (a : SetArgs) (b b' : Buffer) (n : ℕ) : Prop :=
  b'.usedSize ≤ b.usedSize + (99 * n + (a.klen + a.valTotalLen))

namespace NodeTree

variable {h : ℕ}

/-- The descent ends with an entry put into the tree and the frame unchanged. -/
def Puts (update : Update) (a : SetArgs) (type : ValueType) (R : List Chunk) (s : SetState)
    (t : NodeTree h) : Prop :=
  ∃ x b' ms, ∃ t' : NodeTree h,
    Loop.EndsIn SetState.Inside (setStepWith update a) s (t.passed 3 a.cmp a.right + ms.length)
      (some (x.valueOfs a.isAppend), b') ∧
    BTree.Put 3 a.cmp (a.right · = true) x t t' ms ∧ t'.Laid type ∧
    b'.Owns (t'.chunks a.isAppend ++ R) ∧ Kept t.label.bump t'.label ∧
    Placed a s.buf b' t.inorder x ms ∧ Added a s.buf b' ms.length

/-- The descent ends with an entry put below the child `c` of the node `P`. -/
def Visits (update : Update) (a : SetArgs) (type : ValueType) (R : List Chunk) (s : SetState)
    (P : Block) (A C : List (NodeTree h)) (K₁ K₂ : List Entry) (c : NodeTree h) : Prop :=
  ∃ x b' ms P', ∃ D : List (NodeTree h), ∃ E,
    Loop.EndsIn SetState.Inside (setStepWith update a) s (c.passedRoot 3 a.cmp a.right + ms.length)
      (some (x.valueOfs a.isAppend), b') ∧
    BTree.Visit 3 (a.right · = true) (BTree.Put 3 a.cmp (a.right · = true) x) A C K₁ K₂ c
      (K₁ ++ (E ++ K₂)) (A ++ (D ++ C)) ms ∧
    Fits type P' (K₁ ++ (E ++ K₂)) ((A ++ (D ++ C)).map ofs) ∧ (∀ d ∈ D, d.Laid type) ∧
    b'.Owns (P'.chunk :: (E.map (Entry.chunk a.isAppend) ++ D.flatMap (chunks a.isAppend) ++ R)) ∧
    Kept P P' ∧ Placed a s.buf b' c.inorder x ms ∧ Added a s.buf b' ms.length

end NodeTree

variable {update : Update} {a : SetArgs} {b b' : Buffer} {type : ValueType} {R : List Chunk}
  {h n d : ℕ} {par : Option ℕ} {K₁ K₂ : List Entry} {e : Entry}

theorem Placed.weaken {b₀ : Buffer} {es es' ms ms' : List Entry} {x : Entry}
    (hp : Placed a b b' es x ms) (hb : b₀.usedSize ≤ b.usedSize) (hes : es ⊆ es')
    (hms : ms' = [] → ms = [] ∧ b₀.usedSize = b.usedSize) : Placed a b₀ b' es' x ms' where
  eq := hp.eq
  place := hp.place.imp (fun h => ⟨hb.trans h.1, h.2⟩) fun ⟨e, he, h⟩ => ⟨e, hes he, h⟩
  still h := by
    rw [(hms h).2]
    exact hp.still (hms h).1

theorem SetArgs.eq_of_cmp {e : Entry} (he : a.cmp e = .eq) :
    e.hash = a.keyHash ∧ e.key = a.key := by
  rw [SetArgs.cmp, Entry.cmp, Ordering.then_eq_eq] at he
  exact ⟨Std.LawfulEqCmp.eq_of_compare he.1, Std.LawfulEqCmp.eq_of_compare he.2⟩

theorem Buffer.Owns.ofs_ne {xs ys : List Chunk} {B B' : Block} (h : b.Owns (xs ++ ys))
    (hB : B.chunk ∈ xs) (hB' : B'.chunk ∈ ys) : B.ofs ≠ B'.ofs := by
  have ha := Owned.apart_of_mem h hB hB'
  simp only [Chunk.Apart, Chunk.stop, Block.ofs_chunk, Block.length_chunk] at ha
  omega

theorem Stands.replaceEntry {B : Block} {kids : List ℕ}
    (hs : Stands a b type B (K₁ ++ e :: K₂) kids
      ((K₁ ++ e :: K₂).map (Entry.chunk a.isAppend) ++ R))
    (he : a.cmp e = .eq) (hfin : (b.replaceEntry a B.ofs K₁.length).2.usedSize < 2 ^ 32) :
    ∃ x b' B', b.replaceEntry a B.ofs K₁.length = (some (x.valueOfs a.isAppend), b') ∧
      Fits type B' (K₁ ++ x :: K₂) kids ∧
      b'.Owns (B'.chunk :: ((K₁ ++ x :: K₂).map (Entry.chunk a.isAppend) ++ R)) ∧
      Kept B B' ∧ Placed a b b' [e] x [] := by
  have hle := hs.fits.length_le
  simp only [List.length_append, List.length_cons] at hle
  obtain ⟨hh, -⟩ := SetArgs.eq_of_cmp he
  rw [Buffer.usedSize_replaceEntry] at hfin
  have hx := hs.owns.appendEntry (a := a) (show K₁.length < 7 by omega)
  refine ⟨a.entry b.usedSize, _, B.setKvOffset K₁.length b.usedSize,
    Prod.ext (congrArg some ?_) rfl, ?_, ?_, ⟨rfl, rfl, rfl⟩, rfl, Or.inl ⟨le_rfl, ?_⟩,
    fun _ => Or.inl le_rfl⟩
  · have hu := b.usedSize_replaceEntry a B.ofs K₁.length
    show (b.replaceEntry a B.ofs K₁.length).2.usedSize - a.valTotalLen = _
    rw [hu, show b.usedSize + (a.klen + a.valTotalLen) - a.valTotalLen = b.usedSize + a.klen
      by omega, Entry.valueOfs, SetArgs.entry, a.length_keyBytes]
  · exact hs.fits.setKvOffset (x := a.entry b.usedSize) hh.symm
      (show b.usedSize < 2 ^ 32 by omega)
  · have hd : (((K₁ ++ a.entry b.usedSize :: K₂).map (Entry.chunk a.isAppend) ++ R)).Perm
        ((a.entry b.usedSize).chunk a.isAppend ::
          (K₁.map (Entry.chunk a.isAppend) ++ K₂.map (Entry.chunk a.isAppend) ++ R)) := by
      simp only [List.map_append, List.map_cons, List.append_assoc, List.cons_append]
      exact List.perm_middle
    have hu : (b.ensureCapacity (a.klen + a.valTotalLen)).usedSize = b.usedSize :=
      b.usedSize_ensureCapacity _
    rw [Buffer.replaceEntry]
    dsimp only
    rw [hu]
    refine Buffer.Owns.perm ?_ (hd.symm.cons _)
    refine Owned.sublist hx (.cons_cons _ (.cons_cons _ ?_))
    simp only [List.map_append, List.map_cons]
    exact ((List.sublist_cons_self _ _).append_left _).append_right _
  · exact (b.usedSize_replaceEntry a B.ofs K₁.length).symm

theorem Stands.updateEntry {B : Block} {kids : List ℕ}
    (hs : Stands a b type B (K₁ ++ e :: K₂) kids
      ((K₁ ++ e :: K₂).map (Entry.chunk a.isAppend) ++ R))
    (he : a.cmp e = .eq) (hfin : (b.updateEntry a B.ofs K₁.length).2.usedSize < 2 ^ 32) :
    ∃ x b' B', b.updateEntry a B.ofs K₁.length = (some (x.valueOfs a.isAppend), b') ∧
      Fits type B' (K₁ ++ x :: K₂) kids ∧
      b'.Owns (B'.chunk :: ((K₁ ++ x :: K₂).map (Entry.chunk a.isAppend) ++ R)) ∧
      Kept B B' ∧ Placed a b b' [e] x [] := by
  have hle := hs.fits.length_le
  simp only [List.length_append, List.length_cons] at hle
  have hk : (K₁ ++ e :: K₂)[K₁.length]? = some e := by simp
  obtain ⟨hm, hr⟩ := hs.keys_held e (by simp)
  have hvo : Buffer.valueOffset b.mem B.ofs K₁.length a.isAppend = e.valueOfs a.isAppend :=
    hm.valueOffset hr (hs.fits.getKvOffset hs.block_held hk)
  obtain ⟨hh, hkey⟩ := SetArgs.eq_of_cmp he
  rw [Buffer.updateEntry_eq, hvo, hm.existingTotalLen hr] at hfin ⊢
  by_cases hl : (valueBytes e.type e.val).length = a.valTotalLen
  · refine ⟨{ e with type := a.type, val := a.val }, _, B, by rw [if_pos hl]; rfl, ?_, ?_,
      ⟨rfl, rfl, rfl⟩, ?_, Or.inr ⟨e, by simp, he, rfl, hl⟩, fun _ => Or.inr ?_⟩
    · exact hs.fits.inPlace rfl rfl
    · have hown := hs.owns
      rw [List.map_append, List.map_cons] at hown
      have hw := Buffer.Owns.writeValue (B.chunk :: K₁.map (Entry.chunk a.isAppend))
        (K₂.map (Entry.chunk a.isAppend) ++ R) a.type a.val
        (by simpa using hown) (by rw [hl, a.length_valueBytes])
      simpa using hw
    · rw [SetArgs.entry, ← hh, ← hkey]
    · rw [Buffer.writeValue_eq]; rfl
  · rw [if_neg hl] at hfin ⊢
    exact hs.replaceEntry he hfin

/-- A way to treat the entry that the descent finds: the buffer grows by at most a fresh entry, and
the entry is replaced by one of the arguments. -/
structure Updater (update : Update) (a : SetArgs) : Prop where
  grows : Grows a update
  updates {b : Buffer} {type : ValueType} {B : Block} {K₁ K₂ : List Entry} {e : Entry}
    {kids : List ℕ} {R : List Chunk} : Stands a b type B (K₁ ++ e :: K₂) kids
      ((K₁ ++ e :: K₂).map (Entry.chunk a.isAppend) ++ R) → a.cmp e = .eq →
    (update b a B.ofs K₁.length).2.usedSize < 2 ^ 32 →
    ∃ x b' B', update b a B.ofs K₁.length = (some (x.valueOfs a.isAppend), b') ∧
      Fits type B' (K₁ ++ x :: K₂) kids ∧
      b'.Owns (B'.chunk :: ((K₁ ++ x :: K₂).map (Entry.chunk a.isAppend) ++ R)) ∧
      Kept B B' ∧ Placed a b b' [e] x []

theorem updater_updateEntry (a : SetArgs) : Updater Buffer.updateEntry a :=
  ⟨grows_updateEntry a, fun hs he hfin => hs.updateEntry he hfin⟩

theorem updater_replaceEntry (a : SetArgs) : Updater Buffer.replaceEntry a :=
  ⟨grows_replaceEntry a, fun hs he hfin => hs.replaceEntry he hfin⟩

/-- Inserting into a leaf. -/
theorem Stands.insertEntry {B : Block}
    (hs : Stands a b type B (K₁ ++ K₂) [] ((K₁ ++ K₂).map (Entry.chunk a.isAppend) ++ R))
    (hn : (K₁ ++ K₂).length < 7) (hu : b.usedSize < 2 ^ 32) :
    ∃ x b' B', b.insertEntry a B.ofs K₁.length = (some (x.valueOfs a.isAppend), b') ∧
      Fits type B' (K₁ ++ x :: K₂) [] ∧
      b'.Owns (B'.chunk :: ((K₁ ++ x :: K₂).map (Entry.chunk a.isAppend) ++ R)) ∧
      Kept B B' ∧ Placed a b b' [] x [] := by
  have hc := hs.fits.count
  obtain ⟨b', he, hused, hown⟩ := hs.owns.insertEntry (a := a) (i := K₁.length)
    (by rw [hc]; simp) (by rw [hc]; exact hn)
  refine ⟨a.entry b.usedSize, b', _, ?_, hs.fits.insert (x := a.entry b.usedSize) hn hu,
    hown.perm ?_, ?_, rfl, Or.inl ⟨le_rfl, hused.symm⟩,
    fun _ => Or.inl le_rfl⟩
  · rw [he, Entry.valueOfs, SetArgs.entry, a.length_keyBytes]
  · refine List.Perm.cons _ ?_
    simp only [List.map_append, List.map_cons, List.append_assoc, List.cons_append]
    exact List.perm_middle.symm
  · rw [Block.insert, Block.shiftEntries_eq]
    exact ⟨rfl, rfl, Packed.size_withKeyCount _ _⟩

namespace NodeTree

/-- What a visit of `t` assumes: the buffer owns its chunks, and its keys can be read. -/
structure Ready (a : SetArgs) (b : Buffer) (type : ValueType) (R : List Chunk) (t : NodeTree h) :
    Prop where
  owns : b.Owns (t.chunks a.isAppend ++ R)
  laid : t.Laid type
  shaped : t.Shaped 3
  readable : ∀ e ∈ t.inorder, e.Readable a.isAppend
  named : type.Named
  keyed : a.isAppend = true → a.key = []

variable {t : NodeTree h}

theorem Ready.owns_root (hr : Ready a b type R t) :
    b.Owns (t.label.chunk :: (t.keys.map (Entry.chunk a.isAppend) ++
      (t.kidChunks a.isAppend ++ R))) :=
  hr.owns.perm (by simpa using (t.chunks_perm a.isAppend).append_right R)

theorem Ready.inside (hr : Ready a b type R t) (par : Option ℕ) (d : ℕ) :
    SetState.Inside ⟨b, par, t.ofs, d⟩ := by
  have hlt := hr.owns_root.below t.label.chunk (.head _)
  have hfits := hr.owns.fits
  rw [Chunk.stop, Block.length_chunk] at hlt
  exact hlt.trans hfits

theorem Ready.stands (hr : Ready a b type R t) :
    Stands a b type t.label t.keys t.kidOfs (t.keys.map (Entry.chunk a.isAppend) ++
      (t.kidChunks a.isAppend ++ R)) where
  owns := hr.owns_root
  fits := hr.laid.fits
  named := hr.named
  held _ he := List.mem_append_left _ (List.mem_map_of_mem he)
  readable e he := hr.readable e (BTree.mem_inorder_of_mem_keys he)
  keyed := hr.keyed

theorem owns_setRoot {B : Block} {ks : List Entry}
    (ho : b.Owns (B.chunk :: (ks.map (Entry.chunk a.isAppend) ++ (t.kidChunks a.isAppend ++ R)))) :
    b.Owns (chunks a.isAppend (BTree.setRoot B ks t : NodeTree h) ++ R) := by
  refine ho.perm ?_
  have hp := (chunks_perm a.isAppend (BTree.setRoot B ks t)).append_right R
  simpa using hp.symm

theorem Ready.hit (hu : Updater update a) (hr : Ready a b type R t) (hk : t.keys = K₁ ++ e :: K₂)
    (hn : t.keys.length < 7) (h₁ : ∀ k ∈ K₁, a.cmp k = .lt) (he : a.cmp e = .eq)
    (hfin : (SetState.bufOf
      (Loop.run (setStepWith update a) (n + 1) ⟨b, par, t.ofs, d⟩)).usedSize < 2 ^ 32) :
    Puts update a type R ⟨b, par, t.ofs, d⟩ t := by
  have hp : t.passed 3 a.cmp a.right = 1 := BTree.passed_hit hk h₁ he
  have hs := hr.stands
  rw [hk] at hs hn
  have hstep : setStepWith update a ⟨b, par, t.ofs, d⟩ =
      .inr (update (b.touch t.ofs) a t.ofs K₁.length) := hs.step_hit hn h₁ he
  rw [Loop.run, hstep] at hfin
  obtain ⟨x, b', B', hup, hf, hown, hkept, hpl⟩ := hu.updates hs.touch he hfin
  have hgrow := (hu.grows (b.touch t.ofs) t.ofs K₁.length).2
  refine ⟨x, b', [], BTree.setRoot B' (K₁ ++ x :: K₂) t, ?_, ?_, hr.laid.setRoot hf,
    owns_setRoot hown, by simpa using hkept, ⟨hpl.eq, hpl.place.imp id ?_, hpl.still⟩, ?_⟩
  · rw [hp]
    exact .stop (hr.inside par d) (hstep.trans (congrArg Sum.inr hup))
  · exact BTree.Put.of_replaced ⟨K₁, e, K₂, hk, h₁, he, rfl⟩ _
  · rintro ⟨e', he', hp⟩
    rw [List.mem_singleton] at he'
    exact ⟨e', BTree.mem_inorder_of_mem_keys (by simp [hk, he']), hp⟩
  · rw [show update (b.touch t.ofs) a t.ofs K₁.length = _ from hup] at hgrow
    rw [Added, List.length_nil, Nat.mul_zero, Nat.zero_add]
    exact hgrow

theorem Ready.miss_leaf {t : NodeTree 0} (hr : Ready a b type R t) (hk : t.keys = K₁ ++ K₂)
    (hn : t.keys.length < 7) (hsp : BTree.Spot a.cmp K₁ K₂)
    (hfin : (SetState.bufOf
      (Loop.run (setStepWith update a) (n + 1) ⟨b, par, t.ofs, d⟩)).usedSize < 2 ^ 32) :
    Puts update a type R ⟨b, par, t.ofs, d⟩ t := by
  have hs := hr.stands
  rw [hk] at hs hn
  have hstep : setStepWith update a ⟨b, par, t.ofs, d⟩ =
      .inr ((b.touch t.ofs).insertEntry a t.ofs K₁.length) := hs.step_insert hn hsp rfl
  have hused := (b.touch t.ofs).usedSize_insertEntry a t.ofs K₁.length
  rw [Loop.run, hstep] at hfin
  simp only [SetState.bufOf, hused] at hfin
  obtain ⟨x, b', B', hup, hf, hown, hkept, hpl⟩ := hs.touch.insertEntry hn
    (show (b.touch t.ofs).usedSize < 2 ^ 32 by omega)
  refine ⟨x, b', [], BTree.setRoot B' (K₁ ++ x :: K₂) t, ?_, ?_, hr.laid.setRoot hf,
    owns_setRoot hown, hkept, ⟨hpl.eq, hpl.place.imp id (by simp), hpl.still⟩, ?_⟩
  · exact .stop (hr.inside par d) (hstep.trans (congrArg Sum.inr hup))
  · exact ⟨rfl, Or.inr ⟨K₁, K₂, hk, hsp, rfl⟩⟩
  · rw [show (b.touch t.ofs).insertEntry a t.ofs K₁.length = _ from hup] at hused
    rw [Added, List.length_nil, Nat.mul_zero, Nat.zero_add]
    exact hused.le

theorem Splits.chunks_perm {c l r : NodeTree h} {m : Entry} (hs : BTree.Splits 3 c l m r)
    (isArr : Bool) :
    (c.keys.map (Entry.chunk isArr) ++ c.kidChunks isArr).Perm
      (m.chunk isArr :: ((l.keys.map (Entry.chunk isArr) ++ l.kidChunks isArr) ++
        (r.keys.map (Entry.chunk isArr) ++ r.kidChunks isArr))) := by
  refine perm_of_coe ?_
  rw [hs.keys_eq]
  cases h with
  | zero =>
    simp only [kidChunks, List.map_append, List.map_cons, List.append_nil, ← Multiset.coe_add,
      ← Multiset.cons_coe, ← Multiset.singleton_add]
    abel
  | succ h =>
    simp only [kidChunks, hs.2.2.2.1, List.map_append, List.map_cons, List.flatMap_append,
      ← Multiset.coe_add, ← Multiset.cons_coe, ← Multiset.singleton_add]
    abel

theorem Splits.halves_perm {c l r : NodeTree h} {m : Entry} (hs : BTree.Splits 3 c l m r)
    (isArr : Bool) (R : List Chunk) :
    (l.label.chunk :: r.label.chunk ::
      ((c.keys.map (Entry.chunk isArr) ++ c.kidChunks isArr) ++ R)).Perm
      (m.chunk isArr :: (l.chunks isArr ++ (r.chunks isArr ++ R))) := by
  have hhalves := (l.chunks_perm isArr).append ((r.chunks_perm isArr).append_right R)
  have hbelow := ((Splits.chunks_perm hs isArr).append_right R).cons r.label.chunk
  refine (hbelow.cons l.label.chunk).trans (.trans (perm_of_coe ?_) (hhalves.cons _).symm)
  simp only [← Multiset.coe_add, ← Multiset.cons_coe, ← Multiset.singleton_add]
  abel

/-- The halves of a full node are laid out. -/
theorem Splits.laid {c l r : NodeTree h} {m : Entry} {s : ℕ} (hs : BTree.Splits 3 c l m r)
    (hc : c.Laid type) (hsh : c.Shaped 3) (ht : type.Named)
    (hl : l.label = c.label.bump.setKeyCount 3) (hr : r.label = c.label.bump.sibling s) :
    l.Laid type ∧ r.Laid type := by
  have hf := hc.fits.bump ht
  rw [hs.keys_eq] at hf
  cases h with
  | zero =>
    have hf' : Fits type c.label.bump (l.keys ++ m :: r.keys) ([] ++ []) := hf
    refine ⟨?_, ?_⟩
    · rw [Laid, hl]
      exact hf'.lower hs.length_left (fun _ => rfl)
    · rw [Laid, hr]
      exact hf'.upper ht hs.length_left hs.length_right (Or.inl ⟨rfl, rfl⟩) s
  | succ h =>
    obtain ⟨hk, hl₃, hr₃, hkids, hl₄⟩ := hs
    have hlen := hsh.2.1
    rw [hkids, hk] at hlen
    simp only [List.length_append, List.length_cons] at hlen
    have hall := hc.2
    rw [hkids] at hall
    have hf' : Fits type c.label.bump (l.keys ++ m :: r.keys)
        (l.kids.map ofs ++ r.kids.map ofs) := by
      rw [← List.map_append, ← hkids]
      exact hf
    refine ⟨⟨?_, fun d hd => hall d (List.mem_append_left _ hd)⟩,
      ⟨?_, fun d hd => hall d (List.mem_append_right _ hd)⟩⟩
    · rw [hl]
      refine hf'.lower hl₃ fun hn => ?_
      have := congrArg List.length hn
      simp [hl₄] at this
    · rw [hr]
      exact hf'.upper ht hl₃ hr₃ (Or.inr ⟨by simp [hl₄], by simp; omega⟩) s

/-- The state after splitting the full child `c` of `P`: the halves are laid out. -/
theorem split_child (update : Update) (d : ℕ) {P : Block} {A C : List ℕ} {c : NodeTree h}
    (hr : Ready a b type (P.chunk :: R) c)
    (hn : c.keys.length = 7) (hP : Fits type P (K₁ ++ K₂) (A ++ c.ofs :: C))
    (hA : A.length = K₁.length) (hC : C.length = K₂.length) (hl : (K₁ ++ K₂).length < 7)
    (ho : c.ofs ∉ A) :
    ∃ b₁ s P' m, ∃ l r : NodeTree h, BTree.Splits 3 c l m r ∧
      setStepWith update a ⟨b, some P.ofs, c.ofs, d⟩ =
        .inl ⟨b₁, some P.ofs, if a.right m then s else c.ofs, d + 1⟩ ∧
      b.usedSize ≤ b₁.usedSize ∧ b₁.usedSize ≤ b.usedSize + 99 ∧ s ≤ b₁.usedSize ∧
      l.ofs = c.ofs ∧ r.ofs = s ∧ Kept P P' ∧ l.Laid type ∧ r.Laid type ∧
      b₁.Owns (P'.chunk :: m.chunk a.isAppend ::
        (l.chunks a.isAppend ++ (r.chunks a.isAppend ++ R))) ∧
      (s < 2 ^ 32 → Fits type P' (K₁ ++ m :: K₂) (A ++ c.ofs :: s :: C)) := by
  have hs := hr.stands
  have hf := hr.laid.fits
  obtain ⟨m, hm⟩ : ∃ m, c.keys[3]? = some m := ⟨c.keys[3], by simp⟩
  have hmh : c.label.bump.hashes 3 = m.hash := hf.hash 3 _ (by simp [hm])
  have hmk : c.label.bump.kv 3 = m.ofs := hf.kv 3 _ (by simp [hm])
  have hNc : c.label.bump.keyCount = 7 := (hf.bump hr.named).count.trans hn
  have hPc := hP.count
  simp only [List.length_append] at hPc hl
  have hstep : ∀ i, _ → setStepWith update a ⟨b, some P.ofs, _, d⟩ = _ :=
    fun i => step_splitChild (i := i) hs hn
  obtain ⟨hroom, hu, hlen⟩ := hs.touch.owns.makeRoom (some P.ofs)
  have hu' : ((b.touch c.ofs).makeRoom (some P.ofs)).usedSize ≤ b.usedSize + 3 :=
    ((b.touch c.ofs).usedSize_makeRoom _).2
  rw [show (BTree.label c).ofs = c.ofs from rfl] at hroom hu hlen hstep
  generalize (b.touch c.ofs).makeRoom (some P.ofs) = b₀ at hroom hu hu' hlen hstep
  have hown : b₀.Owns (P.chunk :: c.label.bump.chunk ::
      ((c.keys.map (Entry.chunk a.isAppend) ++ c.kidChunks a.isAppend) ++ R)) := by
    refine hroom.perm (perm_of_coe ?_)
    simp only [← Multiset.coe_add, ← Multiset.cons_coe, ← Multiset.singleton_add]
    abel
  have hslot : Buffer.slotOf b₀.mem P.ofs c.ofs = some A.length :=
    slotOf_eq (hown.held (by simp)) hP (by simp; omega) ho
  obtain ⟨hu₁, hown₁⟩ := hown.splitChild hlen hNc (by omega)
    (show A.length ≤ P.keyCount by omega)
  have hs₀ : b₀.usedSize ≠ 0 := by
    have := hown.below P.chunk (by simp)
    simp only [Chunk.stop, Block.length_chunk] at this
    omega
  have hsp := BTree.splits_halves hr.shaped hn hm (c.label.bump.setKeyCount 3)
    (c.label.bump.sibling b₀.usedSize)
  obtain ⟨hl', hr'⟩ := Splits.laid (s := b₀.usedSize) hsp hr.laid hr.shaped hr.named (by simp)
    (by simp)
  have hhash : NodeView.getHash (b₀.splitChild P.ofs c.ofs A.length).mem P.ofs A.length =
      m.hash := by
    have hg := (hown₁.held (List.mem_cons_self ..)).getHash (show A.length < 7 by omega)
    rw [Block.ofs_promote] at hg
    exact hg.trans ((Block.hashes_promote ..).trans hmh)
  refine ⟨_, b₀.usedSize, P.promote c.label.bump A.length b₀.usedSize, m, _, _, hsp, ?_, ?_, ?_, ?_,
    by simp [ofs], by simp [ofs, Block.sibling], .promote .., hl', hr', hown₁.perm ?_,
      fun h32 => ?_⟩
  · rw [hstep _ hslot]
    simp only [hhash, SetArgs.right, gt_iff_lt, decide_eq_true_eq]
    rfl
  · exact hu.trans (by rw [hu₁]; omega)
  · rw [hu₁]; omega
  · rw [hu₁]; omega
  · have hperm := Splits.halves_perm hsp a.isAppend R
    rw [BTree.label_setRoot, BTree.label_setRoot] at hperm
    exact hperm.cons _
  · exact hA ▸ hP.promote hA hC (by simpa using hl) hmh hmk h32 hs₀

theorem Ready.halves {P : Block} {c l r : NodeTree h} {m : Entry} (hr : Ready a b type R c)
    (hsp : BTree.Splits 3 c l m r) (hll : l.Laid type) (hrl : r.Laid type) {F : List Chunk}
    (hown : b'.Owns (P.chunk :: m.chunk a.isAppend ::
      (l.chunks a.isAppend ++ (r.chunks a.isAppend ++ F)))) :
    Ready a b' type (P.chunk :: m.chunk a.isAppend :: (r.chunks a.isAppend ++ F)) l ∧
      Ready a b' type (P.chunk :: m.chunk a.isAppend :: (l.chunks a.isAppend ++ F)) r := by
  have hsub := hsp.inorder_eq
  obtain ⟨hls, hrs⟩ := hsp.shaped hr.shaped
  constructor
  · refine ⟨hown.perm (perm_of_coe ?_), hll, hls, fun e he => ?_, hr.named, hr.keyed⟩
    · simp only [← Multiset.coe_add, ← Multiset.cons_coe, ← Multiset.singleton_add]
      abel
    · exact hr.readable e (by simp [hsub, he])
  · refine ⟨hown.perm (perm_of_coe ?_), hrl, hrs, fun e he => ?_, hr.named, hr.keyed⟩
    · simp only [← Multiset.coe_add, ← Multiset.cons_coe, ← Multiset.singleton_add]
      abel
    · exact hr.readable e (by simp [hsub, he])

/-- Between the keys of an inner node the visit goes on below. -/
theorem Ready.descend (update : Update) (par : Option ℕ) (d : ℕ) {t : NodeTree (h + 1)}
    (hr : Ready a b type R t) (hk : t.keys.length < 7) (hks : t.keys = K₁ ++ K₂)
    (hsp : BTree.Spot a.cmp K₁ K₂) :
    ∃ A c C, t.kids = A ++ c :: C ∧ A.length = K₁.length ∧ C.length = K₂.length ∧
      setStepWith update a ⟨b, par, t.ofs, d⟩ =
        .inl ⟨b.touch t.ofs, some t.label.bump.ofs, c.ofs, d + 1⟩ ∧
      Fits type t.label.bump (K₁ ++ K₂) ((A ++ c :: C).map ofs) ∧ c.ofs ∉ A.map ofs ∧
      Ready a (b.touch t.ofs) type
        (t.label.bump.chunk :: ((K₁ ++ K₂).map (Entry.chunk a.isAppend) ++
        A.flatMap (chunks a.isAppend) ++ C.flatMap (chunks a.isAppend) ++ R)) c := by
  have hlen := hr.shaped.2.1
  rw [hks, List.length_append] at hlen
  obtain ⟨A, c, C, hcs, hA⟩ : ∃ (A : List (NodeTree h)) (c : NodeTree h) (C : List (NodeTree h)),
      t.kids = A ++ c :: C ∧ A.length = K₁.length :=
    ⟨t.kids.take K₁.length, t.kids[K₁.length], t.kids.drop (K₁.length + 1), by simp,
      by simp; omega⟩
  have hC : C.length = K₂.length := by
    rw [hcs] at hlen; simp only [List.length_append, List.length_cons] at hlen; omega
  have hs := hr.stands
  have hkids : t.kidOfs = (A ++ c :: C).map ofs := by rw [kidOfs, hcs]
  rw [hks, hkids] at hs
  have hown := hs.touch.owns
  simp only [kidChunks, hcs, List.flatMap_append, List.flatMap_cons] at hown
  refine ⟨A, c, C, hcs, hA, hC, hs.step_descend (hks ▸ hk) hsp (by simp [hA]),
    hs.touch.fits, ?_, ?_⟩
  · rintro hmem
    obtain ⟨d, hd, hofs⟩ := List.mem_map.mp hmem
    have hp : b.Owns (A.flatMap (chunks a.isAppend) ++ (c.chunks a.isAppend ++
        (C.flatMap (chunks a.isAppend) ++ (t.label.chunk :: (K₁ ++ K₂).map
          (Entry.chunk a.isAppend) ++ R)))) := by
      refine hs.owns.perm (perm_of_coe ?_)
      simp only [kidChunks, hcs, List.flatMap_append, List.flatMap_cons, ← Multiset.coe_add,
        ← Multiset.cons_coe, ← Multiset.singleton_add]
      abel
    exact hp.ofs_ne (List.mem_flatMap.mpr ⟨d, hd, d.label_chunk_mem _⟩)
      (List.mem_append_left _ (c.label_chunk_mem _)) hofs
  · refine ⟨hown.perm (perm_of_coe ?_), hr.laid.2 c (by simp [hcs]),
      (hr.shaped.2.2 c (by simp [hcs])).2,
      fun e he => hr.readable e (BTree.mem_inorder_of_mem_kids (by simp [hcs]) he), hr.named,
      hr.keyed⟩
    simp only [← Multiset.coe_add, ← Multiset.cons_coe, ← Multiset.singleton_add]
    abel

/-- What a visit of a tree of height `h` achieves within its bound. -/
def PutsAll (update : Update) (a : SetArgs) (type : ValueType) (h : ℕ) : Prop :=
  ∀ ⦃t : NodeTree h⦄ ⦃b R par d n⦄, Ready a b type R t → t.keys.length < 7 → 2 * h + 1 ≤ n →
    (SetState.bufOf (Loop.run (setStepWith update a) n ⟨b, par, t.ofs, d⟩)).usedSize < 2 ^ 32 →
      Puts update a type R ⟨b, par, t.ofs, d⟩ t

/-- A visit of a child splits it when it is full and goes on in one half. -/
theorem PutsAll.visit (hg : Grows a update) (hput : PutsAll update a type h) {P : Block}
    {A C : List (NodeTree h)} {c : NodeTree h} (hr : Ready a b type (P.chunk :: R) c)
    (hP : Fits type P (K₁ ++ K₂) ((A ++ c :: C).map ofs)) (hA : A.length = K₁.length)
    (hC : C.length = K₂.length) (hl : (K₁ ++ K₂).length < 7) (ho : c.ofs ∉ A.map ofs)
    (hn : 2 * h + 2 ≤ n)
    (hfin : (SetState.bufOf
      (Loop.run (setStepWith update a) n ⟨b, some P.ofs, c.ofs, d⟩)).usedSize < 2 ^ 32) :
    Visits update a type R ⟨b, some P.ofs, c.ofs, d⟩ P A C K₁ K₂ c := by
  rcases Nat.lt_or_ge c.keys.length 7 with hc | hc
  · obtain ⟨x, b', ms, c', hrun, hp, hlaid, hown, hkept, hpl, hadd⟩ := hput hr hc (by omega) hfin
    have hofs : c'.ofs = c.ofs := hkept.ofs
    refine ⟨x, b', ms, P, [c'], [], ?_, .whole hc hp, by simpa [hofs] using hP,
      by simpa using hlaid, hown.perm (perm_of_coe ?_), ⟨rfl, rfl, rfl⟩, hpl, hadd⟩
    · rw [BTree.passedRoot_of_lt hc]
      exact hrun
    · simp only [List.map_nil, List.flatMap_cons, List.flatMap_nil, List.nil_append,
        List.append_nil, ← Multiset.coe_add, ← Multiset.cons_coe, ← Multiset.singleton_add]
      abel
  have hc7 : c.keys.length = 7 := le_antisymm hr.laid.length_le hc
  rw [List.map_append, List.map_cons] at hP
  obtain ⟨b₁, s, P', m, l, r, hsp, hstep, hu, hu', hs, hlo, hro, hkept, hll, hrl, hown, hf⟩ :=
    split_child update d hr hc7 hP (by simpa using hA) (by simpa using hC) hl ho
  obtain ⟨n, rfl⟩ : ∃ k, n = k + 1 := ⟨n - 1, by omega⟩
  rw [Loop.run, hstep] at hfin
  dsimp only at hfin
  have hs32 : s < 2 ^ 32 := (hs.trans (usedSize_le_run hg n ⟨b₁, _, _, _⟩)).trans_lt hfin
  have hsub := hsp.inorder_eq
  have hpass : c.passedRoot 3 a.cmp a.right = _ := hsp.passedRoot_eq
  have hadded : ∀ {b' : Buffer} {ms : List Entry}, Added a b₁ b' ms.length →
      Added a b b' (m :: ms).length := by
    intro b' ms h
    simp only [Added, List.length_cons] at h ⊢
    omega
  obtain ⟨hlready, hrready⟩ := hr.halves hsp hll hrl hown
  by_cases hm : a.right m = true
  · rw [if_pos hm, ← hro] at hfin hstep
    obtain ⟨x, b', ms, r', hrun, hp, hlaid, hown', hkept', hpl, hadd⟩ :=
      hput hrready (by rw [hsp.length_right]; omega) (by omega) hfin
    have hofs : r'.ofs = s := hkept'.ofs.trans hro
    refine ⟨x, b', m :: ms, P', [l, r'], [m], ?_, .upper hsp hm hp, ?_, ?_,
      hown'.perm (perm_of_coe ?_), hkept, hpl.weaken hu ?_ (by simp), hadded hadd⟩
    · rw [hpass, if_pos hm]
      exact .next (hr.inside (some P.ofs) d) hstep hrun
    · simpa [hofs, hlo] using hf hs32
    · simpa using ⟨hll, hlaid⟩
    · simp only [List.map_cons, List.map_nil, List.flatMap_cons, List.flatMap_nil, List.append_nil,
        ← Multiset.coe_add, ← Multiset.cons_coe, ← Multiset.singleton_add]
      abel
    · intro e he; simp [hsub, he]
  · rw [if_neg hm, ← hlo] at hfin hstep
    obtain ⟨x, b', ms, l', hrun, hp, hlaid, hown', hkept', hpl, hadd⟩ :=
      hput hlready (by rw [hsp.length_left]; omega) (by omega) hfin
    have hofs : l'.ofs = c.ofs := hkept'.ofs.trans hlo
    refine ⟨x, b', m :: ms, P', [l', r], [m], ?_, .lower hsp hm hp, ?_, ?_,
      hown'.perm (perm_of_coe ?_), hkept, hpl.weaken hu ?_ (by simp), hadded hadd⟩
    · rw [hpass, if_neg hm, ← hlo]
      exact .next (hlo ▸ hr.inside (some P.ofs) d) hstep hrun
    · simpa [hofs, hro] using hf hs32
    · simpa using ⟨hlaid, hrl⟩
    · simp only [List.map_cons, List.map_nil, List.flatMap_cons, List.flatMap_nil, List.append_nil,
        ← Multiset.coe_add, ← Multiset.cons_coe, ← Multiset.singleton_add]
      abel
    · intro e he; simp [hsub, he]

theorem hit_or_spot (cmp : Entry → Ordering) (ks : List Entry) :
    (∃ K₁ e K₂, ks = K₁ ++ e :: K₂ ∧ (∀ k ∈ K₁, cmp k = .lt) ∧ cmp e = .eq) ∨
      ∃ K₁ K₂, ks = K₁ ++ K₂ ∧ BTree.Spot cmp K₁ K₂ := by
  obtain ⟨K₁, K₂, rfl, h₁, h₂⟩ := exists_seek cmp ks
  cases K₂ with
  | nil => exact Or.inr ⟨K₁, [], rfl, h₁, by simp⟩
  | cons e K₂ =>
    have hlt := h₂ e rfl
    cases he : cmp e with
    | lt => exact absurd he hlt
    | eq => exact Or.inl ⟨K₁, e, K₂, rfl, h₁, he⟩
    | gt => exact Or.inr ⟨K₁, e :: K₂, rfl, h₁, by simpa using he⟩

theorem putsAll (hu : Updater update a) (type : ValueType) (h : ℕ) : PutsAll update a type h := by
  induction h with
  | zero =>
    intro t b R par d n hr hk hn hfin
    obtain ⟨n, rfl⟩ : ∃ k, n = k + 1 := ⟨n - 1, by omega⟩
    rcases hit_or_spot a.cmp t.keys with ⟨K₁, e, K₂, hks, h₁, he⟩ | ⟨K₁, K₂, hks, hsp⟩
    · exact hr.hit hu hks hk h₁ he hfin
    · exact hr.miss_leaf hks hk hsp hfin
  | succ h ih =>
    intro t b R par d n hr hk hn hfin
    obtain ⟨n, rfl⟩ : ∃ k, n = k + 1 := ⟨n - 1, by omega⟩
    rcases hit_or_spot a.cmp t.keys with ⟨K₁, e, K₂, hks, h₁, he⟩ | ⟨K₁, K₂, hks, hsp⟩
    · exact hr.hit hu hks hk h₁ he hfin
    obtain ⟨A, c, C, hcs, hA, hC, hstep, hP, ho, hready⟩ := hr.descend update par d hk hks hsp
    rw [Loop.run, hstep] at hfin
    dsimp only at hfin
    obtain ⟨x, b', ms, P', D, E, hrun, hv, hf, hD, hown', hkept, hpl, hadd⟩ :=
      ih.visit hu.grows hready hP hA hC (hks ▸ hk) ho (by omega) hfin
    refine ⟨x, b', ms, BTree.inner P' (K₁ ++ (E ++ K₂)) (A ++ (D ++ C)), ?_, ?_, ?_,
      hown'.perm (perm_of_coe ?_), hkept, hpl.weaken le_rfl (fun e he =>
        BTree.mem_inorder_of_mem_kids (by simp [hcs]) he) fun h => ⟨h, rfl⟩, hadd⟩
    · rw [BTree.passed_spot hks hcs hA hsp, Nat.add_comm 1, Nat.add_right_comm]
      exact .next (hr.inside par d) hstep hrun
    · exact Or.inr ⟨K₁, K₂, A, c, C, hks, hcs, hA, hsp, hv⟩
    · refine ⟨hf, fun d hd => ?_⟩
      simp only [BTree.kids_inner, List.mem_append] at hd
      rcases hd with hd | hd | hd
      · exact hr.laid.2 d (by simp [hcs, hd])
      · exact hD d hd
      · exact hr.laid.2 d (by simp [hcs, hd])
    · have hp := (chunks_perm a.isAppend
        (BTree.inner P' (K₁ ++ (E ++ K₂)) (A ++ (D ++ C)))).append_right R
      refine Eq.trans ?_ (Multiset.coe_eq_coe.mpr hp.symm)
      simp only [kidChunks, BTree.label_inner, BTree.keys_inner, BTree.kids_inner, List.map_append,
        List.flatMap_append, ← Multiset.coe_add, ← Multiset.cons_coe, ← Multiset.singleton_add]
      abel

end NodeTree

end Lite3
