import Lite3.Buffer.Iterator
import Lite3.Layout.Calls

/-! # Iteration is the in-order traversal

The stack of an iterator over a laid out tree of at most ten levels describes
what is still to come. Every advance yields the next entry in order, and the
iterator ends behind the last one.
-/

namespace Lite3

open Bytes Config Lite3.Tree

/-- What an iterator says about an entry. -/
def Entry.view (e : Entry) : IterValue := ⟨e.key, e.valueOfs false, e.type⟩

theorem Entry.Held.readEntry {e : Entry} {m : Mem} {size : ℕ} (h : e.Held false m)
    (hr : e.Readable false) (hs : (e.chunk false).stop ≤ size) :
    Iterator.readEntry m size e.ofs = some e.view := by
  have hkey := h.storedKey hr
  have htag := h.tag hr
  have hskip := h.skipKey hr
  have hk := hr.key
  rw [Buffer.skipKey, if_neg (by simp), htag] at hskip
  have hv : e.valueOfs false < (e.chunk false).stop := by
    simp [Chunk.stop, Entry.chunk, Entry.bytes, Entry.valueOfs, valueBytes]
  have hsl : slice m (e.ofs + 1) e.key.length = e.key := by
    have := h.keyAt
    rw [keyBytes_short hr.key, at_cons, at_append] at this
    exact this.2.1
  rw [Iterator.readEntry, htag, if_neg (by omega), if_neg (by omega), if_neg (by omega),
    Nat.add_sub_cancel, hsl, show e.ofs + 1 + (e.key.length + 1) = e.valueOfs false by omega,
    h.type hr, view]

namespace NodeTree

/-- A tree of an object that lies within the first `size` bytes. -/
structure Within (m : Mem) (type : ValueType) (size : ℕ) {h : ℕ} (t : NodeTree h) : Prop where
  seen : t.Seen m type false
  stop_le : ∀ c ∈ t.chunks false, c.stop ≤ size

variable {m : Mem} {type : ValueType} {size h : ℕ}

theorem Within.kid {t : NodeTree (h + 1)} (hw : t.Within m type size) {c : NodeTree h}
    (hc : c ∈ t.kids) : c.Within m type size where
  seen := hw.seen.kid hc
  stop_le d hd := hw.stop_le d ((t.chunks_perm false).mem_iff.mpr (List.mem_cons_of_mem _
    (List.mem_append_right _ (List.mem_flatMap.mpr ⟨c, hc, hd⟩))))

theorem Within.readEntry {t : NodeTree h} (hw : t.Within m type size) {i : ℕ}
    (hi : i < t.keys.length) :
    Iterator.readEntry m size (NodeView.getKvOffset m t.ofs i) = some t.keys[i].view := by
  have he : t.keys[i] ∈ t.inorder := BTree.mem_inorder_of_mem_keys (List.getElem_mem hi)
  obtain ⟨hh, hr⟩ := hw.seen.entry he
  have hslot : NodeView.getKvOffset m t.ofs i = t.keys[i].ofs :=
    congrArg Prod.snd (hw.seen.slot (List.getElem?_eq_getElem hi))
  rw [hslot]
  exact hh.readEntry hr (hw.stop_le _ (List.mem_append_right _ (List.mem_map_of_mem he)))

theorem Within.child {t : NodeTree (h + 1)} (hw : t.Within m type size) {i : ℕ}
    (hi : i < t.kids.length) :
    NodeView.getChildOffset m t.ofs i = ofs t.kids[i] ∧ ofs t.kids[i] ≠ 0 := by
  have hg : t.kidOfs[i]? = some (ofs t.kids[i]) := by simp [kidOfs, hi]
  exact ⟨hw.seen.child hg, hw.seen.laid.fits.ne_zero _ (List.mem_of_getElem? hg)⟩

theorem Within.length_kids {t : NodeTree (h + 1)} (hw : t.Within m type size) :
    t.kids.length = t.keys.length + 1 := hw.seen.shaped.2.1

/-- The stack describes the entries `es` that are still to come; nodes at the bottom have height
`H`, the next one on top has height `h`. -/
inductive Trail (m : Mem) (type : ValueType) (size H : ℕ) :
    ℕ → List (ℕ × ℕ) → List Entry → Prop

  | nil : Trail m type size H (H + 1) [] []

  | cons {h i : ℕ} {st : List (ℕ × ℕ)} {es : List Entry} {t : NodeTree h}
      (hw : t.Within m type size) (hst : Trail m type size H (h + 1) st es) :
      Trail m type size H h ((t.ofs, i) :: st) (t.after i ++ es)

variable {H : ℕ} {st : List (ℕ × ℕ)} {es : List Entry}

theorem Trail.height_add (ht : Trail m type size H h st es) : h + st.length = H + 1 := by
  induction ht with
  | nil => rfl
  | cons _ _ ih => simp only [List.length_cons]; omega

/-- Going down to the first entry below a node. -/
theorem Trail.descend {t : NodeTree h} (hw : t.Within m type size)
    (ht : Trail m type size H (h + 1) st es) (hH : H ≤ treeHeightMax) :
    Trail m type size H 0 (Iterator.descend m (treeHeightMax + 1 - (st.length + 1))
      ((t.ofs, 0) :: st)) (t.inorder ++ es) := by
  have hadd := ht.height_add
  induction h generalizing st es with
  | zero =>
    have hc : NodeView.getChildOffset m t.ofs 0 = 0 := hw.seen.child_leaf (by omega)
    have hd : ∀ n, Iterator.descend m n ((t.ofs, 0) :: st) = (t.ofs, 0) :: st := by
      intro n
      cases n <;> simp [Iterator.descend, hc]
    rw [hd]
    exact .cons (i := 0) hw ht
  | succ h ih =>
    have hl := hw.length_kids
    obtain ⟨hc, hne⟩ := hw.child (i := 0) (by omega)
    rw [show treeHeightMax + 1 - (st.length + 1) = treeHeightMax + 1 - (st.length + 2) + 1 by
      simp only [treeHeightMax] at *; omega, Iterator.descend, hc, if_pos hne,
      BTree.inorder_inner_eq (by omega), List.append_assoc]
    exact ih (hw.kid (List.getElem_mem _)) (.cons (i := 0) hw ht)
      (by simp only [List.length_cons]; omega)

/-- Leaving finished nodes ends at the node of the next entry. -/
theorem Trail.unwind (ht : Trail m type size H h st es) :
    Iterator.unwind m st = [] ∧ es = [] ∨ ∃ h' i st' es', ∃ t : NodeTree h',
      Iterator.unwind m st = (t.ofs, i) :: st' ∧ i < t.keys.length ∧ t.Within m type size ∧
        Trail m type size H (h' + 1) st' es' ∧ es = t.after i ++ es' := by
  induction ht with
  | nil => exact Or.inl ⟨rfl, rfl⟩
  | @cons h i st es t hw hst ih =>
    rw [Iterator.unwind, hw.seen.keyCount]
    split
    · rw [BTree.after_of_le hw.seen.shaped ‹_›, List.nil_append]
      exact ih
    · exact Or.inr ⟨h, i, st, es, t, rfl, by omega, hw, hst, rfl⟩

end NodeTree

namespace Iterator

open NodeTree

variable {m : Mem} {type : ValueType} {size H h : ℕ} {it : Iterator} {es : List Entry} {e : Entry}

/-- The iterator is at the first of the entries `es`, or at the end. -/
def Points (m : Mem) (type : ValueType) (size H : ℕ) (it : Iterator) : List Entry → Prop
  | [] => it.hasBuffer = false
  | e :: es => it.hasBuffer = true ∧ it.current = some e.view ∧
      it.generation = NodeView.generation m 0 ∧ ∃ h, Trail m type size H h it.stack es

theorem findNext_points (hb : it.hasBuffer = true) (hs : size ≠ 0)
    (hg : it.generation = NodeView.generation m 0) (hH : H ≤ treeHeightMax)
    (ht : Trail m type size H h it.stack es) : (it.findNext m size).Points m type size H es := by
  rw [findNext, if_pos hb, if_neg (by simp [hs, hg])]
  rcases ht.unwind with ⟨hu, rfl⟩ | ⟨h', i, st', es', t, hu, hi, hw, hst, rfl⟩
  · rw [hu]
    rfl
  · have hadd := hst.height_add
    rw [hu]
    simp only [hw.readEntry hi]
    cases h' with
    | zero =>
      have hc : NodeView.getChildOffset m t.ofs (i + 1) = 0 :=
        hw.seen.child_leaf (by have := hw.seen.laid.length_le; omega)
      rw [if_neg (by simp [hc]), BTree.after_leaf hi]
      exact ⟨hb, rfl, hg, 0, .cons hw hst⟩
    | succ h' =>
      have hl := hw.length_kids
      obtain ⟨hc, hne⟩ := hw.child (i := i + 1) (by omega)
      rw [hc, if_pos ⟨hne, by omega⟩, BTree.after_inner hi (by omega), findFirst, if_pos hb,
        if_neg hs, if_neg (by simp [hg])]
      have hk : i + 1 < t.kids.length := by omega
      have hd := Trail.descend (hw.kid (List.getElem_mem hk)) (.cons (i := i + 1) hw hst) hH
      rw [← List.append_assoc] at hd
      exact ⟨hb, rfl, hg, 0, hd⟩

theorem start_points {t : NodeTree H} (hw : t.Within m type size) (hs : size ≠ 0)
    (hH : H ≤ treeHeightMax) :
    (start m size t.ofs (NodeView.generation m 0)).Points m type size H t.inorder := by
  rw [start, findFirst, if_pos rfl, if_neg hs, if_neg (by simp)]
  refine findNext_points (h := 0) rfl hs rfl hH ?_
  have := Trail.descend hw .nil hH
  rwa [List.append_nil] at this

/-- What the iterators from a given one on show. -/
theorem Points.deref_iterate {b : Buffer} (hp : it.Points b.mem type b.data.length H es)
    (hd : b.data ≠ []) (hH : H ≤ treeHeightMax) (k : ℕ) : ((Iterator.next b)^[k] it).deref b =
      match es[k]? with
      | some e => .ok (some e.view)
      | none => .error (.exception "Invalid iterator") := by
  induction es generalizing it k with
  | nil =>
    have hb : it.hasBuffer = false := hp
    have hnext : it.next b = it := by simp [Iterator.next, Iterator.findNext, hb]
    rw [Function.iterate_fixed hnext, Iterator.deref, if_pos (Or.inl hb)]
    rfl
  | cons e es ih =>
    obtain ⟨hb, hcur, hgen, h, htrail⟩ := hp
    cases k with
    | zero =>
      rw [Function.iterate_zero_apply, Iterator.deref, if_neg (by simp [hb, hd]),
        if_neg (by simp [hgen]), hcur]
      rfl
    | succ k =>
      rw [Function.iterate_succ_apply]
      exact ih (findNext_points hb (by simpa using hd) hgen hH htrail) k

@[simp] theorem generation_findFirst (m : Mem) (size : ℕ) (it : Iterator) :
    (it.findFirst m size).generation = it.generation := by
  unfold findFirst
  split_ifs <;> rfl

@[simp] theorem generation_findNext (m : Mem) (size : ℕ) (it : Iterator) :
    (it.findNext m size).generation = it.generation := by
  unfold findNext
  split_ifs
  · rfl
  · split
    · rfl
    · split
      · rfl
      · dsimp only
        split_ifs <;> simp
  · rfl

theorem generation_start (m : Mem) (size o : ℕ) (gen : UInt32) :
    (start m size o gen).generation = gen := by simp [start]

theorem descend_filled {t : NodeTree h} (hw : t.Within m type size) (h3 : 3 ≤ t.keys.length)
    (n : ℕ) (st : List (ℕ × ℕ)) : ∃ h' st', ∃ t' : NodeTree h',
      descend m n ((t.ofs, 0) :: st) = (t'.ofs, 0) :: st' ∧ t'.Within m type size ∧
        3 ≤ t'.keys.length := by
  induction h generalizing n st with
  | zero =>
    have hc : NodeView.getChildOffset m t.ofs 0 = 0 := hw.seen.child_leaf (by omega)
    exact ⟨0, st, t, by cases n <;> simp [descend, hc], hw, h3⟩
  | succ h ih =>
    cases n with
    | zero => exact ⟨h + 1, st, t, rfl, hw, h3⟩
    | succ n =>
      have hl := hw.length_kids
      obtain ⟨hc, hne⟩ := hw.child (i := 0) (by omega)
      have hmem := List.getElem_mem (l := t.kids) (n := 0) (by omega)
      rw [descend, hc, if_pos hne]
      exact ih (hw.kid hmem) (hw.seen.shaped.2.2 _ hmem).1 n _

theorem hasBuffer_findNext {t : NodeTree h} (hw : t.Within m type size) {i : ℕ}
    (hi : i < t.keys.length) {st : List (ℕ × ℕ)} (hst : it.stack = (t.ofs, i) :: st)
    (hb : it.hasBuffer = true) (hs : size ≠ 0) (hg : it.generation = NodeView.generation m 0) :
    (it.findNext m size).hasBuffer = true := by
  have hu : unwind m it.stack = (t.ofs, i) :: st := by
    rw [hst, unwind, hw.seen.keyCount, if_neg (by omega)]
  rw [findNext, if_pos hb, if_neg (by simp [hs, hg]), hu]
  simp only [hw.readEntry hi]
  split_ifs
  · rw [findFirst, if_pos hb, if_neg hs, if_neg (by simp [hg])]
    exact hb
  · exact hb

theorem hasBuffer_start {t : NodeTree h} (hw : t.Within m type size) (hs : size ≠ 0) :
    (start m size t.ofs (NodeView.generation m 0)).hasBuffer = true ↔ t.inorder ≠ [] := by
  cases h with
  | zero =>
    have hp := start_points hw hs (Nat.zero_le _)
    cases hi : t.inorder with
    | nil =>
      rw [hi] at hp
      simp [show _ = false from hp]
    | cons e es =>
      rw [hi] at hp
      simp [hp.1]
  | succ h =>
    have hl := hw.length_kids
    obtain ⟨hc, hne⟩ := hw.child (i := 0) (by omega)
    have hmem := List.getElem_mem (l := t.kids) (n := 0) (by omega)
    have h3 := (hw.seen.shaped.2.2 _ hmem).1
    obtain ⟨h', st', t', hd, hw', h3'⟩ :=
      descend_filled (hw.kid hmem) h3 (treeHeightMax - 1) [(t.ofs, 0)]
    have hsome : t.inorder ≠ [] := by
      have hk := List.getElem_mem (l := BTree.keys t.kids[0]) (n := 0) (by omega)
      exact List.ne_nil_of_mem
        (BTree.mem_inorder_of_mem_kids hmem (BTree.mem_inorder_of_mem_keys hk))
    refine iff_of_true ?_ hsome
    rw [start, findFirst, if_pos rfl, if_neg hs, if_neg (by simp)]
    suffices hd' : descend m (treeHeightMax + 1 - [(t.ofs, 0)].length) [(t.ofs, 0)] =
        (t'.ofs, 0) :: st' from hasBuffer_findNext hw' (by omega) hd' rfl hs rfl
    have hn : treeHeightMax + 1 - [(t.ofs, 0)].length = treeHeightMax - 1 + 1 := rfl
    rw [hn, descend, hc, if_pos hne]
    exact hd

end Iterator

namespace Container

variable {b : Buffer} {c : Container} {R : List Chunk}

theorem within (ho : b.Owns (c.chunks ++ R)) (hc : c.isArr = false) :
    c.tree.Within b.mem (kindOf false) b.data.length where
  seen := by
    have h := seen ho
    rwa [hc] at h
  stop_le k hk := (ho.below k (List.mem_append_left _ (by rw [chunks, hc]; exact hk))).trans ho.fits

theorem data_ne_nil (ho : b.Owns (c.chunks ++ R)) : b.data ≠ [] := by
  have := NodeTree.height_lt ho c.shaped
  exact List.ne_nil_of_length_pos (by omega)

theorem begin_eq (ho : b.Owns (c.chunks ++ R)) : b.begin c.ofs =
    .start b.mem b.data.length c.tree.ofs (NodeView.generation b.mem 0) := by
  rw [Buffer.begin, if_neg (data_ne_nil ho), ofs]

/-- A new iterator over an object of at most ten levels points at its entries. -/
theorem begin_points (ho : b.Owns (c.chunks ++ R)) (hc : c.isArr = false)
    (hh : c.height ≤ Config.treeHeightMax) :
    (b.begin c.ofs).Points b.mem (kindOf false) b.data.length c.height c.entries := by
  rw [begin_eq ho]
  exact Iterator.start_points (within ho hc) (by simpa using data_ne_nil ho) hh

theorem hasBuffer_begin (ho : b.Owns (c.chunks ++ R)) (hc : c.isArr = false) :
    (b.begin c.ofs).hasBuffer = true ↔ c.entries ≠ [] := by
  rw [begin_eq ho]
  exact Iterator.hasBuffer_start (within ho hc) (by simpa using data_ne_nil ho)

theorem generation_begin (ho : b.Owns (c.chunks ++ R)) :
    (b.begin c.ofs).generation = NodeView.generation b.mem 0 := by
  rw [begin_eq ho, Iterator.generation_start]

end Container

end Lite3
