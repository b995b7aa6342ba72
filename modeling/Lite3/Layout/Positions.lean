import Lite3.Layout.Sequence

/-! # Positions of iterators

The top of the stack tells which entry has been read last, or which one comes
next. So iterators over one buffer are equal only where they stand at the same
entry, whatever lies below the tops of their stacks.
-/

namespace Lite3

open Bytes Config NodeTree Lite3.Tree

variable {m : Mem} {type : ValueType} {size H h o i j : ℕ} {x y it : Iterator} {e f : Entry}
  {es fs : List Entry} {b : Buffer} {c d : Container} {R : List Chunk}

namespace Iterator

/-- At index zero of a node its first key comes next, and at any other the key before it is
shown. -/
def Marks (m : Mem) (size : ℕ) (it : Iterator) : ℕ × ℕ → Prop
  | (o, 0) => 0 < NodeView.keyCount m o ∧ (readEntry m size (NodeView.getKvOffset m o 0)).isSome
  | (o, i + 1) => readEntry m size (NodeView.getKvOffset m o i) = it.current

/-- The iterator points at the entries, and the top of its stack tells where. -/
structure Stands (m : Mem) (type : ValueType) (size H : ℕ) (it : Iterator) (es : List Entry) :
    Prop where
  points : it.Points m type size H es
  marks : es ≠ [] → ∃ top ∈ it.stack.head?, it.Marks m size top

theorem findNext_stands (hb : it.hasBuffer = true) (hs : size ≠ 0)
    (hg : it.generation = NodeView.generation m 0) (hH : H ≤ treeHeightMax)
    (ht : Trail m type size H h it.stack es) : (it.findNext m size).Stands m type size H es := by
  refine ⟨findNext_points hb hs hg hH ht, fun hne => ?_⟩
  rw [findNext, if_pos hb, if_neg (by simp [hs, hg])]
  rcases ht.unwind with ⟨-, rfl⟩ | ⟨h', i, st', es', t, hu, hi, hw, hst, rfl⟩
  · exact absurd rfl hne
  · have hadd := hst.height_add
    rw [hu]
    simp only [hw.readEntry hi]
    cases h' with
    | zero =>
      have hc : NodeView.getChildOffset m t.ofs (i + 1) = 0 :=
        hw.seen.child_leaf (by have := hw.seen.laid.length_le; omega)
      rw [if_neg (by simp [hc])]
      exact ⟨_, rfl, hw.readEntry hi⟩
    | succ h' =>
      have hl := hw.length_kids
      obtain ⟨hc, hne⟩ := hw.child (i := i + 1) (by omega)
      have hmem := List.getElem_mem (l := t.kids) (n := i + 1) (by omega)
      obtain ⟨k, st, u, hd, hu, hfull⟩ := descend_filled (hw.kid hmem) (hw.seen.shaped.2.2 _ hmem).1
        (treeHeightMax + 1 - ((t.ofs, i + 1) :: st').length.succ) ((t.ofs, i + 1) :: st')
      rw [hc, if_pos ⟨hne, by omega⟩, findFirst, if_pos hb, if_neg hs, if_neg (by simp [hg])]
      refine ⟨(u.ofs, 0), congrArg List.head? hd, ?_, ?_⟩
      · rw [hu.seen.keyCount]
        omega
      · rw [hu.readEntry (by omega)]
        rfl

theorem start_stands {t : NodeTree H} (hw : t.Within m type size) (hs : size ≠ 0)
    (hH : H ≤ treeHeightMax) :
    (start m size t.ofs (NodeView.generation m 0)).Stands m type size H t.inorder := by
  rw [start, findFirst, if_pos rfl, if_neg hs, if_neg (by simp)]
  refine findNext_stands (h := 0) rfl hs rfl hH ?_
  have := Trail.descend hw .nil hH
  rwa [List.append_nil] at this

theorem Stands.next (h : it.Stands b.mem type b.data.length H es) (hd : b.data ≠ [])
    (hH : H ≤ treeHeightMax) : (it.next b).Stands b.mem type b.data.length H es.tail := by
  cases es with
  | nil =>
    have hb : it.hasBuffer = false := h.points
    have hnext : it.next b = it := by simp [Iterator.next, Iterator.findNext, hb]
    rwa [hnext]
  | cons e es =>
    obtain ⟨hb, -, hg, k, ht⟩ := h.points
    exact findNext_stands hb (by simpa using hd) hg hH ht

theorem Stands.iterate (h : it.Stands b.mem type b.data.length H es) (hd : b.data ≠ [])
    (hH : H ≤ treeHeightMax) (k : ℕ) :
    ((Iterator.next b)^[k] it).Stands b.mem type b.data.length H (es.drop k) := by
  induction k with
  | zero => exact h
  | succ k ih =>
    rw [Function.iterate_succ_apply', ← List.tail_drop]
    exact ih.next hd hH

theorem current_findNext (hb : it.hasBuffer = true) (hs : size ≠ 0)
    (hg : it.generation = NodeView.generation m 0) (ho : (o, 0) ∈ it.stack.head?)
    (hm : it.Marks m size (o, 0)) : (it.findNext m size).hasBuffer = true ∧
      (it.findNext m size).current = readEntry m size (NodeView.getKvOffset m o 0) := by
  obtain ⟨st, hst⟩ := List.head?_eq_some_iff.mp ho
  obtain ⟨hcount, hread⟩ := hm
  obtain ⟨v, hv⟩ := Option.isSome_iff_exists.mp hread
  have hu : unwind m it.stack = (o, 0) :: st := by
    rw [hst, unwind, if_neg (by omega)]
  rw [findNext, if_pos hb, if_neg (by simp [hs, hg]), hu]
  simp only [hv]
  split_ifs
  · rw [findFirst, if_pos hb, if_neg hs, if_neg (by simp [hg])]
    exact ⟨hb, rfl⟩
  · exact ⟨hb, rfl⟩

theorem Points.exists_cons (hp : it.Points m type size H es) (hb : it.hasBuffer = true) :
    ∃ e ∈ es.head?, it.current = some e.view := by
  cases es with
  | nil => exact absurd (hb.symm.trans hp) (by decide)
  | cons e es => exact ⟨e, rfl, hp.2.1⟩

theorem Stands.of_equals (hx : x.Stands b.mem type b.data.length H (e :: es))
    (hy : y.Stands b.mem type b.data.length h (f :: fs)) (hd : b.data ≠ []) (hH : H ≤ treeHeightMax)
    (hh : h ≤ treeHeightMax) (heq : x.equals b y = true) :
    e.view = f.view ∨ ∃ e' ∈ es.head?, ∃ f' ∈ fs.head?, e'.view = f'.view := by
  obtain ⟨hbx, hcx, hgx, -⟩ := hx.points
  obtain ⟨hby, hcy, hgy, -⟩ := hy.points
  have hs : b.data.length ≠ 0 := by simpa using hd
  obtain ⟨top, htop, hmx⟩ := hx.marks (by simp)
  obtain ⟨top', htop', hmy⟩ := hy.marks (by simp)
  have hsame : x.stack.head? = y.stack.head? := by
    simp only [equals, hbx, hby] at heq
    simpa [hd, hgx] using (by simpa [hd, hgx] using heq : _ ∧ _).2
  obtain rfl : top = top' := Option.some_inj.mp (htop.symm.trans (hsame.trans htop'))
  obtain ⟨o, _ | i⟩ := top
  · right
    obtain ⟨hbx', hcx'⟩ := current_findNext hbx hs hgx htop hmx
    obtain ⟨hby', hcy'⟩ := current_findNext hby hs hgy htop' hmy
    obtain ⟨e', he', hce⟩ := (hx.next hd hH).points.exists_cons hbx'
    obtain ⟨f', hf', hcf⟩ := (hy.next hd hh).points.exists_cons hby'
    have hxy : some e'.view = some f'.view := hce.symm.trans (hcx'.trans (hcy'.symm.trans hcf))
    exact ⟨e', he', f', hf', Option.some_inj.mp hxy⟩
  · left
    have hxy : some e.view = some f.view := hcx.symm.trans (hmx.symm.trans (hmy.trans hcy))
    exact Option.some_inj.mp hxy

theorem Stands.hasBuffer_iff (h : it.Stands m type size H es) : it.hasBuffer = false ↔ es = [] := by
  cases es with
  | nil => exact iff_of_true h.points rfl
  | cons e es => exact iff_of_false (by simp [h.points.1]) (by simp)

theorem Stands.equals_end (hx : x.Stands b.mem type b.data.length H es)
    (hy : y.Stands b.mem type b.data.length h fs) (hend : es = [] ∨ fs = []) :
    x.equals b y = true ↔ es = [] ∧ fs = [] := by
  rw [← hx.hasBuffer_iff, ← hy.hasBuffer_iff] at hend ⊢
  rw [equals]
  split_ifs <;> tauto

theorem Stands.equals_self (hx : x.Stands b.mem type b.data.length H (e :: es)) (hd : b.data ≠ []) :
    x.equals b x = true := by
  obtain ⟨hb, -, hg, -⟩ := hx.points
  simp [equals, hb, hd, hg]

end Iterator

theorem Entry.valueOfs_ne {isArr isArr' : Bool} (h : Chunk.Apart (e.chunk isArr) (f.chunk isArr')) :
    e.valueOfs isArr ≠ f.valueOfs isArr' := by
  have hlen : ∀ (x : Entry) a, x.ofs ≤ x.valueOfs a ∧ x.valueOfs a < x.ofs + (x.bytes a).length :=
    fun x a => by simp [Entry.valueOfs, Entry.bytes, valueBytes]
  have he := hlen e isArr
  have hf := hlen f isArr'
  simp only [Chunk.Apart, Chunk.stop, Entry.chunk] at h
  omega

namespace Container

theorem valueOfs_inj (ho : b.Owns (c.chunks ++ R)) (hi : c.entries[i]? = some e)
    (hj : c.entries[j]? = some f) (heq : e.valueOfs c.isArr = f.valueOfs c.isArr) : i = j := by
  have hall : (c.chunks ++ R).Pairwise Chunk.Apart := ho.apart
  have hentries := (List.pairwise_append.mp (List.pairwise_append.mp hall).1).2.1
  rw [List.pairwise_map] at hentries
  have hnodup : (c.entries.map (·.valueOfs c.isArr)).Nodup :=
    List.pairwise_map.mpr (hentries.imp fun {e d} => Entry.valueOfs_ne)
  have hlt : i < c.entries.length := (List.getElem?_eq_some_iff.mp hi).1
  refine (List.getElem?_inj (by simpa using hlt) hnodup).mp ?_
  rw [List.getElem?_map, List.getElem?_map, hi, hj]
  exact congrArg some heq

theorem entry_chunk_mem (he : e ∈ c.entries) : e.chunk c.isArr ∈ c.chunks :=
  List.mem_append_right _ (List.mem_map_of_mem he)

theorem begin_stands (ho : b.Owns (c.chunks ++ R)) (hc : c.isArr = false)
    (hh : c.height ≤ treeHeightMax)
    (i : ℕ) : ((Iterator.next b)^[i] (b.begin c.ofs)).Stands b.mem (kindOf false)
      b.data.length c.height
      (c.entries.drop i) := by
  have hd := data_ne_nil ho
  refine Iterator.Stands.iterate ?_ hd hh i
  rw [begin_eq ho]
  exact Iterator.start_stands (within ho hc) (by simpa using hd) hh

theorem equals_atEnd_iterate (ho : b.Owns (c.chunks ++ R)) (hc : c.isArr = false)
    (hh : c.height ≤ treeHeightMax) (i : ℕ) :
    ((Iterator.next b)^[i] (b.begin c.ofs)).equals b .atEnd = true ↔ c.entries.length ≤ i := by
  rw [Iterator.equals_atEnd, Bool.not_eq_true', (begin_stands ho hc hh i).hasBuffer_iff,
    List.drop_eq_nil_iff]

/-- Iterators over an object are equal where both have come as far, or to the end. -/
theorem equals_iterate (ho : b.Owns (c.chunks ++ R)) (hc : c.isArr = false)
    (hh : c.height ≤ treeHeightMax) (i j : ℕ) :
    ((Iterator.next b)^[i] (b.begin c.ofs)).equals b ((Iterator.next b)^[j] (b.begin c.ofs)) =
        true ↔
      i = j ∨ c.entries.length ≤ i ∧ c.entries.length ≤ j := by
  have hd := data_ne_nil ho
  have hx := begin_stands ho hc hh i
  have hy := begin_stands ho hc hh j
  by_cases hend : c.entries.length ≤ i ∨ c.entries.length ≤ j
  · rw [hx.equals_end hy (by simpa using hend), List.drop_eq_nil_iff, List.drop_eq_nil_iff]
    omega
  · have hi : i < c.entries.length := by omega
    have hj : j < c.entries.length := by omega
    have hinj : ∀ {k l : ℕ} {e f : Entry}, c.entries[k]? = some e → c.entries[l]? = some f →
        e.view = f.view → k = l := by
      intro k l e f hk hl hv
      refine valueOfs_inj ho hk hl ?_
      rw [hc]
      exact congrArg IterValue.valueOffset hv
    rw [List.drop_eq_getElem_cons hi] at hx
    rw [List.drop_eq_getElem_cons hj] at hy
    constructor
    · intro heq
      left
      rcases hx.of_equals hy hd hh hh heq with hv | ⟨e, he, f, hf, hv⟩
      · exact hinj (List.getElem?_eq_getElem hi) (List.getElem?_eq_getElem hj) hv
      · rw [List.head?_drop] at he hf
        exact Nat.succ_injective (hinj he hf hv)
    · rintro (rfl | hij)
      · exact hx.equals_self hd
      · omega

theorem equals_iterate_other (ho : b.Owns (c.chunks ++ (d.chunks ++ R))) (hc : c.isArr = false)
    (hd : d.isArr = false) (hhc : c.height ≤ treeHeightMax) (hhd : d.height ≤ treeHeightMax)
    (i j : ℕ) :
    ((Iterator.next b)^[i] (b.begin c.ofs)).equals b ((Iterator.next b)^[j] (b.begin d.ofs)) =
      true ↔
      c.entries.length ≤ i ∧ d.entries.length ≤ j := by
  have ho' : b.Owns (d.chunks ++ (c.chunks ++ R)) :=
    Buffer.Owns.perm ho (List.perm_append_comm_assoc ..)
  have hx := begin_stands ho hc hhc i
  have hy := begin_stands ho' hd hhd j
  have hne : ∀ {e f : Entry}, e ∈ c.entries → f ∈ d.entries → e.view ≠ f.view := by
    intro e f he hf hv
    have hapart := ho.apart_of_mem (entry_chunk_mem he)
      (List.mem_append_left _ (entry_chunk_mem hf))
    rw [hc, hd] at hapart
    exact Entry.valueOfs_ne hapart (congrArg IterValue.valueOffset hv)
  by_cases hend : c.entries.length ≤ i ∨ d.entries.length ≤ j
  · rw [hx.equals_end hy (by simpa using hend), List.drop_eq_nil_iff, List.drop_eq_nil_iff]
  · have hi : i < c.entries.length := by omega
    have hj : j < d.entries.length := by omega
    rw [List.drop_eq_getElem_cons hi] at hx
    rw [List.drop_eq_getElem_cons hj] at hy
    refine iff_of_false (fun heq => ?_) (by omega)
    rcases hx.of_equals hy (data_ne_nil ho) hhc hhd heq with hv | ⟨e, he, f, hf, hv⟩
    · exact hne (List.getElem_mem hi) (List.getElem_mem hj) hv
    · exact hne (List.mem_of_mem_drop (List.mem_of_mem_head? he))
        (List.mem_of_mem_drop (List.mem_of_mem_head? hf)) hv

end Container

end Lite3
