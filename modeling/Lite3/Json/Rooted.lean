import Lite3.Json.Filled
import Lite3.Json.Offsets
import Lite3.Json.Reads

/-! # Roots that are represented

A text is stored and printed as a value of the same kind, and no byte outside the
buffer is read for it, when its root is an array, or an object in which other
values have taken the place of the arrays with more than nulls. A scalar at the
root is not stored at all.
-/

namespace Lite3

open Bytes Config NodeView Lite3.Tree Stop

namespace NodeTree

variable {m : Mem} {type : ValueType} {size h n o : ℕ} {isArr : Bool} {index : UInt32}
  {under : ℕ → ℕ → List Stop}

theorem node_inside {t : NodeTree h} (hstop : ∀ k ∈ t.chunks isArr, k.stop ≤ size) :
    (Region.node t.ofs).Inside size := by
  have hle := hstop _ (t.label_chunk_mem isArr)
  rwa [Chunk.stop, Block.length_chunk] at hle

theorem stop_le_kid {t : NodeTree (h + 1)} (hstop : ∀ k ∈ t.chunks isArr, k.stop ≤ size)
    {c : NodeTree h} (hc : c ∈ t.kids) : ∀ k ∈ c.chunks isArr, k.stop ≤ size := by
  intro k hk
  apply hstop
  apply (t.chunks_perm isArr).mem_iff.mpr
  apply List.mem_cons_of_mem
  apply List.mem_append_right
  exact List.mem_flatMap.mpr ⟨c, hc, hk⟩

theorem Seen.visited {t : NodeTree h} (hs : t.Seen m type true)
    (hstop : ∀ k ∈ t.chunks true, k.stop ≤ size) (n : ℕ) :
    ∀ o ∈ Loop.visited (getStep m index [] true) n t.ofs, (Region.node o).Inside size := by
  have hkeep : ∀ o ∈ Loop.visited (getStep m index [] true) n t.ofs,
      ∃ h, ∃ t : NodeTree h, t.ofs = o ∧ t.Seen m type true ∧
        ∀ k ∈ t.chunks true, k.stop ≤ size := by
    apply Loop.visited_invariant
    · rintro _ o ⟨h, t, rfl, hs, hstop⟩ hstep
      rw [getStep_eq hs fun _ => rfl] at hstep
      split at hstep
      · cases hstep
      · split at hstep
        · next hkid =>
          obtain rfl := Sum.inl.inj hstep
          cases h with
          | zero => simp [kidOfs] at hkid
          | succ h =>
            rw [kidOfs, List.getElem?_map] at hkid
            obtain ⟨u, hu, rfl⟩ := Option.map_eq_some_iff.mp hkid
            have hmem := List.mem_of_getElem? hu
            exact ⟨h, u, rfl, hs.kid hmem, stop_le_kid hstop hmem⟩
        · cases hstep
    · exact ⟨h, t, rfl, hs, hstop⟩
  intro o ho
  obtain ⟨h, t, rfl, -, hstop⟩ := hkeep o ho
  exact node_inside hstop

theorem mem_layer {o' : ℕ} (h : .node o' ∈ layer m under o) :
    o' = o ∨ ∃ i ≤ keyCount m o, .node o' ∈ under o i := by
  unfold layer onwards at h
  simp only [List.mem_cons, List.mem_append, List.mem_flatMap, List.mem_range', reduceCtorEq,
    false_or, Stop.node.injEq] at h
  rcases h with rfl | h | ⟨j, ⟨k, hk, rfl⟩, h⟩
  · exact .inl rfl
  · exact .inr ⟨0, Nat.zero_le _, h⟩
  · exact .inr ⟨_, by omega, h⟩

theorem Within.nodes {t : NodeTree h} (hw : t.Within m type size) (n : ℕ) :
    ∀ o, .node o ∈ layer m (below m n) t.ofs → (Region.node o).Inside size := by
  induction n generalizing h with
  | zero =>
    intro o ho
    rcases mem_layer ho with rfl | ⟨i, -, hi⟩
    · exact node_inside hw.stop_le
    · simp [below] at hi
  | succ n ih =>
    intro o ho
    rcases mem_layer ho with rfl | ⟨i, hle, hi⟩
    · exact node_inside hw.stop_le
    · have hcount : keyCount m t.ofs = t.keys.length := hw.seen.keyCount
      cases h with
      | zero =>
        have hlen := hw.seen.laid.length_le
        have hc : getChildOffset m t.ofs i = 0 := hw.seen.child_leaf (by omega)
        simp [below, hc] at hi
      | succ h =>
        have hl := hw.length_kids
        obtain ⟨hc, hne⟩ := hw.child (i := i) (by omega)
        rw [below, hc, if_neg hne] at hi
        exact ih (hw.kid (List.getElem_mem _)) o hi

end NodeTree

namespace Container

variable {b : Buffer} {c : Container} {R : List Chunk} {e : Entry} {i : UInt32}

theorem node_inside (ho : b.Owns (c.chunks ++ R)) : (Region.node c.ofs).Inside b.data.length :=
  NodeTree.node_inside fun k hk => (ho.below k (List.mem_append_left _ hk)).trans ho.fits

theorem entry_stop_le (ho : b.Owns (c.chunks ++ R)) (he : e ∈ c.entries) :
    (e.chunk c.isArr).stop ≤ b.data.length :=
  (ho.below _ (List.mem_append_left _ (List.mem_append_right _ (List.mem_map_of_mem he)))).trans
    ho.fits

theorem contained (ho : b.Owns (c.chunks ++ R)) (hc : c.isArr = false) :
    Contained b.mem b.data.length (layer b.mem (below b.mem treeHeightMax) c.ofs) :=
  fun o h => (within ho hc).nodes treeHeightMax o (List.takeWhile_subset _ h)

theorem arrGetImpl_eq (ho : b.Owns (c.chunks ++ R)) (hc : c.isArr = true) (i : UInt32) :
    b.arrGetImpl c.ofs i =
      some ((c.tree.find (Entry.cmp i [])).map fun e => (e.type, e.valueOfs true + 1)) := by
  have h : b.getImpl c.ofs [] i c.isArr = _ := getImpl ho fun _ => rfl
  rwa [hc] at h

theorem arrGetReads_inside (ho : b.Owns (c.chunks ++ R)) (hc : c.isArr = true) (i : UInt32) :
    ∀ r ∈ b.arrGetReads c.ofs i, r.Inside b.data.length := by
  have hseen := seen ho
  rw [hc] at hseen
  unfold Buffer.arrGetReads
  rw [arrGetImpl_eq ho hc, List.forall_mem_append]
  constructor
  · intro r hr
    obtain ⟨o, ho', rfl⟩ := List.mem_map.mp hr
    refine hseen.visited (fun k hk => ?_) _ o ho'
    rw [← hc] at hk
    exact (ho.below k (List.mem_append_left _ hk)).trans ho.fits
  · cases hfind : c.tree.find (Entry.cmp i []) with
    | none => simp
    | some e =>
      have hle := entry_stop_le ho (BTree.find_mem hfind).1
      rw [hc] at hle
      simp only [Option.map_some, Nat.add_sub_cancel, List.mem_singleton, forall_eq]
      refine le_trans ?_ hle
      simp only [Chunk.stop, Entry.chunk, Entry.bytes, Entry.valueOfs, valueBytes,
        List.length_append, List.length_cons]
      omega

theorem cstringReads_inside (ho : b.Owns (c.chunks ++ R)) (hc : c.isArr = false)
    (he : e ∈ c.entries) :
    (b.cstringReads (e.valueOfs false - 1 - e.key.length)).Inside b.data.length := by
  obtain ⟨hheld, hread⟩ := (seen ho).entry he
  have hle := entry_stop_le ho he
  rw [hc] at hheld hread hle
  have hlen : (cstr e.key).length ≤ e.key.length := (List.takeWhile_sublist _).length_le
  rw [hread.keyOfs, Buffer.cstringReads, hheld.cstringAt hread hle, Region.Inside]
  refine le_trans ?_ hle
  simp only [Chunk.stop, Entry.chunk, Entry.bytes, keyBytes_short hread.key, List.length_append,
    List.length_cons, List.length_nil]
  omega

theorem payloadReads_inside (ho : b.Owns (c.chunks ++ R)) (he : e ∈ c.entries) :
    ∀ r ∈ ⟨e.valueOfs c.isArr, 1⟩ :: Buffer.payloadReads b.mem e.type (e.valueOfs c.isArr + 1),
      r.Inside b.data.length := by
  obtain ⟨hheld, hread⟩ := (seen ho).entry he
  have htotal := hheld.existingTotalLen hread
  have hle : e.valueOfs c.isArr + Buffer.existingTotalLen b.mem (e.valueOfs c.isArr) ≤
      b.data.length := by
    refine le_trans ?_ (entry_stop_le ho he)
    rw [htotal, Chunk.stop, Entry.chunk, Entry.bytes, List.length_append, Entry.valueOfs,
      Nat.add_assoc]
  unfold Buffer.existingTotalLen at hle
  rw [hheld.type hread] at hle
  intro r hr
  cases ht : e.type <;> simp only [ht, Buffer.payloadReads, List.mem_cons, List.not_mem_nil,
    or_false] at hr hle
  case string | bytes => rcases hr with rfl | rfl | rfl <;> simp only [Region.Inside] <;> omega
  case bool | int64 | float64 => rcases hr with rfl | rfl <;> simp only [Region.Inside] <;> omega
  all_goals
    subst hr
    simp only [Region.Inside]
    omega

end Container

/-- The loop over what an iterator has still to show reads inside if keys and values do. -/
theorem Iterator.Heads.memberReads {b : Buffer} {it : Iterator} {ι : Type} {xs : List ι}
    {g : ι → IterValue} (hp : it.Heads b.mem b.data.length (xs.map g)) (hd : b.data ≠ [])
    (hgo : it.hasBuffer = true → it.OnTrack b.mem b.data.length ∧
      Contained b.mem b.data.length (Iterator.rest b.mem it.stack))
    {reads : ℕ → List Region}
    (hkey : ∀ x ∈ xs, (b.cstringReads ((g x).valueOffset - 1 - (g x).key.length)).Inside
      b.data.length)
    (hval : ∀ x ∈ xs, ∀ r ∈ reads (g x).valueOffset, r.Inside b.data.length) (n : ℕ) :
    ∀ r ∈ b.memberReads reads n it, r.Inside b.data.length := by
  induction n generalizing it xs with
  | zero => simp [Buffer.memberReads]
  | succ n ih =>
    unfold Buffer.memberReads
    cases xs with
    | nil =>
      have hb : it.hasBuffer = false := hp
      have hequals : it.equals b .atEnd = true := if_pos ⟨hb, rfl⟩
      simp [hequals]
    | cons x xs =>
      obtain ⟨hb, hcur, hgen, hlen, hrest⟩ := hp
      obtain ⟨hon, hcont⟩ := hgo hb
      obtain ⟨hreads, hgo⟩ := (contained_findNext hb hon).mp hcont
      have hequals : it.equals b .atEnd = false := by
        rw [Iterator.equals, if_neg (by simp [hb]),
          if_pos (Or.inr (show Iterator.atEnd.hasBuffer = false from rfl))]
      have hderef : it.deref b = .ok (some (g x)) := by
        rw [Iterator.deref, if_neg (by simp [hb, hd]), if_neg (by simp [hgen]), hcur]
      have hnext := heads_findNext hb (show b.data.length ≠ 0 by simpa using hd) hgen hlen
      rw [hrest] at hnext
      have hloop : ∀ r ∈ b.memberReads reads n (it.next b), r.Inside b.data.length :=
        ih hnext (fun hb' => ⟨hon.findNext hreads hb', hgo hb'⟩)
          (fun y hy => hkey y (.tail _ hy)) fun y hy => hval y (.tail _ hy)
      rw [hequals, if_neg (by simp), hderef]
      simp only [List.forall_mem_cons, List.forall_mem_append]
      exact ⟨hon.root, hkey x (.head _), hval x (.head _), hreads, hloop⟩

namespace Container

variable {b : Buffer} {c : Container} {R : List Chunk} {reads : ℕ → List Region}

theorem memberReads_inside (ho : b.Owns (c.chunks ++ R)) (hc : c.isArr = false)
    (hroot : (Region.node 0).Inside b.data.length)
    (hval : ∀ e ∈ c.entries, ∀ r ∈ reads (e.valueOfs false), r.Inside b.data.length) :
    ∀ r ∈ Iterator.beginReads b.mem b.data.length c.ofs ++
      b.memberReads reads b.levels (b.begin c.ofs), r.Inside b.data.length := by
  have hd := data_ne_nil ho
  have hs : b.data.length ≠ 0 := by simpa using hd
  have hmem : ∀ e ∈ c.tree.top treeHeightMax, e ∈ c.entries :=
    fun e => BTree.mem_inorder_of_mem_top treeHeightMax
  obtain ⟨hstart, hgo⟩ :=
    (Iterator.contained_start hroot (node_inside ho)).mp (contained ho hc)
  have hbegin : ∀ r ∈ Iterator.beginReads b.mem b.data.length c.ofs, r.Inside b.data.length := by
    unfold Iterator.beginReads
    rw [if_neg hs, List.forall_mem_cons]
    exact ⟨hroot, hstart⟩
  have hheads := Iterator.heads_begin (m := b.mem) hs c.ofs
  rw [shown_top ho hc] at hheads
  rw [List.forall_mem_append, Iterator.begin_eq_beginAt]
  refine ⟨hbegin, hheads.memberReads hd (fun hb => ⟨Iterator.onTrack_begin hs hbegin hb, ?_⟩)
    (fun e he => cstringReads_inside ho hc (hmem e he)) (fun e he => hval e (hmem e he)) _⟩
  unfold Iterator.beginAt at hb ⊢
  rw [if_neg hs] at hb ⊢
  exact hgo hb

theorem arrGetType_eq (ho : b.Owns (c.chunks ++ R)) (hc : c.isArr = true) (i : UInt32) :
    b.arrGetType c.ofs i = .ok (((c.tree.find (Entry.cmp i [])).map Entry.type).getD .null) := by
  rw [Buffer.arrGetType, arrGetImpl_eq ho hc]
  cases c.tree.find (Entry.cmp i []) <;> rfl

theorem arrGetType_null (ho : b.Owns (c.chunks ++ R)) (hc : c.isArr = true)
    (hnull : ∀ e ∈ c.entries, e.type = .null) (i : UInt32) : b.arrGetType c.ofs i = .ok .null := by
  rw [arrGetType_eq ho hc]
  cases hfind : c.tree.find (Entry.cmp i []) with
  | none => rfl
  | some e =>
    have he : e ∈ c.entries := (BTree.find_mem hfind).1
    simp [hnull e he]

theorem loopReads_inside (ho : b.Owns (c.chunks ++ R)) {reads : UInt32 → List Region}
    (hreads : ∀ i, ∀ r ∈ reads i, r.Inside b.data.length) :
    ∀ r ∈ b.loopReads reads c.ofs, r.Inside b.data.length := by
  unfold Buffer.loopReads
  rw [List.forall_mem_cons]
  refine ⟨node_inside ho, fun r hr => ?_⟩
  obtain ⟨i, -, hr⟩ := List.mem_flatMap.mp hr
  exact hreads _ r hr

end Container

theorem Buffer.elements_eq {b : Buffer} {β : Type} {f : UInt32 → Except Fault β} {g : UInt32 → β}
    {ofs : ℕ} (h : ∀ i, f i = .ok (g i)) :
    b.elements f ofs = .ok ((List.range (size b.mem ofs).toNat).map fun i => g (.ofNat i)) :=
  mapM_eq_ok fun i _ => h (.ofNat i)

theorem TagAt.valueReads {b : Buffer} {p : ℕ} {v : Scalar} (h : TagAt b p (.scalar v)) (n : ℕ) :
    b.valueReads (n + 1) p = ⟨p, 1⟩ :: Buffer.payloadReads b.mem v.type (p + 1) := by
  rw [Buffer.valueReads, h.type]
  cases v <;> rfl

namespace Forest

variable {valid : List UInt8 → Prop} {b : Buffer} {cs : List Container} {c d : Container} {n p : ℕ}

theorem exists_owns (hf : Forest valid b cs) (hc : c ∈ cs) : ∃ R, b.Owns (c.chunks ++ R) := by
  obtain ⟨C₁, C₂, -, ho⟩ := hf.focus hc
  exact ⟨_, ho⟩

theorem array_printed (hf : Forest valid b cs) (hd : d ∈ cs) (hda : d.isArr = true)
    (hnull : ∀ e ∈ d.entries, e.type = .null) (ht : TagAt b p (.nested true d.ofs))
    (htag : (⟨p, 1⟩ : Region).Inside b.data.length) (n : ℕ) :
    ∃ j, b.toYyjsonVal (n + 1) p = .ok j ∧ j.All (Json.Valid valid) ∧
      ∀ r ∈ b.valueReads (n + 1) p, r.Inside b.data.length := by
  obtain ⟨R, ho⟩ := hf.exists_owns hd
  have hp : p + 1 = d.ofs := ht.ofs true d.ofs rfl
  have htype : ValueType.ofCode (b.mem p) = .array := ht.type
  have helem : ∀ i, b.element (b.toYyjsonVal n) p i = .ok [.atom .null] := by
    intro i
    rw [Buffer.element, hp, Container.arrGetType_null ho hda hnull]
    rfl
  have hreads : ∀ i, ∀ r ∈ b.elementReads (b.valueReads n) p i, r.Inside b.data.length := by
    intro i
    rw [Buffer.elementReads, hp, Container.arrGetType_null ho hda hnull, List.append_nil]
    exact Container.arrGetReads_inside ho hda i
  rw [Buffer.toYyjsonVal, Buffer.valueReads, htype]
  dsimp only
  rw [hp, Buffer.elements_eq helem, List.forall_mem_cons]
  refine ⟨_, rfl, .arr trivial ?_, htag, Container.loopReads_inside ho hreads⟩
  intro v hv
  rw [List.map_const', List.flatten_replicate_singleton] at hv
  rw [List.eq_of_mem_replicate hv]
  exact .atom trivial

/-- The entries of an object that is shown are printed, and what is read for them lies inside. -/
theorem object_printed (hf : Forest valid b cs) (hroot : (Region.node 0).Inside b.data.length)
    (hc : c ∈ cs) (hca : c.isArr = false) (hs : c.Shown cs) (hn : b.data.length ≤ n + c.ofs) :
    ∃ f, c.Prints valid b n f ∧
      ∀ e ∈ c.entries, ∀ r ∈ b.valueReads n (e.valueOfs false), r.Inside b.data.length := by
  induction n generalizing c with
  | zero =>
    obtain ⟨R, ho⟩ := hf.exists_owns hc
    have hle := Container.node_inside ho
    simp only [Region.Inside, Region.node, nodeSize] at hle
    omega
  | succ n ih =>
    obtain ⟨R, ho⟩ := hf.exists_owns hc
    have hshows : ∀ e ∈ c.entries, ∀ d ∈ cs, e.Holds false (.nested d.isArr d.ofs) →
        d.Shown cs := by
      cases hs with
      | arr h => simp [hca] at h
      | obj _ h => exact h
    have hentry : ∀ e ∈ c.entries, ∃ j, b.toYyjsonVal (n + 1) (e.valueOfs false) = .ok j ∧
        j.All (Json.Valid valid) ∧
        ∀ r ∈ b.valueReads (n + 1) (e.valueOfs false), r.Inside b.data.length := by
      intro e he
      obtain ⟨-, -, it, hholds, hrests⟩ := hf.rests c hc e he
      obtain ⟨hheld, hread⟩ := (Container.seen ho).entry he
      have hpay := Container.payloadReads_inside ho he
      have hlt := hf.lt_place hc he
      rw [Container.place, hca] at hlt
      rw [hca] at hholds hheld hread hpay
      have ht := hholds.tagAt hheld hread
      cases it with
      | scalar v =>
        refine ⟨_, ht.scalar (Nat.succ_pos n), .atom hrests, ?_⟩
        rw [ht.valueReads, ← show e.type = v.type from hholds.type]
        exact hpay
      | nested isArr p =>
        obtain ⟨d, hd, rfl, rfl⟩ := hrests
        have hsd := hshows e he d hd hholds
        rw [hholds.ofs _ _ rfl] at hlt
        cases hda : d.isArr with
        | true =>
          rw [hda] at ht
          cases hsd with
          | arr _ hnull => exact hf.array_printed hd hda hnull ht (hpay _ (.head _)) n
          | obj h => simp [hda] at h
        | false =>
          rw [hda] at hholds ht
          obtain ⟨R', ho'⟩ := hf.exists_owns hd
          obtain ⟨f, hp, hreads⟩ := ih hd hda hsd (by omega)
          refine ⟨_, hp.of_holds ho' hda ho hca he hholds, hp.all_valid, ?_⟩
          rw [Buffer.valueReads, ht.type, List.forall_mem_cons, ht.ofs false d.ofs rfl]
          exact ⟨hpay _ (.head _), Container.memberReads_inside ho' hda hroot hreads⟩
    choose! f hval hvalid hreads using hentry
    exact ⟨f, ⟨hval, fun e he => ⟨((hf.rests c hc e he).key hca).1, hvalid e he⟩⟩, hreads⟩

theorem rootArray_printed (hf : Forest valid b cs) (hc : c ∈ cs) (hca : c.isArr = true)
    (hofs : c.ofs = 0) :
    b.rootVal 0 = .ok (.arr []) ∧ ∀ r ∈ b.rootReads 0, r.Inside b.data.length := by
  obtain ⟨R, ho⟩ := hf.exists_owns hc
  obtain ⟨hsize, htype⟩ := Container.type_root ho hofs
  have hreads := Container.loopReads_inside ho (Container.arrGetReads_inside ho hca)
  have helem := Container.arrGetType_eq ho hca
  have hnode := Container.node_inside ho
  rw [hofs] at hreads helem hnode
  rw [Buffer.rootVal, Buffer.rootReads, if_pos ⟨rfl, hsize⟩, if_pos ⟨rfl, hsize⟩, htype, hca]
  simp only [kindOf, if_true, Buffer.elements_eq helem, List.forall_mem_cons]
  exact ⟨rfl, hnode, hreads⟩

/-- A root object that is shown is printed, and what is read for it lies inside. -/
theorem rootObject_printed (hf : Forest valid b cs) (hc : c ∈ cs) (hca : c.isArr = false)
    (hofs : c.ofs = 0)
    (hs : c.Shown cs) : ∃ ms, b.rootVal 0 = .ok (.obj ms) ∧
      (Json.obj ms).All (Json.Valid valid) ∧ ∀ r ∈ b.rootReads 0, r.Inside b.data.length := by
  obtain ⟨R, ho⟩ := hf.exists_owns hc
  obtain ⟨hsize, htype⟩ := Container.type_root ho hofs
  have hroot := Container.node_inside ho
  rw [hofs] at hroot
  have hn : b.data.length ≤ b.levels + c.ofs := by
    rw [Buffer.levels]
    omega
  obtain ⟨f, hp, hreads⟩ := hf.object_printed hroot hc hca hs hn
  refine ⟨_, hp.rootVal ho hca hofs, hp.all_valid, ?_⟩
  have hloop := Container.memberReads_inside ho hca hroot hreads
  rw [hofs] at hloop
  rw [Buffer.rootReads, if_pos ⟨rfl, hsize⟩, htype, hca, List.forall_mem_cons]
  exact ⟨hroot, hloop⟩

end Forest

/-- The kinds of JSON values -/
inductive Kind
  | object
  | array
  | string
  | number
  | boolean
  | null
  deriving DecidableEq

def Atom.kind : Atom → Kind
  | .null => .null
  | .bool _ => .boolean
  | .int _ | .real _ => .number
  | .str _ => .string

def Json.kind : Json → Kind
  | .atom a => a.kind
  | .arr _ => .array
  | .obj _ => .object

/-- The text is rejected, or a buffer is left that is printed as a value of the same kind, and what
is read for that lies inside. -/
def Represented (y : Yyjson) (text : List UInt8) : Prop :=
  (∃ f, fromJsonString y text = .error f) ∨
    ∃ b out root j, fromJsonString y text = .ok (true, b) ∧
      (∀ r ∈ b.rootReads 0, r.Inside b.data.length) ∧ toJsonString y b 0 = .ok out ∧
      y.read text = some root ∧ y.read out = some j ∧ j.kind = root.kind

/-- An array or a legible object at the root, in which containers find room and what comes again
takes the place of what was there -/
def Json.Intact (y : Yyjson) : Json → Prop
  | .atom _ => False
  | .arr items => (Json.arr items).All Storable ∧
      Filing.AllClear [0] ((Json.arr items).filings y (.here 0) .empty)
  | .obj members => (Json.obj members).All Storable ∧
      Filing.AllClear [0] ((Json.obj members).filings y (.here 0) .empty) ∧
      (Json.obj members).legible = true ∧
      ∀ f ∈ (Json.obj members).filings y (.here 0) .empty, f.Orderly

section

variable {y : Yyjson} {valid : List UInt8 → Prop} {text : List UInt8} {root : Json}

theorem represented_of_root (hy : y.Faithful valid) (hread : y.read text = some root) {b : Buffer}
    (hstore : fromYyjsonVal y root .empty 0 = (true, b)) {j : Json} (hval : b.rootVal 0 = .ok j)
    (hvalid : j.All (Json.Valid valid)) (hkind : j.kind = root.kind)
    (hreads : ∀ r ∈ b.rootReads 0, r.Inside b.data.length) : Represented y text := by
  obtain ⟨out, hout, hback⟩ := hy.prints hval hvalid
  refine .inr ⟨b, out, root, j, ?_, hreads, hout, hread, hback, hkind⟩
  rw [fromJsonString, hread]
  exact congrArg _ hstore

theorem represented_arr {items : List Json} (hy : y.Faithful valid)
    (hread : y.read text = some (.arr items)) (hstorable : (Json.arr items).All Json.Storable)
    (hroom : (Json.arr items).Roomy [0] ((Json.arr items).filings y (.here 0) .empty))
    (hfits : TextFits y text) : Represented y text := by
  have hfrom : fromJsonString y text = .ok (fromYyjsonVal y (.arr items) .empty 0) := by
    rw [fromJsonString, hread]
  have htag : (Json.arr items).tag y = kindOf true := rfl
  obtain ⟨b, cs, c, hstore, hf, hc, hofs, hca, -⟩ :=
    root_fills hy htag id hstorable (hy.read _ _ hread) hroom (hfits _ _ hfrom)
  obtain ⟨hval, hreads⟩ := hf.rootArray_printed hc hca hofs
  exact represented_of_root hy hread hstore hval (.arr trivial (by simp)) rfl hreads

theorem represented_obj {members : List (List UInt8 × Json)} (hy : y.Faithful valid)
    (hread : y.read text = some (.obj members)) (hstorable : (Json.obj members).All Json.Storable)
    (hroom : (Json.obj members).Roomy [0] ((Json.obj members).filings y (.here 0) .empty))
    (hprint : (Json.obj members).Printable ((Json.obj members).filings y (.here 0) .empty))
    (hfits : TextFits y text) : Represented y text := by
  have hfrom : fromJsonString y text = .ok (fromYyjsonVal y (.obj members) .empty 0) := by
    rw [fromJsonString, hread]
  have htag : (Json.obj members).tag y = kindOf false := rfl
  obtain ⟨b, cs, c, hstore, hf, hc, hofs, hca, -, hshown⟩ :=
    root_fills hy htag id hstorable (hy.read _ _ hread) hroom (hfits _ _ hfrom)
  obtain ⟨ms, hval, hall, hreads⟩ := hf.rootObject_printed hc hca hofs (hshown hprint)
  exact represented_of_root hy hread hstore hval hall rfl hreads

theorem Json.Intact.represented (hy : y.Faithful valid) (hread : y.read text = some root)
    (hroot : root.Intact y) (hfits : TextFits y text) : Represented y text := by
  cases root with
  | atom a => exact hroot.elim
  | arr items =>
    obtain ⟨hstorable, hclear⟩ := hroot
    exact represented_arr hy hread hstorable (.inr hclear) hfits
  | obj members =>
    obtain ⟨hstorable, hclear, hprint⟩ := hroot
    exact represented_obj hy hread hstorable (.inr hclear) (.inr hprint) hfits

end

end Lite3
