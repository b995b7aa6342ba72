import Lite3.Loaded.Reads
import Lite3.Store.Proxy

/-! # Initialising a buffer again

`init_structure` puts its node behind the used bytes, and the root of a document
is the node at offset zero. The node comes to lie there in a buffer that has
handed out nothing yet; in any other one the root stays as it was.
-/

namespace Lite3

open Bytes Config

namespace Buffer

/-- The node at offset zero is of the kind and has neither entries nor children. -/
structure Vacant (b : Buffer) (isArr : Bool) : Prop where
  type : NodeView.type b.mem 0 = kindOf isArr
  size : NodeView.size b.mem 0 = 0
  keyCount : NodeView.keyCount b.mem 0 = 0
  child : ∀ i < 8, NodeView.getChildOffset b.mem 0 i = 0

/-- Push values to the array at offset zero. -/
def pushAll (b : Buffer) (vs : List Scalar) : Buffer := vs.foldl (fun b v => b.arrAppend 0 v) b

/-- The array at offset zero holds exactly the values, at their indices. -/
structure Lists (b : Buffer) (vs : List Scalar) : Prop where
  size : (NodeView.size b.mem 0).toNat = vs.length
  value : ∀ index : UInt32, ∀ v, vs[index.toNat]? = some v →
    b.arrGetType 0 index = .ok v.type ∧ (Item.scalar v).ReadBack b 0 index
  beyond : ∀ index : UInt32, vs.length ≤ index.toNat → Throws b 0 index

/-- A key is found at offset zero. -/
def Finds (b : Buffer) (key : List UInt8) : Prop := ∃ r, b.lookup 0 key = some (some r)

/-- Making the buffer a container of the kind leaves an empty one at offset zero. What is stored
there next is all that it holds, and no key found before is found. -/
structure Resets (b : Buffer) (isArr : Bool) : Prop where
  vacant : (b.initStructure (kindOf isArr)).Vacant isArr
  pushes : isArr = true → ∀ vs : List Scalar, vs.length < 2 ^ 26 →
    (b.initArray.pushAll vs).usedSize < 2 ^ 32 → (b.initArray.pushAll vs).Lists vs ∧
      ∀ key, b.Finds key → (b.initArray.pushAll vs).lookup 0 key = some none
  sets : isArr = false → ∀ hist : List (List UInt8 × Scalar), (∀ p ∈ hist, p.1.length ≤ 62) →
    Loop.Allowed setRoot (fun b p => b.Routed 0 p.1) b.initObject hist →
    (hist.foldl setRoot b.initObject).usedSize < 2 ^ 32 → ∀ key,
      (hist.foldl setRoot b.initObject).found 0 key =
        some ((lastSet hist key).map fun v => (v.type, v.image))

variable {b b' : Buffer} {isArr : Bool} {i : ℕ}

theorem mem_initStructure (type : ValueType) (hi : i < b.usedSize) :
    (b.initStructure type).mem i = b.mem i := by
  obtain ⟨n, hn⟩ := b.data_ensureCapacity nodeSize
  unfold initStructure
  simp only [mem, data_advance, setGenType, write32, clear, write, usedSize_ensureCapacity]
  rw [view_overwrite, if_neg (by simp; omega), view_overwrite, if_neg (by simp; omega), hn,
    view_grow]

theorem Vacant.of_same (h : b.Vacant isArr) (hs : (Region.node 0).Same b.mem b'.mem) :
    b'.Vacant isArr where
  type := (congrArg Packed.type (hs.load32 le_rfl (by omega))).symm.trans h.type
  size := (congrArg Packed.size (hs.load32 (by omega) (by omega))).symm.trans h.size
  keyCount := hs.keyCount.symm.trans h.keyCount
  child i hi := (hs.getChildOffset hi).symm.trans (h.child i hi)

theorem Resets.before (h : b.Resets isArr) (hu : nodeSize ≤ b.usedSize) : b.Vacant isArr :=
  h.vacant.of_same fun i hi => mem_initStructure _ (by
    simp only [Region.node] at hi ⊢
    omega)

theorem lookup_of_vacant (hk : NodeView.keyCount b.mem 0 = 0)
    (hc : NodeView.getChildOffset b.mem 0 0 = 0) (key : List UInt8) :
    b.lookup 0 key = some none := by
  have hstep : getStep b.mem (djb2Hash key) key false 0 = .inr none := by
    rw [getStep, hk, searchNode, scan]
    simp [hc]
  rw [lookup, getImpl, Loop.run, hstep]

theorem Vacant.not_finds (h : b.Vacant isArr) (key : List UInt8) : ¬ b.Finds key := by
  rintro ⟨r, hr⟩
  rw [lookup_of_vacant h.keyCount (h.child 0 (by omega))] at hr
  cases hr

theorem not_finds_empty (key : List UInt8) : ¬ empty.Finds key := by
  rintro ⟨r, hr⟩
  rw [lookup_of_vacant (by decide) (by decide)] at hr
  cases hr

end Buffer

namespace Container

variable {b : Buffer} {c : Container} {R : List Chunk} {isArr : Bool} {l : Cell}

theorem vacant_empty (ho : b.Owns ((empty isArr 0).chunks ++ R)) : b.Vacant isArr := by
  have hh := (seen ho).label
  constructor
  · exact hh.type.trans (Packed.type_genType (kindOf_named isArr))
  · exact hh.size.trans (show Packed.size 0 = 0 by decide)
  · exact hh.keyCount.trans (show Packed.keyCount 0 = 0 by decide)
  · exact fun i hi => hh.getChildOffset hi

theorem height_of_leaf (ho : b.Owns (c.chunks ++ R))
    (hchild : NodeView.getChildOffset b.mem c.ofs 0 = 0) : c.height = 0 := by
  have hdepth := depth ho
  rw [Buffer.depth, Buffer.levels, NodeView.depth, if_pos hchild] at hdepth
  omega

theorem entries_of_vacant (ho : b.Owns (c.chunks ++ R)) (hofs : c.ofs = 0) (h : b.Vacant isArr) :
    c.entries = [] := by
  have hheight := height_of_leaf ho (hofs ▸ h.child 0 (by omega))
  have hcount : NodeView.keyCount b.mem c.ofs = c.tree.keys.length := (seen ho).keyCount
  rw [hofs, h.keyCount] at hcount
  have hleaf : ∀ {h} (t : NodeTree h), h = 0 → t.keys.length = 0 → t.inorder = [] := by
    rintro _ t rfl hk
    exact List.length_eq_zero_iff.mp hk
  exact hleaf c.tree hheight hcount.symm

end Container

theorem usedSize_le_arrAppend (b : Buffer) (ofs : ℕ) (v : Scalar) :
    b.usedSize ≤ (b.arrAppend ofs v).usedSize :=
  usedSize_le_setImpl _ _ _

theorem usedSize_le_pushAll (b : Buffer) (vs : List Scalar) :
    b.usedSize ≤ (b.pushAll vs).usedSize := by
  induction vs generalizing b with
  | nil => exact le_rfl
  | cons v vs ih => exact (usedSize_le_arrAppend b 0 v).trans (ih _)

theorem Tracks.pushAll {b : Buffer} {c : Container} {R : List Chunk} {l : Cell} {vs : List Scalar}
    (ht : Tracks c l) (ho : b.Owns (c.chunks ++ R)) (hc : c.isArr = true) (hofs : c.ofs = 0)
    (hn : l.items.length + vs.length < 2 ^ 26) (hfin : (b.pushAll vs).usedSize < 2 ^ 32) :
    ∃ c', (b.pushAll vs).Owns (c'.chunks ++ R) ∧
      Tracks c' (vs.foldl (fun l v => l.push (.scalar v)) l) ∧ c'.ofs = 0 ∧ c'.isArr = true := by
  induction vs generalizing b c l with
  | nil => exact ⟨c, ho, ht, hofs, hc⟩
  | cons v vs ih =>
    have hlt : (b.arrAppend c.ofs v).usedSize < 2 ^ 32 := by
      rw [hofs]
      exact (usedSize_le_pushAll _ vs).trans_lt hfin
    rw [List.length_cons] at hn
    obtain ⟨x, c', ms, b₁, hown, hup⟩ := Container.arrAppend ho hc v hlt
    have hx : x.Holds true (.scalar v) := hup.holds (appendArgs_carries _ v) (by simp)
    have hpush := ht.push hc hup rfl hx (by omega)
    rw [hofs] at hown
    refine ih hpush hown (hup.kind.trans hc) ?_ ?_ hfin
    · rw [Container.ofs_withSize, hup.ofs, hofs]
    · simp only [Cell.push, List.length_append, List.length_singleton]
      omega

theorem items_pushAll (l : Cell) (vs : List Scalar) :
    (vs.foldl (fun l v => l.push (.scalar v)) l).items = l.items ++ vs.map .scalar := by
  induction vs generalizing l with
  | nil => simp
  | cons v vs ih => rw [List.foldl_cons, ih]; simp [Cell.push]

theorem Tracks.lists {b : Buffer} {c : Container} {R : List Chunk} {l : Cell} {vs : List Scalar}
    (ht : Tracks c l) (ho : b.Owns (c.chunks ++ R)) (hc : c.isArr = true) (hofs : c.ofs = 0)
    (hl : l.items = vs.map .scalar) : b.Lists vs := by
  have he := ht.elements hc
  constructor
  · rw [← hofs, Container.size_eq ho, he.size, hl, List.length_map]
  · intro index v hv
    have hi : l.items[index.toNat]? = some (.scalar v) := by rw [hl, List.getElem?_map, hv]; rfl
    exact hofs ▸ he.readBack hc ho hi
  · intro index hi
    exact hofs ▸ he.throws hc ho (by rwa [hl, List.length_map])

namespace Buffer

variable {b : Buffer} {R : List Chunk} {isArr : Bool}

theorem Resets.of_owns
    (ho : (b.initStructure (kindOf isArr)).Owns ((Container.empty isArr 0).chunks ++ R))
    (hno : ∀ key, ¬ b.Finds key) : b.Resets isArr where
  vacant := Container.vacant_empty ho
  pushes := by
    rintro rfl vs hn hfin
    obtain ⟨c, hown, ht, hofs, hc⟩ := Tracks.pushAll (l := .new true 0 []) .empty ho rfl rfl
      (by simpa [Cell.new] using hn) hfin
    constructor
    · exact ht.lists hown hc hofs (items_pushAll _ vs)
    · exact fun key hkey => absurd hkey (hno key)
  sets := by
    rintro rfl hist hshort hall hfin key
    have hstart : b.initObject.Owns ((Container.empty false 0).chunks ++ []) :=
      Owned.sublist ho ((List.nil_sublist R).append_left _)
    obtain ⟨c, hown, hm, hofs, hc⟩ := Mirrors.foldl (P := fun _ _ => True) (fun _ _ _ _ => trivial)
      (fun _ _ _ _ _ _ _ _ _ _ hr => hr) hshort .empty hstart rfl rfl trivial hall hfin
    exact hm.found_lastSet hown hofs hc key

theorem resets_empty (isArr : Bool) : empty.Resets isArr := by
  apply Resets.of_owns (R := [])
  · rw [List.append_nil]
    exact Container.owns_initStructure isArr
  · exact not_finds_empty

/-- A document made of its kind again, before anything is stored in it. -/
theorem resets_start (isArr : Bool) : (World.start isArr).buf.Resets isArr := by
  have ho : (World.start isArr).buf.Owns (Container.empty isArr 0).chunks :=
    Container.owns_initStructure isArr
  generalize (World.start isArr).buf = b at ho
  have hnew := Owns.perm (Container.owns_initStructure_over isArr ho) List.perm_append_comm
  apply Resets.of_owns hnew
  exact (Container.vacant_empty (R := []) (by rwa [List.append_nil])).not_finds

end Buffer

/-- Nothing has been stored in the container. -/
def Cell.Untouched (l : Cell) : Prop := (∀ key, l.fields key = none) ∧ l.items = []

theorem Cell.not_untouched_put (l : Cell) (key : List UInt8) (it : Item) :
    ¬ (l.put key it).Untouched := by
  rintro ⟨hfields, -⟩
  have := hfields key
  simp at this

theorem Cell.not_untouched_push (l : Cell) (it : Item) : ¬ (l.push it).Untouched := by
  rintro ⟨-, hitems⟩
  simp [Cell.push] at hitems

/-- The container is tracked, and has entries once something has been stored. -/
structure Filled (c : Container) (l : Cell) : Prop where
  tracks : Tracks c l
  filled : c.entries = [] → l.Untouched

namespace World

variable {w : World} {cs : List Container} {l : Cell} {k : Call} {ks : List Call} {isArr : Bool}

theorem preserved_filled : Preserved (fun _ _ _ => True) Filled where
  tracks h := h.tracks
  new _ _ _ := ⟨.empty, fun _ => ⟨fun _ => rfl, rfl⟩⟩
  detach ofs key h := ⟨preserved_tracks.detach ofs key h.tracks, h.filled⟩
  put h _ hc _ hup _ := by
    constructor
    · exact h.tracks.put hc hup rfl _
    · intro hnil
      have hx := (hup.changed_of_sorted h.tracks.sorted).self_mem
      rw [hnil] at hx
      cases hx
  push h hc hup hh hx hn := by
    constructor
    · exact h.tracks.push hc hup hh hx hn
    · intro hnil
      have hx := (hup.changed_of_sorted h.tracks.sorted).self_mem
      rw [Container.entries_withSize] at hnil
      rw [hnil] at hx
      cases hx

/-- Something has been stored in the root. -/
def Used (w : World) : Prop := ∃ l ∈ w.cells, l.ofs = 0 ∧ l.chain = [] ∧ ¬ l.Untouched

theorem Used.step (h : w.Used) (k : Call) : (w.step k).Used := by
  obtain ⟨l, hl, ho, hc, ht⟩ := h
  obtain ⟨l', hl', rfl | ⟨key, it, rfl⟩ | ⟨it, rfl⟩⟩ := step_becomes hl (Call.not_hides (k := k) hc)
  · exact ⟨_, hl', ho, hc, ht⟩
  · exact ⟨_, hl', ho, hc, l.not_untouched_put key it⟩
  · exact ⟨_, hl', ho, hc, l.not_untouched_push it⟩

theorem used_step_start (hl : k.Legal (start isArr)) (hclear : k.Clear (start isArr)) :
    ((start isArr).step k).Used := by
  have hw : (start isArr).Backed Tracks _ := Backed.start isArr .empty
  cases k with
  | set ofs key v =>
    obtain ⟨⟨-, l, hlm, rfl, -⟩, -⟩ := hl
    have hm := List.mem_map_of_mem (f := Cell.detach l.ofs key)
      (Cell.mem_modify_self (f := .put key (.scalar v)) hlm)
    obtain rfl := List.mem_singleton.mp hlm
    exact ⟨_, hm, rfl, rfl, Cell.not_untouched_put _ key (.scalar v)⟩
  | create isArr' ofs key =>
    obtain ⟨o, c, c', C₁, C₂, hcr⟩ := hw.created preserved_tracks hl hclear trivial
    obtain ⟨⟨-, l, hlm, rfl, -⟩, -⟩ := hl
    obtain rfl := List.mem_singleton.mp hlm
    have hm : Cell.new isArr 0 [] ∈ (start isArr).cells.filter (¬ ·.Under 0 key) :=
      List.mem_filter.mpr ⟨hlm, by simp [Cell.Under, Cell.new]⟩
    rw [step_create_of_some hcr.result]
    exact ⟨_, List.mem_cons_of_mem _ (Cell.mem_modify_self hm), rfl, rfl,
      Cell.not_untouched_put _ key (.nested isArr' o)⟩
  | append ofs v =>
    obtain ⟨⟨l, hlm, rfl, -⟩, -⟩ := hl
    have hm := Cell.mem_modify_self (f := .push (.scalar v)) hlm
    obtain rfl := List.mem_singleton.mp hlm
    exact ⟨_, hm, rfl, rfl, Cell.not_untouched_push _ (.scalar v)⟩
  | appendNew isArr' ofs =>
    obtain ⟨⟨l, hlm, rfl, hla, hn⟩, hfin⟩ := hl
    obtain ⟨c, C₁, C₂, L₁, L₂, hf⟩ := hw.focus (fun _ _ h => h.ofs) hlm
    rw [buf_step_appendNew] at hfin
    obtain ⟨c', o, -, hres, -⟩ :=
      hf.appendNew preserved_tracks hw.linked (hf.here.kind.trans hla) hn hfin
    have hm := Cell.mem_modify_self (f := .push (.nested isArr' o)) hlm
    obtain rfl := List.mem_singleton.mp hlm
    rw [step_appendNew_of_some hres]
    exact ⟨_, List.mem_cons_of_mem _ hm, rfl, rfl, Cell.not_untouched_push _ (.nested isArr' o)⟩

theorem not_vacant_of_used (hw : w.Backed Filled cs) (h : w.Used) : ¬ w.buf.Vacant isArr := by
  intro hv
  obtain ⟨l, hl, ho, -, ht⟩ := h
  obtain ⟨c, R, -, hf, hown⟩ := hw.container hl
  exact ht (hf.filled (Container.entries_of_vacant hown (hf.tracks.ofs.trans ho) hv))

theorem usedSize_le_step (w : World) (k : Call) : w.buf.usedSize ≤ (w.step k).buf.usedSize := by
  cases k with
  | set ofs key v => exact usedSize_le_setImpl _ _ _
  | create isArr ofs key =>
    rw [buf_step_create]
    exact (usedSize_le_setImpl _ _ _).trans (Container.usedSize_le_setContainer _ _ _ _)
  | append ofs v => exact usedSize_le_arrAppend _ _ _
  | appendNew isArr ofs =>
    rw [buf_step_appendNew]
    exact (usedSize_le_setImpl _ _ _).trans (Container.usedSize_le_arrAppendContainer _ _ _)

theorem usedSize_le_run (w : World) (ks : List Call) :
    w.buf.usedSize ≤ (w.run ks).buf.usedSize := by
  induction ks generalizing w with
  | nil => exact le_rfl
  | cons k ks ih => exact (w.usedSize_le_step k).trans (ih _)

/-- After calls of any kind the root is reset only if it is an empty one of the kind already. -/
theorem vacant_of_resets {kind : Bool} (h : ((start kind).run ks).buf.Resets isArr) :
    ((start kind).run ks).buf.Vacant isArr :=
  h.before ((show nodeSize ≤ (start kind).buf.usedSize by cases kind <;> decide).trans
    (usedSize_le_run _ ks))

theorem vacant_start_iff {kind : Bool} : (start kind).buf.Vacant isArr ↔ isArr = kind := by
  have ho : (start kind).buf.Owns ((Container.empty kind 0).chunks ++ []) := by
    rw [List.append_nil]
    exact Container.owns_initStructure kind
  have hv := Container.vacant_empty ho
  constructor
  · intro h
    have hkind : kindOf isArr = kindOf kind := h.type.symm.trans hv.type
    cases isArr <;> cases kind <;> first | rfl | cases hkind
  · rintro rfl
    exact hv

theorem used_of_allowed {kind : Bool}
    (h : Loop.Allowed World.step (fun w k => k.Legal w ∧ k.Clear w) (.start kind) ks) :
    (∃ cs, ((start kind).run ks).Backed Filled cs) ∧ (ks = [] ∨ ((start kind).run ks).Used) := by
  have hstart : ∃ cs, (start kind).Backed Filled cs :=
    ⟨_, Backed.start kind (preserved_filled.new _ _ _)⟩
  constructor
  · exact Loop.Allowed.invariant (I := fun w => ∃ cs, w.Backed Filled cs) h hstart
      fun _ _ ⟨_, hw⟩ ⟨hl, hc⟩ => (hw.advanced preserved_filled hl hc (Call.ok_true _ _)).backed
  · cases ks with
    | nil => exact Or.inl rfl
    | cons k ks =>
      obtain ⟨⟨hl, hc⟩, hks⟩ := h
      have hused : (((start kind).step k).run ks).Used :=
        Loop.Allowed.invariant (I := Used) hks (used_step_start hl hc) fun w k hw _ => hw.step k
      exact Or.inr hused

/-- A document is reset when its buffer has handed out nothing, and otherwise only when nothing has
been stored in it and its root already is of the kind. After calls of any kind at all it is reset
only when its root is empty already. -/
theorem resets_iff {kind : Bool}
    (h : Loop.Allowed World.step (fun w k => k.Legal w ∧ k.Clear w) (.start kind) ks)
    (isArr : Bool) :
    Buffer.empty.Resets isArr ∧
      (((start kind).run ks).buf.Resets isArr ↔ ks = [] ∧ isArr = kind) ∧
      ∀ ks', ((start kind).run ks').buf.Resets isArr → ((start kind).run ks').buf.Vacant isArr := by
  refine ⟨Buffer.resets_empty isArr, ?_, fun ks' => vacant_of_resets⟩
  constructor
  · intro hr
    obtain ⟨⟨cs, hw⟩, hused⟩ := used_of_allowed h
    have hv := vacant_of_resets hr
    have hnil : ks = [] := hused.resolve_right fun hu => not_vacant_of_used hw hu hv
    subst hnil
    exact ⟨rfl, vacant_start_iff.mp hv⟩
  · rintro ⟨rfl, rfl⟩
    exact Buffer.resets_start isArr

set_option maxRecDepth 10000 in
theorem resets_iff_set : Buffer.empty.Resets true ∧
    (((start false).run [.set 0 [97] (.i64 1)]).buf.Resets true ↔
      [Call.set 0 [97] (.i64 1)] = [] ∧ true = false) ∧
    ∀ ks', ((start false).run ks').buf.Resets true → ((start false).run ks').buf.Vacant true :=
  resets_iff (by decide +kernel) true

/-- A document that is made an array before anything is stored keeps an object as its root. -/
theorem init_array_behind : ¬ ∀ kind ks isArr,
    Loop.Allowed World.step (fun w k => k.Legal w ∧ k.Clear w) (.start kind) ks →
      ((start kind).run ks).buf.Resets isArr := by
  intro h
  have htype := (h false [] true trivial).vacant.type
  revert htype
  decide +kernel

end World

end Lite3
