import Lite3.Layout.Getters
import Lite3.Store.Shape

/-! # Arrays

After every plain history an array has as many elements as were appended to it,
and reading it at an index gives back the item appended there.
-/

namespace Lite3

open Bytes Lite3.Tree

variable {b : Buffer} {c : Container} {R : List Chunk} {items : List Item} {it : Item} {i : ℕ}

theorem Elements.getElem_hash (he : Elements c items) {e : Entry} (hi : c.entries[i]? = some e) :
    e.hash.toNat = i ∧ i < items.length := by
  have hh : (c.entries.map Entry.hash)[i]? = some e.hash := by simp [hi]
  rw [he.hashes, List.getElem?_map, Option.map_eq_some_iff] at hh
  obtain ⟨j, hj, hje⟩ := hh
  obtain ⟨hlt, rfl⟩ := List.getElem?_eq_some_iff.mp hj
  have hb := he.bound
  rw [List.length_range] at hlt
  rw [← hje, List.getElem_range, UInt32.toNat_ofNat_of_lt' (show i < 2 ^ 32 by omega)]
  exact ⟨rfl, hlt⟩

theorem Elements.strict (he : Elements c items) (hash : UInt32) (key : List UInt8) :
    Strict (Entry.cmp hash key) c.entries := by
  refine List.pairwise_iff_getElem.mpr fun i j hi hj hij hn => Entry.cmp_gt_of_lt_hash ?_
  have h₁ := (he.getElem_hash (List.getElem?_eq_getElem hi)).1
  have h₂ := (he.getElem_hash (List.getElem?_eq_getElem hj)).1
  have hle : ¬ c.entries[i].hash < hash := fun hlt => hn (Entry.cmp_lt_of_hash_lt hlt)
  rw [UInt32.lt_iff_toNat_lt] at hle ⊢
  omega

theorem Elements.find (he : Elements c items) (hc : c.isArr = true) (index : UInt32) :
    c.tree.find (Entry.cmp index []) = c.entries[index.toNat]? := by
  rw [BTree.find_eq_find? c.shaped (he.strict _ _), show c.tree.inorder = c.entries from rfl]
  have heq : ∀ {j} {e : Entry}, c.entries[j]? = some e →
      (e.cmp index [] = .eq ↔ j = index.toNat) := by
    intro j e hj
    have hr := (c.readable e (List.mem_of_getElem? hj)).key
    rw [hc, if_pos rfl] at hr
    rw [Entry.cmp_eq_eq_iff, Entry.filed, hr, Prod.mk.injEq, and_iff_left rfl,
      ← UInt32.toNat_inj, (he.getElem_hash hj).1]
  cases hg : c.entries[index.toNat]? with
  | some e =>
    obtain ⟨hlt, rfl⟩ := List.getElem?_eq_some_iff.mp hg
    refine List.find?_eq_some_iff_getElem.mpr ⟨by simpa using (heq hg).mpr rfl, _, hlt, rfl, ?_⟩
    intro j hj
    have := (heq (List.getElem?_eq_getElem (hj.trans hlt))).not.mpr hj.ne
    simpa using this
  | none =>
    refine List.find?_eq_none.mpr fun e hm => ?_
    obtain ⟨j, hj, rfl⟩ := List.mem_iff_getElem.mp hm
    have := (heq (List.getElem?_eq_getElem hj)).not.mpr fun h => by
      have := List.getElem?_eq_none_iff.mp hg
      omega
    simpa using this

/-- What the lookup of an index gives. -/
theorem Elements.arrGetImpl (he : Elements c items) (hc : c.isArr = true)
    (ho : b.Owns (c.chunks ++ R)) (index : UInt32) : b.arrGetImpl c.ofs index =
      some (c.entries[index.toNat]?.map fun e => (e.type, e.valueOfs true + 1)) := by
  have h : b.getImpl _ _ index _ = _ := Container.getImpl ho fun _ => rfl
  rw [he.find hc, hc] at h
  exact h

theorem Elements.arrGetImpl_of_le (he : Elements c items) (hc : c.isArr = true)
    (ho : b.Owns (c.chunks ++ R)) {index : UInt32} (hi : items.length ≤ index.toNat) :
    b.arrGetImpl c.ofs index = some none := by
  rw [he.arrGetImpl hc ho, List.getElem?_eq_none (by rw [he.holds.length_eq]; exact hi)]
  rfl

theorem Elements.arrGetImpl_of_lt (he : Elements c items) (hc : c.isArr = true)
    (ho : b.Owns (c.chunks ++ R)) {index : UInt32} (hi : items[index.toNat]? = some it) :
    ∃ p, b.arrGetImpl c.ofs index = some (some (it.type, p)) ∧
      Buffer.payload b.mem it.type p = it.image ∧ ∀ a o, it = .nested a o → p = o := by
  obtain ⟨hlt, rfl⟩ := List.getElem?_eq_some_iff.mp hi
  have hle : index.toNat < c.entries.length := he.holds.length_eq ▸ hlt
  have hx := he.holds.get hle hlt
  have hm : c.entries[index.toNat] ∈ c.tree.inorder := List.getElem_mem hle
  obtain ⟨hh, hr⟩ := (Container.seen ho).entry hm
  simp only [List.get_eq_getElem] at hx
  refine ⟨c.entries[index.toNat].valueOfs true + 1, ?_, ?_, hx.ofs⟩
  · rw [he.arrGetImpl hc ho, List.getElem?_eq_getElem hle, Option.map_some, hx.type]
  · rw [← hx.type, ← hx.val, ← hc]
    exact hh.payload hr

/-- The getter for the item's type gives it back; there is none for null. -/
def Item.ReadBack (b : Buffer) (ofs : ℕ) (index : UInt32) : Item → Prop
  | .scalar .null => True
  | .scalar (.bool v) => b.arrGetBool ofs index = .ok v
  | .scalar (.i64 v) => b.arrGetI64 ofs index = .ok v
  | .scalar (.f64 v) => b.arrGetF64 ofs index = .ok v
  | .scalar (.str v) => b.arrGetStr ofs index = .ok v
  | .scalar (.bytes v) => b.arrGetBytes ofs index = .ok v
  | .nested false o => b.arrGetObj ofs index = .ok o
  | .nested true o => b.arrGetArr ofs index = .ok o

/-- Every typed getter throws. -/
structure Throws (b : Buffer) (ofs : ℕ) (index : UInt32) : Prop where
  bool : ∃ e, b.arrGetBool ofs index = .error (.exception e)
  i64 : ∃ e, b.arrGetI64 ofs index = .error (.exception e)
  f64 : ∃ e, b.arrGetF64 ofs index = .error (.exception e)
  str : ∃ e, b.arrGetStr ofs index = .error (.exception e)
  bytes : ∃ e, b.arrGetBytes ofs index = .error (.exception e)
  obj : ∃ e, b.arrGetObj ofs index = .error (.exception e)
  arr : ∃ e, b.arrGetArr ofs index = .error (.exception e)

theorem Throws.of_missing {ofs : ℕ} {index : UInt32} (h : b.arrGetImpl ofs index = some none) :
    Throws b ofs index where
  bool := ⟨_, by rw [Buffer.arrGetBool, h]; rfl⟩
  i64 := ⟨_, by rw [Buffer.arrGetI64, h]; rfl⟩
  f64 := ⟨_, by rw [Buffer.arrGetF64, h]; rfl⟩
  str := ⟨_, by rw [Buffer.arrGetStr, h]; rfl⟩
  bytes := ⟨_, by rw [Buffer.arrGetBytes, h]; rfl⟩
  obj := ⟨_, by rw [Buffer.arrGetObj, h]; rfl⟩
  arr := ⟨_, by rw [Buffer.arrGetArr, h]; rfl⟩

theorem Item.ReadBack.of_found {ofs p : ℕ} {index : UInt32}
    (h : b.arrGetImpl ofs index = some (some (it.type, p)))
    (hv : Buffer.payload b.mem it.type p = it.image) (ho : ∀ a o, it = .nested a o → p = o) :
    it.ReadBack b ofs index := by
  rcases it with (_ | v | v | v | v | v) | ⟨_ | _, o⟩ <;>
    simp only [Item.type, Item.image, Scalar.type, kindOf] at h hv
  · trivial
  · rw [ReadBack, Buffer.arrGetBool, h, Buffer.expect_found, Buffer.readBool_eq hv]
  · rw [ReadBack, Buffer.arrGetI64, h, Buffer.expect_found, Buffer.readI64_eq hv]
  · rw [ReadBack, Buffer.arrGetF64, h, Buffer.expect_found, Buffer.readF64_eq hv]
  · rw [ReadBack, Buffer.arrGetStr, h, Buffer.expect_found, Buffer.readSpan_str hv]
  · rw [ReadBack, Buffer.arrGetBytes, h, Buffer.expect_found, Buffer.readSpan_bytes hv]
  · exact ho _ _ rfl ▸ (by rw [ReadBack, Buffer.arrGetObj, h]; exact Buffer.expect_found)
  · exact ho _ _ rfl ▸ (by rw [ReadBack, Buffer.arrGetArr, h]; exact Buffer.expect_found)

theorem Elements.readBack (he : Elements c items) (hc : c.isArr = true)
    (ho : b.Owns (c.chunks ++ R)) {index : UInt32} (hi : items[index.toNat]? = some it) :
    b.arrGetType c.ofs index = .ok it.type ∧ it.ReadBack b c.ofs index := by
  obtain ⟨p, hf, hv, hofs⟩ := he.arrGetImpl_of_lt hc ho hi
  exact ⟨by rw [Buffer.arrGetType, hf], .of_found hf hv hofs⟩

theorem Elements.throws (he : Elements c items) (hc : c.isArr = true)
    (ho : b.Owns (c.chunks ++ R)) {index : UInt32} (hi : items.length ≤ index.toNat) :
    Throws b c.ofs index :=
  .of_missing (he.arrGetImpl_of_le hc ho hi)

/-- Every element of an array reads back as the item appended, the size is the number of appends,
and beyond it every typed getter throws. -/
def World.ArraysRead (w : World) : Prop :=
  ∀ l ∈ w.cells, l.isArr = true →
    (NodeView.size w.buf.mem l.ofs).toNat = l.items.length ∧
      (∀ index : UInt32, ∀ it, l.items[index.toNat]? = some it →
        w.buf.arrGetType l.ofs index = .ok it.type ∧ it.ReadBack w.buf l.ofs index) ∧
      ∀ index : UInt32, l.items.length ≤ index.toNat → Throws w.buf l.ofs index

theorem World.Backed.arraysRead {w : World} {cs : List Container} (hw : w.Backed Tracks cs) :
    w.ArraysRead := by
  intro l hl hla
  obtain ⟨c, R, -, ht, ho⟩ := hw.container hl
  have hc : c.isArr = true := ht.kind.trans hla
  have he := ht.elements hc
  rw [← ht.ofs]
  exact ⟨by rw [Container.size_eq ho, he.size], fun index it hi => he.readBack hc ho hi,
    fun index hi => he.throws hc ho hi⟩

theorem World.arraysRead_of_plain {isArr : Bool} {ks : List Call} (h : Plain isArr ks) :
    ((start isArr).run ks).ArraysRead :=
  h.backed.choose_spec.arraysRead

/-- Appends to a root array that split it and to an array nested in it. -/
def World.nestedAppends : List Call :=
  [.append 0 .null, .appendNew true 0, .append 98 (.i64 5), .append 0 (.bool true),
    .append 98 (.str [65]), .append 0 (.f64 1), .append 0 (.bytes [1, 2]), .appendNew false 0,
    .append 0 .null, .append 98 .null, .append 0 (.str []), .append 0 .null]

set_option maxRecDepth 10000 in
theorem World.arraysRead_nestedAppends : ((start true).run nestedAppends).ArraysRead :=
  arraysRead_of_plain (by decide +kernel)

end Lite3
