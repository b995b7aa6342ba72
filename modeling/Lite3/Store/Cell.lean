import Lite3.Layout.Calls

/-! # What a container is for

A cell records what the calls on a container have done since its creation: an
object maps keys to items, an array lists them. Every history keeps the keys of
the entries known, the hashes in order and the elements of arrays in place. An
object whose entries are strictly ordered holds exactly its items.
-/

namespace Lite3

open Bytes Lite3.Tree

/-- What is stored under a key or an index; a container is known by the offset of its node. -/
inductive Item
  | scalar (v : Scalar)
  | nested (isArr : Bool) (ofs : ℕ)
  deriving DecidableEq

namespace Item

def type : Item → ValueType
  | scalar v => v.type
  | nested isArr _ => kindOf isArr

def image : Item → List UInt8
  | scalar v => v.image
  | nested _ _ => []

end Item

/-- The entry stores the item; the node of a nested container lies behind the type tag. -/
structure Entry.Holds (isArr : Bool) (e : Entry) (it : Item) : Prop where
  type : e.type = it.type
  val : e.val = it.image
  ofs : ∀ a o, it = .nested a o → e.valueOfs isArr + 1 = o

/-- The items of a container, and the places it is stored in from the inside out. -/
structure Cell where
  ofs : ℕ
  isArr : Bool
  chain : List (ℕ × Option (List UInt8))
  fields : List UInt8 → Option Item
  items : List Item

namespace Cell

def new (isArr : Bool) (ofs : ℕ) (chain : List (ℕ × Option (List UInt8))) : Cell :=
  ⟨ofs, isArr, chain, fun _ => none, []⟩

def put (key : List UInt8) (it : Item) (l : Cell) : Cell :=
  { l with fields := Function.update l.fields key (some it) }

def push (it : Item) (l : Cell) : Cell := { l with items := l.items ++ [it] }

@[simp] theorem fields_put_self (l : Cell) (key : List UInt8) (it : Item) :
    (l.put key it).fields key = some it := Function.update_self ..

theorem fields_put_of_ne {k key : List UInt8} (h : k ≠ key) (l : Cell) (it : Item) :
    (l.put key it).fields k = l.fields k := Function.update_of_ne h ..

theorem put_ne_none {l : Cell} {k : List UInt8} (h : l.fields k ≠ none) {key : List UInt8}
    (it : Item) : (l.put key it).fields k ≠ none := by
  by_cases hk : k = key
  · simp [hk]
  · rwa [fields_put_of_ne hk]

end Cell

/-- The entries of an array are its items, filed under their indices. -/
structure Elements (c : Container) (items : List Item) : Prop where
  hashes : c.entries.map Entry.hash = (List.range items.length).map UInt32.ofNat
  holds : List.Forall₂ (Entry.Holds true) c.entries items
  size : c.size.toNat = items.length
  bound : items.length < 2 ^ 26

/-- What every history keeps of a container. -/
structure Tracks (c : Container) (l : Cell) : Prop where
  ofs : c.ofs = l.ofs
  kind : c.isArr = l.isArr
  sorted : Entry.Sorted c.entries
  known : c.isArr = false → ∀ e ∈ c.entries, l.fields e.key ≠ none
  elements : c.isArr = true → Elements c l.items

/-- The entries of an object are strictly ordered and hold its items. -/
structure Mirrors (c : Container) (l : Cell) : Prop where
  ordered : Entry.Ordered c.entries
  hashed : ∀ e ∈ c.entries, e.hash = djb2Hash e.key
  item : ∀ key it, l.fields key = some it → ∃ e ∈ c.entries, e.key = key ∧ e.Holds false it
  known : ∀ e ∈ c.entries, l.fields e.key ≠ none

variable {b b' : Buffer} {c c' : Container} {l : Cell} {x : Entry} {ms : List Entry}
  {R : List Chunk} {key : List UInt8} {a : SetArgs} {it : Item} {isArr : Bool}
  {chain : List (ℕ × Option (List UInt8))} {o : ℕ}

/-- Arguments that describe the item. -/
def SetArgs.Carries (a : SetArgs) (it : Item) : Prop := a.type = it.type ∧ a.val = it.image

theorem setArgs_carries (key : List UInt8) (v : Scalar) :
    (setArgs key v.type v.image).Carries (.scalar v) := ⟨rfl, rfl⟩

theorem setArgs_carries_kind (key : List UInt8) (isArr : Bool) (o : ℕ) :
    (setArgs key (kindOf isArr) []).Carries (.nested isArr o) := ⟨rfl, rfl⟩

theorem appendArgs_carries (i : UInt32) (v : Scalar) :
    (appendArgs i v.type v.image).Carries (.scalar v) := ⟨rfl, rfl⟩

theorem appendArgs_carries_kind (i : UInt32) (isArr : Bool) (o : ℕ) :
    (appendArgs i (kindOf isArr) []).Carries (.nested isArr o) := ⟨rfl, rfl⟩

theorem Updates.holds (h : Updates a b b' c c' x ms) (ha : a.Carries it)
    (ho : ∀ i o, it = .nested i o → x.valueOfs isArr + 1 = o) : x.Holds isArr it := by
  refine ⟨?_, ?_, ho⟩
  · rw [h.placed.eq]; exact ha.1
  · rw [h.placed.eq]; exact ha.2

theorem Updates.key_eq (h : Updates a b b' c c' x ms) : x.key = a.key :=
  congrArg Prod.snd h.filed_eq

theorem Updates.hash_eq (h : Updates a b b' c c' x ms) : x.hash = a.keyHash :=
  congrArg Prod.fst h.filed_eq

theorem Tracks.empty : Tracks (Container.empty isArr o) (.new isArr o chain) where
  ofs := rfl
  kind := rfl
  sorted := List.Pairwise.nil
  known := fun _ _ he => absurd he List.not_mem_nil
  elements := fun _ => ⟨rfl, .nil, Container.toNat_size_empty _ _, by simp [Cell.new]⟩

theorem Mirrors.empty : Mirrors (Container.empty isArr o) (.new isArr o chain) where
  ordered := List.Pairwise.nil
  hashed := fun _ he => absurd he List.not_mem_nil
  item := by simp [Cell.new]
  known := fun _ he => absurd he List.not_mem_nil

/-- Setting a key of an object. -/
theorem Tracks.put (ht : Tracks c l) (hc : c.isArr = false) (h : Updates a b b' c c' x ms)
    (hk : a.key = key) (it : Item) : Tracks c' (l.put key it) where
  ofs := h.ofs.trans ht.ofs
  kind := h.kind.trans ht.kind
  sorted := h.sorted ht.sorted
  known := by
    intro _ e he
    by_cases hek : e.key = key
    · simp [hek]
    · rw [Cell.fields_put_of_ne hek]
      rcases h.mem he with rfl | he
      · exact absurd (h.key_eq.trans hk) hek
      · exact ht.known hc e he
  elements := by
    rw [h.kind, hc]
    simp

/-- Setting a key of a strictly ordered object, when the call is routed. -/
theorem Mirrors.put (hm : Mirrors c l) (h : Updates a b b' c c' x ms) (hk : a.key = key)
    (hh : a.keyHash = djb2Hash key) (hr : ∀ m ∈ ms, a.Routes m) (hx : x.Holds false it) :
    Mirrors c' (l.put key it) where
  ordered := h.ordered hm.ordered hr
  hashed := by
    intro e he
    rcases h.mem he with rfl | he
    · rw [h.hash_eq, h.key_eq, hh, hk]
    · exact hm.hashed e he
  item := by
    have hch := h.changed (hm.ordered.strict _ _) hr
    intro k i hi
    by_cases hkk : k = key
    · rw [hkk, Cell.fields_put_self, Option.some_inj] at hi
      exact ⟨x, hch.self_mem, h.key_eq.trans (hk.trans hkk.symm), hi ▸ hx⟩
    · rw [Cell.fields_put_of_ne hkk] at hi
      obtain ⟨e, he, hek, hhe⟩ := hm.item k i hi
      refine ⟨e, hch.mem_iff.mpr (Or.inr ⟨he, fun hc => hkk ?_⟩), hek, hhe⟩
      rw [← hek, (SetArgs.eq_of_cmp hc).2, hk]
  known := by
    intro e he
    by_cases hek : e.key = key
    · simp [hek]
    · rw [Cell.fields_put_of_ne hek]
      rcases h.mem he with rfl | he
      · exact absurd (h.key_eq.trans hk) hek
      · exact hm.known e he

theorem Elements.hash_lt {items : List Item} (he : Elements c items) :
    ∀ e ∈ c.entries, e.hash < c.size := by
  intro e hm
  have hh := List.mem_map_of_mem (f := Entry.hash) hm
  rw [he.hashes, List.mem_map] at hh
  obtain ⟨i, hi, hie⟩ := hh
  have hb := he.bound
  have hi := List.mem_range.mp hi
  rw [← hie, UInt32.lt_iff_toNat_lt, he.size, UInt32.toNat_ofNat_of_lt' (show i < 2 ^ 32 by omega)]
  exact hi

/-- Appending an item to an array. -/
theorem Elements.push {items : List Item} (he : Elements c items) (h : Updates a b b' c c' x ms)
    (hh : a.keyHash = c.size) (hx : x.Holds true it) (hn : items.length + 1 < 2 ^ 26) :
    Elements (c'.withSize (c.size + 1)) (items ++ [it]) := by
  have happ := h.append (hh ▸ he.hash_lt)
  refine ⟨?_, ?_, ?_, by simpa using hn⟩
  · have hs : x.hash = UInt32.ofNat items.length := by
      rw [h.hash_eq, hh, ← he.size, UInt32.ofNat_toNat]
    simp [happ, he.hashes, hs, List.range_succ]
  · rw [Container.entries_withSize, happ]
    exact List.rel_append he.holds (.cons hx .nil)
  · rw [Container.toNat_size_withSize, UInt32.toNat_add, he.size, List.length_append]
    simp only [UInt32.reduceToNat, List.length_singleton]
    omega

theorem Tracks.push (ht : Tracks c l) (hc : c.isArr = true) (h : Updates a b b' c c' x ms)
    (hh : a.keyHash = c.size) (hx : x.Holds true it) (hn : l.items.length + 1 < 2 ^ 26) :
    Tracks (c'.withSize (c.size + 1)) (l.push it) where
  ofs := by rw [Container.ofs_withSize]; exact h.ofs.trans ht.ofs
  kind := h.kind.trans ht.kind
  sorted := by rw [Container.entries_withSize]; exact h.sorted ht.sorted
  known := by
    rw [Container.isArr_withSize, h.kind, hc]
    simp
  elements := fun _ => (ht.elements hc).push h hh hx hn

end Lite3
