import Lite3.Store.Statements

/-! # Reading documents

An expression whose containers are there reads what the document has at its
path, and the default of the type where the document has something else.
-/

namespace Lite3

open Bytes

namespace Node

def type : Node → ValueType
  | scalar v => v.type
  | container isArr => kindOf isArr

def toBool : Option Node → Bool
  | some (.scalar (.bool v)) => v
  | _ => false

def toI64 : Option Node → Int64
  | some (.scalar (.i64 v)) => v
  | _ => 0

def toF64 : Option Node → UInt64
  | some (.scalar (.f64 v)) => v
  | _ => 0

def toStr : Option Node → List UInt8
  | some (.scalar (.str v)) => v
  | _ => []

def toBytes : Option Node → List UInt8
  | some (.scalar (.bytes v)) => v
  | _ => []

end Node

/-- The type of nothing: uninitialised under a key, and null in an array. -/
def Place.untyped : Place → Option ValueType
  | key _ => none
  | index _ => some .null

/-- The proxy reads what is there, and defaults for the other types. -/
structure Value.Agrees (b : Buffer) (v : Value) (p : Place) (n : Option Node) : Prop where
  type : v.type b = some ((n.map Node.type).or p.untyped)
  bool : v.toBool b = some (Node.toBool n)
  i64 : v.toI64 b = some (Node.toI64 n)
  f64 : v.toF64 b = some (Node.toF64 n)
  str : v.toStr b = some (Node.toStr n)
  bytes : v.toBytes b = some (Node.toBytes n)

/-- The lookup of the item at a place. -/
def Place.look (b : Buffer) (o : ℕ) : Place → Option (Option (ValueType × ℕ))
  | key k => b.lookup o k
  | index i => b.arrGetImpl o i

/-- The lookup finds the type and the bytes of the item. -/
structure Finds (m : Mem) (it : Option Item) (found : Option (ValueType × ℕ)) : Prop where
  type : found.map Prod.fst = it.map Item.type
  payload : ∀ i t x, it = some i → found = some (t, x) → Buffer.payload m t x = i.image

variable {Q : Place → Prop} {V : Scalar → Prop} {root : Bool} {w : World} {l : Cell} {p : Place}
  {it : Option Item} {m : Mem} {o : ℕ}
  {found : Option (ValueType × ℕ)} {β : Type} {d : Doc} {path : List Place}

namespace World

theorem Sound.look (hw : w.Sound) (hl : l ∈ w.cells) (hk : l.isArr = p.isArr) :
    ∃ found, p.look w.buf l.ofs = some found ∧ Finds w.buf.mem (l.itemAt p) found := by
  cases p with
  | key k =>
    have hf := hw.faithful.1 l hl hk k
    change ∃ found, _ ∧ Finds _ (l.fields k) found
    cases hit : l.fields k with
    | none =>
      rw [hit] at hf
      exact ⟨none, Buffer.lookup_of_fetch_none hf, rfl, by simp⟩
    | some i =>
      rw [hit] at hf
      obtain ⟨x, hx, -⟩ := hf
      obtain ⟨hlook, hpay⟩ := Buffer.lookup_of_fetch hx
      refine ⟨_, hlook, rfl, ?_⟩
      rintro i' t x' hi ht
      obtain ⟨rfl, rfl⟩ := Prod.mk.inj (Option.some_inj.mp ht)
      rwa [← Option.some_inj.mp hi]
  | index i =>
    obtain ⟨cs, hcs⟩ := hw.backed
    obtain ⟨c, R, -, hQ, ho⟩ := hcs.container hl
    have hc : c.isArr = true := hQ.tracks.kind.trans hk
    have helem := hQ.tracks.elements hc
    rw [← hQ.tracks.ofs]
    change ∃ found, _ ∧ Finds _ l.items[i.toNat]? found
    cases hit : l.items[i.toNat]? with
    | none =>
      have hnone := helem.arrGetImpl_of_le hc ho (List.getElem?_eq_none_iff.mp hit)
      exact ⟨none, hnone, rfl, by simp⟩
    | some j =>
      obtain ⟨x, hx, hpay, -⟩ := helem.arrGetImpl_of_lt hc ho hit
      refine ⟨_, hx, rfl, ?_⟩
      rintro i' t x' hi ht
      obtain ⟨rfl, rfl⟩ := Prod.mk.inj (Option.some_inj.mp ht)
      rwa [← Option.some_inj.mp hi]

theorem Sound.look_zero (hw : w.Sound) (hl : l ∈ w.cells) (hla : l.isArr = false)
    (key : List UInt8) : (w.buf.getImpl l.ofs key 0 false).isSome := by
  obtain ⟨cs, hcs⟩ := hw.backed
  obtain ⟨c, R, -, hQ, ho⟩ := hcs.container hl
  have hc : c.isArr = false := hQ.tracks.kind.trans hla
  have hzero : w.buf.getImpl _ key 0 _ = _ := Container.getImpl ho (by simp [hc])
  rw [hc, hQ.tracks.ofs] at hzero
  rw [hzero]
  rfl

end World

/-- Read what was found, if it has the type. -/
def readOr (found : Option (ValueType × ℕ)) (type : ValueType) (f : ℕ → β) (default : β) : β :=
  match found with
  | some (t, x) => if t = type then f x else default
  | none => default

theorem Value.caught_expect (found : Option (ValueType × ℕ)) (type : ValueType)
    (missing mismatch : String) (f : ℕ → β) (default : β) :
    caught default (Buffer.expect (some found) type missing mismatch f) =
      some (readOr found type f default) := by
  rcases found with _ | ⟨t, x⟩
  · rfl
  · by_cases ht : t = type
    · simp [Buffer.expect, readOr, caught, ht]
    · simp [Buffer.expect, readOr, caught, ht]

/-- A read by the type gives the value of the item, and the default for others. -/
theorem Finds.readOr (h : Finds m it found) (type : ValueType) (f : ℕ → β) (g : Option Node → β)
    (hkind : ∀ a, kindOf a ≠ type)
    (hhit : ∀ v : Scalar, v.type = type → ∀ x, Buffer.payload m type x = v.image →
      f x = g (some (.scalar v)))
    (hmiss : ∀ n : Option Node, n.map Node.type ≠ some type → g n = g none) :
    Lite3.readOr found type f (g none) = g (it.map Item.node) := by
  obtain ⟨htype, hpay⟩ := h
  rcases it with _ | i
  · rw [Option.map_eq_none_iff.mp htype]
    rfl
  · obtain ⟨⟨t, x⟩, rfl, ht⟩ := Option.map_eq_some_iff.mp htype
    obtain rfl : t = i.type := ht
    by_cases heq : i.type = type
    · subst heq
      cases i with
      | scalar v => exact (if_pos rfl).trans (hhit v rfl x (hpay _ _ x rfl rfl))
      | nested a o => exact absurd rfl (hkind a)
    · refine (if_neg heq).trans (hmiss _ ?_).symm
      cases i <;> simpa [Item.node, Node.type, Item.type] using heq

namespace Value

variable {b : Buffer} {element member : Except Fault β} {type : ValueType} {default : β} {f : ℕ → β}

theorem cast_key {k : List UInt8} (hne : Place.key k ≠ .key []) :
    (of o (.key k)).cast element member default = caught default member :=
  (if_neg (by simp [of])).trans (if_pos fun he => hne (congrArg Place.key he))

theorem cast_index (i : UInt32) :
    (of o (.index i)).cast element member default = caught default element := if_pos rfl

theorem toBool_of (hne : p ≠ .key []) (hlook : p.look b o = some found) :
    (of o p).toBool b = some (readOr found .bool (Buffer.readBool b.mem) false) := by
  cases p with
  | key k =>
    have hlook : b.lookup o k = some found := hlook
    rw [toBool, cast_key hne, of, Buffer.getBool, hlook, caught_expect]
  | index i =>
    have hlook : b.arrGetImpl o i = some found := hlook
    rw [toBool, cast_index, of, Buffer.arrGetBool, hlook, caught_expect]

theorem toI64_of (hne : p ≠ .key []) (hlook : p.look b o = some found) :
    (of o p).toI64 b = some (readOr found .int64 (Buffer.readI64 b.mem) 0) := by
  cases p with
  | key k =>
    have hlook : b.lookup o k = some found := hlook
    rw [toI64, cast_key hne, of, Buffer.getI64, hlook, caught_expect]
  | index i =>
    have hlook : b.arrGetImpl o i = some found := hlook
    rw [toI64, cast_index, of, Buffer.arrGetI64, hlook, caught_expect]

theorem toF64_of (hne : p ≠ .key []) (hlook : p.look b o = some found) :
    (of o p).toF64 b = some (readOr found .float64 (Buffer.readF64 b.mem) 0) := by
  cases p with
  | key k =>
    have hlook : b.lookup o k = some found := hlook
    rw [toF64, cast_key hne, of, Buffer.getF64, hlook, caught_expect]
  | index i =>
    have hlook : b.arrGetImpl o i = some found := hlook
    rw [toF64, cast_index, of, Buffer.arrGetF64, hlook, caught_expect]

theorem toStr_of (hne : p ≠ .key []) (hlook : p.look b o = some found) :
    (of o p).toStr b = some (readOr found .string (Buffer.readSpan b.mem) []) := by
  cases p with
  | key k =>
    have hlook : b.lookup o k = some found := hlook
    rw [toStr, cast_key hne, of, Buffer.getStr, hlook, caught_expect]
  | index i =>
    have hlook : b.arrGetImpl o i = some found := hlook
    rw [toStr, cast_index, of, Buffer.arrGetStr, hlook, caught_expect]

theorem caught_getBytes {k : List UInt8} (hz : (b.getImpl o k 0 false).isSome)
    (hlook : b.lookup o k = some found) :
    caught [] (b.getBytes o k) = some (readOr found .bytes (Buffer.readSpan b.mem) []) := by
  obtain ⟨r, hr⟩ := Option.isSome_iff_exists.mp hz
  rw [Buffer.getBytes, hr, hlook]
  rcases found with _ | ⟨t, x⟩
  · rfl
  · cases t <;> rfl

end Value

/-- The proxy of a place agrees with the item there. -/
theorem World.Sound.agrees (hw : w.Sound) (hl : l ∈ w.cells) (hk : l.isArr = p.isArr)
    (hne : p ≠ .key []) : (Value.of l.ofs p).Agrees w.buf p ((l.itemAt p).map Item.node) := by
  obtain ⟨found, hlook, hf⟩ := hw.look hl hk
  refine ⟨?_, ?_, ?_, ?_, ?_, ?_⟩
  · have htype : found.map Prod.fst = ((l.itemAt p).map Item.node).map Node.type := by
      rw [hf.type, Option.map_map]
      congr 1
      funext i
      cases i <;> rfl
    rw [← htype]
    cases p with
    | key k =>
      have hkne : k ≠ [] := fun he => hne (he ▸ rfl)
      have hlook : w.buf.lookup l.ofs k = some found := hlook
      refine (if_pos hkne).trans ?_
      rw [Value.of, Buffer.getType, hlook]
      cases found <;> rfl
    | index i =>
      have hlook : w.buf.arrGetImpl l.ofs i = some found := hlook
      refine ((if_neg (by simp [Value.of])).trans (if_pos rfl)).trans ?_
      rw [Value.of, Buffer.arrGetType, hlook]
      cases found <;> rfl
  · rw [Value.toBool_of hne hlook]
    refine congrArg some
      (hf.readOr .bool _ Node.toBool (by decide) (fun v hv x hx => ?_) fun n hn => ?_)
    · cases v <;> cases hv
      exact Buffer.readBool_eq hx
    · rcases n with _ | ((_ | _ | _ | _ | _ | _) | _) <;> first | rfl | exact absurd rfl hn
  · rw [Value.toI64_of hne hlook]
    refine congrArg some
      (hf.readOr .int64 _ Node.toI64 (by decide) (fun v hv x hx => ?_) fun n hn => ?_)
    · cases v <;> cases hv
      exact Buffer.readI64_eq hx
    · rcases n with _ | ((_ | _ | _ | _ | _ | _) | _) <;> first | rfl | exact absurd rfl hn
  · rw [Value.toF64_of hne hlook]
    refine congrArg some
      (hf.readOr .float64 _ Node.toF64 (by decide) (fun v hv x hx => ?_) fun n hn => ?_)
    · cases v <;> cases hv
      exact Buffer.readF64_eq hx
    · rcases n with _ | ((_ | _ | _ | _ | _ | _) | _) <;> first | rfl | exact absurd rfl hn
  · rw [Value.toStr_of hne hlook]
    refine congrArg some
      (hf.readOr .string _ Node.toStr (by decide) (fun v hv x hx => ?_) fun n hn => ?_)
    · cases v <;> cases hv
      exact Buffer.readSpan_str hx
    · rcases n with _ | ((_ | _ | _ | _ | _ | _) | _) <;> first | rfl | exact absurd rfl hn
  · suffices h : (Value.of l.ofs p).toBytes w.buf =
        some (readOr found .bytes (Buffer.readSpan w.buf.mem) []) by
      rw [h]
      refine congrArg some
        (hf.readOr .bytes _ Node.toBytes (by decide) (fun v hv x hx => ?_) fun n hn => ?_)
      · cases v <;> cases hv
        exact Buffer.readSpan_bytes hx
      · rcases n with _ | ((_ | _ | _ | _ | _ | _) | _) <;> first | rfl | exact absurd rfl hn
    cases p with
    | key k =>
      rw [Value.toBytes, Value.cast_key hne, Value.of]
      exact Value.caught_getBytes (hw.look_zero hl hk k) hlook
    | index i =>
      have hlook : w.buf.arrGetImpl l.ofs i = some found := hlook
      rw [Value.toBytes, Value.cast_index, Value.of, Buffer.arrGetBytes, hlook, Value.caught_expect]

/-- A comparison is true for the value that is there, and for the default where there is none. -/
structure Value.Compares (b : Buffer) (v : Value) (n : Option Node) : Prop where
  bool : ∀ x, v.equalsBool b x = some true ↔
    n = some (.scalar (.bool x)) ∨ (x = false ∧ ∀ y, n ≠ some (.scalar (.bool y)))
  i64 : ∀ x, v.equalsI64 b x = some true ↔
    n = some (.scalar (.i64 x)) ∨ (x = 0 ∧ ∀ y, n ≠ some (.scalar (.i64 y)))
  f64 : ∀ x, v.equalsF64 b x = some true ↔
    (∃ y, n = some (.scalar (.f64 y)) ∧ Value.equalF64 y x) ∨
      (Value.equalF64 0 x ∧ ∀ y, n ≠ some (.scalar (.f64 y)))
  str : ∀ x, v.equalsStr b x = some true ↔
    n = some (.scalar (.str x)) ∨ (x = [] ∧ ∀ y, n ≠ some (.scalar (.str y)))

theorem Value.Agrees.compares {b : Buffer} {v : Value} {n : Option Node} (h : v.Agrees b p n) :
    v.Compares b n where
  bool x := by
    rw [equalsBool, h.bool]
    rcases n with _ | ((_ | _ | _ | _ | _ | _) | _) <;> simp [Node.toBool]
  i64 x := by
    rw [equalsI64, h.i64]
    rcases n with _ | ((_ | _ | _ | _ | _ | _) | _) <;> simp [Node.toI64, @eq_comm _ (0 : Int64)]
  f64 x := by
    rw [equalsF64, h.f64]
    rcases n with _ | ((_ | _ | _ | _ | _ | _) | _) <;> simp [Node.toF64]
  str x := by
    rw [equalsStr, h.str]
    rcases n with _ | ((_ | _ | _ | _ | _ | _) | _) <;> simp [Node.toStr]

theorem World.Represents.reads (h : w.Represents Q V root d) (hne : path ≠ [])
    (hleads : d.Leads path) :
    ∃ v p, path.foldl Value.indexed (some .root, w.buf) = (some v, w.buf) ∧ p ∈ path.getLast? ∧
      v.Agrees w.buf p (d.get path) := by
  obtain ⟨hcomes, hw, hd⟩ := h.leads hne hleads
  have heval := World.indexed_foldl (some .root, w) path
  have hsnd := Doc.snd_foldl_enter (d, []) path
  rw [hw] at heval
  generalize path.foldl World.follow (some .root, w) = s at hcomes heval hw
  generalize path.foldl Doc.enter (d, []) = t at hcomes hsnd hd
  obtain @⟨w', d', q, p, l, hrep, hl, hq, hka, hp, -⟩ := hcomes
  obtain rfl : q ++ [p] = path := hsnd
  obtain rfl : w' = w := hw
  obtain rfl : d' = d := hd
  refine ⟨_, p, heval, by simp, ?_⟩
  rw [hrep.get_concat hq hl hka]
  exact hrep.sound.agrees hl hka hp

/-- After every run of statements and reloads that fit, with keys of distinct hashes and as long as
the buffer stays below 4 GiB, an expression whose containers are there makes nothing and reads the
document. -/
theorem document_read (hproper : Place.Proper Q) {acts : List Act} (hok : Act.Fitting Q root acts)
    {b : Buffer} (hrun : Act.run root acts = (b, d))
    (hfin : b.usedSize < 2 ^ 32) (hne : path ≠ []) (hleads : d.Leads path) :
    ∃ v p, path.foldl Value.indexed (some .root, b) = (some v, b) ∧ p ∈ path.getLast? ∧
      v.Agrees b p (d.get path) := by
  obtain ⟨w, rfl, hrep⟩ := Act.represented (V := fun _ => True) hproper hok (by simp) hrun hfin
  exact hrep.reads hne hleads

/-- `root["a"]["b"] = 5; root["c"][0] = "x"`, and in the buffer that is loaded again
`root["a"]["b"] = true; root["a"]["d"]["e"]` -/
def fourActs : List Act :=
  [.exec ⟨[.key [97], .key [98]], some (.i64 5)⟩, .exec ⟨[.key [99], .index 0], some (.str [120])⟩,
    .reload, .exec ⟨[.key [97], .key [98]], some (.bool true)⟩,
    .exec ⟨[.key [97], .key [100], .key [101]], none⟩]

/-- The places of the acts -/
def fourPlaces (p : Place) : Prop :=
  p ∈ [Place.key [97], .key [98], .key [99], .key [100], .key [101], .index 0]

instance (p : Place) : Decidable (fourPlaces p) := inferInstanceAs (Decidable (_ ∈ _))

theorem fourPlaces_proper : Place.Proper fourPlaces where
  short k hk := by
    have hall : ∀ p ∈ [Place.key [97], .key [98], .key [99], .key [100], .key [101], .index 0],
        ∀ k, p = .key k → k ≠ [] ∧ k.length ≤ 62 := by simp
    exact hall _ hk k rfl
  distinct k k' hk hk' := by
    have hmem : ∀ k, fourPlaces (.key k) → k ∈ [[97], [98], [99], [100], [101]] := by
      simp [fourPlaces]
    have hall : ∀ k ∈ [[97], [98], [99], [100], [101]], ∀ k' ∈ [[97], [98], [99], [100], [101]],
        djb2Hash k = djb2Hash k' → k = k' := by decide
    exact hall k (hmem k hk) k' (hmem k' hk')

set_option maxRecDepth 10000 in
theorem fourActs_fitting :
    Act.Fitting fourPlaces false fourActs := by
  decide +kernel

set_option maxRecDepth 10000 in
theorem document_read_four : ∃ v p, [Place.key [97], .key [98]].foldl Value.indexed
      (some .root, (Act.run false fourActs).1) =
        (some v, (Act.run false fourActs).1) ∧ p ∈ [Place.key [97], .key [98]].getLast? ∧
      v.Agrees (Act.run false fourActs).1 p (some (.scalar (.bool true))) :=
  document_read fourPlaces_proper fourActs_fitting Prod.mk.eta.symm (by decide +kernel) (by decide)
    (by decide +kernel)

/-- So comparisons with what an expression reads are decided by the document. -/
theorem document_compared (hproper : Place.Proper Q) {acts : List Act}
    (hok : Act.Fitting Q root acts) {b : Buffer} (hrun : Act.run root acts = (b, d))
    (hfin : b.usedSize < 2 ^ 32) (hne : path ≠ []) (hleads : d.Leads path) :
    ∃ v, path.foldl Value.indexed (some .root, b) = (some v, b) ∧ v.Compares b (d.get path) := by
  obtain ⟨w, rfl, hrep⟩ := Act.represented (V := fun _ => True) hproper hok (by simp) hrun hfin
  obtain ⟨v, p, heval, -, hagrees⟩ := hrep.reads hne hleads
  exact ⟨v, heval, hagrees.compares⟩

set_option maxRecDepth 10000 in
/-- The string at `root["c"][0]` is equal to the integer zero. -/
theorem document_compared_four : ∃ v, [Place.key [99], .index 0].foldl Value.indexed
      (some .root, (Act.run false fourActs).1) =
        (some v, (Act.run false fourActs).1) ∧
      v.equalsI64 (Act.run false fourActs).1 0 = some true := by
  have hleads : (Act.run false fourActs).2.Leads [.key [99], .index 0] := by
    decide +kernel
  obtain ⟨v, heval, hc⟩ := document_compared fourPlaces_proper fourActs_fitting Prod.mk.eta.symm
    (by decide +kernel) (by decide) hleads
  have hget : (Act.run false fourActs).2.get [.key [99], .index 0] =
      some (.scalar (.str [120])) := by decide +kernel
  rw [hget] at hc
  exact ⟨v, heval, (hc.i64 0).mpr (Or.inr ⟨rfl, by simp⟩)⟩

end Lite3
