import Lite3.Json.RoundTrip
import Lite3.Store.Proxy

/-! # Integers through a buffer

An integer in a document goes through a C integer on its way into the buffer.
What is read at its place, however deep, is its remainder in the range of these.
-/

namespace Lite3

open Bytes Config Lite3.Tree

namespace Json

/-- The member or the element at a place. -/
def valueAt : Json → Place → Option Json
  | .obj members, .key k => (members.find? (·.1 = k)).map Prod.snd
  | .arr items, .index i => items[i.toNat]?
  | _, _ => none

/-- The value that a path of places leads to. -/
def reach : Json → List Place → Option Json
  | j, [] => some j
  | j, p :: path => (j.valueAt p).bind fun u => u.reach path

theorem All.valueAt {P : Json → Prop} {v u : Json} {p : Place} (h : v.All P)
    (hu : v.valueAt p = some u) : u.All P := by
  cases h with
  | atom => cases hu
  | arr _ hall =>
    cases p with
    | key k => cases hu
    | index i => exact hall u (List.mem_of_getElem? hu)
  | obj _ hall =>
    cases p with
    | index i => cases hu
    | key k =>
      obtain ⟨m, hfind, rfl⟩ := Option.map_eq_some_iff.mp hu
      exact hall m (List.mem_of_find?_eq_some hfind)

end Json

/-- `get_i64` and `arr_get_i64` -/
def Place.getI64 (b : Buffer) (o : ℕ) : Place → Except Fault Int64
  | key k => b.getI64 o k
  | index i => b.arrGetI64 o i

/-- The integer at the end of a path, whose first place is one of the container at `o`. -/
def Buffer.i64At (b : Buffer) : (o : ℕ) → Place → List Place → Except Fault Int64
  | o, p, [] => p.getI64 b o
  | o, p, q :: path =>
    match p.found b o q.isArr with
    | .ok o => b.i64At o q path
    | .error f => .error f

variable {y : Yyjson} {C : Cell → Prop} {v u : Json} {it : Item} {w : World} {l : Cell} {p : Place}
  {path : List Place} {n : ℤ} {j : Json} {text : List UInt8}

theorem Stored.itemAt (hs : Stored y C v it) (hnamed : v.Named) (h : v.valueAt p = some u) :
    ∃ l it', it = .nested p.isArr l.ofs ∧ C l ∧ l.isArr = p.isArr ∧ l.itemAt p = some it' ∧
      Stored y C u it' := by
  cases hs with
  | atom a => cases h
  | @arr items l hl hla hlen hstored _ =>
    cases p with
    | key k => cases h
    | index i =>
      have hi : items[i.toNat]? = some u := h
      obtain ⟨hlt, hget⟩ := List.getElem?_eq_some_iff.mp hi
      have hlt' : i.toNat < l.items.length := hlen ▸ hlt
      refine ⟨l, l.items[i.toNat], rfl, hl, hla, List.getElem?_eq_getElem hlt', ?_⟩
      exact hget ▸ hstored _ (Json.getElem_mem_zip hlt hlt')
  | @obj members l item hl hla hfields hstored _ _ =>
    cases p with
    | index i => cases h
    | key k =>
      obtain ⟨m, hfind, rfl⟩ := Option.map_eq_some_iff.mp h
      have hm := List.mem_of_find?_eq_some hfind
      have hk : m.1 = k := by simpa using List.find?_some hfind
      have hfield := hfields m hm
      rw [cstr_eq_self (hnamed m hm), hk] at hfield
      exact ⟨l, item m, rfl, hl, hla, hfield, hstored m hm⟩

theorem World.Faithful.getI64 (h : w.Faithful) (hl : l ∈ w.cells) (hk : l.isArr = p.isArr)
    {x : Int64} (hx : l.itemAt p = some (.scalar (.i64 x))) : p.getI64 w.buf l.ofs = .ok x := by
  cases p with
  | key k =>
    have hf := h.1 l hl hk k
    rw [show l.fields k = some (.scalar (.i64 x)) from hx] at hf
    obtain ⟨p, hp, -⟩ := hf
    obtain ⟨hlook, hpay⟩ := Buffer.lookup_of_fetch hp
    rw [Place.getI64, Buffer.getI64, hlook]
    exact Buffer.expect_found.trans (congrArg _ (Buffer.readI64_eq hpay))
  | index i => exact ((h.2 l hl hk).2.1 i _ hx).2

theorem Stored.i64At (hw : w.Faithful) (hs : Stored y C v it) (hC : ∀ d, C d → d ∈ w.cells)
    (hnamed : v.All Json.Named) (h : v.reach (p :: path) = some (.atom (.int n))) :
    ∃ o, it = .nested p.isArr o ∧ w.buf.i64At o p path = .ok (y.getInt n) := by
  induction path generalizing v it p with
  | nil =>
    obtain ⟨u, hu, hn⟩ := Option.bind_eq_some_iff.mp h
    obtain rfl : u = .atom (.int n) := Option.some_inj.mp hn
    obtain ⟨l, it', hit, hl, hla, hitem, hs'⟩ := hs.itemAt hnamed.self hu
    cases hs'
    exact ⟨l.ofs, hit, hw.getI64 (hC l hl) hla hitem⟩
  | cons q path ih =>
    obtain ⟨u, hu, hn⟩ := Option.bind_eq_some_iff.mp h
    obtain ⟨l, it', hit, hl, hla, hitem, hs'⟩ := hs.itemAt hnamed.self hu
    obtain ⟨o, rfl, hread⟩ := ih hs' (hnamed.valueAt hu) hn
    refine ⟨l.ofs, hit, ?_⟩
    rcases hw.found (hC l hl) hla q.isArr with ⟨o', ho', hf⟩ | ⟨hno, -⟩
    · obtain rfl : o = o' := (Item.nested.inj (Option.some_inj.mp (hitem.symm.trans ho'))).2
      rw [Buffer.i64At, hf]
      exact hread
    · exact absurd hitem (hno o)

theorem stored_root (hroot : ∀ a, j ≠ .atom a) (hkeyed : j.All Json.Keyed)
    (hfin : (fromYyjsonVal y j .empty 0).2.usedSize < 2 ^ 32) :
    ∃ (w : World) (isArr : Bool), fromYyjsonVal y j .empty 0 = (true, w.buf) ∧ w.Faithful ∧
      Stored y (· ∈ w.cells) j (.nested isArr 0) := by
  cases j with
  | atom a => exact absurd rfl (hroot a)
  | arr items =>
    obtain ⟨w, cs, l, hstore, hw, -, hofs, -, hs⟩ := stored_arr hkeyed hfin
    exact ⟨w, true, hstore, (hw.imp fun _ _ h => h.exact).faithful, hofs ▸ hs⟩
  | obj members =>
    obtain ⟨w, cs, l, hstore, hw, hofs, hs⟩ := stored_obj hkeyed hfin
    exact ⟨w, false, hstore, (hw.imp fun _ _ h => h.exact).faithful, hofs ▸ hs⟩

/-- The integers in the range of C integers are kept, at any place, and no others are. -/
theorem integers_kept_iff (hint : ∀ z, (y.getInt z).toInt = z.bmod (2 ^ 32))
    (hread : y.read text = some j) (hroot : ∀ a, j ≠ .atom a) (hkeyed : j.All Json.Keyed)
    (hnamed : j.All Json.Named) (hfits : TextFits y text) :
    ∃ b, fromJsonString y text = .ok (true, b) ∧
      ∀ p path n, j.reach (p :: path) = some (.atom (.int n)) →
        ((b.i64At 0 p path).map Int64.toInt = .ok n ↔ -2 ^ 31 ≤ n ∧ n < 2 ^ 31) := by
  have hfrom : fromJsonString y text = .ok (fromYyjsonVal y j .empty 0) := by
    rw [fromJsonString, hread]
  obtain ⟨w, isArr, hstore, hw, hs⟩ := stored_root hroot hkeyed (hfits _ _ hfrom)
  refine ⟨w.buf, hfrom.trans (congrArg _ hstore), fun p path n hn => ?_⟩
  obtain ⟨o, hit, hval⟩ := hs.i64At hw (fun _ => id) hnamed hn
  obtain rfl : 0 = o := (Item.nested.inj hit).2
  have hmap : (w.buf.i64At 0 p path).map Int64.toInt = .ok (n.bmod (2 ^ 32)) := by
    rw [hval, Except.map, hint]
  rw [hmap]
  constructor
  · intro h
    have hself : n.bmod (2 ^ 32) = n := Except.ok.inj h
    have hlo := Int.le_bmod (x := n) (m := 2 ^ 32) (by decide)
    have hhi := Int.bmod_lt (x := n) (m := 2 ^ 32) (by decide)
    omega
  · rintro ⟨hlo, hhi⟩
    exact congrArg _ (Int.bmod_eq_of_le (by omega) (by omega))

/-- `{"a":[1,{"b":-7}]}` -/
def integersText : List UInt8 :=
  [123, 34, 97, 34, 58, 91, 49, 44, 123, 34, 98, 34, 58, 45, 55, 125, 93, 125]

def integersValue : Json := .obj [([97], .arr [.atom (.int 1), .obj [([98], .atom (.int (-7)))]])]

/-- The stand-in with C integers of 32 bits. -/
def Yyjson.narrow (texts : List (List UInt8 × Json)) : Yyjson :=
  { Yyjson.sample texts with getInt := fun z => .ofInt (z.bmod (2 ^ 32)) }

theorem Yyjson.toInt_getInt_narrow (texts : List (List UInt8 × Json)) (z : ℤ) :
    ((narrow texts).getInt z).toInt = z.bmod (2 ^ 32) := by
  have hlo := Int.le_bmod (x := z) (m := 2 ^ 32) (by decide)
  have hhi := Int.bmod_lt (x := z) (m := 2 ^ 32) (by decide)
  exact Int64.toInt_ofInt_of_le (by omega) (by omega)

theorem integers_kept_iff_nested : ∃ b,
    fromJsonString (.narrow [(integersText, integersValue)]) integersText = .ok (true, b) ∧
      ∀ p path n, integersValue.reach (p :: path) = some (.atom (.int n)) →
        ((b.i64At 0 p path).map Int64.toInt = .ok n ↔ -2 ^ 31 ≤ n ∧ n < 2 ^ 31) := by
  have hread : (Yyjson.narrow [(integersText, integersValue)]).read integersText =
      some integersValue := rfl
  exact integers_kept_iff (Yyjson.toInt_getInt_narrow _) hread (fun a h => by cases h) (by decide)
    (by decide) (textFits hread (by decide +kernel))

/-- `{"a":2147483648}` -/
def wideText : List UInt8 := [123, 34, 97, 34, 58, 50, 49, 52, 55, 52, 56, 51, 54, 52, 56, 125]

def wideValue : Json := .obj [([97], .atom (.int 2147483648))]

/-- The first integer that is too large comes back negative. -/
theorem integer_truncated : ¬ ∀ (y : Yyjson) (text : List UInt8) (j : Json),
    (∀ z, (y.getInt z).toInt = z.bmod (2 ^ 32)) → y.read text = some j → (∀ a, j ≠ .atom a) →
    j.All Json.Keyed → j.All Json.Named → TextFits y text →
    ∃ b, fromJsonString y text = .ok (true, b) ∧ ∀ p path n, -2 ^ 63 ≤ n → n < 2 ^ 63 →
      j.reach (p :: path) = some (.atom (.int n)) → (b.i64At 0 p path).map Int64.toInt = .ok n := by
  intro h
  have hread : (Yyjson.narrow [(wideText, wideValue)]).read wideText = some wideValue := rfl
  obtain ⟨b, hfrom, hkept⟩ := h _ _ _ (Yyjson.toInt_getInt_narrow _) hread
    (fun a h => by cases h) (by decide) (by decide) (textFits hread (by decide +kernel))
  have hval := hkept (.key [97]) [] 2147483648 (by decide) (by decide) rfl
  rw [fromJsonString, hread] at hfrom
  have hread : ((fromYyjsonVal (.narrow [(wideText, wideValue)]) wideValue .empty 0).2.i64At 0
      (.key [97]) []).map Int64.toInt = .ok (-2147483648) := by decide +kernel
  rw [Except.ok.inj hfrom] at hread
  exact absurd (hval.symm.trans hread) (by decide)

end Lite3
