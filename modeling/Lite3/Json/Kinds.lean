import Lite3.Json.Text

/-! # Kinds of documents

What is asked of every value in a document, at any depth.
-/

namespace Lite3

/-- Atoms that are printed as they were: integers of 32 bits, and strings without NUL that are no
hex texts. -/
def Atom.Plain : Atom → Prop
  | .int z => -2 ^ 31 ≤ z ∧ z < 2 ^ 31
  | .str s => 0 ∉ s ∧ (hexDecode s).isOk = false
  | _ => True

instance : DecidablePred Atom.Plain
  | .int z => inferInstanceAs (Decidable (-2 ^ 31 ≤ z ∧ z < 2 ^ 31))
  | .str s => inferInstanceAs (Decidable (0 ∉ s ∧ (hexDecode s).isOk = false))
  | .null | .bool _ | .real _ => inferInstanceAs (Decidable True)

namespace Json

/-- Keys are short and have distinct hashes, and arrays have less than 2^26 elements. -/
def Keyed : Json → Prop
  | .atom _ => True
  | .arr items => items.length < 2 ^ 26
  | .obj members => (∀ m ∈ members, (cstr m.1).length ≤ 62) ∧
      (members.map fun m => djb2Hash (cstr m.1)).Nodup

instance : DecidablePred Keyed
  | .atom _ => inferInstanceAs (Decidable True)
  | .arr items => inferInstanceAs (Decidable (items.length < 2 ^ 26))
  | .obj members => inferInstanceAs (Decidable ((∀ m ∈ members, (cstr m.1).length ≤ 62) ∧
      (members.map fun m => djb2Hash (cstr m.1)).Nodup))

/-- Keys have no NUL in them. -/
def Named : Json → Prop
  | .obj members => ∀ m ∈ members, 0 ∉ m.1
  | _ => True

instance : DecidablePred Named
  | .obj members => inferInstanceAs (Decidable (∀ m ∈ members, 0 ∉ m.1))
  | .atom _ | .arr _ => inferInstanceAs (Decidable True)

/-- Objects have less than 2097151 members. -/
def Counted : Json → Prop
  | .obj members => members.length < 2097151
  | _ => True

instance : DecidablePred Counted
  | .obj members => inferInstanceAs (Decidable (members.length < 2097151))
  | .atom _ | .arr _ => inferInstanceAs (Decidable True)

/-- There is no array. -/
def Flat : Json → Prop
  | .arr _ => False
  | _ => True

instance : DecidablePred Flat
  | .arr _ => inferInstanceAs (Decidable False)
  | .atom _ | .obj _ => inferInstanceAs (Decidable True)

/-- Atoms are plain. -/
def Plain : Json → Prop
  | .atom a => a.Plain
  | _ => True

instance : DecidablePred Plain
  | .atom a => inferInstanceAs (Decidable a.Plain)
  | .arr _ | .obj _ => inferInstanceAs (Decidable True)

def IsNull : Json → Prop
  | .atom .null => True
  | _ => False

instance : DecidablePred IsNull
  | .atom .null => inferInstanceAs (Decidable True)
  | .atom (.bool _) | .atom (.int _) | .atom (.real _) | .atom (.str _) | .arr _ | .obj _ =>
    inferInstanceAs (Decidable False)

/-- Arrays hold nothing but nulls. -/
def Nulls : Json → Prop
  | .arr items => ∀ v ∈ items, v.IsNull
  | _ => True

instance : DecidablePred Nulls
  | .arr items => inferInstanceAs (Decidable (∀ v ∈ items, v.IsNull))
  | .atom _ | .obj _ => inferInstanceAs (Decidable True)

def IsAtom : Json → Prop
  | .atom _ => True
  | .arr _ | .obj _ => False

instance : DecidablePred IsAtom
  | .atom _ => inferInstanceAs (Decidable True)
  | .arr _ | .obj _ => inferInstanceAs (Decidable False)

/-- Keys are short, and arrays with containers have less than 2^26 elements. -/
def Storable : Json → Prop
  | .atom _ => True
  | .arr items => items.length < 2 ^ 26 ∨ ∀ v ∈ items, v.IsAtom
  | .obj members => ∀ m ∈ members, (cstr m.1).length ≤ 62

instance : DecidablePred Storable
  | .atom _ => inferInstanceAs (Decidable True)
  | .arr items => inferInstanceAs (Decidable (items.length < 2 ^ 26 ∨ ∀ v ∈ items, v.IsAtom))
  | .obj members => inferInstanceAs (Decidable (∀ m ∈ members, (cstr m.1).length ≤ 62))

/-- There is a small array with more than nulls, whose keys on the way do not come again. -/
inductive Blocked : Json → Prop

  | arr {items : List Json} {v : Json} : items.length ≤ 6 → v ∈ items → ¬ v.IsNull →
      Blocked (.arr items)

  | obj {before after : List (List UInt8 × Json)} {m : List UInt8 × Json} :
      (before ++ m :: after).length < 2097151 → (∀ n ∈ after, cstr n.1 ≠ cstr m.1) → Blocked m.2 →
        Blocked (.obj (before ++ m :: after))

/-- The values whose arrays come back: an empty array, or no root array and nothing but nulls in the
others. -/
def Kept : Json → Prop
  | .arr items => items = []
  | j => j.All Nulls

theorem IsNull.eq {v : Json} (h : v.IsNull) : v = .atom .null := by
  rcases v with (_ | _ | _ | _ | _) | _ | _
  · rfl
  all_goals exact h.elim

theorem Flat.nulls {v : Json} (h : v.Flat) : v.Nulls := by
  cases v with
  | arr items => exact h.elim
  | atom | obj => trivial

end Json

end Lite3
