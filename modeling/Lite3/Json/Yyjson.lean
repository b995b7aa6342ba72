import Lite3.Json.Text
import Mathlib.Logic.Equiv.List
import Mathlib.Tactic.DeriveEncodable

/-! # What is assumed of yyjson

Texts and values correspond. A stand-in shows that this can be had: some texts
and their values are given, and any other value is written as a code.
-/

namespace Lite3

/-- Integers of 64 bits, signed or not, doubles that are numbers, and strings that are `valid`. -/
def Atom.Valid (valid : List UInt8 → Prop) : Atom → Prop
  | .int v => -2 ^ 63 ≤ v ∧ v < 2 ^ 64
  | .real bits => (bits >>> 52) &&& 0x7FF ≠ 0x7FF
  | .str s => valid s
  | _ => True

/-- What a document can hold. -/
def Json.Valid (valid : List UInt8 → Prop) : Json → Prop
  | .atom a => a.Valid valid
  | .arr _ => True
  | .obj members => ∀ m ∈ members, valid m.1

/-- What is documented of yyjson: texts and values correspond, and integers in the range of C
integers are kept. Texts in ASCII are valid, and so is what precedes a NUL. -/
structure Yyjson.Faithful (y : Yyjson) (valid : List UInt8 → Prop) : Prop where
  read : ∀ s j, y.read s = some j → j.All (Json.Valid valid)
  write : ∀ j, Json.All (Json.Valid valid) j → ∃ s, y.write j = some s ∧ y.read s = some j
  getInt : ∀ z : ℤ, -2 ^ 31 ≤ z → z < 2 ^ 31 → (y.getInt z).toInt = z
  ascii : ∀ s, (∀ c ∈ s, c < 128) → valid s
  cstr : ∀ s, valid s → valid (cstr s)

instance instEncodableUInt8 : Encodable UInt8 :=
  .ofLeftInverse UInt8.toNat UInt8.ofNat fun _ => UInt8.ofNat_toNat

instance instEncodableUInt64 : Encodable UInt64 :=
  .ofLeftInverse UInt64.toNat UInt64.ofNat fun _ => UInt64.ofNat_toNat

deriving instance Encodable for Atom

namespace Json

/-- The heads of values, in prefix order. -/
inductive Token
  | atom (a : Atom)
  | arr (count : ℕ)
  | obj (keys : List (List UInt8))
  deriving DecidableEq, Encodable

mutual

def tokens : Json → List Token
  | .atom a => [.atom a]
  | .arr items => .arr items.length :: itemTokens items
  | .obj members => .obj (members.map Prod.fst) :: memberTokens members

def itemTokens : List Json → List Token
  | [] => []
  | v :: vs => v.tokens ++ itemTokens vs

def memberTokens : List (List UInt8 × Json) → List Token
  | [] => []
  | (_, v) :: ms => v.tokens ++ memberTokens ms

end

/-- Every string is valid. -/
abbrev AnyString : List UInt8 → Prop := fun _ => True

instance (a : Atom) : Decidable (a.Valid AnyString) :=
  match a with
  | .int v => inferInstanceAs (Decidable (-2 ^ 63 ≤ v ∧ v < 2 ^ 64))
  | .real bits => inferInstanceAs (Decidable ((bits >>> 52) &&& 0x7FF ≠ 0x7FF))
  | .null | .bool _ | .str _ => inferInstanceAs (Decidable True)

/-- Atoms that no document can hold become null. -/
def Token.push : Token → List Json → List Json
  | .atom a, vs => .atom (if a.Valid AnyString then a else .null) :: vs
  | .arr count, vs => .arr (vs.take count) :: vs.drop count
  | .obj keys, vs => .obj (keys.zip vs) :: vs.drop keys.length

/-- The values that a list of tokens spells. -/
def ofTokens (ts : List Token) : List Json := ts.foldr Token.push []

instance : DecidablePred (Valid AnyString)
  | .atom a => inferInstanceAs (Decidable (a.Valid AnyString))
  | .arr _ => inferInstanceAs (Decidable True)
  | .obj members => inferInstanceAs (Decidable (∀ m ∈ members, AnyString m.1))

variable {j : Json}

theorem ofTokens_append (hj : j.All (Valid AnyString)) (ts : List Token) :
    ofTokens (j.tokens ++ ts) = j :: ofTokens ts := by
  induction j generalizing ts with
  | atom a =>
    rw [tokens]
    exact congrArg (fun a => Json.atom a :: ofTokens ts) (if_pos hj.self)
  | arr items ih =>
    have hitems : ∀ us : List Json, (∀ v ∈ us, v ∈ items) →
        ofTokens (itemTokens us ++ ts) = us ++ ofTokens ts := by
      intro us
      induction us with
      | nil => intro _; rw [itemTokens]; rfl
      | cons v us ihus =>
        intro hus
        obtain ⟨hv, hus⟩ := List.forall_mem_cons.mp hus
        rw [itemTokens, List.append_assoc, ih v hv ((all_arr.mp hj).2 v hv) _, ihus hus]
        rfl
    rw [tokens]
    change Token.push (.arr items.length) (ofTokens (itemTokens items ++ ts)) = _
    rw [hitems items fun _ => id, Token.push]
    simp
  | obj members ih =>
    have hmembers : ∀ us : List (List UInt8 × Json), (∀ m ∈ us, m ∈ members) →
        ofTokens (memberTokens us ++ ts) = us.map Prod.snd ++ ofTokens ts := by
      intro us
      induction us with
      | nil => intro _; rw [memberTokens]; rfl
      | cons m us ihus =>
        intro hus
        obtain ⟨hm, hus⟩ := List.forall_mem_cons.mp hus
        rw [memberTokens, List.append_assoc, ih m hm ((all_obj.mp hj).2 m hm), ihus hus]
        rfl
    have hzip : ∀ us : List (List UInt8 × Json),
        (us.map Prod.fst).zip (us.map Prod.snd ++ ofTokens ts) = us := by
      intro us
      induction us with
      | nil => rfl
      | cons m us ihus => exact congrArg (m :: ·) ihus
    rw [tokens]
    change Token.push (.obj (members.map Prod.fst)) (ofTokens (memberTokens members ++ ts)) = _
    rw [hmembers members fun _ => id, Token.push, hzip members]
    simp

theorem ofTokens_tokens (hj : j.All (Valid AnyString)) : ofTokens j.tokens = [j] := by
  simpa [ofTokens] using ofTokens_append hj []

theorem valid_ofTokens (ts : List Token) : ∀ v ∈ ofTokens ts, v.All (Valid AnyString) := by
  induction ts with
  | nil => simp [ofTokens]
  | cons t ts ih =>
    change ∀ v ∈ t.push (ofTokens ts), _
    generalize ofTokens ts = vs at ih
    rcases t with a | count | keys
    · rintro v hv
      rcases List.mem_cons.mp hv with rfl | hv
      · split_ifs with h
        · exact .atom h
        · exact .atom trivial
      · exact ih v hv
    · rintro v hv
      rcases List.mem_cons.mp hv with rfl | hv
      · exact .arr trivial fun u hu => ih u (List.mem_of_mem_take hu)
      · exact ih v (List.mem_of_mem_drop hv)
    · rintro v hv
      rcases List.mem_cons.mp hv with rfl | hv
      · exact .obj (fun _ _ => trivial) fun m hm => ih m.2 (List.of_mem_zip hm).2
      · exact ih v (List.mem_of_mem_drop hv)

end Json

open Json

/-- The given texts, and codes for the other values. -/
def Yyjson.sample (texts : List (List UInt8 × Json)) : Yyjson where
  read s :=
    match texts.find? (·.1 = s), s with
    | some p, _ => some p.2
    | none, 0 :: code => (Encodable.decode code.length).bind fun ts => (ofTokens ts).head?
    | none, _ => none
  write j := some <|
    match texts.find? (·.2.tokens = j.tokens) with
    | some p => p.1
    | none => 0 :: List.replicate (Encodable.encode j.tokens) 0
  getInt := .ofInt

theorem Yyjson.read_sample {texts : List (List UInt8 × Json)} (hnodup : (texts.map Prod.fst).Nodup)
    {p : List UInt8 × Json} (hp : p ∈ texts) : (sample texts).read p.1 = some p.2 := by
  simp only [sample, find?_key hnodup hp]

theorem Yyjson.sample_faithful {texts : List (List UInt8 × Json)}
    (hnodup : (texts.map Prod.fst).Nodup) (hstart : ∀ p ∈ texts, p.1.head? ≠ some 0)
    (hvalid : ∀ p ∈ texts, p.2.All (Valid AnyString)) : (sample texts).Faithful AnyString where
  read s j hj := by
    simp only [sample] at hj
    split at hj
    · next p hp =>
      obtain rfl : p.2 = j := by simpa using hj
      exact hvalid p (List.mem_of_find?_eq_some hp)
    · next code _ =>
      obtain ⟨ts, -, hts⟩ := Option.bind_eq_some_iff.mp hj
      exact valid_ofTokens ts j (List.mem_of_mem_head? hts)
    · cases hj
  write j hj := by
    refine ⟨_, rfl, ?_⟩
    split
    · next p hp =>
      have htokens : p.2.tokens = j.tokens := by simpa using List.find?_some hp
      have hmem := List.mem_of_find?_eq_some hp
      have hpj : [p.2] = [j] := by
        rw [← ofTokens_tokens (hvalid p hmem), htokens, ofTokens_tokens hj]
      rw [read_sample hnodup hmem, List.singleton_inj.mp hpj]
    · next hnone =>
      have hno : texts.find? (·.1 = 0 :: List.replicate (Encodable.encode j.tokens) 0) = none := by
        refine List.find?_eq_none.mpr fun p hp h => hstart p hp ?_
        rw [of_decide_eq_true h]
        rfl
      simp only [sample, hno]
      simp [Encodable.encodek, ofTokens_tokens hj]
  getInt z hlo hhi := Int64.toInt_ofInt_of_le (by omega) (by omega)
  ascii _ _ := trivial
  cstr _ _ := trivial

end Lite3
