import Lite3.Json.Stored
import Lite3.Layout.Getters

/-! # Typed getters

After keys with distinct hashes have been inserted into a root object, six of
the seven getters return for a value of their type and throw for everything
else. The one for byte strings returns an empty one where it should throw.
-/

namespace Lite3

open Bytes

/-- What is inserted under a key: a scalar, or a new container. -/
inductive Content
  | scalar (v : Scalar)
  | container (isArr : Bool)
  deriving DecidableEq

def Content.type : Content → ValueType
  | scalar v => v.type
  | container isArr => kindOf isArr

namespace Buffer

def insert (b : Buffer) (p : List UInt8 × Content) : Buffer :=
  match p.2 with
  | .scalar v => b.setScalar 0 p.1 v
  | .container isArr => (b.setContainer 0 p.1 isArr).2

/-- A new object with contents inserted at offset zero. -/
def insertAll (ps : List (List UInt8 × Content)) : Buffer :=
  ps.foldl insert Buffer.empty.initObject

end Buffer

/-- The type of what is inserted under a key. -/
def typeUnder (ps : List (List UInt8 × Content)) (key : List UInt8) : Option ValueType :=
  (ps.find? (·.1 = key)).map (·.2.type)

inductive Getter
  | bool | i64 | f64 | str | bytes | obj | arr
  deriving DecidableEq

namespace Getter

def type : Getter → ValueType
  | bool => .bool
  | i64 => .int64
  | f64 => .float64
  | str => .string
  | bytes => .bytes
  | obj => .object
  | arr => .array

/-- Call the getter and leave its value. -/
def call (b : Buffer) (ofs : ℕ) (key : List UInt8) : Getter → Except Fault Unit
  | bool => (b.getBool ofs key).map fun _ => ()
  | i64 => (b.getI64 ofs key).map fun _ => ()
  | f64 => (b.getF64 ofs key).map fun _ => ()
  | str => (b.getStr ofs key).map fun _ => ()
  | bytes => (b.getBytes ofs key).map fun _ => ()
  | obj => (b.getObj ofs key).map fun _ => ()
  | arr => (b.getArr ofs key).map fun _ => ()

end Getter

/-- The call returns if a value of the type is there, and throws otherwise. -/
structure Answers (result : Except Fault Unit) (there : Prop) : Prop where
  returns : result = .ok () ↔ there
  throws : ¬ there → ∃ what, result = .error (.exception what)

namespace Getter

variable {b : Buffer} {ofs : ℕ} {key : List UInt8} {g : Getter} {found : Option (ValueType × ℕ)}

theorem map_expect {β : Type} (found : Option (Option (ValueType × ℕ))) (type : ValueType)
    (missing mismatch : String) (f : ℕ → β) :
    (Buffer.expect found type missing mismatch f).map (fun _ => ()) =
      Buffer.expect found type missing mismatch fun _ => () := by
  rcases found with _ | _ | ⟨t, p⟩
  · rfl
  · rfl
  · unfold Buffer.expect
    dsimp only
    split <;> rfl

theorem answers_expect (found : Option (ValueType × ℕ)) (type : ValueType)
    (missing mismatch : String) :
    Answers (Buffer.expect (some found) type missing mismatch fun _ => ())
      (found.map Prod.fst = some type) := by
  rcases found with _ | ⟨t, p⟩
  · exact ⟨iff_of_false (by simp [Buffer.expect]) (by simp), fun _ => ⟨missing, rfl⟩⟩
  · by_cases h : t = type
    · subst h
      exact ⟨iff_of_true Buffer.expect_found rfl, fun hn => absurd rfl hn⟩
    · have hexpect : Buffer.expect (some (some (t, p))) type missing mismatch (fun _ => ()) =
          .error (.exception mismatch) := if_neg h
      exact ⟨iff_of_false (by simp [hexpect]) (by simpa using h), fun _ => ⟨mismatch, hexpect⟩⟩

theorem answers_call (hg : g ≠ .bytes) (hl : b.lookup ofs key = some found) :
    Answers (g.call b ofs key) (found.map Prod.fst = some g.type) := by
  cases g with
  | bytes => exact absurd rfl hg
  | bool | i64 | f64 | str | obj | arr =>
    simp only [call, Buffer.getBool, Buffer.getI64, Buffer.getF64, Buffer.getStr, Buffer.getObj,
      Buffer.getArr, map_expect, hl]
    exact answers_expect _ _ _ _

theorem call_bytes (hz : (b.getImpl ofs key 0 false).isSome) (hl : b.lookup ofs key = some found) :
    call b ofs key .bytes = .ok () := by
  obtain ⟨r, hr⟩ := Option.isSome_iff_exists.mp hz
  rw [call, Buffer.getBytes, hr, hl]
  rcases found with _ | ⟨t, p⟩
  · rfl
  · cases t <;> rfl

end Getter

variable {ps : List (List UInt8 × Content)} {b : Buffer} {key : List UInt8}

theorem typeUnder_concat (ps : List (List UInt8 × Content)) (p : List UInt8 × Content)
    (key : List UInt8) : typeUnder (ps ++ [p]) key =
      (typeUnder ps key).or (if p.1 = key then some p.2.type else none) := by
  rw [typeUnder, List.find?_append, typeUnder]
  cases ps.find? (·.1 = key) with
  | some q => rfl
  | none => by_cases h : p.1 = key <;> simp [h]

theorem mem_keys_of_typeUnder (h : typeUnder ps key ≠ none) : key ∈ ps.map Prod.fst := by
  obtain ⟨type, htype⟩ := Option.ne_none_iff_exists'.mp h
  obtain ⟨p, hp, -⟩ := Option.map_eq_some_iff.mp htype
  have hkey : p.1 = key := by simpa using List.find?_some hp
  exact hkey ▸ List.mem_map_of_mem (List.mem_of_find?_eq_some hp)

theorem usedSize_le_insert (b : Buffer) (p : List UInt8 × Content) :
    b.usedSize ≤ (b.insert p).usedSize := by
  obtain ⟨key, c⟩ := p
  cases c with
  | scalar v => exact usedSize_le_put b v (.under 0 key)
  | container isArr => exact usedSize_le_container b isArr (.under 0 key)

/-- The root object holds what has been inserted. -/
structure Inserted (ps : List (List UInt8 × Content)) (w : World) (l : Cell) : Prop where
  buf : w.buf = Buffer.insertAll ps
  backed : ∃ cs, w.Backed Whole cs
  mem : l ∈ w.cells
  ofs : l.ofs = 0
  object : l.isArr = false
  types : ∀ key, (l.fields key).map Item.type = typeUnder ps key

theorem Inserted.takes {w : World} {l : Cell} (h : Inserted ps w l) (hk : key.length ≤ 62)
    (hnew : ∀ p ∈ ps, djb2Hash p.1 ≠ djb2Hash key) : Target.Takes l (.under 0 key) := by
  refine ⟨h.ofs, h.object, hk, fun k hf => ?_⟩
  have hstored : typeUnder ps k ≠ none := by
    rw [← h.types]
    simpa using hf
  obtain ⟨p, hp, rfl⟩ := List.mem_map.mp (mem_keys_of_typeUnder hstored)
  exact hnew p hp

theorem Inserted.concat {w : World} {l : Cell} (h : Inserted ps w l) {p : List UInt8 × Content}
    (hk : p.1.length ≤ 62) (hnew : ∀ q ∈ ps, djb2Hash q.1 ≠ djb2Hash p.1)
    (hfin : (Buffer.insertAll (ps ++ [p])).usedSize < 2 ^ 32) :
    ∃ w' l', Inserted (ps ++ [p]) w' l' := by
  have htakes := h.takes hk hnew
  obtain ⟨cs, hw⟩ := h.backed
  have hnone : typeUnder ps p.1 = none := by
    by_contra hne
    obtain ⟨q, hq, heq⟩ := List.mem_map.mp (mem_keys_of_typeUnder hne)
    exact hnew q hq (congrArg djb2Hash heq)
  have htypes : ∀ (it : Item), it.type = p.2.type → ∀ key,
      ((l.put p.1 it).fields key).map Item.type = typeUnder (ps ++ [p]) key := by
    intro it hit key
    rw [typeUnder_concat]
    by_cases heq : p.1 = key
    · subst heq
      rw [Cell.fields_put_self, hnone, if_pos rfl, ← hit]
      rfl
    · rw [Cell.fields_put_of_ne (Ne.symm heq), h.types, if_neg heq, Option.or_none]
  have hall : Buffer.insertAll (ps ++ [p]) = w.buf.insert p := by
    rw [h.buf, Buffer.insertAll, List.foldl_concat]
    rfl
  rw [hall] at hfin
  obtain ⟨key, c⟩ := p
  cases c with
  | scalar v =>
    obtain ⟨w', hbuf, hg, hm⟩ := Target.put_grown hw h.mem htakes v hfin
    exact ⟨w', _, hbuf.symm.trans hall.symm, hg.backed, hm, h.ofs, h.object, htypes (.scalar v) rfl⟩
  | container isArr =>
    obtain ⟨o, w', hop⟩ := Target.container_opened hw h.mem htakes hfin
    have hbuf : w'.buf = w.buf.insert (key, .container isArr) := (congrArg Prod.snd hop.result).symm
    exact ⟨w', _, hbuf.trans hall.symm, hop.grown.backed, hop.filled, h.ofs, h.object,
      htypes (.nested isArr o) rfl⟩

theorem exists_inserted (hshort : ∀ p ∈ ps, p.1.length ≤ 62)
    (hnodup : (ps.map fun p => djb2Hash p.1).Nodup)
    (hfin : (Buffer.insertAll ps).usedSize < 2 ^ 32) : ∃ w l, Inserted ps w l := by
  induction ps using List.reverseRecOn with
  | nil =>
    exact ⟨.start false, .new false 0 [], rfl, ⟨_, World.Backed.start false
      (World.preserved_whole.new _ _ _)⟩, List.mem_singleton_self _, rfl, rfl, fun key => rfl⟩
  | append_singleton ps p ih =>
    have hle := usedSize_le_insert (Buffer.insertAll ps) p
    have hall : Buffer.insertAll (ps ++ [p]) = (Buffer.insertAll ps).insert p :=
      List.foldl_concat ..
    rw [List.map_append, List.nodup_append] at hnodup
    obtain ⟨hps, -, hnew⟩ := hnodup
    obtain ⟨w, l, h⟩ := ih (fun q hq => hshort q (by simp [hq])) hps
      (hle.trans_lt (hall ▸ hfin))
    exact h.concat (hshort p (by simp))
      (fun q hq => hnew _ (List.mem_map_of_mem (f := fun p => djb2Hash p.1) hq) _ (by simp)) hfin

theorem Inserted.lookup {w : World} {l : Cell} (h : Inserted ps w l) (key : List UInt8) :
    ((Buffer.insertAll ps).getImpl 0 key 0 false).isSome ∧
      ∃ found, (Buffer.insertAll ps).lookup 0 key = some found ∧
        found.map Prod.fst = typeUnder ps key := by
  obtain ⟨cs, hw⟩ := h.backed
  obtain ⟨c, R, -, hQ, ho⟩ := hw.container h.mem
  have hc : c.isArr = false := hQ.exact.tracks.kind.trans h.object
  have hzero : w.buf.getImpl _ key 0 _ = _ := Container.getImpl ho (by simp [hc])
  rw [hc, hQ.exact.tracks.ofs, h.ofs] at hzero
  have hfetch := (hw.imp fun _ _ h => h.exact).faithful.1 l h.mem h.object key
  rw [← h.buf, ← h.types]
  rw [h.ofs] at hfetch
  constructor
  · rw [hzero]
    rfl
  · cases hf : l.fields key with
    | none =>
      rw [hf] at hfetch
      exact ⟨none, Buffer.lookup_of_fetch_none hfetch, rfl⟩
    | some it =>
      rw [hf] at hfetch
      obtain ⟨p, hp, -⟩ := hfetch
      exact ⟨some (it.type, p), (Buffer.lookup_of_fetch hp).1, rfl⟩

/-- Getters answer for the key and the type, that of byte strings where one is there. -/
theorem getters_answer_iff (ps : List (List UInt8 × Content)) (hshort : ∀ p ∈ ps, p.1.length ≤ 62)
    (hnodup : (ps.map fun p => djb2Hash p.1).Nodup)
    (hfin : (Buffer.insertAll ps).usedSize < 2 ^ 32) (g : Getter) (key : List UInt8) :
    Answers (g.call (Buffer.insertAll ps) 0 key) (typeUnder ps key = some g.type) ↔
      g ≠ .bytes ∨ typeUnder ps key = some .bytes := by
  obtain ⟨w, l, h⟩ := exists_inserted hshort hnodup hfin
  obtain ⟨hzero, found, hl, hfound⟩ := h.lookup key
  rw [← hfound]
  by_cases hg : g = .bytes
  · subst hg
    have hcall := Getter.call_bytes hzero hl
    rw [hcall]
    constructor
    · intro ha
      exact Or.inr (ha.returns.mp rfl)
    · intro hor
      have hthere := hor.resolve_left (not_not_intro rfl)
      exact ⟨iff_of_true rfl hthere, fun hn => absurd hthere hn⟩
  · exact iff_of_true (Getter.answers_call hg hl) (Or.inl hg)

set_option maxRecDepth 10000 in
theorem getters_answer_iff_mixed :
    Answers (Getter.arr.call (Buffer.insertAll [([97], .scalar (.i64 5)), ([98], .container true)])
      0 [98])
        (typeUnder [([97], .scalar (.i64 5)), ([98], .container true)] [98] = some .array) ↔
      Getter.arr ≠ .bytes ∨
        typeUnder [([97], .scalar (.i64 5)), ([98], .container true)] [98] = some .bytes :=
  getters_answer_iff _ (by decide) (by decide) (by decide +kernel) .arr [98]

set_option maxRecDepth 10000 in
/-- An integer is read as an empty byte string. -/
theorem bytes_of_integer : ¬ ∀ (ps : List (List UInt8 × Content)) (g : Getter) (key : List UInt8),
    (∀ p ∈ ps, p.1.length ≤ 62) → (ps.map fun p => djb2Hash p.1).Nodup →
    (Buffer.insertAll ps).usedSize < 2 ^ 32 →
    Answers (g.call (Buffer.insertAll ps) 0 key) (typeUnder ps key = some g.type) := by
  intro h
  have ha := h [([97], .scalar (.i64 5))] .bytes [97] (by decide) (by decide) (by decide +kernel)
  have hcall : Getter.bytes.call (Buffer.insertAll [([97], .scalar (.i64 5))]) 0 [97] = .ok () := by
    decide +kernel
  exact absurd (ha.returns.mp hcall) (by decide)

end Lite3
