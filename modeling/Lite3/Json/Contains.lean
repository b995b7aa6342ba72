import Lite3.Json.Getters
import Lite3.Store.Proxy

/-! # Membership

`contains` takes a key to be there unless the lookup of its type throws. That
lookup leaves the type of a missing key uninitialised, and never throws.
-/

namespace Lite3

namespace Buffer

/-- `get_type`, where a result that is not initialised happens to be `junk`. -/
def typeOr (b : Buffer) (junk : ValueType) (ofs : ℕ) (key : List UInt8) : Except Fault ValueType :=
  (b.getType ofs key).map fun type => type.getD junk

/-- `Object::contains` -/
def contains (b : Buffer) (junk : ValueType) (ofs : ℕ) (key : List UInt8) : Option Bool :=
  match b.typeOr junk ofs key with
  | .ok _ => some true
  | .error (.exception _) => some false
  | .error .unfinished => none

/-- Assign to a key of the root object, or index a member as a container. -/
def insertVia (b : Buffer) (p : List UInt8 × Content) : Buffer :=
  match Value.root.atKey b p.1, p.2 with
  | (none, b), _ => b
  | (some v, b), .scalar x => v.assign b x
  | (some v, b), .container isArr => (v.currentNode b isArr).2

/-- A new document with contents inserted through its root object. -/
def document (ps : List (List UInt8 × Content)) : Buffer :=
  ps.foldl insertVia Buffer.empty.initObject

variable {b : Buffer} {key : List UInt8} {ps : List (List UInt8 × Content)}

theorem insertVia_eq (b : Buffer) (key : List UInt8) (c : Content) :
    b.insertVia (key, c) =
      match c with
      | .scalar x => (Value.of 0 (.key key)).assign b x
      | .container isArr => ((Value.of 0 (.key key)).currentNode b isArr).2 := by
  have hroot : Value.root.atKey b key = (some (.of 0 (.key key)), b) := rfl
  rw [insertVia, hroot]
  cases c <;> rfl

theorem insertVia_nil (b : Buffer) (c : Content) : b.insertVia ([], c) = b := by
  rw [insertVia_eq]
  cases c <;> rfl

theorem insertVia_scalar (hkey : key ≠ []) (x : Scalar) :
    b.insertVia (key, .scalar x) = b.insert (key, .scalar x) := by
  rw [insertVia_eq]
  exact if_pos hkey

theorem insertVia_container (hkey : key ≠ []) (isArr : Bool) :
    b.insertVia (key, .container isArr) =
      (b.orMake (b.getContainer 0 key isArr) (b.setContainer 0 key isArr)).2 := by
  rw [insertVia_eq]
  exact congrArg Prod.snd ((if_neg (not_not.mpr rfl)).trans (if_pos hkey))

theorem insertVia_eq_insert (hkey : key ≠ []) (hl : b.lookup 0 key = some none) (c : Content) :
    b.insertVia (key, c) = b.insert (key, c) := by
  cases c with
  | scalar x => exact insertVia_scalar hkey x
  | container isArr =>
    rw [insertVia_container hkey, getContainer_eq, hl]
    rfl

theorem usedSize_le_insertVia (b : Buffer) (p : List UInt8 × Content) :
    b.usedSize ≤ (b.insertVia p).usedSize := by
  obtain ⟨key, c⟩ := p
  by_cases hkey : key = []
  · rw [hkey, insertVia_nil]
  · cases c with
    | scalar x =>
      rw [insertVia_scalar hkey]
      exact usedSize_le_insert b _
    | container isArr =>
      rw [insertVia_container hkey]
      rcases b.getContainer 0 key isArr with (what | _) | o
      · exact usedSize_le_insert b (key, .container isArr)
      · exact le_rfl
      · exact le_rfl

end Buffer

variable {ps : List (List UInt8 × Content)} {key : List UInt8}

/-- The contents that an insertion through the root object stores. -/
def keyed (ps : List (List UInt8 × Content)) : List (List UInt8 × Content) :=
  ps.filter fun p => p.1 ≠ []

/-- The document holds what has been inserted under keys that are not empty. -/
theorem document_eq (hshort : ∀ p ∈ ps, p.1.length ≤ 62)
    (hnodup : (ps.map fun p => djb2Hash p.1).Nodup)
    (hfin : (Buffer.document ps).usedSize < 2 ^ 32) :
    Buffer.document ps = Buffer.insertAll (keyed ps) := by
  induction ps using List.reverseRecOn with
  | nil => rfl
  | append_singleton ps p ih =>
    obtain ⟨key, c⟩ := p
    have hdoc : Buffer.document (ps ++ [(key, c)]) = (Buffer.document ps).insertVia (key, c) :=
      List.foldl_concat ..
    rw [hdoc] at hfin ⊢
    rw [List.map_append, List.nodup_append] at hnodup
    obtain ⟨hps, -, hnew⟩ := hnodup
    have hfin' := (Buffer.usedSize_le_insertVia _ _).trans_lt hfin
    have hshort' : ∀ q ∈ ps, q.1.length ≤ 62 := fun q hq => hshort q (by simp [hq])
    have heq := ih hshort' hps hfin'
    by_cases hkey : key = []
    · rw [hkey, Buffer.insertVia_nil, heq]
      simp [keyed]
    · have hsub := (List.filter_sublist (p := fun p : List UInt8 × Content => p.1 ≠ []) (l := ps))
      obtain ⟨w, l, h⟩ : ∃ w l, Inserted (keyed ps) w l :=
        exists_inserted (fun q hq => hshort' q (hsub.subset hq)) (hps.sublist (hsub.map _))
          (heq ▸ hfin')
      obtain ⟨-, found, hl, hfound⟩ := h.lookup key
      have hnone : typeUnder (keyed ps) key = none := by
        by_contra hne
        obtain ⟨q, hq, hqk⟩ := List.mem_map.mp (mem_keys_of_typeUnder hne)
        exact hnew (djb2Hash q.1)
          (List.mem_map_of_mem (f := fun p => djb2Hash p.1) (hsub.subset hq))
          (djb2Hash key) (by simp) (congrArg djb2Hash hqk)
      obtain rfl : found = none := by simpa [hnone] using hfound
      rw [heq, Buffer.insertVia_eq_insert hkey hl]
      have hfilter : keyed (ps ++ [(key, c)]) = keyed ps ++ [(key, c)] := by simp [keyed, hkey]
      rw [hfilter]
      exact (List.foldl_concat ..).symm

theorem getType_document (hshort : ∀ p ∈ ps, p.1.length ≤ 62)
    (hnodup : (ps.map fun p => djb2Hash p.1).Nodup)
    (hfin : (Buffer.document ps).usedSize < 2 ^ 32) (key : List UInt8) :
    (Buffer.document ps).getType 0 key = .ok (typeUnder (keyed ps) key) := by
  have hsub := (List.filter_sublist (p := fun p : List UInt8 × Content => p.1 ≠ []) (l := ps))
  have heq := document_eq hshort hnodup hfin
  rw [heq] at hfin ⊢
  obtain ⟨w, l, h⟩ : ∃ w l, Inserted (keyed ps) w l :=
    exists_inserted (fun q hq => hshort q (hsub.subset hq)) (hnodup.sublist (hsub.map _)) hfin
  obtain ⟨-, found, hl, hfound⟩ := h.lookup key
  rw [Buffer.getType, hl, ← hfound]

/-- The answer is whether the key is there, whatever a type that is not initialised happens to
be. -/
def Decides (b : Buffer) (ofs : ℕ) (key : List UInt8) (there : Prop) : Prop :=
  (∀ junk, b.contains junk ofs key = some true ↔ there) ∧
    ∀ junk junk', b.contains junk ofs key = b.contains junk' ofs key

/-- Membership is decided for the keys that were inserted, and for no others. -/
theorem contains_iff (ps : List (List UInt8 × Content)) (hshort : ∀ p ∈ ps, p.1.length ≤ 62)
    (hnodup : (ps.map fun p => djb2Hash p.1).Nodup)
    (hfin : (Buffer.document ps).usedSize < 2 ^ 32) (key : List UInt8) :
    Decides (Buffer.document ps) 0 key (key ∈ ps.map Prod.fst) ↔ key ∈ ps.map Prod.fst := by
  have hcontains : ∀ junk, (Buffer.document ps).contains junk 0 key = some true := by
    intro junk
    rw [Buffer.contains, Buffer.typeOr, getType_document hshort hnodup hfin]
    rfl
  constructor
  · rintro ⟨hthere, -⟩
    exact (hthere .null).mp (hcontains .null)
  · intro hkey
    exact ⟨fun junk => iff_of_true (hcontains junk) hkey,
      fun junk junk' => (hcontains junk).trans (hcontains junk').symm⟩

/-- A number and an array -/
def twoContents : List (List UInt8 × Content) := [([97], .scalar (.i64 5)), ([98], .container true)]

set_option maxRecDepth 10000 in
theorem contains_iff_array :
    Decides (Buffer.document twoContents) 0 [98] ([98] ∈ twoContents.map Prod.fst) ↔
      [98] ∈ twoContents.map Prod.fst :=
  contains_iff twoContents (by decide) (by decide) (by decide +kernel) [98]

/-- An empty document contains every key. -/
theorem contains_absent : ¬ ∀ (ps : List (List UInt8 × Content)) (key : List UInt8),
    (∀ p ∈ ps, p.1.length ≤ 62) → (ps.map fun p => djb2Hash p.1).Nodup →
    (Buffer.document ps).usedSize < 2 ^ 32 →
    Decides (Buffer.document ps) 0 key (key ∈ ps.map Prod.fst) := by
  intro h
  obtain ⟨hthere, -⟩ := h [] [97] (by simp) (by simp) (by decide +kernel)
  have hcontains : (Buffer.document []).contains .null 0 [97] = some true := by decide +kernel
  exact absurd ((hthere .null).mp hcontains) (by simp)

end Lite3
