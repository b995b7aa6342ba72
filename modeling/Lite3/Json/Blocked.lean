import Lite3.Json.Rooted

/-! # Documents that are not printed

The elements of a small array under a key are looked up one byte early, where
none is found, and all getters but that for nulls throw. So a document with small
arrays comes back as a text exactly if they hold nulls only.
-/

namespace Lite3

open Bytes Config Lite3.Tree

/-- Arrays have six elements at most. -/
def Json.Short : Json → Prop
  | .arr items => items.length ≤ 6
  | _ => True

instance : DecidablePred Json.Short
  | .arr items => inferInstanceAs (Decidable (items.length ≤ 6))
  | .atom _ | .obj _ => inferInstanceAs (Decidable True)

theorem mapM_eq_error {α β : Type} {f : α → Except Fault β} {xs : List α} {x : α} (hx : x ∈ xs)
    (h : ∃ e, f x = .error e) : ∃ e, xs.mapM f = .error e := by
  induction xs with
  | nil => cases hx
  | cons y ys ih =>
    rw [List.mapM_cons]
    cases hy : f y with
    | error e => exact ⟨e, rfl⟩
    | ok v =>
      rcases List.mem_cons.mp hx with rfl | hx
      · obtain ⟨e, he⟩ := h
        cases he.symm.trans hy
      · obtain ⟨e, he⟩ := ih hx
        exact ⟨e, by rw [he]; rfl⟩

theorem Iterator.Heads.members_error {b : Buffer} {it : Iterator} {ι : Type} {xs : List ι}
    {g : ι → IterValue} (hp : it.Heads b.mem b.data.length (xs.map g)) (hd : b.data ≠ [])
    {value : ℕ → Except Fault Json} {x : ι} (hx : x ∈ xs)
    (hval : ∃ f, value (g x).valueOffset = .error f) (n : ℕ) :
    ∃ f, b.members value n it = .error f := by
  induction n generalizing it xs with
  | zero => exact ⟨_, rfl⟩
  | succ n ih =>
    cases xs with
    | nil => cases hx
    | cons y ys =>
      obtain ⟨hb, hcur, hgen, hlen, hrest⟩ := hp
      have hequals : it.equals b .atEnd = false := by
        rw [Iterator.equals, if_neg (by simp [hb]),
          if_pos (Or.inr (show Iterator.atEnd.hasBuffer = false from rfl))]
      have hderef : it.deref b = .ok (some (g y)) := by
        rw [Iterator.deref, if_neg (by simp [hb, hd]), if_neg (by simp [hgen]), hcur]
      have hnext : Heads b.mem b.data.length (it.next b) _ :=
        heads_findNext hb (show b.data.length ≠ 0 by simpa using hd) hgen hlen
      rw [hrest] at hnext
      rw [Buffer.members, hequals, if_neg (by simp), hderef]
      dsimp only
      cases hy : value (g y).valueOffset with
      | error f => exact ⟨f, rfl⟩
      | ok j =>
        rcases List.mem_cons.mp hx with rfl | hx
        · obtain ⟨f, hf⟩ := hval
          cases hf.symm.trans hy
        · obtain ⟨f, hf⟩ := ih hnext hx
          exact ⟨f, by rw [hf]; rfl⟩

namespace Container

variable {b : Buffer} {c d : Container} {R : List Chunk} {cs : List Container} {e : Entry}
  {it : Item} {value : ℕ → Except Fault Json} {p n : ℕ}

theorem Small.element (hs : c.Small) (ho : b.Owns (c.chunks ++ R)) (hc : c.isArr = true)
    (hofs : c.ofs = p + 1) (he : e ∈ c.entries) (hh : e.Holds true it) (hne : e.type ≠ .null) :
    ∃ f, b.element value p e.hash = .error f := by
  have htype : b.arrGetType (p + 1) e.hash = .ok it.type := by
    rw [← hofs, arrGetType_eq ho hc, hs.find hc he, ← hh.type]
    rfl
  have hmiss := arrGetImpl_early hs.slack ho hofs e.hash
  rw [hh.type] at hne
  rw [Buffer.element, htype]
  rcases it with v | ⟨isArr, o⟩
  · cases v with
    | null => exact absurd rfl hne
    | bool => exact ⟨_, by simp only [Item.type, Scalar.type, Buffer.arrGetBool, hmiss]; rfl⟩
    | i64 => exact ⟨_, by simp only [Item.type, Scalar.type, Buffer.arrGetI64, hmiss]; rfl⟩
    | f64 => exact ⟨_, by simp only [Item.type, Scalar.type, Buffer.arrGetF64, hmiss]; rfl⟩
    | str => exact ⟨_, by simp only [Item.type, Scalar.type, Buffer.arrGetStr, hmiss]; rfl⟩
    | bytes => exact ⟨_, by simp only [Item.type, Scalar.type, Buffer.arrGetBytes, hmiss]; rfl⟩
  · cases isArr with
    | true => exact ⟨_, by simp only [Item.type, kindOf, if_true, Buffer.arrGetArr, hmiss]; rfl⟩
    | false =>
      refine ⟨.exception "Type mismatch", ?_⟩
      simp only [Item.type, kindOf, Bool.false_eq_true, if_false, Buffer.arrGetObj, hmiss]
      rfl

/-- The loop over a small array fails at an element other than null. -/
theorem Small.elements (hs : c.Small) (ho : b.Owns (c.chunks ++ R)) (hc : c.isArr = true)
    (hofs : c.ofs = p + 1) (he : e ∈ c.entries) (hh : e.Holds true it) (hne : e.type ≠ .null) :
    ∃ f, b.elements (b.element value p) (p + 1) = .error f := by
  have hsize : NodeView.size b.mem (p + 1) = c.size := hofs ▸ size_eq ho
  rw [Buffer.elements, hsize]
  refine mapM_eq_error (x := e.hash.toNat) ?_ ?_
  · exact List.mem_range.mpr (UInt32.lt_iff_toNat_lt.mp (hs.below e he))
  · rw [UInt32.ofNat_toNat]
    exact hs.element ho hc hofs he hh hne

theorem members_error (ho : b.Owns (c.chunks ++ R)) (hc : c.isArr = false)
    (hh : c.height ≤ treeHeightMax) (he : e ∈ c.entries)
    (hval : ∃ f, value (e.valueOfs false) = .error f)
    (n : ℕ) : ∃ f, b.members value n (b.begin c.ofs) = .error f := by
  have hd := data_ne_nil ho
  have hheads := Iterator.heads_begin (m := b.mem) (show b.data.length ≠ 0 by simpa using hd) c.ofs
  rw [← Iterator.begin_eq_beginAt, shown_top ho hc, BTree.top_eq_inorder hh] at hheads
  exact hheads.members_error hd he hval n

end Container

namespace Forest

variable {valid : List UInt8 → Prop} {b : Buffer} {cs : List Container} {c : Container}

/-- A container with such an array is not printed from any type tag. -/
theorem toYyjsonVal_error (hf : Forest valid b cs) (h : c.Blocked cs) (hc : c ∈ cs) {p : ℕ}
    (ht : TagAt b p (.nested c.isArr c.ofs)) (n : ℕ) : ∃ f, b.toYyjsonVal n p = .error f := by
  induction h generalizing p n with
  | @arr c e hca hs he hne =>
    cases n with
    | zero => exact ⟨_, rfl⟩
    | succ n =>
      obtain ⟨R, ho⟩ := hf.exists_owns hc
      obtain ⟨-, -, it, hh, -⟩ := hf.rests c hc e he
      rw [hca] at hh ht
      have helements : ∃ f, b.elements (b.element (b.toYyjsonVal n) p) (p + 1) = .error f :=
        hs.elements ho hca (ht.ofs _ _ rfl).symm he hh hne
      obtain ⟨f, hf⟩ := helements
      refine ⟨f, ?_⟩
      rw [Buffer.toYyjsonVal, ht.type]
      simp only [Item.type, kindOf, if_true, hf]
      rfl
  | @obj c d e hca hn he hh hlt hd hb ih =>
    cases n with
    | zero => exact ⟨_, rfl⟩
    | succ n =>
      obtain ⟨R, ho⟩ := hf.exists_owns hc
      rw [hca] at ht
      obtain ⟨hheld, hread⟩ := (Container.seen ho).entry he
      rw [hca] at hheld hread
      have hval := ih hd (hh.tagAt hheld hread) n
      have hheight := Container.height_le_max (hf.rooted c hc) hn
      obtain ⟨f, hf⟩ := Container.members_error ho hca hheight he hval b.levels
      refine ⟨f, ?_⟩
      rw [ht.object n, hf]
      rfl

end Forest

namespace Json

variable {v : Json}

theorem Keyed.storable (h : v.Keyed) : v.Storable := by
  cases v with
  | atom => trivial
  | arr items => exact .inl h
  | obj members => exact h.1

theorem blocked_of_short (hshort : v.All Short) (hkeyed : v.All Keyed) (hcount : v.All Counted)
    (h : ¬ v.All Nulls) : v.Blocked := by
  induction v with
  | atom a => exact absurd (.atom trivial) h
  | arr items =>
    by_contra hno
    have hnull : ∀ v ∈ items, v.IsNull := by
      intro v hv
      by_contra hne
      exact hno (.arr hshort.self hv hne)
    refine h (.arr hnull fun v hv => ?_)
    rw [(hnull v hv).eq]
    exact .atom trivial
  | obj members ih =>
    obtain ⟨m, hm, hne⟩ : ∃ m ∈ members, ¬ m.2.All Nulls := by
      by_contra hno
      exact h (.obj trivial fun m hm => by_contra fun hne => hno ⟨m, hm, hne⟩)
    have hblocked := ih m hm ((all_obj.mp hshort).2 m hm) ((all_obj.mp hkeyed).2 m hm)
      ((all_obj.mp hcount).2 m hm) hne
    obtain ⟨-, hnodup⟩ := hkeyed.self
    have hlen := hcount.self
    obtain ⟨before, after, rfl⟩ := List.append_of_mem hm
    rw [List.map_append, List.map_cons] at hnodup
    have hnew := (List.nodup_cons.mp hnodup.of_append_right).1
    refine .obj hlen (fun n hn heq => hnew ?_) hblocked
    exact List.mem_map.mpr ⟨n, hn, congrArg djb2Hash heq⟩

end Json

section

variable {y : Yyjson} {valid : List UInt8 → Prop} {text : List UInt8}
  {members : List (List UInt8 × Json)}

theorem printing_fails (hy : y.Faithful valid) (hread : y.read text = some (.obj members))
    (hstorable : (Json.obj members).All Json.Storable)
    (hroom : (Json.obj members).Roomy [0] ((Json.obj members).filings y (.here 0) .empty))
    (hblocked : (Json.obj members).Blocked) (hfits : TextFits y text) :
    ∃ b f, fromJsonString y text = .ok (true, b) ∧ toJsonString y b 0 = .error f := by
  have hfrom : fromJsonString y text = .ok (fromYyjsonVal y (.obj members) .empty 0) := by
    rw [fromJsonString, hread]
  have htag : (Json.obj members).tag y = kindOf false := rfl
  obtain ⟨b, cs, c, hstore, hf, hc, hofs, hkind, hcb, -⟩ :=
    root_fills hy htag id hstorable (hy.read _ _ hread) hroom (hfits _ _ hfrom)
  obtain ⟨R, ho⟩ := hf.exists_owns hc
  have hroot : ∃ f, b.rootVal 0 = .error f := by
    cases hcb hblocked with
    | arr hca => simp [hca] at hkind
    | @obj _ d e hca hn he hh hlt hd hdb =>
      obtain ⟨hheld, hread⟩ := (Container.seen ho).entry he
      rw [hca] at hheld hread
      have hval := hf.toYyjsonVal_error hdb hd (hh.tagAt hheld hread) b.levels
      obtain ⟨f, hf⟩ := Container.members_error ho hca (Container.height_le_max (hf.rooted c hc) hn)
        he hval b.levels
      obtain ⟨hsize, htype⟩ := Container.type_root ho hofs
      rw [hofs] at hf
      refine ⟨f, ?_⟩
      rw [Buffer.rootVal, if_pos ⟨rfl, hsize⟩, htype, hca]
      simp only [kindOf, Bool.false_eq_true, if_false, hf]
      rfl
  obtain ⟨f, hroot⟩ := hroot
  refine ⟨b, f, hfrom.trans (congrArg _ hstore), ?_⟩
  rw [toJsonString, hroot]
  rfl

theorem not_represented_of_error {b : Buffer} {f : Fault}
    (hok : fromJsonString y text = .ok (true, b))
    (herr : toJsonString y b 0 = .error f) : ¬ Represented y text := by
  rintro (⟨f', hf'⟩ | ⟨b', out, root, j, hok', -, hout, -⟩)
  · cases hok.symm.trans hf'
  · obtain rfl : b = b' := (Prod.mk.inj (Except.ok.inj (hok.symm.trans hok'))).2
    cases herr.symm.trans hout

/-- With small arrays an object is represented exactly if they hold nulls only, and no text comes
back otherwise. -/
theorem represented_iff_nulls (hy : y.Faithful valid) (hread : y.read text = some (.obj members))
    (hkeyed : (Json.obj members).All Json.Keyed) (hcount : (Json.obj members).All Json.Counted)
    (hshort : (Json.obj members).All Json.Short) (hfits : TextFits y text) :
    (Represented y text ↔ (Json.obj members).All Json.Nulls) ∧
      (¬ (Json.obj members).All Json.Nulls → ∃ b f, fromJsonString y text = .ok (true, b) ∧
        toJsonString y b 0 = .error f) := by
  have hstorable : (Json.obj members).All Json.Storable := hkeyed.imp fun _ => Json.Keyed.storable
  have hfails : ¬ (Json.obj members).All Json.Nulls → ∃ b f, fromJsonString y text = .ok (true, b) ∧
      toJsonString y b 0 = .error f := fun hno =>
    printing_fails hy hread hstorable (.inl hkeyed) (Json.blocked_of_short hshort hkeyed hcount hno)
      hfits
  refine ⟨⟨fun h => by_contra fun hno => ?_, fun h => ?_⟩, hfails⟩
  · obtain ⟨b, f, hok, herr⟩ := hfails hno
    exact not_represented_of_error hok herr h
  · exact represented_obj hy hread hstorable (.inl hkeyed) (.inl h) hfits

end

/-- `{"a":[true]}` -/
def blockedText : List UInt8 := [123, 34, 97, 34, 58, 91, 116, 114, 117, 101, 93, 125]

def blockedMembers : List (List UInt8 × Json) := [([97], .arr [.atom (.bool true)])]

theorem represented_iff_nulls_true :
    (Represented (.sample [(blockedText, .obj blockedMembers)]) blockedText ↔
      (Json.obj blockedMembers).All Json.Nulls) ∧
      (¬ (Json.obj blockedMembers).All Json.Nulls →
        ∃ b f, fromJsonString (.sample [(blockedText, .obj blockedMembers)]) blockedText =
          .ok (true, b) ∧
          toJsonString (.sample [(blockedText, .obj blockedMembers)]) b 0 = .error f) := by
  have hread : (Yyjson.sample [(blockedText, .obj blockedMembers)]).read blockedText =
      some (.obj blockedMembers) := rfl
  exact represented_iff_nulls (Yyjson.sample_faithful (by decide) (by decide) (by decide)) hread
    (by decide) (by decide) (by decide) (textFits hread (by decide +kernel))

end Lite3
