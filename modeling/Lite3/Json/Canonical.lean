import Lite3.Json.Integers
import Lite3.Json.Offsets
import Lite3.Json.Strings
import Lite3.Ordered.SortOn

/-! # The text of a document

What is printed of a document has the members of its objects in the order of
their hashes. So it does not depend on the order in which they came, and what
has been printed once is printed in the same way again.
-/

namespace Lite3

open Bytes Config Ordered Lite3.Tree

namespace Json

/-- The hash of the key of a member -/
def keyHash (m : List UInt8 × Json) : UInt32 := djb2Hash m.1

mutual

/-- Put the members of objects in the order of their hashes. -/
def arrange : Json → Json
  | .atom a => .atom a
  | .arr items => .arr (arrangeItems items)
  | .obj members => .obj (sortOn keyHash (arrangeMembers members))

def arrangeItems : List Json → List Json
  | [] => []
  | v :: vs => v.arrange :: arrangeItems vs

def arrangeMembers : List (List UInt8 × Json) → List (List UInt8 × Json)
  | [] => []
  | (k, v) :: ms => (k, v.arrange) :: arrangeMembers ms

end

variable {v v' : Json} {items : List Json} {members : List (List UInt8 × Json)} {y : Yyjson}
  {f : Atom → Atom} {g : List UInt8 → List UInt8}

@[simp] theorem arrange_atom (a : Atom) : (Json.atom a).arrange = .atom a := by rw [arrange]

@[simp] theorem arrange_arr (items : List Json) :
    (arr items).arrange = .arr (items.map arrange) := by
  rw [arrange]
  congr 1
  induction items with
  | nil => rfl
  | cons v vs ih => rw [arrangeItems, ih, List.map_cons]

@[simp] theorem arrange_obj (members : List (List UInt8 × Json)) : (obj members).arrange =
    .obj (sortOn keyHash (members.map fun m => (m.1, m.2.arrange))) := by
  rw [arrange]
  congr 2
  induction members with
  | nil => rfl
  | cons m ms ih => rw [arrangeMembers, ih, List.map_cons]

@[simp] theorem arrange_arrange (v : Json) : v.arrange.arrange = v.arrange := by
  induction v with
  | atom a => simp
  | arr items ih =>
    simp only [arrange_arr, List.map_map]
    congr 1
    exact List.map_congr_left fun v hv => ih v hv
  | obj members ih =>
    simp only [arrange_obj]
    rw [map_sortOn keyHash, List.map_map, sortOn_sortOn]
    · congr 2
      exact List.map_congr_left fun m hm => Prod.ext rfl (ih m hm)
    · exact fun _ _ => rfl

theorem map_arrange (hg : v.All fun v => ∀ ms, v = .obj ms → ∀ m ∈ ms, g m.1 = m.1) :
    v.arrange.map f g = (v.map f g).arrange := by
  induction v with
  | atom a => simp
  | arr items ih =>
    simp only [arrange_arr, map_arr, List.map_map]
    congr 1
    exact List.map_congr_left fun v hv => ih v hv ((all_arr.mp hg).2 v hv)
  | obj members ih =>
    obtain ⟨hkeys, hall⟩ := all_obj.mp hg
    simp only [arrange_obj, map_obj, List.map_map]
    rw [map_sortOn keyHash, List.map_map]
    · congr 2
      exact List.map_congr_left fun m hm => Prod.ext rfl (ih m hm (hall m hm))
    · intro m hm
      obtain ⟨u, hu, rfl⟩ := List.mem_map.mp hm
      exact congrArg djb2Hash (hkeys members rfl u hu)

theorem Same.all {P : Json → Prop} (h : v.Same v') (hP : ∀ {v v'}, Same v v' → P v → P v')
    (hv : v.All P) : v'.All P := by
  induction h with
  | atom a => exact hv
  | @arr xs ys hlen hsame ih =>
    obtain ⟨hself, hall⟩ := all_arr.mp hv
    refine .arr (hP (.arr hlen hsame) hself) fun u hu => ?_
    obtain ⟨i, hi, rfl⟩ := List.mem_iff_getElem.mp hu
    exact ih _ (getElem_mem_zip (hlen ▸ hi) hi) (hall _ (List.getElem_mem _))
  | @obj xs xs' ys hperm hkeys hsame ih =>
    obtain ⟨hself, hall⟩ := all_obj.mp hv
    have hlen : xs'.length = ys.length := by simpa using congrArg List.length hkeys
    refine .obj (hP (.obj hperm hkeys hsame) hself) fun m hm => ?_
    obtain ⟨i, hi, rfl⟩ := List.mem_iff_getElem.mp hm
    exact ih _ (getElem_mem_zip (hlen ▸ hi) hi) (hall _ (hperm.mem_iff.mpr (List.getElem_mem _)))

theorem Same.keyed (h : v.Same v') (hv : v.Keyed) : v'.Keyed := by
  cases h with
  | atom a => exact hv
  | @arr xs ys hlen =>
    have hlt : xs.length < 2 ^ 26 := hv
    rwa [hlen] at hlt
  | @obj xs xs' ys hperm hkeys =>
    obtain ⟨hshort, hnodup⟩ := hv
    have hperm : (xs.map Prod.fst).Perm (ys.map Prod.fst) := hkeys ▸ hperm.map Prod.fst
    constructor
    · intro m hm
      obtain ⟨u, hu, hk⟩ := List.mem_map.mp (hperm.mem_iff.mpr (List.mem_map_of_mem hm))
      exact hk ▸ hshort u hu
    · have hhash := hperm.map fun k => djb2Hash (cstr k)
      rw [List.map_map, List.map_map] at hhash
      exact hhash.nodup_iff.mp hnodup

theorem Same.counted (h : v.Same v') (hv : v.Counted) : v'.Counted := by
  cases h with
  | atom a => exact hv
  | arr => trivial
  | @obj xs xs' ys hperm hkeys =>
    have hlen : xs'.length = ys.length := by simpa using congrArg List.length hkeys
    have hcount : xs.length < 2097151 := hv
    rwa [hperm.length_eq, hlen] at hcount

theorem Same.nulls (h : v.Same v') (hv : v.Nulls) : v'.Nulls := by
  cases h with
  | atom a => exact hv
  | obj => trivial
  | @arr xs ys hlen hsame =>
    intro u hu
    obtain ⟨i, hi, rfl⟩ := List.mem_iff_getElem.mp hu
    have h := hsame _ (getElem_mem_zip (hlen ▸ hi) hi)
    have hnull : xs[i] = .atom .null := (hv xs[i] (List.getElem_mem _)).eq
    generalize ys[i] = z at h
    rw [show (xs[i], z).1 = xs[i] from rfl, hnull] at h
    cases h
    trivial

theorem same_arrange (v : Json) : v.Same v.arrange := by
  induction v with
  | atom a => rw [arrange_atom]; exact .atom a
  | arr items ih =>
    rw [arrange_arr]
    refine .arr (List.length_map _).symm fun p hp => ?_
    rw [List.zip_map_right, List.mem_map] at hp
    obtain ⟨q, hq, rfl⟩ := hp
    obtain ⟨i, hi, rfl⟩ := List.mem_iff_getElem.mp hq
    simp only [List.getElem_zip, Prod.map]
    exact ih _ (List.getElem_mem _)
  | obj members ih =>
    have hsort : sortOn keyHash (members.map fun m => (m.1, m.2.arrange)) =
        (sortOn keyHash members).map fun m => (m.1, m.2.arrange) :=
      (map_sortOn keyHash _ fun _ _ => rfl).symm
    rw [arrange_obj, hsort]
    refine .obj (sortOn_perm keyHash members).symm ?_ fun p hp => ?_
    · rw [List.map_map]
      rfl
    · rw [List.zip_map_right, List.mem_map] at hp
      obtain ⟨q, hq, rfl⟩ := hp
      obtain ⟨i, hi, rfl⟩ := List.mem_iff_getElem.mp hq
      simp only [List.getElem_zip, Prod.map]
      exact ih _ (mem_sortOn.mp (List.getElem_mem _))

theorem All.of_forall {P : Json → Prop} (h : ∀ v, P v) (v : Json) : v.All P := by
  induction v with
  | atom a => exact .atom (h _)
  | arr items ih => exact .arr (h _) ih
  | obj members ih => exact .obj (h _) ih

theorem arrange_printed_obj (y : Yyjson) (members : List (List UInt8 × Json)) :
    ((obj members).printed y).arrange =
      .obj (sortOn keyHash (members.map fun m => (cstr m.1, (m.2.printed y).arrange))) := by
  rw [printed, map_obj, arrange_obj, List.map_map]
  rfl

theorem Same.arrange (h : v.Same v') (hkeyed : v.All Keyed) :
    (v.printed y).arrange = (v'.printed y).arrange := by
  induction h with
  | atom a => rfl
  | @arr xs ys hlen _ ih =>
    obtain ⟨-, hall⟩ := all_arr.mp hkeyed
    simp only [printed, map_arr, arrange_arr, List.map_map]
    congr 1
    refine List.ext_getElem (by simpa using hlen) fun i hi hi' => ?_
    rw [List.length_map] at hi hi'
    simp only [List.getElem_map]
    exact ih _ (getElem_mem_zip hi hi') (hall _ (List.getElem_mem _))
  | @obj xs xs' ys hperm hkeys _ ih =>
    obtain ⟨⟨-, hnodup⟩, hall⟩ := all_obj.mp hkeyed
    have hlen : xs'.length = ys.length := by simpa using congrArg List.length hkeys
    have hys : (ys.map fun m => (cstr m.1, (m.2.printed y).arrange)) =
        xs'.map fun m => (cstr m.1, (m.2.printed y).arrange) := by
      refine List.ext_getElem (by simpa using hlen.symm) fun i hi hi' => ?_
      rw [List.length_map] at hi hi'
      have hk : (xs'.map Prod.fst)[i]? = (ys.map Prod.fst)[i]? := by rw [hkeys]
      rw [List.getElem?_map, List.getElem?_map, List.getElem?_eq_getElem hi,
        List.getElem?_eq_getElem hi'] at hk
      have hv := ih _ (getElem_mem_zip hi' hi) (hall _ (hperm.mem_iff.mpr (List.getElem_mem _)))
      rw [List.getElem_map, List.getElem_map]
      exact Prod.ext (congrArg cstr (Option.some_inj.mp hk).symm) hv.symm
    rw [arrange_printed_obj, arrange_printed_obj, hys]
    congr 1
    apply (sortOn_congr _ (hperm.symm.map _)).symm
    rw [List.map_map]
    exact hnodup

theorem Same.eq_nulls (h : (Json.arr items).Same v) (hnull : (Json.arr items).Nulls) :
    v = Json.arr items := by
  have hv := h.nulls hnull
  cases h with
  | @arr _ ys hlen =>
    congr 1
    refine List.ext_getElem hlen.symm fun i hi hi' => ?_
    have h₁ : ys[i].IsNull := hv _ (List.getElem_mem hi)
    have h₂ : items[i].IsNull := hnull _ (List.getElem_mem hi')
    rw [h₁.eq, h₂.eq]

theorem printed_nulls (hnull : (arr items).Nulls) : (arr items).printed y = .arr items := by
  rw [printed, map_arr]
  congr 1
  refine (List.map_congr_left fun v hv => ?_).trans (List.map_id _)
  have h : v.IsNull := hnull v hv
  rw [h.eq, map_atom]
  rfl

theorem scalar_atom_idem (hint : ∀ z, (y.getInt z).toInt = z.bmod (2 ^ 32)) (a : Atom) :
    ((a.scalar y).atom.scalar y).atom = (a.scalar y).atom := by
  cases a with
  | null | bool | real => rfl
  | int z =>
    refine congrArg Atom.int ?_
    rw [hint, hint, Int.bmod_bmod]
  | str s =>
    cases hdec : hexDecode (cstr s) with
    | ok bytes =>
      simp [Atom.scalar, hdec, Scalar.atom, cstr_eq_self zero_notMem_hexText, hexDecode_hexText]
    | error msg => simp [Atom.scalar, hdec, Scalar.atom]

theorem printed_printed (hint : ∀ z, (y.getInt z).toInt = z.bmod (2 ^ 32)) (v : Json) :
    (v.printed y).printed y = v.printed y := by
  apply map_eq_self
  · refine All.map (.of_forall (fun u a hu => ?_) v)
    cases u with
    | atom b =>
      rw [map_atom] at hu
      cases hu
      exact scalar_atom_idem hint b
    | arr | obj => simp at hu
  · refine All.map (.of_forall (fun u ms hu m hm => ?_) v)
    cases u with
    | obj us =>
      rw [map_obj] at hu
      cases hu
      obtain ⟨k, -, rfl⟩ := List.mem_map.mp hm
      exact cstr_cstr _
    | atom | arr => simp at hu

/-- A document that has been printed is printed in the same way again. -/
theorem arrange_printed_idem (hint : ∀ z, (y.getInt z).toInt = z.bmod (2 ^ 32)) (v : Json) :
    ((v.printed y).arrange.printed y).arrange = (v.printed y).arrange := by
  have hkeys : (v.printed y).All fun u => ∀ ms, u = .obj ms → ∀ m ∈ ms, cstr m.1 = m.1 := by
    refine All.map (.of_forall (fun u ms hu m hm => ?_) v)
    cases u with
    | obj us =>
      rw [map_obj] at hu
      cases hu
      obtain ⟨k, -, rfl⟩ := List.mem_map.mp hm
      exact cstr_cstr _
    | atom | arr => simp at hu
  rw [printed, map_arrange hkeys, arrange_arrange]
  exact congrArg arrange (printed_printed hint v)

theorem Keyed.printed (h : v.Keyed) : (v.printed y).Keyed := by
  cases v with
  | atom a => rw [Json.printed, map_atom]; trivial
  | arr items =>
    rw [Json.printed, map_arr]
    have hlt : items.length < 2 ^ 26 := h
    simpa [Keyed] using hlt
  | obj members =>
    obtain ⟨hshort, hnodup⟩ := h
    rw [Json.printed, map_obj]
    constructor
    · intro m hm
      obtain ⟨u, hu, rfl⟩ := List.mem_map.mp hm
      rw [cstr_cstr]
      exact hshort u hu
    · simpa [Function.comp_def] using hnodup

theorem Counted.printed (h : v.Counted) : (v.printed y).Counted := by
  cases v with
  | atom a => rw [Json.printed, map_atom]; trivial
  | arr items => rw [Json.printed, map_arr]; trivial
  | obj members =>
    rw [Json.printed, map_obj]
    have hlt : members.length < 2097151 := h
    simpa [Counted] using hlt

theorem Nulls.printed (h : v.Nulls) : (v.printed y).Nulls := by
  cases v with
  | atom a => rw [Json.printed, map_atom]; trivial
  | arr items =>
    rw [printed_nulls h]
    exact h
  | obj members => rw [Json.printed, map_obj]; trivial

theorem arrange_nulls (hnull : (arr items).Nulls) : (arr items).arrange = .arr items := by
  rw [arrange_arr]
  congr 1
  refine (List.map_congr_left fun v hv => ?_).trans (List.map_id _)
  have h : v.IsNull := hnull v hv
  rw [h.eq, arrange_atom]
  rfl

end Json

variable {y : Yyjson} {C : Cell → Prop} {v : Json} {it : Item} {w : World} {cs : List Container}
  {l : Cell} {members : List (List UInt8 × Json)} {item : List UInt8 × Json → Item} {n p : ℕ}

theorem World.Backed.members_arranged (hw : w.Backed Whole cs) (hl : l ∈ w.cells)
    (hla : l.isArr = false) (hfields : ∀ m ∈ members, l.fields (cstr m.1) = some (item m))
    (hknown : ∀ k, l.fields k ≠ none → ∃ m ∈ members, cstr m.1 = k)
    (hkeyed : (Json.obj members).Keyed) (hcount : members.length < 2097151)
    {value : ℕ → Except Fault Json} (hval : ∀ m ∈ members, ∀ p, TagAt w.buf p (item m) →
      value p = .ok (m.2.printed y).arrange) :
    (w.buf.members value w.buf.levels (w.buf.begin l.ofs)).map .obj =
      .ok ((Json.obj members).printed y).arrange := by
  obtain ⟨c, R, -, hQ, ho⟩ := hw.container hl
  have hc : c.isArr = false := hQ.exact.tracks.kind.trans hla
  have hm := hQ.exact.mirrors hc
  obtain ⟨memberOf, hperm, hof⟩ := hm.entries_perm hfields hknown hkeyed.2
  have hvalue : ∀ e ∈ c.entries, value (e.valueOfs false) =
      .ok ((memberOf e).2.printed y).arrange := by
    intro e he
    obtain ⟨hheld, hread⟩ := (Container.seen ho).entry he
    rw [hc] at hheld hread
    exact hval _ (hof e he).1 _ ((hof e he).2.2.tagAt hheld hread)
  have hlen : c.entries.length = members.length := by simpa using hperm.length_eq
  have hrun := Container.members ho hc (Container.height_le_max hQ.rooted (hlen ▸ hcount)) hvalue
  rw [hQ.exact.tracks.ofs] at hrun
  have hkey : ∀ e ∈ c.entries, cstr e.key = e.key := fun e he => by
    rw [← (hof e he).2.1, cstr_cstr]
  rw [hrun, Json.arrange_printed_obj]
  refine congrArg (fun ms => Except.ok (Json.obj ms)) (eq_sortOn ?_ ?_ ?_)
  · rw [List.map_map]
    exact hkeyed.2
  · have hmap := hperm.map fun m => (cstr m.1, (m.2.printed y).arrange)
    rw [List.map_map] at hmap
    have heq : ∀ e ∈ c.entries, (cstr e.key, ((memberOf e).2.printed y).arrange) =
        (cstr (memberOf e).1, ((memberOf e).2.printed y).arrange) := fun e he => by
      rw [hkey e he, (hof e he).2.1]
    rwa [List.map_congr_left heq]
  · rw [List.pairwise_map]
    refine hm.ordered.imp_of_mem fun {e d} he hd hlt => ?_
    have hcmp : e.cmp d.hash d.key = .lt := hlt
    have hle := Entry.hash_le_of_cmp_lt hcmp
    rwa [hm.hashed e he, hm.hashed d hd, ← hkey e he, ← hkey d hd] at hle

/-- What is printed of a stored value is arranged. -/
theorem Stored.arranged (hw : w.Backed Whole cs) (hs : Stored y C v it)
    (hC : ∀ d, C d → d ∈ w.cells)
    (hkeyed : v.All Json.Keyed) (hcount : v.All Json.Counted) (hnulls : v.All Json.Nulls)
    (ht : TagAt w.buf p it) (hn : 0 < n)
    (hd : ∀ a o, it = .nested a o → w.buf.data.length < n + o) :
    w.buf.toYyjsonVal n p = .ok (v.printed y).arrange := by
  induction hs generalizing p n with
  | atom a => rw [ht.scalar hn, Json.printed, Json.map_atom, Json.arrange_atom]
  | @arr items l hl hla hlen hs habove =>
    have hself : (Json.arr items).Nulls := hnulls.self
    obtain ⟨j, hj, hall, -⟩ :=
      (Stored.arr hl hla hlen hs habove).printed hw hC hkeyed hnulls ht hn hd
    have hsame := hall.mpr (by simp)
    rw [Json.printed_nulls hself] at hsame ⊢
    rw [hj, hsame.eq_nulls hself, Json.arrange_nulls hself]
  | @obj members l item hl hla hfields _ habove hknown ih =>
    obtain ⟨n, rfl⟩ : ∃ k, n = k + 1 := ⟨n - 1, by omega⟩
    obtain ⟨hk, hkall⟩ := Json.all_obj.mp hkeyed
    obtain ⟨hlt, hcall⟩ := Json.all_obj.mp hcount
    obtain ⟨-, hnall⟩ := Json.all_obj.mp hnulls
    have hofs := hw.ofs_lt_usedSize (hC l hl)
    have hfits := hw.owns.fits
    have hlen := hd _ _ rfl
    have hms := hw.members_arranged (y := y) (hC l hl) hla hfields hknown hk hlt
      fun m hm p hp => ih m hm (hkall m hm) (hcall m hm) (hnall m hm) hp (show 0 < n by omega)
        fun a o ho => by
        have := habove m hm a o ho
        omega
    exact (ht.object n).trans hms

variable {valid : List UInt8 → Prop} {text text' : List UInt8} {members' : List (List UInt8 × Json)}

theorem printed_arranged (hread : y.read text = some (.obj members))
    (hkeyed : (Json.obj members).All Json.Keyed) (hcount : (Json.obj members).All Json.Counted)
    (hnulls : (Json.obj members).All Json.Nulls) (hfits : TextFits y text) :
    ∃ b, fromJsonString y text = .ok (true, b) ∧
      b.rootVal 0 = .ok ((Json.obj members).printed y).arrange := by
  have hfrom : fromJsonString y text = .ok (fromYyjsonVal y (.obj members) .empty 0) := by
    rw [fromJsonString, hread]
  obtain ⟨w, cs, l, hstore, hw, hofs, hs⟩ := stored_obj hkeyed (hfits _ _ hfrom)
  obtain ⟨hk, hkall⟩ := Json.all_obj.mp hkeyed
  obtain ⟨hlt, hcall⟩ := Json.all_obj.mp hcount
  obtain ⟨-, hnall⟩ := Json.all_obj.mp hnulls
  refine ⟨w.buf, hfrom.trans (congrArg _ hstore), ?_⟩
  rw [hofs] at hs
  generalize hit : Item.nested false 0 = it at hs
  cases hs with
  | @obj _ d item hd hda hfields hstored _ hknown =>
    have hdo : d.ofs = 0 := (Item.nested.inj hit).2.symm
    obtain ⟨hsize, htype⟩ := type_root hw hd hdo
    have hms := hw.members_arranged (y := y) hd hda hfields hknown hk hlt fun m hm p hp =>
      (hstored m hm).arranged hw (fun _ => id) (hkall m hm) (hcall m hm) (hnall m hm) hp
        (show 0 < w.buf.levels from Nat.succ_pos _) fun a o ho => by
          rw [Buffer.levels]
          omega
    rw [hdo] at hms
    rw [Buffer.rootVal, if_pos ⟨rfl, hsize⟩, htype, hda]
    exact hms

/-- Documents that differ in the order of members only are printed as one text. -/
theorem documents_agree (hread : y.read text = some (.obj members))
    (hread' : y.read text' = some (.obj members')) (hsame : (Json.obj members).Same (.obj members'))
    (hkeyed : (Json.obj members).All Json.Keyed) (hcount : (Json.obj members).All Json.Counted)
    (hnulls : (Json.obj members).All Json.Nulls) (hfits : TextFits y text)
    (hfits' : TextFits y text') :
    ∃ b b' out, fromJsonString y text = .ok (true, b) ∧ fromJsonString y text' = .ok (true, b') ∧
      toJsonString y b 0 = .ok out ∧ toJsonString y b' 0 = .ok out := by
  obtain ⟨b, hfrom, hval⟩ := printed_arranged hread hkeyed hcount hnulls hfits
  obtain ⟨b', hfrom', hval'⟩ := printed_arranged hread' (hsame.all Json.Same.keyed hkeyed)
    (hsame.all Json.Same.counted hcount) (hsame.all Json.Same.nulls hnulls) hfits'
  rw [← hsame.arrange hkeyed] at hval'
  let out := (y.write ((Json.obj members).printed y).arrange).getD [123, 125]
  refine ⟨b, b', out, hfrom, hfrom', ?_, ?_⟩
  · rw [toJsonString, hval]
    rfl
  · rw [toJsonString, hval']
    rfl

/-- `{"b":1,"a":2}` and its members the other way round -/
def swappedText (first : Bool) : List UInt8 :=
  if first then [123, 34, 98, 34, 58, 49, 44, 34, 97, 34, 58, 50, 125]
  else [123, 34, 97, 34, 58, 50, 44, 34, 98, 34, 58, 49, 125]

def swappedMembers (first : Bool) : List (List UInt8 × Json) :=
  if first then [([98], .atom (.int 1)), ([97], .atom (.int 2))]
  else [([97], .atom (.int 2)), ([98], .atom (.int 1))]

def swappedTexts : List (List UInt8 × Json) :=
  [(swappedText true, .obj (swappedMembers true)), (swappedText false, .obj (swappedMembers false))]

theorem documents_agree_swapped : ∃ b b' out,
    fromJsonString (.sample swappedTexts) (swappedText true) = .ok (true, b) ∧
      fromJsonString (.sample swappedTexts) (swappedText false) = .ok (true, b') ∧
      toJsonString (.sample swappedTexts) b 0 = .ok out ∧
      toJsonString (.sample swappedTexts) b' 0 = .ok out := by
  have hread : ∀ first, (Yyjson.sample swappedTexts).read (swappedText first) =
      some (.obj (swappedMembers first)) := fun first => by cases first <;> rfl
  have hsame : (Json.obj (swappedMembers true)).Same (.obj (swappedMembers false)) :=
    .obj (List.Perm.swap ..) rfl fun p hp => by
      obtain rfl | rfl : p = (([97], .atom (.int 2)), ([97], .atom (.int 2))) ∨
          p = (([98], .atom (.int 1)), ([98], .atom (.int 1))) := by
        simpa [swappedMembers] using hp
      all_goals exact .atom _
  exact documents_agree (hread true) (hread false) hsame (by decide) (by decide) (by decide)
    (textFits (hread true) (by decide +kernel)) (textFits (hread false) (by decide +kernel))

/-- A text that has been printed is read and printed as it is. -/
theorem printed_once (hy : y.Faithful valid) (hint : ∀ z, (y.getInt z).toInt = z.bmod (2 ^ 32))
    (hread : y.read text = some (.obj members)) (hkeyed : (Json.obj members).All Json.Keyed)
    (hcount : (Json.obj members).All Json.Counted) (hnulls : (Json.obj members).All Json.Nulls)
    (hfits : TextFits y text) :
    ∃ b out, fromJsonString y text = .ok (true, b) ∧ toJsonString y b 0 = .ok out ∧
      (TextFits y out → ∃ b', fromJsonString y out = .ok (true, b') ∧ toJsonString y b' 0 =
        .ok out) := by
  obtain ⟨b, hfrom, hval⟩ := printed_arranged hread hkeyed hcount hnulls hfits
  have hsame := Json.same_arrange ((Json.obj members).printed y)
  have hvalid := hsame.all_valid (.map ((hy.read _ _ hread).imp fun _ => Json.Valid.printed hy))
  obtain ⟨out, hout, hback⟩ := hy.write _ hvalid
  have hprint : toJsonString y b 0 = .ok out := by
    rw [toJsonString, hval]
    simp [Except.map, hout]
  refine ⟨b, out, hfrom, hprint, fun hfits' => ?_⟩
  have hidem := Json.arrange_printed_idem hint (.obj members)
  have hkeyed' := hsame.all Json.Same.keyed (.map (hkeyed.imp fun _ => Json.Keyed.printed))
  have hcount' := hsame.all Json.Same.counted (.map (hcount.imp fun _ => Json.Counted.printed))
  have hnulls' := hsame.all Json.Same.nulls (.map (hnulls.imp fun _ => Json.Nulls.printed))
  rw [Json.arrange_printed_obj] at hback hidem hkeyed' hcount' hnulls' hout
  obtain ⟨b', hfrom', hval'⟩ := printed_arranged hback hkeyed' hcount' hnulls' hfits'
  refine ⟨b', hfrom', ?_⟩
  rw [toJsonString, hval', hidem]
  simp [Except.map, hout]

theorem Yyjson.narrow_faithful {texts : List (List UInt8 × Json)}
    (h : (sample texts).Faithful Json.AnyString) : (narrow texts).Faithful Json.AnyString where
  read := h.read
  write := h.write
  getInt z hlo hhi := by
    rw [toInt_getInt_narrow]
    exact Int.bmod_eq_of_le (by omega) (by omega)
  ascii := h.ascii
  cstr := h.cstr

theorem printed_once_swapped : ∃ b b' first,
    fromJsonString (.narrow swappedTexts) (swappedText true) = .ok (true, b) ∧
      toJsonString (.narrow swappedTexts) b 0 = .ok (swappedText first) ∧
      fromJsonString (.narrow swappedTexts) (swappedText first) = .ok (true, b') ∧
      toJsonString (.narrow swappedTexts) b' 0 = .ok (swappedText first) := by
  have hy : (Yyjson.narrow swappedTexts).Faithful Json.AnyString :=
    Yyjson.narrow_faithful (Yyjson.sample_faithful (by decide) (by decide) (by decide))
  have hread : ∀ first, (Yyjson.narrow swappedTexts).read (swappedText first) =
      some (.obj (swappedMembers first)) := fun first => by cases first <;> rfl
  obtain ⟨b, out, hfrom, hout, hagain⟩ := printed_once hy (Yyjson.toInt_getInt_narrow _)
    (hread true) (by decide) (by decide) (by decide) (textFits (hread true) (by decide +kernel))
  have hswap : toJsonString (.narrow swappedTexts)
      (fromYyjsonVal (.narrow swappedTexts) (.obj (swappedMembers true)) .empty 0).2 0 =
        .ok (swappedText false) := by decide +kernel
  have hb : fromYyjsonVal (.narrow swappedTexts) (.obj (swappedMembers true)) .empty 0 =
      (true, b) := by
    rw [fromJsonString, hread true] at hfrom
    exact Except.ok.inj hfrom
  rw [hb] at hswap
  obtain rfl : out = swappedText false := Except.ok.inj (hout.symm.trans hswap)
  obtain ⟨b', hfrom', hout'⟩ := hagain (textFits (hread false) (by decide +kernel))
  exact ⟨b, b', false, hfrom, hout, hfrom', hout'⟩

end Lite3
