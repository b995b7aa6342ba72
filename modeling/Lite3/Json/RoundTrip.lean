import Lite3.Json.Printed
import Lite3.Json.Yyjson

/-! # Texts through a buffer

A document is parsed, stored in a new buffer and printed from there. Objects
come back as they were, up to the order of their members and what happens to
their atoms, as long as their arrays hold nothing but nulls.
-/

namespace Lite3

open Bytes Config Lite3.Tree

variable {y : Yyjson} {members : List (List UInt8 × Json)} {items : List Json} {w : World}
  {cs : List Container} {l : Cell} {valid : List UInt8 → Prop} {j j' : Json} {text : List UInt8}

theorem start_backed (isArr : Bool) :
    (World.start isArr).Backed Whole [.empty isArr 0] :=
  .start isArr (World.preserved_whole.new _ _ _)

theorem started_empty (isArr : Bool) :
    Buffer.empty.started 0 isArr = (World.start isArr).buf := if_pos ⟨rfl, rfl⟩

theorem stored_obj (hkeyed : (Json.obj members).All Json.Keyed)
    (hfin : (fromYyjsonVal y (.obj members) .empty 0).2.usedSize < 2 ^ 32) :
    ∃ (w : World) (cs : List Container) (l : Cell),
      fromYyjsonVal y (.obj members) .empty 0 = (true, w.buf) ∧ w.Backed Whole cs ∧
      l.ofs = 0 ∧ Stored y (· ∈ w.cells) (.obj members) (.nested false l.ofs) := by
  obtain ⟨⟨hshort, hnodup⟩, hall⟩ := Json.all_obj.mp hkeyed
  have hstep : fromYyjsonVal y (.obj members) .empty 0 =
      storeMembers y 0 members (World.start false).buf := by
    rw [fromYyjsonVal, Json.store, Target.container]
    exact congrArg _ (started_empty false)
  rw [hstep] at hfin ⊢
  obtain ⟨w, l, h⟩ :=
    members_stored (l := .new false 0 []) (fun m hm => places_of_keyed y m.2 (hall m hm))
    (start_backed false) (List.mem_singleton_self _) rfl hshort hnodup (by simp [Cell.new]) hfin
  obtain ⟨cs, hw⟩ := h.grown.backed
  choose! item hfields hstored habove using h.stored
  have hofs : l.ofs = 0 := h.ofs
  refine ⟨w, cs, l, h.result, hw, hofs, .obj item h.cell h.object hfields
    (fun m hm => (hstored m hm).mono fun d hd => hd.1) (fun m hm => hofs ▸ habove m hm)
    fun k hk => (h.known k hk).resolve_left (by simp [Cell.new])⟩

theorem Container.type_root {b : Buffer} {c : Container} {R : List Chunk}
    (ho : b.Owns (c.chunks ++ R)) (hofs : c.ofs = 0) :
    nodeSize ≤ b.data.length ∧ NodeView.type b.mem 0 = kindOf c.isArr := by
  have hle := ho.below c.tree.label.chunk (List.mem_append_left _ (c.tree.label_chunk_mem c.isArr))
  have hfits := ho.fits
  have hs := seen ho
  have htype : NodeView.type b.mem c.ofs = kindOf c.isArr := hs.label.type.trans hs.laid.type_eq
  simp only [Chunk.stop, Block.length_chunk] at hle
  constructor
  · rw [nodeSize]
    omega
  · rwa [hofs] at htype

theorem type_root (hw : w.Backed Whole cs) (hl : l ∈ w.cells) (hofs : l.ofs = 0) :
    nodeSize ≤ w.buf.data.length ∧ NodeView.type w.buf.mem 0 = kindOf l.isArr := by
  obtain ⟨c, R, -, hQ, ho⟩ := hw.container hl
  rw [← hQ.exact.tracks.kind]
  exact Container.type_root ho (hQ.exact.tracks.ofs.trans hofs)

theorem stored_arr (hkeyed : (Json.arr items).All Json.Keyed)
    (hfin : (fromYyjsonVal y (.arr items) .empty 0).2.usedSize < 2 ^ 32) :
    ∃ (w : World) (cs : List Container) (l : Cell),
      fromYyjsonVal y (.arr items) .empty 0 = (true, w.buf) ∧ w.Backed Whole cs ∧
      l ∈ w.cells ∧ l.ofs = 0 ∧ l.isArr = true ∧
      Stored y (· ∈ w.cells) (.arr items) (.nested true l.ofs) := by
  obtain ⟨hlen, hall⟩ := Json.all_arr.mp hkeyed
  have hlen : items.length < 2 ^ 26 := hlen
  have hstep : fromYyjsonVal y (.arr items) .empty 0 =
      storeItems y 0 items (World.start true).buf := by
    rw [fromYyjsonVal, Json.store, Target.container]
    exact congrArg _ (started_empty true)
  rw [hstep] at hfin ⊢
  obtain ⟨w, l, h⟩ :=
    items_stored (l := .new true 0 []) (fun v hv => places_of_keyed y v (hall v hv))
    (start_backed true) (List.mem_singleton_self _) rfl (by simpa [Cell.new] using hlen) hfin
  obtain ⟨cs, hw⟩ := h.grown.backed
  obtain ⟨its, hits, hlens, hstored, habove⟩ := h.stored
  have hits : l.items = its := hits.trans (List.nil_append its)
  have hofs : l.ofs = 0 := h.ofs
  subst hits
  exact ⟨w, cs, l, h.result, hw, h.cell, hofs, h.array, .arr h.cell h.array hlens
    (fun p hp => (hstored p hp).mono fun d hd => hd.1) fun it hit => hofs ▸ habove it hit⟩

theorem printed_arr (hw : w.Backed Whole cs) (hl : l ∈ w.cells) (hofs : l.ofs = 0)
    (hla : l.isArr = true) : w.buf.rootVal 0 = .ok (.arr []) := by
  obtain ⟨hsize, htype⟩ := type_root hw hl hofs
  have helems := hw.elements_eq (g := Item.type) hl hla fun i it _ htype => htype
  rw [hofs] at helems
  rw [Buffer.rootVal, if_pos ⟨rfl, hsize⟩, htype, hla]
  simp only [kindOf, if_true, helems]
  rfl

/-- A stored object at the root is printed, with all its keys if they are shown. -/
theorem printed_obj (hw : w.Backed Whole cs) (hofs : l.ofs = 0)
    (hs : Stored y (· ∈ w.cells) (.obj members) (.nested false l.ofs))
    (hkeyed : (Json.obj members).All Json.Keyed) (hnulls : (Json.obj members).All Json.Nulls) :
    ∃ j, w.buf.rootVal 0 = .ok j ∧
      (((Json.obj members).printed y).Same j ↔ w.buf.ShowsAll (.obj members) 0) ∧
      ∀ valid, ((Json.obj members).printed y).All (Json.Valid valid) →
        j.All (Json.Valid valid) := by
  obtain ⟨hk, hkall⟩ := Json.all_obj.mp hkeyed
  obtain ⟨-, hnall⟩ := Json.all_obj.mp hnulls
  rw [hofs] at hs
  generalize hit : Item.nested false 0 = it at hs
  cases hs with
  | @obj _ d item hd hda hfields hstored habove hknown =>
    have hdo : d.ofs = 0 := by simpa using (Item.nested.inj hit).2.symm
    obtain ⟨hsize, htype⟩ := type_root hw hd hdo
    obtain ⟨ms, hms, hsame, hvalid⟩ := hw.members_printed hd hda hfields hknown hk
      fun m hm p hp => (hstored m hm).printed hw (fun _ => id) (hkall m hm) (hnall m hm)
        hp (show 0 < w.buf.levels by rw [Buffer.levels]; omega) fun a o ho => by
          rw [Buffer.levels]
          omega
    rw [hdo] at hms
    refine ⟨.obj ms, ?_, hsame.trans ?_, hvalid⟩
    · rw [Buffer.rootVal, if_pos ⟨rfl, hsize⟩, htype, hda]
      simp only [kindOf, hms]
      rfl
    · rw [← hdo, Buffer.showsAll_obj hk]
      refine forall₂_congr fun m hm => and_congr_right fun _ => forall_congr' fun o => ?_
      rw [hw.getObj_eq hd hda (hfields m hm)]

/-- The text is stored and printed, and what is printed denotes the value. -/
def Denotes (y : Yyjson) (text : List UInt8) (j : Json) : Prop :=
  ∃ b out j', fromJsonString y text = .ok (true, b) ∧ toJsonString y b 0 = .ok out ∧
    y.read out = some j' ∧ j.Same j'

/-- The buffer that the text is stored in stays below 4 GiB. -/
def TextFits (y : Yyjson) (text : List UInt8) : Prop :=
  ∀ flag b, fromJsonString y text = .ok (flag, b) → b.usedSize < 2 ^ 32

theorem textFits (hread : y.read text = some j)
    (hfin : (fromYyjsonVal y j .empty 0).2.usedSize < 2 ^ 32) : TextFits y text := by
  intro flag b h
  rw [fromJsonString, hread] at h
  have hb : fromYyjsonVal y j .empty 0 = (flag, b) := by simpa using h
  rwa [hb] at hfin

theorem Atom.Plain.printed (hy : y.Faithful valid) {a : Atom} (ha : a.Plain) :
    (a.scalar y).atom = a := by
  cases a with
  | null | bool | real => rfl
  | int z => exact congrArg Atom.int (hy.getInt z ha.1 ha.2)
  | str s =>
    obtain ⟨h0, hno⟩ := ha
    cases hdec : hexDecode s with
    | ok bs => simp [hdec, Except.isOk, Except.toBool] at hno
    | error msg => simp [Atom.scalar, cstr_eq_self h0, hdec, Scalar.atom]

theorem Json.printed_eq_self (hy : y.Faithful valid) (hplain : j.All Json.Plain)
    (hnamed : j.All Json.Named) : j.printed y = j := by
  apply Json.map_eq_self
  · refine hplain.imp fun v hv a ha => ?_
    subst ha
    exact Atom.Plain.printed hy hv
  · refine hnamed.imp fun v hv ms hms m hm => ?_
    subst hms
    exact cstr_eq_self (hv m hm)

/-- The text is stored with every key in the first ten levels of its object. -/
def KeysShown (y : Yyjson) (text : List UInt8) (j : Json) : Prop :=
  ∀ flag b, fromJsonString y text = .ok (flag, b) → b.ShowsAll j 0

/-- An object whose arrays hold nulls survives being stored and printed if its keys are shown. -/
theorem denotes_obj_iff (hy : y.Faithful valid) (hread : y.read text = some (.obj members))
    (hkeyed : (Json.obj members).All Json.Keyed) (hnulls : (Json.obj members).All Json.Nulls)
    (hplain : (Json.obj members).All Json.Plain) (hnamed : (Json.obj members).All Json.Named)
    (hfits : TextFits y text) :
    Denotes y text (.obj members) ↔ KeysShown y text (.obj members) := by
  have hfrom : fromJsonString y text = .ok (fromYyjsonVal y (.obj members) .empty 0) := by
    rw [fromJsonString, hread]
  obtain ⟨w, cs, l, hstore, hw, hofs, hs⟩ := stored_obj hkeyed (hfits _ _ hfrom)
  obtain ⟨j, hj, hsame, hvalid⟩ := printed_obj hw hofs hs hkeyed hnulls
  rw [Json.printed_eq_self hy hplain hnamed] at hsame hvalid
  obtain ⟨out, hout, hback⟩ := hy.write j (hvalid valid (hy.read _ _ hread))
  have hprint : toJsonString y w.buf 0 = .ok out := by
    rw [toJsonString, hj]
    simp [Except.map, hout]
  rw [hstore] at hfrom
  constructor
  · rintro ⟨b, out', j', hfrom', hprint', hback', hsame'⟩ flag b' hb'
    obtain rfl : w.buf = b := by simpa using hfrom.symm.trans hfrom'
    obtain rfl : w.buf = b' := by
      simpa using congrArg Prod.snd (Except.ok.inj (hfrom.symm.trans hb'))
    obtain rfl : out = out' := by simpa using hprint.symm.trans hprint'
    obtain rfl : j = j' := by simpa using hback.symm.trans hback'
    exact hsame.mp hsame'
  · intro hshown
    exact ⟨w.buf, out, j, hfrom, hprint, hback, hsame.mpr (hshown _ _ hfrom)⟩

theorem keysShown_of_counted (hread : y.read text = some (.obj members))
    (hkeyed : (Json.obj members).All Json.Keyed) (hcount : (Json.obj members).All Json.Counted)
    (hfits : TextFits y text) : KeysShown y text (.obj members) := by
  have hfrom : fromJsonString y text = .ok (fromYyjsonVal y (.obj members) .empty 0) := by
    rw [fromJsonString, hread]
  obtain ⟨w, cs, l, hstore, hw, hofs, hs⟩ := stored_obj hkeyed (hfits _ _ hfrom)
  intro flag b hb
  obtain rfl : w.buf = b := by
    rw [hstore] at hfrom
    exact congrArg Prod.snd (Except.ok.inj (hfrom.symm.trans hb))
  exact hs.showsAll hw (fun _ => id) hkeyed hcount 0 (hofs ▸ rfl)

/-- Objects of objects and scalars survive being stored and printed. -/
theorem objects_round_trip (hy : y.Faithful valid) (hread : y.read text = some (.obj members))
    (hflat : (Json.obj members).All Json.Flat) (hkeyed : (Json.obj members).All Json.Keyed)
    (hnamed : (Json.obj members).All Json.Named) (hcount : (Json.obj members).All Json.Counted)
    (hplain : (Json.obj members).All Json.Plain) (hfits : TextFits y text) :
    Denotes y text (.obj members) :=
  (denotes_obj_iff hy hread hkeyed (hflat.imp fun _ => Json.Flat.nulls) hplain hnamed hfits).mpr
    (keysShown_of_counted hread hkeyed hcount hfits)

/-- `{"a":{"b":5}}` -/
def nestedText : List UInt8 := [123, 34, 97, 34, 58, 123, 34, 98, 34, 58, 53, 125, 125]

def nestedMembers : List (List UInt8 × Json) := [([97], .obj [([98], .atom (.int 5))])]

theorem objects_round_trip_nested : Denotes (.sample [(nestedText, .obj nestedMembers)]) nestedText
    (.obj nestedMembers) := by
  have hread : (Yyjson.sample [(nestedText, .obj nestedMembers)]).read nestedText =
      some (.obj nestedMembers) := rfl
  exact objects_round_trip (Yyjson.sample_faithful (by decide) (by decide) (by decide)) hread
    (by decide) (by decide) (by decide) (by decide) (by decide) (textFits hread (by decide +kernel))

theorem denotes_arr (hy : y.Faithful valid) (hread : y.read text = some (.arr items))
    (hkeyed : (Json.arr items).All Json.Keyed) (hfits : TextFits y text) :
    Denotes y text (.arr items) ↔ items = [] := by
  have hfrom : fromJsonString y text = .ok (fromYyjsonVal y (.arr items) .empty 0) := by
    rw [fromJsonString, hread]
  obtain ⟨w, cs, l, hstore, hw, hl, hofs, hla, -⟩ := stored_arr hkeyed (hfits _ _ hfrom)
  have hroot := printed_arr hw hl hofs hla
  obtain ⟨out, hout, hback⟩ := hy.write (.arr []) (.arr trivial (by simp))
  have hprint : toJsonString y w.buf 0 = .ok out := by
    rw [toJsonString, hroot]
    simp [Except.map, hout]
  rw [hstore] at hfrom
  constructor
  · rintro ⟨b, out', j', hfrom', hprint', hback', hsame⟩
    obtain rfl : w.buf = b := by simpa using hfrom.symm.trans hfrom'
    obtain rfl : out = out' := by simpa using hprint.symm.trans hprint'
    obtain rfl : .arr [] = j' := by simpa using hback.symm.trans hback'
    cases hsame with
    | arr hlen _ => exact List.length_eq_zero_iff.mp hlen
  · rintro rfl
    exact ⟨w.buf, out, _, hfrom, hprint, hback, .arr rfl (by simp)⟩

theorem keysShown_arr (text : List UInt8) : KeysShown y text (.arr items) := by
  intro flag b _ path u hu
  cases path with
  | nil => trivial
  | cons k ks => cases hu

/-- Values whose arrays are kept survive if their keys are shown, and only then, and a root array
does if it is empty. -/
theorem arrays_round_trip (hy : y.Faithful valid) (hread : y.read text = some j)
    (hroot : ∀ a, j ≠ .atom a) (hkeyed : j.All Json.Keyed) (hnamed : j.All Json.Named)
    (hplain : j.All Json.Plain) (hfits : TextFits y text) :
    (j.Kept → (Denotes y text j ↔ KeysShown y text j)) ∧
      ∀ items, j = .arr items → (Denotes y text j ↔ items = []) := by
  constructor
  · intro hkept
    cases j with
    | atom a => exact (hroot a rfl).elim
    | arr items =>
      exact iff_of_true ((denotes_arr hy hread hkeyed hfits).mpr hkept) (keysShown_arr text)
    | obj members => exact denotes_obj_iff hy hread hkeyed hkept hplain hnamed hfits
  · rintro items rfl
    exact denotes_arr hy hread hkeyed hfits

/-- `{"a":[null],"b":{"c":[]}}` -/
def nullsText : List UInt8 := [123, 34, 97, 34, 58, 91, 110, 117, 108, 108, 93, 44, 34, 98, 34, 58,
  123, 34, 99, 34, 58, 91, 93, 125, 125]

def nullsMembers : List (List UInt8 × Json) :=
  [([97], .arr [.atom .null]), ([98], .obj [([99], .arr [])])]

theorem arrays_round_trip_nulls :
    Denotes (.sample [(nullsText, .obj nullsMembers)]) nullsText (.obj nullsMembers) := by
  have hread : (Yyjson.sample [(nullsText, .obj nullsMembers)]).read nullsText =
      some (.obj nullsMembers) := rfl
  have hroot : ∀ a, Json.obj nullsMembers ≠ .atom a := fun a h => by cases h
  have hkept : (Json.obj nullsMembers).All Json.Nulls := by decide
  have hfits := textFits hread (by decide +kernel)
  exact ((arrays_round_trip (Yyjson.sample_faithful (by decide) (by decide) (by decide)) hread hroot
    (by decide) (by decide) (by decide) hfits).1 hkept).mpr
    (keysShown_of_counted hread (by decide) (by decide) hfits)

/-- `[true]` is printed as `[]`. -/
theorem array_lost : ¬ ∀ (y : Yyjson) (valid : List UInt8 → Prop) (text : List UInt8) (j : Json),
    y.Faithful valid → y.read text = some j → (∀ a, j ≠ .atom a) → j.All Json.Keyed →
    j.All Json.Named → j.All Json.Plain → TextFits y text → Denotes y text j := by
  intro h
  let texts : List (List UInt8 × Json) :=
    [([91, 116, 114, 117, 101, 93], .arr [.atom (.bool true)]), ([91, 93], .arr [])]
  have hy : (Yyjson.sample texts).Faithful Json.AnyString :=
    Yyjson.sample_faithful (by decide) (by decide) (by decide)
  have hread : (Yyjson.sample texts).read [91, 116, 114, 117, 101, 93] =
      some (.arr [.atom (.bool true)]) := rfl
  have hfits : TextFits (Yyjson.sample texts) [91, 116, 114, 117, 101, 93] :=
    textFits hread (by decide +kernel)
  have hdenotes := h _ Json.AnyString _ _ hy hread (fun a h => by cases h) (by decide) (by decide)
    (by decide) hfits
  exact absurd ((denotes_arr hy hread (by decide) hfits).mp hdenotes) (by decide)

end Lite3
