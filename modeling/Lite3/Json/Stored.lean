import Lite3.Json.Kinds
import Lite3.Json.Steps

/-! # Storing values

A value is stored when the cells of its containers hold the items of its members
and elements. Storing goes through the value from the outside in, and what has
been stored before stays in place.
-/

namespace Lite3

open Bytes Config

namespace Item

instance : Inhabited Item := ⟨.scalar .null⟩

/-- A container of the item lies behind the offset. -/
def Above (o : ℕ) (it : Item) : Prop := ∀ a p, it = .nested a p → o < p

end Item

/-- The item stands for the value, with containers among the cells `C`. -/
inductive Stored (y : Yyjson) (C : Cell → Prop) : Json → Item → Prop

  | atom (a : Atom) : Stored y C (.atom a) (.scalar (a.scalar y))

  | arr {items : List Json} {l : Cell} : C l → l.isArr = true → items.length = l.items.length →
      (∀ p ∈ items.zip l.items, Stored y C p.1 p.2) → (∀ it ∈ l.items, it.Above l.ofs) →
      Stored y C (.arr items) (.nested true l.ofs)

  | obj {members : List (List UInt8 × Json)} {l : Cell} (item : List UInt8 × Json → Item) : C l →
      l.isArr = false → (∀ m ∈ members, l.fields (cstr m.1) = some (item m)) →
      (∀ m ∈ members, Stored y C m.2 (item m)) → (∀ m ∈ members, (item m).Above l.ofs) →
      (∀ k, l.fields k ≠ none → ∃ m ∈ members, cstr m.1 = k) →
      Stored y C (.obj members) (.nested false l.ofs)

variable {y : Yyjson} {C C' : Cell → Prop} {v : Json} {it : Item} {w w' w'' : World} {l : Cell}
  {o : ℕ} {t : Target} {b : Buffer}

theorem Stored.mono (h : Stored y C v it) (hC : ∀ d, C d → C' d) : Stored y C' v it := by
  induction h with
  | atom a => exact .atom a
  | arr hl ha hlen _ hab ih => exact .arr (hC _ hl) ha hlen ih hab
  | obj item hl ha hf _ hab hk ih => exact .obj item (hC _ hl) ha hf ih hab hk

/-- The cells of containers that have been added. -/
def World.Since (w w' : World) (d : Cell) : Prop := d ∈ w'.cells ∧ ∀ l ∈ w.cells, l.ofs ≠ d.ofs

theorem World.Grown.since (h : Grown o w w') (ho : ∃ l ∈ w.cells, l.ofs = o) (h' : Grown o w' w'')
    {d : Cell} (hd : w.Since w' d) : w.Since w'' d := by
  obtain ⟨l, hl, rfl⟩ := ho
  exact ⟨h'.kept d hd.1 (hd.2 l hl).symm, hd.2⟩

theorem World.Grown.since_of_still (h : Grown o w w') {d : Cell} (hd : w'.Since w'' d) :
    w.Since w'' d := by
  refine ⟨hd.1, fun l hl => ?_⟩
  obtain ⟨l', hl', ho⟩ := h.still l hl
  exact ho ▸ hd.2 l' hl'

theorem usedSize_le_put (b : Buffer) (v : Scalar) (t : Target) :
    b.usedSize ≤ (t.put b v).usedSize := by
  cases t with
  | here => exact le_rfl
  | under ofs key => exact usedSize_le_setImpl _ _ _
  | behind ofs => exact usedSize_le_setImpl _ _ _

theorem usedSize_le_container (b : Buffer) (isArr : Bool) (t : Target) :
    b.usedSize ≤ (t.container b isArr).2.usedSize := by
  cases t with
  | here => exact le_rfl
  | under ofs key =>
    exact (usedSize_le_setImpl _ _ _).trans (Container.usedSize_le_setContainer b ofs key isArr)
  | behind ofs =>
    exact (usedSize_le_setImpl _ _ _).trans (Container.usedSize_le_arrAppendContainer b ofs isArr)

theorem usedSize_le_started (b : Buffer) (o : ℕ) (isArr : Bool) :
    b.usedSize ≤ (b.started o isArr).usedSize := by
  unfold Buffer.started
  split
  · simp [Buffer.initStructure]
  · exact le_rfl

theorem usedSize_le_storeItems {items : List Json}
    (h : ∀ v ∈ items, ∀ t b, b.usedSize ≤ (v.store y t b).2.usedSize) :
    b.usedSize ≤ (storeItems y o items b).2.usedSize := by
  induction items generalizing b with
  | nil => rw [storeItems]
  | cons v vs ih =>
    have hv := h v (by simp) (.behind o) b
    rw [storeItems]
    split <;> rename_i b' heq <;> rw [heq] at hv
    · exact hv
    · exact hv.trans (ih fun u hu => h u (List.mem_cons_of_mem _ hu))

theorem usedSize_le_storeMembers {members : List (List UInt8 × Json)}
    (h : ∀ m ∈ members, ∀ t b, b.usedSize ≤ (m.2.store y t b).2.usedSize) :
    b.usedSize ≤ (storeMembers y o members b).2.usedSize := by
  induction members generalizing b with
  | nil => rw [storeMembers]
  | cons m ms ih =>
    have hm := h m (by simp) (.under o (cstr m.1)) b
    rw [storeMembers]
    split <;> rename_i b' heq <;> rw [heq] at hm
    · exact hm
    · exact hm.trans (ih fun u hu => h u (List.mem_cons_of_mem _ hu))

theorem usedSize_le_store (y : Yyjson) (v : Json) (t : Target) (b : Buffer) :
    b.usedSize ≤ (v.store y t b).2.usedSize := by
  induction v generalizing t b with
  | atom a =>
    rw [Json.store]
    exact usedSize_le_put b _ t
  | arr items ih =>
    have hb := usedSize_le_container b true t
    rw [Json.store]
    split <;> rename_i heq <;> rw [heq] at hb
    · exact hb
    · exact hb.trans ((usedSize_le_started _ _ _).trans (usedSize_le_storeItems ih))
  | obj members ih =>
    have hb := usedSize_le_container b false t
    rw [Json.store]
    split <;> rename_i heq <;> rw [heq] at hb
    · exact hb
    · exact hb.trans ((usedSize_le_started _ _ _).trans (usedSize_le_storeMembers ih))

theorem usedSize_store_le_storeItems (y : Yyjson) (o : ℕ) (v : Json) (vs : List Json)
    (b : Buffer) :
    (v.store y (.behind o) b).2.usedSize ≤ (storeItems y o (v :: vs) b).2.usedSize := by
  rw [storeItems]
  split <;> rename_i heq <;> rw [heq]
  exact usedSize_le_storeItems fun u _ => usedSize_le_store y u

theorem usedSize_store_le_storeMembers (y : Yyjson) (o : ℕ) (m : List UInt8 × Json)
    (ms : List (List UInt8 × Json)) (b : Buffer) :
    (m.2.store y (.under o (cstr m.1)) b).2.usedSize ≤
      (storeMembers y o (m :: ms) b).2.usedSize := by
  rw [storeMembers]
  split <;> rename_i heq <;> rw [heq]
  exact usedSize_le_storeMembers fun u _ => usedSize_le_store y u.2

theorem usedSize_container_le_store_arr (y : Yyjson) (items : List Json) (t : Target)
    (b : Buffer) :
    (t.container b true).2.usedSize ≤ ((Json.arr items).store y t b).2.usedSize := by
  rw [Json.store]
  split <;> rename_i heq <;> rw [heq]
  exact (usedSize_le_started _ _ _).trans
    (usedSize_le_storeItems fun u _ => usedSize_le_store y u)

theorem usedSize_container_le_store_obj (y : Yyjson) (members : List (List UInt8 × Json))
    (t : Target) (b : Buffer) :
    (t.container b false).2.usedSize ≤ ((Json.obj members).store y t b).2.usedSize := by
  rw [Json.store]
  split <;> rename_i heq <;> rw [heq]
  exact (usedSize_le_started _ _ _).trans
    (usedSize_le_storeMembers fun u _ => usedSize_le_store y u.2)

/-- The value is stored in the cell that takes it, and all its containers are new. -/
structure Placing (y : Yyjson) (v : Json) (t : Target) (w : World) (l : Cell) (w' : World)
    (it : Item) : Prop where
  result : v.store y t w.buf = (true, w'.buf)
  grown : World.Grown t.ofs w w'
  filled : t.fill it l ∈ w'.cells
  stored : Stored y (w.Since w') v it
  above : ∀ d ∈ w.cells, it.Above d.ofs

/-- Whatever takes it can store the value. -/
def Places (y : Yyjson) (v : Json) : Prop :=
  ∀ w cs l t, World.Backed Whole w cs → l ∈ w.cells → Target.Takes l t →
    (v.store y t w.buf).2.usedSize < 2 ^ 32 → ∃ w' it, Placing y v t w l w' it

/-- The members are stored in the object. -/
structure Members (y : Yyjson) (members : List (List UInt8 × Json)) (w : World) (l : Cell)
    (w' : World) (l' : Cell) : Prop where
  result : storeMembers y l.ofs members w.buf = (true, w'.buf)
  grown : World.Grown l.ofs w w'
  cell : l' ∈ w'.cells
  ofs : l'.ofs = l.ofs
  object : l'.isArr = false
  stored : ∀ m ∈ members, ∃ it, l'.fields (cstr m.1) = some it ∧ Stored y (w.Since w') m.2 it ∧
    it.Above l.ofs
  known : ∀ k, l'.fields k ≠ none → l.fields k ≠ none ∨ ∃ m ∈ members, cstr m.1 = k
  same : ∀ k, l.fields k ≠ none → l'.fields k = l.fields k

theorem members_stored {members : List (List UInt8 × Json)} (hp : ∀ m ∈ members, Places y m.2)
    {cs : List Container} (hw : w.Backed Whole cs) (hl : l ∈ w.cells) (hla : l.isArr = false)
    (hshort : ∀ m ∈ members, (cstr m.1).length ≤ 62)
    (hnodup : (members.map fun m => djb2Hash (cstr m.1)).Nodup)
    (hnew : ∀ m ∈ members, ∀ k, l.fields k ≠ none → djb2Hash k ≠ djb2Hash (cstr m.1))
    (hfin : (storeMembers y l.ofs members w.buf).2.usedSize < 2 ^ 32) :
    ∃ w' l', Members y members w l w' l' := by
  induction members generalizing w l cs with
  | nil =>
    refine ⟨w, l, by rw [storeMembers], ⟨⟨cs, hw⟩, fun d hd _ => hd, fun d hd => ⟨d, hd, rfl⟩⟩, hl,
      rfl, hla, by simp, fun k hk => Or.inl hk, fun k _ => rfl⟩
  | cons m ms ih =>
    obtain ⟨hm, hnodup⟩ := List.nodup_cons.mp hnodup
    have htakes : Target.Takes l (.under l.ofs (cstr m.1)) :=
      ⟨rfl, hla, hshort m (by simp), hnew m (by simp)⟩
    have hmono := usedSize_store_le_storeMembers y l.ofs m ms w.buf
    obtain ⟨w₁, it, hplace⟩ :=
      hp m (by simp) w cs l (.under l.ofs (cstr m.1)) hw hl htakes (hmono.trans_lt hfin)
    obtain ⟨cs₁, hw₁⟩ := hplace.grown.backed
    have hstep : storeMembers y l.ofs (m :: ms) w.buf = storeMembers y l.ofs ms w₁.buf := by
      rw [storeMembers, hplace.result]
    rw [hstep] at hfin
    have hnew₁ : ∀ u ∈ ms, ∀ k, (l.put (cstr m.1) it).fields k ≠ none →
        djb2Hash k ≠ djb2Hash (cstr u.1) := by
      intro u hu k hk
      by_cases hkm : k = cstr m.1
      · rw [hkm]
        exact fun heq => hm (List.mem_map.mpr ⟨u, hu, heq.symm⟩)
      · rw [Cell.fields_put_of_ne hkm] at hk
        exact hnew u (List.mem_cons_of_mem _ hu) k hk
    obtain ⟨w', l', h⟩ := ih (fun u hu => hp u (List.mem_cons_of_mem _ hu)) hw₁ hplace.filled hla
      (fun u hu => hshort u (List.mem_cons_of_mem _ hu)) hnodup hnew₁ hfin
    refine ⟨w', l', hstep.trans h.result, hplace.grown.trans h.grown, h.cell, h.ofs,
      h.object, ?_, ?_, ?_⟩
    · intro u hu
      rcases List.mem_cons.mp hu with rfl | hu
      · refine ⟨it, ?_, hplace.stored.mono fun d => hplace.grown.since ⟨l, hl, rfl⟩ h.grown,
          hplace.above l hl⟩
        rw [h.same _ (by simp [Target.fill]), Target.fill, Cell.fields_put_self]
      · obtain ⟨i, hi, hs, ha⟩ := h.stored u hu
        exact ⟨i, hi, hs.mono fun d => hplace.grown.since_of_still, ha⟩
    · intro k hk
      rcases h.known k hk with hk | ⟨u, hu, rfl⟩
      · by_cases hkm : k = cstr m.1
        · exact Or.inr ⟨m, by simp, hkm.symm⟩
        · rw [Target.fill, Cell.fields_put_of_ne hkm] at hk
          exact Or.inl hk
      · exact Or.inr ⟨u, List.mem_cons_of_mem _ hu, rfl⟩
    · intro k hk
      have hkm : k ≠ cstr m.1 := by
        rintro rfl
        exact hnew m (by simp) _ hk rfl
      have hf : (Target.fill it l (.under l.ofs (cstr m.1))).fields k = l.fields k :=
        Cell.fields_put_of_ne hkm l it
      rw [h.same k (hf ▸ hk), hf]

/-- The items are stored behind the elements of the array. -/
structure Elems (y : Yyjson) (items : List Json) (w : World) (l : Cell) (w' : World) (l' : Cell) :
    Prop where
  result : storeItems y l.ofs items w.buf = (true, w'.buf)
  grown : World.Grown l.ofs w w'
  cell : l' ∈ w'.cells
  ofs : l'.ofs = l.ofs
  array : l'.isArr = true
  stored : ∃ its, l'.items = l.items ++ its ∧ items.length = its.length ∧
    (∀ p ∈ items.zip its, Stored y (w.Since w') p.1 p.2) ∧ ∀ it ∈ its, it.Above l.ofs

theorem items_stored {items : List Json} (hp : ∀ v ∈ items, Places y v) {cs : List Container}
    (hw : w.Backed Whole cs) (hl : l ∈ w.cells) (hla : l.isArr = true)
    (hn : l.items.length + items.length < 2 ^ 26)
    (hfin : (storeItems y l.ofs items w.buf).2.usedSize < 2 ^ 32) :
    ∃ w' l', Elems y items w l w' l' := by
  induction items generalizing w l cs with
  | nil =>
    refine ⟨w, l, by rw [storeItems], ⟨⟨cs, hw⟩, fun d hd _ => hd, fun d hd => ⟨d, hd, rfl⟩⟩, hl,
      rfl, hla, [], by simp, rfl, by simp, by simp⟩
  | cons v vs ih =>
    rw [List.length_cons] at hn
    have htakes : Target.Takes l (.behind l.ofs) := ⟨rfl, hla, by omega⟩
    have hmono := usedSize_store_le_storeItems y l.ofs v vs w.buf
    obtain ⟨w₁, it, hplace⟩ :=
      hp v (by simp) w cs l (.behind l.ofs) hw hl htakes (hmono.trans_lt hfin)
    obtain ⟨cs₁, hw₁⟩ := hplace.grown.backed
    have hstep : storeItems y l.ofs (v :: vs) w.buf = storeItems y l.ofs vs w₁.buf := by
      rw [storeItems, hplace.result]
    rw [hstep] at hfin
    have hlen : (Target.fill it l (.behind l.ofs)).items = l.items ++ [it] := rfl
    obtain ⟨w', l', h⟩ := ih (fun u hu => hp u (List.mem_cons_of_mem _ hu)) hw₁ hplace.filled hla
      (by rw [hlen, List.length_append, List.length_singleton]; omega) hfin
    obtain ⟨its, hits, hlens, hstored, habove⟩ := h.stored
    refine ⟨w', l', hstep.trans h.result, hplace.grown.trans h.grown, h.cell, h.ofs, h.array,
      it :: its, ?_, congrArg (· + 1) hlens, ?_, ?_⟩
    · rw [hits, hlen, List.append_assoc]
      rfl
    · intro p hmem
      rcases List.mem_cons.mp hmem with rfl | hmem
      · exact hplace.stored.mono fun d => hplace.grown.since ⟨l, hl, rfl⟩ h.grown
      · exact (hstored p hmem).mono fun d => hplace.grown.since_of_still
    · intro i hi
      rcases List.mem_cons.mp hi with rfl | hi
      · exact hplace.above l hl
      · exact habove i hi

theorem started_of_pos {o : ℕ} (ho : 0 < o) (isArr : Bool) : b.started o isArr = b :=
  if_neg fun h => ho.ne' h.1

/-- What is stored in a new container is stored in the cell it is opened for. -/
theorem Target.Opened.placing {isArr : Bool} {w₁ w₂ : World} {l₁ : Cell}
    (h : t.Opened isArr w l o w₁) (hl : l ∈ w.cells)
    (hg : World.Grown o w₁ w₂) (hl₁ : l₁.ofs = o)
    (hres : v.store y t w.buf = (true, w₂.buf))
    (hs : Stored y (w.Since w₂) v (.nested isArr l₁.ofs)) :
    Placing y v t w l w₂ (.nested isArr o) where
  result := hres
  grown := h.grown.inner h.behind hg
  filled := hg.kept _ h.filled (by rw [Target.ofs_fill]; exact (h.behind l hl).ne)
  stored := hl₁ ▸ hs
  above := by
    rintro d hd a p ⟨⟩
    exact h.behind d hd

/-- Every value with short keys whose hashes are distinct in each object is stored. -/
theorem places_of_keyed (y : Yyjson) (v : Json) (hv : v.All Json.Keyed) : Places y v := by
  induction v with
  | atom a =>
    intro w cs l t hw hl ht hfin
    rw [Json.store] at hfin
    obtain ⟨w', hbuf, hg, hm⟩ := Target.put_grown hw hl ht (a.scalar y) hfin
    refine ⟨w', _, by rw [Json.store, hbuf], hg, hm, .atom a, fun d _ a p h => by cases h⟩
  | arr items ih =>
    obtain ⟨hlen, hall⟩ := Json.all_arr.mp hv
    intro w cs l t hw hl ht hfin
    have hmono := usedSize_container_le_store_arr y items t w.buf
    obtain ⟨o, w₁, hop⟩ := Target.container_opened hw hl ht (hmono.trans_lt hfin)
    have ho : 0 < o := (Nat.zero_le _).trans_lt (hop.behind l hl)
    obtain ⟨chain, hnew⟩ := hop.empty
    obtain ⟨cs₁, hw₁⟩ := hop.grown.backed
    have hstep : (Json.arr items).store y t w.buf = storeItems y o items w₁.buf := by
      rw [Json.store, hop.result]
      exact congrArg _ (started_of_pos ho true)
    rw [hstep] at hfin
    obtain ⟨w₂, l₂, h⟩ := items_stored (fun u hu => ih u hu (hall u hu)) hw₁ hnew rfl
      (by simpa [Cell.new] using show items.length < 2 ^ 26 from hlen) hfin
    obtain ⟨its, hits, hlens, hstored, habove⟩ := h.stored
    rw [show (Cell.new true o chain).items = [] from rfl, List.nil_append] at hits
    subst hits
    have hsince : w.Since w₂ l₂ := ⟨h.cell, fun d hd => ((hop.behind d hd).trans_eq h.ofs.symm).ne⟩
    exact ⟨w₂, _, hop.placing hl h.grown h.ofs (hstep.trans h.result)
      (.arr hsince h.array hlens (fun p hp => (hstored p hp).mono fun d => hop.grown.since_of_still)
        fun i hi => h.ofs ▸ habove i hi)⟩
  | obj members ih =>
    obtain ⟨⟨hshort, hnodup⟩, hall⟩ := Json.all_obj.mp hv
    intro w cs l t hw hl ht hfin
    have hmono := usedSize_container_le_store_obj y members t w.buf
    obtain ⟨o, w₁, hop⟩ := Target.container_opened hw hl ht (hmono.trans_lt hfin)
    have ho : 0 < o := (Nat.zero_le _).trans_lt (hop.behind l hl)
    obtain ⟨chain, hnew⟩ := hop.empty
    obtain ⟨cs₁, hw₁⟩ := hop.grown.backed
    have hstep : (Json.obj members).store y t w.buf = storeMembers y o members w₁.buf := by
      rw [Json.store, hop.result]
      exact congrArg _ (started_of_pos ho false)
    rw [hstep] at hfin
    obtain ⟨w₂, l₂, h⟩ :=
      members_stored (fun m hm => ih m hm (hall m hm)) hw₁ hnew rfl hshort hnodup
      (by simp [Cell.new]) hfin
    have hsince : w.Since w₂ l₂ := ⟨h.cell, fun d hd => ((hop.behind d hd).trans_eq h.ofs.symm).ne⟩
    choose! item hfields hstored habove using h.stored
    refine ⟨w₂, _, hop.placing hl h.grown h.ofs (hstep.trans h.result)
      (.obj item hsince h.object hfields
        (fun m hm => (hstored m hm).mono fun d => hop.grown.since_of_still)
        (fun m hm => h.ofs ▸ habove m hm) fun k hk => ?_)⟩
    exact (h.known k hk).resolve_left (by simp [Cell.new])

end Lite3
