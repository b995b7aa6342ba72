import Lite3.Json.Documents
import Lite3.Json.Forest
import Lite3.Json.RoundTrip
import Lite3.Store.Agreement

/-! # Documents from texts

A value that is parsed is stored place by place, containers before what is in
them. In the end the places are those of the document of the value, and
statements go on from there.
-/

namespace Lite3

open Bytes Config Paths

namespace Json

/-- The value that a path leads to. Keys are stored as C strings. -/
def follow : Json → List Place → Option Json
  | v, [] => some v
  | .obj members, .key k :: q => (members.find? (cstr ·.1 = k)).bind fun m => m.2.follow q
  | .arr items, .index i :: q => items[i.toNat]?.bind fun v => v.follow q
  | _, _ :: _ => none

def node (y : Yyjson) : Json → Node
  | .atom a => .scalar (a.scalar y)
  | .arr _ => .container true
  | .obj _ => .container false

/-- What is stored at a path for the value. -/
def nodeAt (y : Yyjson) (v : Json) (q : List Place) : Option Node := (v.follow q).map (node y)

/-- The places of a container are in use, and one of them at least. -/
def Over (Q : Place → Prop) : Json → Prop
  | .atom _ => True
  | .arr items => (∃ i, Q (.index i)) ∧ ∀ i < items.length, Q (.index (.ofNat i))
  | .obj members => (∃ k, Q (.key k)) ∧ ∀ m ∈ members, Q (.key (cstr m.1))

/-- An atom is stored as told. -/
def Valued (y : Yyjson) (V : Scalar → Prop) : Json → Prop
  | .atom a => V (a.scalar y)
  | _ => True

variable {y : Yyjson} {v : Json} {q r : List Place} {p : Place} {items : List Json}
  {members : List (List UInt8 × Json)} {Q : Place → Prop} {V : Scalar → Prop} {a : Atom}

theorem follow_append (v : Json) (q r : List Place) :
    v.follow (q ++ r) = (v.follow q).bind fun u => u.follow r := by
  induction q generalizing v with
  | nil => rfl
  | cons p q ih =>
    rcases v with a | items | members <;> rcases p with k | i
    · rfl
    · rfl
    · rfl
    · rw [List.cons_append, follow, follow, Option.bind_assoc]
      exact congrArg (items[i.toNat]?.bind ·) (funext ih)
    · rw [List.cons_append, follow, follow, Option.bind_assoc]
      exact congrArg ((members.find? (cstr ·.1 = k)).bind ·) (funext fun m => ih m.2)
    · rfl

theorem nodeAt_atom (a : Atom) (r : List Place) :
    (atom a).nodeAt y r = if r = [] then some (.scalar (a.scalar y)) else none := by
  rcases r with _ | ⟨_ | _, _⟩ <;> rfl

theorem nodeAt_empty (isArr : Bool) (r : List Place) :
    (if isArr then arr [] else obj []).nodeAt y r =
      if r = [] then some (.container isArr) else none := by
  rcases isArr <;> rcases r with _ | ⟨_ | i, r⟩ <;> rfl

theorem used_of_nodeAt (h : v.All (Over Q)) (hn : v.nodeAt y (q ++ [p]) ≠ none) : Q p := by
  have hlast : ∀ u : Json, u.All (Over Q) → u.follow [p] ≠ none → Q p := by
    intro u hu hp
    rcases u with a | items | members <;> rcases p with k | i <;> try exact absurd rfl hp
    · have hi : i.toNat < items.length := by
        by_contra hge
        exact hp (by rw [follow, List.getElem?_eq_none (not_lt.mp hge)]; rfl)
      have hQ := hu.self.2 i.toNat hi
      rwa [UInt32.ofNat_toNat] at hQ
    · cases hf : members.find? (cstr ·.1 = k) with
      | none => exact absurd (by rw [follow, hf]; rfl) hp
      | some m =>
        have hQ := hu.self.2 m (List.mem_of_find?_eq_some hf)
        have hk : cstr m.1 = k := by simpa using List.find?_some hf
        rwa [hk] at hQ
  have hbelow : ∀ q (u u' : Json), u.All (Over Q) → u.follow q = some u' → u'.All (Over Q) := by
    intro q
    induction q with
    | nil =>
      rintro u u' hu ⟨⟩
      exact hu
    | cons p q ih =>
      intro u u' hu hf
      rcases u with a | items | members <;> rcases p with k | i <;> try cases hf
      · obtain ⟨x, hx, hf⟩ := Option.bind_eq_some_iff.mp hf
        exact ih x u' ((all_arr.mp hu).2 x (List.mem_of_getElem? hx)) hf
      · obtain ⟨m, hm, hf⟩ := Option.bind_eq_some_iff.mp hf
        exact ih m.2 u' ((all_obj.mp hu).2 m (List.mem_of_find?_eq_some hm)) hf
  rw [nodeAt, Ne, Option.map_eq_none_iff, follow_append] at hn
  cases hq : v.follow q with
  | none => exact absurd (by rw [hq]; rfl) hn
  | some u =>
    rw [hq] at hn
    exact hlast u (hbelow q v u h hq) hn

end Json

/-- The document of a value -/
def Doc.ofJson (y : Yyjson) (v : Json) : Doc where
  get := v.nodeAt y
  closed q p h := by
    rw [Json.nodeAt, Option.map_eq_none_iff] at h ⊢
    rw [Json.follow_append, h]
    rfl

variable {y : Yyjson} {v u v' : Json} {q r : List Place} {p : Place} {items done : List Json}
  {members ms : List (List UInt8 × Json)} {Q : Place → Prop} {V : Scalar → Prop} {root isArr : Bool}
  {w w₀ w₁ w₂ : World} {l : Cell} {k : Call} {it : Item} {o : ℕ}

namespace World

theorem Sound.at_place (hw : w.Sound) (hq : w.At q (.nested l.isArr l.ofs)) (hl : l ∈ w.cells)
    (hk : l.isArr = p.isArr) : w.At (q ++ [p]) it ↔ l.itemAt p = some it := by
  constructor
  · intro h
    obtain ⟨l', hl', hq', -, hi⟩ := at_concat.mp h
    obtain ⟨-, ho⟩ := Item.nested.inj (hq.item_unique hw hq')
    rwa [hw.unique l hl l' hl' ho.symm] at hi
  · exact fun hi => .sub hq hl hk hi

/-- The value is at the path, and other paths lead where they led. -/
structure Planted (y : Yyjson) (Q : Place → Prop) (V : Scalar → Prop) (root : Bool) (w : World)
    (q : List Place) (v : Json) (w' : World) : Prop where
  reached : w'.Reached Q V root
  below : ∀ r n, (∃ it, w'.At (q ++ r) it ∧ it.node = n) ↔ v.nodeAt y r = some n
  other : ∀ r it, ¬ q <+: r → (w'.At r it ↔ w.At r it)

theorem Puts.planted (hp : w.Puts k l p it) (hw : w.Sound) (hw' : (w.step k).Reached Q V root)
    (hq : w.At q (.nested l.isArr l.ofs)) (hl : l ∈ w.cells) (hk : l.isArr = p.isArr)
    (hv : ∀ r, v.nodeAt y r = if r = [] then some it.node else none) :
    Planted y Q V root w (q ++ [p]) v (w.step k) where
  reached := hw'
  below r n := by
    simp only [hp.at_iff hw hw'.sound hq hl hk, hv]
    constructor
    · rintro ⟨it', ⟨hr, rfl⟩ | ⟨hnot, -⟩, rfl⟩
      · exact if_pos (List.append_right_eq_self.mp hr)
      · exact absurd (List.prefix_append _ _) hnot
    · intro hn
      split_ifs at hn with hr
      exact ⟨it, Or.inl ⟨by rw [hr, List.append_nil], rfl⟩, Option.some_inj.mp hn⟩
  other r it' hnot := by
    rw [hp.at_iff hw hw'.sound hq hl hk]
    constructor
    · rintro (⟨rfl, -⟩ | ⟨-, hr⟩)
      · exact absurd (List.prefix_refl _) hnot
      · exact hr
    · exact fun hr => Or.inr ⟨hnot, hr⟩

theorem Planted.extend (h : Planted y Q V root w q u w₁)
    (hv : Planted y Q V root w₁ (q ++ [p]) v w₂) (hself : ∀ r, v'.nodeAt y (p :: r) = v.nodeAt y r)
    (hrest : ∀ r, (∀ r', r ≠ p :: r') → v'.nodeAt y r = u.nodeAt y r) :
    Planted y Q V root w q v' w₂ where
  reached := hv.reached
  below r n := by
    by_cases hr : ∃ r', r = p :: r'
    · obtain ⟨r', rfl⟩ := hr
      rw [hself, ← hv.below r' n, List.append_assoc]
      rfl
    · have hnot : ¬ q ++ [p] <+: q ++ r := by
        rw [List.prefix_append_right_inj]
        rintro ⟨r', rfl⟩
        exact hr ⟨r', rfl⟩
      simp only [hv.other _ _ hnot]
      rw [hrest r fun r' he => hr ⟨r', he⟩]
      exact h.below r n
  other r it hnot := by
    have hnot' : ¬ q ++ [p] <+: r := fun hp => hnot ((List.prefix_append q [p]).trans hp)
    rw [hv.other r it hnot', h.other r it hnot]

theorem Planted.itemAt (h : Planted y Q V root w q v w₁) (hq : w₁.At q (.nested l.isArr l.ofs))
    (hl : l ∈ w₁.cells) (hk : l.isArr = p.isArr) : (l.itemAt p).map Item.node = v.nodeAt y [p] := by
  apply Option.ext
  intro n
  rw [← h.below [p] n, Option.map_eq_some_iff]
  simp only [h.reached.sound.at_place hq hl hk]

end World

/-- Where a value goes that is put at the place of a container. -/
def Place.target (o : ℕ) : Place → Target
  | key k => .under o k
  | index _ => .behind o

namespace World

theorem buf_put (w : World) (o : ℕ) (x : Scalar) (p : Place) :
    (p.target o).put w.buf x = (w.step (p.put o x)).buf := by
  cases p <;> rfl

theorem buf_create (w : World) (o : ℕ) (isArr : Bool) (p : Place) :
    (p.target o).container w.buf isArr =
      ((p.made w.buf o isArr).1, (w.step (p.create o isArr)).buf) := by
  rw [Place.buf_step_create]
  cases p <;> rfl

/-- The value can be stored at every place that is free. -/
def Plants (y : Yyjson) (Q : Place → Prop) (V : Scalar → Prop) (root : Bool) (v : Json) : Prop :=
  ∀ ⦃w l q p⦄, w.Reached Q V root → w.At q (.nested l.isArr l.ofs) → l ∈ w.cells →
    l.isArr = p.isArr → Q p → w.Admits l p → l.itemAt p = none →
      (v.store y (p.target l.ofs) w.buf).2.usedSize < 2 ^ 32 →
      ∃ w', v.store y (p.target l.ofs) w.buf = (true, w'.buf) ∧ Planted y Q V root w (q ++ [p]) v w'

theorem Planted.nextIndex (h : Planted y Q V root w₀ q (.arr done) w)
    (hq : w.At q (.nested l.isArr l.ofs))
    (hl : l ∈ w.cells) (hla : l.isArr = true) (hlen : done.length + 1 < 2 ^ 26) :
    l.itemAt (.index (.ofNat done.length)) = none ∧ w.Admits l (.index (.ofNat done.length)) := by
  have hnat : ∀ n ≤ done.length, (UInt32.ofNat n).toNat = n := fun n hn =>
    UInt32.toNat_ofNat_of_lt' (show n < 2 ^ 32 by omega)
  have hitem : ∀ n ≤ done.length, (l.items[n]?).map Item.node = done[n]?.map (Json.node y) := by
    intro n hn
    have hat := h.itemAt (p := .index (.ofNat n)) hq hl hla
    rw [Json.nodeAt, Json.follow, hnat n hn] at hat
    change (l.items[(UInt32.ofNat n).toNat]?).map Item.node = _ at hat
    rw [hnat n hn] at hat
    rw [hat]
    cases done[n]? <;> rfl
  have hnone : l.items[done.length]? = none := by
    have hlast := hitem done.length le_rfl
    rwa [List.getElem?_eq_none le_rfl, Option.map_none, Option.map_eq_none_iff] at hlast
  constructor
  · change l.items[(UInt32.ofNat done.length).toNat]? = none
    rwa [hnat _ le_rfl]
  · refine ⟨?_, ?_⟩
    · rw [hnat _ le_rfl]
      refine le_antisymm ?_ (List.getElem?_eq_none_iff.mp hnone)
      by_contra hlt
      have hshort := hitem l.items.length (by omega)
      rw [List.getElem?_eq_none le_rfl, List.getElem?_eq_getElem (by omega)] at hshort
      cases hshort
    · rwa [hnat _ le_rfl]

theorem Planted.storeItems (hp : ∀ v ∈ items, Plants y Q V root v)
    (h : Planted y Q V root w₀ q (.arr done) w) (hq : w.At q (.nested true o))
    (hlen : done.length + items.length < 2 ^ 26)
    (hQ : ∀ i < done.length + items.length, Q (.index (.ofNat i)))
    (hfin : (storeItems y o items w.buf).2.usedSize < 2 ^ 32) :
    ∃ w', storeItems y o items w.buf = (true, w'.buf) ∧
      Planted y Q V root w₀ q (.arr (done ++ items)) w' := by
  induction items generalizing w done with
  | nil => exact ⟨w, by rw [storeItems], by rwa [List.append_nil]⟩
  | cons v vs ih =>
    rw [List.length_cons] at hlen hQ
    obtain ⟨l, hl, rfl, hla⟩ := hq.cell h.reached.sound
    rw [← hla] at hq
    obtain ⟨hnone, hadmits⟩ := h.nextIndex hq hl hla (by omega)
    have hmono := usedSize_store_le_storeItems y l.ofs v vs w.buf
    obtain ⟨w₁, hres, hplant⟩ :=
      hp v (by simp) (p := .index (.ofNat done.length)) h.reached hq hl hla
      (hQ _ (by omega)) hadmits hnone (hmono.trans_lt hfin)
    have hres : v.store y (.behind l.ofs) w.buf = (true, w₁.buf) := hres
    have hstep : storeItems y l.ofs (v :: vs) w.buf = storeItems y l.ofs vs w₁.buf := by
      rw [storeItems, hres]
    have hself : ¬ q ++ [.index (.ofNat done.length)] <+: q := fun hp => by simpa using hp.length_le
    have hnat : (UInt32.ofNat done.length).toNat = done.length :=
      UInt32.toNat_ofNat_of_lt' (show done.length < 2 ^ 32 by omega)
    rw [hstep] at hfin ⊢
    have hnext : Planted y Q V root w₀ q (.arr (done ++ [v])) w₁ := by
      refine h.extend hplant (fun r => ?_) fun r hr => ?_
      · rw [Json.nodeAt, Json.follow, hnat, List.getElem?_concat_length]
        rfl
      · rcases r with _ | ⟨k | i, r⟩
        · rfl
        · rfl
        · rw [Json.nodeAt, Json.nodeAt, Json.follow, Json.follow, List.getElem?_append]
          split_ifs with hi
          · rfl
          · have hne : i.toNat ≠ done.length := by
              intro he
              refine hr r (congrArg (Place.index · :: r) ?_)
              rw [← he, UInt32.ofNat_toNat]
            rw [List.getElem?_eq_none (by simp; omega), List.getElem?_eq_none (by omega)]
    have hat := (hplant.other q _ hself).mpr hq
    rw [hla] at hat
    obtain ⟨w', hres', hplant'⟩ := ih (fun u hu => hp u (List.mem_cons_of_mem _ hu)) hnext hat
      (by simpa [Nat.add_assoc, Nat.add_comm 1] using hlen)
      (by simpa [Nat.add_assoc, Nat.add_comm 1] using hQ) hfin
    exact ⟨w', hres', by simpa using hplant'⟩

theorem Planted.newKey (h : Planted y Q V root w₀ q (.obj ms) w)
    (hq : w.At q (.nested l.isArr l.ofs))
    (hl : l ∈ w.cells) (hla : l.isArr = false) {key : List UInt8} (hshort : key.length ≤ 62)
    (hnew : djb2Hash key ∉ ms.map fun m => djb2Hash (cstr m.1)) :
    l.itemAt (.key key) = none ∧ w.Admits l (.key key) := by
  have hknown : ∀ k, l.fields k ≠ none → djb2Hash k ≠ djb2Hash key := by
    intro k hk heq
    have hat := h.itemAt (p := .key k) hq hl hla
    rw [Json.nodeAt, Json.follow] at hat
    change (l.fields k).map Item.node = _ at hat
    cases hf : ms.find? (cstr ·.1 = k) with
    | none =>
      rw [hf, Option.bind_none, Option.map_none, Option.map_eq_none_iff] at hat
      exact hk hat
    | some m =>
      have hm : cstr m.1 = k := by simpa using List.find?_some hf
      exact hnew (List.mem_map.mpr ⟨m, List.mem_of_find?_eq_some hf, by rw [hm, heq]⟩)
  constructor
  · by_contra hne
    exact hknown key hne rfl
  · exact ⟨hshort, h.reached.sound.routed_of_new hl hla hknown⟩

theorem Planted.storeMembers (hp : ∀ m ∈ members, Plants y Q V root m.2)
    (h : Planted y Q V root w₀ q (.obj ms) w) (hq : w.At q (.nested false o))
    (hshort : ∀ m ∈ members, (cstr m.1).length ≤ 62)
    (hnodup : ((ms ++ members).map fun m => djb2Hash (cstr m.1)).Nodup)
    (hQ : ∀ m ∈ members, Q (.key (cstr m.1)))
    (hfin : (storeMembers y o members w.buf).2.usedSize < 2 ^ 32) :
    ∃ w', storeMembers y o members w.buf = (true, w'.buf) ∧
      Planted y Q V root w₀ q (.obj (ms ++ members)) w' := by
  induction members generalizing w ms with
  | nil => exact ⟨w, by rw [storeMembers], by rwa [List.append_nil]⟩
  | cons m rest ih =>
    obtain ⟨key, v⟩ := m
    obtain ⟨l, hl, rfl, hla⟩ := hq.cell h.reached.sound
    rw [← hla] at hq
    have hnew : djb2Hash (cstr key) ∉ ms.map fun m => djb2Hash (cstr m.1) := by
      rw [List.map_append, List.nodup_append] at hnodup
      exact fun hmem => hnodup.2.2 _ hmem _ (by simp) rfl
    obtain ⟨hnone, hadmits⟩ := h.newKey hq hl hla (hshort _ List.mem_cons_self) hnew
    have hmono := usedSize_store_le_storeMembers y l.ofs (key, v) rest w.buf
    obtain ⟨w₁, hres, hplant⟩ := hp _ List.mem_cons_self (p := .key (cstr key)) h.reached hq hl hla
      (hQ _ List.mem_cons_self) hadmits hnone (hmono.trans_lt hfin)
    have hres : v.store y (.under l.ofs (cstr key)) w.buf = (true, w₁.buf) := hres
    have hstep : storeMembers y l.ofs ((key, v) :: rest) w.buf =
        storeMembers y l.ofs rest w₁.buf := by
      rw [storeMembers, hres]
    have hself : ¬ q ++ [.key (cstr key)] <+: q := fun hp => by simpa using hp.length_le
    rw [hstep] at hfin ⊢
    have hnext : Planted y Q V root w₀ q (.obj (ms ++ [(key, v)])) w₁ := by
      refine h.extend hplant (fun r => ?_) fun r hr => ?_
      · have hnot : ms.find? (cstr ·.1 = cstr key) = none := by
          rw [List.find?_eq_none]
          intro m hm heq
          exact hnew (List.mem_map.mpr ⟨m, hm, by rw [of_decide_eq_true heq]⟩)
        rw [Json.nodeAt, Json.follow, List.find?_append, hnot]
        simp [Json.nodeAt]
      · rcases r with _ | ⟨k | i, r⟩
        · rfl
        · have hne : cstr key ≠ k := fun he => hr r (congrArg (Place.key · :: r) he.symm)
          rw [Json.nodeAt, Json.nodeAt, Json.follow, Json.follow, List.find?_append]
          simp [hne]
        · rfl
    have hat := (hplant.other q _ hself).mpr hq
    rw [hla] at hat
    obtain ⟨w', hres', hplant'⟩ := ih (fun u hu => hp u (List.mem_cons_of_mem _ hu)) hnext hat
      (fun u hu => hshort u (List.mem_cons_of_mem _ hu)) (by simpa using hnodup)
      (fun u hu => hQ u (List.mem_cons_of_mem _ hu)) hfin
    exact ⟨w', hres', by simpa using hplant'⟩

theorem Reached.plants_empty (h : w.Reached Q V root) (hq : w.At q (.nested l.isArr l.ofs))
    (hl : l ∈ w.cells) (hk : l.isArr = p.isArr) (hQ : Q p) (hp : w.Admits l p)
    (hnone : l.itemAt p = none) (hQ' : ∃ p', Q p' ∧ p'.isArr = isArr)
    (hfin : ((p.target l.ofs).container w.buf isArr).2.usedSize < 2 ^ 32) :
    ∃ o w₁, (p.target l.ofs).container w.buf isArr = (some o, w₁.buf) ∧
      w₁.buf.started o isArr = w₁.buf ∧
      Planted y Q V root w (q ++ [p]) (if isArr then .arr [] else .obj []) w₁ ∧
      w₁.At (q ++ [p]) (.nested isArr o) := by
  rw [buf_create] at hfin ⊢
  obtain ⟨o, ho, hputs, hreached⟩ := h.makes hl hk hQ hp hnone hQ' hfin
  have hat := (hputs.at_iff h.sound hreached.sound hq hl hk).mpr (Or.inl ⟨rfl, rfl⟩)
  refine ⟨o, _, by rw [ho], ?_, hputs.planted h.sound hreached hq hl hk (Json.nodeAt_empty isArr),
    hat⟩
  refine if_neg fun hzero => ?_
  obtain ⟨e, he, heo, hec⟩ := hat.root_mem
  have hroot : (w.step (p.create l.ofs isArr)).At [] (.nested e.isArr 0) := .root he heo hec
  have hnil := hat.path_unique hreached.sound (hzero.1 ▸ hroot)
  simp at hnil

/-- Every value with short keys of distinct hashes in each object is planted. -/
theorem plants_of_keyed (hkeyed : v.All Json.Keyed) (hover : v.All (Json.Over Q))
    (hV : v.All (Json.Valued y V)) : Plants y Q V root v := by
  induction v with
  | atom a =>
    intro w l q p h hq hl hk hQ hp _ hfin
    rw [Json.store, buf_put] at hfin
    obtain ⟨hputs, hreached⟩ := h.fills hl hk hQ hp hV.self hfin
    exact ⟨_, by rw [Json.store, buf_put], hputs.planted h.sound hreached hq hl hk
      (Json.nodeAt_atom a)⟩
  | arr items ih =>
    obtain ⟨hlen, hkeyed⟩ := Json.all_arr.mp hkeyed
    obtain ⟨⟨⟨i, hi⟩, hQs⟩, hover⟩ := Json.all_arr.mp hover
    have hV := (Json.all_arr.mp hV).2
    intro w l q p h hq hl hk hQ hp hnone hfin
    have hmono := usedSize_container_le_store_arr y items (p.target l.ofs) w.buf
    have hQ' : ∃ p', Q p' ∧ p'.isArr = true := ⟨.index i, hi, rfl⟩
    obtain ⟨o, w₁, hres, hstart, hplant, hat⟩ := h.plants_empty (y := y) hq hl hk hQ hp hnone hQ'
      (hmono.trans_lt hfin)
    have hstep : (Json.arr items).store y (p.target l.ofs) w.buf = storeItems y o items w₁.buf := by
      rw [Json.store, hres]
      exact congrArg _ hstart
    rw [hstep] at hfin ⊢
    exact hplant.storeItems (fun u hu => ih u hu (hkeyed u hu) (hover u hu) (hV u hu)) hat
      (by simpa using show items.length < 2 ^ 26 from hlen) (by simpa using hQs) hfin
  | obj members ih =>
    obtain ⟨⟨hshort, hnodup⟩, hkeyed⟩ := Json.all_obj.mp hkeyed
    obtain ⟨⟨⟨k, hk'⟩, hQs⟩, hover⟩ := Json.all_obj.mp hover
    have hV := (Json.all_obj.mp hV).2
    intro w l q p h hq hl hk hQ hp hnone hfin
    have hmono := usedSize_container_le_store_obj y members (p.target l.ofs) w.buf
    have hQ' : ∃ p', Q p' ∧ p'.isArr = false := ⟨.key k, hk', rfl⟩
    obtain ⟨o, w₁, hres, hstart, hplant, hat⟩ := h.plants_empty (y := y) hq hl hk hQ hp hnone hQ'
      (hmono.trans_lt hfin)
    have hstep : (Json.obj members).store y (p.target l.ofs) w.buf =
        storeMembers y o members w₁.buf := by
      rw [Json.store, hres]
      exact congrArg _ hstart
    rw [hstep] at hfin ⊢
    exact hplant.storeMembers (fun u hu => ih u hu (hkeyed u hu) (hover u hu) (hV u hu)) hat hshort
      hnodup hQs hfin

theorem Planted.represents (h : Planted y Q V root w₀ [] v w) (hover : v.All (Json.Over Q)) :
    w.Represents Q V root (Doc.ofJson y v) where
  reached := h.reached
  get q n := (h.below q n).symm
  used _ _ hne := Json.used_of_nodeAt hover hne

theorem planted_start (y : Yyjson) (Q : Place → Prop) (V : Scalar → Prop) (root : Bool) :
    Planted y Q V root (start root) [] (if root then .arr [] else .obj []) (start root) where
  reached := .start
  below r n := by
    rw [List.nil_append, ← (represents_start Q V root).get r n, Json.nodeAt_empty]
    cases r <;> rfl
  other _ _ hnot := (hnot List.nil_prefix).elim

/-- A container at the root of a text is planted in a new buffer. -/
theorem planted_root (hkeyed : v.All Json.Keyed) (hover : v.All (Json.Over Q))
    (hV : v.All (Json.Valued y V)) (hroot : v.node y = .container root)
    (hfin : (fromYyjsonVal y v .empty 0).2.usedSize < 2 ^ 32) :
    ∃ w : World, fromYyjsonVal y v .empty 0 = (true, w.buf) ∧
      Planted y Q V root (start root) [] v w := by
  have hat : (start root).At [] (.nested root 0) :=
    .root (l := .new root 0 []) (List.mem_singleton_self _) rfl rfl
  have hstart := planted_start y Q V root
  cases v with
  | atom a => cases hroot
  | arr items =>
    obtain rfl : true = root := Node.container.inj hroot
    obtain ⟨hlen, hkeyed⟩ := Json.all_arr.mp hkeyed
    obtain ⟨⟨-, hQs⟩, hover⟩ := Json.all_arr.mp hover
    have hV := (Json.all_arr.mp hV).2
    have hstep : fromYyjsonVal y (.arr items) .empty 0 = storeItems y 0 items (start true).buf := by
      rw [fromYyjsonVal, Json.store, Target.container]
      exact congrArg _ (started_empty true)
    rw [hstep] at hfin ⊢
    have hstart : Planted y Q V true (start true) [] (.arr []) (start true) := hstart
    exact hstart.storeItems (fun u hu => plants_of_keyed (hkeyed u hu) (hover u hu) (hV u hu)) hat
      (by simpa using show items.length < 2 ^ 26 from hlen) (by simpa using hQs) hfin
  | obj members =>
    obtain rfl : false = root := Node.container.inj hroot
    obtain ⟨⟨hshort, hnodup⟩, hkeyed⟩ := Json.all_obj.mp hkeyed
    obtain ⟨⟨-, hQs⟩, hover⟩ := Json.all_obj.mp hover
    have hV := (Json.all_obj.mp hV).2
    have hstep : fromYyjsonVal y (.obj members) .empty 0 =
        storeMembers y 0 members (start false).buf := by
      rw [fromYyjsonVal, Json.store, Target.container]
      exact congrArg _ (started_empty false)
    rw [hstep] at hfin ⊢
    have hstart : Planted y Q V false (start false) [] (.obj []) (start false) := hstart
    exact hstart.storeMembers (fun u hu => plants_of_keyed (hkeyed u hu) (hover u hu) (hV u hu)) hat
      hshort hnodup
      hQs hfin

end World

namespace Buffer

theorem Snug.put {b : Buffer} (h : b.Snug) (x : Scalar) (t : Target) : (t.put b x).Snug := by
  cases t with
  | here => exact h
  | under ofs key => exact h.runCalls [.set ofs key x]
  | behind ofs => exact h.runCalls [.append ofs x]

theorem Snug.container {b : Buffer} (h : b.Snug) (isArr : Bool) (t : Target) :
    (t.container b isArr).2.Snug := by
  cases t with
  | here => exact h
  | under ofs key => exact h.runCalls [.create isArr ofs key]
  | behind ofs => exact h.runCalls [.appendNew isArr ofs]

theorem Snug.started {b : Buffer} (h : b.Snug) (o : ℕ) (isArr : Bool) :
    (b.started o isArr).Snug := by
  unfold Buffer.started
  split
  · exact (extends_of_reserve (n := nodeSize) (m := nodeSize)
      (by simp [initStructure, setGenType, clear])
      (by simp [initStructure]) le_rfl (Nat.le_add_right _ _)).snug h
  · exact h

theorem Snug.storeItems {o : ℕ}
    (hs : ∀ v ∈ items, ∀ t (b : Buffer), b.Snug → (v.store y t b).2.Snug)
    {b : Buffer} (h : b.Snug) : (storeItems y o items b).2.Snug := by
  induction items generalizing b with
  | nil => rwa [Lite3.storeItems]
  | cons v vs ih =>
    have hv := hs v (by simp) (.behind o) b h
    rw [Lite3.storeItems]
    split <;> rename_i heq <;> rw [heq] at hv
    · exact hv
    · exact ih (fun u hu => hs u (List.mem_cons_of_mem _ hu)) hv

theorem Snug.storeMembers {o : ℕ}
    (hs : ∀ m ∈ members, ∀ t (b : Buffer), b.Snug → (m.2.store y t b).2.Snug)
    {b : Buffer} (h : b.Snug) : (storeMembers y o members b).2.Snug := by
  induction members generalizing b with
  | nil => rwa [Lite3.storeMembers]
  | cons m ms ih =>
    have hm := hs m (by simp) (.under o (cstr m.1)) b h
    rw [Lite3.storeMembers]
    split <;> rename_i heq <;> rw [heq] at hm
    · exact hm
    · exact ih (fun u hu => hs u (List.mem_cons_of_mem _ hu)) hm

theorem Snug.store {b : Buffer} (h : b.Snug) (y : Yyjson) (v : Json) (t : Target) :
    (v.store y t b).2.Snug := by
  induction v generalizing t b with
  | atom a =>
    rw [Json.store]
    exact h.put _ t
  | arr items ih =>
    have hb := h.container true t
    rw [Json.store]
    split <;> rename_i heq <;> rw [heq] at hb
    · exact hb
    · exact (hb.started _ _).storeItems fun u hu t b hb => ih u hu hb t
  | obj members ih =>
    have hb := h.container false t
    rw [Json.store]
    split <;> rename_i heq <;> rw [heq] at hb
    · exact hb
    · exact (hb.started _ _).storeMembers fun m hm t b hb => ih m hm hb t

end Buffer

variable {valid : List UInt8 → Prop} {names : List (List UInt8)} {text : List UInt8}
  {s : Bool × Buffer} {acts : List Act} {b : Buffer} {d : Doc} {path : List Place}

/-- Acts that fit go on from the document of a text. -/
theorem parsed_represented (hproper : Place.Proper Q) (hread : y.read text = some v)
    (hroot : v.node y = .container root) (hkeyed : v.All Json.Keyed) (hover : v.All (Json.Over Q))
    (hV : v.All (Json.Valued y V)) (hparse : fromJsonString y text = .ok s)
    (hok : Loop.Allowed Act.step (Act.Fits Q) (s.2, Doc.ofJson y v) acts)
    (hvalues : ∀ st, .exec st ∈ acts → ∀ x ∈ st.value, V x.scalar)
    (hrun : acts.foldl Act.step (s.2, Doc.ofJson y v) = (b, d)) (hfin : b.usedSize < 2 ^ 32) :
    s.1 = true ∧ ∃ w : World, w.buf = b ∧ w.Represents Q V root d := by
  have hs : s = fromYyjsonVal y v .empty 0 := by
    rw [fromJsonString, hread] at hparse
    exact (Except.ok.inj hparse).symm
  have hsnug : s.2.Snug := hs ▸ Buffer.Snug.store ⟨by decide, by decide⟩ y v _
  have hle := Act.usedSize_le_steps (s := (s.2, Doc.ofJson y v)) hsnug acts
  rw [hrun] at hle
  obtain ⟨w, hstored, hplanted⟩ := World.planted_root hkeyed hover hV hroot (hs ▸ hle.trans_lt hfin)
  obtain rfl : s = (true, w.buf) := hs.trans hstored
  have hrep := (hplanted.represents hover).run hproper hok hvalues
  rw [hrun] at hrep
  exact ⟨rfl, hrep hfin⟩

/-- A text is parsed, and statements and reloads that fit follow. Then an expression whose
containers are there makes nothing and reads what the run has made of the document of the text. -/
theorem parsed_read (hproper : Place.Proper Q) (hread : y.read text = some v)
    (hroot : v.node y = .container root) (hkeyed : v.All Json.Keyed) (hover : v.All (Json.Over Q))
    (hparse : fromJsonString y text = .ok s)
    (hok : Loop.Allowed Act.step (Act.Fits Q) (s.2, Doc.ofJson y v) acts)
    (hrun : acts.foldl Act.step (s.2, Doc.ofJson y v) = (b, d)) (hfin : b.usedSize < 2 ^ 32)
    (hne : path ≠ []) (hleads : d.Leads path) :
    s.1 = true ∧ ∃ u p, path.foldl Value.indexed (some .root, b) = (some u, b) ∧ p ∈ path.getLast? ∧
      u.Agrees b p (d.get path) := by
  have hV : v.All (Json.Valued y fun _ => True) := hkeyed.imp fun u _ => by cases u <;> trivial
  obtain ⟨hs, w, rfl, hrep⟩ := parsed_represented hproper hread hroot hkeyed hover hV hparse hok
    (by simp) hrun hfin
  exact ⟨hs, hrep.reads hne hleads⟩

/-- `{"a":{"b":5},"c":["x"]}` -/
def mixedText : List UInt8 :=
  [123, 34, 97, 34, 58, 123, 34, 98, 34, 58, 53, 125, 44, 34, 99, 34, 58, 91, 34, 120, 34, 93, 125]

def mixedValue : Json :=
  .obj [([97], .obj [([98], .atom (.int 5))]), ([99], .arr [.atom (.str [120])])]

/-- `root["a"]["b"] = true; root["d"] = "x"`, with a reload in between -/
def editActs : List Act :=
  [.exec ⟨[.key [97], .key [98]], some (.bool true)⟩, .reload,
    .exec ⟨[.key [100]], some (.str [120])⟩]

def mixedYyjson : Yyjson := .sample [(mixedText, mixedValue)]

theorem mixed_over : mixedValue.All (Json.Over fourPlaces) := by
  have hk : ∃ k, fourPlaces (.key k) := ⟨[97], by decide⟩
  have hi : ∃ i, fourPlaces (.index i) := ⟨0, by decide⟩
  refine .obj ⟨hk, by decide⟩ ?_
  rintro m hm
  rcases List.mem_cons.mp hm with rfl | hm
  · exact .obj ⟨hk, by decide⟩ (by simpa using Json.All.atom trivial)
  · obtain rfl := List.mem_singleton.mp hm
    exact .arr ⟨hi, by decide⟩ (by simpa using Json.All.atom trivial)

set_option maxRecDepth 10000 in
theorem parsed_read_mixed : ∃ s, fromJsonString mixedYyjson mixedText = .ok s ∧ s.1 = true ∧
    ∃ u p, [Place.key [97], .key [98]].foldl Value.indexed
      (some .root, (editActs.foldl Act.step (s.2, Doc.ofJson mixedYyjson mixedValue)).1) =
        (some u, (editActs.foldl Act.step (s.2, Doc.ofJson mixedYyjson mixedValue)).1) ∧
      p ∈ [Place.key [97], .key [98]].getLast? ∧
      u.Agrees (editActs.foldl Act.step (s.2, Doc.ofJson mixedYyjson mixedValue)).1 p
        (some (.scalar (.bool true))) := by
  have hread : mixedYyjson.read mixedText = some mixedValue := rfl
  have hparse : fromJsonString mixedYyjson mixedText =
      .ok (fromYyjsonVal mixedYyjson mixedValue .empty 0) := by
    rw [fromJsonString, hread]
  exact ⟨_, hparse, parsed_read fourPlaces_proper hread rfl (by decide) mixed_over hparse
    (by decide +kernel) Prod.mk.eta.symm (by decide +kernel) (by decide) (by decide +kernel)⟩

/-- A text without arrays is parsed, its document is changed, and another text is printed: this one
has the scalars and the objects of the changed document, and nothing where it has nothing. -/
theorem parsed_printed (hy : y.Faithful valid) (hproper : Place.Proper (Place.Among names))
    (hnames : ∀ k ∈ names, 0 ∉ k ∧ valid k) (hlen : names.length < 2097151)
    (hread : y.read text = some v) (hroot : v.node y = .container false) (hkeyed : v.All Json.Keyed)
    (hover : v.All (Json.Over (Place.Among names))) (hparse : fromJsonString y text = .ok s)
    (hok : Loop.Allowed Act.step (Act.Fits (Place.Among names)) (s.2, Doc.ofJson y v) acts)
    (hvalues : ∀ st, .exec st ∈ acts → ∀ x ∈ st.value, x.scalar.atom.Valid valid)
    (hrun : acts.foldl Act.step (s.2, Doc.ofJson y v) = (b, d)) (hfin : b.usedSize < 2 ^ 32) :
    s.1 = true ∧ ∃ text' j, toJsonString y b 0 = .ok text' ∧ y.read text' = some j ∧
      ∀ path, (j.get path).map Json.top = (d.get (path.map .key)).map Node.top := by
  have hV : v.All (Json.Valued y fun x => x.atom.Valid valid) :=
    (hy.read _ _ hread).imp fun u hu => by
    cases u with
    | atom a => exact Atom.Valid.scalar hy hu
    | arr items => trivial
    | obj members => trivial
  obtain ⟨hs, w, rfl, hrep⟩ := parsed_represented hproper hread hroot hkeyed hover hV hparse hok
    hvalues hrun hfin
  exact ⟨hs, hrep.exported hy (fun _ => id) hnames hlen⟩

/-- In `{"a":{"b":5}}`: `root["a"]["b"] = true; root["b"] = "x"`, with a reload in between -/
def nestedActs : List Act :=
  [.exec ⟨[.key [97], .key [98]], some (.bool true)⟩, .reload,
    .exec ⟨[.key [98]], some (.str [120])⟩]

def nestedYyjson : Yyjson := .sample [(nestedText, .obj nestedMembers)]

theorem nested_over : (Json.obj nestedMembers).All (Json.Over (Place.Among [[97], [98]])) := by
  have hk : ∃ k, (Place.key k).Among [[97], [98]] := ⟨[97], by decide⟩
  have hb : (Json.obj [([98], .atom (.int 5))]).All (Json.Over (Place.Among [[97], [98]])) :=
    .obj ⟨hk, by decide⟩ (by simpa using Json.All.atom trivial)
  exact .obj ⟨hk, by decide⟩ (by simpa [nestedMembers] using hb)

set_option maxRecDepth 10000 in
theorem parsed_printed_nested : ∃ s, fromJsonString nestedYyjson nestedText = .ok s ∧ s.1 = true ∧
    ∃ text j, toJsonString nestedYyjson
        (nestedActs.foldl Act.step (s.2, Doc.ofJson nestedYyjson (.obj nestedMembers))).1 0 =
          .ok text ∧
      nestedYyjson.read text = some j ∧ ∀ path, (j.get path).map Json.top =
        ((nestedActs.foldl Act.step (s.2, Doc.ofJson nestedYyjson (.obj nestedMembers))).2.get
          (path.map .key)).map Node.top := by
  have hread : nestedYyjson.read nestedText = some (.obj nestedMembers) := rfl
  have hparse : fromJsonString nestedYyjson nestedText =
      .ok (fromYyjsonVal nestedYyjson (.obj nestedMembers) .empty 0) := by
    rw [fromJsonString, hread]
  exact ⟨_, hparse, parsed_printed (Yyjson.sample_faithful (by decide) (by decide) (by decide))
    twoKeys_proper
    (by simp) (by simp) hread rfl (by decide) nested_over hparse (by decide +kernel)
    (by simp [nestedActs, Literal.scalar, Scalar.atom, Atom.Valid]) Prod.mk.eta.symm
      (by decide +kernel)⟩

end Lite3
