import Lite3.Store.Proxy

/-! # Reading through proxies

Building a proxy makes an object for every key on the way that is absent. Those
objects are new and hold nothing but each other, and every other lookup stays
as it was. A value of another type on the way is overwritten.
-/

namespace Lite3

open Bytes Config

namespace World

/-- The key is absent or leads to one of the new objects. -/
def Blank (b : Buffer) (news : List ℕ) (ofs : ℕ) (key : List UInt8) : Prop :=
  b.fetch ofs key (djb2Hash key) false = some none ∨
    ∃ o ∈ news, b.fetch ofs key (djb2Hash key) false = some (some (.object, o, []))

/-- All that is found in the world is still found in the buffer, and what is found besides are new
objects that were absent and hold nothing but new objects. -/
structure Gains (w : World) (b : Buffer) (news : List ℕ) : Prop where
  kept : ∀ l ∈ w.cells, l.isArr = false → ∀ key r,
    w.buf.fetch l.ofs key (djb2Hash key) false = some (some r) →
      b.fetch l.ofs key (djb2Hash key) false = some (some r)
  elements : ∀ l ∈ w.cells, l.isArr = true → ∀ index,
    b.fetch l.ofs [] index true = w.buf.fetch l.ofs [] index true
  added : ∀ l ∈ w.cells, l.isArr = false → ∀ key,
    w.buf.fetch l.ofs key (djb2Hash key) false = some none → Blank b news l.ofs key
  fresh : ∀ l ∈ w.cells, l.ofs ∉ news
  new : ∀ o ∈ news, ∀ key, Blank b news o key

/-- What a new object under an absent key does to the lookups. -/
structure Adds (w : World) (ofs : ℕ) (key : List UInt8) (o : ℕ) (b : Buffer) : Prop where
  object : b.fetch ofs key (djb2Hash key) false = some (some (.object, o, []))
  empty : ∀ k, b.fetch o k (djb2Hash k) false = some none
  kept : ∀ d ∈ w.cells, d.isArr = false → ∀ k, d.ofs ≠ ofs ∨ k ≠ key →
    b.fetch d.ofs k (djb2Hash k) false = w.buf.fetch d.ofs k (djb2Hash k) false
  elements : ∀ d ∈ w.cells, d.isArr = true → ∀ index,
    b.fetch d.ofs [] index true = w.buf.fetch d.ofs [] index true
  fresh : ∀ d ∈ w.cells, d.ofs ≠ o

variable {w w₀ : World} {l l' d : Cell} {p q : Place} {path : List Place} {ks : List Call}
  {o ofs : ℕ} {key : List UInt8} {news : List ℕ}

theorem Sound.fields_eq_none (hw : w.Sound) (hl : l ∈ w.cells) (hla : l.isArr = false)
    (habs : w.buf.lookup l.ofs key = some none) : l.fields key = none := by
  have hf := hw.faithful.1 l hl hla key
  cases hit : l.fields key with
  | none => rfl
  | some it =>
    rw [hit] at hf
    obtain ⟨p, hp, -⟩ := hf
    rw [(Buffer.lookup_of_fetch hp).1] at habs
    cases habs

theorem Sound.adds (hw : w.Sound) (hlegal : (Call.create false ofs key).Legal w)
    (hr : w.buf.Routed ofs key) (habs : w.buf.lookup ofs key = some none) :
    w.ClearBehind ofs key ∧ (∀ d ∈ w.cells, ¬ d.Under ofs key) ∧
      ∃ o, w.Adds ofs key o (w.step (.create false ofs key)).buf ∧
        ∃ d ∈ (w.step (.create false ofs key)).cells, d.ofs = o ∧ d.isArr = false := by
  obtain ⟨cs, hcs⟩ := hw.backed
  obtain ⟨⟨-, l, hl, rfl, hla⟩, -⟩ := id hlegal
  have hnone := hw.fields_eq_none hl hla habs
  have hfresh : (Call.create false l.ofs key).Fresh w :=
    fun d hd ho => hw.unique l hl d hd ho ▸ hnone
  obtain ⟨hclear, hdrops⟩ := (hcs.imp fun _ _ h => h.tracks).fresh hfresh hlegal
  have hadv := hcs.advanced preserved_exact hlegal hclear hr
  obtain ⟨o, c, c', C₁, C₂, hcr⟩ := hcs.created preserved_exact hlegal hclear hr
  have hw' := hw.step hlegal hclear hr
  obtain ⟨l', hl', hb⟩ := hw.step_create hl hcr.result
  obtain ⟨d, hd, hdo, hda, hdc⟩ := hw'.closed l' hl' (some key) _ _ hb.item
  obtain ⟨o', b, hres, hempty, hother, hcells⟩ := hcr.clean hr hadv
  obtain ⟨rfl, rfl⟩ : o' = o ∧ b = (w.step (.create false l.ofs key)).buf := by
    have h := hcr.result
    rw [w.buf_step_create, hres] at *
    exact ⟨Option.some_inj.mp h, rfl⟩
  refine ⟨hclear, hdrops, o', ⟨?_, fun k => hempty k _ (by simp), fun e he hea k hne => ?_,
    fun e he hea index => ?_, fun e he ho => ?_⟩, d, hd, hdo, hda⟩
  · have hf := hw'.faithful.1 l' hl' (hb.kind.trans hla) key
    rw [show l'.fields key = _ from hb.item] at hf
    obtain ⟨p, hp, ho⟩ := hf
    rw [ho false o' rfl, hb.ofs] at hp
    exact hp
  · by_cases ho : e.ofs = l.ofs
    · rw [ho]
      exact hother k (hne.resolve_left (not_not_intro ho))
    · have h := hcells e he ho (hdrops e he) k (djb2Hash k) (by simp [hea])
      rwa [hea] at h
  · have ho : e.ofs ≠ l.ofs := fun ho => by
      rw [hw.unique l hl e he ho, hla] at hea
      cases hea
    have h := hcells e he ho (hdrops e he) [] index fun _ => rfl
    rwa [hea] at h
  · obtain ⟨e', he', ho', -, hc'⟩ := step_cell he (k := .create false l.ofs key) (hdrops e he)
    have hed := hw'.unique d hd e' he' (ho'.trans (ho.trans hdo.symm))
    refine hdrops e he ?_
    rw [Call.Drops, Cell.Under, ← hc', hed, hdc, hb.ofs]
    exact List.mem_cons_self

theorem Gains.refl (w : World) : w.Gains w.buf [] where
  kept _ _ _ _ _ h := h
  elements _ _ _ _ := rfl
  added _ _ _ _ h := Or.inl h
  fresh _ _ := List.not_mem_nil
  new _ h := absurd h List.not_mem_nil

theorem Adds.blank {b : Buffer} (h : w.Adds ofs key o b) (hd : d ∈ w.cells) (hda : d.isArr = false)
    {k : List UInt8} (hb : Blank w.buf news d.ofs k) : Blank b (o :: news) d.ofs k := by
  by_cases hne : d.ofs ≠ ofs ∨ k ≠ key
  · rw [Blank, h.kept d hd hda k hne]
    exact hb.imp_right fun ⟨o', ho', hf⟩ => ⟨o', List.mem_cons_of_mem _ ho', hf⟩
  · obtain ⟨rfl, rfl⟩ : d.ofs = ofs ∧ k = key := by
      constructor <;> by_contra hn <;> exact hne (by simp [hn])
    exact Or.inr ⟨o, List.mem_cons_self, h.object⟩

/-- One more object is added. -/
theorem Gains.add {b : Buffer} (hg : w₀.Gains w.buf news) (h : w.Adds ofs key o b)
    (habs : w.buf.fetch ofs key (djb2Hash key) false = some none)
    (hcells : ∀ l ∈ w₀.cells, ∃ d ∈ w.cells, d.ofs = l.ofs ∧ d.isArr = l.isArr)
    (hnews : ∀ o ∈ news, ∃ d ∈ w.cells, d.ofs = o ∧ d.isArr = false) :
    w₀.Gains b (o :: news) where
  kept := by
    intro l hl hla k r hr
    obtain ⟨d, hd, hdo, hda⟩ := hcells l hl
    have hk := hg.kept l hl hla k r hr
    rw [← hdo] at hk ⊢
    refine (h.kept d hd (hda.trans hla) k ?_).trans hk
    by_contra hne
    obtain ⟨ho, rfl⟩ : d.ofs = ofs ∧ k = key := by
      constructor <;> by_contra hn <;> exact hne (by simp [hn])
    rw [ho, habs] at hk
    cases hk
  elements := by
    intro l hl hla index
    obtain ⟨d, hd, hdo, hda⟩ := hcells l hl
    rw [← hg.elements l hl hla, ← hdo]
    exact h.elements d hd (hda.trans hla) index
  added := by
    intro l hl hla k hk
    obtain ⟨d, hd, hdo, hda⟩ := hcells l hl
    have hb := hg.added l hl hla k hk
    rw [← hdo] at hb ⊢
    exact h.blank hd (hda.trans hla) hb
  fresh := by
    intro l hl hm
    obtain ⟨d, hd, hdo, -⟩ := hcells l hl
    rcases List.mem_cons.mp hm with ho | hm
    · exact h.fresh d hd (hdo.trans ho)
    · exact hg.fresh l hl hm
  new := by
    intro o' ho' k
    rcases List.mem_cons.mp ho' with rfl | ho'
    · exact Or.inl (h.empty k)
    · obtain ⟨d, hd, rfl, hda⟩ := hnews o' ho'
      exact h.blank hd hda (hg.new _ ho' k)

end World

namespace Value

/-- A container is only made under an absent key, by a legal and routed call. -/
def Spares (w : World) (v : Value) (call : Option Call) : Prop :=
  ∀ k ∈ call, w.buf.lookup v.parentOfs v.key = some none ∧ k.Legal w ∧ k.Ok Buffer.Routed w

instance (w : World) (v : Value) : (call : Option Call) → Decidable (v.Spares w call)
  | none => .isTrue (by simp [Spares])
  | some k => decidable_of_iff
      (w.buf.lookup v.parentOfs v.key = some none ∧ k.Legal w ∧ k.Ok Buffer.Routed w)
      (by simp [Spares])

end Value

namespace World

/-- No key is empty, and objects are only made under absent keys. -/
def Gentle (s : Option Value × World) (q : Place) : Prop :=
  q ≠ .key [] ∧ ∀ v ∈ s.1, v.Spares s.2 (v.makes s.2.buf q.isArr)

instance : (s : Option Value × World) → (q : Place) → Decidable (Gentle s q)
  | (none, _), q => decidable_of_iff (q ≠ .key []) (by simp [Gentle])
  | (some v, w), q => decidable_of_iff (q ≠ .key [] ∧ v.Spares w (v.makes w.buf q.isArr))
      (by simp [Gentle])

variable {w w₀ : World} {l l' d : Cell} {p q : Place} {path : List Place} {ks : List Call}
  {o ofs : ℕ} {key : List UInt8} {news : List ℕ}

/-- The cells that were there and the new objects are still there. -/
structure Holds (w₀ w : World) (news : List ℕ) : Prop where
  gains : w₀.Gains w.buf news
  cells : ∀ l ∈ w₀.cells, ∃ d ∈ w.cells, d.ofs = l.ofs ∧ d.isArr = l.isArr
  news : ∀ o ∈ news, ∃ d ∈ w.cells, d.ofs = o ∧ d.isArr = false

theorem Holds.follow (h : w₀.Holds w news) (hs : Stands w path l (.key key)) (hw : w.Sound)
    {k : List UInt8} (hok : Gentle (some (.of l.ofs (.key key)), w) (.key k)) :
    ∃ d w' news', World.follow (some (.of l.ofs (.key key)), w) (.key k) =
        (some (.of d.ofs (.key k)), w') ∧
      w'.Sound ∧ Stands w' (path ++ [.key k]) d (.key k) ∧ w₀.Holds w' news' := by
  obtain ⟨hk, hspare⟩ := hok
  have hspare := hspare _ rfl
  rw [Place.makes_of hs.ne_nil] at hspare
  rcases hw.faithful.found hs.mem hs.kind false with ⟨o, hi, hf⟩ | ⟨-, e, hf⟩
  · obtain ⟨d, hv, hd⟩ := hs.follow_found (q := .key k) hw hk hi hf
    exact ⟨d, w, news, hv, hw, hd, h⟩
  · rw [show (Place.key k).isArr = false from rfl, hf] at hspare
    obtain ⟨habs, hlegal, hr⟩ := hspare _ rfl
    obtain ⟨hclear, hunder, o, hadds, dₒ, hdₒ, hdₒo, hdₒa⟩ := hw.adds hlegal hr habs
    have hallow : (Value.of l.ofs (.key key)).Allows w
        (some ((Place.key key).create l.ofs false)) := by
      rintro _ ⟨⟩
      exact ⟨hlegal, hclear, hr, by simp [Value.of]⟩
    obtain ⟨hw', d, hv, hd⟩ := hs.follow_made (q := .key k) hw hk hf hallow
    have hstays : ∀ e ∈ w.cells, ∃ e' ∈ (w.step (.create false l.ofs key)).cells,
        e'.ofs = e.ofs ∧ e'.isArr = e.isArr := by
      intro e he
      obtain ⟨e', he', ho, ha, -⟩ := step_cell (k := .create false l.ofs key) he (hunder e he)
      exact ⟨e', he', ho, ha⟩
    refine ⟨d, _, o :: news, hv, hw', hd, h.gains.add hadds ?_ h.cells h.news, fun e he => ?_,
      fun o' ho' => ?_⟩
    · have hf := hw.faithful.1 l hs.mem hs.kind key
      have hnone : l.fields key = none := hw.fields_eq_none hs.mem hs.kind habs
      rwa [hnone] at hf
    · obtain ⟨e', he', ho, ha⟩ := h.cells e he
      obtain ⟨e'', he'', ho', ha'⟩ := hstays e' he'
      exact ⟨e'', he'', ho'.trans ho, ha'.trans ha⟩
    · rcases List.mem_cons.mp ho' with rfl | ho'
      · exact ⟨dₒ, hdₒ, hdₒo, hdₒa⟩
      · obtain ⟨e, he, ho, ha⟩ := h.news o' ho'
        obtain ⟨e', he', ho'', ha'⟩ := hstays e he
        exact ⟨e', he', ho''.trans ho, ha'.trans ha⟩

theorem Holds.follows (h : w₀.Holds w news) (hs : Stands w path l (.key key)) (hw : w.Sound)
    {keys : List (List UInt8)}
    (hok : Loop.Allowed World.follow Gentle (some (.of l.ofs (.key key)), w) (keys.map .key)) :
    ∃ v w' news', (keys.map Place.key).foldl World.follow (some (.of l.ofs (.key key)), w) =
      (some v, w') ∧
      w₀.Gains w'.buf news' := by
  induction keys generalizing w l key path news with
  | nil => exact ⟨_, w, news, rfl, h.gains⟩
  | cons k keys ih =>
    obtain ⟨d, w', news', hv, hw', hs', h'⟩ := h.follow hs hw hok.1
    have hrest := hok.2
    rw [hv] at hrest
    obtain ⟨v, w'', news'', hf, hg⟩ := ih h' hs' hw' hrest
    refine ⟨v, w'', news'', ?_, hg⟩
    rw [List.map_cons, List.foldl_cons, hv, hf]

/-- Reading through a proxy, which is building it, adds new objects under absent keys and changes
nothing else, as long as no key on the way holds another type. -/
theorem reading_gains (h : Careful false ks) (keys : List (List UInt8))
    (hok : Loop.Allowed follow Gentle (some .root, (start false).run ks) (keys.map .key)) :
    ∃ v b news, (keys.map Place.key).foldl Value.indexed (some .root, ((start false).run ks).buf) =
        (some v, b) ∧ ((start false).run ks).Gains b news := by
  cases keys with
  | nil => exact ⟨_, _, [], rfl, .refl _⟩
  | cons k keys =>
    obtain ⟨l, hl, ho, ha, -⟩ := (hasRoot_start false).run ks
    have hs : Stands ((start false).run ks) [.key k] l (.key k) := .root hl ho ha hok.1.1
    have hroot : follow (some .root, (start false).run ks) (.key k) =
        (some (.of l.ofs (.key k)), (start false).run ks) := by
      rw [follow, Place.indexed_some, ho]
      rfl
    have hrest := hok.2
    rw [hroot] at hrest
    have hstart : ((start false).run ks).Holds ((start false).run ks) [] :=
      ⟨.refl _, fun l hl => ⟨l, hl, rfl, rfl⟩, by simp⟩
    obtain ⟨v, w', news, hf, hg⟩ := hstart.follows hs h.sound hrest
    refine ⟨v, w'.buf, news, ?_, hg⟩
    have heval := indexed_foldl (some .root, (start false).run ks) ((k :: keys).map .key)
    have hv : ((k :: keys).map Place.key).foldl follow (some .root, (start false).run ks) =
        (some v, w') := by
      rw [List.map_cons, List.foldl_cons, hroot, hf]
    rwa [hv] at heval

/-- An object, one in it and a number. -/
def twoLevels : List Call := [.create false 0 [97], .create false 100 [98], .set 0 [99] (.i64 5)]

set_option maxRecDepth 10000 in
theorem reading_gains_deep : ∃ v b news,
    ([[97], [98], [100], [101]].map Place.key).foldl Value.indexed
      (some .root, ((start false).run twoLevels).buf) = (some v, b) ∧
      ((start false).run twoLevels).Gains b news := by
  have hok : Loop.Allowed follow Gentle (some .root, (start false).run twoLevels)
      ([[97], [98], [100], [101]].map Place.key) := by decide +kernel
  exact reading_gains (by decide +kernel) _ hok

set_option maxRecDepth 10000 in
/-- Building `root["c"]["d"]` overwrites the number under `c`. -/
theorem reading_overwrites :
    ¬ ∀ ks (keys : List (List UInt8)), Careful false ks → (∀ k ∈ keys, k ≠ []) →
    ∃ v b news, (keys.map Place.key).foldl Value.indexed
        (some .root, ((start false).run ks).buf) = (some v, b) ∧
      ((start false).run ks).Gains b news := by
  intro h
  obtain ⟨v, b, news, hv, hg⟩ := h twoLevels [[99], [100]] (by decide +kernel) (by decide)
  obtain ⟨l, hl, ho, ha⟩ : ∃ l ∈ ((start false).run twoLevels).cells, l.ofs = 0 ∧
      l.isArr = false := by
    decide +kernel
  have hkept := hg.kept l hl ha [99] (.int64, 300, [5, 0, 0, 0, 0, 0, 0, 0])
  rw [ho] at hkept
  have hfound := hkept (by decide +kernel)
  cases hv
  revert hfound
  decide +kernel

end World

end Lite3
