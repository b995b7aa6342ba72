import Lite3.Layout.Positions
import Lite3.Store.Proxy

/-! # Paths

A path of keys and indices leads from the root to an item. Every container is at
the end of one path only, so a call changes what is at one path and below it and
leaves the other paths alone.
-/

namespace Lite3

open Bytes

namespace World

variable {w : World} {l l' d : Cell} {p p' : Place} {q r : List Place} {it it' : Item} {a a' : Bool}
  {o : ℕ} {k : Call} {key : List UInt8}

/-- The path leads from the root to the item. -/
inductive At (w : World) : List Place → Item → Prop

  | root {l : Cell} : l ∈ w.cells → l.ofs = 0 → l.chain = [] → At w [] (.nested l.isArr 0)

  | sub {q : List Place} {l : Cell} {p : Place} {it : Item} : At w q (.nested l.isArr l.ofs) →
    l ∈ w.cells → l.isArr = p.isArr → l.itemAt p = some it → At w (q ++ [p]) it

theorem Sound.index_unique (hw : w.Sound) (hl : l ∈ w.cells) (hla : l.isArr = true) {i j : ℕ}
    (hi : l.items[i]? = some (.nested a o)) (hj : l.items[j]? = some (.nested a' o)) : i = j := by
  obtain ⟨cs, hcs⟩ := hw.backed
  obtain ⟨c, R, -, hQ, ho⟩ := hcs.container hl
  have hc : c.isArr = true := hQ.tracks.kind.trans hla
  have hholds := (hQ.tracks.elements hc).holds
  have hofs : ∀ {n : ℕ} {a : Bool}, l.items[n]? = some (.nested a o) →
      ∃ e, c.entries[n]? = some e ∧ e.valueOfs c.isArr + 1 = o := by
    intro n a hn
    obtain ⟨hlt, hit⟩ := List.getElem?_eq_some_iff.mp hn
    have hlt' : n < c.entries.length := hholds.length_eq ▸ hlt
    rw [hc]
    exact ⟨_, List.getElem?_eq_getElem hlt', (hholds.get hlt' hlt).ofs a o hit⟩
  obtain ⟨e, he, heo⟩ := hofs hi
  obtain ⟨f, hf, hfo⟩ := hofs hj
  exact Container.valueOfs_inj ho he hf (by omega)

theorem at_nil : w.At [] it ↔ ∃ l ∈ w.cells, l.ofs = 0 ∧ l.chain = [] ∧ it = .nested l.isArr 0 := by
  constructor
  · intro h
    generalize hq : ([] : List Place) = q at h
    cases h with
    | root hl ho hc => exact ⟨_, hl, ho, hc, rfl⟩
    | sub => simp at hq
  · rintro ⟨l, hl, ho, hc, rfl⟩
    exact .root hl ho hc

theorem at_concat : w.At (q ++ [p]) it ↔ ∃ l ∈ w.cells, w.At q (.nested l.isArr l.ofs) ∧
    l.isArr = p.isArr ∧ l.itemAt p = some it := by
  constructor
  · intro h
    generalize hr : q ++ [p] = r at h
    cases h with
    | root => simp at hr
    | sub hq hl hk hi =>
      obtain ⟨rfl, rfl⟩ := List.append_singleton_inj.mp hr
      exact ⟨_, hl, hq, hk, hi⟩
  · rintro ⟨l, hl, hq, hk, hi⟩
    exact .sub hq hl hk hi

theorem At.root_mem (h : w.At q it) : ∃ l ∈ w.cells, l.ofs = 0 ∧ l.chain = [] := by
  induction h with
  | root hl ho hc => exact ⟨_, hl, ho, hc⟩
  | sub _ _ _ _ ih => exact ih

theorem At.item_unique (hw : w.Sound) (h : w.At q it) (h' : w.At q it') : it = it' := by
  induction q using List.reverseRecOn generalizing it it' with
  | nil =>
    obtain ⟨l, hl, ho, -, rfl⟩ := at_nil.mp h
    obtain ⟨l', hl', ho', -, rfl⟩ := at_nil.mp h'
    rw [hw.unique l hl l' hl' (ho'.trans ho.symm)]
  | append_singleton q p ih =>
    obtain ⟨l, hl, hq, -, hi⟩ := at_concat.mp h
    obtain ⟨l', hl', hq', -, hi'⟩ := at_concat.mp h'
    obtain ⟨-, ho⟩ := Item.nested.inj (ih hq hq')
    rw [hw.unique l hl l' hl' ho.symm, hi] at hi'
    exact Option.some_inj.mp hi'

theorem At.last (hw : w.Sound) (h : w.At (q ++ [p]) (.nested a o)) : ∃ l ∈ w.cells, ∃ d ∈ w.cells,
    w.At q (.nested l.isArr l.ofs) ∧ l.itemAt p = some (.nested a o) ∧ l.isArr = p.isArr ∧
      d.ofs = o ∧ d.isArr = a ∧ d.chain = (l.ofs, p.link) :: l.chain := by
  obtain ⟨l, hl, hq, hk, hi⟩ := at_concat.mp h
  obtain ⟨d, hd, hdo, hda, hdc⟩ := hw.closed l hl _ _ _ (Cell.has_of_itemAt hi)
  exact ⟨l, hl, d, hd, hq, hi, hk, hdo, hda, hdc⟩

theorem At.cell (hw : w.Sound) (h : w.At q (.nested a o)) :
    ∃ l ∈ w.cells, l.ofs = o ∧ l.isArr = a := by
  cases q using List.reverseRecOn with
  | nil =>
    obtain ⟨l, hl, ho, -, hit⟩ := at_nil.mp h
    obtain ⟨rfl, rfl⟩ := Item.nested.inj hit
    exact ⟨l, hl, ho, rfl⟩
  | append_singleton q p =>
    obtain ⟨-, -, d, hd, -, -, -, hdo, hda, -⟩ := h.last hw
    exact ⟨d, hd, hdo, hda⟩

/-- A container is at the end of one path. -/
theorem At.path_unique (hw : w.Sound) (h : w.At q (.nested a o)) (h' : w.At r (.nested a' o)) :
    q = r := by
  have hroot : ∀ {q p a a' o}, w.At [] (.nested a o) → ¬ w.At (q ++ [p]) (.nested a' o) := by
    intro q p a a' o h h'
    obtain ⟨l, hl, ho, hc, hit⟩ := at_nil.mp h
    obtain ⟨-, rfl⟩ := Item.nested.inj hit
    obtain ⟨_, _, d, hd, -, -, -, hdo, -, hdc⟩ := h'.last hw
    rw [hw.unique l hl d hd (hdo.trans ho.symm), hc] at hdc
    cases hdc
  induction q using List.reverseRecOn generalizing r a a' o with
  | nil =>
    cases r using List.reverseRecOn with
    | nil => rfl
    | append_singleton r p => exact absurd h' (hroot h)
  | append_singleton q p ih =>
    cases r using List.reverseRecOn with
    | nil => exact absurd h (hroot h')
    | append_singleton r p' =>
      obtain ⟨l, hl, d, hd, hq, hi, hk, hdo, -, hdc⟩ := h.last hw
      obtain ⟨l', hl', d', hd', hr, hi', -, hdo', -, hdc'⟩ := h'.last hw
      rw [hw.unique d hd d' hd' (hdo'.trans hdo.symm), hdc] at hdc'
      obtain ⟨hhead, -⟩ := List.cons.inj hdc'
      obtain ⟨ho, hlink⟩ := Prod.mk.inj hhead
      obtain rfl := hw.unique l hl l' hl' ho.symm
      rw [ih hq hr]
      cases p with
      | key k =>
        cases p' with
        | key k' => rw [Option.some_inj.mp hlink]
        | index i => cases hlink
      | index i =>
        cases p' with
        | key k' => cases hlink
        | index j =>
          have hij := hw.index_unique hl hk hi hi'
          rw [UInt32.toNat_inj.mp hij]

theorem At.under (hw : w.Sound) (h : w.At r (.nested d.isArr d.ofs)) (hd : d ∈ w.cells)
    (hq : w.At q (.nested l.isArr l.ofs)) (hu : d.Under l.ofs key) : q ++ [.key key] <+: r := by
  induction r using List.reverseRecOn generalizing d with
  | nil =>
    obtain ⟨l₀, hl₀, ho, hc, hit⟩ := at_nil.mp h
    rw [hw.unique d hd l₀ hl₀ (ho.trans (Item.nested.inj hit).2.symm)] at hc
    rw [Cell.Under, hc] at hu
    cases hu
  | append_singleton r p ih =>
    obtain ⟨l₀, hl₀, d', hd', hr, -, -, hdo, -, hdc⟩ := h.last hw
    rw [hw.unique d hd d' hd' hdo] at hdc
    rw [Cell.Under, hdc] at hu
    rcases List.mem_cons.mp hu with he | hu
    · obtain ⟨ho, hlink⟩ := Prod.mk.inj he
      rw [← ho] at hr
      rw [hq.path_unique hw hr]
      cases p with
      | key k => rw [Option.some_inj.mp hlink]
      | index i => cases hlink
    · exact (ih hr hl₀ hu).trans (List.prefix_append r [p])

/-- The call puts the item at the place, and a container that it puts there is empty. -/
structure Puts (w : World) (k : Call) (l : Cell) (p : Place) (it : Item) : Prop where
  ofs : k.ofs = l.ofs
  hides : ∀ d, k.Hides d → ∃ key, p = .key key ∧ d.Under l.ofs key
  cell : ∃ l' ∈ (w.step k).cells, l.Becomes l' p it ∧ ∀ p', p' ≠ p → l'.itemAt p' = l.itemAt p'
  empty : ∀ a o, it = .nested a o → ∃ d ∈ (w.step k).cells, d.ofs = o ∧ ∀ p', d.itemAt p' = none

variable {w' : World}

theorem Puts.stays (h : w.Puts k l p it) (hw : w.Sound) (hq : w.At q (.nested l.isArr l.ofs))
    (hl : l ∈ w.cells) (hr : w.At r (.nested d.isArr d.ofs)) (hd : d ∈ w.cells)
    (hnot : ¬ q ++ [p] <+: r) : ∃ d' ∈ (w.step k).cells, d'.ofs = d.ofs ∧ d'.isArr = d.isArr ∧
      d'.chain = d.chain ∧ ∀ p', r ++ [p'] ≠ q ++ [p] → d'.itemAt p' = d.itemAt p' := by
  by_cases hdl : d.ofs = l.ofs
  · obtain rfl := hw.unique l hl d hd hdl
    obtain ⟨l', hl', hb, hother⟩ := h.cell
    rw [hq.path_unique hw hr]
    exact ⟨l', hl', hb.ofs, hb.kind, hb.chain, fun p' hne => hother p' fun he => hne (he ▸ rfl)⟩
  · refine ⟨d, step_kept hd (h.ofs ▸ hdl) fun hh => ?_, rfl, rfl, rfl, fun _ _ => rfl⟩
    obtain ⟨key, rfl, hu⟩ := h.hides d hh
    exact hnot (hr.under hw hd hq hu)

/-- After the call the item is at the place, what was below it is gone, and the rest is as it
was. -/
theorem Puts.at_iff (h : w.Puts k l p it) (hw : w.Sound) (hw' : (w.step k).Sound)
    (hq : w.At q (.nested l.isArr l.ofs)) (hl : l ∈ w.cells) (hk : l.isArr = p.isArr) :
    (w.step k).At r it' ↔ (r = q ++ [p] ∧ it' = it) ∨ (¬ q ++ [p] <+: r ∧ w.At r it') := by
  have hkept : ∀ {r it'}, ¬ q ++ [p] <+: r → w.At r it' → (w.step k).At r it' := by
    intro r it' hnot hr
    induction r using List.reverseRecOn generalizing it' with
    | nil =>
      obtain ⟨d, hd, ho, hc, rfl⟩ := at_nil.mp hr
      obtain ⟨d', hd', ho', ha', hc', -⟩ := h.stays hw hq hl (ho ▸ hr) hd hnot
      exact at_nil.mpr ⟨d', hd', ho'.trans ho, hc'.trans hc, ha' ▸ rfl⟩
    | append_singleton r p' ih =>
      obtain ⟨d, hd, hrd, hkd, hi⟩ := at_concat.mp hr
      have hnot' : ¬ q ++ [p] <+: r := fun hp => hnot (hp.trans (List.prefix_append r [p']))
      obtain ⟨d', hd', ho', ha', -, hother⟩ := h.stays hw hq hl hrd hd hnot'
      have hne : r ++ [p'] ≠ q ++ [p] := fun he => hnot (he ▸ List.prefix_refl _)
      refine at_concat.mpr ⟨d', hd', ?_, ha'.trans hkd, (hother p' hne).trans hi⟩
      rw [ho', ha']
      exact ih hnot' hrd
  have hself : ¬ q ++ [p] <+: q := fun hp => by simpa using hp.length_le
  obtain ⟨l', hl', hb, -⟩ := h.cell
  constructor
  · intro hr
    induction r using List.reverseRecOn generalizing it' with
    | nil =>
      obtain ⟨d, hd, ho, hc⟩ := hq.root_mem
      have hroot : w.At [] (.nested d.isArr 0) := .root hd ho hc
      have hnil : ¬ q ++ [p] <+: [] := by simp
      refine Or.inr ⟨hnil, ?_⟩
      rwa [hr.item_unique hw' (hkept hnil hroot)]
    | append_singleton r p' ih =>
      obtain ⟨d', hd', hrd, hkd, hi⟩ := at_concat.mp hr
      rcases ih hrd with ⟨rfl, hit⟩ | ⟨hnot, hrw⟩
      · obtain ⟨e, he, heo, hnone⟩ := h.empty _ _ hit.symm
        rw [← hw'.unique d' hd' e he heo, hnone] at hi
        cases hi
      · obtain ⟨d, hd, ho, ha⟩ := hrw.cell hw
        rw [← ho, ← ha] at hrw
        obtain ⟨e, he, heo, -, -, hother⟩ := h.stays hw hq hl hrw hd hnot
        obtain rfl := hw'.unique d' hd' e he (heo.trans ho)
        by_cases heq : r ++ [p'] = q ++ [p]
        · obtain ⟨rfl, rfl⟩ := List.append_singleton_inj.mp heq
          obtain ⟨-, hdl⟩ := Item.nested.inj (hrw.item_unique hw hq)
          have hel := hw'.unique l' hl' e he (heo.trans (hdl.trans hb.ofs.symm))
          rw [hel, hb.item] at hi
          exact Or.inl ⟨rfl, (Option.some_inj.mp hi).symm⟩
        · refine Or.inr ⟨fun hp => ?_, ?_⟩
          · rcases List.prefix_concat_iff.mp hp with hp | hp
            · exact heq hp.symm
            · exact hnot hp
          · rw [hother p' heq] at hi
            exact .sub hrw hd (ha.trans hkd) hi
  · rintro (⟨rfl, rfl⟩ | ⟨hnot, hr⟩)
    · refine at_concat.mpr ⟨l', hl', ?_, hb.kind.trans hk, hb.item⟩
      rw [hb.ofs, hb.kind]
      exact hkept hself hq
    · exact hkept hnot hr

end World

end Lite3
