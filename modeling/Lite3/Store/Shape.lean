import Lite3.Layout.Walk
import Lite3.Store.Base

/-! # Shape and separation

What every plain history keeps of the buffer itself: the shape of the trees, the
order of the hashes, and the places of nodes and entries apart from one another.
-/

namespace Lite3

open Bytes

namespace World

variable {Q : Container → Cell → Prop} {w : World} {cs : List Container} {isArr : Bool}
  {ks : List Call} {l : Cell}

/-- Every tree has the shape of a B-tree, and its hashes are in order. -/
def WellShaped (w : World) : Prop :=
  ∀ l ∈ w.cells,
    (∃ height, NodeView.Shape w.buf.mem (kindOf l.isArr) height true l.ofs) ∧
      ((w.buf.slots l.ofs).map Prod.fst).Pairwise (· ≤ ·)

theorem wellShaped_of_plain (h : Plain isArr ks) : ((start isArr).run ks).WellShaped := by
  intro l hl
  obtain ⟨cs, hw⟩ := h.backed
  obtain ⟨c, R, -, ht, ho⟩ := hw.container hl
  rw [← ht.ofs, ← ht.kind, Container.slots ho, List.map_map]
  exact ⟨⟨c.height, Container.shape ho⟩, List.pairwise_map.mpr ht.sorted⟩

/-- Calls on an object that split its root, on an array nested in it and on an object in that. -/
def mixed : List Call :=
  [.set 0 [1] .null, .set 0 [2] (.i64 2), .set 0 [3] .null, .set 0 [4] .null, .set 0 [5] .null,
    .create true 0 [6], .append 128 (.str [66]), .set 0 [7] (.bool true), .appendNew false 128,
    .set 0 [4] (.str [65]), .set 237 [1] .null, .append 128 (.i64 7)]

set_option maxRecDepth 10000 in
theorem wellShaped_mixed : ((start false).run mixed).WellShaped :=
  wellShaped_of_plain (by decide +kernel)

/-- The entries that the slots of all containers refer to. -/
def entryOffsets (w : World) : List ℕ :=
  w.cells.flatMap fun l => (w.buf.slots l.ofs).map Prod.snd

/-- The regions are apart, every entry has one slot, and nothing lies beyond the used size. -/
structure Separated (w : World) : Prop where
  apart : w.regions.Pairwise RegionsApart
  once : w.entryOffsets.Nodup
  below : ∀ r ∈ w.regions, r.1 + r.2 ≤ w.buf.usedSize
  fits : w.buf.usedSize ≤ w.buf.data.length
  blank : ∀ x ∈ w.buf.data.drop w.buf.usedSize, x = 0

theorem Backed.entryOffsets (hw : w.Backed Tracks cs) :
    w.entryOffsets = cs.flatMap fun c => c.entries.map Entry.ofs := by
  refine hw.flatMap_cells fun c l R ht ho => ?_
  rw [← ht.ofs, Container.slots ho, List.map_map]
  rfl

theorem nodup_ofs {b : Buffer} {ks : List Chunk} (ho : b.Owns ks)
    (hne : ∀ k ∈ ks, 0 < k.bytes.length) : (ks.map Chunk.ofs).Nodup := by
  rw [List.Nodup, List.pairwise_map]
  refine ho.apart.imp_of_mem fun hc hd ha => ?_
  have := hne _ hc
  have := hne _ hd
  unfold Chunk.Apart Chunk.stop at ha
  omega

theorem Backed.separated (hw : w.Backed Tracks cs) : w.Separated where
  apart := by
    rw [hw.regions, List.pairwise_map]
    exact hw.owns.apart
  once := by
    have hsub : (cs.flatMap fun c => c.entries.map (Entry.chunk c.isArr)).Sublist
        (cs.flatMap Container.chunks) := by
      clear hw
      induction cs with
      | nil => exact .slnil
      | cons c cs ih => exact (List.sublist_append_right _ _).append ih
    have ho : w.buf.Owns (cs.flatMap fun c => c.entries.map (Entry.chunk c.isArr)) :=
      Owned.sublist hw.owns hsub
    have hn := nodup_ofs ho fun k hk => by
      obtain ⟨c, -, hk⟩ := List.mem_flatMap.mp hk
      obtain ⟨e, -, rfl⟩ := List.mem_map.mp hk
      simp [Entry.chunk, Entry.bytes, valueBytes]
    rw [hw.entryOffsets]
    simpa [List.map_flatMap, Function.comp_def, Entry.chunk] using hn
  below := by
    rw [hw.regions]
    intro r hr
    obtain ⟨k, hk, rfl⟩ := List.mem_map.mp hr
    exact hw.owns.below k hk
  fits := hw.owns.fits
  blank := by
    intro x hx
    obtain ⟨i, hi, rfl⟩ := List.mem_iff_getElem.mp hx
    rw [List.getElem_drop, ← List.getD_eq_getElem _ 0]
    exact hw.owns.blank (w.buf.usedSize + i) (by omega)

/-- No call changes a lookup in a container that it does not address. -/
def Undisturbed (w : World) : Prop :=
  ∀ k : Call, k.Legal w → k.Fresh w → ∀ l ∈ w.cells, l.ofs ≠ k.ofs → ∀ key hash,
    (l.isArr = true → key = []) →
      (w.step k).buf.fetch l.ofs key hash l.isArr = w.buf.fetch l.ofs key hash l.isArr

theorem separated_of_plain (h : Plain isArr ks) :
    ((start isArr).run ks).Separated ∧ ((start isArr).run ks).Undisturbed := by
  obtain ⟨cs, hw⟩ := h.backed
  refine ⟨hw.separated, fun k hl hf l hlm hne key hash hkey => ?_⟩
  obtain ⟨hclear, hdrops⟩ := hw.fresh hf hl
  obtain ⟨c, R, R', ht, ho, ho'⟩ :=
    (hw.advanced preserved_tracks hl hclear (Call.ok_true _ _)).kept l hlm hne (hdrops l hlm)
  rw [← ht.kind] at hkey
  rw [← ht.ofs, ← ht.kind, Container.fetch ho hkey, Container.fetch ho' hkey]

set_option maxRecDepth 10000 in
theorem separated_mixed :
    ((start false).run mixed).Separated ∧ ((start false).run mixed).Undisturbed :=
  separated_of_plain (by decide +kernel)

end World

end Lite3
