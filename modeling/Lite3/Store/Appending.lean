import Lite3.Layout.Twin
import Lite3.Store.Lookup

/-! # In place or at the end

Two versions of insertion run over the same history: one updates entries in
place when the length fits, the other appends a fresh entry for every update.
The trees they build are alike, so lookups and iterations do not tell them
apart, whatever the keys and their hashes are.
-/

namespace Lite3

open Bytes Lite3.Tree

variable {update update' : Update} {hist : List (List UInt8 × Scalar)}

namespace Buffer

/-- Set a key of the object at offset zero with an insertion that treats the entry it finds with
`update`. -/
def setRootWith (update : Update) (b : Buffer) (p : List UInt8 × Scalar) : Buffer :=
  (b.setImplWith update 0 (setArgs p.1 p.2.type p.2.image)).2

def setAllWith (update : Update) (hist : List (List UInt8 × Scalar)) : Buffer :=
  hist.foldl (setRootWith update) Buffer.empty.initObject

theorem setAllWith_updateEntry (hist : List (List UInt8 × Scalar)) :
    setAllWith updateEntry hist = setAll hist := rfl

end Buffer

theorem usedSize_le_setAllWith (hu : ∀ a, Grows a update) (b : Buffer)
    (hist : List (List UInt8 × Scalar)) :
    b.usedSize ≤ (hist.foldl (Buffer.setRootWith update) b).usedSize := by
  induction hist generalizing b with
  | nil => exact le_rfl
  | cons p hist ih => exact (usedSize_le_setImplWith (hu _) _ _).trans (ih _)

/-- Two buffers with an object at offset zero each, the objects alike. -/
def Agreeing (b b' : Buffer) : Prop :=
  ∃ c d : Container, c.Alike d ∧ b.Owns (c.chunks ++ []) ∧ b'.Owns (d.chunks ++ []) ∧
    c.isArr = false ∧ c.ofs = 0

theorem Agreeing.setRootWith {b b' : Buffer} (hu : ∀ a, Updater update a)
    (hu' : ∀ a, Updater update' a) (h : Agreeing b b') {p : List UInt8 × Scalar}
    (hp : p.1.length ≤ 62) (hfin : (b.setRootWith update p).usedSize < 2 ^ 32)
    (hfin' : (b'.setRootWith update' p).usedSize < 2 ^ 32) :
    Agreeing (b.setRootWith update p) (b'.setRootWith update' p) := by
  obtain ⟨c, d, h, ho, ho', hc, hofs⟩ := h
  unfold Buffer.setRootWith at hfin hfin' ⊢
  rw [← hofs] at hfin hfin' ⊢
  obtain ⟨x, y, c', d', ms, ns, h', hown, hown', hup, -⟩ :=
    h.setImplWith (hu _) (hu' _) ho ho' (setArgs_writable hp p.2) hc.symm hfin hfin'
  exact ⟨c', d', h', hown, hown', hup.kind.trans hc, hup.ofs.trans hofs⟩

/-- The same history keeps the objects alike. -/
theorem Agreeing.setAllWith {b b' : Buffer} (hu : ∀ a, Updater update a)
    (hu' : ∀ a, Updater update' a) (h : Agreeing b b') (hshort : ∀ p ∈ hist, p.1.length ≤ 62)
    (hfin : (hist.foldl (Buffer.setRootWith update) b).usedSize < 2 ^ 32)
    (hfin' : (hist.foldl (Buffer.setRootWith update') b').usedSize < 2 ^ 32) :
    Agreeing (hist.foldl (Buffer.setRootWith update) b)
      (hist.foldl (Buffer.setRootWith update') b') := by
  induction hist generalizing b b' with
  | nil => exact h
  | cons p hist ih =>
    have hle := usedSize_le_setAllWith (fun a => (hu a).grows) (b.setRootWith update p) hist
    have hle' := usedSize_le_setAllWith (fun a => (hu' a).grows) (b'.setRootWith update' p) hist
    refine ih ?_ (fun q hq => hshort q (List.mem_cons_of_mem _ hq)) hfin hfin'
    exact h.setRootWith hu hu' (hshort p (by simp)) (hle.trans_lt hfin) (hle'.trans_lt hfin')

theorem Agreeing.found {b b' : Buffer} (h : Agreeing b b') (key : List UInt8) :
    ∃ r, b.found 0 key = some r ∧ b'.found 0 key = some r := by
  obtain ⟨c, d, h, ho, ho', hc, hofs⟩ := h
  have hread : b.read c.ofs key (djb2Hash key) c.isArr = b'.read c.ofs key (djb2Hash key) c.isArr :=
    h.read ho ho' (by simp [hc])
  have hfetch : b.fetch _ key (djb2Hash key) _ = _ := Container.fetch ho (by simp [hc])
  rw [hofs, hc] at hread hfetch
  obtain ⟨r, hr⟩ : ∃ r, b.found 0 key = some r := by
    rw [Buffer.found, hfetch]
    exact ⟨_, rfl⟩
  exact ⟨r, hr, hread.symm.trans hr⟩

theorem Agreeing.visit {b b' : Buffer} (h : Agreeing b b') (k : ℕ) :
    b.visit 0 k = b'.visit 0 k := by
  obtain ⟨c, d, h, ho, ho', hc, hofs⟩ := h
  rw [← hofs]
  exact h.visit ho ho' hc k

/-- Updates in place and updates that append give the same lookups and the same iteration. -/
theorem append_agrees (hist : List (List UInt8 × Scalar)) (hshort : ∀ p ∈ hist, p.1.length ≤ 62)
    (hfin : (Buffer.setAll hist).usedSize < 2 ^ 32)
    (hfin' : (Buffer.setAllWith Buffer.replaceEntry hist).usedSize < 2 ^ 32) :
    (∀ key, ∃ r, (Buffer.setAll hist).found 0 key = some r ∧
      (Buffer.setAllWith Buffer.replaceEntry hist).found 0 key = some r) ∧
      ∀ k, (Buffer.setAll hist).visit 0 k =
        (Buffer.setAllWith Buffer.replaceEntry hist).visit 0 k := by
  have h₀ : Agreeing Buffer.empty.initObject Buffer.empty.initObject :=
    ⟨_, _, .refl _, setAll_start, setAll_start, rfl, rfl⟩
  have h : Agreeing (Buffer.setAll hist) (Buffer.setAllWith Buffer.replaceEntry hist) :=
    h₀.setAllWith updater_updateEntry updater_replaceEntry hshort hfin hfin'
  exact ⟨h.found, h.visit⟩

set_option maxRecDepth 10000 in
/-- Four bytes make way for an integer of the same total length, around the split of the root. -/
theorem append_agrees_sameLength :
    (∀ key, ∃ r, (Buffer.setAll (fullRoot ++ [([4], .bytes [1, 2, 3, 4]), ([4], .i64 5)])).found 0
      key =
        some r ∧
      (Buffer.setAllWith Buffer.replaceEntry
        (fullRoot ++ [([4], .bytes [1, 2, 3, 4]), ([4], .i64 5)])).found 0 key = some r) ∧
      ∀ k, (Buffer.setAll (fullRoot ++ [([4], .bytes [1, 2, 3, 4]), ([4], .i64 5)])).visit 0 k =
        (Buffer.setAllWith Buffer.replaceEntry
          (fullRoot ++ [([4], .bytes [1, 2, 3, 4]), ([4], .i64 5)])).visit 0 k :=
  append_agrees _ (by decide) (by decide +kernel) (by decide +kernel)

end Lite3
