import Lite3.Layout.Tree
import Lite3.Layout.Growth

/-! # Steps of the descent

What one iteration of the loop does at a node whose block fits its keys and
children, one lemma for each way it can go.
-/

namespace Lite3

open Bytes Lite3.Tree Config

variable {update : Update} {a : SetArgs} {b : Buffer} {type : ValueType} {B : Block}
  {keys K₁ K₂ : List Entry} {kids : List ℕ} {R : List Chunk} {par : Option ℕ} {d i : ℕ} {e : Entry}

theorem Buffer.Owns.touch (xs ys : List Chunk) (h : b.Owns (xs ++ B.chunk :: ys)) :
    (b.touch B.ofs).Owns (xs ++ B.bump.chunk :: ys) := by
  rw [Buffer.touch, h.held_mid.generation, h.held_mid.type]
  exact h.setGenType xs ys _ _

theorem Buffer.Owns.entry_held {cs : List Chunk} (h : b.Owns cs) {isArr : Bool}
    (he : e.chunk isArr ∈ cs) : e.Held isArr b.mem :=
  h.slice_eq he

/-- The loop stands on a node that the buffer owns together with the entries of its keys. -/
structure Stands (a : SetArgs) (b : Buffer) (type : ValueType) (B : Block) (keys : List Entry)
    (kids : List ℕ) (R : List Chunk) : Prop where
  owns : b.Owns (B.chunk :: R)
  fits : Fits type B keys kids
  named : type.Named
  held : ∀ e ∈ keys, e.chunk a.isAppend ∈ R
  readable : ∀ e ∈ keys, e.Readable a.isAppend
  keyed : a.isAppend = true → a.key = []

namespace Stands

theorem touch (h : Stands a b type B keys kids R) :
    Stands a (b.touch B.ofs) type B.bump keys kids R :=
  ⟨h.owns.touch [] R, h.fits.bump h.named, h.named, h.held, h.readable, h.keyed⟩

theorem block_held (h : Stands a b type B keys kids R) : B.Held b.mem := h.owns.held (by simp)

theorem keys_held (h : Stands a b type B keys kids R) :
    ∀ e ∈ keys, e.Held a.isAppend b.mem ∧ e.Readable a.isAppend := fun e he =>
  ⟨h.owns.entry_held (List.mem_cons_of_mem _ (h.held e he)), h.readable e he⟩

theorem keyCount (h : Stands a b type B keys kids R) :
    NodeView.keyCount b.mem B.ofs = keys.length := by
  rw [h.block_held.keyCount, h.fits.count]

theorem compare (h : Stands a b type B keys kids R) (he : keys[i]? = some e) :
    compareNodeKey b.mem B.ofs i a.keyHash a.key a.isAppend = a.cmp e :=
  h.fits.compareNodeKey h.block_held h.keys_held h.keyed he

theorem search (h : Stands a b type B (K₁ ++ K₂) kids R) (h₁ : ∀ k ∈ K₁, a.cmp k = .lt)
    (h₂ : ∀ k ∈ K₂.head?, a.cmp k ≠ .lt) :
    searchNode b.mem B.ofs a.keyHash a.key a.isAppend (K₁ ++ K₂).length = K₁.length :=
  h.fits.searchNode h.block_held h.keys_held h.keyed h₁ h₂

theorem step_hit (h : Stands a b type B (K₁ ++ e :: K₂) kids R)
    (hn : (K₁ ++ e :: K₂).length < 7) (h₁ : ∀ k ∈ K₁, a.cmp k = .lt) (he : a.cmp e = .eq) :
    setStepWith update a ⟨b, par, B.ofs, d⟩ = .inr (update (b.touch B.ofs) a B.ofs K₁.length) := by
  have ht := h.touch
  have hc := ht.keyCount
  have hs := ht.search h₁ (by simp [he])
  have hcmp := ht.compare (i := K₁.length) (e := e) (by simp)
  simp only [Block.ofs_bump] at hc hs hcmp
  simp only [setStepWith, hc, hs, hcmp, he]
  rw [if_neg (by simp only [nodeKeyCountMax, nodeKeyCount]; omega), if_pos (by simp)]

variable (h : Stands a b type B (K₁ ++ K₂) kids R) (hn : (K₁ ++ K₂).length < 7)
  (hsp : BTree.Spot a.cmp K₁ K₂)

include h hn hsp

theorem step_miss : setStepWith update a ⟨b, par, B.ofs, d⟩ =
    if NodeView.getChildOffset (b.touch B.ofs).mem B.ofs K₁.length ≠ 0 then
      .inl ⟨b.touch B.ofs, some B.ofs,
        NodeView.getChildOffset (b.touch B.ofs).mem B.ofs K₁.length, d + 1⟩
    else .inr ((b.touch B.ofs).insertEntry a B.ofs K₁.length) := by
  have ht := h.touch
  have hc := ht.keyCount
  have hs := ht.search hsp.before (fun k hk => by simp [hsp.next k hk])
  simp only [Block.ofs_bump] at hc hs
  have hcmp : ¬ (K₁.length < (K₁ ++ K₂).length ∧ compareNodeKey (b.touch B.ofs).mem B.ofs
      K₁.length a.keyHash a.key a.isAppend = .eq) := by
    rintro ⟨hl, he⟩
    cases K₂ with
    | nil => simp at hl
    | cons e K₂ =>
      have hcmp := ht.compare (i := K₁.length) (e := e) (by simp)
      rw [Block.ofs_bump, he, hsp.next e rfl] at hcmp
      simp at hcmp
  simp only [setStepWith, hc, hs]
  rw [if_neg (by simp only [nodeKeyCountMax, nodeKeyCount]; omega), if_neg hcmp]

/-- Between the keys of an inner node the loop descends. -/
theorem step_descend {o : ℕ} (ho : kids[K₁.length]? = some o) :
    setStepWith update a ⟨b, par, B.ofs, d⟩ = .inl ⟨b.touch B.ofs, some B.ofs, o, d + 1⟩ := by
  have hl : K₁.length < 8 := by simp at hn; omega
  have hc : NodeView.getChildOffset (b.touch B.ofs).mem B.ofs K₁.length = o := by
    have hg := h.touch.block_held.getChildOffset hl
    rw [Block.ofs_bump] at hg
    rw [hg, h.touch.fits.child _ _ ho]
  rw [h.step_miss hn hsp, hc, if_pos (h.fits.ne_zero o (List.mem_of_getElem? ho))]

/-- Between the keys of a leaf it inserts. -/
theorem step_insert (hk : kids = []) :
    setStepWith update a ⟨b, par, B.ofs, d⟩ =
      .inr ((b.touch B.ofs).insertEntry a B.ofs K₁.length) := by
  have hl : K₁.length < 8 := by simp at hn; omega
  have hc : NodeView.getChildOffset (b.touch B.ofs).mem B.ofs K₁.length = 0 := by
    have hg := h.touch.block_held.getChildOffset hl
    rw [Block.ofs_bump] at hg
    rw [hg, h.touch.fits.leaf hk _ hl]
  rw [h.step_miss hn hsp, hc, if_neg (by simp)]

end Stands

theorem step_splitRoot (h : Stands a b type B keys kids R) (hn : keys.length = 7) :
    setStepWith update a ⟨b, none, B.ofs, d⟩ =
      .inl ⟨((b.touch B.ofs).makeRoom none).splitRoot B.ofs, some B.ofs,
        ((b.touch B.ofs).makeRoom none).usedSize, d⟩ := by
  have hc := h.touch.keyCount
  rw [Block.ofs_bump] at hc
  simp only [setStepWith, hc]
  rw [if_pos (by simp only [nodeKeyCountMax, nodeKeyCount]; omega)]

/-- The slot of a child is the number of children in front of it. -/
theorem slotOf_eq {P : Block} {A C : List ℕ} {o : ℕ} {m : Mem} (hP : P.Held m)
    (hf : Fits type P keys (A ++ o :: C)) (hl : (A ++ o :: C).length = keys.length + 1)
    (ho : o ∉ A) : Buffer.slotOf m P.ofs o = some A.length := by
  have hle := hf.length_le
  simp only [List.length_append, List.length_cons] at hl
  rw [Buffer.slotOf, hP.keyCount, hf.count, List.find?_range_eq_some]
  refine ⟨?_, by simp; omega, fun j hj => ?_⟩
  · rw [hP.getChildOffset (by omega), hf.child A.length o (by simp), decide_eq_true rfl]
  · have hj' : (A ++ o :: C)[j]? = some A[j] := by
      rw [List.getElem?_append_left hj, List.getElem?_eq_getElem hj]
    rw [hP.getChildOffset (by omega), hf.child j _ hj']
    simp only [Bool.not_eq_true', decide_eq_false_iff_not]
    exact fun he => ho (he ▸ List.getElem_mem hj)

theorem step_splitChild {p : ℕ} (h : Stands a b type B keys kids R) (hn : keys.length = 7)
    (hi : Buffer.slotOf ((b.touch B.ofs).makeRoom (some p)).mem p B.ofs = some i) :
    setStepWith update a ⟨b, some p, B.ofs, d⟩ =
      let b := (b.touch B.ofs).makeRoom (some p)
      let b' := b.splitChild p B.ofs i
      .inl ⟨b', some p, if a.keyHash > NodeView.getHash b'.mem p i then b.usedSize else B.ofs,
        d + 1⟩ := by
  have hc := h.touch.keyCount
  rw [Block.ofs_bump] at hc
  simp only [setStepWith, hc]
  rw [if_pos (by simp only [nodeKeyCountMax, nodeKeyCount]; omega), hi]

theorem step_lost {p : ℕ} (h : Stands a b type B keys kids R) (hn : keys.length = 7)
    (hi : Buffer.slotOf ((b.touch B.ofs).makeRoom (some p)).mem p B.ofs = none) :
    setStepWith update a ⟨b, some p, B.ofs, d⟩ =
      .inr (none, (b.touch B.ofs).makeRoom (some p)) := by
  have hc := h.touch.keyCount
  rw [Block.ofs_bump] at hc
  simp only [setStepWith, hc]
  rw [if_pos (by simp only [nodeKeyCountMax, nodeKeyCount]; omega), hi]

end Lite3
