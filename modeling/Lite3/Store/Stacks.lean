import Lite3.Store.Lookup

/-! # Stacks of fixed size

The iterator has a stack for ten levels and an insertion a path of sixteen
offsets. A full root adds a level. An insertion pushes every node it passes,
and a full node once more; a full root a third time.
-/

namespace Lite3

open Bytes Config Lite3.Tree

variable {hist : List (List UInt8 × Scalar)}

/-- The tree has at most ten levels after the call, and the call pushes at most sixteen times. -/
def Buffer.Narrow (b : Buffer) (p : List UInt8 × Scalar) : Prop :=
  let full := if NodeView.keyCount b.mem 0 = nodeKeyCountMax then 1 else 0
  b.depth 0 + full ≤ treeHeightMax + 1 ∧
    b.passed 0 (djb2Hash p.1) p.1 false + (b.medians 0 (djb2Hash p.1) p.1 false).length + full ≤ 16

instance (b : Buffer) (p : List UInt8 × Scalar) : Decidable (b.Narrow p) :=
  inferInstanceAs (Decidable (_ ∧ _))

/-- The tree fits the stack of an iterator in every state reached, and the nodes of every call fit
its path. -/
structure StacksSuffice (hist : List (List UInt8 × Scalar)) : Prop where
  levels : ∀ ps, ps <+: hist → (Buffer.setAll ps).depth 0 ≤ treeHeightMax + 1
  pushes : ∀ ps p, ps ++ [p] <+: hist →
    (Buffer.setAll ps).pushes 0 (setArgs p.1 p.2.type p.2.image) ≤ 16

theorem Buffer.setAll_concat (ps : List (List UInt8 × Scalar)) (p : List UInt8 × Scalar) :
    Buffer.setAll (ps ++ [p]) = (Buffer.setAll ps).setRoot p := List.foldl_concat ..

theorem setAll_container (hshort : ∀ p ∈ hist, p.1.length ≤ 62)
    (hfin : (Buffer.setAll hist).usedSize < 2 ^ 32) :
    ∃ c : Container, (Buffer.setAll hist).Owns (c.chunks ++ []) ∧ c.isArr = false ∧ c.ofs = 0 := by
  induction hist using List.reverseRecOn with
  | nil => exact ⟨_, setAll_start, rfl, rfl⟩
  | append_singleton ps p ih =>
    rw [Buffer.setAll_concat] at hfin ⊢
    have hle := usedSize_le_setAll (Buffer.setAll ps) [p]
    obtain ⟨c, ho, hc, hofs⟩ := ih (fun q hq => hshort q (by simp [hq])) (hle.trans_lt hfin)
    unfold Buffer.setRoot at hfin ⊢
    rw [← hofs] at hfin ⊢
    obtain ⟨x, c', ms, hown, hup⟩ := Container.setScalar ho hc (hshort p (by simp)) p.2 hfin
    exact ⟨c', hown, hup.kind.trans hc, hup.ofs⟩

/-- What a call pushes and what becomes of the levels. -/
theorem setAll_stacks {ps : List (List UInt8 × Scalar)} {p : List UInt8 × Scalar}
    (hshort : ∀ q ∈ ps ++ [p], q.1.length ≤ 62)
    (hfin : (Buffer.setAll (ps ++ [p])).usedSize < 2 ^ 32) :
    (Buffer.setAll ps).Narrow p ↔ (Buffer.setAll (ps ++ [p])).depth 0 ≤ treeHeightMax + 1 ∧
      (Buffer.setAll ps).pushes 0 (setArgs p.1 p.2.type p.2.image) ≤ 16 := by
  rw [Buffer.setAll_concat] at hfin ⊢
  have hle := usedSize_le_setAll (Buffer.setAll ps) [p]
  obtain ⟨c, ho, hc, hofs⟩ :=
    setAll_container (fun q hq => hshort q (by simp [hq])) (hle.trans_lt hfin)
  have hp := hshort p (by simp)
  unfold Buffer.setRoot at hfin ⊢
  rw [← hofs] at hfin
  obtain ⟨x, c', ms, hown, hup⟩ := Container.setScalar ho hc hp p.2 hfin
  have hpush := Container.pushes_eq ho (setArgs_writable hp p.2) hc.symm hfin
  have hcount : NodeView.keyCount (Buffer.setAll ps).mem c.ofs = c.tree.keys.length :=
    (Container.seen ho).keyCount
  have hheight : c'.height = c.height + if c.tree.keys.length = 7 then 1 else 0 := hup.put.height_eq
  have hdepth := Container.depth ho
  have hdepth' := Container.depth hown
  rw [hup.ofs, hheight] at hdepth'
  rw [hc] at hpush
  rw [hofs] at hpush hcount hdepth hdepth'
  have hfull : (if NodeView.keyCount (Buffer.setAll ps).mem 0 = nodeKeyCountMax then 1 else 0) =
      if c.tree.keys.length = 7 then 1 else 0 := by
    rw [hcount]
    rfl
  rw [Buffer.Narrow, hpush, hdepth', hdepth, hfull]
  simp only [setArgs]
  omega

/-- The stacks suffice exactly when every call finds the tree narrow enough: no full root in a tree
of ten levels, and at most sixteen nodes passed, full ones counted twice and a full root once
more. -/
theorem stacks_suffice_iff (hist : List (List UInt8 × Scalar))
    (hshort : ∀ p ∈ hist, p.1.length ≤ 62) (hfin : (Buffer.setAll hist).usedSize < 2 ^ 32) :
    StacksSuffice hist ↔
      Loop.Allowed Buffer.setRoot Buffer.Narrow Buffer.empty.initObject hist := by
  have hstep : ∀ ps p, ps ++ [p] <+: hist → ((Buffer.setAll ps).Narrow p ↔
      (Buffer.setAll (ps ++ [p])).depth 0 ≤ treeHeightMax + 1 ∧
        (Buffer.setAll ps).pushes 0 (setArgs p.1 p.2.type p.2.image) ≤ 16) := by
    rintro ps p ⟨rest, rfl⟩
    refine setAll_stacks (fun q hq => hshort q (List.mem_append_left _ hq)) ?_
    unfold Buffer.setAll at hfin ⊢
    rw [List.foldl_append] at hfin
    exact (usedSize_le_setAll _ rest).trans_lt hfin
  rw [Loop.allowed_iff]
  constructor
  · intro h ps p hp
    exact (hstep ps p hp).mpr ⟨h.levels _ hp, h.pushes ps p hp⟩
  · intro h
    refine ⟨fun ps hps => ?_, fun ps p hp => ((hstep ps p hp).mp (h ps p hp)).2⟩
    rcases List.eq_nil_or_concat ps with rfl | ⟨ps, p, rfl⟩
    · decide +kernel
    · rw [List.concat_eq_append] at hps ⊢
      exact ((hstep ps p hps).mp (h ps p hps)).1

end Lite3
