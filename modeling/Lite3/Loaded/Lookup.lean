import Mathlib.Data.Set.Finite.Basic
import Lite3.Loaded.Iteration
import Lite3.Loop.Ends

/-! # Lookups over loaded bytes

The descent of a lookup follows the child offsets it reads, without a limit on
their number. Offsets have 32 bits, so the lookup ends unless the children that
it selects lead back to a node it has been at.
-/

namespace Lite3

open NodeView Config

/-- The lookup at offset zero returns. -/
def LookupEnds (m : Mem) (key : List UInt8) (hash : UInt32) (isArr : Bool) : Prop :=
  ∃ n r, Loop.Ends (getStep m hash key isArr) 0 n r

/-- The search at node `o` goes on with the child `o'`. -/
def Selects (m : Mem) (key : List UInt8) (hash : UInt32) (isArr : Bool) (o o' : ℕ) : Prop :=
  let i := searchNode m o hash key isArr (keyCount m o)
  ¬ (i < keyCount m o ∧ compareNodeKey m o i hash key isArr = .eq) ∧
    getChildOffset m o i ≠ 0 ∧ getChildOffset m o i = o'

/-- Some node below the root leads back to itself. -/
def Cyclic (m : Mem) (key : List UInt8) (hash : UInt32) (isArr : Bool) : Prop :=
  ∃ o, Relation.ReflTransGen (Selects m key hash isArr) 0 o ∧
    Relation.TransGen (Selects m key hash isArr) o o

variable {m : Mem} {key : List UInt8} {hash : UInt32} {isArr : Bool} {o o' : ℕ}

theorem leads_getStep_iff :
    Loop.Leads (getStep m hash key isArr) o o' ↔ Selects m key hash isArr o o' := by
  unfold Loop.Leads Selects getStep
  dsimp only
  split_ifs with hit hc
  · simp [hit]
  · constructor
    · intro h
      exact ⟨hit, hc, Sum.inl.inj h⟩
    · rintro ⟨-, -, rfl⟩
      rfl
  · simp [hc]

theorem Selects.lt (h : Selects m key hash isArr o o') : o' < 2 ^ 32 := by
  obtain ⟨-, -, rfl⟩ := h
  exact UInt32.toNat_lt _

/-- A lookup over loaded bytes ends exactly when the children it selects never lead back to a node
it has been at. -/
theorem lookupEnds_iff (data : List UInt8) (outside : Mem) (key : List UInt8) (hash : UInt32)
    (isArr : Bool) : LookupEnds (loaded data outside) key hash isArr ↔
      ¬ Cyclic (loaded data outside) key hash isArr := by
  have hrel : Loop.Leads (getStep (loaded data outside) hash key isArr) =
      Selects (loaded data outside) key hash isArr := by
    ext o o'
    exact leads_getStep_iff
  unfold LookupEnds Cyclic
  rw [Loop.ends_iff (Set.finite_lt_nat (2 ^ 32)) fun o o' h => (leads_getStep_iff.mp h).lt,
    Loop.Circles, hrel]

/-- A root whose child lies across it and is its own child. -/
def selfChild : List UInt8 :=
  List.replicate 64 0 ++ [4, 0, 0, 0, 4, 0, 0, 0] ++ List.replicate 24 0

/-- Looking up the empty key in a root whose child is its own child does not end. -/
theorem lookup_endless : ¬ ∀ (data : List UInt8) (outside : Mem) (key : List UInt8),
    96 ≤ data.length → LookupEnds (loaded data outside) key (djb2Hash key) false := by
  intro h
  obtain ⟨n, r, hr⟩ := h selfChild (fun _ => 0) [] (by decide)
  refine hr.not_circles ⟨4, .single ?_, .single ?_⟩
  · exact leads_getStep_iff.mpr (by unfold Selects; decide +kernel)
  · exact leads_getStep_iff.mpr (by unfold Selects; decide +kernel)

end Lite3
