import Mathlib.Data.List.Nodup
import Mathlib.Data.Prod.Lex
import Mathlib.Order.BoundedOrder.Basic

/-! # Ordered maps

A finite map is the list of its entries in the order of their keys. Maps with
the same entries are equal, whatever they were built from.
-/

namespace Lite3.Ordered

/-- Entries with ascending keys. -/
@[ext] structure OrdMap (κ υ : Type*) [LinearOrder κ] where

  entries : List (κ × υ)
  sorted : entries.Pairwise fun p q => p.1 < q.1

variable {κ υ : Type*} [LinearOrder κ]

/-- Put an entry in its place, instead of the one under its key. -/
def place (k : κ) (v : υ) : List (κ × υ) → List (κ × υ)
  | [] => [(k, v)]
  | p :: ps =>
    if k < p.1 then (k, v) :: p :: ps
    else if k = p.1 then (k, v) :: ps
    else p :: place k v ps

theorem mem_place {k : κ} {v : υ} {ps : List (κ × υ)} (hs : ps.Pairwise fun p q => p.1 < q.1)
    {p : κ × υ} : p ∈ place k v ps ↔ p = (k, v) ∨ p.1 ≠ k ∧ p ∈ ps := by
  induction ps with
  | nil => simp [place]
  | cons q qs ih =>
    obtain ⟨hq, hqs⟩ := List.pairwise_cons.mp hs
    rw [place]
    split_ifs with hlt heq
    · have hne : ∀ r ∈ q :: qs, r.1 ≠ k := by
        rintro r (_ | ⟨_, hr⟩)
        · exact hlt.ne'
        · exact (hlt.trans (hq r hr)).ne'
      constructor
      · rintro (_ | ⟨_, hp⟩)
        · exact Or.inl rfl
        · exact Or.inr ⟨hne p hp, hp⟩
      · rintro (rfl | ⟨_, hp⟩)
        · exact List.mem_cons_self
        · exact List.mem_cons_of_mem _ hp
    · subst heq
      constructor
      · rintro (_ | ⟨_, hp⟩)
        · exact Or.inl rfl
        · exact Or.inr ⟨(hq p hp).ne', List.mem_cons_of_mem _ hp⟩
      · rintro (rfl | ⟨hne, _ | ⟨_, hp⟩⟩)
        · exact List.mem_cons_self
        · exact absurd rfl hne
        · exact List.mem_cons_of_mem _ hp
    · rw [List.mem_cons, ih hqs, List.mem_cons]
      constructor
      · rintro (rfl | rfl | ⟨hne, hp⟩)
        · exact Or.inr ⟨fun h => heq h.symm, Or.inl rfl⟩
        · exact Or.inl rfl
        · exact Or.inr ⟨hne, Or.inr hp⟩
      · rintro (rfl | ⟨hne, rfl | hp⟩)
        · exact Or.inr (Or.inl rfl)
        · exact Or.inl rfl
        · exact Or.inr (Or.inr ⟨hne, hp⟩)

theorem place_sorted (k : κ) (v : υ) {ps : List (κ × υ)}
    (hs : ps.Pairwise fun p q => p.1 < q.1) : (place k v ps).Pairwise fun p q => p.1 < q.1 := by
  induction ps with
  | nil => exact List.pairwise_singleton _ _
  | cons q qs ih =>
    obtain ⟨hq, hqs⟩ := List.pairwise_cons.mp hs
    rw [place]
    split_ifs with hlt heq
    · refine List.pairwise_cons.mpr ⟨?_, hs⟩
      rintro r (_ | ⟨_, hr⟩)
      · exact hlt
      · exact hlt.trans (hq r hr)
    · exact List.pairwise_cons.mpr ⟨fun r hr => heq ▸ hq r hr, hqs⟩
    · refine List.pairwise_cons.mpr ⟨fun r hr => ?_, ih hqs⟩
      rcases (mem_place hqs).mp hr with rfl | ⟨_, hr⟩
      · exact lt_of_le_of_ne (not_lt.mp hlt) fun h => heq h.symm
      · exact hq r hr

namespace OrdMap

variable {m m' : OrdMap κ υ} {k : κ} {v w : υ} {p : κ × υ}

instance : Membership (κ × υ) (OrdMap κ υ) := ⟨fun m p => p ∈ m.entries⟩

theorem mem_iff : p ∈ m ↔ p ∈ m.entries := Iff.rfl

def empty : OrdMap κ υ := ⟨[], List.Pairwise.nil⟩

/-- The entry under the key is replaced, if there is one. -/
def insert (m : OrdMap κ υ) (k : κ) (v : υ) : OrdMap κ υ :=
  ⟨place k v m.entries, place_sorted k v m.sorted⟩

/-- Erase the entries that fail the test. -/
def filter (m : OrdMap κ υ) (f : κ × υ → Bool) : OrdMap κ υ :=
  ⟨m.entries.filter f, m.sorted.filter f⟩

def isEmpty (m : OrdMap κ υ) : Bool := m.entries.isEmpty

def size (m : OrdMap κ υ) : ℕ := m.entries.length

/-- The first entry. -/
def first (m : OrdMap κ υ) : Option (κ × υ) := m.entries.head?

/-- The first entry whose key is not below `k`. -/
def lowerBound (m : OrdMap κ υ) (k : κ) : Option (κ × υ) := m.entries.find? (k ≤ ·.1)

@[simp] theorem not_mem_empty : p ∉ (empty : OrdMap κ υ) := List.not_mem_nil

@[simp] theorem mem_insert : p ∈ m.insert k v ↔ p = (k, v) ∨ p.1 ≠ k ∧ p ∈ m := mem_place m.sorted

@[simp] theorem mem_filter {f : κ × υ → Bool} : p ∈ m.filter f ↔ p ∈ m ∧ f p = true :=
  List.mem_filter

theorem isEmpty_iff : m.isEmpty = true ↔ ∀ p, p ∉ m := by
  rw [isEmpty, List.isEmpty_iff, List.eq_nil_iff_forall_not_mem]
  rfl

theorem nodup_keys (m : OrdMap κ υ) : (m.entries.map Prod.fst).Nodup :=
  List.pairwise_map.mpr (m.sorted.imp ne_of_lt)

theorem value_unique (hv : (k, v) ∈ m) (hw : (k, w) ∈ m) : v = w :=
  congrArg Prod.snd (List.inj_on_of_nodup_map m.nodup_keys hv hw rfl)

theorem nodup_entries (m : OrdMap κ υ) : m.entries.Nodup := List.Nodup.of_map _ m.nodup_keys

/-- A map is determined by its entries. -/
theorem ext_mem (h : ∀ p, p ∈ m ↔ p ∈ m') : m = m' := by
  have hperm : m.entries.Perm m'.entries :=
    (List.perm_ext_iff_of_nodup m.nodup_entries m'.nodup_entries).mpr h
  refine OrdMap.ext (hperm.eq_of_pairwise (fun p q _ _ hpq hqp => ?_) m.sorted m'.sorted)
  exact absurd (hpq.trans hqp) (lt_irrefl _)

end OrdMap

end Lite3.Ordered
