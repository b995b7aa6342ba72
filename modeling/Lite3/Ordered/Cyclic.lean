import Lite3.Ordered.Map

/-! # The next entry around a circle

The entry next to a key is the first one that is not below it or, when there is
none, the first one of all. Entries are ranked by the distance they are ahead,
and the next one has the lowest rank.
-/

namespace Lite3.Ordered

variable {κ υ : Type*} [LinearOrder κ]

/-- Keys below `h` come after the others. -/
def rank (h k : κ) : Bool ×ₗ κ := toLex (decide (k < h), k)

theorem rank_le_iff {h a b : κ} :
    rank h a ≤ rank h b ↔ (h ≤ a ∧ b < h) ∨ ((a < h ↔ b < h) ∧ a ≤ b) := by
  rw [rank, rank, Prod.Lex.toLex_le_toLex]
  by_cases ha : a < h <;> by_cases hb : b < h <;> simp [ha, hb, not_le.mpr, not_lt.mp]

theorem rank_injective (h : κ) : Function.Injective (rank h) :=
  fun _ _ hab => congrArg (fun p => (ofLex p).2) hab

namespace OrdMap

variable {m m' : OrdMap κ υ} {h : κ} {p q : κ × υ}

/-- The entry next to a key. -/
def next (m : OrdMap κ υ) (h : κ) : Option (κ × υ) := (m.lowerBound h).or m.first

theorem next_eq_none_iff : m.next h = none ↔ m.isEmpty = true := by
  rw [next, Option.or_eq_none_iff, first, List.head?_eq_none_iff, isEmpty, List.isEmpty_iff]
  constructor
  · exact And.right
  · intro hnil
    simp [lowerBound, hnil]

theorem rank_next_le (hp : m.next h = some p) : p ∈ m ∧ ∀ q ∈ m, rank h p.1 ≤ rank h q.1 := by
  rw [next] at hp
  cases hl : m.lowerBound h with
  | some q =>
    rw [hl, Option.some_or, Option.some_inj] at hp
    subst hp
    obtain ⟨hq, as, bs, heq, has⟩ := List.find?_eq_some_iff_append.mp hl
    have hq : h ≤ q.1 := of_decide_eq_true hq
    refine ⟨List.mem_of_find?_eq_some hl, fun r hr => rank_le_iff.mpr ?_⟩
    have hs := m.sorted
    rw [heq, List.pairwise_append, List.pairwise_cons] at hs
    rw [mem_iff, heq, List.mem_append, List.mem_cons] at hr
    rcases hr with hr | rfl | hr
    · have := has r hr
      exact Or.inl ⟨hq, by simpa using this⟩
    · exact Or.inr ⟨Iff.rfl, le_rfl⟩
    · have hlt := hs.2.1.1 r hr
      exact Or.inr ⟨iff_of_false (not_lt.mpr hq) (not_lt.mpr (hq.trans hlt.le)), hlt.le⟩
  | none =>
    rw [hl, Option.none_or] at hp
    have hbelow : ∀ r ∈ m.entries, r.1 < h := by
      intro r hr
      simpa using List.find?_eq_none.mp hl r hr
    obtain ⟨ps, heq⟩ := List.head?_eq_some_iff.mp hp
    have hs := m.sorted
    rw [heq, List.pairwise_cons] at hs
    have hmem : p ∈ m.entries := heq ▸ List.mem_cons_self
    refine ⟨hmem, fun r hr => rank_le_iff.mpr
      (Or.inr ⟨iff_of_true (hbelow p hmem) (hbelow r hr), ?_⟩)⟩
    rw [mem_iff, heq, List.mem_cons] at hr
    rcases hr with rfl | hr
    · exact le_rfl
    · exact (hs.1 r hr).le

theorem next_eq_some_iff : m.next h = some p ↔ p ∈ m ∧ ∀ q ∈ m, rank h p.1 ≤ rank h q.1 := by
  constructor
  · exact rank_next_le
  · rintro ⟨hp, hle⟩
    cases hn : m.next h with
    | none => exact absurd hp (isEmpty_iff.mp (next_eq_none_iff.mp hn) p)
    | some q =>
      obtain ⟨hq, hqle⟩ := rank_next_le hn
      have hk : p.1 = q.1 := rank_injective h (le_antisymm (hle q hq) (hqle p hp))
      have hv : p.2 = q.2 := value_unique (k := q.1) (hk ▸ hp) hq
      rw [Prod.ext hk hv]

end OrdMap

end Lite3.Ordered
