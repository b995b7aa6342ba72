import Mathlib.Data.List.Infix

/-! # Maps on paths

A map on paths holds something below a path only when it holds something at the
path. Storing at a path gives up what was below it.
-/

namespace Lite3.Paths

/-- A map from paths that is closed under prefixes. -/
structure PathMap (α β : Type*) where
  get : List α → Option β
  closed : ∀ q a, get q = none → get (q ++ [a]) = none

namespace PathMap

variable {α β : Type*} {t : PathMap α β} {q r : List α} {a : α} {v : β}

/-- Only the empty path is there. -/
def single (v : β) : PathMap α β where
  get
    | [] => some v
    | _ => none
  closed q a h := by cases q <;> rfl

theorem get_eq_none_of_prefix (h : q <+: r) (hq : t.get q = none) : t.get r = none := by
  obtain ⟨s, rfl⟩ := h
  induction s using List.reverseRecOn with
  | nil => rwa [List.append_nil]
  | append_singleton s a ih =>
    rw [← List.append_assoc]
    exact t.closed _ a ih

variable [DecidableEq α]

/-- Store at a path with something right above it. -/
def store (t : PathMap α β) (q : List α) (v : β) : PathMap α β :=
  if h : q ≠ [] ∧ (t.get q.dropLast).isSome then
    { get := fun r => if r = q then some v else if q <+: r then none else t.get r
      closed := by
        rintro r a hr
        have hpre : q <+: r → q <+: r ++ [a] := fun hq => hq.trans (List.prefix_append r [a])
        by_cases heq : r ++ [a] = q
        · have hnot : ¬ q <+: r := fun hq => by
            have hle := hq.length_le
            rw [← heq, List.length_append, List.length_singleton] at hle
            omega
          have hne : r ≠ q := fun he => hnot (he ▸ List.prefix_refl r)
          have hsome := h.2
          rw [if_neg hne, if_neg hnot] at hr
          rw [← heq, List.dropLast_concat, hr] at hsome
          cases hsome
        · rw [if_neg heq]
          split
          · rfl
          · next hq =>
            have hne : r ≠ q := fun he => hq (hpre (he ▸ List.prefix_refl r))
            rw [if_neg hne, if_neg (mt hpre hq)] at hr
            exact t.closed r a hr }
  else t

theorem get_store (h : t.get q ≠ none) (a : α) (v : β) (r : List α) :
    (t.store (q ++ [a]) v).get r =
      if r = q ++ [a] then some v else if q ++ [a] <+: r then none else t.get r := by
  have hopen : q ++ [a] ≠ [] ∧ (t.get (q ++ [a]).dropLast).isSome := by
    rw [List.dropLast_concat]
    exact ⟨by simp, Option.isSome_iff_ne_none.mpr h⟩
  rw [store, dif_pos hopen]

end PathMap

end Lite3.Paths
