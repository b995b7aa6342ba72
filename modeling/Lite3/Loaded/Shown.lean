import Lite3.Loaded.Inside

/-! # What an iteration shows

Over any bytes the iterators from `begin` on show the entries of the first ten
levels in key order, up to the first one that does not fit.
-/

namespace Lite3

open NodeView Config Stop

namespace Iterator

/-- The entries among what is come to, up to the first one that does not fit -/
def shown (m : Mem) (size : ℕ) : List Stop → List IterValue
  | [] => []
  | .node _ :: l => shown m size l
  | .entry kv :: l =>
    match readEntry m size kv with
    | none => []
    | some v => v :: shown m size l

/-- The iterator is at the first of the values, or at the end. -/
def Heads (m : Mem) (size : ℕ) (it : Iterator) : List IterValue → Prop
  | [] => it.hasBuffer = false
  | v :: vs => it.hasBuffer = true ∧ it.current = some v ∧
      it.generation = NodeView.generation m 0 ∧ it.stack.length ≤ treeHeightMax + 1 ∧
      shown m size (rest m it.stack) = vs

variable {m : Mem} {size n : ℕ} {st : List (ℕ × ℕ)} {it : Iterator} {vs : List IterValue}

theorem shown_descend (h : n + st.length = treeHeightMax) (o : ℕ) :
    shown m size (rest m (descend m n ((o, 0) :: st))) =
      shown m size (layer m (below m n) o ++ rest m st) := by
  have hn : treeHeightMax - st.length = n := by omega
  induction n generalizing o st with
  | zero => simp [layer, below, descend, rest, hn, shown]
  | succ n ih =>
    unfold descend
    by_cases hc : getChildOffset m o 0 = 0
    · simp [layer, below, hc, rest, hn, shown]
    · have hst : n + ((o, 0) :: st).length = treeHeightMax := by
        rw [List.length_cons]
        omega
      rw [if_pos hc, ih hst (getChildOffset m o 0) (by omega)]
      simp [layer, below, hc, rest, hn, shown]

theorem shown_findFirst (it : Iterator) {o : ℕ} (hb : it.hasBuffer = true) (hs : size ≠ 0)
    (hgen : it.generation = NodeView.generation m 0) (hst : it.stack = (o, 0) :: st)
    (hl : st.length ≤ treeHeightMax) :
    shown m size (rest m (findFirst m size it).stack) =
      shown m size (layer m (below m (treeHeightMax - st.length)) o ++ rest m st) := by
  have hn : treeHeightMax + 1 - it.stack.length = treeHeightMax - st.length := by
    rw [hst, List.length_cons]
    omega
  rw [findFirst_eq it hb hs hgen, hn, hst]
  exact shown_descend (Nat.sub_add_cancel hl) o

/-- An advance goes to the next value that is shown. -/
theorem heads_findNext (hb : it.hasBuffer = true) (hs : size ≠ 0)
    (hgen : it.generation = NodeView.generation m 0) (hlen : it.stack.length ≤ treeHeightMax + 1) :
    (it.findNext m size).Heads m size (shown m size (rest m it.stack)) := by
  have hlen' := (weight_unwind m it.stack).2.trans hlen
  have hnext := (weight_findNext m size hlen).1
  unfold findNext at hnext ⊢
  rw [if_pos hb, if_neg (not_or.mpr ⟨hs, not_not.mpr hgen⟩)] at hnext ⊢
  rw [← rest_unwind]
  cases hu : unwind m it.stack with
  | nil => rfl
  | cons p st =>
    obtain ⟨o, i⟩ := p
    rw [hu, List.length_cons] at hlen'
    rw [hu] at hnext
    dsimp only at hnext ⊢
    rw [rest_of_lt (unwind_lt hu), shown]
    cases hv : readEntry m size (getKvOffset m o i) with
    | none => rfl
    | some v =>
      rw [hv] at hnext
      dsimp only at hnext ⊢
      split_ifs at hnext ⊢ with hc
      · obtain ⟨it', hit⟩ : ∃ it' : Iterator, it' = { it with
            current := some v, stack := (getChildOffset m o (i + 1), 0) :: (o, i + 1) :: st } :=
          ⟨_, rfl⟩
        have hb' : it'.hasBuffer = true := by rw [hit, hb]
        have hgen' : it'.generation = NodeView.generation m 0 := by rw [hit, hgen]
        have hl : ((o, i + 1) :: st).length ≤ treeHeightMax := hc.2
        have hfirst := shown_findFirst it' hb' hs hgen' (by rw [hit]) hl
        rw [← hit] at hnext ⊢
        rw [below_of_ne_zero hc.1 hc.2, ← hfirst]
        rw [findFirst_eq it' hb' hs hgen'] at hnext ⊢
        exact ⟨hb', by rw [hit], hgen', hnext, rfl⟩
      · rw [below_eq_nil hc, List.nil_append]
        exact ⟨hb, rfl, hgen, hnext, rfl⟩

theorem heads_begin (hs : size ≠ 0) (ofs : ℕ) :
    (beginAt m size ofs).Heads m size (shown m size (layer m (below m treeHeightMax) ofs)) := by
  obtain ⟨it, hit⟩ : ∃ it : Iterator, it = ⟨true, NodeView.generation m 0, [(ofs, 0)], none⟩ :=
    ⟨_, rfl⟩
  have hb : it.hasBuffer = true := by rw [hit]
  have hgen : it.generation = NodeView.generation m 0 := by rw [hit]
  have hst : it.stack = [(ofs, 0)] := by rw [hit]
  have hlen := (weight_findFirst m size it (by simp [hst])).2
  have hfirst := shown_findFirst it hb hs hgen hst (Nat.zero_le _)
  rw [rest, List.append_nil] at hfirst
  unfold beginAt start
  rw [if_neg hs, ← hit, ← Nat.sub_zero treeHeightMax, ← List.length_nil, ← hfirst]
  rw [findFirst_eq it hb hs hgen] at hlen ⊢
  exact heads_findNext hb hs hgen hlen

end Iterator

end Lite3
