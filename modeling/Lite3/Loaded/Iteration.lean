import Mathlib.Logic.Function.Iterate
import Lite3.Buffer.Fields
import Lite3.Buffer.Iterator

/-! # Iteration over loaded bytes

Child offsets may lead anywhere, so nothing in the bytes decreases along an
iteration. Every node on the stack has at most seven keys to go, each with at
most a full tree of the levels that are left below it. Every advance uses up
some of that, so the end is reached on any bytes.
-/

namespace Lite3

open NodeView Config

/-- What is read from the bytes of a vector; outside it anything may lie. -/
def loaded (data : List UInt8) (outside : Mem) : Mem := fun i => data.getD i (outside i)

theorem loaded_zero (data : List UInt8) :
    loaded data (fun _ => 0) = (Buffer.ofVector data).mem := by
  ext i
  simp [loaded, Buffer.mem, Buffer.ofVector, Bytes.view]

namespace Iterator

/-- `begin` over a vector of `size` bytes -/
def beginAt (m : Mem) (size ofs : ℕ) : Iterator :=
  if size = 0 then .atEnd else .start m size ofs (NodeView.generation m 0)

/-- The iterator after `k` increments. -/
def nth (m : Mem) (size ofs k : ℕ) : Iterator := (findNext m size)^[k] (beginAt m size ofs)

theorem nth_succ (m : Mem) (size ofs k : ℕ) :
    nth m size ofs (k + 1) = findNext m size (nth m size ofs k) :=
  Function.iterate_succ_apply' _ _ _

theorem begin_eq_beginAt (b : Buffer) (ofs : ℕ) :
    b.begin ofs = beginAt b.mem b.data.length ofs := by
  unfold Buffer.begin beginAt
  simp only [List.length_eq_zero_iff]

/-- The entries that the nodes on the stack leave room for. -/
def weight : List (ℕ × ℕ) → ℕ
  | [] => 0
  | (_, i) :: st => (7 - i) * 8 ^ (treeHeightMax - st.length) + weight st

variable {m : Mem} {size ofs n k : ℕ} {st : List (ℕ × ℕ)} {it : Iterator}

theorem weight_unwind (m : Mem) (st : List (ℕ × ℕ)) :
    weight (unwind m st) ≤ weight st ∧ (unwind m st).length ≤ st.length := by
  induction st with
  | nil => exact ⟨le_rfl, le_rfl⟩
  | cons p st ih =>
    obtain ⟨o, i⟩ := p
    unfold unwind
    split
    · exact ⟨ih.1.trans (Nat.le_add_left _ _), ih.2.trans (Nat.le_succ _)⟩
    · exact ⟨le_rfl, le_rfl⟩

theorem lt_of_unwind {o i : ℕ} {st' : List (ℕ × ℕ)} (h : unwind m st = (o, i) :: st') : i < 7 := by
  induction st with
  | nil => simp [unwind] at h
  | cons p st ih =>
    obtain ⟨o', i'⟩ := p
    unfold unwind at h
    split at h
    · exact ih h
    · obtain ⟨⟨rfl, rfl⟩, rfl⟩ : (o' = o ∧ i' = i) ∧ st = st' := by simpa using h
      have := Packed.keyCount_le (sizeKc m o')
      rw [keyCount] at *
      omega

theorem weight_descend (h : n + st.length ≤ treeHeightMax + 1) :
    weight (descend m n st) < weight st + 8 ^ (treeHeightMax + 1 - st.length) ∧
      (descend m n st).length ≤ treeHeightMax + 1 := by
  have hpos : 0 < 8 ^ (treeHeightMax + 1 - st.length) := Nat.pow_pos (by decide)
  induction n generalizing st with
  | zero =>
    unfold descend
    exact ⟨by omega, by omega⟩
  | succ n ih =>
    cases st with
    | nil => exact ⟨by unfold descend; omega, by simp [descend]⟩
    | cons p st =>
      obtain ⟨o, i⟩ := p
      unfold descend
      split
      · have hw := @ih ((getChildOffset m o 0, 0) :: (o, i) :: st)
          (by simp only [List.length_cons] at h ⊢; omega) (Nat.pow_pos (by decide))
        have hp : treeHeightMax + 1 - ((o, i) :: st).length =
            treeHeightMax + 1 - ((getChildOffset m o 0, 0) :: (o, i) :: st).length + 1 := by
          simp only [List.length_cons] at h ⊢
          omega
        have hq : treeHeightMax - ((o, i) :: st).length =
            treeHeightMax + 1 - ((getChildOffset m o 0, 0) :: (o, i) :: st).length := by
          simp only [List.length_cons]
          omega
        rw [weight, hq] at hw
        rw [hp, pow_succ]
        exact ⟨by omega, hw.2⟩
      · exact ⟨by omega, by simp only [List.length_cons] at h ⊢; omega⟩

theorem weight_findFirst (m : Mem) (size : ℕ) (it : Iterator)
    (h : it.stack.length ≤ treeHeightMax + 1) :
    weight (it.findFirst m size).stack <
        weight it.stack + 8 ^ (treeHeightMax + 1 - it.stack.length) ∧
      (it.findFirst m size).stack.length ≤ treeHeightMax + 1 := by
  have hpos : 0 < 8 ^ (treeHeightMax + 1 - it.stack.length) := Nat.pow_pos (by decide)
  unfold findFirst
  split_ifs
  · exact ⟨by omega, h⟩
  · exact ⟨by dsimp only; omega, h⟩
  · exact weight_descend (by omega)
  · exact ⟨by omega, h⟩

/-- An advance stays within the stack and uses up some of its weight, or ends the iteration. -/
theorem weight_findNext (m : Mem) (size : ℕ) (h : it.stack.length ≤ treeHeightMax + 1) :
    (it.findNext m size).stack.length ≤ treeHeightMax + 1 ∧
      ((it.findNext m size).hasBuffer = true →
        it.hasBuffer = true ∧ weight (it.findNext m size).stack < weight it.stack) := by
  obtain ⟨hw, hl⟩ := weight_unwind m it.stack
  unfold findNext
  split_ifs with hb
  · exact ⟨h, by simp⟩
  · split
    · exact ⟨Nat.zero_le _, by simp⟩
    · next o i st hu =>
      have hi := lt_of_unwind hu
      rw [hu, weight] at hw
      rw [hu, List.length_cons] at hl
      have hstep : (7 - i) * 8 ^ (treeHeightMax - st.length) =
          (7 - (i + 1)) * 8 ^ (treeHeightMax - st.length) + 8 ^ (treeHeightMax - st.length) := by
        rw [← Nat.succ_mul]
        congr 1
        omega
      have hpos : 0 < 8 ^ (treeHeightMax - st.length) := Nat.pow_pos (by decide)
      split
      · exact ⟨by simp only [List.length_cons]; omega, by simp⟩
      · next v hv =>
        dsimp only
        split_ifs with hc
        · -- the child behind the key is entered with all the levels below it
          obtain ⟨hf, hlen⟩ := weight_findFirst m size
            { it with current := some v, stack := (getChildOffset m o (i + 1), 0) ::
              (o, i + 1) :: st } (by simp only [List.length_cons]; omega)
          refine ⟨hlen, fun _ => ⟨hb, ?_⟩⟩
          have hq : treeHeightMax - st.length = treeHeightMax - (st.length + 1) + 1 := by omega
          simp only [weight, List.length_cons] at hf
          rw [hq, pow_succ] at hw hstep
          rw [hq, pow_succ, show treeHeightMax + 1 - (st.length + 1 + 1) =
            treeHeightMax - (st.length + 1) by omega] at hf
          omega
        · refine ⟨by simp only [List.length_cons]; omega, fun _ => ⟨hb, ?_⟩⟩
          rw [weight]
          omega
  · exact ⟨h, fun hb' => absurd hb' hb⟩

theorem weight_start (m : Mem) (size ofs : ℕ) (gen : UInt32) :
    (start m size ofs gen).stack.length ≤ treeHeightMax + 1 ∧
      ((start m size ofs gen).hasBuffer = true →
        weight (start m size ofs gen).stack + 1 < 8 ^ (treeHeightMax + 1)) := by
  obtain ⟨hw, hl⟩ := weight_findFirst m size ⟨true, gen, [(ofs, 0)], none⟩ (by simp)
  obtain ⟨hl', hn⟩ := weight_findNext m size hl
  refine ⟨hl', fun hb => ?_⟩
  have := (hn hb).2
  simp only [weight, List.length_nil, List.length_singleton, treeHeightMax] at hw this ⊢
  rw [start]
  omega

theorem weight_nth (m : Mem) (size ofs k : ℕ) :
    (nth m size ofs k).stack.length ≤ treeHeightMax + 1 ∧
      ((nth m size ofs k).hasBuffer = true →
        weight (nth m size ofs k).stack + k + 1 < 8 ^ (treeHeightMax + 1)) := by
  induction k with
  | zero =>
    unfold nth beginAt
    split
    · exact ⟨Nat.zero_le _, by simp [atEnd]⟩
    · exact weight_start m size ofs _
  | succ k ih =>
    obtain ⟨hl, hn⟩ := weight_findNext m size ih.1
    rw [nth_succ]
    refine ⟨hl, fun hb => ?_⟩
    obtain ⟨hb', hw⟩ := hn hb
    have := ih.2 hb'
    omega

theorem nth_ended (h : (nth m size ofs k).hasBuffer = false) {j : ℕ} (hj : k ≤ j) :
    (nth m size ofs j).hasBuffer = false := by
  induction hj with
  | refl => exact h
  | step _ ih =>
    rw [nth_succ]
    unfold findNext
    simp [ih]

end Iterator

/-- Over any bytes and from any offset the stack stays within its ten slots, and the end is reached
after at most `8 ^ 10 - 1` entries. -/
theorem iteration_ends (data : List UInt8) (outside : Mem) (ofs : ℕ) :
    (∀ k, (Iterator.nth (loaded data outside) data.length ofs k).stack.length ≤ 10) ∧
      ∃ n ≤ 8 ^ 10 - 1, ∀ k,
        (Iterator.nth (loaded data outside) data.length ofs k).hasBuffer = true ↔ k < n := by
  refine ⟨fun k => (Iterator.weight_nth _ _ _ k).1, ?_⟩
  have hend : ∃ n, (Iterator.nth (loaded data outside) data.length ofs n).hasBuffer = false := by
    refine ⟨8 ^ 10, Bool.eq_false_iff.mpr fun hb => ?_⟩
    have := (Iterator.weight_nth _ _ _ _).2 hb
    simp only [treeHeightMax] at this
    omega
  classical
  refine ⟨Nat.find hend, ?_, fun k => ⟨fun hb => ?_, fun hk => ?_⟩⟩
  · refine Nat.find_min' hend (Bool.eq_false_iff.mpr fun hb => ?_)
    have := (Iterator.weight_nth _ _ _ _).2 hb
    simp only [treeHeightMax] at this
    omega
  · by_contra hk
    have := Iterator.nth_ended (Nat.find_spec hend) (not_lt.mp hk)
    simp [this] at hb
  · simpa using Nat.find_min hend hk

end Lite3
