import Lite3.Layout.Read
import Lite3.Tree.Find

/-! # Nodes and their keys

A block fits a list of keys and children when its three arrays start with
their hashes and offsets. Searching the node is searching the list, and the
loops that move array elements insert into the lists.
-/

namespace Lite3

open Bytes Lite3.Tree

/-- The array starts with the elements of the list. -/
def Filed {α : Type*} (w : ℕ → α) (xs : List α) : Prop := ∀ i x, xs[i]? = some x → w i = x

namespace Filed

variable {α : Type*} {w w' : ℕ → α} {xs ys : List α} {x y : α}

theorem left (h : Filed w (xs ++ ys)) : Filed w xs := by
  intro i x hx
  refine h i x ?_
  rw [List.getElem?_append_left (List.getElem?_eq_some_iff.mp hx).1, hx]

theorem right (h : Filed w (xs ++ ys)) (hw : ∀ i < ys.length, w' i = w (xs.length + i)) :
    Filed w' ys := by
  intro i x hx
  rw [hw i (List.getElem?_eq_some_iff.mp hx).1]
  exact h _ x (by rw [List.getElem?_append_right (by omega), Nat.add_sub_cancel_left, hx])

theorem insert (h : Filed w (xs ++ ys)) (h₁ : ∀ i < xs.length, w' i = w i)
    (h₂ : w' xs.length = x)
    (h₃ : ∀ i, xs.length ≤ i → i < xs.length + ys.length → w' (i + 1) = w i) :
    Filed w' (xs ++ x :: ys) := by
  intro i z hz
  rcases lt_trichotomy i xs.length with hi | rfl | hi
  · rw [List.getElem?_append_left hi] at hz
    rw [h₁ i hi]
    exact h.left i z hz
  · rw [List.getElem?_append_right le_rfl, Nat.sub_self] at hz
    rw [h₂]
    exact Option.some.inj hz
  · obtain ⟨j, rfl⟩ : ∃ j, i = j + 1 := ⟨i - 1, by omega⟩
    rw [List.getElem?_append_right hi.le, show j + 1 - xs.length = j - xs.length + 1 by omega,
      List.getElem?_cons_succ] at hz
    have hl := (List.getElem?_eq_some_iff.mp hz).1
    rw [h₃ j (by omega) (by omega)]
    exact h j z (by rw [List.getElem?_append_right (by omega), hz])

theorem replace (h : Filed w (xs ++ y :: ys)) (h₁ : ∀ i ≠ xs.length, w' i = w i)
    (h₂ : w' xs.length = x) : Filed w' (xs ++ x :: ys) := by
  intro i z hz
  by_cases hi : i = xs.length
  · subst hi
    rw [List.getElem?_append_right le_rfl, Nat.sub_self] at hz
    rw [h₂]
    exact Option.some.inj hz
  · rw [h₁ i hi]
    refine h i z ?_
    rw [← hz, List.getElem?_append, List.getElem?_append]
    split
    · rfl
    · rw [show i - xs.length = i - xs.length - 1 + 1 by omega, List.getElem?_cons_succ,
        List.getElem?_cons_succ]

end Filed

section Loops

variable {α β γ : Type*} {i n k : ℕ}

theorem downTo_rel (R : β → γ → Prop) {f : ℕ → β → β} {g : ℕ → γ → γ} {b : β} {c : γ}
    (hf : ∀ j b c, j < n → R b c → R (f (j + 1) b) (g (j + 1) c)) (h : R b c) :
    R (downTo i f n b) (downTo i g n c) := by
  induction n generalizing b c with
  | zero => exact h
  | succ n ih =>
    rw [downTo, downTo]
    split
    · exact ih (fun j b c hj => hf j b c (by omega)) (hf n b c (by omega) h)
    · exact h

theorem downTo_shift (c : ℕ) (w : ℕ → α) :
    downTo i (fun j w => Function.update w (j + c) (w (j + c - 1))) n w k =
      if i + c < k ∧ k ≤ n + c then w (k - 1) else w k := by
  induction n generalizing w with
  | zero => rw [downTo, if_neg (by omega)]
  | succ n ih =>
    rw [downTo]
    split
    · rw [ih]
      simp only [Function.update_apply]
      by_cases h₁ : i + c < k ∧ k ≤ n + c
      · rw [if_pos h₁, if_neg (by omega), if_pos (by omega)]
      · rw [if_neg h₁]
        by_cases h₂ : k = n + 1 + c
        · rw [if_pos h₂, if_pos (by omega), h₂]
        · rw [if_neg h₂, if_neg (by omega)]
    · rw [if_neg (by omega)]

theorem scan_le (p : ℕ → Bool) (n k : ℕ) : scan p n k ≤ k + n := by
  induction n generalizing k with
  | zero => exact le_rfl
  | succ n ih =>
    rw [scan]
    split
    · have := ih (k + 1)
      omega
    · omega

theorem scan_congr {p q : ℕ → Bool} {n k : ℕ} (h : ∀ i < k + n, p i = q i) :
    scan p n k = scan q n k := by
  induction n generalizing k with
  | zero => rfl
  | succ n ih =>
    rw [scan, scan, h k (by omega), ih fun i hi => h i (by omega)]

/-- The first index that fails a test is the number of leading elements that pass it. -/
theorem scan_eq {p : ℕ → Bool} {q : α → Bool} {xs : List α}
    (h : ∀ i x, xs[i]? = some x → p (k + i) = q x) :
    scan p xs.length k = k + (xs.takeWhile q).length := by
  induction xs generalizing k with
  | nil => rfl
  | cons x xs ih =>
    have hx : p k = q x := h 0 x rfl
    rw [List.length_cons, scan, hx, List.takeWhile_cons]
    cases q x with
    | false => rfl
    | true =>
      rw [if_pos rfl, if_pos rfl, ih fun i y hy => ?_, List.length_cons]
      · omega
      · rw [Nat.add_assoc, Nat.add_comm 1]; exact h (i + 1) y hy

end Loops

namespace Block

def moveEntry (B : Block) (j : ℕ) : Block :=
  (B.setHash j (B.hashes (j - 1))).setKvOffset j (B.kv (j - 1))

def moveKid (B : Block) (j : ℕ) : Block := (B.moveEntry j).setChildOffset (j + 1) (B.child j)

/-- Room at slot `i` of a node with `n` keys. -/
def shiftEntries (i n : ℕ) (B : Block) : Block := downTo i (fun j B => B.moveEntry j) n B

/-- Room at slot `i` and for the child behind it. -/
def shiftKids (i n : ℕ) (B : Block) : Block := downTo i (fun j B => B.moveKid j) n B

variable {B : Block} {i n k : ℕ}

theorem shiftEntries_eq (i n : ℕ) (B : Block) : B.shiftEntries i n = { B with
    hashes := fun k => if i < k ∧ k ≤ n then B.hashes (k - 1) else B.hashes k
    kvOfs := fun k => if i < k ∧ k ≤ n then B.kvOfs (k - 1) else B.kvOfs k } := by
  have h : B.shiftEntries i n = { B with
      hashes := downTo i (fun j w => Function.update w (j + 0) (w (j + 0 - 1))) n B.hashes
      kvOfs := downTo i (fun j w => Function.update w (j + 0) (w (j + 0 - 1))) n B.kvOfs } := by
    unfold shiftEntries
    induction n generalizing B with
    | zero => rfl
    | succ n ih =>
      simp only [downTo]
      split
      · rw [ih]
        simp [moveEntry, setHash, setKvOffset, kv]
      · rfl
  rw [h]
  congr 1 <;> funext k <;> exact downTo_shift 0 _

@[simp] theorem ofs_shiftEntries (i n : ℕ) (B : Block) : (B.shiftEntries i n).ofs = B.ofs := by
  rw [shiftEntries_eq]

theorem shiftKids_eq (i n : ℕ) (B : Block) : B.shiftKids i n = { B with
    hashes := fun k => if i < k ∧ k ≤ n then B.hashes (k - 1) else B.hashes k
    kvOfs := fun k => if i < k ∧ k ≤ n then B.kvOfs (k - 1) else B.kvOfs k
    childOfs := fun k => if i + 1 < k ∧ k ≤ n + 1 then B.childOfs (k - 1) else B.childOfs k } := by
  have h : B.shiftKids i n = { B with
      hashes := downTo i (fun j w => Function.update w (j + 0) (w (j + 0 - 1))) n B.hashes
      kvOfs := downTo i (fun j w => Function.update w (j + 0) (w (j + 0 - 1))) n B.kvOfs
      childOfs := downTo i (fun j w => Function.update w (j + 1) (w (j + 1 - 1))) n
        B.childOfs } := by
    unfold shiftKids
    induction n generalizing B with
    | zero => rfl
    | succ n ih =>
      simp only [downTo]
      split
      · rw [ih]
        simp [moveKid, moveEntry, setHash, setKvOffset, setChildOffset, kv, child]
      · rfl
  rw [h]
  congr 1 <;> funext k
  · exact downTo_shift 0 _
  · exact downTo_shift 0 _
  · exact downTo_shift 1 _

@[simp] theorem ofs_shiftKids (i n : ℕ) (B : Block) : (B.shiftKids i n).ofs = B.ofs := by
  rw [shiftKids_eq]

end Block

/-- The block of a node with these keys and children. -/
structure Fits (type : ValueType) (B : Block) (keys : List Entry) (kids : List ℕ) : Prop where
  type_eq : B.type = type
  count : B.keyCount = keys.length
  hash : Filed B.hashes (keys.map Entry.hash)
  kv : Filed B.kv (keys.map Entry.ofs)
  child : Filed B.child kids
  ne_zero : ∀ o ∈ kids, o ≠ 0
  leaf : kids = [] → ∀ i < 8, B.child i = 0

namespace Fits

variable {type : ValueType} {B : Block} {keys K₁ K₂ : List Entry} {kids : List ℕ} {m : Mem}
  {isArr : Bool} {e : Entry} {i : ℕ} {hash : UInt32} {key : List UInt8}

theorem length_le (hf : Fits type B keys kids) : keys.length ≤ 7 := hf.count ▸ B.keyCount_le

theorem getHash (hf : Fits type B keys kids) (hB : B.Held m) (he : keys[i]? = some e) :
    NodeView.getHash m B.ofs i = e.hash := by
  have hi := (List.getElem?_eq_some_iff.mp he).1
  have := hf.length_le
  rw [hB.getHash (by omega), hf.hash i e.hash (by simp [he])]

theorem getKvOffset (hf : Fits type B keys kids) (hB : B.Held m) (he : keys[i]? = some e) :
    NodeView.getKvOffset m B.ofs i = e.ofs := by
  have hi := (List.getElem?_eq_some_iff.mp he).1
  have := hf.length_le
  rw [hB.getKvOffset (by omega), hf.kv i e.ofs (by simp [he])]

theorem compareNodeKey (hf : Fits type B keys kids) (hB : B.Held m)
    (hm : ∀ e ∈ keys, e.Held isArr m ∧ e.Readable isArr) (hkey : isArr = true → key = [])
    (he : keys[i]? = some e) :
    Lite3.compareNodeKey m B.ofs i hash key isArr = e.cmp hash key :=
  have ⟨h₁, h₂⟩ := hm e (List.mem_of_getElem? he)
  h₁.compareNodeKey h₂ (hf.getHash hB he) (hf.getKvOffset hB he) hkey

/-- Searching a node stops behind the keys before the target. -/
theorem searchNode (hf : Fits type B (K₁ ++ K₂) kids) (hB : B.Held m)
    (hm : ∀ e ∈ K₁ ++ K₂, e.Held isArr m ∧ e.Readable isArr) (hkey : isArr = true → key = [])
    (h₁ : ∀ k ∈ K₁, k.cmp hash key = .lt) (h₂ : ∀ k ∈ K₂.head?, k.cmp hash key ≠ .lt) :
    Lite3.searchNode m B.ofs hash key isArr (K₁ ++ K₂).length = K₁.length := by
  have hs : Lite3.scan (fun i => Lite3.compareNodeKey m B.ofs i hash key isArr = .lt)
      (K₁ ++ K₂).length 0 = 0 + ((K₁ ++ K₂).takeWhile (Entry.cmp hash key · = .lt)).length :=
    scan_eq fun i e he => by rw [Nat.zero_add, hf.compareNodeKey hB hm hkey he]
  rw [Lite3.searchNode, hs, Nat.zero_add]
  exact seek_append h₁ h₂

end Fits

end Lite3
