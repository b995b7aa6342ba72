import Lite3.Json.Offsets

/-! # Arrays read one byte early

The elements of an array behind a type tag are looked up at the offset of the tag,
so its node is read one byte early. While an array has at most six elements, the
last slot of its node is blank, and the node has no keys and no child when it is
read so.
-/

namespace Lite3

open Bytes Config NodeView Lite3.Tree

theorem Block.Held.last {m : Mem} {B B' : Block} (h : B.Held m) (h' : B'.Held m)
    (ho : B.ofs = B'.ofs) : B.hashes 6 = B'.hashes 6 ∧ B.kvOfs 6 = B'.kvOfs 6 := by
  constructor
  · rw [← h.getHash (by omega), ho, h'.getHash (by omega)]
  · apply UInt32.toNat_inj.mp
    have hkv : B.kv 6 = B'.kv 6 := by rw [← h.getKvOffset (by omega), ho, h'.getKvOffset (by omega)]
    exact hkv

theorem Block.last_insert {B : Block} {i : ℕ} (hi : i < 6) (hn : B.keyCount ≤ i) (hash : UInt32)
    (ofs : ℕ) : (B.insert i hash ofs).ofs = B.ofs ∧ (B.insert i hash ofs).hashes 6 = B.hashes 6 ∧
      (B.insert i hash ofs).kvOfs 6 = B.kvOfs 6 := by
  have hne : 6 ≠ i := by omega
  have hno : ¬ 6 ≤ B.keyCount := by omega
  simp [Block.insert, Block.shiftEntries_eq, Block.setHash, Block.setKvOffset,
    Block.setKeyCount, hne, hno]

namespace Container

/-- A leaf with a blank last slot -/
structure Slack (c : Container) : Prop where
  height : c.height = 0
  hash : c.tree.label.hashes 6 = 0
  kv : c.tree.label.kvOfs 6 = 0

/-- An array with an entry for each of its indices, in a leaf with a blank last slot -/
structure Small (c : Container) : Prop where
  slack : c.Slack
  size : c.size.toNat = c.entries.length
  below : ∀ e ∈ c.entries, e.hash < c.size
  ascending : c.entries.Pairwise fun e f => e.hash < f.hash

variable {b b' : Buffer} {c c' : Container} {R R' : List Chunk} {a : SetArgs} {B : Block}
  {x : Entry}
  {ms : List Entry} {s i : UInt32} {type : ValueType} {val : List UInt8} {isArr : Bool} {o : ℕ}

theorem small_empty (isArr : Bool) (o : ℕ) : (empty isArr o).Small where
  slack := ⟨rfl, rfl, rfl⟩
  size := toNat_size_empty isArr o
  below := by simp
  ascending := .nil

theorem setImpl_leaf (ho : b.Owns (c.chunks ++ R)) (hh : c.height = 0) (ha : a.Writable)
    (hk : a.isAppend = c.isArr) (hlt : ∀ e ∈ c.entries, a.cmp e = .lt) (hn : c.entries.length < 7) :
    ∃ b' R', b.setImpl c.ofs a = (some (b.usedSize + a.klen), b') ∧
      b'.usedSize = b.usedSize + (a.klen + a.valTotalLen) ∧
      b'.Owns ((c.tree.label.bump.insert c.entries.length a.keyHash b.usedSize).chunk :: R') := by
  obtain ⟨isArr, h, t, hlaid, hshaped, hread⟩ := c
  obtain rfl : h = 0 := hh
  have hkey : a.isAppend = true → a.key = [] := fun h => by simpa [h] using ha.key
  have hready : NodeTree.Ready a b (kindOf isArr) R t :=
    ⟨by rw [hk]; exact ho, hlaid, hshaped, by rw [hk]; exact hread, kindOf_named _, hkey⟩
  have hst := hready.stands
  rw [← List.append_nil t.keys] at hst
  have hsp : BTree.Spot a.cmp t.keys [] := ⟨hlt, by simp⟩
  have hroom : (t.keys ++ []).length < 7 := by
    rw [List.append_nil]
    exact hn
  have hstep : setStep a ⟨b, none, t.ofs, 0⟩ =
      .inr ((b.touch t.ofs).insertEntry a t.ofs t.keys.length) := hst.step_insert hroom hsp rfl
  have hcount : t.label.bump.keyCount = t.keys.length := hlaid.keyCount
  obtain ⟨b', hins, hused, hown⟩ := hst.touch.owns.insertEntry (a := a) (i := t.keys.length)
    hcount.ge (hcount.trans_lt hn)
  have hset : b.setImpl t.ofs a = (some (b.usedSize + a.klen), b') := by
    rw [Buffer.setImpl, Loop.run, hstep]
    exact hins
  exact ⟨b', _, hset, hused, hown⟩

theorem Slack.of_owns (ho : b.Owns (B.chunk :: R')) (hd : b.Owns (c.chunks ++ R))
    (hofs : c.ofs = B.ofs) (hh : c.height = 0) (hhash : B.hashes 6 = 0) (hkv : B.kvOfs 6 = 0) :
    c.Slack := by
  obtain ⟨h₁, h₂⟩ := ((owns_root hd).held (by simp)).last (ho.held (by simp)) hofs
  exact ⟨hh, h₁.trans hhash, h₂.trans hkv⟩

theorem Slack.appended (hs : c.Slack) (hn : c.entries.length < 6) (o : ℕ) (i : UInt32) :
    (c.tree.label.bump.insert c.entries.length i o).ofs = c.ofs ∧
      (c.tree.label.bump.insert c.entries.length i o).hashes 6 = 0 ∧
        (c.tree.label.bump.insert c.entries.length i o).kvOfs 6 = 0 := by
  have hcount : c.tree.label.bump.keyCount ≤ c.entries.length := by
    obtain ⟨isArr, h, t, hlaid, hshaped, hread⟩ := c
    obtain rfl : h = 0 := hs.height
    exact hlaid.keyCount.le
  obtain ⟨hofs, hhash, hkv⟩ := Block.last_insert hn hcount i o
  exact ⟨hofs, hhash.trans hs.hash, hkv.trans hs.kv⟩

theorem Slack.arrAppend (hs : c.Slack) (ho : b.Owns (c.chunks ++ R)) (hc : c.isArr = true)
    (hall : ∀ e ∈ c.entries, e.hash < c.size) (hn : c.entries.length < 6) (v : Scalar)
    (hd : (b.arrAppend c.ofs v).Owns (c'.chunks ++ R)) (hofs : c'.ofs = c.ofs)
    (hh : c'.height = 0) : c'.Slack := by
  obtain ⟨b', R', hset, -, hown⟩ := setImpl_leaf ho hs.height (appendArgs_writable c.size v) hc.symm
    (fun e he => Entry.cmp_lt_of_hash_lt (hall e he)) (by omega)
  obtain ⟨hB, hhash, hkv⟩ := hs.appended hn b.usedSize c.size
  rw [Buffer.arrAppend, size_eq ho, hset, ← hB] at hd
  exact .of_owns (hown.setSize [] R' _) hd (hofs.trans hB.symm) hh hhash hkv

theorem Slack.arrAppendContainer (hs : c.Slack) (ho : b.Owns (c.chunks ++ R)) (hc : c.isArr = true)
    (hall : ∀ e ∈ c.entries, e.hash < c.size) (hn : c.entries.length < 6)
    (hd : (b.arrAppendContainer c.ofs isArr).2.Owns (c'.chunks ++ R')) (hofs : c'.ofs = c.ofs)
    (hh : c'.height = 0) : c'.Slack := by
  obtain ⟨b', S, hset, hused, hown⟩ := setImpl_leaf ho hs.height
    (appendArgs_writable_kind c.size isArr) hc.symm
      (fun e he => Entry.cmp_lt_of_hash_lt (hall e he))
    (by omega)
  obtain ⟨hB, hhash, hkv⟩ := hs.appended hn b.usedSize c.size
  have hlen : (appendArgs c.size (kindOf isArr) []).valTotalLen = 1 := by cases isArr <;> rfl
  rw [Buffer.arrAppendContainer, size_eq ho, hset, ← hB] at hd
  have hv : b.usedSize + (appendArgs c.size (kindOf isArr) []).klen + 1 = b'.usedSize := by omega
  have hmade := owns_makeNode isArr hown hv
  have hfront := Buffer.Owns.perm hmade List.perm_middle
  exact .of_owns (hfront.setSize [] _ _) hd (hofs.trans hB.symm) hh hhash hkv

theorem Small.append (hs : c.Small) (hn : c.entries.length < 6)
    (hup : Updates (appendArgs c.size type val) b b' c c' x ms)
    (hslack : c'.height = 0 → (c'.withSize (c.size + 1)).Slack) :
    (c'.withSize (c.size + 1)).Small := by
  have hentries : (c'.withSize (c.size + 1)).entries = c.entries ++ [x] := by
    rw [entries_withSize]
    exact hup.append hs.below
  have hhash : x.hash = c.size := hup.hash_eq
  have hsize : (c'.withSize (c.size + 1)).size.toNat = c.entries.length + 1 := by
    rw [toNat_size_withSize, UInt32.toNat_add, hs.size]
    simp only [UInt32.reduceToNat]
    omega
  have hheight : c'.height = 0 := by
    have hkeys : c.tree.keys.length < 7 := by
      obtain ⟨isArr, h, t, hlaid, hshaped, hread⟩ := c
      obtain rfl : h = 0 := hs.slack.height
      exact Nat.lt_succ_of_lt hn
    have h : c'.height = c.height + _ := hup.put.height_eq
    rw [if_neg hkeys.ne, hs.slack.height] at h
    exact h
  refine ⟨hslack hheight, ?_, ?_, ?_⟩
  · rw [hsize, hentries, List.length_append]
    rfl
  · intro e he
    rw [UInt32.lt_iff_toNat_lt, hsize, ← hs.size]
    rw [hentries, List.mem_append, List.mem_singleton] at he
    rcases he with he | rfl
    · exact Nat.lt_succ_of_lt (UInt32.lt_iff_toNat_lt.mp (hs.below e he))
    · exact hhash ▸ Nat.lt_succ_self _
  · rw [hentries, List.pairwise_append]
    refine ⟨hs.ascending, List.pairwise_singleton _ _, fun e he f hf => ?_⟩
    rw [List.mem_singleton.mp hf, hhash]
    exact hs.below e he

theorem keyCount_early (hs : c.Slack) (ho : b.Owns (c.chunks ++ R)) (hofs : c.ofs = o + 1) :
    keyCount b.mem o = 0 := by
  have hhash : getHash b.mem c.ofs 6 = 0 :=
    (((owns_root ho).held (by simp)).getHash (by omega)).trans hs.hash
  have hz := congrArg UInt32.toNat hhash
  rw [hofs, getHash, toNat_load32] at hz
  rw [keyCount, NodeView.sizeKc, Packed.keyCount_eq, toNat_load32]
  simp only [UInt32.toNat_zero, Nat.add_assoc, Nat.reduceAdd, Nat.reduceMul] at hz ⊢
  omega

theorem child_early (hs : c.Slack) (ho : b.Owns (c.chunks ++ R)) (hofs : c.ofs = o + 1) :
    getChildOffset b.mem o 0 = 0 := by
  have hkv : getKvOffset b.mem c.ofs 6 = 0 := by
    have h := congrArg UInt32.toNat hs.kv
    exact (((owns_root ho).held (by simp)).getKvOffset (by omega)).trans h
  have hchild : getChildOffset b.mem c.ofs 0 = 0 := by
    have hseen := seen ho
    obtain ⟨isArr, h, t, hlaid, hshaped, hread⟩ := c
    obtain rfl : h = 0 := hs.height
    exact hseen.child_leaf (by omega)
  rw [hofs, getKvOffset, toNat_load32] at hkv
  rw [hofs, getChildOffset, toNat_load32] at hchild
  rw [getChildOffset, toNat_load32]
  simp only [Nat.add_assoc, Nat.reduceAdd, Nat.reduceMul, Nat.mul_zero,
    Nat.add_zero] at hkv hchild ⊢
  omega

/-- No element is found one byte early. -/
theorem arrGetImpl_early (hs : c.Slack) (ho : b.Owns (c.chunks ++ R)) (hofs : c.ofs = o + 1)
    (i : UInt32) : b.arrGetImpl o i = some none := by
  have hstep : getStep b.mem i [] true o = .inr none := by
    rw [getStep, keyCount_early hs ho hofs, searchNode, scan]
    simp [child_early hs ho hofs]
  rw [Buffer.arrGetImpl, Buffer.getImpl, Loop.run, hstep]

/-- The element with an index is found in a small array. -/
theorem Small.find (hs : c.Small) (hc : c.isArr = true) {e : Entry} (he : e ∈ c.entries) :
    c.tree.find (Entry.cmp e.hash []) = some e := by
  have hstrict : Strict (Entry.cmp e.hash []) c.tree.inorder := by
    refine hs.ascending.imp fun {d f} hlt hn => Entry.cmp_gt_of_lt_hash ?_
    have hle : ¬ d.hash < e.hash := fun h => hn (Entry.cmp_lt_of_hash_lt h)
    rw [UInt32.lt_iff_toNat_lt] at hlt hle ⊢
    omega
  have hkey := (c.readable e he).key
  rw [hc, if_pos rfl] at hkey
  have hcmp : e.cmp e.hash [] = .eq := Entry.cmp_eq_eq_iff.mpr (by rw [Entry.filed, hkey])
  exact (BTree.find_eq_some_iff c.shaped hstrict).mpr ⟨he, hcmp⟩

end Container

end Lite3
