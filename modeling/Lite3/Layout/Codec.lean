import Lite3.Layout.Iterate

/-! # Entries of every key length

The writer announces the length of a key in the six upper bits of one tag byte,
and every reader decodes that byte alone. They agree exactly on the keys of at
most 62 bytes, whatever lies behind the entry.
-/

namespace Lite3

open Bytes Config Lite3.Tree

/-- The readers of an entry see the key, and its value at `vo`. -/
structure Decodes (b : Buffer) (start : ℕ) (key : List UInt8) (vo : ℕ) : Prop where
  stored : storedKey b.mem start = key
  skipped : Buffer.skipKey b.mem start false = vo
  iterated : ∃ type, Iterator.readEntry b.mem b.data.length start = some ⟨key, vo, type⟩

/-- The buffer after `set_impl` has made room for an entry and written it. -/
def Buffer.placeEntry (b : Buffer) (a : SetArgs) : Buffer :=
  (b.ensureCapacity (a.klen + a.valTotalLen)).writeEntry a

/-- Readers see what is written, and a value set in a new object is found. -/
structure Agrees (key : List UInt8) (v : Scalar) : Prop where
  decodes : ∀ b : Buffer, Decodes (b.placeEntry (setArgs key v.type v.image)) b.usedSize key
    (b.usedSize + (setArgs key v.type v.image).klen)
  found : (Buffer.empty.initObject.setScalar 0 key v).found 0 key = some (some (v.type, v.image))

variable {b : Buffer} {a : SetArgs} {key : List UInt8} {v : Scalar}

theorem writeEntry_eq (b : Buffer) (ha : a.isAppend = false) : b.writeEntry a =
    ((b.advance (a.klen + a.valTotalLen)).write b.usedSize
      (.ofNat ((a.key.length + 1) <<< 2) :: (a.key ++ [0]))).write (b.usedSize + a.klen)
        (valueBytes a.type a.val) := by
  simp only [Buffer.writeEntry, ha, Bool.false_eq_true, if_false, Buffer.writeKey_eq,
    Buffer.writeValue_eq]

theorem mem_placeEntry (b : Buffer) (ha : a.isAppend = false) :
    (b.placeEntry a).mem b.usedSize = .ofNat ((a.key.length + 1) <<< 2) := by
  have hl := b.le_length_ensureCapacity (a.klen + a.valTotalLen)
  have hk : 1 ≤ a.klen := by rw [SetArgs.klen, ha, if_neg (by simp)]; omega
  have hv : 1 ≤ a.valTotalLen := by rw [← a.length_valueBytes]; simp [valueBytes]
  have hu := b.usedSize_ensureCapacity (a.klen + a.valTotalLen)
  rw [Buffer.placeEntry, writeEntry_eq _ ha, hu]
  simp only [Buffer.mem, Buffer.write, Buffer.advance, view_overwrite]
  rw [if_neg (by omega), if_pos (by simp; omega), Nat.sub_self]
  rfl

theorem held_placeEntry (b : Buffer) (ha : a.isAppend = false) (hk : a.key.length ≤ 62) :
    (a.entry b.usedSize).Held false (b.placeEntry a).mem := by
  have hl := b.le_length_ensureCapacity (a.klen + a.valTotalLen)
  have hlen : a.klen = a.key.length + 2 := by
    rw [← a.length_keyBytes, ha, keyBytes_short hk]; simp
  have hu := b.usedSize_ensureCapacity (a.klen + a.valTotalLen)
  have hw := Buffer.write_write ((b.ensureCapacity (a.klen + a.valTotalLen)).advance
    (a.klen + a.valTotalLen)) b.usedSize (keyBytes false a.key) (valueBytes a.type a.val)
  rw [keyBytes_short hk, show b.usedSize + (UInt8.ofNat ((a.key.length + 1) <<< 2) ::
    (a.key ++ [0])).length = b.usedSize + a.klen by simp [hlen], ← keyBytes_short hk] at hw
  have hbytes : (a.entry b.usedSize).bytes false =
      keyBytes false a.key ++ valueBytes a.type a.val := rfl
  have hlength : ((a.entry b.usedSize).bytes false).length = a.klen + a.valTotalLen := by
    rw [hbytes, List.length_append, a.length_valueBytes, keyBytes_short hk]
    simp [hlen]
  rw [Entry.Held, At, Buffer.placeEntry, writeEntry_eq _ ha, hu, ← keyBytes_short hk, hw, hlength,
    show (a.entry b.usedSize).ofs = b.usedSize from rfl, ← hbytes]
  have hin : slice (view (overwrite (b.ensureCapacity (a.klen + a.valTotalLen)).data _
      ((a.entry b.usedSize).bytes false))) _ _ = overwrite (slice _ _ _) 0 _ :=
    slice_overwrite_of_inside (hu ▸ hl)
  rw [Nat.add_zero, overwrite_front (by simp [hlength]), hlength,
    List.drop_eq_nil_of_le (by simp), List.append_nil, hu] at hin
  exact hin

theorem setArgs_readable (hk : key.length ≤ 62) (hv : v.image.length < 2 ^ 32) (o : ℕ) :
    ((setArgs key v.type v.image).entry o).Readable false := by
  refine ⟨hk, by cases v <;> trivial, ?_⟩
  cases v with
  | str s => exact hv
  | bytes s => exact hv
  | null | bool | i64 | f64 => simp [SetArgs.entry, setArgs, Scalar.type, Scalar.image, ValOk]

theorem decodes_placeEntry (b : Buffer) (hk : key.length ≤ 62) (hv : v.image.length < 2 ^ 32) :
    Decodes (b.placeEntry (setArgs key v.type v.image)) b.usedSize key
      (b.usedSize + (setArgs key v.type v.image).klen) := by
  have hh := held_placeEntry b (a := setArgs key v.type v.image) rfl hk
  have hr := setArgs_readable hk hv b.usedSize
  have hvo : ((setArgs key v.type v.image).entry b.usedSize).valueOfs false =
      b.usedSize + (setArgs key v.type v.image).klen := by
    rw [← SetArgs.length_keyBytes]; rfl
  refine ⟨hh.storedKey hr, (hh.skipKey hr).trans hvo, v.type, (hh.readEntry hr ?_).trans ?_⟩
  · rw [Buffer.placeEntry, Buffer.length_writeEntry, Chunk.stop, Entry.chunk, Entry.bytes,
      List.length_append]
    have hl := b.le_length_ensureCapacity
      ((setArgs key v.type v.image).klen + (setArgs key v.type v.image).valTotalLen)
    have hlen := (setArgs key v.type v.image).length_keyBytes
    have hlen' := (setArgs key v.type v.image).length_valueBytes
    exact (congrArg (b.usedSize + ·) (congrArg₂ (· + ·) hlen hlen')).le.trans hl
  · rw [Entry.view, hvo]; rfl

/-- A value set in an empty object, however large the buffer gets. -/
theorem Container.found_setScalar_empty {R : List Chunk} {o : ℕ}
    (ho : b.Owns ((empty false o).chunks ++ R)) (hu : b.usedSize < 2 ^ 32)
    (hk : key.length ≤ 62) (hv : v.image.length < 2 ^ 32) :
    (b.setScalar o key v).found o key = some (some (v.type, v.image)) := by
  obtain ⟨a, ha⟩ : ∃ a, a = setArgs key v.type v.image := ⟨_, rfl⟩
  have happ : a.isAppend = false := by rw [ha]; rfl
  obtain ⟨B, hB, hofs⟩ : ∃ B, B = (Block.blank o).setGenType 1 (kindOf false) ∧ B.ofs = o :=
    ⟨_, rfl, rfl⟩
  have hs : Stands a b (kindOf false) B ([] ++ []) []
      (([] ++ []).map (Entry.chunk a.isAppend) ++ R) :=
    ⟨by rw [hB]; exact ho, by rw [hB]; exact (empty false o).laid, kindOf_named _, by simp, by simp,
      by simp [happ]⟩
  have hstep : setStepWith Buffer.updateEntry a ⟨b, none, B.ofs, 0⟩ =
      .inr ((b.touch B.ofs).insertEntry a B.ofs 0) :=
    hs.step_insert (by simp) ⟨by simp, by simp⟩ rfl
  obtain ⟨x, b', B', hins, hf, hown, hkept, hpl⟩ := hs.touch.insertEntry (by simp)
    (show (b.touch B.ofs).usedSize < 2 ^ 32 from hu)
  have hxa : x = a.entry x.ofs := hpl.eq
  have hr : x.Readable false := by
    rw [hxa, ha]
    exact setArgs_readable hk hv _
  have hset : b.setScalar o key v = b' := by
    have hrun : Loop.run (setStepWith Buffer.updateEntry a)
        (2 * b.data.length + 2) ⟨b, none, B.ofs, 0⟩ =
        .inr (some (x.valueOfs a.isAppend), b') := by
      rw [Loop.run, hstep]
      exact congrArg Sum.inr hins
    rw [Buffer.setScalar, setImpl_eq, Buffer.setImplWith, ← ha, ← hofs, hrun]
  obtain ⟨c, hc⟩ : ∃ c : Container, c = ⟨false, 0, BTree.leaf B' [x], hf, by simp [BTree.Shaped],
    by simpa using hr⟩ := ⟨_, rfl⟩
  have hown' : b'.Owns (c.chunks ++ R) := by
    rw [hc]
    simpa [chunks, NodeTree.chunks, BTree.labels, happ] using hown
  have hfind : c.tree.find (Entry.cmp (djb2Hash key) key) = some x := by
    have hcmp : Entry.cmp (djb2Hash key) key x = .eq := by
      rw [Entry.cmp_eq_eq_iff, hxa, ha]
      rfl
    have hst : Strict (Entry.cmp (djb2Hash key) key) c.tree.inorder := by
      rw [hc]
      exact List.pairwise_singleton _ _
    exact (BTree.find_eq_some_iff c.shaped hst).mpr ⟨by rw [hc]; simp, hcmp⟩
  have hfetch : b'.fetch c.ofs key (djb2Hash key) c.isArr = _ := fetch hown' (by simp [hc])
  rw [hfind, show c.isArr = false by rw [hc], show c.ofs = o by rw [hc]; exact hkept.ofs.trans hofs,
    Option.map_some] at hfetch
  rw [hset, Buffer.found, hfetch, hxa, ha]
  rfl

theorem length_payload_lt (m : Mem) (type : ValueType) (p : ℕ) :
    (Buffer.payload m type p).length < 2 ^ 32 := by
  unfold Buffer.payload
  split
  · rw [length_slice]; exact UInt32.toNat_lt _
  · rw [length_slice]; exact UInt32.toNat_lt _
  all_goals simp

theorem length_found_lt {ofs : ℕ} {type : ValueType} {val : List UInt8}
    (h : b.found ofs key = some (some (type, val))) : val.length < 2 ^ 32 := by
  simp only [Buffer.found, Buffer.fetch, Option.map_map, Option.map_eq_some_iff,
    Function.comp_apply] at h
  obtain ⟨_, -, ⟨t, p⟩, -, h⟩ := h
  obtain rfl := (Prod.mk.inj h).2
  exact length_payload_lt _ _ _

/-- Writer and readers agree exactly on short keys and on values shorter than 4 GiB. -/
theorem agrees_iff (key : List UInt8) (v : Scalar) :
    Agrees key v ↔ key.length ≤ 62 ∧ v.image.length < 2 ^ 32 := by
  refine ⟨fun h => ⟨?_, length_found_lt h.found⟩, fun ⟨hk, hv⟩ =>
    ⟨fun b => decodes_placeEntry b hk hv, ?_⟩⟩
  · have hskip := (h.decodes Buffer.empty).skipped
    rw [Buffer.skipKey, if_neg (by simp), mem_placeEntry _ rfl, toNat_tag, SetArgs.klen] at hskip
    have hkey : (setArgs key v.type v.image).key = key := rfl
    simp only [setArgs, keyTagSize, Bool.false_eq_true, if_false] at hskip
    split_ifs at hskip <;> omega
  · have ho : Buffer.empty.initObject.Owns ((Container.empty false 0).chunks ++ []) := by
      rw [List.append_nil]
      exact Container.owns_initStructure false
    exact Container.found_setScalar_empty ho (by decide) hk hv

set_option maxRecDepth 10000 in
/-- A key of 64 bytes is not found after it is set. -/
theorem long_key_lost : ¬ ∀ key v, Agrees key v := by
  intro h
  have hfound := (h (List.replicate 64 97) .null).found
  revert hfound
  decide +kernel

end Lite3
