import Lite3.Layout.Twin

/-! # The sequence of the entries

A tree stands for the sequence of its entries. A set inserts one or replaces
one with its key, however many nodes are split on the way; iteration goes
through the sequence, and lookup finds what a linear search finds.
-/

namespace Lite3

open Bytes Config Lite3.Tree

variable {b b' : Buffer} {c c' : Container} {R : List Chunk} {hash : UInt32} {key : List UInt8}
  {type : ValueType} {isArr : Bool} {h : ℕ}

/-- An object with the first `n` letters as keys. -/
def letters : ℕ → Buffer
  | 0 => Buffer.empty.initObject
  | n + 1 => (letters n).setI64 0 [.ofNat (65 + n)] 5

/-- What the object has under letter `i`. -/
def letter (i : ℕ) : UInt32 × List UInt8 × ValueType × List UInt8 :=
  (djb2Hash [.ofNat (65 + i)], [.ofNat (65 + i)], .int64, [5, 0, 0, 0, 0, 0, 0, 0])

theorem Container.keys_of_leaf (h : c.height = 0) : c.tree.keys = c.entries := by
  obtain ⟨isArr, height, tree⟩ := c
  obtain rfl : height = 0 := h
  rfl

theorem exists_letters {n : ℕ} (hn : n ≤ 8) : ∃ c : Container, (letters n).Owns (c.chunks ++ []) ∧
    c.isArr = false ∧ c.ofs = 0 ∧ c.height = n / 8 ∧
      c.entries.map Entry.content = (List.range n).map letter := by
  induction n with
  | zero =>
    refine ⟨.empty false 0, ?_, rfl, rfl, rfl, rfl⟩
    rw [List.append_nil]
    exact Container.owns_initStructure false
  | succ n ih =>
    obtain ⟨c, ho, hc, hofs, hheight, hent⟩ := ih (by omega)
    have hhash : ∀ i < 8, ∀ j < i, djb2Hash [.ofNat (65 + j)] < djb2Hash [.ofNat (65 + i)] := by
      decide
    have hfin : ∀ n ≤ 8, (letters n).usedSize < 2 ^ 32 := by decide +kernel
    have hset : letters (n + 1) = (letters n).setScalar c.ofs [.ofNat (65 + n)] (.i64 5) := by
      rw [hofs]
      rfl
    have hk : [UInt8.ofNat (65 + n)].length ≤ 62 := by simp
    obtain ⟨x, c', ms, hown, hup⟩ := Container.setScalar ho hc hk (.i64 5) (hset ▸ hfin _ hn)
    rw [← hset] at hown hup
    have hx : x.content = letter n := by
      rw [hup.placed.eq]
      rfl
    have hbefore : ∀ e ∈ c.entries, e.hash < djb2Hash [.ofNat (65 + n)] := by
      intro e he
      have hmem := List.mem_map_of_mem (f := Entry.content) he
      rw [hent, List.mem_map] at hmem
      obtain ⟨i, hi, heq⟩ := hmem
      have hlt := hhash n hn i (List.mem_range.mp hi)
      rwa [show djb2Hash [.ofNat (65 + i)] = e.hash from congrArg (·.1) heq] at hlt
    have hkeys : c.tree.keys.length = n := by
      have hlen := congrArg List.length hent
      rw [List.length_map, List.length_map, List.length_range] at hlen
      rw [Container.keys_of_leaf (by omega), hlen]
    refine ⟨c', hown, hup.kind.trans hc, hup.ofs.trans hofs, ?_, ?_⟩
    · have hput : c'.height = c.height + if c.tree.keys.length = 7 then 1 else 0 :=
        hup.put.height_eq
      rw [hput, hkeys]
      split_ifs <;> omega
    · rw [hup.append hbefore, List.map_append, hent, List.range_succ, List.map_append]
      exact congrArg _ (congrArg (fun e => [e]) hx)

namespace Iterator

variable {it : Iterator}

theorem equals_atEnd (b : Buffer) (it : Iterator) : it.equals b .atEnd = !it.hasBuffer := by
  cases hb : it.hasBuffer <;> simp [equals, atEnd, hb]

end Iterator

namespace NodeTree.Seen

variable {m : Mem} {type' : ValueType} {isArr' : Bool} {k : ℕ}

theorem first_kid {t : NodeTree (h + 1)} (hs : t.Seen m type isArr) :
    ∃ c ∈ t.kids, NodeView.getChildOffset m t.ofs 0 = ofs c ∧ ofs c ≠ 0 := by
  have hl := hs.length_kidOfs
  have hg : t.kidOfs[0]? = some t.kidOfs[0] := List.getElem?_eq_getElem (by omega)
  obtain ⟨c, hc, hofs⟩ := List.mem_map.mp (List.mem_of_getElem? hg)
  refine ⟨c, hc, (hs.child hg).trans hofs.symm, ?_⟩
  rw [hofs]
  exact hs.laid.fits.ne_zero _ (List.mem_of_getElem? hg)

theorem height_eq {t : NodeTree h} {u : NodeTree k} (ht : t.Seen m type isArr)
    (hu : u.Seen m type' isArr') (ho : t.ofs = u.ofs) : h = k := by
  induction h generalizing k with
  | zero =>
    have hleaf := ht.child_leaf (i := 0) (by omega)
    cases k with
    | zero => rfl
    | succ k =>
      obtain ⟨c, -, hc, hne⟩ := hu.first_kid
      exact absurd (hc.symm.trans (ho ▸ hleaf)) hne
  | succ h ih =>
    obtain ⟨c, hmem, hc, hne⟩ := ht.first_kid
    cases k with
    | zero =>
      have hleaf := hu.child_leaf (i := 0) (by omega)
      exact absurd (hc.symm.trans (ho ▸ hleaf)) hne
    | succ k =>
      obtain ⟨d, hmem', hd, -⟩ := hu.first_kid
      exact congrArg (· + 1) (ih (ht.kid hmem) (hu.kid hmem') (hc.symm.trans (ho ▸ hd)))

theorem exists_filled {t : NodeTree h} (hs : t.Seen m type isArr) (hk : k < h) :
    ∃ u : NodeTree k, u.Seen m type isArr ∧ 3 ≤ u.keys.length := by
  induction h with
  | zero => omega
  | succ h ih =>
    obtain ⟨c, hmem, -⟩ := hs.first_kid
    by_cases heq : k = h
    · subst heq
      exact ⟨c, hs.kid hmem, (hs.shaped.2.2 c hmem).1⟩
    · exact ih (hs.kid hmem) (by omega)

theorem ofs_lt {t : NodeTree h} (hs : t.Seen b.mem type isArr) (hk : 0 < t.keys.length) :
    t.ofs < b.data.length := by
  by_contra hle
  have hzero : ∀ i, t.ofs ≤ i → b.mem i = 0 := fun i hi => view_of_length_le (by omega)
  have hword : NodeView.sizeKc b.mem t.ofs = 0 := by
    apply load32_eq
    simp (disch := omega) only [slice, hzero]
    rfl
  have hcount := hs.keyCount
  rw [NodeView.keyCount, hword] at hcount
  exact absurd hcount (by rw [show Packed.keyCount 0 = 0 from rfl]; omega)

/-- A tree in a buffer is no higher than the buffer is long, even where its regions overlap. -/
theorem height_le {t : NodeTree h} (hs : t.Seen b.mem type isArr) : h ≤ b.data.length := by
  choose u hu hfull using fun k : Fin h => hs.exists_filled k.isLt
  have hlt : ∀ k, (u k).ofs < b.data.length := fun k => (hu k).ofs_lt (by have := hfull k; omega)
  have hinj : Function.Injective fun k => (⟨(u k).ofs, hlt k⟩ : Fin b.data.length) := by
    intro i j hij
    exact Fin.ext ((hu i).height_eq (hu j) (congrArg Fin.val hij))
  simpa using Fintype.card_le_of_injective _ hinj

end NodeTree.Seen

end Lite3
