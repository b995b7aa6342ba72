import Lite3.Buffer.Walk
import Lite3.Layout.Order

/-! # Walking a laid out tree

Following the child offsets of a laid out tree finds its nodes and entries, the
shape that its structure has, and the medians that an insertion promotes.
-/

namespace Lite3

open Bytes Lite3.Tree

/-- What a slot says about an entry. -/
def Entry.slot (e : Entry) : UInt32 × ℕ := (e.hash, e.ofs)

theorem Entry.Held.entryRegion {isArr : Bool} {e : Entry} {m : Mem} (h : e.Held isArr m)
    (hr : e.Readable isArr) :
    NodeView.entryRegion m isArr e.ofs = (e.ofs, (e.bytes isArr).length) := by
  rw [NodeView.entryRegion, h.skipKey hr, h.existingTotalLen hr, Entry.valueOfs, Entry.bytes,
    List.length_append, Nat.add_sub_cancel_left]

namespace NodeTree

variable {m : Mem} {type : ValueType} {isArr : Bool} {hash : UInt32} {key : List UInt8} {h n : ℕ}

namespace Seen

theorem slot {t : NodeTree h} (hs : t.Seen m type isArr) {i : ℕ} {e : Entry}
    (he : t.keys[i]? = some e) : NodeView.slot m t.ofs i = e.slot :=
  Prod.ext (hs.laid.fits.getHash hs.label he) (hs.laid.fits.getKvOffset hs.label he)

theorem slots_keys {t : NodeTree h} (hs : t.Seen m type isArr) :
    (List.range (NodeView.keyCount m t.ofs)).map (NodeView.slot m t.ofs) =
      t.keys.map Entry.slot := by
  rw [hs.keyCount]
  refine List.ext_getElem (by simp) fun i h₁ h₂ => ?_
  simp only [List.length_map, List.length_range] at h₁
  simpa using hs.slot (List.getElem?_eq_getElem h₁)

theorem child {t : NodeTree h} (hs : t.Seen m type isArr) {i o : ℕ} (ho : t.kidOfs[i]? = some o) :
    NodeView.getChildOffset m t.ofs i = o := by
  have hi : i < 8 := by
    have hlt := (List.getElem?_eq_some_iff.mp ho).1
    cases h with
    | zero => simp [kidOfs] at hlt
    | succ h =>
      have hle := hs.laid.length_le
      have hl := hs.shaped.2.1
      rw [kidOfs, List.length_map] at hlt
      omega
  exact (hs.label.getChildOffset hi).trans (hs.laid.fits.child i o ho)

theorem child_leaf {t : NodeTree 0} (hs : t.Seen m type isArr) {i : ℕ} (hi : i < 8) :
    NodeView.getChildOffset m t.ofs i = 0 :=
  (hs.label.getChildOffset hi).trans (hs.laid.fits.leaf rfl i hi)

theorem length_kidOfs {t : NodeTree (h + 1)} (hs : t.Seen m type isArr) :
    t.kidOfs.length = t.keys.length + 1 := by
  rw [kidOfs, List.length_map, hs.shaped.2.1]

theorem kids {t : NodeTree h} (hs : t.Seen m type isArr) : NodeView.kids m t.ofs = t.kidOfs := by
  cases h with
  | zero => rw [NodeView.kids, hs.child_leaf (by omega), if_pos rfl]; rfl
  | succ h =>
    have hl := hs.length_kidOfs
    have h₀ : t.kidOfs[0]? = some t.kidOfs[0] := List.getElem?_eq_getElem (by omega)
    rw [NodeView.kids, hs.child h₀,
      if_neg (hs.laid.fits.ne_zero _ (List.getElem_mem _)), hs.keyCount]
    refine List.ext_getElem (by simp [hl]) fun i h₁ h₂ => ?_
    simpa using hs.child (List.getElem?_eq_getElem h₂)

theorem nodes {t : NodeTree h} (hs : t.Seen m type isArr) (hn : h < n) :
    NodeView.nodes m n t.ofs = t.labels.map Block.ofs := by
  obtain ⟨n, rfl⟩ : ∃ k, n = k + 1 := ⟨n - 1, by omega⟩
  induction h generalizing n with
  | zero => rw [NodeView.nodes, hs.kids]; rfl
  | succ h ih =>
    obtain ⟨n, rfl⟩ : ∃ k, n = k + 1 := ⟨n - 1, by omega⟩
    rw [NodeView.nodes, hs.kids, kidOfs, List.flatMap_map, BTree.labels, List.map_cons,
      List.map_flatMap]
    exact congrArg _ (List.flatMap_congr fun c hc => ih (hs.kid hc) n (by omega))

theorem slots {t : NodeTree h} (hs : t.Seen m type isArr) (hn : h < n) :
    NodeView.slots m n t.ofs = t.inorder.map Entry.slot := by
  obtain ⟨n, rfl⟩ : ∃ k, n = k + 1 := ⟨n - 1, by omega⟩
  induction h generalizing n with
  | zero => rw [NodeView.slots, hs.kids, hs.slots_keys]; rfl
  | succ h ih =>
    obtain ⟨n, rfl⟩ : ∃ k, n = k + 1 := ⟨n - 1, by omega⟩
    rw [NodeView.slots, hs.kids, hs.slots_keys, kidOfs, List.map_map, BTree.inorder, map_weave,
      List.map_map]
    exact congrArg (weave · _) (List.map_congr_left fun c hc => ih (hs.kid hc) n (by omega))

theorem shape {t : NodeTree h} (hs : t.Seen m type isArr) {root : Bool}
    (hk : root = false → 3 ≤ t.keys.length) : NodeView.Shape m type h root t.ofs := by
  induction h generalizing root with
  | zero =>
    rw [NodeView.Shape, hs.keyCount]
    have hl := hs.laid.length_le
    exact ⟨⟨hl, hk, hs.label.type.trans hs.laid.type_eq⟩, fun i hi => hs.child_leaf (by omega)⟩
  | succ h ih =>
    rw [NodeView.Shape, hs.keyCount]
    refine ⟨⟨hs.laid.length_le, hk, hs.label.type.trans hs.laid.type_eq⟩, fun i hi => ?_⟩
    have hl := hs.shaped.2.1
    have hc : t.kids[i]? = some t.kids[i] := List.getElem?_eq_getElem (by omega)
    have hm : t.kids[i] ∈ t.kids := List.getElem_mem _
    have ho : t.kidOfs[i]? = some (ofs t.kids[i]) := by rw [kidOfs, List.getElem?_map, hc]; rfl
    rw [hs.child ho]
    exact ⟨hs.laid.fits.ne_zero _ (List.mem_of_getElem? ho),
      ih (hs.kid hm) fun _ => (hs.shaped.2.2 _ hm).1⟩

theorem regions {t : NodeTree h} (hs : t.Seen m type isArr) (hn : h < n) :
    (NodeView.nodes m n t.ofs).map (·, 96) ++
      (NodeView.slots m n t.ofs).map (fun s => NodeView.entryRegion m isArr s.2) =
      (t.chunks isArr).map fun c => (c.ofs, c.bytes.length) := by
  rw [hs.nodes hn, hs.slots hn, chunks, List.map_append, List.map_map, List.map_map, List.map_map,
    List.map_map]
  refine congrArg₂ _ (List.map_congr_left fun B _ => ?_) (List.map_congr_left fun e he => ?_)
  · simp
  · exact (hs.entry he).1.entryRegion (hs.entry he).2

theorem searchOn {β : Type} {t : NodeTree h} (hs : t.Seen m type isArr)
    (hkey : isArr = true → key = []) {P ks Q : List Entry} (hk : t.keys = P ++ (ks ++ Q)) (stop : β)
    (next : ℕ → β) : NodeView.searchOn m hash key isArr stop next t.ofs P.length ks.length =
      if (hit (Entry.cmp hash key) ks).isSome then stop
      else (t.kidOfs[P.length + seek (Entry.cmp hash key) ks]?).elim stop next := by
  have hcmp : ∀ i e, ks[i]? = some e →
      compareNodeKey m t.ofs (P.length + i) hash key isArr = e.cmp hash key := by
    intro i e he
    refine hs.laid.fits.compareNodeKey hs.label hs.keys hkey ?_
    rw [hk, List.getElem?_append_right (by omega), Nat.add_sub_cancel_left,
      List.getElem?_append_left (List.getElem?_eq_some_iff.mp he).1, he]
  have hsc : scan (fun i => compareNodeKey m t.ofs i hash key isArr = .lt) ks.length P.length =
      P.length + seek (Entry.cmp hash key) ks :=
    scan_eq (q := (Entry.cmp hash key · = .lt)) fun i e he => by rw [hcmp i e he]
  have hle := seek_le (Entry.cmp hash key) ks
  have hhit : (P.length + seek (Entry.cmp hash key) ks < P.length + ks.length ∧
      compareNodeKey m t.ofs (P.length + seek (Entry.cmp hash key) ks) hash key isArr = .eq) ↔
      (hit (Entry.cmp hash key) ks).isSome := by
    rw [hit]
    cases hg : ks[seek (Entry.cmp hash key) ks]? with
    | none =>
      have := List.getElem?_eq_none_iff.mp hg
      simp; omega
    | some e =>
      have hlt := (List.getElem?_eq_some_iff.mp hg).1
      rw [hcmp _ e hg]
      by_cases he : e.cmp hash key = .eq <;> simp [he, hlt]
  rw [NodeView.searchOn]
  simp only [hsc, hhit]
  split
  · rfl
  have hl := hs.laid.length_le
  have hkl := congrArg List.length hk
  simp only [List.length_append] at hkl
  cases h with
  | zero => rw [hs.child_leaf (by omega), if_pos rfl]; rfl
  | succ h =>
    have hlen := hs.length_kidOfs
    have ho : t.kidOfs[P.length + seek (Entry.cmp hash key) ks]? =
        some t.kidOfs[P.length + seek (Entry.cmp hash key) ks] :=
      List.getElem?_eq_getElem (by omega)
    rw [hs.child ho, if_neg (hs.laid.fits.ne_zero _ (List.getElem_mem _)), ho]
    rfl

theorem searchAmong {t : NodeTree h} (hs : t.Seen m type isArr) (hkey : isArr = true → key = [])
    {P ks Q : List Entry} (hk : t.keys = P ++ (ks ++ Q)) (next : ℕ → List (UInt32 × ℕ)) :
    NodeView.searchAmong m hash key isArr next t.ofs P.length ks.length =
      if (hit (Entry.cmp hash key) ks).isSome then []
      else (t.kidOfs[P.length + seek (Entry.cmp hash key) ks]?).elim [] next :=
  hs.searchOn hkey hk [] next

theorem searchAmong_leaf {t : NodeTree 0} (hs : t.Seen m type isArr)
    (hkey : isArr = true → key = []) {P ks Q : List Entry} (hk : t.keys = P ++ (ks ++ Q))
    (next : ℕ → List (UInt32 × ℕ)) :
    NodeView.searchAmong m hash key isArr next t.ofs P.length ks.length = [] := by
  rw [hs.searchAmong hkey hk]
  split <;> rfl

theorem searchAmong_part {t u : NodeTree (h + 1)} (hs : t.Seen m type isArr)
    (hkey : isArr = true → key = []) {P Q : List Entry} (hk : t.keys = P ++ (u.keys ++ Q))
    (hkids : ∀ j ≤ u.keys.length, u.kids[j]? = t.kids[P.length + j]?)
    {next : ℕ → List (UInt32 × ℕ)} {right : Entry → Bool}
    (hnext : ∀ c ∈ t.kids, next (ofs c) =
      (BTree.promotedRoot 3 (Entry.cmp hash key) right c).map Entry.slot) :
    NodeView.searchAmong m hash key isArr next t.ofs P.length u.keys.length =
      (u.promoted 3 (Entry.cmp hash key) right).map Entry.slot := by
  rw [hs.searchAmong hkey hk, BTree.promoted_succ, hkids _ (seek_le _ _),
    kidOfs, List.getElem?_map]
  split
  · rfl
  cases hc : t.kids[P.length + seek (Entry.cmp hash key) u.keys]? with
  | none => rfl
  | some c => exact hnext c (List.mem_of_getElem? hc)

/-- The part of a node that has the keys behind `P` and the children behind as many. -/
def IsPart (P : List Entry) : {h : ℕ} → (u t : NodeTree h) → Prop
  | 0, _, _ => True
  | _ + 1, u, t => ∀ j ≤ u.keys.length, u.kids[j]? = t.kids[P.length + j]?

theorem isPart_self (t : NodeTree h) : IsPart [] t t := by
  cases h with
  | zero => trivial
  | succ h => exact fun j _ => by simp

theorem isPart_lower {t : NodeTree h} (hn : t.keys.length = 7) :
    IsPart [] (t.lower 3) t := by
  cases h with
  | zero => trivial
  | succ h =>
    intro j hj
    rw [BTree.keys_lower, List.length_take, hn] at hj
    rw [BTree.lower, BTree.kids_inner, List.getElem?_take, if_pos (by omega), List.length_nil,
      Nat.zero_add]

theorem isPart_upper {t : NodeTree h} {P : List Entry} (hP : P.length = 4) :
    IsPart P (t.upper 3) t := by
  cases h with
  | zero => trivial
  | succ h =>
    intro j _
    rw [BTree.upper, BTree.kids_inner, List.getElem?_drop, hP]

theorem entered {β : Type} {t : NodeTree h} (hs : t.Seen m type isArr) {G : ℕ → ℕ → β}
    {F : NodeTree h → β} (hpart : ∀ (P : List Entry) (u : NodeTree h) (Q : List Entry),
      t.keys = P ++ (u.keys ++ Q) → IsPart P u t → G P.length u.keys.length = F u)
    (hn : t.keys.length = 7) (hm : t.keys[3]? = some t.keys[3]) :
    (if NodeView.getHash m t.ofs 3 < hash then G 4 3 else G 0 3) =
      F (if decide (t.keys[3].hash < hash) then t.upper 3 else t.lower 3) := by
  have hh : NodeView.getHash m t.ofs 3 = t.keys[3].hash := hs.laid.fits.getHash hs.label hm
  by_cases hlt : t.keys[3].hash < hash
  · rw [if_pos (decide_eq_true hlt), hh, if_pos hlt,
      ← hpart (t.keys.take 4) (t.upper 3) [] (by simp [BTree.keys_upper])
        (isPart_upper (by simp [hn]))]
    simp [BTree.keys_upper, hn]
  · rw [if_neg (show ¬ decide (t.keys[3].hash < hash) = true by simpa using hlt), hh, if_neg hlt,
      ← hpart [] (t.lower 3) (t.keys.drop 3) (by simp [BTree.keys_lower]) (isPart_lower hn)]
    simp [BTree.keys_lower, hn]

theorem medians_step {t : NodeTree h} (hs : t.Seen m type isArr)
    (hpart : ∀ (P : List Entry) (u : NodeTree h) (Q : List Entry), t.keys = P ++ (u.keys ++ Q) →
      IsPart P u t → NodeView.searchAmong m hash key isArr (NodeView.medians m hash key isArr n)
        t.ofs P.length u.keys.length =
          (u.promoted 3 (Entry.cmp hash key) (fun e => decide (e.hash < hash))).map Entry.slot) :
    NodeView.medians m hash key isArr (n + 1) t.ofs =
      (t.promotedRoot 3 (Entry.cmp hash key) (fun e => decide (e.hash < hash))).map
        Entry.slot := by
  have hl := hs.laid.length_le
  rw [NodeView.medians, hs.keyCount]
  rcases Nat.lt_or_ge t.keys.length 7 with hlt | hge
  · rw [BTree.promotedRoot_of_lt hlt]
    exact (if_neg hlt.ne).trans (hpart [] t [] (by simp) (isPart_self t))
  have hn : t.keys.length = 7 := le_antisymm hl hge
  have hm : t.keys[3]? = some t.keys[3] := List.getElem?_eq_getElem (by omega)
  rw [BTree.promotedRoot_of_full hn hm, List.map_cons]
  exact (if_pos hn).trans (congrArg₂ _ (hs.slot hm) (hs.entered hpart hn hm))

/-- The medians found are those that an insertion promotes. -/
theorem medians {t : NodeTree h} (hs : t.Seen m type isArr) (hkey : isArr = true → key = [])
    (hn : h < n) : NodeView.medians m hash key isArr n t.ofs =
      (t.promotedRoot 3 (Entry.cmp hash key) (fun e => decide (e.hash < hash))).map
        Entry.slot := by
  obtain ⟨n, rfl⟩ : ∃ k, n = k + 1 := ⟨n - 1, by omega⟩
  induction h generalizing n with
  | zero => exact hs.medians_step fun P u Q hk _ => hs.searchAmong_leaf hkey hk _
  | succ h ih =>
    obtain ⟨n, rfl⟩ : ∃ k, n = k + 1 := ⟨n - 1, by omega⟩
    exact hs.medians_step fun P u Q hk hkids =>
      hs.searchAmong_part hkey hk hkids fun c hc => ih (hs.kid hc) n (by omega)

theorem passed_step {t : NodeTree h} (hs : t.Seen m type isArr)
    (hpart : ∀ (P : List Entry) (u : NodeTree h) (Q : List Entry), t.keys = P ++ (u.keys ++ Q) →
      IsPart P u t → NodeView.searchOn m hash key isArr 1
        (fun o => 1 + NodeView.passed m hash key isArr n o) t.ofs P.length u.keys.length =
          u.passed 3 (Entry.cmp hash key) (fun e => decide (e.hash < hash))) :
    NodeView.passed m hash key isArr (n + 1) t.ofs =
      t.passedRoot 3 (Entry.cmp hash key) (fun e => decide (e.hash < hash)) := by
  have hl := hs.laid.length_le
  rw [NodeView.passed, hs.keyCount]
  rcases Nat.lt_or_ge t.keys.length 7 with hlt | hge
  · rw [BTree.passedRoot_of_lt hlt]
    exact (if_neg hlt.ne).trans (hpart [] t [] (by simp) (isPart_self t))
  have hn : t.keys.length = 7 := le_antisymm hl hge
  have hm : t.keys[3]? = some t.keys[3] := List.getElem?_eq_getElem (by omega)
  rw [BTree.passedRoot_of_full hn hm]
  exact (if_pos hn).trans (hs.entered hpart hn hm)

/-- The nodes passed are those that an insertion passes. -/
theorem passed {t : NodeTree h} (hs : t.Seen m type isArr) (hkey : isArr = true → key = [])
    (hn : h < n) : NodeView.passed m hash key isArr n t.ofs =
      t.passedRoot 3 (Entry.cmp hash key) (fun e => decide (e.hash < hash)) := by
  obtain ⟨n, rfl⟩ : ∃ k, n = k + 1 := ⟨n - 1, by omega⟩
  induction h generalizing n with
  | zero =>
    refine hs.passed_step fun P u Q hk _ => ?_
    rw [hs.searchOn hkey hk]
    split <;> rfl
  | succ h ih =>
    obtain ⟨n, rfl⟩ : ∃ k, n = k + 1 := ⟨n - 1, by omega⟩
    refine hs.passed_step fun P u Q hk hkids => ?_
    rw [hs.searchOn hkey hk, BTree.passed_succ, hkids _ (seek_le _ _), kidOfs, List.getElem?_map]
    split
    · rfl
    cases hc : t.kids[P.length + seek (Entry.cmp hash key) u.keys]? with
    | none => rfl
    | some c => exact congrArg (1 + ·) (ih (hs.kid (List.mem_of_getElem? hc)) n (by omega))

theorem depth {t : NodeTree h} (hs : t.Seen m type isArr) (hn : h < n) :
    NodeView.depth m n t.ofs = h + 1 := by
  obtain ⟨n, rfl⟩ : ∃ k, n = k + 1 := ⟨n - 1, by omega⟩
  induction h generalizing n with
  | zero => rw [NodeView.depth, hs.child_leaf (by omega), if_pos rfl]
  | succ h ih =>
    obtain ⟨n, rfl⟩ : ∃ k, n = k + 1 := ⟨n - 1, by omega⟩
    have hl := hs.shaped.2.1
    have hc : t.kids[0]? = some t.kids[0] := List.getElem?_eq_getElem (by omega)
    have ho : t.kidOfs[0]? = some (ofs t.kids[0]) := by rw [kidOfs, List.getElem?_map, hc]; rfl
    rw [NodeView.depth, hs.child ho, if_neg (hs.laid.fits.ne_zero _ (List.mem_of_getElem? ho)),
      ih (hs.kid (List.getElem_mem _)) n (by omega)]

end Seen

end NodeTree

namespace Container

variable {b : Buffer} {c : Container} {R : List Chunk} {hash : UInt32} {key : List UInt8}

theorem height_lt_levels (ho : b.Owns (c.chunks ++ R)) : c.height < b.levels := by
  have := NodeTree.height_lt ho c.shaped
  rw [Buffer.levels]; omega

theorem nodes (ho : b.Owns (c.chunks ++ R)) : b.nodes c.ofs = c.tree.labels.map Block.ofs :=
  (seen ho).nodes (height_lt_levels ho)

theorem slots (ho : b.Owns (c.chunks ++ R)) : b.slots c.ofs = c.entries.map Entry.slot :=
  (seen ho).slots (height_lt_levels ho)

theorem regions (ho : b.Owns (c.chunks ++ R)) :
    b.regions c.isArr c.ofs = c.chunks.map fun k => (k.ofs, k.bytes.length) :=
  (seen ho).regions (height_lt_levels ho)

theorem shape (ho : b.Owns (c.chunks ++ R)) :
    NodeView.Shape b.mem (kindOf c.isArr) c.height true c.ofs :=
  (seen ho).shape (by simp)

theorem medians (ho : b.Owns (c.chunks ++ R)) (hkey : c.isArr = true → key = []) :
    b.medians c.ofs hash key c.isArr =
      (c.tree.promotedRoot 3 (Entry.cmp hash key) (fun e => decide (e.hash < hash))).map
        Entry.slot :=
  (seen ho).medians hkey (height_lt_levels ho)

theorem passed (ho : b.Owns (c.chunks ++ R)) (hkey : c.isArr = true → key = []) :
    b.passed c.ofs hash key c.isArr =
      c.tree.passedRoot 3 (Entry.cmp hash key) (fun e => decide (e.hash < hash)) :=
  (seen ho).passed hkey (height_lt_levels ho)

theorem depth (ho : b.Owns (c.chunks ++ R)) : b.depth c.ofs = c.height + 1 :=
  (seen ho).depth (height_lt_levels ho)

theorem exists_median (ho : b.Owns (c.chunks ++ R)) (hc : c.isArr = false) {a : SetArgs}
    {b' : Buffer} {c' : Container} {x : Entry} {ms : List Entry} (h : Updates a b b' c c' x ms)
    {m : Entry} (hm : m ∈ ms) :
    (m.hash, m.ofs) ∈ b.medians c.ofs a.keyHash a.key false ∧ storedKey b.mem m.ofs = m.key := by
  have hmed : b.medians _ a.keyHash a.key _ = _ := medians ho (by simp [hc])
  rw [hc] at hmed
  rw [hmed]
  refine ⟨List.mem_map.mpr ⟨m, ?_, rfl⟩, ?_⟩
  · have := h.put.promoted_eq
    exact this ▸ hm
  · have := (seen ho).entry (h.put.promoted_mem m hm)
    rw [hc] at this
    exact this.1.storedKey this.2

theorem promoted_nil (ho : b.Owns (c.chunks ++ R)) (hc : c.isArr = false) {a : SetArgs}
    {b' : Buffer} {c' : Container} {x : Entry} {ms : List Entry} (h : Updates a b b' c c' x ms)
    (hm : b.medians c.ofs a.keyHash a.key false = []) : ms = [] := by
  refine List.eq_nil_iff_forall_not_mem.mpr fun m hmem => ?_
  have := (exists_median ho hc h hmem).1
  simp [hm] at this

/-- A routed call sends every promoted median to the side that the key lies on. -/
theorem routes (ho : b.Owns (c.chunks ++ R)) (hc : c.isArr = false) {a : SetArgs} {b' : Buffer}
    {c' : Container} {x : Entry} {ms : List Entry} (h : Updates a b b' c c' x ms)
    (hh : a.keyHash = djb2Hash a.key) (hr : b.Routed c.ofs a.key) : ∀ m ∈ ms, a.Routes m := by
  intro m hm hright
  obtain ⟨hmem, hkey⟩ := exists_median ho hc h hm
  rw [SetArgs.right, decide_eq_false_iff_not, UInt32.not_lt] at hright
  rw [hh] at hmem
  rcases UInt32.lt_or_eq_of_le hright with hlt | heq
  · exact Entry.cmp_gt_of_lt_hash hlt
  · have := hr _ hmem (by rw [← heq, hh])
    rw [hkey] at this
    have hc : compare m.hash a.keyHash = .eq := by rw [heq]; exact Std.ReflCmp.compare_self
    rw [SetArgs.cmp, Entry.cmp, hc, Ordering.eq_then, this]

end Container

end Lite3
