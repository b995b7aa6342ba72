import Lite3.Layout.Sequence
import Lite3.Store.Reset

/-! # Packed fields

Offsets are kept in 32 bits of a slot and the number of elements in 26 bits of a
word that the key count shares. Nothing checks that they fit: what does not fit
wraps around.
-/

namespace Lite3

open Bytes NodeView Config Lite3.Tree

/-- A 32-bit slot of a node. -/
inductive Slot
  | entry (node i : ℕ)
  | child (node i : ℕ)

namespace Slot

def read (m : Mem) : Slot → ℕ
  | entry o i => getKvOffset m o i
  | child o i => getChildOffset m o i

/-- What the slot is for has been written at the offset: the entry of the arguments or a node. -/
def Written (a : SetArgs) (m : Mem) (o : ℕ) : Slot → Prop
  | entry .. => (a.entry o).Held a.isAppend m
  | child .. => NodeView.type m o = kindOf a.isAppend

end Slot

/-- The slot that an iteration of `set_impl` points at the bytes it places, with their offset. -/
def SetState.stores (a : SetArgs) (s : SetState) : Option (Slot × ℕ) :=
  let o := s.nodeOfs
  let b := s.buf.touch o
  let count := keyCount b.mem o
  if nodeKeyCountMax ≤ count then
    let b := b.makeRoom s.parentOfs
    match s.parentOfs with
    | none => some (.child o 0, b.usedSize)
    | some p => (Buffer.slotOf b.mem p o).map fun i => (.child p (i + 1), b.usedSize)
  else
    let i := searchNode b.mem o a.keyHash a.key a.isAppend count
    if i < count ∧ compareNodeKey b.mem o i a.keyHash a.key a.isAppend = .eq then
      if Buffer.existingTotalLen b.mem
        (Buffer.valueOffset b.mem o i a.isAppend) = a.valTotalLen then
        none
      else some (.entry o i, b.usedSize)
    else if getChildOffset b.mem o i ≠ 0 then none
    else some (.entry o i, b.usedSize)

section Stores

variable {a : SetArgs} {b : Buffer} {B N P : Block} {R cs : List Chunk} {s : SetState} {slot : Slot}
  {o i : ℕ}

/-- The slot reads back as the offset modulo its width, and the bytes are there. -/
def Slot.Reads (a : SetArgs) (m : Mem) (slot : Slot) (o : ℕ) : Prop :=
  slot.read m = o % 2 ^ 32 ∧ slot.Written a m o

theorem Slot.reads_entry (ho : b.Owns (B.chunk :: (a.entry o).chunk a.isAppend :: R)) (hi : i < 7)
    (hk : B.kvOfs i = .ofNat o) : (entry B.ofs i).Reads a b.mem o := by
  constructor
  · have hread := (ho.held (B := B) (by simp)).getKvOffset hi
    rw [Block.kv, hk, UInt32.toNat_ofNat'] at hread
    exact hread
  · exact ho.slice_eq (c := (a.entry o).chunk a.isAppend) (by simp)

theorem Slot.reads_child (ho : b.Owns cs) (hB : B.chunk ∈ cs) (hN : N.chunk ∈ cs) (hi : i < 8)
    (hc : B.childOfs i = .ofNat N.ofs) (ht : N.type = kindOf a.isAppend) :
    (child B.ofs i).Reads a b.mem N.ofs := by
  constructor
  · have hread := (ho.held hB).getChildOffset hi
    rw [Block.child, hc, UInt32.toNat_ofNat'] at hread
    exact hread
  · exact (ho.held hN).type.trans ht

/-- The iteration stands on a node that the buffer owns, below a parent that has room for a median
when the node is full. -/
structure SetState.On (s : SetState) (B : Block) (R : List Chunk) : Prop where
  owns : s.buf.Owns (B.chunk :: R)
  ofs : B.ofs = s.nodeOfs
  parent : ∀ p, s.parentOfs = some p →
    ∃ P : Block, P.ofs = p ∧ P.chunk ∈ R ∧ (B.keyCount = 7 → P.keyCount < 7)

theorem slotOf_le {m : Mem} {p : ℕ} (h : Buffer.slotOf m p o = some i) : i ≤ keyCount m p := by
  have := List.mem_of_find?_eq_some h
  rw [List.mem_range] at this
  omega

theorem Slot.reads_splitRoot (ho : b.Owns (B.chunk :: R)) (ht : B.type = kindOf a.isAppend) :
    (child B.ofs 0).Reads a ((b.makeRoom none).splitRoot B.ofs).mem (b.makeRoom none).usedSize := by
  obtain ⟨hroom, -, hlen⟩ := ho.makeRoom none
  exact reads_child (B := B.rootOver (b.makeRoom none).usedSize)
    (N := B.moved (b.makeRoom none).usedSize) (hroom.splitRoot hlen) (by simp) (by simp) (by omega)
    (by simp [Block.rootOver, Block.setSizeKc, Block.setChildOffset]) ht

theorem Slot.reads_splitChild (ho : b.Owns (P.chunk :: B.chunk :: R)) (hB : B.keyCount = 7)
    (hP : P.keyCount < 7) (hi : i ≤ P.keyCount) (ht : B.type = kindOf a.isAppend) :
    (child P.ofs (i + 1)).Reads a
      ((b.makeRoom (some P.ofs)).splitChild P.ofs B.ofs i).mem
        (b.makeRoom (some P.ofs)).usedSize := by
  obtain ⟨hroom, -, hlen⟩ := ho.makeRoom (some P.ofs)
  obtain ⟨-, hown⟩ := hroom.splitChild hlen hB hP hi
  have hread := reads_child (a := a) (B := P.promote B i (b.makeRoom (some P.ofs)).usedSize)
    (N := B.sibling (b.makeRoom (some P.ofs)).usedSize) hown (by simp) (by simp)
    (show i + 1 < 8 by omega)
      (by simp [Block.promote, Block.setSizeKc, Block.setChildOffset, Block.sibling])
    (by rw [Block.type, Block.sibling, ht, Packed.type_genType (kindOf_named _)])
  rwa [Block.ofs_promote] at hread

theorem Slot.reads_insertEntry (ho : b.Owns (B.chunk :: R)) (hi : i ≤ B.keyCount)
    (hB : B.keyCount < 7) :
    (entry B.ofs i).Reads a (b.insertEntry a B.ofs i).2.mem b.usedSize := by
  obtain ⟨b', heq, -, hown⟩ := ho.insertEntry (a := a) hi hB
  rw [heq]
  have hread := reads_entry (i := i) hown (by omega)
    (by simp [Block.insert, Block.setKeyCount, Block.setKvOffset])
  simpa [Block.insert] using hread

theorem Slot.reads_replaceEntry (ho : b.Owns (B.chunk :: R)) (hi : i < 7) :
    (entry B.ofs i).Reads a (b.replaceEntry a B.ofs i).2.mem b.usedSize := by
  have hread := reads_entry (i := i) (ho.appendEntry (a := a) hi) hi
    (by simp [Block.setKvOffset])
  have heq : (b.replaceEntry a B.ofs i).2 = ((b.ensureCapacity (a.klen + a.valTotalLen)).setKvOffset
      B.ofs i b.usedSize).writeEntry a := by
    rw [Buffer.replaceEntry]
    simp only [Buffer.usedSize_ensureCapacity]
  rw [heq]
  exact hread

/-- What an iteration stores in a slot is the offset of what it places, up to the width of the
slot. -/
theorem SetState.On.reads (h : s.On B R) (ht : B.type = kindOf a.isAppend)
    (hs : s.stores a = some (slot, o)) :
    slot.Reads a (SetState.bufOf (setStep a s)).mem o := by
  obtain ⟨b, par, node, d⟩ := s
  obtain ⟨ho, rfl, hpar⟩ := h
  obtain ⟨N, hN, hNk, hNt, hown⟩ : ∃ N : Block, N.ofs = B.ofs ∧ N.keyCount = B.keyCount ∧
      N.type = kindOf a.isAppend ∧ (b.touch B.ofs).Owns (N.chunk :: R) := by
    refine ⟨B.bump, rfl, rfl, ?_, Buffer.Owns.touch [] R ho⟩
    rw [Block.bump, Block.type, Block.setGenType, ht, Packed.type_genType (kindOf_named _)]
  rw [← hNk] at hpar
  rw [← hN] at hs hown ⊢
  have hcount : keyCount (b.touch N.ofs).mem N.ofs = N.keyCount := (hown.held (by simp)).keyCount
  have hle := N.keyCount_le
  rw [SetState.stores] at hs
  rw [setStep]
  dsimp only at hs ⊢
  rw [hcount] at hs ⊢
  generalize b.touch N.ofs = b₁ at *
  by_cases hfull : nodeKeyCountMax ≤ N.keyCount
  · rw [if_pos hfull] at hs ⊢
    cases par with
    | none =>
      obtain ⟨rfl, rfl⟩ := Prod.mk.inj (Option.some_inj.mp hs)
      exact Slot.reads_splitRoot hown hNt
    | some p =>
      obtain ⟨P, rfl, hP, hroom⟩ := hpar p rfl
      obtain ⟨R₁, R₂, rfl⟩ := List.append_of_mem hP
      have hown' : b₁.Owns (P.chunk :: N.chunk :: (R₁ ++ R₂)) :=
        hown.perm ((List.perm_middle.cons _).trans (.swap _ _ _))
      dsimp only at hs ⊢
      cases hi : Buffer.slotOf (b₁.makeRoom (some P.ofs)).mem P.ofs N.ofs with
      | none =>
        rw [hi] at hs
        cases hs
      | some i =>
        rw [hi] at hs
        obtain ⟨rfl, rfl⟩ := Prod.mk.inj (Option.some_inj.mp hs)
        have hPk : keyCount (b₁.makeRoom (some P.ofs)).mem P.ofs = P.keyCount :=
          ((hown'.makeRoom (some P.ofs)).1.held (by simp)).keyCount
        have hseven : N.keyCount = 7 := le_antisymm hle hfull
        exact Slot.reads_splitChild hown' hseven (hroom hseven) (hPk ▸ slotOf_le hi) hNt
  · rw [if_neg hfull] at hs ⊢
    have hlt : N.keyCount < 7 := Nat.lt_of_not_le hfull
    split at hs
    · rename_i hfound
      rw [if_pos hfound, Buffer.updateEntry_eq]
      split at hs
      · cases hs
      · rename_i hlen
        obtain ⟨rfl, rfl⟩ := Prod.mk.inj (Option.some_inj.mp hs)
        rw [if_neg hlen]
        exact Slot.reads_replaceEntry hown (hfound.1.trans hlt)
    · rename_i hmiss
      rw [if_neg hmiss]
      split at hs
      · cases hs
      · rename_i hchild
        obtain ⟨rfl, rfl⟩ := Prod.mk.inj (Option.some_inj.mp hs)
        rw [if_neg hchild]
        exact Slot.reads_insertEntry hown ((scan_le _ _ _).trans (Nat.zero_add _).le) hlt

end Stores

section Run

variable {a : SetArgs} {b : Buffer} {type : ValueType} {R : List Chunk} {s s' : SetState} {h o : ℕ}

/-- The parent of a full node has room for a median. Its child slot leads to the node, unless it is
a new root over a node whose offset has not fitted the slot. -/
inductive Parent (type : ValueType) (P : Block) (o : ℕ) : Prop

  | leading {K₁ K₂ : List Entry} {A C : List ℕ} : Fits type P (K₁ ++ K₂) (A ++ o :: C) →
      A.length = K₁.length → C.length = K₂.length → (K₁ ++ K₂).length < 7 → o ∉ A → Parent type P o

  | lost : P.keyCount = 0 → P.child 0 ≠ o → Parent type P o

theorem Parent.keyCount_lt {P : Block} (h : Parent type P o) : P.keyCount < 7 := by
  cases h with
  | leading hf _ _ hl _ => exact hf.count ▸ hl
  | lost hk _ => omega

/-- The descent stands on a tree that is ready to be visited. -/
def SetState.Visiting (a : SetArgs) (type : ValueType) (s : SetState) : Prop :=
  ∃ h, ∃ t : NodeTree h, ∃ R, NodeTree.Ready a s.buf type R t ∧ t.ofs = s.nodeOfs ∧
    ∀ p, s.parentOfs = some p → ∃ P R', R = P.chunk :: R' ∧ P.ofs = p ∧
      (t.keys.length = 7 → Parent type P t.ofs)

theorem SetState.Visiting.on (h : s.Visiting a type) : ∃ B R, s.On B R ∧ B.type = type := by
  obtain ⟨h, t, R, hr, hofs, hpar⟩ := h
  refine ⟨t.label, _, ⟨hr.owns_root, hofs, fun p hp => ?_⟩, hr.laid.fits.type_eq⟩
  obtain ⟨P, R', rfl, hP, hfull⟩ := hpar p hp
  exact ⟨P, hP, by simp, fun hk => (hfull (hr.laid.fits.count ▸ hk)).keyCount_lt⟩

theorem slotOf_lost {P : Block} {m : Mem} (hP : P.Held m) (hk : P.keyCount = 0)
    (hc : P.child 0 ≠ o) : Buffer.slotOf m P.ofs o = none := by
  rw [Buffer.slotOf, hP.keyCount, hk, List.find?_eq_none]
  intro i hi
  obtain rfl : i = 0 := by simpa using hi
  rw [hP.getChildOffset (by omega)]
  simpa using hc

/-- An iteration that goes on stands on a ready tree again. -/
theorem SetState.Visiting.step (hv : s.Visiting a type) (hs : setStep a s = .inl s') :
    s'.Visiting a type := by
  obtain ⟨b, par, node, d⟩ := s
  obtain ⟨h, t, R, hr, rfl, hpar⟩ := hv
  rw [setStep_eq] at hs
  rcases Nat.lt_or_ge t.keys.length 7 with hlt | hge
  · rcases NodeTree.hit_or_spot a.cmp t.keys with ⟨K₁, e, K₂, hks, h₁, he⟩ | ⟨K₁, K₂, hks, hsp⟩
    · have hst := hr.stands
      rw [hks] at hst
      have hstep : setStepWith Buffer.updateEntry a ⟨b, par, t.ofs, d⟩ = .inr _ :=
        hst.step_hit (hks ▸ hlt) h₁ he
      cases hstep.symm.trans hs
    · cases h with
      | zero =>
        have hst := hr.stands
        rw [hks] at hst
        have hstep : setStepWith Buffer.updateEntry a ⟨b, par, t.ofs, d⟩ = .inr _ :=
          hst.step_insert (hks ▸ hlt) hsp rfl
        cases hstep.symm.trans hs
      | succ h =>
        obtain ⟨A, c, C, hcs, hA, hC, hstep, hf, ho, hready⟩ :=
          hr.descend Buffer.updateEntry par d hlt hks hsp
        obtain rfl := Sum.inl.inj (hstep.symm.trans hs)
        refine ⟨h, c, _, hready, rfl, fun p hp => ⟨_, _, rfl, Option.some_inj.mp hp, fun _ => ?_⟩⟩
        rw [List.map_append, List.map_cons] at hf
        exact .leading hf (by simpa using hA) (by simpa using hC) (hks ▸ hlt) ho
  · have hk7 : t.keys.length = 7 := le_antisymm hr.laid.length_le hge
    cases par with
    | none =>
      obtain ⟨b₁, s, hstep, -, -, -, hready, hfits⟩ := hr.splitRoot Buffer.updateEntry d hk7
      obtain rfl := Sum.inl.inj (hstep.symm.trans hs)
      refine ⟨h, _, _, hready, by simp [NodeTree.ofs], fun p hp => ?_⟩
      refine ⟨_, _, rfl, Option.some_inj.mp hp, fun _ => ?_⟩
      by_cases hs32 : s < 2 ^ 32
      · have hf : Fits type _ ([] ++ []) ([] ++ s :: []) := hfits hs32
        simpa [NodeTree.ofs] using Parent.leading hf rfl rfl (by simp) (by simp)
      · refine .lost (Packed.keyCount_sizeKc (by omega)) ?_
        have hc : (t.label.bump.rootOver s).child 0 < 2 ^ 32 := UInt32.toNat_lt _
        simp only [NodeTree.ofs, BTree.label_setRoot, Block.ofs_moved]
        omega
    | some p =>
      obtain ⟨P, R', rfl, rfl, hP⟩ := hpar p rfl
      cases hP hk7 with
      | leading hf hA hC hl ho =>
        obtain ⟨b₁, s, P', m, l, r, hsp, hstep, -, -, -, hlo, hro, hkept, hll, hrl, hown, -⟩ :=
          NodeTree.split_child Buffer.updateEntry d hr hk7 hf hA hC hl ho
        obtain rfl := Sum.inl.inj (hstep.symm.trans hs)
        obtain ⟨hlready, hrready⟩ := hr.halves hsp hll hrl hown
        by_cases hm : a.right m = true
        · refine ⟨h, r, _, hrready, by simp [hm, hro], fun p hp => ?_⟩
          refine ⟨P', _, rfl, hkept.ofs.trans (Option.some_inj.mp hp), fun hk => ?_⟩
          rw [hsp.length_right] at hk
          omega
        · refine ⟨h, l, _, hlready, by simp [hm, hlo], fun p hp => ?_⟩
          refine ⟨P', _, rfl, hkept.ofs.trans (Option.some_inj.mp hp), fun hk => ?_⟩
          rw [hsp.length_left] at hk
          omega
      | lost hk hc =>
        have hst := hr.stands
        have hroom := (hst.touch.owns.makeRoom (some P.ofs)).1
        have hslot := slotOf_lost (hroom.held (B := P) (by simp)) hk hc
        have hstep : setStepWith Buffer.updateEntry a ⟨b, some P.ofs, t.ofs, d⟩ = .inr _ :=
          step_lost hst hk7 hslot
        cases hstep.symm.trans hs

theorem Container.visiting {c : Container} (ho : b.Owns (c.chunks ++ R)) (hk : a.isAppend = c.isArr)
    (hkey : a.isAppend = true → a.key = []) :
    ∀ s ∈ b.setVisits c.ofs a, s.Visiting a (kindOf a.isAppend) := by
  apply Loop.visited_invariant (I := SetState.Visiting a (kindOf a.isAppend))
    (fun s s' hv hs => hv.step hs) _
  rw [hk]
  refine ⟨c.height, c.tree, R, ?_, rfl, fun p hp => by cases hp⟩
  exact ⟨hk ▸ ho, c.laid, c.shaped, hk ▸ c.readable, kindOf_named _, hkey⟩

/-- What a call on a container stores in slots is right up to their width. -/
theorem Container.reads {c : Container} (ho : b.Owns (c.chunks ++ R)) (hk : a.isAppend = c.isArr)
    (hkey : a.isAppend = true → a.key = []) (hs : s ∈ b.setVisits c.ofs a) {slot : Slot}
    (hstores : s.stores a = some (slot, o)) :
    slot.Reads a (SetState.bufOf (setStep a s)).mem o := by
  obtain ⟨B, R', hon, ht⟩ := (visiting ho hk hkey s hs).on
  exact hon.reads ht hstores

end Run

section Size

variable {b : Buffer} {ofs : ℕ} {vs : List Scalar}

theorem load32_write32 {v : UInt32} (hl : ofs + 4 ≤ b.data.length) :
    load32 (b.write32 ofs v).mem ofs = v := by
  apply load32_eq
  have h : slice (b.write32 ofs v).mem ofs 4 = overwrite (slice b.mem ofs 4) 0 (bytes32 v) :=
    slice_overwrite_of_inside (k := 0) hl
  rw [h, overwrite_front (by simp), List.drop_eq_nil_of_le (by simp), List.append_nil]

theorem size_setSize (s : UInt32) (hl : ofs + nodeSize ≤ b.data.length) :
    (size (b.setSize ofs s).mem ofs).toNat = s.toNat % 2 ^ 26 := by
  have hword : sizeKc (b.setSize ofs s).mem ofs = Packed.withSize (sizeKc b.mem ofs) s :=
    load32_write32 (by simp only [nodeSize] at hl; omega)
  rw [size, hword, Packed.toNat_size_withSize]

theorem size_setSize_succ {w : UInt32} (hl : ofs + nodeSize ≤ b.data.length) :
    (size (b.setSize ofs (Packed.size w + 1)).mem ofs).toNat =
      ((Packed.size w).toNat + 1) % 2 ^ 26 := by
  have hlt : (Packed.size w).toNat < 2 ^ 26 := by
    rw [Packed.toNat_size]
    have := w.toNat_lt
    omega
  rw [size_setSize _ hl, UInt32.toNat_add]
  simp only [UInt32.reduceToNat]
  omega

theorem size_arrAppend (v : Scalar) (hl : ofs + nodeSize ≤ b.data.length) :
    (size (b.arrAppend ofs v).mem ofs).toNat = ((size b.mem ofs).toNat + 1) % 2 ^ 26 :=
  size_setSize_succ (hl.trans (length_le_setImpl b ofs))

theorem length_le_makeNode (b : Buffer) (o : ℕ) (type : ValueType) :
    b.data.length ≤ (b.makeNode o type).data.length := by
  simpa [Buffer.makeNode, Buffer.setGenType, Buffer.clear] using b.length_le_ensureCapacity nodeSize

theorem size_arrAppendContainer {isArr : Bool} {o : ℕ} {b' : Buffer}
    (hl : ofs + nodeSize ≤ b.data.length) (h : b.arrAppendContainer ofs isArr = (some o, b')) :
    (size b'.mem ofs).toNat = ((size b.mem ofs).toNat + 1) % 2 ^ 26 := by
  have hset := length_le_setImpl (a := appendArgs (size b.mem ofs) (kindOf isArr) []) b ofs
  rw [Buffer.arrAppendContainer] at h
  split at h
  · cases h
  · rename_i o₀ b₀ heq
    rw [heq] at hset
    obtain rfl : _ = b' := congrArg Prod.snd h
    exact size_setSize_succ (hl.trans (hset.trans (length_le_makeNode _ _ _)))

theorem length_le_pushAll (b : Buffer) (vs : List Scalar) :
    b.data.length ≤ (b.pushAll vs).data.length := by
  induction vs generalizing b with
  | nil => exact le_rfl
  | cons v vs ih =>
    have hset := length_le_setImpl (a := appendArgs (size b.mem 0) v.type v.image) b 0
    exact (hset.trans (Buffer.length_write32 _ _ _).ge).trans (ih (b.arrAppend 0 v))

/-- After a number of appends the size is that number, up to its width. -/
theorem size_pushAll (hl : nodeSize ≤ b.data.length) (h₀ : (size b.mem 0).toNat = 0) :
    (size (b.pushAll vs).mem 0).toNat = vs.length % 2 ^ 26 := by
  induction vs using List.reverseRecOn with
  | nil => exact h₀
  | append_singleton vs v ih =>
    have hlast : b.pushAll (vs ++ [v]) = (b.pushAll vs).arrAppend 0 v := List.foldl_concat ..
    rw [hlast, size_arrAppend v (by simpa using hl.trans (length_le_pushAll b vs)), ih]
    simp

end Size

/-- The length of an array is counted up to 26 bits, and the offsets that a call on a container
stores in slots are kept up to 32 bits. -/
theorem fields_wrap :
    (∀ (b : Buffer) (ofs : ℕ), ofs + nodeSize ≤ b.data.length →
      (∀ v, (size (b.arrAppend ofs v).mem ofs).toNat = ((size b.mem ofs).toNat + 1) % 2 ^ 26) ∧
      ∀ isArr o b', b.arrAppendContainer ofs isArr = (some o, b') →
        (size b'.mem ofs).toNat = ((size b.mem ofs).toNat + 1) % 2 ^ 26) ∧
    ∀ (b : Buffer) (c : Container) (R : List Chunk) (a : SetArgs), b.Owns (c.chunks ++ R) →
      a.isAppend = c.isArr → (a.isAppend = true → a.key = []) → ∀ s ∈ b.setVisits c.ofs a,
        ∀ slot o, s.stores a = some (slot, o) →
          slot.Reads a (SetState.bufOf (setStep a s)).mem o := by
  constructor
  · exact fun b ofs hl =>
      ⟨fun v => size_arrAppend v hl, fun _ _ _ h => size_arrAppendContainer hl h⟩
  · intro b c R a ho hk hkey s hs slot o hstores
    exact Container.reads ho hk hkey hs hstores

/-- Both the eighth element of an array and the eighth key of an object split a full root: two nodes
and an entry are stored. -/
theorem fields_wrap_split :
    let b := Buffer.empty.initArray.pushAll (List.replicate 7 .null)
    let a := setArgs [72] .null []
    keyCount b.mem 0 = 7 ∧
      (size (b.arrAppend 0 .null).mem 0).toNat = ((size b.mem 0).toNat + 1) % 2 ^ 26 ∧
      (((letters 7).setVisits 0 a).filterMap (SetState.stores a)).length = 3 ∧
      ∀ s ∈ (letters 7).setVisits 0 a, ∀ slot o, s.stores a = some (slot, o) →
        slot.Reads a (SetState.bufOf (setStep a s)).mem o := by
  intro b a
  obtain ⟨c, ho, hc, hofs, -⟩ := exists_letters (show 7 ≤ 8 by decide)
  have hreads := fields_wrap.2 (letters 7) c [] a ho hc.symm (by simp [a, setArgs])
  rw [hofs] at hreads
  exact ⟨by decide +kernel, (fields_wrap.1 b 0 (by decide +kernel)).1 .null, by decide +kernel,
    hreads⟩

theorem exists_large (n : ℕ) : ∃ b : Buffer, b.usedSize = 96 + n ∧
    b.Owns ((Container.empty false 0).chunks ++ []) := by
  have h : Buffer.empty.initObject.Owns ((Container.empty false 0).chunks ++ []) := setAll_start
  have hl : Buffer.empty.initObject.data.length = 96 := by decide +kernel
  refine ⟨.ofVector (Buffer.empty.initObject.data ++ List.replicate n 0), ?_, ?_⟩
  · rw [Buffer.ofVector, List.length_append, hl, List.length_replicate]
  · refine Owned.mono_used (Owned.append_zeros h n) ?_ le_rfl
    exact h.fits.trans (by rw [Buffer.ofVector, List.length_append]; exact Nat.le_add_right _ _)

theorem stores_empty {b : Buffer} {a : SetArgs}
    (ho : b.Owns ((Container.empty false 0).chunks ++ []))
    (d : ℕ) : SetState.stores a ⟨b, none, 0, d⟩ = some (.entry 0 0, b.usedSize) ∧
      ∃ r b', setStep a ⟨b, none, 0, d⟩ = .inr (some r, b') := by
  have htouch : (b.touch 0).Owns _ := Buffer.Owns.touch [] _ (Container.owns_root ho)
  have hheld := htouch.held (List.mem_cons_self ..)
  have hcount : keyCount (b.touch 0).mem 0 = 0 := hheld.keyCount
  have hchild : getChildOffset (b.touch 0).mem 0 0 = 0 := hheld.getChildOffset (by omega)
  have hsearch : searchNode (b.touch 0).mem 0 a.keyHash a.key a.isAppend 0 = 0 := rfl
  constructor
  · simp [SetState.stores, hcount, hsearch, hchild, nodeKeyCountMax, nodeKeyCount]
    rfl
  · simp [setStep, hcount, hsearch, hchild, nodeKeyCountMax, nodeKeyCount, Buffer.insertEntry]

/-- The append after `2 ^ 26 - 1` others counts no elements, and the offset of an entry behind
4 GiB is lost. -/
theorem fields_overflow :
    (¬ ∀ (vs : List Scalar) (v : Scalar),
      (size ((Buffer.empty.initArray.pushAll vs).arrAppend 0 v).mem 0).toNat =
          (size (Buffer.empty.initArray.pushAll vs).mem 0).toNat + 1 ∨
        (Buffer.empty.initArray.pushAll vs).arrAppend 0 v = Buffer.empty.initArray.pushAll vs) ∧
    ¬ ∀ (b : Buffer) (c : Container) (R : List Chunk) (a : SetArgs), b.Owns (c.chunks ++ R) →
      a.isAppend = c.isArr → (a.isAppend = true → a.key = []) → ∀ s ∈ b.setVisits c.ofs a,
        ∀ slot o, s.stores a = some (slot, o) →
          slot.read (SetState.bufOf (setStep a s)).mem = o ∨ (b.setImpl c.ofs a).1 = none := by
  constructor
  · intro h
    have hl : nodeSize ≤ Buffer.empty.initArray.data.length := by decide +kernel
    have h₀ : (size Buffer.empty.initArray.mem 0).toNat = 0 := by decide +kernel
    obtain ⟨vs, hvs⟩ : ∃ vs : List Scalar, vs.length = 2 ^ 26 - 1 :=
      ⟨List.replicate (2 ^ 26 - 1) .null, List.length_replicate⟩
    have hfull : (size (Buffer.empty.initArray.pushAll vs).mem 0).toNat = vs.length % 2 ^ 26 :=
      size_pushAll hl h₀
    have hnext : (size ((Buffer.empty.initArray.pushAll vs).arrAppend 0 .null).mem 0).toNat =
        ((size (Buffer.empty.initArray.pushAll vs).mem 0).toNat + 1) % 2 ^ 26 :=
      size_arrAppend .null (by simpa using hl.trans (length_le_pushAll _ vs))
    rw [hvs] at hfull
    rcases h vs .null with hsize | hsame
    · omega
    · rw [hsame] at hnext
      omega
  · intro h
    obtain ⟨b, hused, ho⟩ := exists_large (2 ^ 32)
    obtain ⟨hstores, r, b', hstep⟩ := stores_empty (a := setArgs [97] .null []) ho 0
    have hmem : ⟨b, none, 0, 0⟩ ∈ b.setVisits 0 (setArgs [97] .null []) := by
      rw [Buffer.setVisits, Loop.visited]
      exact List.mem_cons_self
    rcases h b (.empty false 0) [] _ ho rfl (by simp [setArgs]) _ hmem _ _
      hstores with hread | hnone
    · have hwrap := (Container.reads ho rfl (by simp [setArgs]) hmem hstores).1
      rw [hread, hused] at hwrap
      omega
    · rw [Container.ofs_empty, Buffer.setImpl, Loop.run, hstep] at hnone
      cases hnone

end Lite3
