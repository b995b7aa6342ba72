import Lite3.Json.Text
import Lite3.Layout.Node
import Lite3.Loaded.Reads

/-! # What printing reads

The regions that are read for a value to be printed are listed beside the functions
that print it: nodes, type tags, payloads, and keys up to their NUL. What is printed
depends on nothing else.
-/

namespace Lite3

open NodeView Config

namespace Buffer

/-- What is read behind the type tag of a scalar -/
def payloadReads (m : Mem) (type : ValueType) (p : ℕ) : List Region :=
  match type with
  | .bool => [⟨p, 1⟩]
  | .int64 | .float64 => [⟨p, 8⟩]
  | .string | .bytes => [⟨p, 4⟩, ⟨p + 4, (Bytes.load32 m p).toNat⟩]
  | _ => []

/-- The nodes that the lookup of an index comes to, and the type tag that it finds -/
def arrGetReads (b : Buffer) (ofs : ℕ) (index : UInt32) : List Region :=
  (Loop.visited (getStep b.mem index [] true) (b.data.length + 1) ofs).map .node ++
    match b.arrGetImpl ofs index with
    | some (some (_, p)) => [⟨p - 1, 1⟩]
    | _ => []

/-- The characters of a key and the NUL behind them -/
def cstringReads (b : Buffer) (o : ℕ) : Region := ⟨o, (b.cstringAt o).length + 1⟩

/-- The loop over the entries of an object: the generation is compared before an entry is used. -/
def memberReads (b : Buffer) (value : ℕ → List Region) : ℕ → Iterator → List Region
  | 0, _ => []
  | n + 1, it =>
    if it.equals b .atEnd then []
    else
      .node 0 ::
        match it.deref b with
        | .ok (some v) =>
          b.cstringReads (v.valueOffset - 1 - v.key.length) ::
            (value v.valueOffset ++
              (it.findNextReads b.mem b.data.length ++ memberReads b value n (it.next b)))
        | _ => []

/-- What a getter has found at `p` -/
def foundReads (m : Mem) (value : ℕ → List Region) (type : ValueType) (p : ℕ) : List Region :=
  match type with
  | .object | .array => value p
  | _ => payloadReads m type p

/-- The getter of an element: what it finds is read if it has the expected type. -/
def expectReads (b : Buffer) (value : ℕ → List Region) (ofs : ℕ) (i : UInt32) (type : ValueType) :
    List Region :=
  b.arrGetReads ofs i ++
    match b.arrGetImpl ofs i with
    | some (some (t, p)) => if t = type then foundReads b.mem value type p else []
    | _ => []

/-- An element of the array behind the type tag at `ofs` -/
def elementReads (b : Buffer) (value : ℕ → List Region) (ofs : ℕ) (i : UInt32) : List Region :=
  b.arrGetReads (ofs + 1) i ++
    match b.arrGetType (ofs + 1) i with
    | .ok .bool => b.expectReads value ofs i .bool
    | .ok .int64 => b.expectReads value ofs i .int64
    | .ok .float64 => b.expectReads value ofs i .float64
    | .ok .string => b.expectReads value ofs i .string
    | .ok .bytes => b.expectReads value ofs i .bytes
    | .ok .object => b.expectReads value ofs i .object
    | .ok .array => b.expectReads value ofs i .array
    | _ => []

/-- The loop over the elements of an array -/
def loopReads (b : Buffer) (f : UInt32 → List Region) (ofs : ℕ) : List Region :=
  .node ofs :: (List.range (size b.mem ofs).toNat).flatMap fun i => f (.ofNat i)

/-- The value behind the type tag at an offset -/
def valueReads (b : Buffer) : ℕ → ℕ → List Region
  | 0, _ => []
  | n + 1, ofs =>
    ⟨ofs, 1⟩ ::
      match ValueType.ofCode (b.mem ofs) with
      | .object => Iterator.beginReads b.mem b.data.length (ofs + 1) ++
          b.memberReads (b.valueReads n) b.levels (b.begin (ofs + 1))
      | .array => b.loopReads (b.elementReads (b.valueReads n) ofs) (ofs + 1)
      | type => payloadReads b.mem type (ofs + 1)

/-- All that is read for the value to be printed -/
def rootReads (b : Buffer) (ofs : ℕ) : List Region :=
  if ofs = 0 ∧ nodeSize ≤ b.data.length then
    .node 0 ::
      match NodeView.type b.mem 0 with
      | .object => Iterator.beginReads b.mem b.data.length 0 ++
          b.memberReads (b.valueReads b.levels) b.levels (b.begin 0)
      | .array => b.loopReads (b.arrGetReads 0) 0
      | _ => []
  else b.valueReads b.levels ofs

variable {b b' : Buffer} {m m' : Mem} {o p n ofs : ℕ} {index : UInt32} {type : ValueType}
  {it : Iterator}

theorem getStep_congr (hn : (Region.node o).Same m m')
    (ht : ∀ t p, getStep m index [] true o = .inr (some (t, p)) → m (p - 1) = m' (p - 1)) :
    getStep m index [] true o = getStep m' index [] true o := by
  have hcount := hn.keyCount
  have hle : keyCount m o ≤ 7 := Packed.keyCount_le _
  have hcmp : ∀ i < keyCount m o,
      compareNodeKey m o i index [] true = compareNodeKey m' o i index [] true := by
    intro i hi
    have hhash : getHash m o i = getHash m' o i := hn.load32 (by omega) (by omega)
    unfold compareNodeKey
    rw [hhash]
    rfl
  have hsearch : searchNode m o index [] true (keyCount m o) =
      searchNode m' o index [] true (keyCount m' o) := by
    unfold searchNode
    rw [← hcount]
    exact scan_congr fun i hi => by rw [hcmp i (by omega)]
  have hi : searchNode m o index [] true (keyCount m o) ≤ keyCount m o :=
    (scan_le _ _ _).trans (Nat.zero_add _).le
  unfold getStep at ht ⊢
  dsimp only at ht ⊢
  rw [← hsearch, ← hcount]
  generalize searchNode m o index [] true (keyCount m o) = i at ht hi ⊢
  rw [← hn.getChildOffset (show i < 8 by omega)]
  by_cases hlt : i < keyCount m o
  · rw [← hcmp i hlt]
    by_cases heq : compareNodeKey m o i index [] true = .eq
    · rw [if_pos ⟨hlt, heq⟩] at ht
      rw [if_pos ⟨hlt, heq⟩, if_pos ⟨hlt, heq⟩]
      have hkv : valueOffset m o i true = valueOffset m' o i true :=
        hn.getKvOffset (by omega)
      have htag := ht _ _ rfl
      rw [Nat.add_sub_cancel] at htag
      rw [← hkv, htag]
    · have hno : ¬ (i < keyCount m o ∧ compareNodeKey m o i index [] true = .eq) := fun h => heq h.2
      rw [if_neg hno, if_neg hno]
  · simp only [hlt, false_and, if_false]

theorem run_getStep_congr
    (hn : ∀ o ∈ Loop.visited (getStep m index [] true) n ofs, (Region.node o).Same m m')
    (ht : ∀ t p, Loop.run (getStep m index [] true) n ofs = .inr (some (t, p)) →
      m (p - 1) = m' (p - 1)) :
    Loop.run (getStep m index [] true) n ofs = Loop.run (getStep m' index [] true) n ofs := by
  induction n generalizing ofs with
  | zero => rfl
  | succ n ih =>
    unfold Loop.visited at hn
    unfold Loop.run at ht ⊢
    have hstep : getStep m index [] true ofs = getStep m' index [] true ofs := by
      apply getStep_congr (hn ofs (.head _))
      intro t p h
      apply ht t p
      rw [h]
    rw [← hstep]
    cases h : getStep m index [] true ofs with
    | inl o =>
      rw [h] at hn ht
      exact ih (fun o' ho' => hn o' (.tail _ ho')) ht
    | inr r => rfl

/-- Two vectors of one length with the same bytes in the regions that are read -/
structure Agree (b b' : Buffer) (l : List Region) : Prop where
  length : b.data.length = b'.data.length
  same : ∀ r ∈ l, r.Same b.mem b'.mem

theorem Agree.mono {l l' : List Region} (h : Agree b b' l) (hl : l' ⊆ l) : Agree b b' l' :=
  ⟨h.length, fun r hr => h.same r (hl hr)⟩

theorem arrGetImpl_congr (h : Agree b b' (b.arrGetReads ofs index)) :
    b.arrGetImpl ofs index = b'.arrGetImpl ofs index := by
  have hrun : Loop.run (getStep b.mem index [] true) (b.data.length + 1) ofs =
      Loop.run (getStep b'.mem index [] true) (b.data.length + 1) ofs := by
    apply run_getStep_congr
    · exact fun o ho => h.same _ (List.mem_append_left _ (List.mem_map_of_mem ho))
    · intro t p hp
      have hfound : b.arrGetImpl ofs index = some (some (t, p)) := by
        rw [arrGetImpl, getImpl, hp]
      refine h.same ⟨p - 1, 1⟩ (List.mem_append_right _ ?_) 0 Nat.one_pos
      rw [hfound]
      exact .head _
  unfold arrGetImpl getImpl
  rw [hrun, h.length]

theorem arrGetType_congr (h : Agree b b' (b.arrGetReads ofs index)) :
    b.arrGetType ofs index = b'.arrGetType ofs index := by
  rw [arrGetType, arrGetType, arrGetImpl_congr h]

theorem cstr_slice_congr {k : ℕ}
    (h : ∀ i ≤ (cstr (Bytes.slice m o k)).length, m (o + i) = m' (o + i)) :
    cstr (Bytes.slice m o k) = cstr (Bytes.slice m' o k) := by
  induction k generalizing o with
  | zero => rfl
  | succ k ih =>
    have hbyte : m o = m' o := h 0 (Nat.zero_le _)
    unfold cstr Bytes.slice at h ⊢
    rw [List.takeWhile_cons] at h ⊢
    rw [List.takeWhile_cons, ← hbyte]
    split at h
    · next hc =>
      have hrest := ih fun i hi => by
        rw [Nat.add_assoc, Nat.add_comm 1 i]
        exact h (i + 1) (Nat.succ_le_succ hi)
      rw [if_pos hc, if_pos hc]
      exact congrArg _ hrest
    · next hc => rw [if_neg hc, if_neg hc]

theorem cstringAt_congr (h : Agree b b' [b.cstringReads o]) : b.cstringAt o = b'.cstringAt o := by
  have hsame : (b.cstringReads o).Same b.mem b'.mem := h.same _ (.head _)
  unfold cstringAt
  rw [← h.length]
  exact cstr_slice_congr fun i hi => hsame i (Nat.lt_succ_of_le hi)

theorem readBool_congr (h : ∀ r ∈ payloadReads m .bool p, r.Same m m') :
    readBool m p = readBool m' p := by
  have hbyte : m p = m' p := h ⟨p, 1⟩ (.head _) 0 Nat.one_pos
  rw [readBool, readBool, hbyte]

theorem readI64_congr (h : ∀ r ∈ payloadReads m .int64 p, r.Same m m') :
    readI64 m p = readI64 m' p := by
  rw [readI64, readI64, Bytes.slice_congr (h ⟨p, 8⟩ (.head _))]

theorem readF64_congr (h : ∀ r ∈ payloadReads m .float64 p, r.Same m m') :
    readF64 m p = readF64 m' p := by
  rw [readF64, readF64, Bytes.slice_congr (h ⟨p, 8⟩ (.head _))]

theorem readSpan_congr (h : ∀ r ∈ payloadReads m .string p, r.Same m m') :
    readSpan m p = readSpan m' p := by
  have hlen : Bytes.load32 m p = Bytes.load32 m' p := by
    unfold Bytes.load32
    rw [Bytes.slice_congr (h ⟨p, 4⟩ (.head _))]
  rw [readSpan, readSpan, ← hlen, Bytes.slice_congr (h ⟨p + 4, _⟩ (.tail _ (.head _)))]

theorem expect_congr {β : Type} {f f' : ℕ → β} {missing mismatch : String}
    {value : ℕ → List Region} (h : Agree b b' (b.expectReads value ofs index type))
    (hf : ∀ p, b.arrGetImpl ofs index = some (some (type, p)) → f p = f' p) :
    expect (b.arrGetImpl ofs index) type missing mismatch f =
      expect (b'.arrGetImpl ofs index) type missing mismatch f' := by
  rw [← arrGetImpl_congr (h.mono (List.subset_append_left _ _))]
  cases hg : b.arrGetImpl ofs index with
  | none => rfl
  | some r =>
    cases r with
    | none => rfl
    | some q =>
      obtain ⟨t, p⟩ := q
      unfold expect
      dsimp only
      split_ifs with ht
      · subst ht
        rw [hf p hg]
      · rfl

variable {reads : ℕ → List Region} {value value' : ℕ → Except Fault Json}

theorem Agree.found (h : Agree b b' (b.expectReads reads ofs index type))
    (hg : b.arrGetImpl ofs index = some (some (type, p))) :
    Agree b b' (foundReads b.mem reads type p) := by
  apply h.mono
  rw [expectReads, hg]
  dsimp only
  rw [if_pos rfl]
  exact List.subset_append_right _ _

theorem found_of_expect {β : Type} {found : Option (Option (ValueType × ℕ))}
    {missing mismatch : String} {f : ℕ → β} {x : β}
    (h : expect found type missing mismatch f = .ok x) :
    ∃ p, found = some (some (type, p)) ∧ f p = x := by
  rcases found with _ | _ | ⟨t, p⟩
  · cases h
  · cases h
  · unfold expect at h
    dsimp only at h
    split_ifs at h with ht
    · subst ht
      exact ⟨p, rfl, Except.ok.inj h⟩

theorem nested_congr {get get' : Except Fault ℕ}
    (hget : get = get') (hval : ∀ p, get = .ok p → value p = value' p) :
    (do return [← value (← get)]) = (do return [← value' (← get')] : Except Fault (List Json)) := by
  subst hget
  cases get with
  | error f => rfl
  | ok p =>
    simp only [bind, Except.bind]
    rw [hval p rfl]

theorem element_congr (hval : ∀ p, Agree b b' (reads p) → value p = value' p)
    (h : Agree b b' (b.elementReads reads ofs index)) :
    b.element value ofs index = b'.element value' ofs index := by
  have htype := arrGetType_congr (h.mono (List.subset_append_left _ _))
  have hrest := h.mono (List.subset_append_right _ _)
  unfold element
  rw [← htype]
  cases ht : b.arrGetType (ofs + 1) index with
  | error f => rfl
  | ok type =>
    rw [ht] at hrest
    cases type with
    | null | invalid | count | other => rfl
    | bool =>
      have hget : b.arrGetBool ofs index = b'.arrGetBool ofs index :=
        expect_congr hrest fun p hg => readBool_congr (hrest.found hg).same
      simp only [bind, Except.bind, hget]
    | int64 =>
      have hget : b.arrGetI64 ofs index = b'.arrGetI64 ofs index :=
        expect_congr hrest fun p hg => readI64_congr (hrest.found hg).same
      simp only [bind, Except.bind, hget]
    | float64 =>
      have hget : b.arrGetF64 ofs index = b'.arrGetF64 ofs index :=
        expect_congr hrest fun p hg => readF64_congr (hrest.found hg).same
      simp only [bind, Except.bind, hget]
    | string =>
      have hget : b.arrGetStr ofs index = b'.arrGetStr ofs index :=
        expect_congr hrest fun p hg => readSpan_congr (hrest.found hg).same
      simp only [bind, Except.bind, hget]
    | bytes =>
      have hget : b.arrGetBytes ofs index = b'.arrGetBytes ofs index :=
        expect_congr hrest fun p hg => readSpan_congr (hrest.found hg).same
      simp only [bind, Except.bind, hget]
    | object =>
      have hget : b.arrGetObj ofs index = b'.arrGetObj ofs index :=
        expect_congr hrest fun _ _ => rfl
      apply nested_congr hget
      intro p hp
      obtain ⟨q, hg, rfl⟩ := found_of_expect hp
      exact hval q (hrest.found hg)
    | array =>
      have hget : b.arrGetArr ofs index = b'.arrGetArr ofs index :=
        expect_congr hrest fun _ _ => rfl
      apply nested_congr hget
      intro p hp
      obtain ⟨q, hg, rfl⟩ := found_of_expect hp
      exact hval q (hrest.found hg)

theorem mapM_congr {α β : Type} {f f' : α → Except Fault β} {xs : List α}
    (h : ∀ x ∈ xs, f x = f' x) : xs.mapM f = xs.mapM f' := by
  induction xs with
  | nil => rfl
  | cons x xs ih =>
    rw [List.mapM_cons, List.mapM_cons, h x List.mem_cons_self,
      ih fun y hy => h y (List.mem_cons_of_mem _ hy)]

theorem elements_congr {β : Type} {f f' : UInt32 → Except Fault β} {reads : UInt32 → List Region}
    (hf : ∀ i, Agree b b' (reads i) → f i = f' i) (h : Agree b b' (b.loopReads reads ofs)) :
    b.elements f ofs = b'.elements f' ofs := by
  have hnode : (Region.node ofs).Same b.mem b'.mem := h.same _ (.head _)
  have hsize : size b.mem ofs = size b'.mem ofs :=
    congrArg Packed.size (hnode.load32 (by omega) (by omega))
  unfold elements
  rw [← hsize]
  apply mapM_congr
  intro i hi
  apply hf
  apply h.mono
  intro r hr
  exact .tail _ (List.mem_flatMap.mpr ⟨i, hi, hr⟩)

theorem deref_congr (h : Agree b b' [.node 0]) : it.deref b = it.deref b' := by
  have hnode : (Region.node 0).Same b.mem b'.mem := h.same _ (.head _)
  have hnil : b.data = [] ↔ b'.data = [] := by
    rw [← List.length_eq_zero_iff, h.length, List.length_eq_zero_iff]
  unfold Iterator.deref
  rw [hnode.generation]
  simp only [hnil]

theorem equals_congr (b b' : Buffer) (it : Iterator) :
    it.equals b .atEnd = it.equals b' .atEnd := by
  cases hb : it.hasBuffer <;> simp [Iterator.equals, Iterator.atEnd, hb]

theorem members_congr (hval : ∀ p, Agree b b' (reads p) → value p = value' p)
    (h : Agree b b' (b.memberReads reads n it)) :
    b.members value n it = b'.members value' n it := by
  induction n generalizing it with
  | zero => rfl
  | succ n ih =>
    unfold memberReads at h
    unfold members
    rw [← equals_congr b b']
    split_ifs with hend
    · rfl
    · rw [if_neg hend] at h
      rw [← deref_congr (h.mono (by simp))]
      cases hv : it.deref b with
      | error f => rfl
      | ok found =>
        cases found with
        | none => rfl
        | some v =>
          rw [hv] at h
          dsimp only at h ⊢
          have hkey : b.cstringAt (v.valueOffset - 1 - v.key.length) =
              b'.cstringAt (v.valueOffset - 1 - v.key.length) := cstringAt_congr (h.mono (by simp))
          have hv := hval v.valueOffset (h.mono fun r hr => by simp [hr])
          have hnext : it.next b = it.next b' := by
            unfold Iterator.next
            rw [← h.length]
            exact (Iterator.findNext_congr fun r hr => h.same r (by simp [hr])).1
          have hrest : b.members value n (it.next b) = b'.members value' n (it.next b) :=
            ih (h.mono fun r hr => by simp [hr])
          rw [hnext] at hrest
          rw [hv, hkey, hnext, hrest]

theorem levels_congr (h : b.data.length = b'.data.length) : b.levels = b'.levels := by
  rw [levels, levels, h]

theorem object_congr (hval : ∀ p, Agree b b' (reads p) → value p = value' p)
    (h : Agree b b' (Iterator.beginReads b.mem b.data.length ofs ++
      b.memberReads reads b.levels (b.begin ofs))) :
    b.members value b.levels (b.begin ofs) = b'.members value' b'.levels (b'.begin ofs) := by
  have hbegin : b.begin ofs = b'.begin ofs := by
    rw [Iterator.begin_eq_beginAt, Iterator.begin_eq_beginAt, ← h.length]
    exact (Iterator.begin_congr fun r hr => h.same r (List.mem_append_left _ hr)).1
  have hloop := members_congr hval (h.mono (List.subset_append_right _ _))
  rw [hloop, hbegin, levels_congr h.length]

theorem toYyjsonVal_congr (h : Agree b b' (b.valueReads n ofs)) :
    b.toYyjsonVal n ofs = b'.toYyjsonVal n ofs := by
  induction n generalizing ofs with
  | zero => rfl
  | succ n ih =>
    have hbyte : b.mem ofs = b'.mem ofs :=
      h.same ⟨ofs, 1⟩ (by rw [valueReads]; exact .head _) 0 Nat.one_pos
    unfold valueReads at h
    have hrest := h.mono (List.subset_cons_self _ _)
    unfold toYyjsonVal
    rw [← hbyte]
    cases ht : ValueType.ofCode (b.mem ofs) with
    | null | invalid | count | other => rfl
    | bool =>
      rw [ht] at hrest
      dsimp only
      rw [readBool_congr hrest.same]
    | int64 =>
      rw [ht] at hrest
      dsimp only
      rw [readI64_congr hrest.same]
    | float64 =>
      rw [ht] at hrest
      dsimp only
      rw [readF64_congr hrest.same]
    | string | bytes =>
      rw [ht] at hrest
      dsimp only
      rw [readSpan_congr hrest.same]
    | object =>
      rw [ht] at hrest
      dsimp only
      rw [object_congr (fun p => ih) hrest]
    | array =>
      rw [ht] at hrest
      dsimp only
      rw [elements_congr (fun i => element_congr fun p => ih) hrest]

/-- What is printed depends on nothing but what is read for it. -/
theorem rootVal_congr (h : Agree b b' (b.rootReads ofs)) : b.rootVal ofs = b'.rootVal ofs := by
  unfold rootReads at h
  unfold rootVal
  rw [← h.length, ← levels_congr h.length]
  split_ifs with hroot
  · rw [if_pos hroot] at h
    have htype : NodeView.type b.mem 0 = NodeView.type b'.mem 0 := by
      have hnode : (Region.node 0).Same b.mem b'.mem := h.same _ (.head _)
      exact congrArg Packed.type (hnode.load32 (by omega) (by omega))
    have hrest := h.mono (List.subset_cons_self _ _)
    rw [← htype]
    cases ht : NodeView.type b.mem 0 with
    | null | bool | int64 | float64 | bytes | string | invalid | count | other => rfl
    | object =>
      rw [ht] at hrest
      dsimp only
      rw [object_congr (fun p => toYyjsonVal_congr) hrest]
      rw [← levels_congr h.length]
    | array =>
      rw [ht] at hrest
      dsimp only
      rw [elements_congr (fun i => arrGetType_congr) hrest]
  · rw [if_neg hroot] at h
    exact toYyjsonVal_congr h

end Buffer

end Lite3
