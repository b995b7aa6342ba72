import Lite3.Loaded.Reads

/-! # Iterations that stay inside the vector

An entry is checked against the size of the vector before it is read, the offset
of a node is not. So an iteration reads outside exactly when it comes to a node
that does not lie inside. The nodes that it comes to are those of the first ten
levels in key order, up to the first entry that does not fit.
-/

namespace Lite3

open NodeView Config

/-- What an iteration comes to: a node, or an entry of one. -/
inductive Stop
  | node (ofs : ℕ)
  | entry (kvOffset : ℕ)
  deriving DecidableEq

namespace Stop

variable (m : Mem) (under : ℕ → ℕ → List Stop) (size o i : ℕ)

/-- The keys of the node at `o` from key `i` on, each with what is below the child after it -/
def onwards : List Stop :=
  (List.range' i (keyCount m o - i)).flatMap fun j =>
    .entry (getKvOffset m o j) :: under o (j + 1)

/-- The node at `o` and what is below it -/
def layer : List Stop := .node o :: (under o 0 ++ onwards m under o 0)

/-- What the given number of levels below child `i` of the node at `o` hold, in key order -/
def below : ℕ → ℕ → ℕ → List Stop
  | 0, _, _ => []
  | n + 1, o, i =>
    if getChildOffset m o i = 0 then [] else layer m (below n) (getChildOffset m o i)

/-- The first ten levels in key order -/
def inorder : List Stop := layer m (below m treeHeightMax) 0

/-- The key and the type tag of an entry end within a vector of `size` bytes; nodes are not
checked. -/
def Fits : Stop → Prop
  | .node _ => True
  | .entry kv => ((m kv) >>> 2).toNat ≠ 0 ∧ kv + 1 + ((m kv) >>> 2).toNat < size

instance : DecidablePred (Fits m size) := fun x => by
  cases x <;> unfold Fits <;> infer_instance

/-- The nodes before the first entry that does not fit lie inside the vector. -/
def Contained (l : List Stop) : Prop :=
  ∀ o, .node o ∈ l.takeWhile (Fits m size ·) → o + nodeSize ≤ size

end Stop

open Stop

namespace Stop

variable {m : Mem} {under : ℕ → ℕ → List Stop} {size o i kv : ℕ} {l : List Stop}

@[simp] theorem contained_nil (m : Mem) (size : ℕ) : Contained m size [] := by
  simp [Contained]

@[simp] theorem contained_node :
    Contained m size (.node o :: l) ↔ o + nodeSize ≤ size ∧ Contained m size l := by
  have h : Fits m size (.node o) := trivial
  simp [Contained, h]

@[simp] theorem contained_entry :
    Contained m size (.entry kv :: l) ↔ (Fits m size (.entry kv) → Contained m size l) := by
  unfold Contained
  by_cases h : Fits m size (.entry kv) <;> simp [h]

theorem onwards_of_le (h : keyCount m o ≤ i) : onwards m under o i = [] := by
  simp [onwards, Nat.sub_eq_zero_of_le h]

theorem onwards_of_lt (h : i < keyCount m o) : onwards m under o i =
    .entry (getKvOffset m o i) :: (under o (i + 1) ++ onwards m under o (i + 1)) := by
  unfold onwards
  obtain ⟨k, hk⟩ := Nat.exists_eq_add_of_lt h
  have h₁ : keyCount m o - i = k + 1 := by omega
  have h₂ : keyCount m o - (i + 1) = k := by omega
  rw [h₁, h₂, List.range'_succ, List.flatMap_cons, List.cons_append]

theorem isSome_readEntry :
    (Iterator.readEntry m size kv).isSome = true ↔ Fits m size (.entry kv) := by
  unfold Iterator.readEntry Fits
  dsimp only
  generalize ((m kv) >>> 2).toNat = keySize
  split_ifs <;> simp <;> omega

end Stop

namespace Iterator

variable {m : Mem} {size n : ℕ} {st : List (ℕ × ℕ)} {it : Iterator}

/-- What an iteration with the given stack has still to come to. -/
def rest (m : Mem) : List (ℕ × ℕ) → List Stop
  | [] => []
  | (o, i) :: st => onwards m (below m (treeHeightMax - st.length)) o i ++ rest m st

theorem rest_unwind (m : Mem) (st : List (ℕ × ℕ)) : rest m (unwind m st) = rest m st := by
  induction st with
  | nil => rfl
  | cons p st ih =>
    obtain ⟨o, i⟩ := p
    unfold unwind
    split_ifs with h
    · rw [ih, rest, onwards_of_le h, List.nil_append]
    · rfl

theorem unwind_lt {o i : ℕ} {st' : List (ℕ × ℕ)} (h : unwind m st = (o, i) :: st') :
    i < keyCount m o := by
  induction st with
  | nil => simp [unwind] at h
  | cons p st ih =>
    obtain ⟨o', i'⟩ := p
    unfold unwind at h
    split_ifs at h with hk
    · exact ih h
    · obtain ⟨⟨rfl, rfl⟩, rfl⟩ : (o' = o ∧ i' = i) ∧ st = st' := by simpa using h
      exact not_le.mp hk

theorem rest_of_lt {o i : ℕ} (h : i < keyCount m o) : rest m ((o, i) :: st) =
    .entry (getKvOffset m o i) ::
      (below m (treeHeightMax - st.length) o (i + 1) ++ rest m ((o, i + 1) :: st)) := by
  rw [rest, onwards_of_lt h, List.cons_append, List.append_assoc, rest]

theorem below_eq_nil {o i : ℕ}
    (hc : ¬ (getChildOffset m o i ≠ 0 ∧ st.length < treeHeightMax)) :
    below m (treeHeightMax - st.length) o i = [] := by
  cases hn : treeHeightMax - st.length with
  | zero => rfl
  | succ n =>
    rw [below, if_pos]
    by_contra hne
    exact hc ⟨hne, by omega⟩

theorem below_of_ne_zero {o i : ℕ} (hc : getChildOffset m o i ≠ 0)
    (hl : st.length < treeHeightMax) (p : ℕ × ℕ) : below m (treeHeightMax - st.length) o i =
      layer m (below m (treeHeightMax - (p :: st).length)) (getChildOffset m o i) := by
  have hn : treeHeightMax - st.length = treeHeightMax - (p :: st).length + 1 := by
    rw [List.length_cons]
    omega
  rw [hn, below, if_neg hc]

/-- A descent reads inside, and leaves what does, exactly when its subtree and the rest do. -/
theorem contained_descend (h : n + st.length = treeHeightMax) (o : ℕ) :
    Contained m size (layer m (below m n) o ++ rest m st) ↔
      (∀ r ∈ descendReads m n ((o, 0) :: st), r.Inside size) ∧
        Contained m size (rest m (descend m n ((o, 0) :: st))) := by
  have hn : treeHeightMax - st.length = n := by omega
  induction n generalizing o st with
  | zero => simp [layer, below, descendReads, descend, rest, hn, Region.Inside, Region.node]
  | succ n ih =>
    unfold descendReads descend
    by_cases hc : getChildOffset m o 0 = 0
    · simp [layer, below, hc, rest, hn, Region.Inside, Region.node]
    · have hst : n + ((o, 0) :: st).length = treeHeightMax := by
        rw [List.length_cons]
        omega
      have hsub := ih hst (getChildOffset m o 0) (by omega)
      rw [rest, hn] at hsub
      have hsplit : layer m (below m (n + 1)) o ++ rest m st = .node o ::
          (layer m (below m n) (getChildOffset m o 0) ++
            (onwards m (below m (n + 1)) o 0 ++ rest m st)) := by
        simp [layer, below, hc]
      rw [hsplit, if_pos hc, if_pos hc, contained_node, List.forall_mem_cons, and_assoc]
      exact and_congr_right fun _ => hsub

theorem mem_descend {p : ℕ × ℕ} (h : p ∈ descend m n st) :
    p ∈ st ∨ .node p.1 ∈ descendReads m n st := by
  induction n generalizing st with
  | zero => exact .inl (by simpa [descend] using h)
  | succ n ih =>
    cases st with
    | nil => exact .inl h
    | cons q st =>
      obtain ⟨o, i⟩ := q
      unfold descend at h
      unfold descendReads
      split_ifs at h ⊢ with hc
      · rcases ih h with hst | hr
        · rcases List.mem_cons.mp hst with rfl | hst
          · cases n <;> simp [descendReads]
          · exact .inl hst
        · exact .inr (.tail _ hr)
      · exact .inl h

theorem mem_unwind {p : ℕ × ℕ} (h : p ∈ unwind m st) : p ∈ st := by
  induction st with
  | nil => exact h
  | cons q st ih =>
    unfold unwind at h
    split_ifs at h
    · exact .tail _ (ih h)
    · exact h

theorem unwindReads_inside (h : ∀ p ∈ st, (Region.node p.1).Inside size) :
    ∀ r ∈ unwindReads m st, r.Inside size := by
  induction st with
  | nil => simp [unwindReads]
  | cons p st ih =>
    intro r hr
    unfold unwindReads at hr
    rcases List.mem_cons.mp hr with rfl | hr
    · exact h p (.head _)
    · split_ifs at hr
      · exact ih (fun q hq => h q (.tail _ hq)) r hr
      · cases hr

theorem entryReads_inside (m : Mem) (size kv : ℕ) : ∀ r ∈ entryReads m size kv, r.Inside size := by
  unfold entryReads
  dsimp only
  generalize ((m kv) >>> 2).toNat = keySize
  split_ifs <;> simp [Region.Inside] <;> omega

/-- The nodes on the stack lie inside, and the buffer has not been modified. -/
structure OnTrack (m : Mem) (size : ℕ) (it : Iterator) : Prop where
  generation : it.generation = NodeView.generation m 0
  length : it.stack.length ≤ treeHeightMax + 1
  root : (Region.node 0).Inside size
  nodes : ∀ p ∈ it.stack, (Region.node p.1).Inside size

theorem ne_zero_of_root (h : (Region.node 0).Inside size) : size ≠ 0 := by
  rintro rfl
  simp [Region.Inside, Region.node, nodeSize] at h

theorem findFirst_eq (it : Iterator) (hb : it.hasBuffer = true) (hs : size ≠ 0)
    (hgen : it.generation = NodeView.generation m 0) : it.findFirst m size =
      { it with stack := descend m (treeHeightMax + 1 - it.stack.length) it.stack } := by
  unfold findFirst
  rw [if_pos hb, if_neg hs, if_neg (not_not.mpr hgen)]

theorem contained_findFirst (it : Iterator) {o : ℕ} (hb : it.hasBuffer = true)
    (hgen : it.generation = NodeView.generation m 0) (hroot : (Region.node 0).Inside size)
    (hst : it.stack = (o, 0) :: st) (hl : st.length ≤ treeHeightMax) :
    Contained m size (layer m (below m (treeHeightMax - st.length)) o ++ rest m st) ↔
      (∀ r ∈ findFirstReads m size it, r.Inside size) ∧
        Contained m size (rest m (findFirst m size it).stack) := by
  have hn : treeHeightMax + 1 - it.stack.length = treeHeightMax - st.length := by
    rw [hst, List.length_cons]
    omega
  have hs := ne_zero_of_root hroot
  unfold findFirstReads
  rw [findFirst_eq it hb hs hgen, if_pos hb, if_neg hs, if_neg (not_not.mpr hgen), hn, hst,
    List.forall_mem_cons, and_assoc, ← contained_descend (Nat.sub_add_cancel hl),
    and_iff_right hroot]

theorem node_mem_findFirstReads (it : Iterator) {o i : ℕ} (hb : it.hasBuffer = true) (hs : size ≠ 0)
    (hgen : it.generation = NodeView.generation m 0) (hst : it.stack = (o, i) :: st) :
    .node o ∈ findFirstReads m size it := by
  unfold findFirstReads
  rw [if_pos hb, if_neg hs, if_neg (not_not.mpr hgen), hst]
  apply List.mem_cons_of_mem
  generalize treeHeightMax + 1 - ((o, i) :: st).length = n
  cases n <;> exact .head _

theorem OnTrack.findFirst (hb : it.hasBuffer = true) (h : OnTrack m size it)
    (hr : ∀ r ∈ findFirstReads m size it, r.Inside size) :
    OnTrack m size (it.findFirst m size) := by
  have hlen := (weight_findFirst m size it h.length).2
  rw [findFirst_eq it hb (ne_zero_of_root h.root) h.generation] at hlen ⊢
  unfold findFirstReads at hr
  rw [if_pos hb, if_neg (ne_zero_of_root h.root), if_neg (not_not.mpr h.generation)] at hr
  refine ⟨h.generation, hlen, h.root, ?_⟩
  intro p hp
  rcases mem_descend hp with hp | hp
  · exact h.nodes p hp
  · exact hr _ (.tail _ hp)

theorem contained_findNext (hb : it.hasBuffer = true) (h : OnTrack m size it) :
    Contained m size (rest m it.stack) ↔
      (∀ r ∈ findNextReads m size it, r.Inside size) ∧
        ((findNext m size it).hasBuffer = true →
          Contained m size (rest m (findNext m size it).stack)) := by
  have hstack := unwindReads_inside (m := m) h.nodes
  have hlen := (weight_unwind m it.stack).2.trans h.length
  unfold findNext findNextReads
  rw [if_pos hb, if_pos hb, if_neg (ne_zero_of_root h.root), if_neg (not_not.mpr h.generation),
    if_neg (not_or.mpr ⟨ne_zero_of_root h.root, not_not.mpr h.generation⟩), List.forall_mem_cons,
    List.forall_mem_append, and_iff_right h.root, and_iff_right hstack, ← rest_unwind]
  cases hu : unwind m it.stack with
  | nil => simp [rest]
  | cons p st =>
    obtain ⟨o, i⟩ := p
    rw [hu, List.length_cons] at hlen
    dsimp only
    rw [rest_of_lt (unwind_lt hu), List.forall_mem_append,
      and_iff_right (entryReads_inside _ _ _), contained_entry, ← isSome_readEntry]
    cases hv : readEntry m size (getKvOffset m o i) with
    | none => simp
    | some v =>
      dsimp only
      rw [Option.isSome_some, imp_iff_right rfl]
      split_ifs with hc
      · have hl' : ((o, i + 1) :: st).length ≤ treeHeightMax := hc.2
        obtain ⟨it', hit⟩ : ∃ it' : Iterator, it' = { it with
            current := some v, stack := (getChildOffset m o (i + 1), 0) :: (o, i + 1) :: st } :=
          ⟨_, rfl⟩
        have hb' : it'.hasBuffer = true := by rw [hit, hb]
        have hgen : it'.generation = NodeView.generation m 0 := by rw [hit, h.generation]
        have hfirst := contained_findFirst it' hb' hgen h.root (by rw [hit]) hl'
        rw [← hit, below_of_ne_zero hc.1 hc.2, hfirst,
          findFirst_eq it' hb' (ne_zero_of_root h.root) hgen, imp_iff_right hb']
      · simp [below_eq_nil hc, hb]

theorem OnTrack.findNext (h : OnTrack m size it)
    (hr : ∀ r ∈ findNextReads m size it, r.Inside size)
    (hb : (findNext m size it).hasBuffer = true) : OnTrack m size (it.findNext m size) := by
  have hlen := (weight_unwind m it.stack).2.trans h.length
  unfold Iterator.findNext findNextReads at *
  by_cases hb' : it.hasBuffer = true
  · rw [if_pos hb', if_neg (not_or.mpr ⟨ne_zero_of_root h.root, not_not.mpr h.generation⟩)] at hb ⊢
    rw [if_pos hb', if_neg (ne_zero_of_root h.root), if_neg (not_not.mpr h.generation)] at hr
    cases hu : unwind m it.stack with
    | nil => simp [hu] at hb
    | cons p st =>
      obtain ⟨o, i⟩ := p
      have hnode : ∀ q ∈ (o, i) :: st, (Region.node q.1).Inside size :=
        fun q hq => h.nodes q (mem_unwind (hu ▸ hq))
      have hnode' : ∀ q ∈ (o, i + 1) :: st, (Region.node q.1).Inside size := by
        simpa using hnode
      rw [hu, List.length_cons] at hlen
      simp only [hu] at hb hr ⊢
      cases hv : readEntry m size (getKvOffset m o i) with
      | none => simp [hv] at hb
      | some v =>
        simp only [hv] at hr ⊢
        split_ifs with hc
        · rw [if_pos hc] at hr
          have hfirst : ∀ r ∈ findFirstReads m size { it with
              current := some v, stack := (getChildOffset m o (i + 1), 0) :: (o, i + 1) :: st },
              r.Inside size :=
            fun r hr' => hr r (.tail _ (List.mem_append_right _ (List.mem_append_right _ hr')))
          refine OnTrack.findFirst hb' ⟨h.generation, ?_, h.root, ?_⟩ hfirst
          · simp only [List.length_cons]
            omega
          · intro p hp
            rcases List.mem_cons.mp hp with rfl | hp
            · exact hfirst _
                (node_mem_findFirstReads _ hb' (ne_zero_of_root h.root) h.generation rfl)
            · exact hnode' p hp
        · exact ⟨h.generation, hlen, h.root, hnode'⟩
  · rw [if_neg hb']
    exact h

end Iterator

/-- `begin` at offset zero and all increments after it read only inside the vector. -/
def ReadsInside (data : List UInt8) (outside : Mem) : Prop :=
  ∀ k, ∀ r ∈ Iterator.readsAt (loaded data outside) data.length 0 k, r.Inside data.length

theorem ReadsInside.same {data : List UInt8} {outside : Mem} (h : ReadsInside data outside)
    (outside' : Mem) (k : ℕ) : ∀ r ∈ Iterator.readsAt (loaded data outside) data.length 0 k,
      r.Same (loaded data outside) (loaded data outside') := by
  intro r hr i hi
  have hlt : r.ofs + i < data.length := by
    have := h k r hr
    unfold Region.Inside at this
    omega
  simp [loaded, hlt]

theorem readsInside_congr (data : List UInt8) (outside outside' : Mem) :
    ReadsInside data outside ↔ ReadsInside data outside' := by
  have himp : ∀ out out', ReadsInside data out → ReadsInside data out' := by
    intro out out' h k r hr
    rw [← Iterator.readsAt_congr (h.same out')] at hr
    exact h k r hr
  exact ⟨himp _ _, himp _ _⟩

namespace Iterator

variable {m : Mem} {size : ℕ}

theorem contained_start {ofs : ℕ} (hroot : (Region.node 0).Inside size)
    (hofs : (Region.node ofs).Inside size) :
    Contained m size (layer m (below m treeHeightMax) ofs) ↔
      (∀ r ∈ startReads m size ofs (NodeView.generation m 0), r.Inside size) ∧
        ((start m size ofs (NodeView.generation m 0)).hasBuffer = true →
          Contained m size (rest m (start m size ofs (NodeView.generation m 0)).stack)) := by
  have hstart : OnTrack m size ⟨true, NodeView.generation m 0, [(ofs, 0)], none⟩ :=
    ⟨rfl, by simp, hroot, by simpa using hofs⟩
  have hfirst := contained_findFirst ⟨true, NodeView.generation m 0, [(ofs, 0)], none⟩ rfl rfl hroot
    rfl (Nat.zero_le _)
  unfold startReads start
  rw [List.forall_mem_append, and_assoc]
  simp only [rest, List.append_nil, List.length_nil, Nat.sub_zero] at hfirst
  rw [hfirst]
  apply and_congr_right
  intro hr
  exact contained_findNext (by rw [findFirst_eq _ rfl (ne_zero_of_root hroot) rfl])
    (hstart.findFirst rfl hr)

theorem contained_begin (hs : size ≠ 0) : Contained m size (inorder m) ↔
    (∀ r ∈ beginReads m size 0, r.Inside size) ∧ ((beginAt m size 0).hasBuffer = true →
      Contained m size (rest m (beginAt m size 0).stack)) := by
  unfold beginReads beginAt
  rw [if_neg hs, if_neg hs, List.forall_mem_cons, and_assoc]
  by_cases hroot : (Region.node 0).Inside size
  · rw [inorder, contained_start hroot hroot, and_iff_right hroot]
  · have hout : ¬ Contained m size (inorder m) := by
      unfold inorder layer
      rw [contained_node]
      exact fun h => hroot (by simpa [Region.Inside, Region.node] using h.1)
    exact iff_of_false hout fun h => hroot h.1

theorem onTrack_begin {ofs : ℕ} (hs : size ≠ 0) (hr : ∀ r ∈ beginReads m size ofs, r.Inside size)
    (hb : (beginAt m size ofs).hasBuffer = true) : OnTrack m size (beginAt m size ofs) := by
  unfold beginReads startReads at hr
  unfold beginAt start at *
  rw [if_neg hs] at *
  have hroot := hr _ (.head _)
  have hofs : (Region.node ofs).Inside size :=
    hr _ (.tail _ (List.mem_append_left _ (node_mem_findFirstReads _ rfl hs rfl rfl)))
  have hstart : OnTrack m size ⟨true, NodeView.generation m 0, [(ofs, 0)], none⟩ :=
    ⟨rfl, by simp, hroot, by simpa using hofs⟩
  refine (hstart.findFirst rfl fun r hr' => ?_).findNext (fun r hr' => ?_) hb
  · exact hr r (.tail _ (List.mem_append_left _ hr'))
  · exact hr r (.tail _ (List.mem_append_right _ hr'))

variable {k : ℕ}

theorem onTrack_nth (hs : size ≠ 0) (hr : ∀ j ≤ k, ∀ r ∈ readsAt m size 0 j, r.Inside size)
    (hb : (nth m size 0 k).hasBuffer = true) : OnTrack m size (nth m size 0 k) := by
  induction k with
  | zero => exact onTrack_begin hs (hr 0 le_rfl) hb
  | succ k ih =>
    rw [nth_succ] at hb ⊢
    have hb' := ((weight_findNext m size (weight_nth m size 0 k).1).2 hb).1
    exact (ih (fun j hj => hr j (Nat.le_succ_of_le hj)) hb').findNext (hr (k + 1) le_rfl) hb

/-- At any point of an iteration: it stays inside if it has done so and what is left does. -/
theorem contained_nth (hs : size ≠ 0) (k : ℕ) : Contained m size (inorder m) ↔
    (∀ j ≤ k, ∀ r ∈ readsAt m size 0 j, r.Inside size) ∧ ((nth m size 0 k).hasBuffer = true →
      Contained m size (rest m (nth m size 0 k).stack)) := by
  induction k with
  | zero =>
    simp only [Nat.le_zero, forall_eq]
    exact contained_begin hs
  | succ k ih =>
    have hsplit : (∀ j ≤ k + 1, ∀ r ∈ readsAt m size 0 j, r.Inside size) ↔
        (∀ j ≤ k, ∀ r ∈ readsAt m size 0 j, r.Inside size) ∧
          ∀ r ∈ findNextReads m size (nth m size 0 k), r.Inside size := by
      constructor
      · exact fun h => ⟨fun j hj => h j (Nat.le_succ_of_le hj), h (k + 1) le_rfl⟩
      · rintro ⟨h, hlast⟩ j hj
        rcases Nat.le_succ_iff.mp hj with hj | rfl
        · exact h j hj
        · exact hlast
    rw [ih, hsplit, and_assoc, nth_succ]
    apply and_congr_right
    intro hr
    by_cases hb : (nth m size 0 k).hasBuffer = true
    · rw [imp_iff_right hb]
      exact contained_findNext hb (onTrack_nth hs hr hb)
    · simp [findNext, findNextReads, hb]

end Iterator

/-- An iteration over loaded bytes reads only inside the vector exactly when the nodes that it would
come to in key order before the first entry that does not fit lie inside. -/
theorem readsInside_iff (data : List UInt8) (outside : Mem) : ReadsInside data outside ↔
    data = [] ∨ Contained (Buffer.ofVector data).mem data.length
      (inorder (Buffer.ofVector data).mem) := by
  rw [readsInside_congr data outside fun _ => 0, ← loaded_zero]
  by_cases hd : data = []
  · have hend : ∀ k, (Iterator.nth (loaded data fun _ => 0) data.length 0 k).hasBuffer = false :=
      fun k => Iterator.nth_ended (by simp [Iterator.nth, Iterator.beginAt, Iterator.atEnd, hd])
        (Nat.zero_le k)
    refine iff_of_true ?_ (.inl hd)
    intro k
    cases k with
    | zero => simp [Iterator.readsAt, Iterator.beginReads, hd]
    | succ k => simp [Iterator.readsAt, Iterator.findNextReads, hend k]
  · have hs : data.length ≠ 0 := by simpa using hd
    rw [or_iff_right hd]
    constructor
    · intro h
      obtain ⟨-, n, -, hn⟩ := iteration_ends data (fun _ => 0) 0
      refine (Iterator.contained_nth hs n).mpr ⟨fun k _ => h k, fun hb => ?_⟩
      exact absurd ((hn n).mp hb) (lt_irrefl n)
    · intro h k
      exact ((Iterator.contained_nth hs k).mp h).1 k le_rfl

/-- A root whose first child lies behind the end of the vector. -/
def childOutside : List UInt8 := List.replicate 64 0 ++ [96, 0, 0, 0] ++ List.replicate 28 0

/-- Iterating over one node whose first child lies behind it reads outside. -/
theorem reads_outside : ¬ ∀ (data : List UInt8) (outside : Mem), data ≠ [] →
    ReadsInside data outside := by
  intro h
  have hread : Region.node 96 ∈
      Iterator.readsAt (loaded childOutside fun _ => 0) childOutside.length 0 0 := by
    decide +kernel
  exact absurd (h childOutside (fun _ => 0) (by decide) 0 _ hread) (by decide)

end Lite3
