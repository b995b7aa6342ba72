import Lite3.Store.World
import Lite3.Tree.Count

/-! # Steps of the world

The buffer owns the chunks of containers that answer to the cells one by one.
Every call acts on the container it addresses and leaves the others alone, so a
relation between containers and cells survives when it survives at that one.
-/

namespace Lite3

open Bytes

/-- The buffer owns containers that answer to the cells. -/
structure World.Backed (Q : Container → Cell → Prop) (w : World) (cs : List Container) : Prop where
  owns : w.buf.Owns (cs.flatMap Container.chunks)
  cells : List.Forall₂ Q cs w.cells
  linked : Cell.Linked w.cells

theorem forall₂_split {α β : Type*} {R : α → β → Prop} {xs : List α} {ys : List β} {y : β}
    (h : List.Forall₂ R xs ys) (hy : y ∈ ys) :
    ∃ X₁ x X₂ Y₁ Y₂, xs = X₁ ++ x :: X₂ ∧ ys = Y₁ ++ y :: Y₂ ∧ List.Forall₂ R X₁ Y₁ ∧ R x y ∧
      List.Forall₂ R X₂ Y₂ := by
  induction h with
  | nil => simp at hy
  | @cons a b xs ys hab h ih =>
    rcases List.mem_cons.mp hy with rfl | hy
    · exact ⟨[], a, xs, [], ys, rfl, rfl, .nil, hab, h⟩
    · obtain ⟨X₁, x, X₂, Y₁, Y₂, rfl, rfl, h₁, hxy, h₂⟩ := ih hy
      exact ⟨a :: X₁, x, X₂, b :: Y₁, Y₂, rfl, rfl, .cons hab h₁, hxy, h₂⟩

theorem forall₂_filter {α β : Type*} {R : α → β → Prop} {xs : List α} {ys : List β} (p : β → Bool)
    (h : List.Forall₂ R xs ys) : ∃ xs', xs'.Sublist xs ∧ List.Forall₂ R xs' (ys.filter p) := by
  induction h with
  | nil => exact ⟨[], .slnil, .nil⟩
  | @cons a b xs ys hab _ ih =>
    obtain ⟨xs', hs, h'⟩ := ih
    by_cases hp : p b
    · exact ⟨a :: xs', hs.cons_cons a, by rw [List.filter_cons_of_pos hp]; exact .cons hab h'⟩
    · exact ⟨xs', hs.cons a, by rw [List.filter_cons_of_neg hp]; exact h'⟩

/-- What every call keeps of a container and its cell, keyed calls when they are `ok`. -/
structure Preserved (ok : Buffer → ℕ → List UInt8 → Prop) (Q : Container → Cell → Prop) :
    Prop where
  tracks {c : Container} {l : Cell} : Q c l → Tracks c l
  new (isArr : Bool) (o : ℕ) (chain : List (ℕ × Option (List UInt8))) :
    Q (.empty isArr o) (.new isArr o chain)
  detach {c : Container} {l : Cell} (ofs : ℕ) (key : List UInt8) : Q c l → Q c (l.detach ofs key)
  put {b b' : Buffer} {c c' : Container} {l : Cell} {R : List Chunk} {x : Entry} {ms : List Entry}
    {key val : List UInt8} {type : ValueType} {it : Item} : Q c l → b.Owns (c.chunks ++ R) →
      c.isArr = false → ok b c.ofs key → Updates (setArgs key type val) b b' c c' x ms →
        x.Holds false it → Q c' (l.put key it)
  push {b b' : Buffer} {c c' : Container} {l : Cell} {x : Entry} {ms : List Entry} {a : SetArgs}
    {it : Item} : Q c l → c.isArr = true → Updates a b b' c c' x ms → a.keyHash = c.size →
      x.Holds true it → l.items.length + 1 < 2 ^ 26 → Q (c'.withSize (c.size + 1)) (l.push it)

/-- Container `c'` is `c` after a call: a visit of the root counts, and a split starts again. -/
structure Container.Next (c c' : Container) : Prop where
  ofs : c'.ofs = c.ofs
  generation : c'.generation =
    if c.tree.keys.length = 7 then 1 else c.tree.label.bump.generation

theorem Updates.next {a : SetArgs} {b b' : Buffer} {c c' : Container} {x : Entry}
    {ms : List Entry} (h : Updates a b b' c c' x ms) : c.Next c' := ⟨h.ofs, h.generation⟩

theorem Container.Next.withSize {c c' : Container} (h : c.Next c') (s : UInt32) :
    c.Next (c'.withSize s) :=
  ⟨(ofs_withSize c' s).trans h.ofs, (generation_withSize c' s).trans h.generation⟩

theorem Container.length_labels_withSize (c : Container) (s : UInt32) :
    (c.withSize s).tree.labels.length = c.tree.labels.length :=
  Lite3.Tree.BTree.length_labels_setRoot _ _ c.tree

/-- The nodes that a descent in the container splits off. -/
def Container.splits (a : SetArgs) (c : Container) : ℕ :=
  (c.tree.promotedRoot 3 a.cmp a.right).length + if c.tree.keys.length = 7 then 1 else 0

/-- Container `c'` is `c` after a descent: a node more for every split, and an entry more at
most. -/
structure Container.Moved (a : SetArgs) (c c' : Container) : Prop where
  next : c.Next c'
  nodes : c'.tree.labels.length = c.tree.labels.length + c.splits a
  entries : c'.entries.length ≤ c.entries.length + 1

theorem Updates.moved {a : SetArgs} {b b' : Buffer} {c c' : Container} {x : Entry} {ms : List Entry}
    (h : Updates a b b' c c' x ms) (hs : Entry.Sorted c.entries) : c.Moved a c' where
  next := h.next
  nodes := by
    have hms : ms = c.tree.promotedRoot 3 a.cmp a.right := h.put.promoted_eq
    rw [Container.splits, ← hms]
    exact h.put.length_labels
  entries := (h.changed_of_sorted hs).length_le

theorem Container.Moved.withSize {a : SetArgs} {c c' : Container} (h : c.Moved a c') (s : UInt32) :
    c.Moved a (c'.withSize s) where
  next := h.next.withSize s
  nodes := (length_labels_withSize c' s).trans h.nodes
  entries := (congrArg List.length (entries_withSize c' s)).trans_le h.entries

theorem Container.ofs_ne {b : Buffer} {c d : Container} {R : List Chunk}
    (ho : b.Owns (c.chunks ++ R)) (hd : ∀ e ∈ d.chunks, e ∈ R) : c.ofs ≠ d.ofs :=
  Buffer.Owns.ofs_ne ho (c.tree.label_chunk_mem c.isArr) (hd _ (d.tree.label_chunk_mem d.isArr))

namespace World

variable {Q : Container → Cell → Prop} {w : World} {cs : List Container} {l : Cell} {ofs : ℕ}
  {key : List UInt8} {v : Scalar} {isArr : Bool}

/-- One cell, its container, and those around it. -/
structure Focus (Q : Container → Cell → Prop) (w : World) (cs : List Container) (l : Cell)
    (c : Container) (C₁ C₂ : List Container) (L₁ L₂ : List Cell) : Prop where
  containers : cs = C₁ ++ c :: C₂
  cells : w.cells = L₁ ++ l :: L₂
  front : List.Forall₂ Q C₁ L₁
  here : Q c l
  back : List.Forall₂ Q C₂ L₂
  owns : w.buf.Owns (c.chunks ++ (C₁ ++ C₂).flatMap Container.chunks)
  ofs : c.ofs = l.ofs
  ne_front : ∀ d ∈ L₁, d.ofs ≠ l.ofs
  ne_back : ∀ d ∈ L₂, d.ofs ≠ l.ofs

theorem chunks_mid_perm (c : Container) (C₁ C₂ : List Container) :
    (c.chunks ++ (C₁ ++ C₂).flatMap Container.chunks).Perm
      ((C₁ ++ c :: C₂).flatMap Container.chunks) := by
  simp only [List.flatMap_append, List.flatMap_cons]
  exact List.perm_append_comm_assoc _ _ _

theorem Backed.focus (hw : w.Backed Q cs) (hQ : ∀ c l, Q c l → c.ofs = l.ofs) (hl : l ∈ w.cells) :
    ∃ c C₁ C₂ L₁ L₂, Focus Q w cs l c C₁ C₂ L₁ L₂ := by
  obtain ⟨C₁, c, C₂, L₁, L₂, hcs, hls, h₁, hc, h₂⟩ := forall₂_split hw.cells hl
  have ho := hw.owns
  rw [hcs] at ho
  have ho := Buffer.Owns.perm ho (chunks_mid_perm c C₁ C₂).symm
  have hne : ∀ d ∈ C₁ ++ C₂, d.ofs ≠ c.ofs := fun d hd =>
    (Container.ofs_ne ho fun e he => List.mem_flatMap.mpr ⟨d, hd, he⟩).symm
  have hside : ∀ {C L}, List.Forall₂ Q C L → (∀ d ∈ C, d ∈ C₁ ++ C₂) →
      ∀ m ∈ L, m.ofs ≠ l.ofs := by
    intro C L h hsub m hm
    obtain ⟨X₁, d, X₂, Y₁, Y₂, rfl, rfl, -, hdm, -⟩ := forall₂_split h hm
    rw [← hQ _ _ hdm, ← hQ _ _ hc]
    exact hne d (hsub d (by simp))
  exact ⟨c, C₁, C₂, L₁, L₂, hcs, hls, h₁, hc, h₂, ho, hQ _ _ hc,
    hside h₁ (fun d hd => List.mem_append_left _ hd),
    hside h₂ (fun d hd => List.mem_append_right _ hd)⟩

variable {c c' : Container} {C₁ C₂ : List Container} {L₁ L₂ : List Cell} {x : Entry}
  {ms : List Entry}

theorem Focus.modify (hf : Focus Q w cs l c C₁ C₂ L₁ L₂) (f : Cell → Cell) :
    Cell.modify l.ofs f w.cells = L₁ ++ f l :: L₂ := by
  rw [hf.cells, Cell.modify_eq rfl hf.ne_front hf.ne_back]

theorem Focus.chainOf (hf : Focus Q w cs l c C₁ C₂ L₁ L₂) :
    Cell.chainOf l.ofs w.cells = l.chain := by
  rw [hf.cells, Cell.chainOf_eq rfl hf.ne_front]

theorem Focus.size_eq (hf : Focus Q w cs l c C₁ C₂ L₁ L₂) :
    NodeView.size w.buf.mem l.ofs = c.size :=
  hf.ofs ▸ Container.size_eq hf.owns

theorem Focus.forall₂ (hf : Focus Q w cs l c C₁ C₂ L₁ L₂) {f : Cell → Cell} (h : Q c' (f l)) :
    List.Forall₂ Q (C₁ ++ c' :: C₂) (Cell.modify l.ofs f w.cells) := by
  rw [hf.modify]
  exact List.rel_append hf.front (.cons h hf.back)

theorem Focus.eq_of_ofs (hf : Focus Q w cs l c C₁ C₂ L₁ L₂) {d : Cell} (hd : d ∈ w.cells)
    (ho : d.ofs = l.ofs) : d = l := by
  rw [hf.cells, List.mem_append, List.mem_cons] at hd
  rcases hd with hd | rfl | hd
  · exact absurd ho (hf.ne_front d hd)
  · rfl
  · exact absurd ho (hf.ne_back d hd)

theorem Backed.drop (hw : w.Backed Q cs) (ofs : ℕ) (key : List UInt8) :
    ∃ cs', cs'.Sublist cs ∧
      (⟨w.buf, w.cells.filter (¬ ·.Under ofs key)⟩ : World).Backed Q cs' := by
  obtain ⟨cs', hs, h⟩ := forall₂_filter (fun l => decide (¬ Cell.Under ofs key l)) hw.cells
  exact ⟨cs', hs, Owned.sublist hw.owns (hs.flatMap Container.chunks), h, hw.linked.drop ofs key⟩

variable {ok : Buffer → ℕ → List UInt8 → Prop}

/-- A scalar is set. -/
theorem Focus.set (hf : Focus Q w cs l c C₁ C₂ L₁ L₂) (hp : Preserved ok Q)
    (hlink : Cell.Linked w.cells) (hc : c.isArr = false) (hk : key.length ≤ 62)
    (hok : ok w.buf l.ofs key) (hfin : (w.step (.set l.ofs key v)).buf.usedSize < 2 ^ 32) :
    ∃ c', c.Moved (setArgs key v.type v.image) c' ∧
      (w.step (.set l.ofs key v)).Backed Q (C₁ ++ c' :: C₂) := by
  obtain ⟨x, c', ms, hown, hup⟩ := Container.setScalar hf.owns hc hk v (by rw [hf.ofs]; exact hfin)
  rw [hf.ofs] at hown hup
  have hx : x.Holds false (.scalar v) := hup.holds (setArgs_carries key v) (by simp)
  have hQ := hp.put hf.here hf.owns hc (hf.ofs ▸ hok) hup hx
  have hmoved := hup.moved (hp.tracks hf.here).sorted
  refine ⟨c', hmoved, Buffer.Owns.perm hown (chunks_mid_perm c' C₁ C₂), ?_, ?_⟩
  · exact List.forall₂_map_right_iff.mpr
      ((hf.forall₂ (f := .put key (.scalar v)) hQ).imp fun _ _ h => hp.detach l.ofs key h)
  · exact (hlink.put _ _ _).detach _ _

/-- A container is created. -/
theorem Focus.create (hf : Focus Q w cs l c C₁ C₂ L₁ L₂) (hp : Preserved ok Q)
    (hlink : Cell.Linked w.cells) (hc : c.isArr = false) (hok : ok w.buf l.ofs key)
    (hcr : c.Creates w.buf c' ((C₁ ++ C₂).flatMap Container.chunks) key isArr x ms) :
    ∃ o, (w.buf.setContainer l.ofs key isArr).1 = some o ∧
      (⟨(w.buf.setContainer l.ofs key isArr).2, .new isArr o ((l.ofs, some key) :: l.chain) ::
        Cell.modify l.ofs (.put key (.nested isArr o)) w.cells⟩ : World).Backed Q
          (.empty isArr o :: (C₁ ++ c' :: C₂)) := by
  obtain ⟨hres, hown, b', hup⟩ := hcr
  rw [hf.ofs] at hres hown
  have hx : x.Holds false (.nested isArr (x.valueOfs false + 1)) :=
    hup.holds (setArgs_carries_kind key isArr _) (by simp)
  have hQ := hp.put hf.here hf.owns hc (hf.ofs ▸ hok) hup hx
  refine ⟨x.valueOfs false + 1, hres, ?_, ?_, ?_⟩
  · exact Buffer.Owns.perm hown ((chunks_mid_perm c' C₁ C₂).append_left _)
  · exact .cons (hp.new _ _ _) (hf.forall₂ (f := .put key (.nested isArr _)) hQ)
  · have hm : l.put key (.nested isArr (x.valueOfs false + 1)) ∈
        Cell.modify l.ofs (.put key (.nested isArr (x.valueOfs false + 1))) w.cells := by
      rw [hf.modify]; simp
    refine (hlink.put _ _ _).cons (k := some key) hm rfl rfl fun k hk => ?_
    rw [← Option.some_inj.mp hk]
    simp

/-- A scalar is appended. -/
theorem Focus.append (hf : Focus Q w cs l c C₁ C₂ L₁ L₂) (hp : Preserved ok Q)
    (hlink : Cell.Linked w.cells) (hc : c.isArr = true) (hn : l.items.length + 1 < 2 ^ 26)
    (hfin : (w.step (.append l.ofs v)).buf.usedSize < 2 ^ 32) :
    ∃ c', c.Moved (appendArgs c.size v.type v.image) c' ∧
      (w.step (.append l.ofs v)).Backed Q (C₁ ++ c' :: C₂) := by
  obtain ⟨x, c', ms, b₁, hown, hup⟩ := Container.arrAppend hf.owns hc v (by rw [hf.ofs]; exact hfin)
  rw [hf.ofs] at hown
  have hx : x.Holds true (.scalar v) := hup.holds (appendArgs_carries _ v) (by simp)
  have hQ := hp.push hf.here hc hup rfl hx hn
  have hmoved := hup.moved (hp.tracks hf.here).sorted
  refine ⟨c'.withSize (c.size + 1), hmoved.withSize _,
    Buffer.Owns.perm hown (chunks_mid_perm _ C₁ C₂), ?_, ?_⟩
  · exact hf.forall₂ (f := .push (.scalar v)) hQ
  · exact hlink.push _ _

theorem Focus.appendNew (hf : Focus Q w cs l c C₁ C₂ L₁ L₂) (hp : Preserved ok Q)
    (hlink : Cell.Linked w.cells) (hc : c.isArr = true) (hn : l.items.length + 1 < 2 ^ 26)
    (hfin : (w.buf.arrAppendContainer l.ofs isArr).2.usedSize < 2 ^ 32) :
    ∃ c' o, c.Moved (appendArgs c.size (kindOf isArr) []) c' ∧
      (w.buf.arrAppendContainer l.ofs isArr).1 = some o ∧
      (⟨(w.buf.arrAppendContainer l.ofs isArr).2, .new isArr o ((l.ofs, none) :: l.chain) ::
        Cell.modify l.ofs (.push (.nested isArr o)) w.cells⟩ : World).Backed Q
          (.empty isArr o :: (C₁ ++ c' :: C₂)) := by
  have hall := ((hp.tracks hf.here).elements hc).hash_lt
  obtain ⟨x, c', ms, b₁, hres, hown, hup⟩ :=
    Container.arrAppendContainer hf.owns hc hall (by rw [hf.ofs]; exact hfin)
  rw [hf.ofs] at hres hown
  have hx : x.Holds true (.nested isArr (x.valueOfs true + 1)) :=
    hup.holds (appendArgs_carries_kind _ isArr _) (by simp)
  have hQ := hp.push hf.here hc hup rfl hx hn
  have hmoved := hup.moved (hp.tracks hf.here).sorted
  refine ⟨c'.withSize (c.size + 1), x.valueOfs true + 1, hmoved.withSize _,
    congrArg Prod.fst hres, ?_, ?_, ?_⟩
  · exact Buffer.Owns.perm hown ((chunks_mid_perm _ C₁ C₂).append_left _)
  · exact .cons (hp.new _ _ _) (hf.forall₂ (f := .push (.nested isArr _)) hQ)
  · have hm : l.push (.nested isArr (x.valueOfs true + 1)) ∈
        Cell.modify l.ofs (.push (.nested isArr (x.valueOfs true + 1))) w.cells := by
      rw [hf.modify]; simp
    exact (hlink.push _ _).cons (k := none) hm rfl rfl (by simp)

theorem step_create_of_some {o : ℕ} (h : (w.buf.setContainer ofs key isArr).1 = some o) :
    w.step (.create isArr ofs key) =
      ⟨(w.buf.setContainer ofs key isArr).2,
        .new isArr o ((ofs, some key) ::
          Cell.chainOf ofs (w.cells.filter (¬ ·.Under ofs key))) ::
        Cell.modify ofs (.put key (.nested isArr o)) (w.cells.filter (¬ ·.Under ofs key))⟩ := by
  rw [step, show w.buf.setContainer ofs key isArr =
    (some o, (w.buf.setContainer ofs key isArr).2) from Prod.ext h rfl]

theorem step_appendNew_of_some {o : ℕ} (h : (w.buf.arrAppendContainer ofs isArr).1 = some o) :
    w.step (.appendNew isArr ofs) =
      ⟨(w.buf.arrAppendContainer ofs isArr).2,
        .new isArr o ((ofs, none) :: Cell.chainOf ofs w.cells) ::
        Cell.modify ofs (.push (.nested isArr o)) w.cells⟩ := by
  rw [step, show w.buf.arrAppendContainer ofs isArr =
    (some o, (w.buf.arrAppendContainer ofs isArr).2) from Prod.ext h rfl]

theorem buf_step_create (w : World) (isArr : Bool) (ofs : ℕ) (key : List UInt8) :
    (w.step (.create isArr ofs key)).buf = (w.buf.setContainer ofs key isArr).2 := by
  rw [step]
  split <;> rename_i h <;> simp [h]

theorem buf_step_appendNew (w : World) (isArr : Bool) (ofs : ℕ) :
    (w.step (.appendNew isArr ofs)).buf = (w.buf.arrAppendContainer ofs isArr).2 := by
  rw [step]
  split <;> rename_i h <;> simp [h]

end World

end Lite3
