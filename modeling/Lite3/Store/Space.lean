import Mathlib.Algebra.Order.BigOperators.Group.List
import Lite3.Layout.Capacity
import Lite3.Store.Base

/-! # The space that calls take

A node is split when it is full, and its halves are filled enough to pay for
it. So a third of a node for every entry pays for all nodes of a container but
the first, in whatever order the keys come, and what is charged in advance is
the slack of the container.
-/

namespace Lite3

open Bytes Config

/-- What the entries below a node are charged for nodes that are not there yet. -/
def Buffer.slack (b : Buffer) (o : ℕ) : ℕ := 33 * (b.slots o).length + 99 - 99 * (b.nodes o).length

namespace Call

/-- The node of a new container. -/
def node : Call → ℕ
  | create .. | appendNew .. => nodeSize
  | set .. | append .. => 0

/-- The key and the value of a call, a third of a node for its entry, and the node of a
container. -/
def cost (k : Call) : ℕ :=
  (k.args .empty).klen + (k.args .empty).valTotalLen + 33 + k.node

variable {w : World} {k : Call}

theorem length_appendArgs (i j : UInt32) (type : ValueType) (val : List UInt8) :
    (appendArgs i type val).klen + (appendArgs i type val).valTotalLen =
      (appendArgs j type val).klen + (appendArgs j type val).valTotalLen := rfl

theorem cost_eq (b : Buffer) (k : Call) :
    k.cost = (k.args b).klen + (k.args b).valTotalLen + 33 + k.node := by
  cases k with
  | set | create => rfl
  | append ofs v => exact congrArg (· + 33 + 0) (length_appendArgs _ _ _ _)
  | appendNew isArr ofs => exact congrArg (· + 33 + nodeSize) (length_appendArgs _ _ _ _)

theorem usedSize_apply_le (b : Buffer) (k : Call) :
    (k.apply b).usedSize ≤ (b.setImpl k.ofs (k.args b)).2.usedSize + k.node := by
  cases k with
  | set | append => exact le_rfl
  | create | appendNew =>
    simp only [apply, args, Call.ofs, Buffer.setContainer, Buffer.arrAppendContainer]
    split <;> rename_i h <;> rw [h]
    · exact Nat.le_add_right _ _
    · exact (Container.usedSize_makeNode _ _ _).le

/-- A legal call, up to the length of the buffer it leaves. -/
def Addresses (w : World) : Call → Prop
  | set ofs key _ | create _ ofs key =>
    key.length ≤ 62 ∧ ∃ l ∈ w.cells, l.ofs = ofs ∧ l.isArr = false
  | append ofs _ | appendNew _ ofs =>
    ∃ l ∈ w.cells, l.ofs = ofs ∧ l.isArr = true ∧ l.items.length + 1 < 2 ^ 26

instance (w : World) : (k : Call) → Decidable (k.Addresses w)
  | set ofs key _ | create _ ofs key =>
    inferInstanceAs (Decidable (key.length ≤ 62 ∧ ∃ l ∈ w.cells, l.ofs = ofs ∧ l.isArr = false))
  | append ofs _ | appendNew _ ofs => inferInstanceAs
      (Decidable (∃ l ∈ w.cells, l.ofs = ofs ∧ l.isArr = true ∧ l.items.length + 1 < 2 ^ 26))

theorem legal_iff : k.Legal w ↔ k.Addresses w ∧ (w.step k).buf.usedSize < 2 ^ 32 := by
  cases k <;> rfl

theorem Addresses.writable (h : k.Addresses w) : (k.args w.buf).Writable := by
  cases k with
  | set ofs key v => exact setArgs_writable h.1 v
  | create isArr ofs key => exact setArgs_writable_kind h.1 isArr
  | append ofs v => exact appendArgs_writable _ v
  | appendNew isArr ofs => exact appendArgs_writable_kind _ isArr

theorem Addresses.cell (h : k.Addresses w) :
    ∃ l ∈ w.cells, l.ofs = k.ofs ∧ (k.args w.buf).isAppend = l.isArr := by
  cases k with
  | set | create =>
    obtain ⟨-, l, hl, ho, hla⟩ := h
    exact ⟨l, hl, ho, hla.symm⟩
  | append | appendNew =>
    obtain ⟨l, hl, ho, hla, -⟩ := h
    exact ⟨l, hl, ho, hla.symm⟩

end Call

namespace Container

variable {b : Buffer} {c c' : Container} {R : List Chunk} {a : SetArgs}

def slack (c : Container) : ℕ := 33 * c.entries.length + 99 - 99 * c.tree.labels.length

theorem slack_empty (isArr : Bool) (o : ℕ) : (empty isArr o).slack = 0 := rfl

theorem length_labels_le (c : Container) :
    99 * c.tree.labels.length ≤ 33 * c.entries.length + 99 := by
  have hpaid := Tree.BTree.mul_length_labels_le c.shaped
  change _ ≤ 33 * c.tree.inorder.length + 99
  omega

theorem slack_eq (ho : b.Owns (c.chunks ++ R)) : b.slack c.ofs = c.slack := by
  rw [Buffer.slack, slots ho, nodes ho, List.length_map, List.length_map, slack]

theorem Moved.slack_le (h : c.Moved a c') : c'.slack + 99 * c.splits a ≤ c.slack + 33 := by
  have hnodes := h.nodes
  have hentries := h.entries
  have hpaid := c.length_labels_le
  have hpaid' := c'.length_labels_le
  rw [slack, slack]
  omega

theorem height_le (ho : b.Owns (c.chunks ++ R)) (hb : b.usedSize < 2 ^ 32) : c.height ≤ 16 := by
  have hcount := Owned.length_le (Owned.sublist ho (List.sublist_append_left _ R))
    (c.tree.chunks_ne_nil c.isArr)
  have hentries : c.tree.inorder.length ≤ c.chunks.length := by
    rw [chunks, NodeTree.chunks, List.length_append, List.length_map]
    exact (List.length_map _).ge.trans (Nat.le_add_left _ _)
  have hpow : (3 + 1) ^ c.height ≤ _ := Tree.BTree.pow_height_le c.shaped
  by_contra hgt
  have hmono : 4 ^ 17 ≤ 4 ^ c.height := Nat.pow_le_pow_right (by decide) (by omega)
  norm_num at hpow hmono
  omega

theorem splits_le (a : SetArgs) (c : Container) : c.splits a ≤ c.height + 2 := by
  have hpromoted : (c.tree.promotedRoot 3 a.cmp a.right).length ≤ c.height + 1 :=
    c.tree.passed_le.2.2.2
  rw [splits]
  split_ifs <;> omega

theorem usedSize_setImpl_le (ho : b.Owns (c.chunks ++ R)) (ha : a.Writable)
    (hk : a.isAppend = c.isArr)
    (hfin : (b.setImpl c.ofs a).2.usedSize < 2 ^ 32) : (b.setImpl c.ofs a).2.usedSize ≤
      b.usedSize + (99 * c.splits a + (a.klen + a.valTotalLen)) := by
  obtain ⟨x, c', ms, -, -, hup⟩ := setImpl ho ha hk hfin
  have hms : ms = c.tree.promotedRoot 3 a.cmp a.right := hup.put.promoted_eq
  have hadded := hup.added
  rw [Added, hms] at hadded
  exact hadded

end Container

namespace World

variable {w : World} {k : Call} {cs : List Container} {isArr : Bool} {ks : List Call}

/-- The slack of all containers that are not given up. -/
def slack (w : World) : ℕ := (w.cells.map fun l => w.buf.slack l.ofs).sum

theorem Backed.slack_eq (hw : w.Backed Tracks cs) : w.slack = (cs.map Container.slack).sum := by
  rw [slack, List.map_eq_flatMap, List.map_eq_flatMap]
  exact congrArg List.sum
    (hw.flatMap_cells fun c l R ht ho => by rw [← ht.ofs, Container.slack_eq ho])

/-- A call takes what it costs, or it takes it out of the slack. -/
theorem Backed.space_step (hw : w.Backed Tracks cs) (hl : k.Legal w) (hclear : k.Clear w) :
    (w.step k).buf.usedSize + (w.step k).slack ≤ w.buf.usedSize + w.slack + k.cost := by
  obtain ⟨w₀, c, c', X, C₁, C₂, h⟩ := hw.moves preserved_tracks hl hclear (Call.ok_true _ _)
  obtain ⟨R, ho⟩ := h.before.owns_mem (c := c) (by simp)
  rw [h.buf] at ho
  have hdropped : w₀.slack ≤ w.slack := by
    rw [slack, slack, h.buf]
    exact (h.cells.map _).sum_le_sum (by simp)
  have hnew : (X.map Container.slack).sum = 0 := by
    refine List.sum_eq_zero fun n hn => ?_
    obtain ⟨d, hd, rfl⟩ := List.mem_map.mp hn
    obtain ⟨isArr, o, rfl⟩ := h.new d hd
    exact Container.slack_empty isArr o
  have happly : (w.step k).buf.usedSize ≤ _ := w.buf_step k ▸ Call.usedSize_apply_le w.buf k
  have hfin : (w.buf.setImpl c.ofs (k.args w.buf)).2.usedSize < 2 ^ 32 := by
    rw [h.ofs]
    exact (extends_call w.buf k).used.trans_lt (w.buf_step k ▸ hl.2)
  have hset := Container.usedSize_setImpl_le ho (Call.legal_iff.mp hl).1.writable h.kind hfin
  have hmoved := h.moved.slack_le
  have hcost := k.cost_eq w.buf
  rw [h.before.slack_eq] at hdropped
  rw [h.after.slack_eq]
  simp only [List.map_append, List.map_cons, List.sum_append, List.sum_cons, hnew] at hdropped ⊢
  rw [h.ofs] at hset
  omega

theorem Backed.space_run (hw : w.Backed Tracks cs)
    (h : Loop.Allowed step (fun w k => k.Legal w ∧ k.Clear w) w ks) :
    (w.run ks).buf.usedSize + (w.run ks).slack ≤ w.buf.usedSize + w.slack +
      (ks.map Call.cost).sum := by
  induction ks generalizing w cs with
  | nil => exact le_rfl
  | cons k ks ih =>
    obtain ⟨⟨hl, hclear⟩, hrest⟩ := h
    obtain ⟨cs', hw'⟩ := (hw.advanced preserved_tracks hl hclear (Call.ok_true _ _)).backed
    have hstep := hw.space_step hl hclear
    have hrun := ih hw' hrest
    change (((w.step k).run ks).buf.usedSize + ((w.step k).run ks).slack) ≤ _
    rw [List.map_cons, List.sum_cons]
    omega

theorem Backed.legal (hw : w.Backed Tracks cs) (ha : k.Addresses w)
    (hroom : w.buf.usedSize + k.cost + 3465 < 2 ^ 32) : k.Legal w := by
  obtain ⟨l, hl, hofs, hkind⟩ := ha.cell
  obtain ⟨c, R, -, ht, ho⟩ := hw.container hl
  have hcost := k.cost_eq w.buf
  have hheight := Container.height_le ho (by omega)
  have hkind := hkind.trans ht.kind.symm
  have hfin := Container.usedSize_setImpl_lt ho ha.writable hkind (by omega)
  have hset := Container.usedSize_setImpl_le ho ha.writable hkind hfin
  have hsplits := c.splits_le (k.args w.buf)
  have happly := Call.usedSize_apply_le w.buf k
  refine Call.legal_iff.mpr ⟨ha, ?_⟩
  rw [ht.ofs, hofs] at hset
  rw [w.buf_step]
  omega

/-- A history is legal when its calls address containers and cost less than 4 GiB together. -/
theorem Backed.legal_run (hw : w.Backed Tracks cs)
    (h : Loop.Allowed step (fun w k => k.Addresses w ∧ k.Clear w) w ks)
    (hroom : w.buf.usedSize + w.slack + (ks.map Call.cost).sum + 3465 < 2 ^ 32) :
    Loop.Allowed step (fun w k => k.Legal w ∧ k.Clear w) w ks := by
  induction ks generalizing w cs with
  | nil => trivial
  | cons k ks ih =>
    obtain ⟨⟨ha, hclear⟩, hrest⟩ := h
    rw [List.map_cons, List.sum_cons] at hroom
    have hl := hw.legal ha (by omega)
    obtain ⟨cs', hw'⟩ := (hw.advanced preserved_tracks hl hclear (Call.ok_true _ _)).backed
    have hstep := hw.space_step hl hclear
    exact ⟨⟨hl, hclear⟩, ih hw' hrest (by omega)⟩

theorem space_start (isArr : Bool) : (start isArr).buf.usedSize = 96 ∧ (start isArr).slack = 0 := by
  have hw := Backed.start isArr (.empty : Tracks _ _)
  constructor
  · cases isArr <;> rfl
  · exact hw.slack_eq

/-- Calls that cost less than 4 GiB together never bring the buffer to 4 GiB. -/
theorem legal_of_cost (h : Loop.Allowed step (fun w k => k.Addresses w ∧ k.Clear w)
    (start isArr) ks) (hcost : (ks.map Call.cost).sum + 3561 < 2 ^ 32) :
    Loop.Allowed step (fun w k => k.Legal w ∧ k.Clear w) (start isArr) ks := by
  obtain ⟨hused, hslack⟩ := space_start isArr
  exact (Backed.start isArr .empty).legal_run h (by omega)

theorem legal_of_cost_eight :
    let ks := (List.range 8).map fun i => Call.set 0 [.ofNat (97 + i)] (.i64 7)
    Loop.Allowed step (fun w k => k.Legal w ∧ k.Clear w) (start false) ks :=
  legal_of_cost (by decide +kernel) (by decide)

/-- Whatever the order of the keys, a history of calls uses no more than the root and the costs of
the calls, and the data is about twice as long at most. -/
theorem space_kept (h : Loop.Allowed step (fun w k => k.Legal w ∧ k.Clear w) (start isArr) ks) :
    ((start isArr).run ks).buf.usedSize ≤ 96 + (ks.map Call.cost).sum ∧
      ((start isArr).run ks).buf.data.length ≤ 2 * (96 + (ks.map Call.cost).sum) + 448 := by
  obtain ⟨hused, hslack⟩ := space_start isArr
  have hrun := (Backed.start isArr .empty).space_run h
  have hsnug : ((start isArr).run ks).buf.Snug := by
    rw [buf_run]
    exact Buffer.Snug.runCalls (by cases isArr <;> exact ⟨by decide, by decide⟩) ks
  have htight := hsnug.tight
  rw [hused, hslack] at hrun
  omega

/-- Eight keys in a new object: its root is split. -/
theorem space_kept_eight :
    let ks := (List.range 8).map fun i => Call.set 0 [.ofNat (97 + i)] (.i64 7)
    ((start false).run ks).buf.usedSize ≤ 96 + (ks.map Call.cost).sum ∧
      ((start false).run ks).buf.data.length ≤ 2 * (96 + (ks.map Call.cost).sum) + 448 :=
  space_kept (by decide +kernel)

end World

end Lite3
