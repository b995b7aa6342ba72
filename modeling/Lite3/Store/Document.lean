import Lite3.Layout.Capacity
import Lite3.Paths.Basic
import Lite3.Store.Paths
import Lite3.Store.Reload
import Lite3.Store.Reset

/-! # Documents

A document is a map on paths of keys and indices. An assignment through a proxy
makes the containers on the way and stores its value at the end of the path.
The bytes of the buffer represent the document that a run of statements makes,
also when they are saved and loaded again on the way.
-/

namespace Lite3

open Paths

/-- What a document has at a path. -/
inductive Node
  | scalar (v : Scalar)
  | container (isArr : Bool)
  deriving DecidableEq

def Item.node : Item → Node
  | .scalar v => .scalar v
  | .nested isArr _ => .container isArr

abbrev Doc := PathMap Place Node

/-- The values that `operator=` takes. -/
inductive Literal
  | bool (v : Bool)
  | i64 (v : Int64)
  | f64 (v : UInt64)
  | str (v : List UInt8)
  deriving DecidableEq

/-- An indexing expression from the root, and what is assigned to it. -/
structure Statement where
  path : List Place
  value : Option Literal

/-- A statement, or saving all bytes and loading them into a new buffer. -/
inductive Act
  | exec (st : Statement)
  | reload

namespace Literal

def scalar : Literal → Scalar
  | bool v => .bool v
  | i64 v => .i64 v
  | f64 v => .f64 v
  | str v => .str v

end Literal

/-- `v = x` -/
def Value.assigned (b : Buffer) (v : Value) : Literal → Buffer
  | .bool x => v.assignBool b x
  | .i64 x => v.assignI64 b x
  | .f64 x => v.assignF64 b x
  | .str x => v.assignStr b x

/-- Evaluate the expression, and assign to it. -/
def Buffer.exec (b : Buffer) (s : Statement) : Buffer :=
  match s.path.foldl Value.indexed (some .root, b), s.value with
  | (some v, b), some x => v.assigned b x
  | (_, b), _ => b

namespace Doc

def start (isArr : Bool) : Doc := .single (.container isArr)

/-- One more place of an expression: at the path before it there is a container of its kind. -/
def enter : Doc × List Place → Place → Doc × List Place
  | (d, q), p =>
    (if d.get q = some (.container p.isArr) then d else d.store q (.container p.isArr), q ++ [p])

def exec (d : Doc) (s : Statement) : Doc :=
  let d := (s.path.foldl enter (d, [])).1
  match s.value with
  | some x => d.store s.path (.scalar x.scalar)
  | none => d

/-- Nothing is at the place, and an index is the next one. -/
def Vacant (d : Doc) (q : List Place) : Place → Prop
  | .key k => d.get (q ++ [.key k]) = none
  | .index i => i.toNat + 1 < 2 ^ 26 ∧ d.get (q ++ [.index i]) = none ∧
      ∀ j < i.toNat, d.get (q ++ [.index (.ofNat j)]) ≠ none

instance (d : Doc) (q : List Place) : (p : Place) → Decidable (d.Vacant q p)
  | .key k => inferInstanceAs (Decidable (d.get (q ++ [.key k]) = none))
  | .index i => inferInstanceAs (Decidable (i.toNat + 1 < 2 ^ 26 ∧ d.get (q ++ [.index i]) = none ∧
      ∀ j < i.toNat, d.get (q ++ [.index (.ofNat j)]) ≠ none))

/-- A path whose last place is vacant. -/
def VacantAt (d : Doc) (q : List Place) : Prop := ∃ p ∈ q.getLast?, d.Vacant q.dropLast p

instance (d : Doc) (q : List Place) : Decidable (d.VacantAt q) :=
  inferInstanceAs (Decidable (∃ p ∈ q.getLast?, _))

end Doc

/-- Keys in use are short and not empty, and their hashes are distinct. -/
structure Place.Proper (Q : Place → Prop) : Prop where
  short : ∀ k, Q (.key k) → k ≠ [] ∧ k.length ≤ 62
  distinct : ∀ k k', Q (.key k) → Q (.key k') → djb2Hash k = djb2Hash k' → k = k'

theorem Place.Proper.ne_nil {Q : Place → Prop} {p : Place} (h : Proper Q) (hp : Q p) :
    p ≠ .key [] := by
  rintro rfl
  exact (h.short [] hp).1 rfl

/-- The call that puts a scalar at the place of a container. -/
def Place.put (o : ℕ) (x : Scalar) : Place → Call
  | key k => .set o k x
  | index _ => .append o x

/-- A call at a place in use, with a value as told -/
def Call.Takes (Q : Place → Prop) (V : Scalar → Prop) : Call → Prop
  | set _ key v => Q (.key key) ∧ V v
  | create isArr _ key => Q (.key key) ∧ ∃ p, Q p ∧ p.isArr = isArr
  | append _ v => (∃ i, Q (.index i)) ∧ V v
  | appendNew isArr _ => (∃ i, Q (.index i)) ∧ ∃ p, Q p ∧ p.isArr = isArr

namespace Doc

/-- The place is in use, and its container is there or can be made. -/
def Enters (Q : Place → Prop) (s : Doc × List Place) (p : Place) : Prop :=
  Q p ∧ (s.1.get s.2 = some (.container p.isArr) ∨ s.1.VacantAt s.2)

instance (Q : Place → Prop) [DecidablePred Q] (s : Doc × List Place) (p : Place) :
    Decidable (Enters Q s p) := inferInstanceAs (Decidable (_ ∧ (_ ∨ _)))

/-- Every container on the path is there. -/
def Leads (d : Doc) (path : List Place) : Prop :=
  Loop.Allowed enter (fun s p => p ≠ .key [] ∧ s.1.get s.2 = some (.container p.isArr)) (d, []) path

instance (d : Doc) (path : List Place) : Decidable (d.Leads path) :=
  inferInstanceAs (Decidable (Loop.Allowed ..))

end Doc

/-- The expression is a key, and setting it is routed. -/
def Buffer.Overwrites (b : Buffer) (path : List Place) : Prop :=
  let s := path.foldl Value.indexed (some .root, b)
  ∃ v ∈ s.1, v.isArrayElement = false ∧ s.2.Routed v.parentOfs v.key

instance (b : Buffer) (path : List Place) : Decidable (b.Overwrites path) :=
  inferInstanceAs (Decidable (∃ v ∈ _, _ ∧ _))

/-- Containers are found or made, and what is assigned goes to a vacant place or is routed. -/
def Statement.Fits (Q : Place → Prop) (s : Buffer × Doc) (st : Statement) : Prop :=
  Loop.Allowed Doc.enter (Doc.Enters Q) (s.2, []) st.path ∧
    (st.value ≠ none →
      (st.path.foldl Doc.enter (s.2, [])).1.VacantAt st.path ∨ s.1.Overwrites st.path)

instance (Q : Place → Prop) [DecidablePred Q] (s : Buffer × Doc) (st : Statement) :
    Decidable (st.Fits Q s) := inferInstanceAs (Decidable (_ ∧ (_ → _)))

namespace Act

/-- A buffer and the document it is to represent. -/
def step (s : Buffer × Doc) : Act → Buffer × Doc
  | exec st => (s.1.exec st, s.2.exec st)
  | reload => (.ofVector s.1.data, s.2)

def Fits (Q : Place → Prop) (s : Buffer × Doc) : Act → Prop
  | exec st => st.Fits Q s
  | reload => True

instance (Q : Place → Prop) [DecidablePred Q] (s : Buffer × Doc) :
    (a : Act) → Decidable (a.Fits Q s)
  | exec st => inferInstanceAs (Decidable (st.Fits Q s))
  | reload => instDecidableTrue

end Act

namespace Cell

variable {l : Cell} {p : Place} {it : Item}

theorem itemAt_new (isArr : Bool) (o : ℕ) (chain : List (ℕ × Option (List UInt8))) (p : Place) :
    (new isArr o chain).itemAt p = none := by
  cases p <;> rfl

theorem itemAt_push {i : UInt32} (hi : i.toNat = l.items.length) (hne : p ≠ .index i) :
    (l.push it).itemAt p = l.itemAt p := by
  cases p with
  | key k => rfl
  | index j =>
    have hij : j.toNat ≠ l.items.length :=
      fun he => hne (by rw [UInt32.toNat_inj.mp (he.trans hi.symm)])
    change (l.items ++ [it])[j.toNat]? = l.items[j.toNat]?
    rcases lt_or_gt_of_ne hij with hlt | hlt
    · exact List.getElem?_append_left hlt
    · rw [List.getElem?_eq_none hlt.le, List.getElem?_eq_none (by simp; omega)]

end Cell

namespace World

variable {w : World} {l : Cell} {isArr root : Bool} {o : ℕ} {key : List UInt8} {k : Call}
  {Q : Place → Prop} {V : Scalar → Prop}

/-- Careful calls in use lead to the world, with buffers saved and loaded again in between. -/
inductive Reached (Q : Place → Prop) (V : Scalar → Prop) (root : Bool) : World → Prop

  | start : Reached Q V root (start root)

  | step {w : World} {k : Call} : Reached Q V root w → k.Legal w → k.Clear w →
      k.Ok Buffer.Routed w →
    k.Takes Q V → Reached Q V root (w.step k)

  | reload {w : World} : Reached Q V root w → Reached Q V root w.reload

theorem Backed.reload {R : Container → Cell → Prop} {cs : List Container} (h : w.Backed R cs) :
    w.reload.Backed R cs := ⟨h.owns.reload, h.cells, h.linked⟩

theorem Reached.sound (h : w.Reached Q V root) : w.Sound := by
  induction h with
  | start =>
    have hnil : Careful root [] := trivial
    exact hnil.sound
  | step _ hl hc hr _ ih => exact ih.step hl hc hr
  | reload _ ih => exact ⟨ih.backed.imp fun _ hcs => hcs.reload, ih.closed⟩

/-- What routed calls preserve of every container holds in a world that is reached. -/
theorem Reached.backed (h : w.Reached Q V root) {R : Container → Cell → Prop}
    (hp : Preserved Buffer.Routed R) : ∃ cs, w.Backed R cs := by
  induction h with
  | start => exact ⟨_, .start root (hp.new root 0 [])⟩
  | step _ hl hc hr _ ih =>
    obtain ⟨cs, hcs⟩ := ih
    exact (hcs.advanced hp hl hc hr).backed
  | reload _ ih => exact ih.imp fun _ hcs => hcs.reload

theorem Sound.puts_set (hw : w.Sound) (hl : l ∈ w.cells) (key : List UInt8) (v : Scalar) :
    w.Puts (.set l.ofs key v) l (.key key) (.scalar v) where
  ofs := rfl
  hides d hd := ⟨key, rfl, hd⟩
  cell := by
    refine ⟨l.put key (.scalar v), ?_, Cell.becomes_put .., ?_⟩
    · have hmem := List.mem_map_of_mem (f := Cell.detach l.ofs key)
        (Cell.mem_modify_self (f := .put key (.scalar v)) hl)
      rwa [Cell.detach_eq (d := l.put key (.scalar v)) (hw.not_under_self hl key)] at hmem
    · rintro (k | i) hne
      · exact Cell.fields_put_of_ne (fun he => hne (congrArg Place.key he)) l _
      · rfl
  empty _ _ h := by cases h

theorem puts_append (hl : l ∈ w.cells) {i : UInt32} (hi : i.toNat = l.items.length) (v : Scalar) :
    w.Puts (.append l.ofs v) l (.index i) (.scalar v) where
  ofs := rfl
  hides _ hd := hd.elim
  cell := ⟨_, Cell.mem_modify_self hl, Cell.becomes_push hi _, fun _ => Cell.itemAt_push hi⟩
  empty _ _ h := by cases h

theorem Sound.puts_create (hw : w.Sound) (hl : l ∈ w.cells)
    (hres : (w.buf.setContainer l.ofs key isArr).1 = some o) :
    w.Puts (.create isArr l.ofs key) l (.key key) (.nested isArr o) where
  ofs := rfl
  hides d hd := ⟨key, rfl, hd⟩
  cell := by
    have hmem : l ∈ w.cells.filter (¬ ·.Under l.ofs key) :=
      List.mem_filter.mpr ⟨hl, decide_eq_true (hw.not_under_self hl key)⟩
    rw [step_create_of_some hres]
    refine ⟨_, List.mem_cons_of_mem _ (Cell.mem_modify_self hmem), Cell.becomes_put .., ?_⟩
    rintro (k | i) hne
    · exact Cell.fields_put_of_ne (fun he => hne (congrArg Place.key he)) l _
    · rfl
  empty _ _ h := by
    obtain ⟨rfl, rfl⟩ := Item.nested.inj h
    rw [step_create_of_some hres]
    exact ⟨_, List.mem_cons_self, rfl, Cell.itemAt_new _ _ _⟩

theorem puts_appendNew (hl : l ∈ w.cells) {i : UInt32} (hi : i.toNat = l.items.length)
    (hres : (w.buf.arrAppendContainer l.ofs isArr).1 = some o) :
    w.Puts (.appendNew isArr l.ofs) l (.index i) (.nested isArr o) where
  ofs := rfl
  hides _ hd := hd.elim
  cell := by
    rw [step_appendNew_of_some hres]
    exact ⟨_, List.mem_cons_of_mem _ (Cell.mem_modify_self hl), Cell.becomes_push hi _,
      fun _ => Cell.itemAt_push hi⟩
  empty _ _ h := by
    obtain ⟨rfl, rfl⟩ := Item.nested.inj h
    rw [step_appendNew_of_some hres]
    exact ⟨_, List.mem_cons_self, rfl, Cell.itemAt_new _ _ _⟩

end World

end Lite3
