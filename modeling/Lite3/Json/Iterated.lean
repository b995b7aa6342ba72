import Lite3.Json.Documents
import Lite3.Layout.Positions
import Lite3.Store.Agreement

/-! # Iterating over documents

An iterator over an object of a document shows its members once each, in the
order of their hashes, whatever statements and reloads have made the document.
Iterators are equal where they stand at the same member of the same object.
-/

namespace Lite3

open Bytes Config

/-- Look up the containers on a path one in the other, the last one of the kind. -/
def Buffer.containerAt (b : Buffer) (isArr : Bool) : ℕ → List Place → Except Fault ℕ
  | o, [] => .ok o
  | o, p :: q => do containerAt b isArr (← p.found b o ((q.map Place.isArr).headD isArr)) q

/-- The iterator that has advanced `k` times. -/
def Buffer.iteratorAt (b : Buffer) (ofs k : ℕ) : Iterator := (Iterator.next b)^[k] (b.begin ofs)

/-- What an iterator reads of it. -/
def Node.image : Node → List UInt8
  | scalar v => v.image
  | container _ => []

namespace Doc

/-- The members of the object at the path, in the order of their hashes. -/
structure Lists (d : Doc) (q : List Place) (members : List (List UInt8 × Node)) : Prop where
  mem : ∀ k n, (k, n) ∈ members ↔ d.get (q ++ [.key k]) = some n
  sorted : members.Pairwise fun m m' => djb2Hash m.1 < djb2Hash m'.1

/-- The object at the path has less than 2097151 keys. -/
def Few (d : Doc) (q : List Place) : Prop :=
  ∃ names : List (List UInt8), names.length < 2097151 ∧
    ∀ k, d.get (q ++ [.key k]) ≠ none → k ∈ names

end Doc

variable {b : Buffer} {w : World} {d : Doc} {q q' : List Place} {p : Place} {l l' : Cell}
  {cs : List Container}
  {P : Container → Cell → Prop} {Q : Place → Prop} {V : Scalar → Prop} {root isArr : Bool} {o : ℕ}

theorem Buffer.containerAt_concat (b : Buffer) (isArr : Bool) (o : ℕ) (q : List Place) (p : Place) :
    b.containerAt isArr o (q ++ [p]) =
      (b.containerAt p.isArr o q).bind fun o' => p.found b o' isArr := by
  induction q generalizing o with
  | nil =>
    change (p.found b o isArr).bind (b.containerAt isArr · []) = p.found b o isArr
    cases p.found b o isArr <;> rfl
  | cons p' q ih =>
    have hhead : ((q ++ [p]).map Place.isArr).headD isArr = (q.map Place.isArr).headD p.isArr := by
      cases q <;> rfl
    rw [List.cons_append, containerAt, containerAt, hhead]
    cases p'.found b o ((q.map Place.isArr).headD p.isArr) with
    | error f => rfl
    | ok o' => exact ih o'

namespace World

theorem At.containerAt (hw : w.Sound) (h : w.At q (.nested isArr o)) :
    w.buf.containerAt isArr 0 q = .ok o := by
  induction q using List.reverseRecOn generalizing isArr o with
  | nil =>
    obtain ⟨l, -, -, -, hit⟩ := at_nil.mp h
    obtain ⟨-, rfl⟩ := Item.nested.inj hit
    rfl
  | append_singleton q p ih =>
    obtain ⟨l, hl, hq, hk, hi⟩ := at_concat.mp h
    rw [Buffer.containerAt_concat, ← hk, ih hq]
    rcases hw.faithful.found hl hk isArr with ⟨o', ho', hf⟩ | ⟨hno, -⟩
    · rw [hi] at ho'
      obtain ⟨-, rfl⟩ := Item.nested.inj (Option.some_inj.mp ho')
      exact hf
    · exact absurd hi (hno o)

theorem Backed.pair (hw : w.Backed P cs) (hl : l ∈ w.cells) (hl' : l' ∈ w.cells) (hne : l' ≠ l) :
    ∃ c c' R, P c l ∧ P c' l' ∧ w.buf.Owns (c.chunks ++ (c'.chunks ++ R)) := by
  obtain ⟨C₁, c, C₂, L₁, L₂, rfl, hcells, h₁, hc, h₂⟩ := forall₂_split hw.cells hl
  have hmem : l' ∈ L₁ ++ L₂ := by
    rw [hcells] at hl'
    simpa [hne] using hl'
  obtain ⟨D₁, c', D₂, -, -, hrest, -, -, hc', -⟩ := forall₂_split (List.rel_append h₁ h₂) hmem
  have hrest : C₁ ++ C₂ = D₁ ++ c' :: D₂ := hrest
  have hperm := (chunks_mid_perm c C₁ C₂).symm
  rw [hrest] at hperm
  exact ⟨c, c', _, hc, hc', Buffer.Owns.perm hw.owns
    (hperm.trans ((chunks_mid_perm c' D₁ D₂).symm.append_left _))⟩

theorem Represents.height_le (h : w.Represents Q V root d) {c : Container} (hQ : Whole c l)
    (hl : l ∈ w.cells)
    (hla : l.isArr = false) (hq : w.At q (.nested false l.ofs)) (hfew : d.Few q) :
    c.height ≤ treeHeightMax := by
  obtain ⟨names, hlen, hnames⟩ := hfew
  have hm := hQ.exact.mirrors (hQ.exact.tracks.kind.trans hla)
  have hsub : c.entries.map Entry.key ⊆ names := by
    intro k hk
    obtain ⟨e, he, rfl⟩ := List.mem_map.mp hk
    refine hnames e.key ?_
    rw [h.get_concat (p := .key e.key) (by rwa [hla]) hl hla, Ne, Option.map_eq_none_iff]
    exact hm.known e he
  have hcount : c.entries.length ≤ names.length := by
    simpa using (hm.nodup_keys.subperm hsub).length_le
  exact Container.height_le_max hQ.rooted (hcount.trans_lt hlen)

/-- The entries of an object list its members. -/
theorem Represents.lists (h : w.Represents Q V root d) (hproper : Place.Proper Q) {c : Container}
    (hQ : Whole c l) (hl : l ∈ w.cells) (hla : l.isArr = false)
    (hq : w.At q (.nested false l.ofs)) :
    ∃ nodeOf : Entry → Node, d.Lists q (c.entries.map fun e => (e.key, nodeOf e)) ∧
      ∀ e ∈ c.entries, e.type = (nodeOf e).type ∧ e.val = (nodeOf e).image := by
  have hm := hQ.exact.mirrors (hQ.exact.tracks.kind.trans hla)
  have hget : ∀ k, d.get (q ++ [.key k]) = (l.fields k).map Item.node := fun k =>
    h.get_concat (p := .key k) (by rwa [hla]) hl hla
  have : Nonempty Item := ⟨.scalar .null⟩
  have hitem : ∀ e ∈ c.entries, ∃ it, l.fields e.key = some it := fun e he =>
    Option.ne_none_iff_exists'.mp (hm.known e he)
  choose! itemOf hfields using hitem
  refine ⟨fun e => (itemOf e).node, ⟨fun k n => ?_, ?_⟩, fun e he => ?_⟩
  · rw [hget k, Option.map_eq_some_iff]
    constructor
    · intro hmem
      obtain ⟨e, he, heq⟩ := List.mem_map.mp hmem
      obtain ⟨rfl, rfl⟩ := Prod.mk.inj heq
      exact ⟨_, hfields e he, rfl⟩
    · rintro ⟨it, hit, rfl⟩
      obtain ⟨e, he, rfl, -⟩ := hm.item k it hit
      rw [hfields e he] at hit
      obtain rfl := Option.some_inj.mp hit
      exact List.mem_map_of_mem he
  · rw [List.pairwise_map]
    refine hm.ordered.imp_of_mem fun {e f} he hf hlt => ?_
    have hused : ∀ e ∈ c.entries, Q (.key e.key) := fun e he =>
      h.used q _ (by rw [hget, hfields e he]; simp)
    have hcmp : e.cmp f.hash f.key = .lt := hlt
    rw [Entry.cmp, Ordering.then_eq_lt, hm.hashed e he, hm.hashed f hf] at hcmp
    rcases hcmp with hhash | ⟨hhash, hkey⟩
    · exact Std.compare_eq_lt.mp hhash
    · have heq := hproper.distinct _ _ (hused e he) (hused f hf)
        (Std.LawfulEqCmp.compare_eq_iff_eq.mp hhash)
      rw [heq] at hkey
      simp [Std.ReflCmp.compare_self] at hkey
  · have hholds := hm.holds he (hfields e he)
    rw [hholds.type, hholds.val]
    change _ = (itemOf e).node.type ∧ _ = (itemOf e).node.image
    cases itemOf e <;> exact ⟨rfl, rfl⟩

theorem Represents.object (h : w.Represents Q V root d) (hobj : d.get q = some (.container false)) :
    ∃ l ∈ w.cells, l.isArr = false ∧ w.At q (.nested false l.ofs) := by
  obtain ⟨it, hat, hnode⟩ := (h.get q _).mp hobj
  cases it with
  | scalar v => cases hnode
  | nested isArr o =>
    obtain rfl := Node.container.inj hnode
    obtain ⟨l, hl, rfl, hla⟩ := hat.cell h.sound
    exact ⟨l, hl, hla, hat⟩

theorem Represents.iterated (h : w.Represents Q V root d) (hproper : Place.Proper Q)
    (hobj : d.get q = some (.container false)) (hfew : d.Few q) :
    ∃ o members, w.buf.containerAt false 0 q = .ok o ∧ d.Lists q members ∧ ∀ i, w.buf.visit o i =
      match members[i]? with
      | some (k, n) => .ok (some (k, n.type, n.image))
      | none => .error (.exception "Invalid iterator") := by
  obtain ⟨l, hl, hla, hq⟩ := h.object hobj
  obtain ⟨cs, hcs⟩ := h.reached.backed preserved_whole
  obtain ⟨c, R, -, hQ, ho⟩ := hcs.container hl
  have hc : c.isArr = false := hQ.exact.tracks.kind.trans hla
  have hh := h.height_le hQ hl hla hq hfew
  obtain ⟨nodeOf, hlists, hof⟩ := h.lists hproper hQ hl hla hq
  refine ⟨l.ofs, _, hq.containerAt h.sound, hlists, fun i => ?_⟩
  rw [Buffer.visit, ← hQ.exact.tracks.ofs, (Container.begin_points ho hc hh).deref_iterate
    (Container.data_ne_nil ho) hh i, List.getElem?_map]
  cases he : c.entries[i]? with
  | none => rfl
  | some e =>
    have hmem := List.mem_of_getElem? he
    obtain ⟨hheld, hread⟩ := (Container.seen ho).entry hmem
    rw [hc] at hheld hread
    obtain ⟨htype, hval⟩ := hof e hmem
    have hpay := hheld.payload hread
    rw [htype, hval] at hpay
    simp only [Except.map, Option.map, Buffer.shown, Entry.view, htype, hpay]

theorem Represents.iterators_equal (h : w.Represents Q V root d)
    (hobj : d.get q = some (.container false)) (hfew : d.Few q)
    (hobj' : d.get q' = some (.container false)) (hfew' : d.Few q') :
    ∃ o o', w.buf.containerAt false 0 q = .ok o ∧ w.buf.containerAt false 0 q' = .ok o' ∧ ∀ i j,
      (w.buf.iteratorAt o i).equals w.buf (w.buf.iteratorAt o' j) = true ↔ q = q' ∧ i = j ∨
        (w.buf.iteratorAt o i).equals w.buf .atEnd = true ∧
          (w.buf.iteratorAt o' j).equals w.buf .atEnd = true := by
  obtain ⟨l, hl, hla, hq⟩ := h.object hobj
  obtain ⟨l', hl', hla', hq'⟩ := h.object hobj'
  refine ⟨l.ofs, l'.ofs, hq.containerAt h.sound, hq'.containerAt h.sound, fun i j => ?_⟩
  obtain ⟨cs, hcs⟩ := h.reached.backed preserved_whole
  have hheight : ∀ {c}, Whole c l → c.height ≤ treeHeightMax :=
    fun hQ => h.height_le hQ hl hla hq hfew
  have hheight' : ∀ {c}, Whole c l' → c.height ≤ treeHeightMax :=
    fun hQ => h.height_le hQ hl' hla' hq' hfew'
  by_cases hll : l' = l
  · subst hll
    obtain rfl := hq.path_unique h.sound hq'
    obtain ⟨c, R, -, hQ, ho⟩ := hcs.container hl
    have hc : c.isArr = false := hQ.exact.tracks.kind.trans hla
    rw [Buffer.iteratorAt, Buffer.iteratorAt, ← hQ.exact.tracks.ofs,
      Container.equals_iterate ho hc (hheight hQ),
      Container.equals_atEnd_iterate ho hc (hheight hQ),
      Container.equals_atEnd_iterate ho hc (hheight hQ)]
    simp
  · have hne : q ≠ q' := by
      rintro rfl
      obtain ⟨-, hofs⟩ := Item.nested.inj (hq.item_unique h.sound hq')
      exact hll (h.sound.unique l hl l' hl' hofs.symm)
    obtain ⟨c, c', R, hQ, hQ', ho⟩ := hcs.pair hl hl' hll
    have ho' : w.buf.Owns (c'.chunks ++ (c.chunks ++ R)) :=
      Buffer.Owns.perm ho (List.perm_append_comm_assoc ..)
    have hc : c.isArr = false := hQ.exact.tracks.kind.trans hla
    have hc' : c'.isArr = false := hQ'.exact.tracks.kind.trans hla'
    rw [Buffer.iteratorAt, Buffer.iteratorAt, ← hQ.exact.tracks.ofs, ← hQ'.exact.tracks.ofs,
      Container.equals_iterate_other ho hc hc' (hheight hQ) (hheight' hQ'),
      Container.equals_atEnd_iterate ho hc (hheight hQ),
      Container.equals_atEnd_iterate ho' hc' (hheight' hQ')]
    simp [hne]

end World

/-- After every run of statements and reloads that fit, a new iterator over an object of the
document shows its members once each, in the order of their hashes, and then it is invalid. -/
theorem document_iterated (hproper : Place.Proper Q) {acts : List Act}
    (hok : Act.Fitting Q root acts) (hrun : Act.run root acts = (b, d)) (hfin : b.usedSize < 2 ^ 32)
    (hobj : d.get q = some (.container false)) (hfew : d.Few q) :
    ∃ o members, b.containerAt false 0 q = .ok o ∧ d.Lists q members ∧ ∀ i, b.visit o i =
      match members[i]? with
      | some (k, n) => .ok (some (k, n.type, n.image))
      | none => .error (.exception "Invalid iterator") := by
  obtain ⟨w, rfl, h⟩ := Act.represented (V := fun _ => True) hproper hok (by simp) hrun hfin
  exact h.iterated hproper hobj hfew

theorem fourActs_few (q : List Place) : (Act.run false fourActs).2.Few q := by
  obtain ⟨w, -, h⟩ := Act.represented (V := fun _ => True) fourPlaces_proper fourActs_fitting
    (by simp) Prod.mk.eta.symm (by decide +kernel)
  refine ⟨[[97], [98], [99], [100], [101]], by decide, fun k hk => ?_⟩
  have hused : fourPlaces (.key k) := h.used q (.key k) hk
  simpa [fourPlaces] using hused

set_option maxRecDepth 10000 in
theorem document_iterated_four :
    ∃ o members, (Act.run false fourActs).1.containerAt false 0 [.key [97]] = .ok o ∧
    (Act.run false fourActs).2.Lists [.key [97]] members ∧
      ∀ i, (Act.run false fourActs).1.visit o i =
      match members[i]? with
      | some (k, n) => .ok (some (k, n.type, n.image))
      | none => .error (.exception "Invalid iterator") :=
  document_iterated fourPlaces_proper fourActs_fitting Prod.mk.eta.symm (by decide +kernel)
    (by decide +kernel) (fourActs_few _)

/-- Two iterators over objects of the document are equal exactly when they have come as far in the
same object, or are both at the end. -/
theorem document_iterators (hproper : Place.Proper Q) {acts : List Act}
    (hok : Act.Fitting Q root acts) (hrun : Act.run root acts = (b, d)) (hfin : b.usedSize < 2 ^ 32)
    (hobj : d.get q = some (.container false)) (hfew : d.Few q)
    (hobj' : d.get q' = some (.container false)) (hfew' : d.Few q') :
    ∃ o o', b.containerAt false 0 q = .ok o ∧ b.containerAt false 0 q' = .ok o' ∧ ∀ i j,
      (b.iteratorAt o i).equals b (b.iteratorAt o' j) = true ↔ q = q' ∧ i = j ∨
        (b.iteratorAt o i).equals b .atEnd = true ∧ (b.iteratorAt o' j).equals b .atEnd = true := by
  obtain ⟨w, rfl, h⟩ := Act.represented (V := fun _ => True) hproper hok (by simp) hrun hfin
  exact h.iterators_equal hobj hfew hobj' hfew'

set_option maxRecDepth 10000 in
theorem document_iterators_four :
    ∃ o o', (Act.run false fourActs).1.containerAt false 0 [] = .ok o ∧
    (Act.run false fourActs).1.containerAt false 0 [.key [97]] = .ok o' ∧ ∀ i j,
      ((Act.run false fourActs).1.iteratorAt o i).equals (Act.run false fourActs).1
          ((Act.run false fourActs).1.iteratorAt o' j) = true ↔
        ([] : List Place) = [.key [97]] ∧ i = j ∨
          ((Act.run false fourActs).1.iteratorAt o i).equals (Act.run false fourActs).1 .atEnd =
            true ∧
          ((Act.run false fourActs).1.iteratorAt o' j).equals (Act.run false fourActs).1 .atEnd =
            true :=
  document_iterators fourPlaces_proper fourActs_fitting Prod.mk.eta.symm (by decide +kernel)
    (by decide +kernel) (fourActs_few _) (by decide +kernel) (fourActs_few _)

end Lite3
