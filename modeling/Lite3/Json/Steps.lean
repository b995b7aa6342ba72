import Lite3.Json.Text
import Lite3.Store.Nested
import Lite3.Tree.Ascending

/-! # Storing one value

A value stored under a fresh key or behind the elements of an array changes the
cell that it goes into and leaves all others as they are. A container comes into
being behind everything that is there.
-/

namespace Lite3

open Bytes Config Lite3.Tree

theorem Tree.BTree.Rooted.setRoot {ν α : Type} {h : ℕ} {t : BTree ν α h} (hr : t.Rooted) (l : ν) :
    (t.setRoot l t.keys).Rooted := by
  cases h with
  | zero => trivial
  | succ h => exact hr

/-- The container holds exactly what its cell says, and a root with children has a key. -/
structure Whole (c : Container) (l : Cell) : Prop where
  exact : Exact c l
  rooted : BTree.Rooted c.tree

theorem Container.usedSize_lt_setContainer {b : Buffer} {c : Container} {R : List Chunk}
    {key : List UInt8} {isArr : Bool} {o : ℕ} (ho : b.Owns (c.chunks ++ R)) (hc : c.isArr = false)
    (hk : key.length ≤ 62)
    (hno : ∀ e ∈ c.entries, e.key = key → (valueBytes e.type e.val).length ≠ 1)
    (hfin : (b.setContainer c.ofs key isArr).2.usedSize < 2 ^ 32)
    (hres : (b.setContainer c.ofs key isArr).1 = some o) : b.usedSize < o := by
  obtain ⟨x, c', ms, b', heq, -, -, hup⟩ := setContainer_eq ho hc hk hfin
  have hlen : (setArgs key (kindOf isArr) []).valTotalLen = 1 := by cases isArr <;> rfl
  obtain ⟨hle, -⟩ := hup.fresh fun e he hcmp => hlen ▸ hno e he (SetArgs.eq_of_cmp hcmp).2
  rw [heq, Option.some_inj, Entry.valueOfs] at hres
  omega

theorem Updates.usedSize_lt_append {b b' : Buffer} {c c' : Container} {x : Entry} {ms : List Entry}
    {type : ValueType} {val : List UInt8} (h : Updates (appendArgs c.size type val) b b' c c' x ms)
    (hall : ∀ e ∈ c.entries, e.hash < c.size) : b.usedSize < x.valueOfs true + 1 := by
  obtain ⟨hle, -⟩ := h.fresh fun e he hcmp => by
    have hlt : (appendArgs c.size type val).cmp e = .lt := Entry.cmp_lt_of_hash_lt (hall e he)
    simp [hlt] at hcmp
  rw [Entry.valueOfs]
  omega

theorem Container.ofs_lt_usedSize {b : Buffer} {c : Container} {R : List Chunk}
    (ho : b.Owns (c.chunks ++ R)) : c.ofs < b.usedSize := by
  have hle := ho.below c.tree.label.chunk (List.mem_append_left _ (c.tree.label_chunk_mem c.isArr))
  simp only [Chunk.stop, Block.length_chunk, Block.ofs_chunk] at hle
  rw [Container.ofs, NodeTree.ofs]
  omega

namespace World

variable {w w' w'' : World} {cs : List Container} {l : Cell} {isArr : Bool} {o ofs : ℕ}
  {key : List UInt8}

theorem preserved_whole : Preserved Buffer.Routed Whole where
  tracks h := h.exact.tracks
  new isArr o chain := ⟨preserved_exact.new isArr o chain, trivial⟩
  detach ofs key h := ⟨preserved_exact.detach ofs key h.exact, h.rooted⟩
  put h ho hc hr hup hx :=
    ⟨preserved_exact.put h.exact ho hc hr hup hx, hup.put.rooted (Container.shaped _) h.rooted⟩
  push h hc hup hh hx hn :=
    ⟨preserved_exact.push h.exact hc hup hh hx hn,
      (hup.put.rooted (Container.shaped _) h.rooted).setRoot _⟩

/-- Only the container at `o` has changed, and others have been added. -/
structure Grown (o : ℕ) (w w' : World) : Prop where
  backed : ∃ cs, w'.Backed Whole cs
  kept : ∀ d ∈ w.cells, d.ofs ≠ o → d ∈ w'.cells
  still : ∀ d ∈ w.cells, ∃ d' ∈ w'.cells, d'.ofs = d.ofs

theorem Grown.trans (h : Grown o w w') (h' : Grown o w' w'') : Grown o w w'' where
  backed := h'.backed
  kept d hd hne := h'.kept d (h.kept d hd hne) hne
  still d hd := by
    obtain ⟨d', hd', ho⟩ := h.still d hd
    obtain ⟨d'', hd'', ho'⟩ := h'.still d' hd'
    exact ⟨d'', hd'', ho'.trans ho⟩

theorem Grown.step {k : Call} (hb : ∃ cs, (w.step k).Backed Whole cs)
    (hk : ∀ d ∈ w.cells, ¬ k.Hides d) : Grown k.ofs w (w.step k) where
  backed := hb
  kept _ hd hne := step_kept hd hne (hk _ hd)
  still d hd := by
    obtain ⟨d', hd', ho, -⟩ := step_cell hd (hk d hd)
    exact ⟨d', hd', ho⟩

theorem Grown.inner (h : Grown ofs w w') (ho : ∀ d ∈ w.cells, d.ofs < o) (h' : Grown o w' w'') :
    Grown ofs w w'' where
  backed := h'.backed
  kept d hd hne := h'.kept d (h.kept d hd hne) (ho d hd).ne
  still d hd := by
    obtain ⟨d', hd', hd'o⟩ := h.still d hd
    obtain ⟨d'', hd'', ho'⟩ := h'.still d' hd'
    exact ⟨d'', hd'', ho'.trans hd'o⟩

/-- A key whose hash is new to the object is routed. -/
theorem Backed.routed_of_new (hw : w.Backed Whole cs) (hl : l ∈ w.cells) (hla : l.isArr = false)
    (hnew : ∀ k, l.fields k ≠ none → djb2Hash k ≠ djb2Hash key) : w.buf.Routed l.ofs key := by
  obtain ⟨c, R, -, hQ, ho⟩ := hw.container hl
  have hc : c.isArr = false := hQ.exact.tracks.kind.trans hla
  have hm := hQ.exact.mirrors hc
  rintro s hs hh
  rw [← hQ.exact.tracks.ofs] at hs
  obtain ⟨e, he, hes, -⟩ := Container.entry_of_median ho hc hs
  refine absurd ?_ (hnew e.key (hm.known e he))
  rw [← hm.hashed e he, hes, hh]

theorem Backed.ofs_lt_usedSize (hw : w.Backed Whole cs) {d : Cell} (hd : d ∈ w.cells) :
    d.ofs < w.buf.usedSize := by
  obtain ⟨c, R, -, hQ, ho⟩ := hw.container hd
  exact hQ.exact.tracks.ofs ▸ Container.ofs_lt_usedSize ho

theorem Backed.fields_eq_none (hw : w.Backed Whole cs) (hl : l ∈ w.cells)
    (hnew : ∀ k, l.fields k ≠ none → djb2Hash k ≠ djb2Hash key) :
    ∀ d ∈ w.cells, d.ofs = l.ofs → d.fields key = none := by
  intro d hd ho
  rw [hw.unique (fun _ _ h => h.exact.tracks.ofs) l hl d hd ho]
  by_contra hne
  exact hnew key hne rfl

end World

namespace Target

/-- The offset of the container that the value goes into. -/
def ofs : Target → ℕ
  | here ofs | under ofs _ | behind ofs => ofs

/-- The cell takes a value there: under a key with a new hash, or as one of less than 2^26
elements. -/
def Takes (l : Cell) : Target → Prop
  | here _ => False
  | under ofs key => l.ofs = ofs ∧ l.isArr = false ∧ key.length ≤ 62 ∧
      ∀ k, l.fields k ≠ none → djb2Hash k ≠ djb2Hash key
  | behind ofs => l.ofs = ofs ∧ l.isArr = true ∧ l.items.length + 1 < 2 ^ 26

/-- The cell with the item. -/
def fill (it : Item) (l : Cell) : Target → Cell
  | here _ => l
  | under _ key => l.put key it
  | behind _ => l.push it

@[simp] theorem ofs_fill (it : Item) (l : Cell) (t : Target) : (t.fill it l).ofs = l.ofs := by
  cases t <;> rfl

variable {w : World} {cs : List Container} {l : Cell} {t : Target} {isArr : Bool}

theorem put_grown (hw : w.Backed Whole cs) (hl : l ∈ w.cells) (ht : t.Takes l) (v : Scalar)
    (hfin : (t.put w.buf v).usedSize < 2 ^ 32) :
    ∃ w' : World, t.put w.buf v = w'.buf ∧ World.Grown t.ofs w w' ∧
      t.fill (.scalar v) l ∈ w'.cells := by
  cases t with
  | here => exact ht.elim
  | under ofs key =>
    obtain ⟨rfl, hla, hk, hnew⟩ := ht
    have hno := hw.fields_eq_none hl hnew
    have hu : ∀ d ∈ w.cells, ¬ d.Under l.ofs key := fun d hd => hw.linked.not_under hno hd
    have hadv := hw.advanced (k := .set l.ofs key v) World.preserved_whole
      ⟨⟨hk, l, hl, rfl, hla⟩, hfin⟩ trivial (hw.routed_of_new hl hla hnew)
    refine ⟨w.step (.set l.ofs key v), rfl, .step hadv.backed hu, ?_⟩
    have hm := List.mem_map_of_mem (f := Cell.detach l.ofs key)
      (Cell.mem_modify_self (f := .put key (.scalar v)) hl)
    rwa [Cell.detach_eq (d := l.put key (.scalar v)) (hu l hl)] at hm
  | behind ofs =>
    obtain ⟨rfl, hla, hn⟩ := ht
    have hadv := hw.advanced (k := .append l.ofs v) World.preserved_whole
      ⟨⟨l, hl, rfl, hla, hn⟩, hfin⟩ trivial trivial
    exact ⟨w.step (.append l.ofs v), rfl, .step hadv.backed fun _ _ => id, Cell.mem_modify_self hl⟩

/-- What a new container looks like. -/
structure Opened (t : Target) (isArr : Bool) (w : World) (l : Cell) (o : ℕ) (w' : World) :
    Prop where
  result : t.container w.buf isArr = (some o, w'.buf)
  grown : World.Grown t.ofs w w'
  filled : t.fill (.nested isArr o) l ∈ w'.cells
  empty : ∃ chain, .new isArr o chain ∈ w'.cells
  behind : ∀ d ∈ w.cells, d.ofs < o

theorem opened_under {key : List UInt8} (hw : w.Backed Whole cs) (hl : l ∈ w.cells)
    (hla : l.isArr = false) (hk : key.length ≤ 62)
    (hnew : ∀ k, l.fields k ≠ none → djb2Hash k ≠ djb2Hash key)
    (hfin : (w.buf.setContainer l.ofs key isArr).2.usedSize < 2 ^ 32) :
    ∃ o w', (Target.under l.ofs key).Opened isArr w l o w' := by
  obtain ⟨c, R, -, hQ, ho⟩ := hw.container hl
  have hno := hw.fields_eq_none hl hnew
  have hu : ∀ d ∈ w.cells, ¬ d.Under l.ofs key := fun d hd => hw.linked.not_under hno hd
  have hlegal : (Call.create isArr l.ofs key).Legal w :=
    ⟨⟨hk, l, hl, rfl, hla⟩, by rw [World.buf_step_create]; exact hfin⟩
  have hclear := ((hw.imp fun _ _ h => h.exact.tracks).fresh (k := .create isArr l.ofs key)
    hno hlegal).1
  have hroute := hw.routed_of_new hl hla hnew
  obtain ⟨o, _, _, _, _, hcr⟩ := hw.created World.preserved_whole hlegal hclear hroute
  have hadv := hw.advanced World.preserved_whole hlegal hclear hroute
  have hstep := World.step_create_of_some (w := w) hcr.result
  have hin : l ∈ w.cells.filter (¬ ·.Under l.ofs key) :=
    List.mem_filter.mpr ⟨hl, decide_eq_true (hu l hl)⟩
  have hc : c.isArr = false := hQ.exact.tracks.kind.trans hla
  have hofs := hQ.exact.tracks.ofs
  have hlt : w.buf.usedSize < o := by
    refine Container.usedSize_lt_setContainer ho hc hk (fun e he hek => ?_)
      (hofs ▸ hfin) (hofs ▸ hcr.result)
    exact absurd (hek ▸ hno l hl rfl) ((hQ.exact.mirrors hc).known e he)
  refine ⟨o, w.step (.create isArr l.ofs key), Prod.ext hcr.result ?_, .step hadv.backed hu, ?_, ?_,
    fun d hd => (hw.ofs_lt_usedSize hd).trans hlt⟩
  · exact (World.buf_step_create ..).symm
  · rw [hstep]
    exact List.mem_cons_of_mem _ (Cell.mem_modify_self hin)
  · rw [hstep]
    exact ⟨_, List.mem_cons_self⟩

theorem opened_behind (hw : w.Backed Whole cs) (hl : l ∈ w.cells) (hla : l.isArr = true)
    (hn : l.items.length + 1 < 2 ^ 26)
    (hfin : (w.buf.arrAppendContainer l.ofs isArr).2.usedSize < 2 ^ 32) :
    ∃ o w', (Target.behind l.ofs).Opened isArr w l o w' := by
  obtain ⟨c, R, -, hQ, ho⟩ := hw.container hl
  have hlegal : (Call.appendNew isArr l.ofs).Legal w :=
    ⟨⟨l, hl, rfl, hla, hn⟩, by rw [World.buf_step_appendNew]; exact hfin⟩
  have hadv := hw.advanced World.preserved_whole hlegal trivial trivial
  have hc : c.isArr = true := hQ.exact.tracks.kind.trans hla
  have hall := (hQ.exact.tracks.elements hc).hash_lt
  have hofs := hQ.exact.tracks.ofs
  obtain ⟨x, c', ms, b₁, hres, -, hup⟩ :=
    Container.arrAppendContainer ho hc hall (hofs ▸ hfin : (w.buf.arrAppendContainer c.ofs
      isArr).2.usedSize < 2 ^ 32)
  rw [hofs] at hres
  have hlt := hup.usedSize_lt_append hall
  have hstep := World.step_appendNew_of_some (congrArg Prod.fst hres)
  refine ⟨_, w.step (.appendNew isArr l.ofs), hres.trans (Prod.ext rfl ?_),
    .step hadv.backed fun _ _ => id, ?_, ?_, fun d hd => (hw.ofs_lt_usedSize hd).trans hlt⟩
  · exact (World.buf_step_appendNew ..).symm
  · rw [hstep]
    exact List.mem_cons_of_mem _ (Cell.mem_modify_self hl)
  · rw [hstep]
    exact ⟨_, List.mem_cons_self⟩

theorem container_opened (hw : w.Backed Whole cs) (hl : l ∈ w.cells) (ht : t.Takes l)
    (hfin : (t.container w.buf isArr).2.usedSize < 2 ^ 32) :
    ∃ o w', t.Opened isArr w l o w' := by
  cases t with
  | here => exact ht.elim
  | under ofs key =>
    obtain ⟨rfl, hla, hk, hnew⟩ := ht
    exact opened_under hw hl hla hk hnew hfin
  | behind ofs =>
    obtain ⟨rfl, hla, hn⟩ := ht
    exact opened_behind hw hl hla hn hfin

end Target

end Lite3
