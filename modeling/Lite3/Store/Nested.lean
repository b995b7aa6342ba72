import Lite3.Buffer.Value
import Lite3.Store.Creation

/-! # Containers in containers

Every nested item leads to the cell of a container that is stored there, with
the place at the head of its chain. A call changes the cell it addresses and
leaves alone those that are not stored under its key.
-/

namespace Lite3

namespace Cell

/-- The item at a place of a container. -/
def itemAt (l : Cell) : Place → Option Item
  | .key k => l.fields k
  | .index i => l.items[i.toNat]?

/-- The cell has the item under the key, or among its elements. -/
def Has (l : Cell) (it : Item) : Option (List UInt8) → Prop
  | some key => l.fields key = some it
  | none => it ∈ l.items

/-- Every nested item leads to the cell of a container that is stored there. -/
def Closed (cells : List Cell) : Prop :=
  ∀ l ∈ cells, ∀ k a o, l.Has (.nested a o) k →
    ∃ d ∈ cells, d.ofs = o ∧ d.isArr = a ∧ d.chain = (l.ofs, k) :: l.chain

/-- Cells with one offset are the same. -/
def Unique (cells : List Cell) : Prop := ∀ l ∈ cells, ∀ d ∈ cells, d.ofs = l.ofs → d = l

variable {cells : List Cell} {l d : Cell} {ofs o : ℕ} {key : List UInt8} {it : Item}
  {isArr a : Bool} {k : Option (List UInt8)}

theorem Unique.chainOf (hu : Unique cells) (hl : l ∈ cells) : chainOf l.ofs cells = l.chain := by
  cases hf : cells.find? (fun d => decide (d.ofs = l.ofs)) with
  | none => simpa using List.find?_eq_none.mp hf l hl
  | some d =>
    have ho : d.ofs = l.ofs := by simpa using List.find?_some hf
    rw [Cell.chainOf, hf, Option.elim_some, hu l hl d (List.mem_of_find?_eq_some hf) ho]

theorem Unique.filter (hu : Unique cells) (p : Cell → Bool) : Unique (cells.filter p) :=
  fun l hl d hd => hu l (List.mem_filter.mp hl).1 d (List.mem_filter.mp hd).1

theorem not_has_new (isArr : Bool) (o : ℕ) (chain : List (ℕ × Option (List UInt8))) (it : Item)
    (k : Option (List UInt8)) : ¬ (Cell.new isArr o chain).Has it k := by
  cases k <;> simp [Has, Cell.new]

theorem has_of_put (h : (l.put key it).Has (.nested a o) k) :
    (k = some key ∧ it = .nested a o) ∨ (k ≠ some key ∧ l.Has (.nested a o) k) := by
  cases k with
  | none => exact Or.inr ⟨by simp, h⟩
  | some k =>
    by_cases hk : k = key
    · subst hk
      rw [Has, fields_put_self, Option.some_inj] at h
      exact Or.inl ⟨rfl, h⟩
    · rw [Has, fields_put_of_ne hk] at h
      exact Or.inr ⟨by simpa using hk, h⟩

theorem has_of_push (h : (l.push it).Has (.nested a o) k) :
    (k = none ∧ it = .nested a o) ∨ l.Has (.nested a o) k := by
  cases k with
  | some k => exact Or.inr h
  | none =>
    rcases List.mem_append.mp h with h | h
    · exact Or.inr h
    · exact Or.inl ⟨rfl, (List.mem_singleton.mp h).symm⟩

theorem mem_modify {f : Cell → Cell} (hd : d ∈ modify ofs f cells) :
    ∃ l ∈ cells, (l.ofs = ofs ∧ d = f l) ∨ (l.ofs ≠ ofs ∧ d = l) := by
  obtain ⟨l, hl, rfl⟩ := List.mem_map.mp hd
  refine ⟨l, hl, ?_⟩
  split
  · exact Or.inl ⟨‹_›, rfl⟩
  · exact Or.inr ⟨‹_›, rfl⟩

theorem detach_chain (hne : (o, k) ≠ (ofs, some key)) (hd : d.chain = (o, k) :: l.chain) :
    (d.detach ofs key).chain = (o, k) :: (l.detach ofs key).chain := by
  change d.chain.takeWhile _ = _ :: l.chain.takeWhile _
  rw [hd]
  exact List.takeWhile_cons_of_pos (decide_eq_true hne)

theorem Closed.set (h : Closed cells) (ofs : ℕ) (key : List UInt8) (v : Scalar) :
    Closed ((modify ofs (.put key (.scalar v)) cells).map (.detach ofs key)) := by
  have hmem : ∀ d ∈ cells, ∃ d' ∈ (modify ofs (put key (.scalar v)) cells).map (detach ofs key),
      d'.ofs = d.ofs ∧ d'.isArr = d.isArr ∧ d'.chain = (d.detach ofs key).chain := by
    intro d hd
    refine ⟨_, List.mem_map_of_mem (List.mem_map_of_mem hd), ?_⟩
    split <;> exact ⟨rfl, rfl, rfl⟩
  rintro l' hl' k a o hk
  obtain ⟨l₁, hl₁, rfl⟩ := List.mem_map.mp hl'
  obtain ⟨l, hl, hcase⟩ := mem_modify hl₁
  obtain ⟨hkey, hlk, hl₁⟩ : (l.ofs, k) ≠ (ofs, some key) ∧ l.Has (.nested a o) k ∧
      (l₁.detach ofs key).chain = (l.detach ofs key).chain ∧ l₁.ofs = l.ofs := by
    rcases hcase with ⟨ho, rfl⟩ | ⟨ho, rfl⟩
    · have hk : (l.put key (.scalar v)).Has (.nested a o) k := by cases k <;> exact hk
      rcases has_of_put hk with ⟨-, h⟩ | ⟨hne, h⟩
      · cases h
      · exact ⟨fun he => hne (congrArg Prod.snd he), h, rfl, rfl⟩
    · exact ⟨fun he => ho (congrArg Prod.fst he), by cases k <;> exact hk, rfl, rfl⟩
  obtain ⟨d, hd, hdo, hda, hdc⟩ := h l hl k a o hlk
  obtain ⟨d', hd', ho, ha, hc⟩ := hmem d hd
  refine ⟨d', hd', ho.trans hdo, ha.trans hda, ?_⟩
  rw [hc, detach_chain hkey hdc, hl₁.1, show (l₁.detach ofs key).ofs = l₁.ofs from rfl, hl₁.2]

theorem Closed.append (h : Closed cells) (ofs : ℕ) (v : Scalar) :
    Closed (modify ofs (.push (.scalar v)) cells) := by
  rintro l' hl' k a o hk
  obtain ⟨l, hl, hcase⟩ := mem_modify hl'
  obtain ⟨hlk, hc, ho⟩ : l.Has (.nested a o) k ∧ l'.chain = l.chain ∧ l'.ofs = l.ofs := by
    rcases hcase with ⟨-, rfl⟩ | ⟨-, rfl⟩
    · rcases has_of_push hk with ⟨-, h⟩ | h
      · cases h
      · exact ⟨h, rfl, rfl⟩
    · exact ⟨hk, rfl, rfl⟩
  obtain ⟨d, hd, hdo, hda, hdc⟩ := h l hl k a o hlk
  refine ⟨_, List.mem_map_of_mem hd, ?_⟩
  rw [hc, ho]
  split <;> exact ⟨hdo, hda, hdc⟩

theorem closed_cons {f : Cell → Cell} (hu : Unique cells)
    (hf : ∀ l, (f l).ofs = l.ofs ∧ (f l).isArr = l.isArr ∧ (f l).chain = l.chain)
    (h : ∀ l ∈ cells, ∀ k' a o', (if l.ofs = ofs then f l else l).Has (.nested a o') k' →
      (l.ofs = ofs ∧ k' = k ∧ a = isArr ∧ o' = o) ∨
        ∃ d ∈ cells, d.ofs = o' ∧ d.isArr = a ∧ d.chain = (l.ofs, k') :: l.chain) :
    Closed (.new isArr o ((ofs, k) :: chainOf ofs cells) :: modify ofs f cells) := by
  have hsame : ∀ l : Cell, (if l.ofs = ofs then f l else l).ofs = l.ofs ∧
      (if l.ofs = ofs then f l else l).isArr = l.isArr ∧
      (if l.ofs = ofs then f l else l).chain = l.chain := by
    intro l
    split
    · exact hf l
    · exact ⟨rfl, rfl, rfl⟩
  intro l' hl' k' a o' hk
  rcases List.mem_cons.mp hl' with rfl | hl'
  · exact absurd hk (not_has_new _ _ _ _ _)
  · obtain ⟨l, hl, rfl⟩ := List.mem_map.mp hl'
    rw [(hsame l).1, (hsame l).2.2]
    rcases h l hl k' a o' hk with ⟨rfl, rfl, rfl, rfl⟩ | ⟨d, hd, hdo, hda, hdc⟩
    · refine ⟨_, List.mem_cons_self, rfl, rfl, ?_⟩
      rw [hu.chainOf hl]
      rfl
    · exact ⟨_, List.mem_cons_of_mem _ (List.mem_map_of_mem hd), (hsame d).1.trans hdo,
        (hsame d).2.1.trans hda, (hsame d).2.2.trans hdc⟩

/-- A container takes the place of everything under its key. -/
theorem Closed.create (h : Closed cells) (hu : Unique cells) (isArr : Bool) (ofs : ℕ)
    (key : List UInt8) (o : ℕ) :
    Closed (.new isArr o ((ofs, some key) :: chainOf ofs (cells.filter (¬ ·.Under ofs key))) ::
      modify ofs (.put key (.nested isArr o)) (cells.filter (¬ ·.Under ofs key))) := by
  refine closed_cons (hu.filter _) (fun _ => ⟨rfl, rfl, rfl⟩) fun l hl k a o' hk => ?_
  obtain ⟨hl, hlu⟩ := List.mem_filter.mp hl
  have hlu : ¬ l.Under ofs key := by simpa using hlu
  obtain ⟨hne, hlk⟩ | hnew : ((l.ofs, k) ≠ (ofs, some key) ∧ l.Has (.nested a o') k) ∨
      (l.ofs = ofs ∧ k = some key ∧ a = isArr ∧ o' = o) := by
    split at hk
    · rcases has_of_put hk with ⟨rfl, he⟩ | ⟨hne, h⟩
      · cases he
        exact Or.inr ⟨‹_›, rfl, rfl, rfl⟩
      · exact Or.inl ⟨fun he => hne (congrArg Prod.snd he), h⟩
    · exact Or.inl ⟨fun he => absurd (congrArg Prod.fst he) ‹_›, hk⟩
  · obtain ⟨d, hd, hdo, hda, hdc⟩ := h l hl k a o' hlk
    refine Or.inr ⟨d, List.mem_filter.mpr ⟨hd, decide_eq_true fun hdu => ?_⟩, hdo, hda, hdc⟩
    rw [Under, hdc, List.mem_cons] at hdu
    exact hdu.elim (fun he => hne he.symm) hlu
  · exact Or.inl hnew

theorem Closed.appendNew (h : Closed cells) (hu : Unique cells) (isArr : Bool) (ofs o : ℕ) :
    Closed (.new isArr o ((ofs, none) :: chainOf ofs cells) ::
      modify ofs (.push (.nested isArr o)) cells) := by
  refine closed_cons hu (fun _ => ⟨rfl, rfl, rfl⟩) fun l hl k a o' hk => ?_
  split at hk
  · rcases has_of_push hk with ⟨rfl, he⟩ | hlk
    · cases he
      exact Or.inl ⟨‹_›, rfl, rfl, rfl⟩
    · exact Or.inr (h l hl k a o' hlk)
  · exact Or.inr (h l hl k a o' hk)

/-- The container has the item at the place and is still where it was. -/
structure Becomes (l l' : Cell) (p : Place) (it : Item) : Prop where
  ofs : l'.ofs = l.ofs
  kind : l'.isArr = l.isArr
  chain : l'.chain = l.chain
  item : l'.itemAt p = some it

theorem becomes_put (l : Cell) (key : List UInt8) (it : Item) :
    l.Becomes (l.put key it) (.key key) it :=
  ⟨rfl, rfl, rfl, fields_put_self ..⟩

theorem becomes_push {i : UInt32} (hi : i.toNat = l.items.length) (it : Item) :
    l.Becomes (l.push it) (.index i) it :=
  ⟨rfl, rfl, rfl, by simp [itemAt, push, hi]⟩

end Cell

namespace World

variable {Q : Container → Cell → Prop} {w : World} {cs : List Container} {k : Call} {l d : Cell}
  {isArr : Bool} {ofs : ℕ} {key : List UInt8} {ok : Buffer → ℕ → List UInt8 → Prop}

theorem Backed.unique (hw : w.Backed Q cs) (hQ : ∀ c l, Q c l → c.ofs = l.ofs) :
    Cell.Unique w.cells := by
  intro l hl d hd ho
  obtain ⟨_, _, _, _, _, hf⟩ := hw.focus hQ hl
  exact hf.eq_of_ofs hd ho

theorem Backed.appended (hw : w.Backed Q cs) (hp : Preserved ok Q)
    (hl : (Call.appendNew isArr ofs).Legal w) :
    ∃ o, (w.buf.arrAppendContainer ofs isArr).1 = some o := by
  obtain ⟨⟨l, hlm, rfl, hla, hn⟩, hfin⟩ := hl
  obtain ⟨c, C₁, C₂, L₁, L₂, hf⟩ := hw.focus (fun _ _ h => (hp.tracks h).ofs) hlm
  rw [buf_step_appendNew] at hfin
  obtain ⟨_, o, -, hres, -⟩ :=
    hf.appendNew hp hw.linked ((hp.tracks hf.here).kind.trans hla) hn hfin
  exact ⟨o, hres⟩

/-- Containers are exact, and every nested item leads to one. -/
structure Sound (w : World) : Prop where
  backed : ∃ cs, w.Backed Exact cs
  closed : Cell.Closed w.cells

theorem Sound.unique (h : w.Sound) : Cell.Unique w.cells :=
  h.backed.choose_spec.unique fun _ _ hQ => hQ.tracks.ofs

theorem Sound.faithful (h : w.Sound) : w.Faithful := h.backed.choose_spec.faithful

theorem Sound.not_under_self (h : w.Sound) (hl : l ∈ w.cells) (key : List UInt8) :
    ¬ l.Under l.ofs key :=
  h.backed.choose_spec.linked.not_under_self hl (h.unique l hl) key

theorem Sound.create_result (h : w.Sound) (hl : (Call.create isArr ofs key).Legal w)
    (hc : w.ClearBehind ofs key) (hr : w.buf.Routed ofs key) :
    ∃ o, (w.buf.setContainer ofs key isArr).1 = some o := by
  obtain ⟨cs, hw⟩ := h.backed
  obtain ⟨o, _, _, _, _, hcr⟩ := hw.created preserved_exact hl hc hr
  exact ⟨o, hcr.result⟩

theorem Sound.step (h : w.Sound) (hl : k.Legal w) (hc : k.Clear w) (hr : k.Ok Buffer.Routed w) :
    (w.step k).Sound := by
  obtain ⟨cs, hw⟩ := h.backed
  refine ⟨(hw.advanced preserved_exact hl hc hr).backed, ?_⟩
  cases k with
  | set ofs key v => exact h.closed.set ofs key v
  | create isArr ofs key =>
    obtain ⟨o, hres⟩ := h.create_result hl hc hr
    rw [step_create_of_some hres]
    exact h.closed.create h.unique isArr ofs key o
  | append ofs v => exact h.closed.append ofs v
  | appendNew isArr ofs =>
    obtain ⟨o, hres⟩ := hw.appended preserved_exact hl
    rw [step_appendNew_of_some hres]
    exact h.closed.appendNew h.unique isArr ofs o

theorem Careful.sound {ks : List Call} (h : Careful isArr ks) : ((start isArr).run ks).Sound := by
  refine Loop.Allowed.invariant (I := Sound) h
    ⟨⟨_, Backed.start isArr (preserved_exact.new _ _ _)⟩, ?_⟩
    fun _ _ hw ⟨hl, hc, hr⟩ => hw.step hl hc hr
  rintro l hl k a o hk
  obtain rfl := List.mem_singleton.mp hl
  exact absurd hk (Cell.not_has_new _ _ _ _ _)

theorem Sound.step_set (h : w.Sound) (hl : l ∈ w.cells) (key : List UInt8) (v : Scalar) :
    ∃ l' ∈ (w.step (.set l.ofs key v)).cells, l.Becomes l' (.key key) (.scalar v) := by
  refine ⟨_, List.mem_map_of_mem (f := Cell.detach l.ofs key)
    (Cell.mem_modify_self (f := .put key (.scalar v)) hl), ?_⟩
  rw [Cell.detach_eq (d := l.put key (.scalar v)) (h.not_under_self hl key)]
  exact Cell.becomes_put ..

theorem step_append (hl : l ∈ w.cells) {i : UInt32} (hi : i.toNat = l.items.length) (v : Scalar) :
    ∃ l' ∈ (w.step (.append l.ofs v)).cells, l.Becomes l' (.index i) (.scalar v) :=
  ⟨_, Cell.mem_modify_self hl, Cell.becomes_push hi _⟩

theorem Sound.step_create (h : w.Sound) (hl : l ∈ w.cells) {o : ℕ}
    (hres : (w.buf.setContainer l.ofs key isArr).1 = some o) :
    ∃ l' ∈ (w.step (.create isArr l.ofs key)).cells, l.Becomes l' (.key key) (.nested isArr o) := by
  have hl : l ∈ w.cells.filter (¬ ·.Under l.ofs key) :=
    List.mem_filter.mpr ⟨hl, decide_eq_true (h.not_under_self hl key)⟩
  rw [step_create_of_some hres]
  exact ⟨_, List.mem_cons_of_mem _ (Cell.mem_modify_self hl), Cell.becomes_put ..⟩

theorem step_appendNew (hl : l ∈ w.cells) {i : UInt32} (hi : i.toNat = l.items.length) {o : ℕ}
    (hres : (w.buf.arrAppendContainer l.ofs isArr).1 = some o) :
    ∃ l' ∈ (w.step (.appendNew isArr l.ofs)).cells, l.Becomes l' (.index i) (.nested isArr o) := by
  rw [step_appendNew_of_some hres]
  exact ⟨_, List.mem_cons_of_mem _ (Cell.mem_modify_self hl), Cell.becomes_push hi _⟩

end World

end Lite3
