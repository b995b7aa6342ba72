import Lite3.Loop.Runs
import Lite3.Store.Cell

/-! # Histories of calls

A world is a buffer with the cells of the containers created in it. A call acts
on the buffer and records its effect in the cell it addresses; a container
created under a key takes the place of whatever was stored there. The chains of
the cells lead from container to container up to the root.
-/

namespace Lite3

/-- The modifying calls, with the offset of the container they address. -/
inductive Call
  | set (ofs : ℕ) (key : List UInt8) (v : Scalar)
  | create (isArr : Bool) (ofs : ℕ) (key : List UInt8)
  | append (ofs : ℕ) (v : Scalar)
  | appendNew (isArr : Bool) (ofs : ℕ)

def Call.ofs : Call → ℕ
  | set ofs _ _ | create _ ofs _ | append ofs _ | appendNew _ ofs => ofs

structure World where
  buf : Buffer
  cells : List Cell

namespace Cell

/-- The cell is stored under the key of the container at `ofs`. -/
def Under (ofs : ℕ) (key : List UInt8) (l : Cell) : Prop := (ofs, some key) ∈ l.chain

instance (ofs : ℕ) (key : List UInt8) (l : Cell) : Decidable (l.Under ofs key) :=
  inferInstanceAs (Decidable ((ofs, some key) ∈ l.chain))

/-- What the key held is no longer stored under it. -/
def detach (ofs : ℕ) (key : List UInt8) (l : Cell) : Cell :=
  { l with chain := l.chain.takeWhile (· ≠ (ofs, some key)) }

/-- Change the cell of the container at `ofs`. -/
def modify (ofs : ℕ) (f : Cell → Cell) (cells : List Cell) : List Cell :=
  cells.map fun l => if l.ofs = ofs then f l else l

def chainOf (ofs : ℕ) (cells : List Cell) : List (ℕ × Option (List UInt8)) :=
  (cells.find? (·.ofs = ofs)).elim [] chain

end Cell

namespace World

/-- A buffer with an empty container at offset zero. -/
def start (isArr : Bool) : World :=
  ⟨Buffer.empty.initStructure (kindOf isArr), [.new isArr 0 []]⟩

def step (w : World) : Call → World
  | .set ofs key v =>
    ⟨w.buf.setScalar ofs key v,
      (Cell.modify ofs (.put key (.scalar v)) w.cells).map (.detach ofs key)⟩
  | .create isArr ofs key =>
    let cells := w.cells.filter (¬ ·.Under ofs key)
    match w.buf.setContainer ofs key isArr with
    | (none, b) => ⟨b, cells⟩
    | (some o, b) =>
      ⟨b, .new isArr o ((ofs, some key) :: Cell.chainOf ofs cells) ::
        Cell.modify ofs (.put key (.nested isArr o)) cells⟩
  | .append ofs v => ⟨w.buf.arrAppend ofs v, Cell.modify ofs (.push (.scalar v)) w.cells⟩
  | .appendNew isArr ofs =>
    match w.buf.arrAppendContainer ofs isArr with
    | (none, b) => ⟨b, w.cells⟩
    | (some o, b) =>
      ⟨b, .new isArr o ((ofs, none) :: Cell.chainOf ofs w.cells) ::
        Cell.modify ofs (.push (.nested isArr o)) w.cells⟩

def run (w : World) (ks : List Call) : World := ks.foldl step w

end World

namespace Call

/-- The call addresses a container of its kind, with a short key or room for an element, and the
buffer stays below 4 GiB. -/
def Legal (w : World) (k : Call) : Prop :=
  (match k with
    | set ofs key _ | create _ ofs key =>
      key.length ≤ 62 ∧ ∃ l ∈ w.cells, l.ofs = ofs ∧ l.isArr = false
    | append ofs _ | appendNew _ ofs =>
      ∃ l ∈ w.cells, l.ofs = ofs ∧ l.isArr = true ∧ l.items.length + 1 < 2 ^ 26) ∧
  (w.step k).buf.usedSize < 2 ^ 32

instance (w : World) : (k : Call) → Decidable (k.Legal w)
  | set ofs key _ | create _ ofs key => inferInstanceAs (Decidable
      ((key.length ≤ 62 ∧ ∃ l ∈ w.cells, l.ofs = ofs ∧ l.isArr = false) ∧ _ < _))
  | append ofs _ | appendNew _ ofs => inferInstanceAs (Decidable
      ((∃ l ∈ w.cells, l.ofs = ofs ∧ l.isArr = true ∧ l.items.length + 1 < 2 ^ 26) ∧ _ < _))

/-- Containers are created under keys that the object has never had. -/
def Fresh (w : World) : Call → Prop
  | create _ ofs key => ∀ l ∈ w.cells, l.ofs = ofs → l.fields key = none
  | _ => True

instance (w : World) : (k : Call) → Decidable (k.Fresh w)
  | create _ ofs key =>
    inferInstanceAs (Decidable (∀ l ∈ w.cells, l.ofs = ofs → l.fields key = none))
  | set .. | append .. | appendNew .. => instDecidableTrue

end Call

namespace Cell

variable {cells L₁ L₂ : List Cell} {l : Cell} {ofs : ℕ} {key : List UInt8} {f : Cell → Cell}

/-- Every link of a chain leads to the container it names, with an item under the key. -/
def Linked (cells : List Cell) : Prop :=
  ∀ d ∈ cells, ∀ pre o k rest, d.chain = pre ++ (o, k) :: rest →
    ∃ l ∈ cells, l.ofs = o ∧ l.chain = rest ∧ ∀ key, k = some key → l.fields key ≠ none

theorem modify_eq (hl : l.ofs = ofs) (h₁ : ∀ d ∈ L₁, d.ofs ≠ ofs) (h₂ : ∀ d ∈ L₂, d.ofs ≠ ofs) :
    modify ofs f (L₁ ++ l :: L₂) = L₁ ++ f l :: L₂ := by
  have hid : ∀ {L : List Cell}, (∀ d ∈ L, d.ofs ≠ ofs) →
      L.map (fun d => if d.ofs = ofs then f d else d) = L := fun h =>
    (List.map_congr_left fun d hd => if_neg (h d hd)).trans (List.map_id _)
  rw [modify, List.map_append, List.map_cons, hid h₁, hid h₂, if_pos hl]

theorem chainOf_eq (hl : l.ofs = ofs) (h₁ : ∀ d ∈ L₁, d.ofs ≠ ofs) :
    chainOf ofs (L₁ ++ l :: L₂) = l.chain := by
  have hn : L₁.find? (fun d => decide (d.ofs = ofs)) = none := by simpa using h₁
  simp [chainOf, List.find?_append, hn, hl]

theorem Linked.modify (h : Linked cells) (ofs : ℕ) (hf : ∀ l, (f l).ofs = l.ofs)
    (hc : ∀ l, (f l).chain = l.chain)
    (hk : ∀ l : Cell, ∀ key, l.fields key ≠ none → (f l).fields key ≠ none) :
    Linked (modify ofs f cells) := by
  have hg : ∀ l : Cell, (if l.ofs = ofs then f l else l).ofs = l.ofs ∧
      (if l.ofs = ofs then f l else l).chain = l.chain ∧
      ∀ key, l.fields key ≠ none → (if l.ofs = ofs then f l else l).fields key ≠ none := by
    intro l
    split
    · exact ⟨hf l, hc l, hk l⟩
    · exact ⟨rfl, rfl, fun _ => id⟩
  intro d hd pre o k rest hch
  obtain ⟨d₀, hd₀, rfl⟩ := List.mem_map.mp hd
  rw [(hg d₀).2.1] at hch
  obtain ⟨l, hl, ho, hr, hkey⟩ := h d₀ hd₀ pre o k rest hch
  exact ⟨_, List.mem_map_of_mem hl, (hg l).1.trans ho, (hg l).2.1.trans hr,
    fun key hk' => (hg l).2.2 key (hkey key hk')⟩

theorem Linked.put (h : Linked cells) (ofs : ℕ) (key : List UInt8) (it : Item) :
    Linked (Cell.modify ofs (.put key it) cells) :=
  h.modify ofs (fun _ => rfl) (fun _ => rfl) fun _ _ hd => put_ne_none hd it

theorem Linked.push (h : Linked cells) (ofs : ℕ) (it : Item) :
    Linked (Cell.modify ofs (.push it) cells) :=
  h.modify ofs (fun _ => rfl) (fun _ => rfl) fun _ _ hd => hd

theorem takeWhile_eq_append_cons {α : Type*} {p : α → Bool} {pre : List α} {y : α}
    {xs rest : List α} (h : xs.takeWhile p = pre ++ y :: rest) :
    ∃ t, xs = pre ++ y :: t ∧ t.takeWhile p = rest := by
  induction pre generalizing xs with
  | nil =>
    cases xs with
    | nil => simp at h
    | cons x xs =>
      rw [List.takeWhile_cons] at h
      split at h
      · obtain ⟨rfl, rfl⟩ := List.cons.inj h
        exact ⟨xs, rfl, rfl⟩
      · simp at h
  | cons z pre ih =>
    cases xs with
    | nil => simp at h
    | cons x xs =>
      rw [List.takeWhile_cons] at h
      split at h
      · obtain ⟨rfl, htl⟩ := List.cons.inj h
        obtain ⟨t, rfl, ht⟩ := ih htl
        exact ⟨t, rfl, ht⟩
      · simp at h

theorem Linked.detach (h : Linked cells) (ofs : ℕ) (key : List UInt8) :
    Linked (cells.map (.detach ofs key)) := by
  intro d hd pre o k rest hch
  obtain ⟨d₀, hd₀, rfl⟩ := List.mem_map.mp hd
  obtain ⟨t, ht, hr⟩ := takeWhile_eq_append_cons hch
  obtain ⟨l, hl, ho, rfl, hkey⟩ := h d₀ hd₀ pre o k t ht
  exact ⟨_, List.mem_map_of_mem hl, ho, hr, hkey⟩

/-- What is stored under a key goes as a whole. -/
theorem Linked.drop (h : Linked cells) (ofs : ℕ) (key : List UInt8) :
    Linked (cells.filter (¬ ·.Under ofs key)) := by
  intro d hd pre o k rest hch
  simp only [List.mem_filter, decide_eq_true_eq] at hd
  obtain ⟨l, hl, ho, hr, hkey⟩ := h d hd.1 pre o k rest hch
  refine ⟨l, ?_, ho, hr, hkey⟩
  simp only [List.mem_filter, decide_eq_true_eq]
  refine ⟨hl, fun hu => hd.2 ?_⟩
  rw [Under, hr] at hu
  rw [Under, hch]
  simp [hu]

theorem Linked.cons (h : Linked cells) {k : Option (List UInt8)}
    {chain : List (ℕ × Option (List UInt8))} {isArr : Bool} {o : ℕ} (hl : l ∈ cells)
    (ho : l.ofs = ofs) (hch : l.chain = chain) (hk : ∀ key, k = some key → l.fields key ≠ none) :
    Linked (.new isArr o ((ofs, k) :: chain) :: cells) := by
  subst ho hch
  intro d hd pre o' k' rest hch
  suffices hs : (∃ pre, ∃ d ∈ cells, d.chain = pre ++ (o', k') :: rest) ∨
      (l.ofs, k) = (o', k') ∧ l.chain = rest by
    rcases hs with ⟨pre, d, hd, hch⟩ | ⟨heq, rfl⟩
    · obtain ⟨l', hl', h'⟩ := h d hd pre o' k' rest hch
      exact ⟨l', List.mem_cons_of_mem _ hl', h'⟩
    · obtain ⟨rfl, rfl⟩ := Prod.mk.inj heq
      exact ⟨l, List.mem_cons_of_mem _ hl, rfl, rfl, hk⟩
  rcases List.mem_cons.mp hd with rfl | hd
  · cases pre with
    | nil => exact Or.inr (List.cons.inj hch)
    | cons p pre => exact Or.inl ⟨pre, l, hl, (List.cons.inj hch).2⟩
  · exact Or.inl ⟨pre, d, hd, hch⟩

theorem Linked.not_under_self (h : Linked cells) (hl : l ∈ cells)
    (hu : ∀ d ∈ cells, d.ofs = l.ofs → d = l) (key : List UInt8) : ¬ l.Under l.ofs key := by
  intro hun
  obtain ⟨pre, rest, hch⟩ := List.append_of_mem hun
  obtain ⟨d, hd, ho, hr, -⟩ := h l hl pre l.ofs (some key) rest hch
  rw [hu d hd ho] at hr
  have := congrArg List.length hch
  simp [hr] at this
  omega

theorem Linked.not_under (h : Linked cells) (hno : ∀ l ∈ cells, l.ofs = ofs → l.fields key = none)
    {d : Cell} (hd : d ∈ cells) : ¬ d.Under ofs key := by
  intro hu
  obtain ⟨pre, rest, hch⟩ := List.append_of_mem hu
  obtain ⟨l, hl, ho, -, hk⟩ := h d hd pre ofs (some key) rest hch
  exact hk key rfl (hno l hl ho)

end Cell

end Lite3
