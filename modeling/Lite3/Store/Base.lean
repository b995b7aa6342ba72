import Lite3.Log.Basic
import Lite3.Store.Room

/-! # Histories

What a call keeps of the container it addresses holds after every history of
calls for which new containers find room. That covers the histories that create
containers only under keys their objects have never had.
-/

namespace Lite3

open Bytes Config

/-- A keyed call is `ok`. -/
def Call.Ok (ok : Buffer → ℕ → List UInt8 → Prop) (w : World) : Call → Prop
  | set ofs key _ | create _ ofs key => ok w.buf ofs key
  | append .. | appendNew .. => True

instance (ok : Buffer → ℕ → List UInt8 → Prop) [∀ b o key, Decidable (ok b o key)] (w : World) :
    (k : Call) → Decidable (k.Ok ok w)
  | .set ofs key _ | .create _ ofs key => inferInstanceAs (Decidable (ok w.buf ofs key))
  | .append .. | .appendNew .. => instDecidableTrue

theorem Call.ok_true (w : World) (k : Call) : k.Ok (fun _ _ _ => True) w := by cases k <;> trivial

namespace Cell

variable {cells : List Cell} {l d : Cell} {ofs : ℕ} {key : List UInt8}

theorem mem_modify_self {f : Cell → Cell} (hl : l ∈ cells) : f l ∈ modify l.ofs f cells := by
  have h := List.mem_map_of_mem (f := fun d : Cell => if d.ofs = l.ofs then f d else d) hl
  rwa [if_pos rfl] at h

theorem mem_modify_of_ne {f : Cell → Cell} (hd : d ∈ cells) (hne : d.ofs ≠ ofs) :
    d ∈ modify ofs f cells := by
  have h := List.mem_map_of_mem (f := fun d : Cell => if d.ofs = ofs then f d else d) hd
  rwa [if_neg hne] at h

theorem detach_eq (hd : ¬ d.Under ofs key) : d.detach ofs key = d := by
  have : d.chain.takeWhile (fun x => decide (x ≠ (ofs, some key))) = d.chain := by
    refine List.takeWhile_eq_self_iff.mpr fun x hx => decide_eq_true fun he => hd ?_
    rw [Under, ← he]
    exact hx
  rw [detach, this]

end Cell

/-- A creation gives up what is stored under its key. -/
def Call.Drops : Call → Cell → Prop
  | create _ ofs key, l => l.Under ofs key
  | _, _ => False

/-- The cell is stored under the key that the call sets. -/
def Call.Hides : Call → Cell → Prop
  | set ofs key _, l | create _ ofs key, l => l.Under ofs key
  | append .., _ | appendNew .., _ => False

theorem Call.not_hides {k : Call} {d : Cell} (h : d.chain = []) : ¬ k.Hides d := by
  cases k <;> simp [Hides, Cell.Under, h]

namespace World

variable {Q : Container → Cell → Prop} {w : World} {cs : List Container} {k : Call} {l d : Cell}
  {ok : Buffer → ℕ → List UInt8 → Prop}

/-- A call keeps the cells of other containers that are not stored under its key. -/
theorem step_kept (hd : d ∈ w.cells) (hne : d.ofs ≠ k.ofs) (hk : ¬ k.Hides d) :
    d ∈ (w.step k).cells := by
  cases k with
  | set ofs key v =>
    have h := List.mem_map_of_mem (f := Cell.detach ofs key)
      (Cell.mem_modify_of_ne (f := .put key (.scalar v)) hd hne)
    rwa [Cell.detach_eq hk] at h
  | create isArr ofs key =>
    have h : d ∈ w.cells.filter (¬ ·.Under ofs key) := List.mem_filter.mpr ⟨hd, decide_eq_true hk⟩
    rw [World.step]
    split
    · exact h
    · exact List.mem_cons_of_mem _ (Cell.mem_modify_of_ne h hne)
  | append ofs v => exact Cell.mem_modify_of_ne hd hne
  | appendNew isArr ofs =>
    rw [World.step]
    split
    · exact hd
    · exact List.mem_cons_of_mem _ (Cell.mem_modify_of_ne hd hne)

/-- A call leaves the containers that are not stored under its key as they are, up to an item. -/
theorem step_becomes (hd : d ∈ w.cells) (hk : ¬ k.Hides d) : ∃ d' ∈ (w.step k).cells,
    d' = d ∨ (∃ key it, d' = d.put key it) ∨ ∃ it, d' = d.push it := by
  by_cases hne : d.ofs = k.ofs
  · cases k with
    | set ofs key v =>
      obtain rfl : d.ofs = ofs := hne
      have hput : ¬ (d.put key (.scalar v)).Under d.ofs key := hk
      refine ⟨_, List.mem_map_of_mem (Cell.mem_modify_self hd),
        Or.inr (Or.inl ⟨key, .scalar v, ?_⟩)⟩
      exact Cell.detach_eq hput
    | create isArr ofs key =>
      obtain rfl : d.ofs = ofs := hne
      have h : d ∈ w.cells.filter (¬ ·.Under d.ofs key) :=
        List.mem_filter.mpr ⟨hd, decide_eq_true hk⟩
      rw [World.step]
      split
      · exact ⟨d, h, Or.inl rfl⟩
      · exact ⟨_, List.mem_cons_of_mem _ (Cell.mem_modify_self h), Or.inr (Or.inl ⟨key, _, rfl⟩)⟩
    | append ofs v =>
      obtain rfl : d.ofs = ofs := hne
      exact ⟨_, Cell.mem_modify_self hd, Or.inr (Or.inr ⟨_, rfl⟩)⟩
    | appendNew isArr ofs =>
      obtain rfl : d.ofs = ofs := hne
      rw [World.step]
      split
      · exact ⟨d, hd, Or.inl rfl⟩
      · exact ⟨_, List.mem_cons_of_mem _ (Cell.mem_modify_self hd), Or.inr (Or.inr ⟨_, rfl⟩)⟩
  · exact ⟨d, step_kept hd hne hk, Or.inl rfl⟩

theorem step_cell (hd : d ∈ w.cells) (hk : ¬ k.Hides d) : ∃ d' ∈ (w.step k).cells,
    d'.ofs = d.ofs ∧ d'.isArr = d.isArr ∧ d'.chain = d.chain := by
  obtain ⟨d', hd', rfl | ⟨key, it, rfl⟩ | ⟨it, rfl⟩⟩ := step_becomes hd hk
  · exact ⟨_, hd', rfl, rfl, rfl⟩
  · exact ⟨_, hd', rfl, rfl, rfl⟩
  · exact ⟨_, hd', rfl, rfl, rfl⟩

theorem Backed.start (isArr : Bool) (h : Q (.empty isArr 0) (.new isArr 0 [])) :
    (start isArr).Backed Q [.empty isArr 0] where
  owns := by
    rw [List.flatMap_singleton]
    exact Container.owns_initStructure isArr
  cells := .cons h .nil
  linked := by
    intro d hd pre o k rest hch
    obtain rfl := List.mem_singleton.mp hd
    simp [Cell.new] at hch

/-- A call visits the container it addresses and leaves the others alone. -/
structure Advanced (Q : Container → Cell → Prop) (w : World) (k : Call) : Prop where
  backed : ∃ cs, (w.step k).Backed Q cs
  moved : ∃ c c' : Container, ∃ R R', w.buf.Owns (c.chunks ++ R) ∧
    (w.step k).buf.Owns (c'.chunks ++ R') ∧ c.ofs = k.ofs ∧ c.Next c'
  kept : ∀ l ∈ w.cells, l.ofs ≠ k.ofs → ¬ k.Drops l → ∃ c R R', Q c l ∧
    w.buf.Owns (c.chunks ++ R) ∧ (w.step k).buf.Owns (c.chunks ++ R')

theorem Backed.owns_mem (hw : w.Backed Q cs) {c : Container} (hc : c ∈ cs) :
    ∃ R, w.buf.Owns (c.chunks ++ R) := by
  obtain ⟨C₁, C₂, rfl⟩ := List.append_of_mem hc
  exact ⟨_, Buffer.Owns.perm hw.owns (chunks_mid_perm c C₁ C₂).symm⟩

theorem Backed.cell (hw : w.Backed Q cs) {c : Container} (hc : c ∈ cs) : ∃ l, Q c l := by
  obtain ⟨_, l, _, _, _, -, -, -, hQ, -⟩ := forall₂_split hw.cells.flip hc
  exact ⟨l, hQ⟩

/-- A call turns the container `c` of its cell into `c'`, once what is stored under its key is given
up, and adds the empty containers `X`. -/
structure Moves (Q : Container → Cell → Prop) (w : World) (k : Call) (w₀ : World) (c c' : Container)
    (X C₁ C₂ : List Container) : Prop where
  buf : w₀.buf = w.buf
  cells : w₀.cells.Sublist w.cells
  keep : ∀ l ∈ w.cells, ¬ k.Drops l → l ∈ w₀.cells
  before : w₀.Backed Q (C₁ ++ c :: C₂)
  after : (w.step k).Backed Q (X ++ (C₁ ++ c' :: C₂))
  new : ∀ d ∈ X, ∃ isArr o, d = .empty isArr o
  ofs : c.ofs = k.ofs
  kind : (k.args w.buf).isAppend = c.isArr
  moved : c.Moved (k.args w.buf) c'

theorem Advanced.of_moves {w₀ : World} {c c' : Container} {X C₁ C₂ : List Container}
    (hp : Preserved ok Q) (h : Moves Q w k w₀ c c' X C₁ C₂) : Advanced Q w k where
  backed := ⟨_, h.after⟩
  moved := by
    obtain ⟨R, ho⟩ := h.before.owns_mem (c := c) (by simp)
    obtain ⟨R', ho'⟩ := h.after.owns_mem (c := c') (by simp)
    exact ⟨c, c', R, R', h.buf ▸ ho, ho', h.ofs, h.moved.next⟩
  kept := by
    intro l hl hne hd
    obtain ⟨d, R, hd, hQ, ho⟩ := h.before.container (h.keep l hl hd)
    obtain ⟨R', ho'⟩ := h.after.owns_mem (c := d) (by
      simp only [List.mem_append, List.mem_cons] at hd ⊢
      rcases hd with hd | rfl | hd
      · exact Or.inr (Or.inl hd)
      · exact absurd ((hp.tracks hQ).ofs.symm.trans h.ofs) hne
      · exact Or.inr (Or.inr (Or.inr hd)))
    exact ⟨d, R, R', hQ, h.buf ▸ ho, ho'⟩

/-- A legal call for which new containers find room. -/
theorem Backed.moves (hw : w.Backed Q cs) (hp : Preserved ok Q) (hl : k.Legal w)
    (hclear : k.Clear w) (hok : k.Ok ok w) : ∃ w₀ c c' X C₁ C₂, Moves Q w k w₀ c c' X C₁ C₂ := by
  have hQofs : ∀ c l, Q c l → c.ofs = l.ofs := fun c l h => (hp.tracks h).ofs
  cases k with
  | set ofs key v =>
    obtain ⟨⟨hk, l, hlm, rfl, hla⟩, hfin⟩ := hl
    obtain ⟨c, C₁, C₂, L₁, L₂, hf⟩ := hw.focus hQofs hlm
    have hc : c.isArr = false := (hp.tracks hf.here).kind.trans hla
    obtain ⟨c', hn, hb⟩ := hf.set hp hw.linked hc hk hok hfin
    exact ⟨w, c, c', [], C₁, C₂, rfl, .refl _, fun l hl _ => hl, hf.containers ▸ hw,
      hb, by simp, hf.ofs, hc.symm, hn⟩
  | create isArr ofs key =>
    obtain ⟨o, c, c', C₁, C₂, hcr⟩ := hw.created hp hl hclear hok
    obtain ⟨b', x, ms, hup⟩ := hcr.updates
    have hkeep : ∀ l ∈ w.cells, ¬ l.Under ofs key → l ∈ (w.without ofs key).cells :=
      fun l hl hd => List.mem_filter.mpr ⟨hl, decide_eq_true hd⟩
    have hbuf : (w.without ofs key).buf = w.buf := rfl
    obtain ⟨l, hQ⟩ := hcr.before.cell (c := c) (by simp)
    exact ⟨_, c, c', [.empty isArr o], C₁, C₂, hbuf, List.filter_sublist, hkeep,
      hcr.before, hcr.after, fun d hd => ⟨_, _, List.mem_singleton.mp hd⟩, hcr.ofs, hcr.object.symm,
      hup.moved (hp.tracks hQ).sorted⟩
  | append ofs v =>
    obtain ⟨⟨l, hlm, rfl, hla, hn⟩, hfin⟩ := hl
    obtain ⟨c, C₁, C₂, L₁, L₂, hf⟩ := hw.focus hQofs hlm
    have hc : c.isArr = true := (hp.tracks hf.here).kind.trans hla
    obtain ⟨c', hnext, hb⟩ := hf.append hp hw.linked hc hn hfin
    rw [← hf.size_eq] at hnext
    exact ⟨w, c, c', [], C₁, C₂, rfl, .refl _, fun l hl _ => hl, hf.containers ▸ hw,
      hb, by simp, hf.ofs, hc.symm, hnext⟩
  | appendNew isArr ofs =>
    obtain ⟨⟨l, hlm, rfl, hla, hn⟩, hfin⟩ := hl
    obtain ⟨c, C₁, C₂, L₁, L₂, hf⟩ := hw.focus hQofs hlm
    have hc : c.isArr = true := (hp.tracks hf.here).kind.trans hla
    rw [buf_step_appendNew] at hfin
    obtain ⟨c', o, hnext, hres, hb⟩ := hf.appendNew hp hw.linked hc hn hfin
    rw [← hf.chainOf, ← step_appendNew_of_some hres] at hb
    rw [← hf.size_eq] at hnext
    exact ⟨w, c, c', [.empty isArr o], C₁, C₂, rfl, .refl _, fun l hl _ => hl, hf.containers ▸ hw,
      hb, fun d hd => ⟨_, _, List.mem_singleton.mp hd⟩, hf.ofs, hc.symm, hnext⟩

/-- A legal call for which new containers find room advances the world. -/
theorem Backed.advanced (hw : w.Backed Q cs) (hp : Preserved ok Q) (hl : k.Legal w)
    (hclear : k.Clear w) (hok : k.Ok ok w) : Advanced Q w k := by
  obtain ⟨w₀, c, c', X, C₁, C₂, hmoves⟩ := hw.moves hp hl hclear hok
  exact .of_moves hp hmoves

theorem preserved_tracks : Preserved (fun _ _ _ => True) Tracks where
  tracks := id
  new _ _ _ := .empty
  detach _ _ h := ⟨h.ofs, h.kind, h.sorted, h.known, h.elements⟩
  put h _ hc _ hup _ := h.put hc hup rfl _
  push h hc hup hh hx hn := h.push hc hup hh hx hn

theorem Backed.fresh (hw : w.Backed Tracks cs) (hfr : k.Fresh w) (hl : k.Legal w) :
    k.Clear w ∧ ∀ l ∈ w.cells, ¬ k.Drops l := by
  cases k with
  | create isArr ofs key =>
    refine ⟨fun s hs _ hkey => ?_, fun l hl => hw.linked.not_under hfr hl⟩
    obtain ⟨⟨-, l, hlm, rfl, hla⟩, -⟩ := hl
    obtain ⟨c, R, -, ht, ho⟩ := hw.container hlm
    have hc : c.isArr = false := ht.kind.trans hla
    rw [← ht.ofs, Container.slots ho] at hs
    obtain ⟨e, he, rfl⟩ := List.mem_map.mp hs
    obtain ⟨hheld, hread⟩ := (Container.seen ho).entry he
    rw [hc] at hheld hread
    have hk : e.key = key := (hheld.storedKey hread).symm.trans hkey
    exact absurd (hfr l hlm rfl) (hk ▸ ht.known hc e he)
  | set | append | appendNew => exact ⟨trivial, fun _ _ => id⟩

/-- The calls of a history are legal, and containers are created under fresh keys. -/
def Plain (isArr : Bool) (ks : List Call) : Prop :=
  Loop.Allowed World.step (fun w k => k.Legal w ∧ k.Fresh w) (.start isArr) ks

instance (isArr : Bool) (ks : List Call) : Decidable (Plain isArr ks) :=
  inferInstanceAs (Decidable (Loop.Allowed ..))

/-- After every such history containers track the cells. -/
theorem Plain.backed {isArr : Bool} {ks : List Call} (h : Plain isArr ks) :
    ∃ cs, ((World.start isArr).run ks).Backed Tracks cs :=
  Loop.Allowed.invariant (I := fun w => ∃ cs, w.Backed Tracks cs) h ⟨_, Backed.start isArr .empty⟩
    fun _ _ ⟨_, hw⟩ ⟨hl, hf⟩ =>
      (hw.advanced preserved_tracks hl (hw.fresh hf hl).1 (Call.ok_true _ _)).backed

end World

end Lite3
