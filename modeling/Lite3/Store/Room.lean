import Lite3.Layout.Walk
import Lite3.Store.Step

/-! # Room for new containers

A container is created behind a type tag. When the key already holds a value
that is a type tag only, the tag stays where it is and the node is put over the
bytes behind it. The calls that find room there keep the containers apart.
-/

namespace Lite3

open Bytes Config

theorem flatMap_chunks_ne_nil (cs : List Container) :
    ∀ k ∈ cs.flatMap Container.chunks, k.bytes ≠ [] := by
  intro k hk
  obtain ⟨c, -, hk⟩ := List.mem_flatMap.mp hk
  exact NodeTree.chunks_ne_nil _ _ k hk

namespace World

section

variable {Q : Container → Cell → Prop} {w : World} {cs : List Container} {l : Cell}

theorem Backed.container (hw : w.Backed Q cs) (hl : l ∈ w.cells) :
    ∃ c R, c ∈ cs ∧ Q c l ∧ w.buf.Owns (c.chunks ++ R) := by
  obtain ⟨C₁, c, C₂, L₁, L₂, rfl, -, -, hc, -⟩ := forall₂_split hw.cells hl
  exact ⟨c, _, by simp, hc, Buffer.Owns.perm hw.owns (chunks_mid_perm c C₁ C₂).symm⟩

end

/-- Regions of bytes that do not overlap. -/
def RegionsApart (p q : ℕ × ℕ) : Prop := p.1 + p.2 ≤ q.1 ∨ q.1 + q.2 ≤ p.1

/-- The regions of all containers. -/
def regions (w : World) : List (ℕ × ℕ) := w.cells.flatMap fun l => w.buf.regions l.isArr l.ofs

variable {Q : Container → Cell → Prop} {w : World} {cs : List Container} {l : Cell} {isArr : Bool}
  {ofs : ℕ} {key : List UInt8}

theorem Backed.flatMap_cells {β : Type*} (hw : w.Backed Tracks cs) {f : Cell → List β}
    {g : Container → List β}
    (hfg : ∀ c l R, Tracks c l → w.buf.Owns (c.chunks ++ R) → f l = g c) :
    w.cells.flatMap f = cs.flatMap g := by
  have hown : ∀ c ∈ cs, ∃ R, w.buf.Owns (c.chunks ++ R) := by
    intro c hc
    obtain ⟨C₁, C₂, rfl⟩ := List.append_of_mem hc
    exact ⟨_, Buffer.Owns.perm hw.owns (chunks_mid_perm c C₁ C₂).symm⟩
  have h := hw.cells
  generalize w.cells = ls at h
  clear hw
  induction h with
  | nil => rfl
  | @cons c l cs ls hcl h ih =>
    obtain ⟨R, ho⟩ := hown c (by simp)
    rw [List.flatMap_cons, List.flatMap_cons, hfg c l R hcl ho,
      ih fun d hd => hown d (List.mem_cons_of_mem _ hd)]

theorem Backed.regions (hw : w.Backed Tracks cs) :
    w.regions = (cs.flatMap Container.chunks).map fun k => (k.ofs, k.bytes.length) := by
  rw [World.regions, List.map_flatMap]
  exact hw.flatMap_cells fun c l R ht ho => by rw [← ht.ofs, ← ht.kind, Container.regions ho]

/-- What is left when everything under a key is given up. -/
def without (w : World) (ofs : ℕ) (key : List UInt8) : World :=
  ⟨w.buf, w.cells.filter (¬ ·.Under ofs key)⟩

/-- A node at `p` takes no bytes of a container that stays, finds zeros where it is not cleared
and is not in the way of a split. -/
structure RoomAt (w : World) (ofs : ℕ) (key : List UInt8) (p : ℕ) : Prop where
  apart : ∀ r ∈ (w.without ofs key).regions, RegionsApart (p, nodeSize) r
  zero : slice w.buf.mem (p + 88) 8 = List.replicate 8 0
  behind : w.buf.medians ofs (djb2Hash key) key false = [] ∨ p + nodeSize ≤ w.buf.usedSize

instance (p q : ℕ × ℕ) : Decidable (RegionsApart p q) := inferInstanceAs (Decidable (_ ∨ _))

instance (w : World) (ofs : ℕ) (key : List UInt8) (p : ℕ) : Decidable (w.RoomAt ofs key p) :=
  decidable_of_iff ((∀ r ∈ (w.without ofs key).regions, RegionsApart (p, nodeSize) r) ∧
      slice w.buf.mem (p + 88) 8 = List.replicate 8 0 ∧
      (w.buf.medians ofs (djb2Hash key) key false = [] ∨ p + nodeSize ≤ w.buf.usedSize))
    ⟨fun h => ⟨h.1, h.2.1, h.2.2⟩, fun h => ⟨h.apart, h.zero, h.behind⟩⟩

/-- What is stored under the key is more than a type tag or has room for a node behind it. -/
def ClearBehind (w : World) (ofs : ℕ) (key : List UInt8) : Prop :=
  ∀ s ∈ w.buf.slots ofs, s.1 = djb2Hash key → storedKey w.buf.mem s.2 = key →
    Buffer.existingTotalLen w.buf.mem (Buffer.skipKey w.buf.mem s.2 false) = 1 →
      w.RoomAt ofs key (Buffer.skipKey w.buf.mem s.2 false + 1)

instance (w : World) (ofs : ℕ) (key : List UInt8) : Decidable (w.ClearBehind ofs key) :=
  inferInstanceAs (Decidable (∀ s ∈ w.buf.slots ofs, _))

end World

/-- A container that the call creates finds room. -/
def Call.Clear (w : World) : Call → Prop
  | create _ ofs key => w.ClearBehind ofs key
  | _ => True

instance (w : World) : (k : Call) → Decidable (k.Clear w)
  | .create _ ofs key => inferInstanceAs (Decidable (w.ClearBehind ofs key))
  | .set .. | .append .. | .appendNew .. => instDecidableTrue

namespace World

variable {Q : Container → Cell → Prop} {w : World} {cs : List Container} {l : Cell} {isArr : Bool}
  {ofs : ℕ} {key : List UInt8} {k : Call}

theorem Backed.imp {Q' : Container → Cell → Prop} (hw : w.Backed Q cs)
    (h : ∀ c l, Q c l → Q' c l) : w.Backed Q' cs :=
  ⟨hw.owns, hw.cells.imp fun c l => h c l, hw.linked⟩

theorem Focus.creates {L₁ L₂ : List Cell} {C₁ C₂ : List Container} {c : Container}
    (hw : (w.without l.ofs key).Backed Tracks cs)
    (hf : Focus Q (w.without l.ofs key) cs l c C₁ C₂ L₁ L₂) (hc : c.isArr = false)
    (hk : key.length ≤ 62) (hclear : w.ClearBehind l.ofs key)
    (hfin : (w.buf.setContainer l.ofs key isArr).2.usedSize < 2 ^ 32) :
    ∃ x c' ms, c.Creates w.buf c' ((C₁ ++ C₂).flatMap Container.chunks) key isArr x ms := by
  have ho : w.buf.Owns (c.chunks ++ (C₁ ++ C₂).flatMap Container.chunks) := hf.owns
  rw [← hf.ofs] at hfin
  refine Container.setContainer ho hc hk (fun e he heq hl => ?_) (flatMap_chunks_ne_nil _) hfin
  obtain ⟨hheld, hread⟩ := (Container.seen ho).entry he
  rw [hc] at hheld hread
  obtain ⟨hhash, hkey⟩ := SetArgs.eq_of_cmp heq
  have hs : e.slot ∈ w.buf.slots l.ofs := by
    rw [← hf.ofs, Container.slots ho]
    exact List.mem_map_of_mem he
  have hroom := hclear _ hs hhash ((hheld.storedKey hread).trans hkey)
  rw [show e.slot.2 = e.ofs from rfl, hheld.skipKey hread, hheld.existingTotalLen hread] at hroom
  obtain ⟨hapart, hzero, hbehind⟩ := hroom hl
  refine ⟨fun d hd => ?_, fun i hi => ?_, hf.ofs ▸ hbehind⟩
  · rw [hw.regions] at hapart
    refine hapart _ (List.mem_map_of_mem (f := fun k : Chunk => (k.ofs, k.bytes.length)) ?_)
    rw [hf.containers]
    exact (chunks_mid_perm c C₁ C₂).mem_iff.mp hd
  · have hv := congrArg (fun bs => view bs i) hzero
    rwa [view_slice _ _ hi, view_replicate_zero] at hv

/-- Container `c` of the object becomes `c'`, and those not stored under the key stay. -/
structure Created (Q : Container → Cell → Prop) (w : World) (isArr : Bool) (ofs : ℕ)
    (key : List UInt8) (o : ℕ) (c c' : Container) (C₁ C₂ : List Container) : Prop where
  result : (w.buf.setContainer ofs key isArr).1 = some o
  before : (w.without ofs key).Backed Q (C₁ ++ c :: C₂)
  after : (w.step (.create isArr ofs key)).Backed Q (.empty isArr o :: (C₁ ++ c' :: C₂))
  ofs : c.ofs = ofs
  object : c.isArr = false
  updates : ∃ b' x ms, Updates (setArgs key (kindOf isArr) []) w.buf b' c c' x ms

/-- A creation that finds room. -/
theorem Backed.created {ok : Buffer → ℕ → List UInt8 → Prop} (hw : w.Backed Q cs)
    (hp : Preserved ok Q) (hl : (Call.create isArr ofs key).Legal w)
    (hclear : w.ClearBehind ofs key)
    (hok : ok w.buf ofs key) : ∃ o c c' C₁ C₂, w.Created Q isArr ofs key o c c' C₁ C₂ := by
  obtain ⟨⟨hk, l, hlm, rfl, hla⟩, hfin⟩ := hl
  rw [buf_step_create] at hfin
  have hQofs : ∀ c l, Q c l → c.ofs = l.ofs := fun c l h => (hp.tracks h).ofs
  obtain ⟨_, _, _, _, _, hf₀⟩ := hw.focus hQofs hlm
  have hkept : l ∈ (w.without l.ofs key).cells := by
    have := hw.linked.not_under_self hlm (fun d hd ho => hf₀.eq_of_ofs hd ho) key
    simpa [without] using ⟨hlm, this⟩
  obtain ⟨cs', -, hw'⟩ := hw.drop l.ofs key
  obtain ⟨c, C₁, C₂, L₁, L₂, hf⟩ := Backed.focus hw' hQofs hkept
  have hc : c.isArr = false := (hp.tracks hf.here).kind.trans hla
  obtain ⟨x, c', ms, hcr⟩ := hf.creates (hw'.imp fun _ _ => hp.tracks) hc hk hclear hfin
  obtain ⟨o, hres, hb⟩ := hf.create hp hw'.linked hc hok hcr
  refine ⟨o, c, c', C₁, C₂, hres, hf.containers ▸ hw', ?_, hf.ofs, hc,
    hcr.updates.imp fun b' h => ⟨x, ms, h⟩⟩
  rw [step_create_of_some (w := w) hres, show Cell.chainOf _ _ = _ from hf.chainOf]
  exact hb

end World

end Lite3
