import Lite3.Layout.Iterate
import Lite3.Store.Base

/-! # Iterators after modifications

An iterator compares the generation of the node at offset zero with the one it
was made under. A call at offset zero counts the generation up or, when it
splits the root there, starts it again at one; calls at other offsets leave it.
-/

namespace Lite3

open Bytes Config

namespace World

/-- The root container is still there, stored in nothing. -/
def Rooted (w : World) : Prop := ∃ l ∈ w.cells, l.ofs = 0 ∧ l.chain = []

variable {w : World} {cs : List Container} {k : Call} {isArr : Bool} {ks ks' : List Call} {l : Cell}

theorem Rooted.step (h : w.Rooted) (k : Call) : (w.step k).Rooted := by
  obtain ⟨l, hl, ho, hc⟩ := h
  obtain ⟨l', hl', ho', -, hc'⟩ := step_cell hl (Call.not_hides (k := k) hc)
  exact ⟨l', hl', ho'.trans ho, hc'.trans hc⟩

/-- What a call makes of the generation of the node at offset zero. -/
def tick (w : World) (k : Call) (g : ℕ) : ℕ :=
  if k.ofs ≠ 0 then g
  else if NodeView.keyCount w.buf.mem 0 = nodeKeyCountMax then 1
  else (g + 1) % 2 ^ 24

theorem Advanced.generation {Q : Container → Cell → Prop} (h : Advanced Q w k)
    (hQ : ∀ c l, Q c l → c.ofs = l.ofs) (hr : w.Rooted) :
    (NodeView.generation (w.step k).buf.mem 0).toNat =
      w.tick k (NodeView.generation w.buf.mem 0).toNat := by
  rw [tick]
  split
  · obtain ⟨l, hl, ho, hch⟩ := hr
    have hd : ¬ k.Drops l := by cases k <;> simp [Call.Drops, Cell.Under, hch]
    obtain ⟨c, R, R', hQc, hown, hown'⟩ := h.kept l hl (by omega) hd
    have h₀ : c.ofs = 0 := (hQ c l hQc).trans ho
    rw [← h₀, Container.generation_eq hown, Container.generation_eq hown']
  · obtain ⟨c, c', R, R', hown, hown', hofs, hn⟩ := h.moved
    have h₀ : c.ofs = 0 := by omega
    have h₁ := Container.generation_eq hown
    have h₂ := Container.generation_eq hown'
    have hk : NodeView.keyCount w.buf.mem c.ofs = c.tree.keys.length :=
      (Container.seen hown).keyCount
    rw [hn.ofs, h₀] at h₂
    rw [h₀] at h₁ hk
    rw [h₁, h₂, hk, hn.generation, show nodeKeyCountMax = 7 from rfl]
    split
    · rfl
    · have hlt : c.generation.toNat < 2 ^ 24 := by
        rw [Container.generation, Block.generation, Packed.toNat_generation]
        have := c.tree.label.genType.toNat_lt
        omega
      rw [Block.bump, Block.generation, Block.setGenType, Packed.toNat_generation_genType,
        UInt32.toNat_add, show c.tree.label.generation = c.generation from rfl]
      simp only [UInt32.reduceToNat]
      omega

/-- Whether a call has split the root at offset zero, and the calls there since then, or since the
beginning. -/
def visit (w : World) (k : Call) (p : Bool × ℕ) : Bool × ℕ :=
  if k.ofs ≠ 0 then p
  else if NodeView.keyCount w.buf.mem 0 = nodeKeyCountMax then (true, 0)
  else (p.1, p.2 + 1)

def rootVisits : World → List Call → Bool × ℕ → Bool × ℕ
  | _, [], p => p
  | w, k :: ks, p => rootVisits (w.step k) ks (w.visit k p)

/-- The generation that visits make of `g`. -/
def reading (g : ℕ) (p : Bool × ℕ) : ℕ := if p.1 then (p.2 + 1) % 2 ^ 24 else (g + p.2) % 2 ^ 24

theorem tick_reading (w : World) (k : Call) (g : ℕ) (p : Bool × ℕ) :
    w.tick k (reading g p) = reading g (w.visit k p) := by
  unfold tick visit
  split_ifs
  · rfl
  · rfl
  · rcases p with ⟨_ | _, n⟩ <;> simp only [reading, Bool.false_eq_true, if_false, if_true] <;>
      omega

/-- The count of visits tells the calls apart from no calls. -/
def Noticed (w : World) (ks : List Call) : Prop :=
  match w.rootVisits ks (false, 0) with
  | (false, n) => n % 2 ^ 24 ≠ 0
  | (true, n) => (n + 1) % 2 ^ 24 ≠ (NodeView.generation w.buf.mem 0).toNat

/-- The calls of a history are legal, and new containers find room. -/
def Tidy (isArr : Bool) (ks : List Call) : Prop :=
  Loop.Allowed World.step (fun w k => k.Legal w ∧ k.Clear w) (.start isArr) ks

instance (isArr : Bool) (ks : List Call) : Decidable (Tidy isArr ks) :=
  inferInstanceAs (Decidable (Loop.Allowed ..))

/-- Containers track their cells, and the root is there. -/
def Sane (w : World) : Prop := (∃ cs, w.Backed Tracks cs) ∧ w.Rooted

theorem Sane.step (h : w.Sane) (hl : k.Legal w) (hc : k.Clear w) : (w.step k).Sane := by
  obtain ⟨⟨cs, hw⟩, hr⟩ := h
  exact ⟨(hw.advanced preserved_tracks hl hc (Call.ok_true _ _)).backed, hr.step k⟩

theorem sane_start (isArr : Bool) : (start isArr).Sane :=
  ⟨⟨_, Backed.start isArr .empty⟩, _, List.mem_singleton_self _, rfl, rfl⟩

/-- The generation at the end of a run, from the visits of the root. -/
theorem Sane.generation (h : w.Sane) {g : ℕ} {p : Bool × ℕ}
    (hrun : Loop.Allowed World.step (fun w k => k.Legal w ∧ k.Clear w) w ks)
    (hw : (NodeView.generation w.buf.mem 0).toNat = reading g p) :
    (NodeView.generation (w.run ks).buf.mem 0).toNat = reading g (w.rootVisits ks p) := by
  induction ks generalizing w p with
  | nil => exact hw
  | cons k ks ih =>
    obtain ⟨⟨hl, hc⟩, hrun⟩ := hrun
    obtain ⟨cs, hb⟩ := h.1
    have hgen := (hb.advanced preserved_tracks hl hc (Call.ok_true _ _)).generation
      (fun _ _ h => h.ofs) h.2
    rw [hw, tick_reading] at hgen
    exact ih (h.step hl hc) hrun hgen

theorem Sane.noticed_iff (h : w.Sane)
    (hrun : Loop.Allowed World.step (fun w k => k.Legal w ∧ k.Clear w) w ks) :
    NodeView.generation w.buf.mem 0 ≠ NodeView.generation (w.run ks).buf.mem 0 ↔ w.Noticed ks := by
  have hg : (NodeView.generation w.buf.mem 0).toNat < 2 ^ 24 := by
    rw [NodeView.generation, Packed.toNat_generation]
    have := (NodeView.genType w.buf.mem 0).toNat_lt
    omega
  obtain ⟨g, hg'⟩ : ∃ g, g = (NodeView.generation w.buf.mem 0).toNat := ⟨_, rfl⟩
  have hend := h.generation (g := g) (p := (false, 0)) hrun
    (by rw [reading, if_neg (by simp), Nat.add_zero, Nat.mod_eq_of_lt (hg' ▸ hg), hg'])
  rw [← hg'] at hg
  rw [Noticed, Ne, ← UInt32.toNat_inj, hend, ← hg']
  rcases w.rootVisits ks (false, 0) with ⟨_ | _, n⟩ <;>
    simp only [reading, Bool.false_eq_true, if_false, if_true] <;> omega

/-- Dereferencing throws. -/
def Rejects (b : Buffer) (it : Iterator) : Prop := ∃ e, it.deref b = .error (.exception e)

theorem rejects_iff {b : Buffer} {it : Iterator} (hb : b.data ≠ []) :
    Rejects b it ↔ it.hasBuffer = false ∨ it.generation ≠ NodeView.generation b.mem 0 := by
  rw [Rejects, Iterator.deref]
  by_cases h : it.hasBuffer = false
  · simp [h]
  · by_cases hg : it.generation = NodeView.generation b.mem 0 <;> simp [h, hb, hg]

/-- Every iterator of an object with entries, made before the calls, notices them when the visits
of the root tell. -/
def Notices (w : World) (ks : List Call) : Prop :=
  ∀ l ∈ w.cells, l.isArr = false →
    (Rejects (w.run ks).buf (w.buf.begin l.ofs) ↔ w.buf.slots l.ofs = [] ∨ w.Noticed ks)

theorem notices_of_tidy (h : Tidy isArr (ks ++ ks')) : ((start isArr).run ks).Notices ks' := by
  obtain ⟨h₁, h₂⟩ := Loop.allowed_append.mp h
  have hsane : ((start isArr).run ks).Sane :=
    h₁.invariant (sane_start isArr) fun _ _ hs ⟨hl, hc⟩ => hs.step hl hc
  have hend : (((start isArr).run ks).run ks').Sane :=
    h₂.invariant hsane fun _ _ hs ⟨hl, hc⟩ => hs.step hl hc
  intro l hl hla
  obtain ⟨cs, hw⟩ := hsane.1
  obtain ⟨⟨cs', hw'⟩, l', hl', -⟩ := hend
  obtain ⟨c, R, -, ht, ho⟩ := hw.container hl
  obtain ⟨c', R', -, -, ho'⟩ := hw'.container hl'
  have hc : c.isArr = false := ht.kind.trans hla
  have hn : (((start isArr).run ks).buf.begin c.ofs).hasBuffer = false ↔
      ((start isArr).run ks).buf.slots c.ofs = [] := by
    rw [← Bool.not_eq_true, Container.hasBuffer_begin ho hc, Container.slots ho,
      List.map_eq_nil_iff, not_not]
  rw [← ht.ofs, rejects_iff (Container.data_ne_nil ho'), hn, Container.generation_begin ho,
    hsane.noticed_iff h₂]

/-- An object with a nested object. -/
def nestedObject : List Call := [.create false 0 [111]]

set_option maxRecDepth 10000 in
/-- Sets at the root, some of them after a split. -/
theorem notices_rootSplit : ((start false).run nestedObject).Notices
    [.set 0 [1] .null, .set 0 [2] .null, .set 100 [1] .null, .set 0 [3] .null, .set 0 [4] .null,
      .set 0 [5] .null, .set 0 [6] .null, .set 0 [7] .null, .set 0 [7] (.bool true)] :=
  notices_of_tidy (by decide +kernel)

set_option maxRecDepth 10000 in
/-- A set in a nested object goes unnoticed. -/
theorem nested_set_unnoticed : ¬ ∀ isArr ks ks',
    Loop.Allowed World.step (fun w k => k.Legal w) (start isArr) (ks ++ ks') → ks' ≠ [] →
    ∀ l ∈ ((start isArr).run ks).cells, l.isArr = false →
      Rejects ((start isArr).run (ks ++ ks')).buf (((start isArr).run ks).buf.begin l.ofs) := by
  intro h
  obtain ⟨l, hl, ho, hla⟩ : ∃ l ∈ ((start false).run nestedObject).cells, l.ofs = 0 ∧
      l.isArr = false := by
    decide +kernel
  obtain ⟨e, he⟩ := h false nestedObject [.set 100 [1] .null] (by decide +kernel) (by simp) l hl hla
  have hok : ((((start false).run nestedObject).buf.begin 0).deref
      ((start false).run (nestedObject ++ [.set 100 [1] .null])).buf).isOk = true := by
    decide +kernel
  rw [ho] at he
  rw [he] at hok
  cases hok

end World

end Lite3
