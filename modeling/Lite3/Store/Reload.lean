import Lite3.Layout.Twin
import Lite3.Store.Shape

/-! # Saving and reloading

A buffer made from the bytes of another has no slack, so the same calls put
nodes and entries at other places in the two. The containers at the offsets
they share stay alike, and neither lookups nor iterations tell them apart.
-/

namespace Lite3

open Bytes Lite3.Tree

theorem Buffer.Owns.reload {b : Buffer} {cs : List Chunk} (h : b.Owns cs) :
    (Buffer.ofVector b.data).Owns cs where
  fits := le_rfl
  below c hc := (h.below c hc).trans h.fits
  apart := h.apart
  holds := h.holds
  blank i hi := h.blank i (h.fits.trans hi)

/-- The call creates no container. -/
def Call.IsScalar : Call → Prop
  | set .. | append .. => True
  | create .. | appendNew .. => False

instance : (k : Call) → Decidable k.IsScalar
  | .set .. | .append .. => instDecidableTrue
  | .create .. | .appendNew .. => instDecidableFalse

namespace World

/-- The world of `Buffer(std::vector<uint8_t>)` with the bytes of the buffer. -/
def reload (w : World) : World := ⟨.ofVector w.buf.data, w.cells⟩

/-- Lookups in the container of a cell end with the same result, and iterations show the same. -/
structure SameAt (b b' : Buffer) (l : Cell) : Prop where
  keyed : l.isArr = false → ∀ key, ∃ r, b.read l.ofs key (djb2Hash key) false = some r ∧
    b'.read l.ofs key (djb2Hash key) false = some r
  indexed : l.isArr = true → ∀ index, ∃ r, b.read l.ofs [] index true = some r ∧
    b'.read l.ofs [] index true = some r
  visited : l.isArr = false → ∀ k, b.visit l.ofs k = b'.visit l.ofs k

/-- The buffers own pairs of containers that are alike, one for each cell. -/
structure Paired (w w' : World) (ps : List (Container × Container)) : Prop where
  left : w.buf.Owns (ps.flatMap (·.1.chunks))
  right : w'.buf.Owns (ps.flatMap (·.2.chunks))
  alike : ∀ p ∈ ps, p.1.Alike p.2
  cells : ∀ l ∈ w.cells, ∃ p ∈ ps, p.1.ofs = l.ofs ∧ p.1.isArr = l.isArr

variable {w w' : World} {ps P₁ P₂ : List (Container × Container)} {p : Container × Container}
  {k : Call} {ks ks' : List Call} {isArr : Bool} {l : Cell}

theorem pair_perm (f : Container × Container → List Chunk) :
    (f p ++ (P₁ ++ P₂).flatMap f).Perm ((P₁ ++ p :: P₂).flatMap f) := by
  simp only [List.flatMap_append, List.flatMap_cons]
  exact List.perm_append_comm_assoc _ _ _

theorem Paired.focus (h : Paired w w' ps) (hl : l ∈ w.cells) :
    ∃ P₁ p P₂, ps = P₁ ++ p :: P₂ ∧ p.1.ofs = l.ofs ∧ p.1.isArr = l.isArr ∧ p.1.Alike p.2 ∧
      w.buf.Owns (p.1.chunks ++ (P₁ ++ P₂).flatMap (·.1.chunks)) ∧
      w'.buf.Owns (p.2.chunks ++ (P₁ ++ P₂).flatMap (·.2.chunks)) := by
  obtain ⟨p, hp, hofs, hkind⟩ := h.cells l hl
  obtain ⟨P₁, P₂, rfl⟩ := List.append_of_mem hp
  exact ⟨P₁, p, P₂, rfl, hofs, hkind, h.alike p hp,
    Buffer.Owns.perm h.left (pair_perm (·.1.chunks)).symm,
    Buffer.Owns.perm h.right (pair_perm (·.2.chunks)).symm⟩

theorem Paired.change {w₁ w₁' : World} {q : Container × Container}
    (h : Paired w w' (P₁ ++ p :: P₂)) (hq : q.1.Alike q.2) (hofs : q.1.ofs = p.1.ofs)
    (hkind : q.1.isArr = p.1.isArr)
    (hown : w₁.buf.Owns (q.1.chunks ++ (P₁ ++ P₂).flatMap (·.1.chunks)))
    (hown' : w₁'.buf.Owns (q.2.chunks ++ (P₁ ++ P₂).flatMap (·.2.chunks)))
    (hcells : ∀ l ∈ w₁.cells, ∃ l₀ ∈ w.cells, l₀.ofs = l.ofs ∧ l₀.isArr = l.isArr) :
    Paired w₁ w₁' (P₁ ++ q :: P₂) where
  left := Buffer.Owns.perm hown (pair_perm (p := q) (·.1.chunks))
  right := Buffer.Owns.perm hown' (pair_perm (p := q) (·.2.chunks))
  alike := by
    intro r hr
    rcases List.mem_append.mp hr with hr | hr
    · exact h.alike r (by simp [hr])
    · rcases List.mem_cons.mp hr with rfl | hr
      · exact hq
      · exact h.alike r (by simp [hr])
  cells := by
    intro l hl
    obtain ⟨l₀, hl₀, ho, hk⟩ := hcells l hl
    obtain ⟨r, hr, hro, hrk⟩ := h.cells l₀ hl₀
    rcases List.mem_append.mp hr with hr | hr
    · exact ⟨r, by simp [hr], hro.trans ho, hrk.trans hk⟩
    · rcases List.mem_cons.mp hr with rfl | hr
      · exact ⟨q, by simp, hofs.trans (hro.trans ho), hkind.trans (hrk.trans hk)⟩
      · exact ⟨r, by simp [hr], hro.trans ho, hrk.trans hk⟩

theorem mem_modify {ofs : ℕ} {f : Cell → Cell} (ho : ∀ l, (f l).ofs = l.ofs)
    (hk : ∀ l, (f l).isArr = l.isArr) {cells : List Cell} (hl : l ∈ Cell.modify ofs f cells) :
    ∃ l₀ ∈ cells, l₀.ofs = l.ofs ∧ l₀.isArr = l.isArr := by
  obtain ⟨l₀, hl₀, rfl⟩ := List.mem_map.mp hl
  refine ⟨l₀, hl₀, ?_⟩
  split
  · exact ⟨(ho l₀).symm, (hk l₀).symm⟩
  · exact ⟨rfl, rfl⟩

/-- A scalar call keeps the worlds paired. -/
theorem Paired.step (h : Paired w w' ps) (hk : k.IsScalar) (hl : k.Legal w)
    (hfin : (w'.step k).buf.usedSize < 2 ^ 32) : ∃ ps', Paired (w.step k) (w'.step k) ps' := by
  cases k with
  | set ofs key v =>
    obtain ⟨⟨hkey, l, hlm, rfl, hla⟩, hfin₁⟩ := hl
    obtain ⟨P₁, p, P₂, rfl, hofs, hkind, hal, ho, ho'⟩ := h.focus hlm
    have hc : p.1.isArr = false := hkind.trans hla
    have hset := hal.setImplWith (updater_updateEntry _) (updater_updateEntry _) ho ho'
      (setArgs_writable hkey v) hc.symm (hofs.symm ▸ hfin₁) (hofs.symm ▸ hfin)
    rw [hofs] at hset
    obtain ⟨x, y, c', d', ms, ns, hal', hown, hown', hup, -⟩ := hset
    refine ⟨_, h.change (q := (c', d')) hal' hup.ofs hup.kind hown hown' fun d hd => ?_⟩
    obtain ⟨d₁, hd₁, rfl⟩ := List.mem_map.mp hd
    have hm := mem_modify (f := .put key (.scalar v)) (fun _ => rfl) (fun _ => rfl) hd₁
    exact hm
  | append ofs v =>
    obtain ⟨⟨l, hlm, rfl, hla, -⟩, hfin₁⟩ := hl
    obtain ⟨P₁, p, P₂, rfl, hofs, hkind, hal, ho, ho'⟩ := h.focus hlm
    have hc : p.1.isArr = true := hkind.trans hla
    have hs := Container.size_eq ho
    have hs' := Container.size_eq ho'
    rw [← hal.ofs, ← hal.size] at hs'
    rw [hofs] at hs hs'
    have hset := hal.setImplWith (a := appendArgs p.1.size v.type v.image) (updater_updateEntry _)
      (updater_updateEntry _) ho ho' (appendArgs_writable _ v) hc.symm
    rw [hofs] at hset
    change (w.buf.arrAppend l.ofs v).usedSize < 2 ^ 32 at hfin₁
    change (w'.buf.arrAppend l.ofs v).usedSize < 2 ^ 32 at hfin
    rw [Buffer.arrAppend, hs] at hfin₁
    rw [Buffer.arrAppend, hs'] at hfin
    obtain ⟨x, y, c', d', ms, ns, hal', hown, hown', hup, hup'⟩ := hset hfin₁ hfin
    have hco : c'.ofs = l.ofs := hup.ofs.trans hofs
    have hdo : d'.ofs = l.ofs := hal'.ofs.symm.trans hco
    have hsized := Container.owns_setSize hown (p.1.size + 1)
    have hsized' := Container.owns_setSize hown' (p.1.size + 1)
    rw [hco] at hsized
    rw [hdo] at hsized'
    refine ⟨_, h.change (q := (c'.withSize (p.1.size + 1), d'.withSize (p.1.size + 1)))
      (hal'.withSize _) ((Container.ofs_withSize _ _).trans hup.ofs) hup.kind ?_ ?_ fun d hd => ?_⟩
    · show (w.buf.arrAppend l.ofs v).Owns _
      rw [Buffer.arrAppend, hs]
      exact hsized
    · show (w'.buf.arrAppend l.ofs v).Owns _
      rw [Buffer.arrAppend, hs']
      exact hsized'
    · exact mem_modify (f := .push (.scalar v)) (fun _ => rfl) (fun _ => rfl) hd
  | create => exact hk.elim
  | appendNew => exact hk.elim

theorem Paired.run (h : Paired w w' ps) (hks : ∀ k ∈ ks, k.IsScalar)
    (hrun : Loop.Allowed World.step (fun w k => k.Legal w) w ks)
    (hrun' : Loop.Allowed World.step (fun w k => k.Legal w) w' ks) :
    ∃ ps', Paired (w.run ks) (w'.run ks) ps' := by
  induction ks generalizing w w' ps with
  | nil => exact ⟨ps, h⟩
  | cons k ks ih =>
    obtain ⟨ps', h'⟩ := h.step (hks k (by simp)) hrun.1 hrun'.1.2
    exact ih h' (fun k hk => hks k (List.mem_cons_of_mem _ hk)) hrun.2 hrun'.2

theorem Paired.sameAt (h : Paired w w' ps) (hl : l ∈ w.cells) : SameAt w.buf w'.buf l := by
  obtain ⟨P₁, p, P₂, rfl, hofs, hkind, hal, ho, ho'⟩ := h.focus hl
  have hsame : ∀ key hash, (p.1.isArr = true → key = []) → ∃ r,
      w.buf.read p.1.ofs key hash p.1.isArr = some r ∧
        w'.buf.read p.1.ofs key hash p.1.isArr = some r := by
    intro key hash hkey
    obtain ⟨r, hr⟩ : ∃ r, w.buf.read p.1.ofs key hash p.1.isArr = some r := by
      rw [Buffer.read, Container.fetch ho hkey]
      exact ⟨_, rfl⟩
    exact ⟨r, hr, (hal.read ho ho' hkey).symm.trans hr⟩
  rw [hofs, hkind] at hsame
  refine ⟨fun hla key => ?_, fun hla index => ?_, fun hla k => ?_⟩
  · rw [hla] at hsame
    exact hsame key _ (by simp)
  · rw [hla] at hsame
    exact hsame [] index fun _ => rfl
  · rw [← hofs]
    exact hal.visit ho ho' (hkind.trans hla) k

/-- A plain history leaves a buffer that is paired with its reload. -/
theorem Plain.paired (h : Plain isArr ks) :
    ∃ ps, Paired ((start isArr).run ks) ((start isArr).run ks).reload ps := by
  obtain ⟨cs, hw⟩ := h.backed
  have hown : ∀ f : Container × Container → List Chunk, (∀ c, f (c, c) = c.chunks) →
      (cs.map fun c => (c, c)).flatMap f = cs.flatMap Container.chunks := by
    intro f hf
    rw [List.flatMap_map]
    exact congrArg (cs.flatMap ·) (funext hf)
  refine ⟨cs.map fun c => (c, c), ?_, ?_, ?_, ?_⟩
  · rw [hown _ fun _ => rfl]
    exact hw.owns
  · rw [hown _ fun _ => rfl]
    exact hw.owns.reload
  · intro p hp
    obtain ⟨c, -, rfl⟩ := List.mem_map.mp hp
    exact .refl c
  · intro l hl
    obtain ⟨c, -, hc, ht, -⟩ := hw.container hl
    exact ⟨(c, c), List.mem_map_of_mem hc, ht.ofs, ht.kind⟩

/-- After a plain history, and after any scalar calls on top, all containers answer the same from
the reloaded buffer. -/
theorem reload_agrees (h : Plain isArr ks) (hks : ∀ k ∈ ks', k.IsScalar)
    (hrun : Loop.Allowed step (fun w k => k.Legal w) ((start isArr).run ks) ks')
    (hrun' : Loop.Allowed step (fun w k => k.Legal w) ((start isArr).run ks).reload ks') :
    ∀ l ∈ (((start isArr).run ks).run ks').cells,
      SameAt (((start isArr).run ks).run ks').buf
        (((start isArr).run ks).reload.run ks').buf l := by
  obtain ⟨ps, hp⟩ := h.paired
  obtain ⟨ps', hp'⟩ := hp.run hks hrun hrun'
  exact fun l hl => hp'.sameAt hl

/-- Scalar calls after a reload: an update, a split of the root, an append. -/
def afterwards : List Call :=
  [.set 0 [1] (.str [67]), .set 0 [8] .null, .append 128 (.bool true), .set 237 [2] (.i64 3)]

set_option maxRecDepth 10000 in
theorem reload_agrees_mixed : ∃ l ∈ (((start false).run mixed).run afterwards).cells, l.ofs = 128 ∧
    SameAt (((start false).run mixed).run afterwards).buf
      (((start false).run mixed).reload.run afterwards).buf l := by
  obtain ⟨l, hl, ho⟩ : ∃ l ∈ (((start false).run mixed).run afterwards).cells, l.ofs = 128 := by
    decide +kernel
  exact ⟨l, hl, ho, reload_agrees (by decide +kernel) (by decide) (by decide +kernel)
    (by decide +kernel) l hl⟩

end World

end Lite3
