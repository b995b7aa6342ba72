import Lite3.Tree.Find

/-! # Trees that are alike

Two trees are alike when forgetting the labels and a part of every key leaves
the same tree. Where comparison and routing do not look at what is forgotten,
insertion keeps trees alike and lookups in them find keys that are.
-/

namespace Lite3.Tree

variable {α β : Type} {g : α → β} {cmp : α → Ordering} {right : α → Prop}

/-- Comparison and routing do not look at what `g` forgets. -/
structure Blind (g : α → β) (cmp : α → Ordering) (right : α → Prop) : Prop where
  cmp : ∀ {x y : α}, g x = g y → cmp x = cmp y
  right : ∀ {x y : α}, g x = g y → (right x ↔ right y)

theorem Blind.seek_eq (hg : Blind g cmp right) {ks ls : List α} (h : ks.map g = ls.map g) :
    seek cmp ks = seek cmp ls := by
  induction ks generalizing ls with
  | nil =>
    cases ls with
    | nil => rfl
    | cons l ls => simp at h
  | cons k ks ih =>
    cases ls with
    | nil => simp at h
    | cons l ls =>
      obtain ⟨hkl, h⟩ := List.cons.inj h
      have ih := ih h
      unfold seek at ih ⊢
      rw [List.takeWhile_cons, List.takeWhile_cons, hg.cmp hkl]
      split
      · simp [ih]
      · rfl

theorem Blind.split (hg : Blind g cmp right) {K₁ K₂ L₁ L₂ : List α}
    (h : (K₁ ++ K₂).map g = (L₁ ++ L₂).map g) (hK : ∀ k ∈ K₁, cmp k = .lt)
    (hK' : ∀ k ∈ K₂.head?, cmp k ≠ .lt) (hL : ∀ k ∈ L₁, cmp k = .lt)
    (hL' : ∀ k ∈ L₂.head?, cmp k ≠ .lt) :
    K₁.length = L₁.length ∧ K₁.map g = L₁.map g ∧ K₂.map g = L₂.map g := by
  have hlen := hg.seek_eq h
  rw [seek_append hK hK', seek_append hL hL'] at hlen
  rw [List.map_append, List.map_append] at h
  exact ⟨hlen, List.append_inj h (by simpa using hlen)⟩

theorem Blind.hit_eq (hg : Blind g cmp right) {ks ls : List α} (h : ks.map g = ls.map g) :
    (hit cmp ks).map g = (hit cmp ls).map g := by
  have hget : (ks[seek cmp ks]?).map g = (ls[seek cmp ks]?).map g := by
    rw [← List.getElem?_map, h, List.getElem?_map]
  unfold hit
  rw [← hg.seek_eq h]
  cases hk : ks[seek cmp ks]? with
  | none =>
    rw [hk] at hget
    simp [Option.map_eq_none_iff.mp hget.symm]
  | some k =>
    rw [hk] at hget
    obtain ⟨l, hl, hkl⟩ := Option.map_eq_some_iff.mp hget.symm
    rw [hl, Option.filter_some, Option.filter_some, hg.cmp hkl]
    split <;> simp [hkl]

namespace BTree

variable {ν : Type} {h lo : ℕ}

/-- The tree without its labels, and what `g` leaves of its keys. -/
def erase (g : α → β) : {h : ℕ} → BTree ν α h → BTree Unit β h
  | 0, t => leaf () (t.keys.map g)
  | _ + 1, t => inner () (t.keys.map g) (t.kids.map (erase g))

@[simp] theorem keys_erase : {h : ℕ} → (t : BTree ν α h) → (t.erase g).keys = t.keys.map g
  | 0, _ => rfl
  | _ + 1, _ => rfl

@[simp] theorem kids_erase (t : BTree ν α (h + 1)) : (t.erase g).kids = t.kids.map (erase g) := rfl

theorem erase_setRoot (l : ν) (t : BTree ν α h) : (t.setRoot l t.keys).erase g = t.erase g := by
  cases h <;> rfl

variable {s t s' t' l r l' r' : BTree ν α h} {m m' x y : α} {ms ns : List α}

theorem alike_keys (hst : s.erase g = t.erase g) : s.keys.map g = t.keys.map g := by
  have := congrArg keys hst
  rwa [keys_erase, keys_erase] at this

theorem alike_kids {s t : BTree ν α (h + 1)} (hst : s.erase g = t.erase g) :
    s.kids.map (erase g) = t.kids.map (erase g) := congrArg kids hst

theorem alike_length (hst : s.erase g = t.erase g) : s.keys.length = t.keys.length := by
  simpa using congrArg List.length (alike_keys hst)

theorem alike_leaf {s t : BTree ν α 0} (hk : s.keys.map g = t.keys.map g) :
    s.erase g = t.erase g := by
  unfold erase
  rw [hk]

theorem alike_inner {s t : BTree ν α (h + 1)} (hk : s.keys.map g = t.keys.map g)
    (hc : s.kids.map (erase g) = t.kids.map (erase g)) : s.erase g = t.erase g := by
  unfold erase
  rw [hk, hc]

theorem Splits.alike (hst : s.erase g = t.erase g) (hs : Splits lo s l m r)
    (ht : Splits lo t l' m' r') : l.erase g = l'.erase g ∧ g m = g m' ∧ r.erase g = r'.erase g := by
  have hk := alike_keys hst
  rw [hs.keys_eq, ht.keys_eq, List.map_append, List.map_append] at hk
  obtain ⟨hl, hmr⟩ := List.append_inj hk (by simp [hs.length_left, ht.length_left])
  obtain ⟨hm, hr⟩ := List.cons.inj hmr
  cases h with
  | zero => exact ⟨alike_leaf hl, hm, alike_leaf hr⟩
  | succ h =>
    have hc := alike_kids hst
    rw [hs.2.2.2.1, ht.2.2.2.1, List.map_append, List.map_append] at hc
    obtain ⟨hcl, hcr⟩ := List.append_inj hc (by simp [hs.2.2.2.2, ht.2.2.2.2])
    exact ⟨alike_inner hl hcl, hm, alike_inner hr hcr⟩

theorem Visit.alike (hg : Blind g cmp right) {P Q : BTree ν α h → BTree ν α h → List α → Prop}
    (hPQ : ∀ {c d c' d' : BTree ν α h} {ms ns : List α}, c.erase g = d.erase g → P c c' ms →
      Q d d' ns → c'.erase g = d'.erase g)
    {A B C D : List (BTree ν α h)} {K₁ K₂ L₁ L₂ ks ls : List α} {c d : BTree ν α h}
    {cs ds : List (BTree ν α h)} (hA : A.map (erase g) = C.map (erase g))
    (hB : B.map (erase g) = D.map (erase g)) (hK₁ : K₁.map g = L₁.map g)
    (hK₂ : K₂.map g = L₂.map g) (hcd : c.erase g = d.erase g)
    (hv : Visit lo right P A B K₁ K₂ c ks cs ms) (hw : Visit lo right Q C D L₁ L₂ d ls ds ns) :
    ks.map g = ls.map g ∧ cs.map (erase g) = ds.map (erase g) := by
  have hlen := alike_length hcd
  cases hv with
  | whole hn hp =>
    cases hw with
    | whole _ hq => simp [hA, hB, hK₁, hK₂, hPQ hcd hp hq]
    | upper hs _ _ => exact absurd hs.median.2 (by omega)
    | lower hs _ _ => exact absurd hs.median.2 (by omega)
  | upper hs hr hp =>
    cases hw with
    | whole hn _ => exact absurd hs.median.2 (by omega)
    | upper ht _ hq =>
      obtain ⟨hl, hm, hr⟩ := Splits.alike hcd hs ht
      simp [hA, hB, hK₁, hK₂, hl, hm, hPQ hr hp hq]
    | lower ht hn _ => exact absurd ((hg.right (Splits.alike hcd hs ht).2.1).mp hr) hn
  | lower hs hr hp =>
    cases hw with
    | whole hn _ => exact absurd hs.median.2 (by omega)
    | upper ht hn _ => exact absurd ((hg.right (Splits.alike hcd hs ht).2.1).mpr hn) hr
    | lower ht _ hq =>
      obtain ⟨hl, hm, hr⟩ := Splits.alike hcd hs ht
      simp [hA, hB, hK₁, hK₂, hr, hm, hPQ hl hp hq]

theorem Replaced.alike (hg : Blind g cmp right) {ks ls ks' ls' : List α}
    (h : ks.map g = ls.map g) (hk : Replaced cmp x ks ks') (hl : Replaced cmp y ls ls')
    (hxy : g x = g y) : ks'.map g = ls'.map g := by
  obtain ⟨K₁, e, K₂, rfl, hK₁, he, rfl⟩ := hk
  obtain ⟨L₁, f, L₂, rfl, hL₁, hf, rfl⟩ := hl
  obtain ⟨-, h₁, h₂⟩ := hg.split h hK₁ (by simp [he]) hL₁ (by simp [hf])
  obtain ⟨-, h₂⟩ := List.cons.inj h₂
  simp [h₁, h₂, hxy]

theorem Replaced.not_spot (hg : Blind g cmp right) {ks ks' L₁ L₂ : List α}
    (h : ks.map g = (L₁ ++ L₂).map g) (hk : Replaced cmp x ks ks') (hl : Spot cmp L₁ L₂) :
    False := by
  obtain ⟨K₁, e, K₂, rfl, hK₁, he, rfl⟩ := hk
  obtain ⟨-, -, h₂⟩ := hg.split h hK₁ (by simp [he]) hl.before fun k hk => by simp [hl.next k hk]
  cases L₂ with
  | nil => simp at h₂
  | cons f L₂ =>
    have hf := hl.next f rfl
    rw [← hg.cmp (List.cons.inj h₂).1, he] at hf
    cases hf

theorem Spot.alike (hg : Blind g cmp right) {K₁ K₂ L₁ L₂ : List α}
    (h : (K₁ ++ K₂).map g = (L₁ ++ L₂).map g) (hk : Spot cmp K₁ K₂) (hl : Spot cmp L₁ L₂) :
    K₁.length = L₁.length ∧ K₁.map g = L₁.map g ∧ K₂.map g = L₂.map g :=
  hg.split h hk.before (fun k hm => by simp [hk.next k hm]) hl.before
    fun k hm => by simp [hl.next k hm]

/-- Putting keys that are alike into alike trees gives alike trees. -/
theorem Put.alike (hg : Blind g cmp right) (hst : s.erase g = t.erase g)
    (hs : Put lo cmp right x s s' ms) (ht : Put lo cmp right y t t' ns) (hxy : g x = g y) :
    s'.erase g = t'.erase g := by
  induction h generalizing ms ns with
  | zero =>
    have hk := alike_keys hst
    apply alike_leaf
    rcases hs with ⟨-, hr | ⟨K₁, K₂, hks, hsp, hks'⟩⟩
    · rcases ht with ⟨-, hr' | ⟨L₁, L₂, hlt, hsp', -⟩⟩
      · exact hr.alike hg hk hr' hxy
      · exact (hr.not_spot hg (hlt ▸ hk) hsp').elim
    · rcases ht with ⟨-, hr' | ⟨L₁, L₂, hlt, hsp', hlt'⟩⟩
      · exact (hr'.not_spot hg (hks ▸ hk.symm) hsp).elim
      · rw [hks, hlt] at hk
        obtain ⟨-, h₁, h₂⟩ := hsp.alike hg hk hsp'
        rw [hks', hlt']
        simp [h₁, h₂, hxy]
  | succ h ih =>
    have hk := alike_keys hst
    have hc := alike_kids hst
    rcases hs with ⟨-, hr, hcs⟩ | ⟨K₁, K₂, A, c, B, hks, hcs, hA, hsp, hv⟩
    · rcases ht with ⟨-, hr', hct⟩ | ⟨L₁, L₂, C, d, D, hlt, -, -, hsp', -⟩
      · exact alike_inner (hr.alike hg hk hr' hxy) (by rw [hcs, hct, hc])
      · exact (hr.not_spot hg (hlt ▸ hk) hsp').elim
    · rcases ht with ⟨-, hr', -⟩ | ⟨L₁, L₂, C, d, D, hlt, hct, hC, hsp', hw⟩
      · exact (hr'.not_spot hg (hks ▸ hk.symm) hsp).elim
      · rw [hks, hlt] at hk
        obtain ⟨hlen, h₁, h₂⟩ := hsp.alike hg hk hsp'
        rw [hcs, hct, List.map_append, List.map_append] at hc
        obtain ⟨hAC, hcB⟩ := List.append_inj hc (by simp [hA, hC, hlen])
        obtain ⟨hcd, hBD⟩ := List.cons.inj hcB
        obtain ⟨hks', hcs'⟩ := hv.alike hg (fun hcd hp hq => ih hcd hp hq) hAC hBD h₁ h₂ hcd hw
        exact alike_inner hks' hcs'

/-- The erased tree together with its height. -/
def core (g : α → β) (t : Σ h, BTree ν α h) : Σ h, BTree Unit β h := ⟨t.1, t.2.erase g⟩

theorem core_eq {h : ℕ} {s t : BTree ν α h} :
    core g ⟨h, s⟩ = core g ⟨h, t⟩ ↔ s.erase g = t.erase g := by
  unfold core
  constructor
  · intro he
    exact eq_of_heq (Sigma.mk.inj he).2
  · intro he
    rw [he]

theorem exists_core_eq {u : Σ h, BTree ν α h} {s : BTree ν α h} (hu : core g ⟨h, s⟩ = core g u) :
    ∃ t : BTree ν α h, u = ⟨h, t⟩ ∧ s.erase g = t.erase g := by
  obtain ⟨k, t⟩ := u
  obtain rfl : h = k := congrArg Sigma.fst hu
  exact ⟨t, rfl, core_eq.mp hu⟩

theorem PutRoot.alike (hg : Blind g cmp right) {s t s' t' : Σ h, BTree ν α h}
    (hst : core g s = core g t) (hs : PutRoot lo cmp right x s s' ms)
    (ht : PutRoot lo cmp right y t t' ns) (hxy : g x = g y) : core g s' = core g t' := by
  cases hs with
  | whole hn hp =>
    obtain ⟨t, rfl, hst'⟩ := exists_core_eq hst
    have hlen := alike_length hst'
    cases ht with
    | whole _ hq => exact core_eq.mpr (hp.alike hg hst' hq hxy)
    | split hn' _ => omega
  | split hn hv =>
    obtain ⟨t, rfl, hst'⟩ := exists_core_eq hst
    have hlen := alike_length hst'
    cases ht with
    | whole hn' _ => omega
    | split _ hw =>
      obtain ⟨hk, hc⟩ := hv.alike hg (fun hcd hp hq => Put.alike hg hcd hp hq hxy) rfl rfl rfl rfl
        hst' hw
      exact core_eq.mpr (alike_inner hk hc)

/-- Lookups in alike trees find keys that are alike. -/
theorem find_alike (hg : Blind g cmp right) (hst : s.erase g = t.erase g) :
    (s.find cmp).map g = (t.find cmp).map g := by
  induction h with
  | zero => exact hg.hit_eq (alike_keys hst)
  | succ h ih =>
    have hk := alike_keys hst
    have hc := alike_kids hst
    have hhit := hg.hit_eq hk
    have hkid : (s.kids[seek cmp s.keys]?).map (erase g) =
        (t.kids[seek cmp t.keys]?).map (erase g) := by
      rw [← hg.seek_eq hk, ← List.getElem?_map, hc, List.getElem?_map]
    rw [find, find, Option.map_or, Option.map_or, hhit]
    congr 1
    cases hs : s.kids[seek cmp s.keys]? with
    | none =>
      rw [hs] at hkid
      simp [Option.map_eq_none_iff.mp hkid.symm]
    | some c =>
      rw [hs] at hkid
      obtain ⟨d, hd, hcd⟩ := Option.map_eq_some_iff.mp hkid.symm
      rw [hd]
      exact ih hcd.symm

end BTree

end Lite3.Tree
