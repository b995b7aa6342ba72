import Lite3.Json.Early
import Lite3.Json.Filings
import Lite3.Json.Strings

/-! # Documents as forests of containers

A buffer that a document is stored in owns containers whose entries hold scalars
or lead to containers further behind. Storing a value keeps this, whatever the
keys are like, as long as containers find room in place of mere type tags. A small
array with more than nulls stays where it is stored, and so does what is legible.
-/

namespace Lite3

open Bytes Config Lite3.Tree

/-- The type tag of a stored value. -/
def Json.tag (y : Yyjson) : Json → ValueType
  | .atom a => (a.scalar y).type
  | .arr _ => .array
  | .obj _ => .object

/-- Where the node of the container lies that the entry leads to. -/
def Container.place (c : Container) (e : Entry) : ℕ := e.valueOfs c.isArr + 1

/-- A document can hold the scalar, and a nested container is one of those there. -/
def Item.Rests (valid : List UInt8 → Prop) (cs : List Container) : Item → Prop
  | .scalar v => v.atom.Valid valid
  | .nested isArr o => ∃ d ∈ cs, d.ofs = o ∧ d.isArr = isArr

/-- The entry of `c` lies behind its node and has a key and an item that a document can hold. -/
structure Entry.Rests (valid : List UInt8 → Prop) (cs : List Container) (c : Container)
    (e : Entry) : Prop where
  key : c.isArr = false → valid (cstr e.key) ∧ e.hash = djb2Hash e.key
  behind : c.ofs < e.ofs
  item : ∃ it, e.Holds c.isArr it ∧ it.Rests valid cs

/-- The buffer owns containers that lead to one another. -/
structure Forest (valid : List UInt8 → Prop) (b : Buffer) (cs : List Container) : Prop where
  owns : b.Owns (cs.flatMap Container.chunks)
  rests : ∀ c ∈ cs, ∀ e ∈ c.entries, e.Rests valid cs c
  sorted : ∀ c ∈ cs, Entry.Sorted c.entries
  rooted : ∀ c ∈ cs, BTree.Rooted c.tree

/-- There is a container at each of the offsets. -/
def Housed (cs : List Container) (homes : List ℕ) : Prop := ∀ o ∈ homes, ∃ d ∈ cs, d.ofs = o

/-- An array of nulls, or an object that leads to nothing else -/
inductive Container.Shown (cs : List Container) : Container → Prop

  | arr {c : Container} : c.isArr = true → (∀ e ∈ c.entries, e.type = .null) → Shown cs c

  | obj {c : Container} : c.isArr = false →
      (∀ e ∈ c.entries, ∀ d ∈ cs, e.Holds false (.nested d.isArr d.ofs) → Shown cs d) → Shown cs c

/-- Whatever the entry of `c` leads to is shown. -/
def Entry.Shows (cs : List Container) (c : Container) (e : Entry) : Prop :=
  ∀ d ∈ cs, e.Holds c.isArr (.nested d.isArr d.ofs) → d.Shown cs

/-- A small array with more than nulls, or an object that leads to one -/
inductive Container.Blocked (cs : List Container) : Container → Prop

  | arr {c : Container} {e : Entry} : c.isArr = true → c.Small → e ∈ c.entries → e.type ≠ .null →
      Blocked cs c

  | obj {c d : Container} {e : Entry} : c.isArr = false → c.entries.length < 2097151 →
      e ∈ c.entries → e.Holds false (.nested d.isArr d.ofs) → c.ofs < d.ofs → d ∈ cs →
      Blocked cs d → Blocked cs c

/-- The entry of `c` leads to a small array with more than nulls. -/
def Entry.Leads (cs : List Container) (c : Container) (e : Entry) : Prop :=
  ∃ d ∈ cs, c.ofs < d.ofs ∧ e.Holds c.isArr (.nested d.isArr d.ofs) ∧ d.Blocked cs

/-- Container `c` has become `c'`. Of the others only those are gone that its entries led to, and
new entries lead to no place where there was a container before. -/
structure Becomes (cs : List Container) (c : Container) (cs' : List Container) (c' : Container) :
    Prop where
  mem : c' ∈ cs'
  ofs : c'.ofs = c.ofs
  kind : c'.isArr = c.isArr
  kept : ∀ d ∈ cs, d.ofs ≠ c.ofs → d ∈ cs' ∨ ∃ e ∈ c.entries, c.place e = d.ofs
  places : ∀ e ∈ c'.entries, (∃ e₀ ∈ c.entries, c.place e₀ = c.place e) ∨
    ∀ d ∈ cs, d.ofs ≠ c.place e
  still : ∀ d ∈ cs, ∃ d' ∈ cs', d'.ofs = d.ofs

namespace Target

/-- The container takes the value there: a new container finds room, and arrays have all indices
below their size. -/
def Admits (valid : List UInt8 → Prop) (homes : List ℕ) (b : Buffer) (v : Json) (c : Container) :
    Target → Prop
  | here _ => False
  | under ofs key => c.ofs = ofs ∧ c.isArr = false ∧ key.length ≤ 62 ∧ valid (cstr key) ∧
      (v.IsAtom ∨ b.Clears homes ofs key)
  | behind ofs => c.ofs = ofs ∧ c.isArr = true ∧ (v.IsAtom ∨ ∀ e ∈ c.entries, e.hash < c.size)

/-- The entry is filed where the value goes. -/
def Names (c : Container) (e : Entry) : Target → Prop
  | here _ => False
  | under _ key => e.key = key
  | behind _ => e.hash = c.size

end Target

/-- Container `c` has taken the value as the entry `x`. -/
structure Takes (y : Yyjson) (v : Json) (t : Target) (b : Buffer) (cs : List Container)
    (c : Container) (cs' : List Container) (c' : Container) (x : Entry) : Prop
    extends Becomes cs c cs' c' where
  spared : ∀ d ∈ cs, d.ofs ≠ c.ofs → d.ofs ≠ c.place x → d ∈ cs'
  self_mem : x ∈ c'.entries
  names : t.Names c x
  type : x.type = v.tag y
  entries : ∀ e ∈ c'.entries, e = x ∨ e ∈ c.entries
  stays : ∀ e ∈ c.entries, e ∈ c'.entries ∨ t.Names c e
  length_le : c'.entries.length ≤ c.entries.length + 1
  routed : ∀ ofs key, t = .under ofs key → b.Routed ofs key → Entry.Ordered c.entries →
    Entry.Ordered c'.entries ∧ ∀ e ∈ c'.entries, e.key = key → e = x
  size : ∀ ofs, t = .behind ofs → c'.size.toNat = (c.size.toNat + 1) % 2 ^ 26
  small : ∀ ofs, t = .behind ofs → c.Small → c.entries.length < 6 → c'.Small

variable {valid : List UInt8 → Prop} {y : Yyjson} {b b' b₀ b₁ : Buffer} {v : Json} {t : Target}
  {cs cs' cs'' C₁ C₂ : List Container} {c c' c'' d d' u : Container} {e x : Entry}
  {ms : List Entry} {a : SetArgs} {it : Item} {isArr : Bool} {o : ℕ} {homes : List ℕ}

/-! ## Containers lie apart -/

theorem mem_mid_of_mem (hd : d ∈ C₁ ++ C₂) : d ∈ C₁ ++ c :: C₂ :=
  ((List.sublist_cons_self c C₂).append_left C₁).subset hd

theorem mem_of_mem_mid (hd : d ∈ C₁ ++ c :: C₂) (hne : d ≠ c) : d ∈ C₁ ++ C₂ := by
  simp only [List.mem_append, List.mem_cons] at hd ⊢
  exact hd.imp_right fun h => h.resolve_left hne

theorem Container.place_bounds (c : Container) (e : Entry) :
    e.ofs < c.place e ∧ c.place e ≤ (e.chunk c.isArr).stop := by
  simp only [place, Entry.valueOfs, Chunk.stop, Entry.chunk, Entry.bytes, valueBytes,
    List.length_append, List.length_cons]
  omega

theorem Scalar.type_ne_kindOf (v : Scalar) (isArr : Bool) : v.type ≠ kindOf isArr := by
  cases v <;> cases isArr <;> nofun

theorem kindOf_injective : Function.Injective kindOf := by
  rintro (_ | _) (_ | _) h <;> first | rfl | cases h

theorem Entry.Holds.nested_eq (h : e.Holds isArr it) {k : Bool}
    (h' : e.Holds isArr (.nested k o)) : it = .nested k o := by
  have htype : it.type = kindOf k := h.type.symm.trans h'.type
  cases it with
  | scalar v => exact absurd htype (v.type_ne_kindOf k)
  | nested k' o' =>
    obtain rfl := kindOf_injective htype
    rw [← h.ofs _ _ rfl, h'.ofs _ _ rfl]

namespace Buffer.Owns

variable (ho : b.Owns (cs.flatMap Container.chunks)) (hc : c ∈ cs) (hd : d ∈ cs)

include ho hc hd

theorem chunks_apart (hne : c ≠ d) : ∀ k ∈ c.chunks, ∀ l ∈ d.chunks, k.Apart l := by
  have : Std.Symm fun c d : Container => ∀ k ∈ c.chunks, ∀ l ∈ d.chunks, k.Apart l :=
    ⟨fun _ _ h k hk l hl => (h l hl k hk).symm⟩
  exact (List.pairwise_flatMap.mp ho.apart).2.forall hc hd hne

theorem eq_of_ofs (h : c.ofs = d.ofs) : c = d := by
  by_contra hne
  have hap := chunks_apart ho hc hd hne _ (c.tree.label_chunk_mem _) _ (d.tree.label_chunk_mem _)
  simp only [Chunk.Apart, Chunk.stop, Block.length_chunk, Block.ofs_chunk] at hap
  have h : c.tree.label.ofs = d.tree.label.ofs := h
  omega

theorem eq_of_place (he : e ∈ c.entries) (hx : x ∈ d.entries) (h : c.place e = d.place x) :
    c = d ∧ e = x := by
  have hchunk : ∀ {c : Container} {e : Entry}, e ∈ c.entries → e.chunk c.isArr ∈ c.chunks :=
    fun he => List.mem_append_right _ (List.mem_map_of_mem he)
  have hoverlap : ¬ (e.chunk c.isArr).Apart (x.chunk d.isArr) := by
    have h₁ := c.place_bounds e
    have h₂ := d.place_bounds x
    simp only [Chunk.Apart, Chunk.stop, Entry.chunk] at h₁ h₂ ⊢
    omega
  by_cases hcd : c = d
  · subst hcd
    refine ⟨rfl, by_contra fun hne => hoverlap ?_⟩
    have hpair := (List.pairwise_append.mp ((List.pairwise_flatMap.mp ho.apart).1 c hc)).2.1
    have : Std.Symm fun e f : Entry => (e.chunk c.isArr).Apart (f.chunk c.isArr) :=
      ⟨fun _ _ => Or.symm⟩
    exact (List.pairwise_map.mp hpair).forall he hx hne
  · exact absurd (chunks_apart ho hc hd hcd _ (hchunk he) _ (hchunk hx)) hoverlap

end Buffer.Owns

namespace Forest

theorem focus (hf : Forest valid b cs) (hc : c ∈ cs) :
    ∃ C₁ C₂, cs = C₁ ++ c :: C₂ ∧ b.Owns (c.chunks ++ (C₁ ++ C₂).flatMap Container.chunks) := by
  obtain ⟨C₁, C₂, rfl⟩ := List.append_of_mem hc
  exact ⟨C₁, C₂, rfl, Buffer.Owns.perm hf.owns (World.chunks_mid_perm c C₁ C₂).symm⟩

theorem ofs_lt_usedSize (hf : Forest valid b cs) (hd : d ∈ cs) : d.ofs < b.usedSize := by
  obtain ⟨C₁, C₂, -, ho⟩ := hf.focus hd
  exact Container.ofs_lt_usedSize ho

theorem lt_place (hf : Forest valid b cs) (hc : c ∈ cs) (he : e ∈ c.entries) : c.ofs < c.place e :=
  (hf.rests c hc e he).behind.trans (c.place_bounds e).1

theorem exists_of_holds (hf : Forest valid b cs) (hc : c ∈ cs) (he : e ∈ c.entries) {k : Bool}
    (hh : e.Holds c.isArr (.nested k o)) : ∃ d ∈ cs, d.ofs = o ∧ d.isArr = k := by
  obtain ⟨-, -, it, hit, hrests⟩ := hf.rests c hc e he
  obtain rfl := hit.nested_eq hh
  exact hrests

end Forest

theorem Forest.start (isArr : Bool) :
    Forest valid (Buffer.empty.initStructure (kindOf isArr)) [.empty isArr 0] where
  owns := by
    rw [List.flatMap_singleton]
    exact Container.owns_initStructure isArr
  rests := by simp
  sorted := by simp [Entry.Sorted]
  rooted := by
    rintro c hc
    obtain rfl := List.mem_singleton.mp hc
    trivial

/-! ## Containers become others -/

namespace Becomes

theorem refl (hc : c ∈ cs) : Becomes cs c cs c where
  mem := hc
  ofs := rfl
  kind := rfl
  kept _ hd _ := .inl hd
  places e he := .inl ⟨e, he, rfl⟩
  still d hd := ⟨d, hd, rfl⟩

theorem place_eq (h : Becomes cs c cs' c') (e : Entry) : c'.place e = c.place e := by
  rw [Container.place, h.kind, Container.place]

theorem trans (h : Becomes cs c cs' c') (h' : Becomes cs' c' cs'' c'') : Becomes cs c cs'' c'' where
  mem := h'.mem
  ofs := h'.ofs.trans h.ofs
  kind := h'.kind.trans h.kind
  kept d hd hne := by
    rcases h.kept d hd hne with hd' | hgone
    · rcases h'.kept d hd' (h.ofs ▸ hne) with hd'' | ⟨e, he, hp⟩
      · exact .inl hd''
      · rw [h.place_eq] at hp
        rcases h.places e he with ⟨e₀, he₀, hp₀⟩ | hfresh
        · exact .inr ⟨e₀, he₀, hp₀.trans hp⟩
        · exact absurd hp.symm (hfresh d hd)
    · exact .inr hgone
  places e he := by
    by_cases hold : ∃ e₀ ∈ c.entries, c.place e₀ = c.place e
    · exact .inl hold
    refine .inr fun d hd hde => hold ?_
    rcases h'.places e he with ⟨e₁, he₁, hp₁⟩ | hfresh
    · rw [h.place_eq, h.place_eq] at hp₁
      rcases h.places e₁ he₁ with ⟨e₀, he₀, hp₀⟩ | hfresh
      · exact ⟨e₀, he₀, hp₀.trans hp₁⟩
      · exact absurd (hde.trans hp₁.symm) (hfresh d hd)
    · rw [h.place_eq] at hfresh
      by_cases hofs : d.ofs = c.ofs
      · exact absurd (h.ofs.trans (hofs.symm.trans hde)) (hfresh c' h.mem)
      · rcases h.kept d hd hofs with hd' | ⟨e₀, he₀, hp₀⟩
        · exact absurd hde (hfresh d hd')
        · exact ⟨e₀, he₀, hp₀.trans hde⟩
  still d hd := by
    obtain ⟨d', hd', hofs⟩ := h.still d hd
    obtain ⟨d'', hd'', hofs'⟩ := h'.still d' hd'
    exact ⟨d'', hd'', hofs'.trans hofs⟩

theorem trans_inner (h : Becomes cs c cs' c') (hx : x ∈ c'.entries) (hp : c.place x = o)
    (ho : c.ofs < o) (h' : Becomes cs' (.empty isArr o) cs'' c'') : Becomes cs c cs'' c' where
  mem := by
    refine (h'.kept c' h.mem ?_).resolve_right (by simp)
    rw [h.ofs]
    exact ho.ne
  ofs := h.ofs
  kind := h.kind
  kept d hd hne := by
    rcases h.kept d hd hne with hd' | hgone
    · by_cases hdo : d.ofs = o
      · rcases h.places x hx with ⟨e, he, hpe⟩ | hfresh
        · exact .inr ⟨e, he, hpe.trans (hp.trans hdo.symm)⟩
        · exact absurd (hdo.trans hp.symm) (hfresh d hd)
      · exact .inl ((h'.kept d hd' hdo).resolve_right (by simp))
    · exact .inr hgone
  places := h.places
  still d hd := by
    obtain ⟨d', hd', hofs⟩ := h.still d hd
    obtain ⟨d'', hd'', hofs'⟩ := h'.still d' hd'
    exact ⟨d'', hd'', hofs'.trans hofs⟩

theorem housed (h : Becomes cs c cs' c') (hh : Housed cs homes) : Housed cs' homes := by
  intro o ho
  obtain ⟨d, hd, rfl⟩ := hh o ho
  exact h.still d hd

end Becomes

theorem Updates.place (h : Updates a b b' c c' x ms) :
    b.usedSize ≤ x.ofs ∨ ∃ e ∈ c.entries, c.place e = c.place x ∧ e.ofs = x.ofs := by
  rcases h.placed.place with ⟨hle, -⟩ | ⟨e, he, hcmp, hofs, -⟩
  · exact .inl hle
  · refine .inr ⟨e, he, ?_, hofs.symm⟩
    rw [Container.place, Container.place, Entry.valueOfs, Entry.valueOfs, hofs,
      (SetArgs.eq_of_cmp hcmp).2, h.key_eq]

/-- Containers of a forest that a call has changed: others are gone only if the entry it has put
leads there. -/
structure Changes (C₁ : List Container) (c : Container) (C₂ cs' : List Container) (c' : Container)
    (x : Entry) : Prop where
  mem : c' ∈ cs'
  ofs : c'.ofs = c.ofs
  kind : c'.isArr = c.isArr
  only : ∀ d ∈ cs', d = c' ∨ d ∈ C₁ ++ C₂ ∨ ∃ isArr o, d = .empty isArr o
  kept : ∀ d ∈ C₁ ++ C₂, d ∈ cs' ∨ d.ofs = c.place x ∧ ∃ d' ∈ cs', d'.ofs = d.ofs

namespace Changes

theorem of_mid (hofs : c'.ofs = c.ofs) (hkind : c'.isArr = c.isArr) (x : Entry) :
    Changes C₁ c C₂ (C₁ ++ c' :: C₂) c' x where
  mem := by simp
  ofs := hofs
  kind := hkind
  only d hd := by
    simp only [List.mem_append, List.mem_cons] at hd ⊢
    tauto
  kept d hd := by
    simp only [List.mem_append, List.mem_cons] at hd ⊢
    tauto

theorem of_made (hofs : c'.ofs = c.ofs) (hkind : c'.isArr = c.isArr) (isArr : Bool)
    (hp : c.place x = o) : Changes C₁ c C₂
      (.empty isArr o :: c' :: (C₁ ++ C₂).filter fun d => d.ofs ≠ o) c' x where
  mem := by simp
  ofs := hofs
  kind := hkind
  only d hd := by
    rcases List.mem_cons.mp hd with rfl | hd
    · exact .inr (.inr ⟨isArr, o, rfl⟩)
    · rcases List.mem_cons.mp hd with rfl | hd
      · exact .inl rfl
      · exact .inr (.inl (List.mem_of_mem_filter hd))
  kept d hd := by
    by_cases hdo : d.ofs = o
    · exact .inr ⟨hdo.trans hp.symm, .empty isArr o, List.mem_cons_self, hdo.symm⟩
    · refine .inl (List.mem_cons_of_mem _ (List.mem_cons_of_mem _ ?_))
      exact List.mem_filter.mpr ⟨hd, decide_eq_true hdo⟩

theorem becomes (h : Changes C₁ c C₂ cs' c' x) (hf : Forest valid b (C₁ ++ c :: C₂))
    (hup : Updates a b b₁ c c'' x ms) (hent : c'.entries = c''.entries) :
    Becomes (C₁ ++ c :: C₂) c cs' c' := by
  have hothers : ∀ d ∈ C₁ ++ c :: C₂, d.ofs ≠ c.ofs → d ∈ C₁ ++ C₂ :=
    fun d hd hne => mem_of_mem_mid hd (ne_of_apply_ne _ hne)
  have hplace : (∃ e ∈ c.entries, c.place e = c.place x) ∨
      ∀ d ∈ C₁ ++ c :: C₂, d.ofs ≠ c.place x := by
    rcases hup.place with hle | ⟨e, he, hp, -⟩
    · refine .inr fun d hd heq => ?_
      have hlt := hf.ofs_lt_usedSize hd
      have hx := (c.place_bounds x).1
      omega
    · exact .inl ⟨e, he, hp⟩
  refine ⟨h.mem, h.ofs, h.kind, fun d hd hne => ?_, fun e he => ?_, fun d hd => ?_⟩
  · rcases h.kept d (hothers d hd hne) with hd' | ⟨hofs, -⟩
    · exact .inl hd'
    · rcases hplace with ⟨e, he, hp⟩ | hfresh
      · exact .inr ⟨e, he, hp.trans hofs.symm⟩
      · exact absurd hofs (hfresh d hd)
  · rcases hup.mem (hent ▸ he) with rfl | he
    · exact hplace
    · exact .inl ⟨e, he, rfl⟩
  · by_cases hne : d.ofs = c.ofs
    · exact ⟨c', h.mem, h.ofs.trans hne.symm⟩
    · rcases h.kept d (hothers d hd hne) with hd' | ⟨-, hd'⟩
      · exact ⟨d, hd', rfl⟩
      · exact hd'

/-- A call puts an entry into a container of a forest. -/
theorem forest (h : Changes C₁ c C₂ cs' c' x) (hf : Forest valid b (C₁ ++ c :: C₂))
    (hup : Updates a b₀ b₁ c c'' x ms) (ho : b'.Owns (cs'.flatMap Container.chunks))
    (hent : c'.entries = c''.entries) (hroot : BTree.Rooted c''.tree → BTree.Rooted c'.tree)
    (hx : x.Rests valid cs' c') : Forest valid b' cs' := by
  have hc : c ∈ C₁ ++ c :: C₂ := by simp
  have hself : x ∈ c'.entries := by
    rw [hent]
    exact (hup.changed_of_sorted (hf.sorted c hc)).self_mem
  -- an entry other than the new one leads to a container that is still there
  have hrests : ∀ d ∈ C₁ ++ c :: C₂, ∀ d' ∈ cs', d'.ofs = d.ofs → d'.isArr = d.isArr →
      ∀ e ∈ d.entries, e ∈ d'.entries → (d' = c' → e ≠ x) → e.Rests valid cs' d' := by
    intro d hd d' hd' hofs hkind e he he' hne
    obtain ⟨hkey, hbehind, it, hh, hr⟩ := hf.rests d hd e he
    rw [← hkind] at hkey hh
    refine ⟨hkey, hofs ▸ hbehind, it, hh, ?_⟩
    cases it with
    | scalar v => exact hr
    | nested k o =>
      obtain ⟨u, hu, rfl, rfl⟩ := hr
      by_cases huc : u = c
      · exact huc ▸ ⟨c', h.mem, h.ofs, h.kind⟩
      · rcases h.kept u (mem_of_mem_mid hu huc) with hu' | ⟨hp, -⟩
        · exact ⟨u, hu', rfl, rfl⟩
        · have hplace : d'.place e = c'.place x := by
            rw [Container.place, hh.ofs _ _ rfl, hp, Container.place, Container.place, h.kind]
          obtain ⟨heq, hex⟩ := Buffer.Owns.eq_of_place ho hd' h.mem he' hself hplace
          exact absurd hex (hne heq)
  constructor
  · exact ho
  · intro d hd e he
    by_cases hdc : d = c'
    · subst hdc
      by_cases hex : e = x
      · exact hex ▸ hx
      · have he₀ : e ∈ c.entries := (hup.mem (hent ▸ he)).resolve_left hex
        exact hrests c hc d hd h.ofs h.kind e he₀ he fun _ => hex
    · rcases (h.only d hd).resolve_left hdc with hd' | ⟨isArr, o, rfl⟩
      · exact hrests d (mem_mid_of_mem hd') d hd rfl rfl e he he fun hdc' => absurd hdc' hdc
      · simp at he
  · intro d hd
    rcases h.only d hd with rfl | hd' | ⟨isArr, o, rfl⟩
    · rw [hent]
      exact hup.sorted (hf.sorted c hc)
    · exact hf.sorted d (mem_mid_of_mem hd')
    · exact .nil
  · intro d hd
    rcases h.only d hd with rfl | hd' | ⟨isArr, o, rfl⟩
    · exact hroot (hup.put.rooted c.shaped (hf.rooted c hc))
    · exact hf.rooted d (mem_mid_of_mem hd')
    · trivial

end Changes

theorem Takes.of_updates (h : Changes C₁ c C₂ cs' c' x) (hf : Forest valid b (C₁ ++ c :: C₂))
    (hup : Updates a b b₁ c c'' x ms) (hent : c'.entries = c''.entries) (htype : x.type = v.tag y)
    (hnames : ∀ e : Entry, e.hash = a.keyHash → e.key = a.key → t.Names c e)
    (hunder : ∀ ofs key, t = .under ofs key →
      c.ofs = ofs ∧ c.isArr = false ∧ a.key = key ∧ a.keyHash = djb2Hash key)
    (hsize : ∀ ofs, t = .behind ofs → c'.size.toNat = (c.size.toNat + 1) % 2 ^ 26)
    (hsmall : ∀ ofs, t = .behind ofs → c.Small → c.entries.length < 6 → c'.Small) :
    Takes y v t b (C₁ ++ c :: C₂) c cs' c' x := by
  have hc : c ∈ C₁ ++ c :: C₂ := by simp
  have hch := hup.changed_of_sorted (hf.sorted c hc)
  refine ⟨h.becomes hf hup hent, ?_, ?_, ?_, htype, ?_, ?_, ?_, ?_, hsize, hsmall⟩
  · intro d hd hne hp
    have hd' : d ∈ C₁ ++ C₂ := mem_of_mem_mid hd (ne_of_apply_ne _ hne)
    exact (h.kept d hd').resolve_right fun hgone => hp hgone.1
  · rw [hent]
    exact hch.self_mem
  · exact hnames x hup.hash_eq hup.key_eq
  · intro e he
    exact hup.mem (hent ▸ he)
  · intro e he
    rw [hent]
    refine (hch.stays he).imp_right fun hcmp => ?_
    obtain ⟨hhash, hkey⟩ := SetArgs.eq_of_cmp hcmp
    exact hnames e hhash hkey
  · rw [hent]
    exact hch.length_le
  · rintro ofs key ht hr hord
    obtain ⟨rfl, hca, rfl, hhash⟩ := hunder ofs key ht
    obtain ⟨D₁, D₂, -, ho⟩ := hf.focus hc
    have hroutes : ∀ m ∈ ms, a.Routes m := Container.routes ho hca hup hhash hr
    rw [hent]
    refine ⟨hup.ordered hord hroutes, fun e he hkey => ?_⟩
    refine ((hup.changed (hord.strict _ _) hroutes).mem_iff.mp he).resolve_right ?_
    rintro ⟨he, hne⟩
    refine hne (Entry.cmp_eq_eq_iff.mpr ?_)
    rw [Entry.filed, ((hf.rests c hc e he).key hca).2, hkey, hhash]

theorem Container.toNat_size_succ (c c' : Container) :
    (c'.withSize (c.size + 1)).size.toNat = (c.size.toNat + 1) % 2 ^ 26 := by
  have hlt : c.size.toNat < 2 ^ 26 := by
    rw [Container.size, Block.size, Packed.toNat_size]
    have := c.tree.label.sizeKc.toNat_lt
    omega
  rw [Container.toNat_size_withSize, UInt32.toNat_add]
  simp only [UInt32.reduceToNat]
  omega

/-! ## What calls do to a forest -/

namespace Forest

theorem ofs_lt_of_updates (hf : Forest valid b cs) (hc : c ∈ cs) (hup : Updates a b b₁ c c'' x ms) :
    c.ofs < x.ofs := by
  rcases hup.place with hle | ⟨e, he, -, hofs⟩
  · exact (hf.ofs_lt_usedSize hc).trans_le hle
  · exact hofs ▸ (hf.rests c hc e he).behind

theorem takes_put (hf : Forest valid b cs) (hc : c ∈ cs) {a : Atom}
    (ht : t.Admits valid homes b (.atom a) c) (ha : (a.scalar y).atom.Valid valid)
    (hfin : (t.put b (a.scalar y)).usedSize < 2 ^ 32) :
    ∃ cs' c' x, Forest valid (t.put b (a.scalar y)) cs' ∧
      Takes y (.atom a) t b cs c cs' c' x := by
  obtain ⟨C₁, C₂, rfl, ho⟩ := hf.focus hc
  cases t with
  | here => exact ht.elim
  | under ofs key =>
    obtain ⟨rfl, hca, hk, hkey, -⟩ := ht
    obtain ⟨x, c', ms, hown, hup⟩ := Container.setScalar ho hca hk (a.scalar y) hfin
    have hx : x.Holds c'.isArr (.scalar (a.scalar y)) :=
      hup.holds (setArgs_carries key _) (by simp)
    have hxkey : x.key = key := hup.key_eq
    have hch : Changes C₁ c C₂ (C₁ ++ c' :: C₂) c' x := .of_mid hup.ofs hup.kind x
    refine ⟨C₁ ++ c' :: C₂, c', x, ?_, ?_⟩
    · refine hch.forest hf hup (Buffer.Owns.perm hown (World.chunks_mid_perm c' C₁ C₂)) rfl id ?_
      refine ⟨fun _ => ⟨hxkey ▸ hkey, hup.hash_eq.trans (hxkey ▸ rfl)⟩, ?_, _, hx, ha⟩
      rw [hup.ofs]
      exact hf.ofs_lt_of_updates hc hup
    · refine .of_updates hch hf hup rfl hx.type (fun _ _ => id) ?_ (by simp) (by simp)
      rintro _ _ ⟨⟩
      exact ⟨rfl, hca, rfl, rfl⟩
  | behind ofs =>
    obtain ⟨rfl, hca, -⟩ := ht
    obtain ⟨x, c', ms, b₁, hown, hup⟩ := Container.arrAppend ho hca (a.scalar y) hfin
    have hca' : (c'.withSize (c.size + 1)).isArr = true := hup.kind.trans hca
    have hx : x.Holds (c'.withSize (c.size + 1)).isArr (.scalar (a.scalar y)) :=
      hup.holds (appendArgs_carries _ _) (by simp)
    have hofs : (c'.withSize (c.size + 1)).ofs = c.ofs := (Container.ofs_withSize _ _).trans hup.ofs
    have hent := Container.entries_withSize c' (c.size + 1)
    have hch : Changes C₁ c C₂ (C₁ ++ c'.withSize (c.size + 1) :: C₂)
        (c'.withSize (c.size + 1)) x :=
      .of_mid hofs hup.kind x
    refine ⟨C₁ ++ c'.withSize (c.size + 1) :: C₂, c'.withSize (c.size + 1), x, ?_, ?_⟩
    · refine hch.forest hf hup (Buffer.Owns.perm hown (World.chunks_mid_perm _ C₁ C₂)) hent
        (BTree.Rooted.setRoot · _) ?_
      refine ⟨fun h => absurd (hca'.symm.trans h) (by decide), ?_, _, hx, ha⟩
      rw [hofs]
      exact hf.ofs_lt_of_updates hc hup
    · refine .of_updates hch hf hup hent hx.type (fun _ h _ => h) (by simp)
        (fun _ _ => c.toNat_size_succ c') fun _ _ hs hn => hs.append hn hup fun hh => ?_
      exact hs.slack.arrAppend ho hca hs.below hn _ hown hofs hh

theorem clears_of_fresh (ho : b.Owns (c.chunks ++ (C₁ ++ C₂).flatMap Container.chunks))
    (hca : c.isArr = false) {key : List UInt8} (hno : ∀ e ∈ c.entries, e.key ≠ key) :
    b.Clears homes c.ofs key := by
  intro s hs _ hkey
  rw [Container.slots ho] at hs
  obtain ⟨e, he, rfl⟩ := List.mem_map.mp hs
  obtain ⟨hheld, hread⟩ := (Container.seen ho).entry he
  rw [hca] at hheld hread
  exact absurd ((hheld.storedKey hread).symm.trans hkey) (hno e he)

theorem room_of_clears (hf : Forest valid b (C₁ ++ c :: C₂)) (hca : c.isArr = false)
    {key : List UInt8} (hclear : b.Clears homes c.ofs key) (hhomes : Housed (C₁ ++ c :: C₂) homes)
    (he : e ∈ c.entries) (hhash : e.hash = djb2Hash key) (hkey : e.key = key)
    (hl : (valueBytes e.type e.val).length = 1) :
    Container.Room b c (((C₁ ++ C₂).filter fun d => d.ofs ≠ c.place e).flatMap Container.chunks)
      key e := by
  have hc : c ∈ C₁ ++ c :: C₂ := by simp
  obtain ⟨D₁, D₂, -, ho⟩ := hf.focus hc
  obtain ⟨hheld, hread⟩ := (Container.seen ho).entry he
  rw [hca] at hheld hread
  have hs : e.slot ∈ b.slots c.ofs := by
    rw [Container.slots ho]
    exact List.mem_map_of_mem he
  have hplace : c.place e = e.valueOfs false + 1 := by rw [Container.place, hca]
  have hcase := hclear _ hs hhash ((hheld.storedKey hread).trans hkey)
  rw [show e.slot.2 = e.ofs from rfl, hheld.skipKey hread, hheld.existingTotalLen hread,
    ← hplace] at hcase
  have hmem : ∀ k ∈ c.chunks ++
      ((C₁ ++ C₂).filter fun d => d.ofs ≠ c.place e).flatMap Container.chunks,
      ∃ d ∈ C₁ ++ c :: C₂, d.ofs ≠ c.place e ∧ k ∈ d.chunks := by
    intro k hk
    rcases List.mem_append.mp hk with hk | hk
    · exact ⟨c, hc, (hf.lt_place hc he).ne, hk⟩
    · obtain ⟨d, hd, hk⟩ := List.mem_flatMap.mp hk
      obtain ⟨hd, hne⟩ := List.mem_filter.mp hd
      exact ⟨d, mem_mid_of_mem hd, of_decide_eq_true hne, hk⟩
  rcases hcase hl with ⟨hhome, hzero⟩ | ⟨hlast, hmed⟩
  · obtain ⟨d, hd, hofs⟩ := hhomes _ hhome
    have hlabel := d.tree.label_chunk_mem d.isArr
    have hdofs : d.tree.label.ofs = d.ofs := rfl
    refine ⟨fun k hk => ?_, fun i hi => ?_, .inr ?_⟩
    · obtain ⟨d', hd', hne, hk⟩ := hmem k hk
      have hap := Buffer.Owns.chunks_apart hf.owns hd hd'
        (fun heq => hne (heq ▸ hofs)) _ hlabel k hk
      simp only [Chunk.Apart, Chunk.stop, Block.length_chunk, Block.ofs_chunk] at hap ⊢
      omega
    · have hv := congrArg (fun bs => view bs i) hzero
      rw [view_slice _ _ hi, view_replicate_zero] at hv
      rwa [show e.valueOfs false + 1 + 88 = e.valueOfs false + 89 from rfl]
    · have hle := hf.owns.below _ (List.mem_flatMap.mpr ⟨d, hd, hlabel⟩)
      simp only [Chunk.stop, Block.length_chunk, Block.ofs_chunk] at hle
      omega
  · refine ⟨fun k hk => .inr ?_, fun i hi => hf.owns.blank _ (by omega), .inl hmed⟩
    obtain ⟨d, hd, -, hk⟩ := hmem k hk
    have hle := hf.owns.below k (List.mem_flatMap.mpr ⟨d, hd, hk⟩)
    omega

/-- A container is created under a key where there is room. -/
theorem exists_creates (hf : Forest valid b (C₁ ++ c :: C₂)) (hca : c.isArr = false)
    {key : List UInt8} (hk : key.length ≤ 62) (hclear : b.Clears homes c.ofs key)
    (hhomes : Housed (C₁ ++ c :: C₂) homes)
    (hfin : (b.setContainer c.ofs key isArr).2.usedSize < 2 ^ 32) :
    ∃ x c' ms, c.Creates b c'
      (((C₁ ++ C₂).filter fun d => d.ofs ≠ c.place x).flatMap Container.chunks) key isArr x ms := by
  have hc : c ∈ C₁ ++ c :: C₂ := by simp
  have ho : b.Owns (c.chunks ++ (C₁ ++ C₂).flatMap Container.chunks) :=
    Buffer.Owns.perm hf.owns (World.chunks_mid_perm c C₁ C₂).symm
  have hsub : ∀ o, (((C₁ ++ C₂).filter fun d => d.ofs ≠ o).flatMap Container.chunks).Sublist
      ((C₁ ++ C₂).flatMap Container.chunks) := fun o => List.filter_sublist.flatMap _
  have hplace : ∀ e, c.place e = e.valueOfs false + 1 := fun e => by rw [Container.place, hca]
  obtain ⟨x, c', ms, b', heq, -, hown, hup⟩ := Container.setContainer_eq ho hca hk hfin
  rcases hup.placed.place with ⟨-, hend⟩ | ⟨e, he, hcmp, hofs, hl⟩
  · have hv := Container.valueOfs_kind hup.placed.eq rfl rfl hend
    refine ⟨x, c', ms, congrArg Prod.fst heq, ?_, b', hup⟩
    rw [heq]
    exact Owned.sublist (Container.owns_makeNode _ hown hv)
      ((((hsub (c.place x)).append_left c'.chunks)).append_left _)
  · have hlen : (setArgs key (kindOf isArr) []).valTotalLen = 1 := by cases isArr <;> rfl
    obtain ⟨hhash, hkey⟩ := SetArgs.eq_of_cmp hcmp
    have hroom := hf.room_of_clears hca hclear hhomes he hhash hkey (hl.trans hlen)
    have hres : (b.setContainer c.ofs key isArr).1 = some (e.valueOfs false + 1) := by
      have hxkey : x.key = e.key := hup.key_eq.trans hkey.symm
      rw [heq, Entry.valueOfs, Entry.valueOfs, hofs, hxkey]
    have hne := fun k hk => flatMap_chunks_ne_nil (C₁ ++ C₂) k ((hsub (c.place e)).subset hk)
    obtain ⟨x, c', ms, hcr⟩ := Container.setContainer_over
      (Owned.sublist ho ((hsub (c.place e)).append_left _)) hca hk he hroom hres hne hfin
    have hxe : c.place x = c.place e := by
      rw [hplace, hplace]
      exact Option.some_inj.mp (hcr.result.symm.trans hres)
    rw [← hxe] at hcr
    exact ⟨x, c', ms, hcr⟩

/-- An array or an object has been made behind the entry `x`. -/
structure Opens (valid : List UInt8 → Prop) (y : Yyjson) (v : Json) (t : Target) (isArr : Bool)
    (b : Buffer) (cs : List Container) (c : Container) (o : ℕ) (b' : Buffer) (cs' : List Container)
    (c' : Container) (x : Entry) : Prop where
  result : t.container b isArr = (some o, b')
  forest : Forest valid b' cs'
  takes : Takes y v t b cs c cs' c' x
  empty : .empty isArr o ∈ cs'
  behind : c.ofs < o
  place : c.place x = o
  holds : x.Holds c'.isArr (.nested isArr o)

theorem exists_opens (hf : Forest valid b cs) (hc : c ∈ cs) (hhomes : Housed cs homes)
    (ht : t.Admits valid homes b v c) (hv : v.tag y = kindOf isArr) (hatom : ¬ v.IsAtom)
    (hfin : (t.container b isArr).2.usedSize < 2 ^ 32) :
    ∃ o b' cs' c' x, Opens valid y v t isArr b cs c o b' cs' c' x := by
  obtain ⟨C₁, C₂, rfl, ho⟩ := hf.focus hc
  cases t with
  | here => exact ht.elim
  | under ofs key =>
    obtain ⟨rfl, hca, hk, hkey, hclear⟩ := ht
    obtain ⟨x, c', ms, hres, hown, b₁, hup⟩ :=
      hf.exists_creates hca hk (hclear.resolve_left hatom) hhomes
        (show (b.setContainer c.ofs key isArr).2.usedSize < 2 ^ 32 from hfin)
    have hca' : c'.isArr = false := hup.kind.trans hca
    have hplace : x.valueOfs false + 1 = c.place x := by rw [Container.place, hca]
    rw [hplace] at hres hown
    have hx : x.Holds c'.isArr (.nested isArr (c.place x)) := by
      refine hup.holds (setArgs_carries_kind key isArr _) fun k o h => ?_
      obtain ⟨-, rfl⟩ := Item.nested.inj h
      rw [hca', hplace]
    have hxkey : x.key = key := hup.key_eq
    have hch : Changes C₁ c C₂ (.empty isArr (c.place x) :: c' ::
        (C₁ ++ C₂).filter fun d => d.ofs ≠ c.place x) c' x := .of_made hup.ofs hup.kind isArr rfl
    have hbehind := hf.ofs_lt_of_updates hc hup
    refine ⟨c.place x, _,
      .empty isArr (c.place x) :: c' :: (C₁ ++ C₂).filter fun d => d.ofs ≠ c.place x, c', x,
      Prod.ext hres rfl, ?_, ?_, List.mem_cons_self, hbehind.trans (c.place_bounds x).1, rfl, hx⟩
    · refine hch.forest hf hup ?_ rfl id ?_
      · rw [List.flatMap_cons, List.flatMap_cons]
        exact hown
      · refine ⟨fun _ => ⟨hxkey ▸ hkey, hup.hash_eq.trans (hxkey ▸ rfl)⟩, ?_, _, hx, _,
          List.mem_cons_self, rfl, rfl⟩
        rw [hup.ofs]
        exact hbehind
    · refine .of_updates hch hf hup rfl (hx.type.trans hv.symm)
        (fun _ _ => id) ?_ (by simp) (by simp)
      rintro _ _ ⟨⟩
      exact ⟨rfl, hca, rfl, rfl⟩
  | behind ofs =>
    obtain ⟨rfl, hca, hall⟩ := ht
    have hall := hall.resolve_left hatom
    obtain ⟨x, c', ms, b₁, hres, hown, hup⟩ := Container.arrAppendContainer ho hca hall hfin
    have hca' : (c'.withSize (c.size + 1)).isArr = true := hup.kind.trans hca
    have hplace : x.valueOfs true + 1 = c.place x := by rw [Container.place, hca]
    rw [hplace] at hres hown
    have hx : x.Holds (c'.withSize (c.size + 1)).isArr (.nested isArr (c.place x)) := by
      refine hup.holds (appendArgs_carries_kind _ isArr _) fun k o h => ?_
      obtain ⟨-, rfl⟩ := Item.nested.inj h
      rw [hca', hplace]
    have hofs : (c'.withSize (c.size + 1)).ofs = c.ofs := (Container.ofs_withSize _ _).trans hup.ofs
    have hent := Container.entries_withSize c' (c.size + 1)
    have hch : Changes C₁ c C₂ (.empty isArr (c.place x) :: c'.withSize (c.size + 1) ::
        (C₁ ++ C₂).filter fun d => d.ofs ≠ c.place x) (c'.withSize (c.size + 1)) x :=
      .of_made hofs hup.kind isArr rfl
    have hsub : (((C₁ ++ C₂).filter fun d => d.ofs ≠ c.place x).flatMap Container.chunks).Sublist
        ((C₁ ++ C₂).flatMap Container.chunks) := List.filter_sublist.flatMap _
    have hbehind := hf.ofs_lt_of_updates hc hup
    refine ⟨c.place x, _, .empty isArr (c.place x) :: c'.withSize (c.size + 1) ::
        (C₁ ++ C₂).filter fun d => d.ofs ≠ c.place x, c'.withSize (c.size + 1), x, hres, ?_, ?_,
      List.mem_cons_self, hbehind.trans (c.place_bounds x).1, rfl, hx⟩
    · refine hch.forest hf hup ?_ hent (BTree.Rooted.setRoot · _) ?_
      · rw [List.flatMap_cons, List.flatMap_cons]
        exact Owned.sublist hown ((hsub.append_left _).append_left _)
      · refine ⟨fun h => absurd (hca'.symm.trans h) (by decide), ?_, _, hx, _,
          List.mem_cons_self, rfl, rfl⟩
        rw [hofs]
        exact hbehind
    · refine .of_updates hch hf hup hent (hx.type.trans hv.symm) (fun _ h _ => h) (by simp)
        (fun _ _ => c.toNat_size_succ c') fun _ _ hs hn => hs.append hn hup fun hh => ?_
      exact hs.slack.arrAppendContainer ho hca hall hn
        (Buffer.Owns.perm hown (List.perm_append_comm_assoc _ _ _)) hofs hh

end Forest

/-! ## What stays as it is when a value is taken -/

namespace Takes

variable (ht : Takes y v t b cs c cs' c' x) (hf : Forest valid b cs) (hf' : Forest valid b' cs')

include ht hf'

theorem mem_of_place (hd : d ∈ cs') (he : e ∈ d.entries) (hne : d = c' → e ≠ x) (hu : u ∈ cs)
    (hofs : u.ofs ≠ c.ofs) (hp : d.place e = u.ofs) : u ∈ cs' := by
  refine ht.spared u hu hofs fun hux => ?_
  have hplace : d.place e = c'.place x := by rw [hp, hux, ht.toBecomes.place_eq]
  obtain ⟨hdc, hex⟩ := Buffer.Owns.eq_of_place hf'.owns hd ht.mem he ht.self_mem hplace
  exact hne hdc hex

theorem blocked (hd : d ∈ cs') (hlt : c.ofs < d.ofs) (hb : d.Blocked cs) : d.Blocked cs' := by
  induction hb with
  | arr hda hs he hne => exact .arr hda hs he hne
  | @obj d u e hda hn he hh hdu hu _ ih =>
    have hp : d.place e = u.ofs := by rw [Container.place, hda, hh.ofs _ _ rfl]
    have hdc : d = c' → e ≠ x := fun heq => absurd (heq ▸ ht.ofs) hlt.ne'
    have hu' := mem_of_place ht hf' hd he hdc hu (hlt.trans hdu).ne' hp
    exact .obj hda hn he hh hdu hu' (ih hu' (hlt.trans hdu))

theorem leads (he : e ∈ c'.entries) (hne : e ≠ x) (hl : e.Leads cs c) : e.Leads cs' c' := by
  obtain ⟨d, hd, hlt, hh, hb⟩ := hl
  rw [← ht.kind] at hh
  have hd' := mem_of_place ht hf' ht.mem he (fun _ => hne) hd hlt.ne' (hh.ofs _ _ rfl)
  exact ⟨d, hd', ht.ofs ▸ hlt, hh, blocked ht hf' hd' hlt hb⟩

include hf

theorem mem_of_holds (hd : d ∈ cs) (hd' : d' ∈ cs') (hofs : d'.ofs = d.ofs)
    (hkind : d'.isArr = d.isArr) (hle : c.ofs ≤ d.ofs) (he : e ∈ d.entries) (he' : e ∈ d'.entries)
    (hne : d' = c' → e ≠ x) (hu : u ∈ cs') (hh : e.Holds d'.isArr (.nested u.isArr u.ofs)) :
    u ∈ cs ∧ c.ofs < u.ofs := by
  have hp : d'.place e = u.ofs := hh.ofs _ _ rfl
  have hlt : c.ofs < u.ofs := by
    rw [← hp]
    refine (hle.trans_eq hofs.symm).trans_lt (hf'.lt_place hd' he')
  rw [hkind] at hh
  obtain ⟨w, hw, hwofs, -⟩ := hf.exists_of_holds hd he hh
  have hw' := mem_of_place ht hf' hd' he' hne hw (hwofs ▸ hlt.ne') (hp.trans hwofs.symm)
  obtain rfl := Buffer.Owns.eq_of_ofs hf'.owns hw' hu hwofs
  exact ⟨hw, hlt⟩

theorem shown (hd : d ∈ cs) (hd' : d ∈ cs') (hlt : c.ofs < d.ofs) (hs : d.Shown cs) :
    d.Shown cs' := by
  induction hs with
  | arr hda hnull => exact .arr hda hnull
  | @obj d hda _ ih =>
    refine .obj hda fun e he u hu hh => ?_
    have hdc : d = c' → e ≠ x := fun heq => absurd (heq ▸ ht.ofs) hlt.ne'
    obtain ⟨hu', hcu⟩ := mem_of_holds ht hf hf' hd hd' rfl rfl hlt.le he he hdc hu (hda ▸ hh)
    exact ih e he u hu' hh hu' hu hcu

theorem shows (hc : c ∈ cs) (he : e ∈ c.entries) (he' : e ∈ c'.entries) (hne : e ≠ x)
    (hs : e.Shows cs c) : e.Shows cs' c' := by
  intro u hu hh
  obtain ⟨hu', hlt⟩ := mem_of_holds ht hf hf' hc ht.mem ht.ofs ht.kind le_rfl he he'
    (fun _ => hne) hu hh
  exact shown ht hf hf' hu' hu hlt (hs u hu' (ht.kind ▸ hh))

end Takes

theorem Forest.Opens.takes_filled (h : Forest.Opens valid y v t isArr b cs c o b' cs' c' x)
    (hb : Becomes cs' (.empty isArr o) cs'' c'') : Takes y v t b cs c cs'' c' x where
  toBecomes := h.takes.toBecomes.trans_inner h.takes.self_mem h.place h.behind hb
  spared d hd hne hp := by
    refine (hb.kept d (h.takes.spared d hd hne hp) ?_).resolve_right (by simp)
    exact fun ho => hp (ho.trans h.place.symm)
  self_mem := h.takes.self_mem
  names := h.takes.names
  type := h.takes.type
  entries := h.takes.entries
  stays := h.takes.stays
  length_le := h.takes.length_le
  routed := h.takes.routed
  size := h.takes.size
  small := h.takes.small

theorem Json.tag_ne_null (h : ¬ v.IsNull) : v.tag y ≠ .null := by
  cases v with
  | arr | obj => simp [Json.tag]
  | atom a =>
    cases a with
    | null => exact absurd trivial h
    | bool | int | real => simp [Json.tag, Atom.scalar, Scalar.type]
    | str s =>
      simp only [Json.tag, Atom.scalar]
      split <;> simp [Scalar.type]

theorem Atom.Valid.scalar (hy : y.Faithful valid) {a : Atom} (ha : a.Valid valid) :
    (a.scalar y).atom.Valid valid := by
  have h : ((Json.atom a).printed y).Valid valid := Json.Valid.printed hy ha
  rwa [Json.printed, Json.map_atom] at h

end Lite3
