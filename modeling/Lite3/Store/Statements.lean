import Lite3.Store.Document

/-! # Statements

The buffer and the document take the same statements. What the paths of the
world lead to stays what the document has there.
-/

namespace Lite3

open Paths

variable {w : World} {l : Cell} {p p' : Place} {q : List Place} {it : Item} {k : Call}
  {isArr : Bool} {o : ℕ}
  {key : List UInt8} {d : Doc} {Q : Place → Prop} {V : Scalar → Prop} {root : Bool}

namespace World

/-- The paths of the world lead to what the document has, at places in use. -/
structure Represents (Q : Place → Prop) (V : Scalar → Prop) (root : Bool) (w : World) (d : Doc) :
    Prop where
  reached : w.Reached Q V root
  get : ∀ q n, d.get q = some n ↔ ∃ it, w.At q it ∧ it.node = n
  used : ∀ q p, d.get (q ++ [p]) ≠ none → Q p

namespace Represents

theorem sound (h : w.Represents Q V root d) : w.Sound := h.reached.sound

theorem get_of_at (h : w.Represents Q V root d) (hq : w.At q it) : d.get q = some it.node :=
  (h.get q _).mpr ⟨it, hq, rfl⟩

theorem get_concat (h : w.Represents Q V root d) (hq : w.At q (.nested l.isArr l.ofs))
    (hl : l ∈ w.cells)
    (hk : l.isArr = p.isArr) : d.get (q ++ [p]) = (l.itemAt p).map Item.node := by
  cases hi : l.itemAt p with
  | some it => exact h.get_of_at (.sub hq hl hk hi)
  | none =>
    rw [Option.map_none, Option.eq_none_iff_forall_ne_some]
    intro n hn
    obtain ⟨it, hit, -⟩ := (h.get _ n).mp hn
    obtain ⟨l', hl', hq', -, hi'⟩ := at_concat.mp hit
    obtain ⟨-, ho⟩ := Item.nested.inj (hq.item_unique h.sound hq')
    rw [h.sound.unique l hl l' hl' ho.symm, hi] at hi'
    cases hi'

theorem put (h : w.Represents Q V root d) (hp : w.Puts k l p it) (hw : (w.step k).Reached Q V root)
    (hq : w.At q (.nested l.isArr l.ofs)) (hl : l ∈ w.cells) (hk : l.isArr = p.isArr) (hQ : Q p) :
    (w.step k).Represents Q V root (d.store (q ++ [p]) it.node) := by
  have hne : d.get q ≠ none := by simp [h.get_of_at hq]
  refine ⟨hw, fun r n => ?_, fun r p' hr => ?_⟩
  · rw [PathMap.get_store hne]
    simp only [hp.at_iff h.sound hw.sound hq hl hk]
    constructor
    · intro hr
      split at hr
      · next heq => exact ⟨it, Or.inl ⟨heq, rfl⟩, Option.some_inj.mp hr⟩
      · split at hr
        · cases hr
        · next hnot =>
          obtain ⟨it', hit', hn⟩ := (h.get r n).mp hr
          exact ⟨it', Or.inr ⟨hnot, hit'⟩, hn⟩
    · rintro ⟨it', ⟨rfl, rfl⟩ | ⟨hnot, hit'⟩, rfl⟩
      · exact if_pos rfl
      · have hrne : r ≠ q ++ [p] := fun he => hnot (he ▸ List.prefix_refl r)
        rw [if_neg hrne, if_neg hnot]
        exact h.get_of_at hit'
  · rw [PathMap.get_store hne] at hr
    split at hr
    · next heq =>
      obtain ⟨-, rfl⟩ := List.append_singleton_inj.mp heq
      exact hQ
    · split at hr
      · exact absurd rfl hr
      · exact h.used r p' hr

theorem vacant (h : w.Represents Q V root d) (hq : w.At q (.nested l.isArr l.ofs))
    (hl : l ∈ w.cells) (hk : l.isArr = p.isArr) (hv : d.Vacant q p) :
    l.itemAt p = none ∧ ∀ i, p = .index i → i.toNat = l.items.length ∧ i.toNat + 1 < 2 ^ 26 := by
  have hget : ∀ p', p'.isArr = p.isArr → (d.get (q ++ [p']) = none ↔ l.itemAt p' = none) := by
    intro p' hp'
    rw [h.get_concat hq hl (hk.trans hp'.symm), Option.map_eq_none_iff]
  cases p with
  | key key => exact ⟨(hget _ rfl).mp hv, by simp⟩
  | index i =>
    obtain ⟨hbound, hnone, hlow⟩ := hv
    have hnone := (hget (.index i) rfl).mp hnone
    refine ⟨hnone, fun i' he => ?_⟩
    obtain rfl := Place.index.inj he
    refine ⟨le_antisymm ?_ (List.getElem?_eq_none_iff.mp hnone), hbound⟩
    by_contra hlt
    have hj : l.items.length < i.toNat := by omega
    refine hlow _ hj ((hget (.index (.ofNat l.items.length)) rfl).mpr ?_)
    change l.items[(UInt32.ofNat l.items.length).toNat]? = none
    rw [UInt32.toNat_ofNat_of_lt' (show l.items.length < 2 ^ 32 by omega)]
    exact List.getElem?_eq_none le_rfl

end Represents

theorem Sound.routed_of_new (hw : w.Sound) (hl : l ∈ w.cells) (hla : l.isArr = false)
    (hnew : ∀ k, l.fields k ≠ none → djb2Hash k ≠ djb2Hash key) : w.buf.Routed l.ofs key := by
  obtain ⟨cs, hcs⟩ := hw.backed
  obtain ⟨c, R, -, hQ, ho⟩ := hcs.container hl
  have hc : c.isArr = false := hQ.tracks.kind.trans hla
  have hm := hQ.mirrors hc
  rintro s hs hh
  rw [← hQ.tracks.ofs] at hs
  obtain ⟨e, he, hes, -⟩ := Container.entry_of_median ho hc hs
  refine absurd ?_ (hnew e.key (hm.known e he))
  rw [← hm.hashed e he, hes, hh]

/-- The place is a short key that is routed, or the next index. -/
def Admits (w : World) (l : Cell) : Place → Prop
  | .key k => k.length ≤ 62 ∧ w.buf.Routed l.ofs k
  | .index i => i.toNat = l.items.length ∧ i.toNat + 1 < 2 ^ 26

theorem Reached.fills (h : w.Reached Q V root) (hl : l ∈ w.cells)
    (hk : l.isArr = p.isArr) (hQ : Q p) (hp : w.Admits l p) {x : Scalar} (hx : V x)
    (hfin : (w.step (p.put l.ofs x)).buf.usedSize < 2 ^ 32) :
    w.Puts (p.put l.ofs x) l p (.scalar x) ∧ (w.step (p.put l.ofs x)).Reached Q V root := by
  cases p with
  | key key =>
    obtain ⟨hshort, hrouted⟩ := hp
    exact ⟨h.sound.puts_set hl key x,
      h.step ⟨⟨hshort, l, hl, rfl, hk⟩, hfin⟩ trivial hrouted ⟨hQ, hx⟩⟩
  | index i =>
    obtain ⟨hi, hbound⟩ := hp
    exact ⟨puts_append hl hi x,
      h.step ⟨⟨l, hl, rfl, hk, hi ▸ hbound⟩, hfin⟩ trivial trivial ⟨⟨i, hQ⟩, hx⟩⟩

theorem Reached.makes (h : w.Reached Q V root) (hl : l ∈ w.cells)
    (hk : l.isArr = p.isArr) (hQ : Q p)
    (hp : w.Admits l p) (hnone : l.itemAt p = none) (hQ' : ∃ p', Q p' ∧ p'.isArr = isArr)
    (hfin : (w.step (p.create l.ofs isArr)).buf.usedSize < 2 ^ 32) :
    ∃ o, (p.made w.buf l.ofs isArr).1 = some o ∧
      w.Puts (p.create l.ofs isArr) l p (.nested isArr o) ∧
      (w.step (p.create l.ofs isArr)).Reached Q V root := by
  obtain ⟨cs, hcs⟩ := h.sound.backed
  cases p with
  | key key =>
    obtain ⟨hshort, hrouted⟩ := hp
    have hlegal : (Call.create isArr l.ofs key).Legal w := ⟨⟨hshort, l, hl, rfl, hk⟩, hfin⟩
    have hfresh : (Call.create isArr l.ofs key).Fresh w := fun d hd ho => by
      rw [h.sound.unique l hl d hd ho]
      exact hnone
    have hclear := ((hcs.imp fun _ _ he => he.tracks).fresh hfresh hlegal).1
    obtain ⟨o, ho⟩ := h.sound.create_result hlegal hclear hrouted
    exact ⟨o, ho, h.sound.puts_create hl ho, h.step hlegal hclear hrouted ⟨hQ, hQ'⟩⟩
  | index i =>
    obtain ⟨hi, hbound⟩ := hp
    have hlegal : (Call.appendNew isArr l.ofs).Legal w := ⟨⟨l, hl, rfl, hk, hi ▸ hbound⟩, hfin⟩
    obtain ⟨o, ho⟩ := hcs.appended preserved_exact hlegal
    exact ⟨o, ho, puts_appendNew hl hi ho, h.step hlegal trivial trivial ⟨⟨i, hQ⟩, hQ'⟩⟩

namespace Represents

theorem routed (h : w.Represents Q V root d) (hproper : Place.Proper Q)
    (hq : w.At q (.nested l.isArr l.ofs)) (hl : l ∈ w.cells) (hla : l.isArr = false)
    (hkey : Q (.key key)) (hnone : l.fields key = none) : w.buf.Routed l.ofs key := by
  refine h.sound.routed_of_new hl hla fun k hk heq => ?_
  have hget := h.get_concat (p := .key k) hq hl hla
  have hQk : Q (.key k) := h.used q _ (by
    rw [hget, Ne, Option.map_eq_none_iff]
    exact hk)
  obtain rfl := hproper.distinct k key hQk hkey heq
  exact hk hnone

theorem admits (h : w.Represents Q V root d) (hproper : Place.Proper Q)
    (hq : w.At q (.nested l.isArr l.ofs)) (hl : l ∈ w.cells) (hk : l.isArr = p.isArr) (hQ : Q p)
    (hv : d.Vacant q p) : w.Admits l p := by
  obtain ⟨hnone, hindex⟩ := h.vacant hq hl hk hv
  cases p with
  | key key => exact ⟨(hproper.short key hQ).2, h.routed hproper hq hl hk hQ hnone⟩
  | index i => exact hindex i rfl

theorem made (h : w.Represents Q V root d) (hproper : Place.Proper Q)
    (hq : w.At q (.nested l.isArr l.ofs)) (hl : l ∈ w.cells) (hk : l.isArr = p.isArr) (hQ : Q p)
    (hQ' : Q p') (hv : d.Vacant q p)
    (hfin : (w.step (p.create l.ofs p'.isArr)).buf.usedSize < 2 ^ 32) :
    ∃ o, (p.made w.buf l.ofs p'.isArr).1 = some o ∧
      (w.step (p.create l.ofs p'.isArr)).Represents Q V root
        (d.store (q ++ [p]) (.container p'.isArr)) ∧
      (w.step (p.create l.ofs p'.isArr)).At (q ++ [p]) (.nested p'.isArr o) := by
  obtain ⟨o, ho, hputs, hreached⟩ := h.reached.makes hl hk hQ (h.admits hproper hq hl hk hQ hv)
    (h.vacant hq hl hk hv).1 ⟨p', hQ', rfl⟩ hfin
  exact ⟨o, ho, h.put hputs hreached hq hl hk hQ,
    (hputs.at_iff h.sound hreached.sound hq hl hk).mpr (Or.inl ⟨rfl, rfl⟩)⟩

/-- A scalar is assigned to a vacant place, or under a key that is routed. -/
theorem assigned (h : w.Represents Q V root d) (hproper : Place.Proper Q)
    (hq : w.At q (.nested l.isArr l.ofs)) (hl : l ∈ w.cells) (hk : l.isArr = p.isArr) (hQ : Q p)
    {x : Scalar} (hx : V x) (hv : d.Vacant q p ∨ ∃ key, p = .key key ∧ w.buf.Routed l.ofs key)
    (hfin : ((Value.of l.ofs p).assign w.buf x).usedSize < 2 ^ 32) :
    ∃ w' : World, w'.buf = (Value.of l.ofs p).assign w.buf x ∧
      w'.Represents Q V root (d.store (q ++ [p]) (.scalar x)) := by
  have hassign : (Value.of l.ofs p).assign w.buf x = (w.step (p.put l.ofs x)).buf := by
    cases p with
    | key key => exact if_pos (hproper.short key hQ).1
    | index i => rfl
  have hp : w.Admits l p := by
    rcases hv with hv | ⟨key, rfl, hr⟩
    · exact h.admits hproper hq hl hk hQ hv
    · exact ⟨(hproper.short key hQ).2, hr⟩
  rw [hassign] at hfin ⊢
  obtain ⟨hputs, hreached⟩ := h.reached.fills hl hk hQ hp hx hfin
  exact ⟨_, rfl, h.put hputs hreached hq hl hk hQ⟩

end Represents

/-- The expression stands at a place of a container, and so does the path in the document. -/
inductive Comes (Q : Place → Prop) (V : Scalar → Prop) (root : Bool) (P : Place → Prop) :
    Option Value × World → Doc × List Place → Prop

  | mk {w : World} {d : Doc} {q : List Place} {p : Place} {l : Cell} :
    w.Represents Q V root d → l ∈ w.cells → w.At q (.nested l.isArr l.ofs) → l.isArr = p.isArr →
    p ≠ .key [] → P p → Comes Q V root P (some (.of l.ofs p), w) (d, q ++ [p])

variable {P : Place → Prop} {s : Option Value × World} {t : Doc × List Place} {path : List Place}

theorem usedSize_le_follow (s : Option Value × World) (path : List Place) :
    s.2.buf.usedSize ≤ (path.foldl follow s).2.buf.usedSize := by
  induction path generalizing s with
  | nil => exact le_rfl
  | cons p path ih =>
    refine le_trans ?_ (ih (follow s p))
    rcases s with ⟨_ | v, w⟩
    · exact le_rfl
    · exact usedSize_le_run w _

theorem Represents.first (h : w.Represents Q V root d) (hp : p ≠ .key []) (hP : P p)
    (hd : d.get [] = some (.container p.isArr)) :
    Comes Q V root P (follow (some .root, w) p) (Doc.enter (d, []) p) ∧
      (follow (some .root, w) p).2 = w ∧ (Doc.enter (d, []) p).1 = d := by
  obtain ⟨it, hit, hn⟩ := (h.get _ _).mp hd
  obtain ⟨l, hl, ho, -, rfl⟩ := at_nil.mp hit
  have hka : l.isArr = p.isArr := Node.container.inj hn
  have hfollow : follow (some .root, w) p = (some (.of l.ofs p), w) := by
    rw [follow, Place.indexed_some, ho]
    rfl
  rw [hfollow, Doc.enter, if_pos hd]
  exact ⟨.mk h hl (ho ▸ hit) hka hp hP, rfl, rfl⟩

theorem Comes.found (h : Comes Q V root P s t) (hp : p' ≠ .key []) (hP : P p')
    (hd : t.1.get t.2 = some (.container p'.isArr)) :
    Comes Q V root P (follow s p') (Doc.enter t p') ∧ (follow s p').2 = s.2 ∧
      (Doc.enter t p').1 = t.1 := by
  obtain @⟨w, d, q, p, l, h, hl, hq, hka, hne, -⟩ := h
  obtain ⟨it, hit, hn⟩ := (h.get _ _).mp hd
  obtain ⟨o, rfl⟩ : ∃ o, it = .nested p'.isArr o := by
    cases it with
    | scalar v => cases hn
    | nested a o => exact ⟨o, by rw [Node.container.inj hn]⟩
  obtain ⟨l', hl', hq', -, hi⟩ := at_concat.mp hit
  obtain ⟨-, ho⟩ := Item.nested.inj (hq.item_unique h.sound hq')
  obtain rfl := h.sound.unique l hl l' hl' ho.symm
  have hf : p.found w.buf l'.ofs p'.isArr = .ok o := by
    rcases h.sound.faithful.found hl hka p'.isArr with ⟨o', hi', hf⟩ | ⟨hno, -⟩
    · rw [hi'] at hi
      obtain ⟨-, rfl⟩ := Item.nested.inj (Option.some_inj.mp hi)
      exact hf
    · exact absurd hi (hno o)
  have hfollow : follow (some (.of l'.ofs p), w) p' = (some (.of o p'), w) := by
    rw [follow, Place.indexed_some, Place.currentNode_of hne, Place.makes_of hne, hf]
    rfl
  obtain ⟨e, he, rfl, hea⟩ := hit.cell h.sound
  rw [hfollow, Doc.enter, if_pos hd]
  exact ⟨.mk h he (hea ▸ hit) hea hp hP, rfl, rfl⟩

theorem Comes.made (h : Comes Q V root Q s t)
    (hproper : Place.Proper Q) (hQ' : Q p') (hv : t.1.VacantAt t.2)
    (hfin : (follow s p').2.buf.usedSize < 2 ^ 32) :
    Comes Q V root Q (follow s p') (Doc.enter t p') := by
  obtain @⟨w, d, q, p, l, h, hl, hq, hka, hne, hQ⟩ := h
  obtain ⟨p₀, hp₀, hv⟩ := hv
  rw [List.getLast?_concat, Option.mem_some_iff] at hp₀
  rw [List.dropLast_concat, ← hp₀] at hv
  have hnone := (h.vacant hq hl hka hv).1
  obtain ⟨e, hf⟩ : ∃ e, p.found w.buf l.ofs p'.isArr = .error (.exception e) := by
    rcases h.sound.faithful.found hl hka p'.isArr with ⟨o, hi, -⟩ | ⟨-, hf⟩
    · rw [hnone] at hi
      cases hi
    · exact hf
  have hmakes : (Value.of l.ofs p).makes w.buf p'.isArr = some (p.create l.ofs p'.isArr) := by
    rw [Place.makes_of hne, hf]
  have hstep : (follow (some (.of l.ofs p), w) p').2 = w.step (p.create l.ofs p'.isArr) := by
    rw [follow, hmakes]
    rfl
  rw [hstep] at hfin
  obtain ⟨o, ho, hrep, hat⟩ := h.made hproper hq hl hka hQ hQ' hv hfin
  have hfollow : follow (some (.of l.ofs p), w) p' =
      (some (.of o p'), w.step (p.create l.ofs p'.isArr)) := by
    refine Prod.ext ?_ hstep
    rw [follow, Place.indexed_some, Place.currentNode_of hne, hf, Buffer.orMake, ho]
    rfl
  have hget : d.get (q ++ [p]) ≠ some (.container p'.isArr) := by
    rw [h.get_concat hq hl hka, hnone]
    simp
  obtain ⟨d', hd', rfl, hda⟩ := hat.cell hrep.sound
  rw [hfollow, Doc.enter, if_neg hget]
  exact .mk hrep hd' (hda ▸ hat) hda (hproper.ne_nil hQ') hQ'

/-- An expression whose containers are there or can be made. -/
theorem Comes.follows (h : Comes Q V root Q s t)
    (hproper : Place.Proper Q) (hok : Loop.Allowed Doc.enter (Doc.Enters Q) t path)
    (hfin : (path.foldl follow s).2.buf.usedSize < 2 ^ 32) :
    Comes Q V root Q (path.foldl follow s) (path.foldl Doc.enter t) := by
  induction path generalizing s t with
  | nil => exact h
  | cons p path ih =>
    obtain ⟨⟨hQ, hcase⟩, hrest⟩ := hok
    refine ih ?_ hrest hfin
    rcases hcase with hd | hv
    · exact (h.found (hproper.ne_nil hQ) hQ hd).1
    · exact h.made hproper hQ hv ((usedSize_le_follow _ path).trans_lt hfin)

theorem Represents.follows (h : w.Represents Q V root d) (hproper : Place.Proper Q)
    (hne : path ≠ []) (hok : Loop.Allowed Doc.enter (Doc.Enters Q) (d, []) path)
    (hfin : (path.foldl follow (some .root, w)).2.buf.usedSize < 2 ^ 32) :
    Comes Q V root Q (path.foldl follow (some .root, w)) (path.foldl Doc.enter (d, [])) := by
  cases path with
  | nil => exact absurd rfl hne
  | cons p path =>
    obtain ⟨⟨hQ, hcase⟩, hrest⟩ := hok
    have hd := hcase.resolve_right fun ⟨_, hp, _⟩ => by cases hp
    exact (h.first (hproper.ne_nil hQ) hQ hd).1.follows hproper hrest hfin

theorem Comes.leads (h : Comes Q V root P s t) (hP : ∀ p, P p)
    (hok : Loop.Allowed Doc.enter (fun s p => p ≠ .key [] ∧ s.1.get s.2 = some (.container p.isArr))
      t
      path) : Comes Q V root P (path.foldl follow s) (path.foldl Doc.enter t) ∧
        (path.foldl follow s).2 = s.2 ∧ (path.foldl Doc.enter t).1 = t.1 := by
  induction path generalizing s t with
  | nil => exact ⟨h, rfl, rfl⟩
  | cons p path ih =>
    obtain ⟨⟨hp, hd⟩, hrest⟩ := hok
    obtain ⟨h', hs, ht⟩ := h.found hp (hP p) hd
    obtain ⟨h'', hs', ht'⟩ := ih h' hrest
    exact ⟨h'', hs'.trans hs, ht'.trans ht⟩

theorem Represents.leads (h : w.Represents Q V root d) (hne : path ≠ []) (hok : d.Leads path) :
    Comes Q V root (fun _ => True) (path.foldl follow (some .root, w))
      (path.foldl Doc.enter (d, [])) ∧
      (path.foldl follow (some .root, w)).2 = w ∧ (path.foldl Doc.enter (d, [])).1 = d := by
  cases path with
  | nil => exact absurd rfl hne
  | cons p path =>
    obtain ⟨⟨hp, hd⟩, hrest⟩ := hok
    obtain ⟨h', hs, ht⟩ := h.first hp (P := fun _ => True) trivial hd
    obtain ⟨h'', hs', ht'⟩ := h'.leads (fun _ => trivial) hrest
    exact ⟨h'', hs'.trans hs, ht'.trans ht⟩

end World

theorem Doc.snd_foldl_enter (t : Doc × List Place) (path : List Place) :
    (path.foldl enter t).2 = t.2 ++ path := by
  induction path generalizing t with
  | nil => simp
  | cons p path ih =>
    rw [List.foldl_cons, ih, enter]
    simp

theorem Value.assigned_eq (b : Buffer) (v : Value) (x : Literal) :
    v.assigned b x = v.assign b x.scalar := by
  cases x <;> rfl

namespace Buffer

variable {b : Buffer} {v : Value}

theorem exec_none (b : Buffer) (path : List Place) :
    b.exec ⟨path, none⟩ = (path.foldl Value.indexed (some .root, b)).2 := by
  rw [exec]
  rcases path.foldl Value.indexed (some .root, b) with ⟨_ | _, _⟩ <;> rfl

theorem exec_some {path : List Place} {b' : Buffer}
    (h : path.foldl Value.indexed (some .root, b) = (some v, b')) (x : Literal) :
    b.exec ⟨path, some x⟩ = v.assign b' x.scalar := by
  rw [exec]
  simp only [h]
  exact v.assigned_eq b' x

theorem usedSize_le_assign (b : Buffer) (v : Value) (x : Scalar) :
    b.usedSize ≤ (v.assign b x).usedSize := by
  unfold Value.assign
  split
  · exact usedSize_le_setImpl _ _ _
  · split
    · exact usedSize_le_arrAppend b _ x
    · exact le_rfl

theorem Snug.assign (h : b.Snug) (v : Value) (x : Scalar) : (v.assign b x).Snug := by
  unfold Value.assign
  split
  · exact h.runCalls [.set v.parentOfs v.key x]
  · split
    · exact h.runCalls [.append v.parentOfs x]
    · exact h

theorem Snug.follow {s : Option Value × World} (h : s.2.buf.Snug) (path : List Place) :
    (path.foldl World.follow s).2.buf.Snug := by
  induction path generalizing s with
  | nil => exact h
  | cons p path ih =>
    refine ih ?_
    rcases s with ⟨_ | v, w⟩
    · exact h
    · exact (w.buf_run _).symm ▸ h.runCalls _

theorem Snug.exec (h : b.Snug) (st : Statement) : (b.exec st).Snug := by
  obtain ⟨path, value⟩ := st
  have hsnug := Snug.follow (s := (some .root, ⟨b, []⟩)) h path
  have heval := World.indexed_foldl (some .root, ⟨b, []⟩) path
  generalize path.foldl World.follow (some .root, ⟨b, []⟩) = s at hsnug heval
  obtain ⟨v, w⟩ := s
  rw [Buffer.exec, heval]
  cases v with
  | none => exact hsnug
  | some v =>
    cases value with
    | none => exact hsnug
    | some x =>
      dsimp only
      rw [v.assigned_eq]
      exact hsnug.assign v x.scalar

theorem usedSize_le_exec (b : Buffer) (st : Statement) : b.usedSize ≤ (b.exec st).usedSize := by
  obtain ⟨path, value⟩ := st
  have hle := World.usedSize_le_follow (some .root, ⟨b, []⟩) path
  have heval := World.indexed_foldl (some .root, ⟨b, []⟩) path
  generalize path.foldl World.follow (some .root, ⟨b, []⟩) = s at hle heval
  obtain ⟨v, w⟩ := s
  rw [exec, heval]
  cases v with
  | none => exact hle
  | some v =>
    cases value with
    | none => exact hle
    | some x =>
      refine hle.trans ?_
      dsimp only
      rw [v.assigned_eq]
      exact usedSize_le_assign _ _ _

end Buffer

namespace World

/-- Statements that fit keep the document represented. -/
theorem Represents.exec (h : w.Represents Q V root d) (hproper : Place.Proper Q) {st : Statement}
    (hfit : st.Fits Q (w.buf, d)) (hV : ∀ x ∈ st.value, V x.scalar)
    (hfin : (w.buf.exec st).usedSize < 2 ^ 32) :
    ∃ w' : World, w'.buf = w.buf.exec st ∧ w'.Represents Q V root (d.exec st) := by
  obtain ⟨path, value⟩ := st
  obtain ⟨hpath, hvalue⟩ := hfit
  dsimp only at hpath hvalue
  by_cases hne : path = []
  · subst hne
    refine ⟨w, ?_, ?_⟩
    · cases value with
      | none => rfl
      | some x => cases x <;> rfl
    · cases value with
      | none => exact h
      | some x =>
        have hstore : d.store [] (.scalar x.scalar) = d := dif_neg (by simp)
        have hexec : d.exec ⟨[], some x⟩ = d := hstore
        rwa [hexec]
  · have heval := indexed_foldl (some .root, w) path
    have hsnd := Doc.snd_foldl_enter (d, []) path
    cases value with
    | none =>
      rw [Buffer.exec_none, heval] at hfin ⊢
      have hcomes := h.follows hproper hne hpath hfin
      refine ⟨_, rfl, ?_⟩
      rw [Doc.exec]
      generalize path.foldl follow (some .root, w) = s at hcomes
      generalize path.foldl Doc.enter (d, []) = t at hcomes
      cases hcomes with
      | mk hrep => exact hrep
    | some x =>
      have hpre : (path.foldl follow (some .root, w)).2.buf.usedSize < 2 ^ 32 := by
        refine lt_of_le_of_lt ?_ hfin
        rw [Buffer.exec, heval]
        rcases (path.foldl follow (some .root, w)).1 with _ | v
        · exact le_rfl
        · dsimp only
          rw [v.assigned_eq]
          exact Buffer.usedSize_le_assign _ _ _
      have hcomes := h.follows hproper hne hpath hpre
      have hvalue := hvalue (by simp)
      rw [Buffer.Overwrites, heval] at hvalue
      rw [Doc.exec]
      generalize path.foldl follow (some .root, w) = s at hcomes heval hvalue
      generalize path.foldl Doc.enter (d, []) = t at hcomes hsnd hvalue
      obtain @⟨w', d', q, p, l, hrep, hl, hq, hka, -, hQ⟩ := hcomes
      obtain rfl : q ++ [p] = path := hsnd
      rw [Buffer.exec_some heval] at hfin ⊢
      refine hrep.assigned hproper hq hl hka hQ (hV x rfl) ?_ hfin
      rcases hvalue with ⟨p', hp', hv⟩ | ⟨v, hv, hkind, hr⟩
      · rw [List.getLast?_concat, Option.mem_some_iff] at hp'
        rw [List.dropLast_concat, ← hp'] at hv
        exact Or.inl hv
      · obtain rfl := Option.some_inj.mp hv
        cases p with
        | key key => exact Or.inr ⟨key, rfl, hr⟩
        | index i => cases hkind

theorem Represents.reload (h : w.Represents Q V root d) : w.reload.Represents Q V root d where
  reached := h.reached.reload
  get q n := by
    have hiff : ∀ it, w.reload.At q it ↔ w.At q it := by
      intro it
      constructor <;> intro hat
      · induction hat with
        | root hl ho hc => exact .root hl ho hc
        | sub _ hl hk hi ih => exact .sub ih hl hk hi
      · induction hat with
        | root hl ho hc => exact .root (w := w.reload) hl ho hc
        | sub _ hl hk hi ih => exact .sub (w := w.reload) ih hl hk hi
    simp only [hiff]
    exact h.get q n
  used := h.used

end World

namespace Act

theorem snug_step {s : Buffer × Doc} (h : s.1.Snug) (a : Act) : (a.step s).1.Snug := by
  cases a with
  | exec st => exact h.exec st
  | reload => exact ⟨le_rfl, by simp only [step, Buffer.ofVector]; omega⟩

theorem usedSize_le_step {s : Buffer × Doc} (h : s.1.Snug) (a : Act) :
    s.1.usedSize ≤ (a.step s).1.usedSize := by
  cases a with
  | exec st => exact Buffer.usedSize_le_exec s.1 st
  | reload => exact h.fits

theorem usedSize_le_steps {s : Buffer × Doc} (h : s.1.Snug) (acts : List Act) :
    s.1.usedSize ≤ (acts.foldl step s).1.usedSize := by
  induction acts generalizing s with
  | nil => exact le_rfl
  | cons a acts ih => exact (usedSize_le_step h a).trans (ih (snug_step h a))

end Act

namespace World

theorem Reached.snug (h : w.Reached Q V root) : w.buf.Snug := by
  induction h with
  | start => cases root <;> exact ⟨by decide, by decide⟩
  | @step w k _ _ _ _ _ ih =>
    rw [w.buf_step]
    exact (extends_call w.buf k).snug (ih.setImpl k.ofs _)
  | @reload w _ ih => exact Act.snug_step (s := (w.buf, Doc.start root)) ih .reload

theorem Represents.run (h : w.Represents Q V root d) (hproper : Place.Proper Q) {acts : List Act}
    (hok : Loop.Allowed Act.step (Act.Fits Q) (w.buf, d) acts)
    (hV : ∀ st, .exec st ∈ acts → ∀ x ∈ st.value, V x.scalar)
    (hfin : (acts.foldl Act.step (w.buf, d)).1.usedSize < 2 ^ 32) :
    ∃ w' : World, w'.buf = (acts.foldl Act.step (w.buf, d)).1 ∧
      w'.Represents Q V root (acts.foldl Act.step (w.buf, d)).2 := by
  induction acts generalizing w d with
  | nil => exact ⟨w, rfl, h⟩
  | cons a acts ih =>
    obtain ⟨hfit, hrest⟩ := hok
    have hsnug := Act.snug_step (s := (w.buf, d)) h.reached.snug a
    have hfin' := (Act.usedSize_le_steps hsnug acts).trans_lt hfin
    obtain ⟨w', hbuf, hrep⟩ : ∃ w' : World, w'.buf = (a.step (w.buf, d)).1 ∧
        w'.Represents Q V root (a.step (w.buf, d)).2 := by
      cases a with
      | exec st => exact h.exec hproper hfit (hV st (by simp)) hfin'
      | reload => exact ⟨w.reload, rfl, h.reload⟩
    have hstate : a.step (w.buf, d) = (w'.buf, (a.step (w.buf, d)).2) := Prod.ext hbuf.symm rfl
    rw [List.foldl_cons, hstate] at hfin ⊢
    rw [hstate] at hrest
    exact ih hrep hrest (fun st hst => hV st (List.mem_cons_of_mem _ hst)) hfin

theorem represents_start (Q : Place → Prop) (V : Scalar → Prop) (isArr : Bool) :
    (start isArr).Represents Q V isArr (Doc.start isArr) where
  reached := .start
  get q n := by
    have hnone : ∀ (p : Place), (Cell.new isArr 0 []).itemAt p = none := Cell.itemAt_new isArr 0 []
    cases q using List.reverseRecOn with
    | nil =>
      constructor
      · intro hn
        have hroot := List.mem_singleton_self (Cell.new isArr 0 [])
        exact ⟨_, at_nil.mpr ⟨_, hroot, rfl, rfl, rfl⟩, Option.some_inj.mp hn⟩
      · rintro ⟨it, hit, rfl⟩
        obtain ⟨l, hl, -, -, rfl⟩ := at_nil.mp hit
        obtain rfl := List.mem_singleton.mp hl
        rfl
    | append_singleton q p =>
      have hget : (Doc.start isArr).get (q ++ [p]) = none := by cases q <;> rfl
      rw [hget]
      refine iff_of_false (by simp) ?_
      rintro ⟨it, hit, -⟩
      obtain ⟨l, hl, -, -, hi⟩ := at_concat.mp hit
      obtain rfl := List.mem_singleton.mp hl
      rw [hnone] at hi
      cases hi
  used q p h := by
    refine absurd ?_ h
    cases q <;> rfl

end World

namespace Act

/-- A new document after the acts, beside its buffer. -/
def run (root : Bool) (acts : List Act) : Buffer × Doc :=
  acts.foldl step (Buffer.empty.initStructure (kindOf root), Doc.start root)

/-- The acts of a run fit. -/
def Fitting (Q : Place → Prop) (root : Bool) (acts : List Act) : Prop :=
  Loop.Allowed step (Fits Q) (Buffer.empty.initStructure (kindOf root), Doc.start root) acts

instance (Q : Place → Prop) [DecidablePred Q] (root : Bool) (acts : List Act) :
    Decidable (Fitting Q root acts) := inferInstanceAs (Decidable (Loop.Allowed ..))

/-- A run of acts that fit is represented by its buffer. -/
theorem represented (hproper : Place.Proper Q) {acts : List Act} (hok : Fitting Q root acts)
    (hV : ∀ st, exec st ∈ acts → ∀ x ∈ st.value, V x.scalar) {b : Buffer}
    (hrun : run root acts = (b, d))
    (hfin : b.usedSize < 2 ^ 32) : ∃ w : World, w.buf = b ∧ w.Represents Q V root d := by
  have hrep := (World.represents_start Q V root).run hproper hok hV
  change (run root acts).1.usedSize < 2 ^ 32 → ∃ w' : World,
    w'.buf = (run root acts).1 ∧ w'.Represents Q V root (run root acts).2 at hrep
  rw [hrun] at hrep
  exact hrep hfin

end Act

end Lite3
