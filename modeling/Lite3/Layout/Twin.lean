import Lite3.Tree.Alike
import Lite3.Layout.Iterate

/-! # Containers that are alike

Two containers are alike when their trees are, up to where nodes and entries
lie. The same call keeps them alike, lookups in them give the same results, and
iterators over them show the same, whatever the height of the trees.
-/

namespace Lite3

open Bytes Config Lite3.Tree

/-- An entry without its place. -/
def Entry.content (e : Entry) : UInt32 × List UInt8 × ValueType × List UInt8 :=
  (e.hash, e.key, e.type, e.val)

theorem Entry.content_eq {e f : Entry} (h : e.content = f.content) :
    e.hash = f.hash ∧ e.key = f.key ∧ e.type = f.type ∧ e.val = f.val := by
  simpa [content] using h

theorem Entry.blind (hash : UInt32) (key : List UInt8) :
    Blind Entry.content (Entry.cmp hash key) (fun e => decide (e.hash < hash) = true) where
  cmp h := by
    obtain ⟨hh, hk, -⟩ := content_eq h
    unfold Entry.cmp
    rw [hh, hk]
  right h := by rw [(content_eq h).1]

namespace Container

/-- Containers of one kind at one offset with trees that are alike. -/
structure Alike (c d : Container) : Prop where
  kind : c.isArr = d.isArr
  ofs : c.ofs = d.ofs
  size : c.size = d.size
  core : BTree.core Entry.content ⟨c.height, c.tree⟩ = BTree.core Entry.content ⟨d.height, d.tree⟩

theorem Alike.refl (c : Container) : c.Alike c := ⟨rfl, rfl, rfl, rfl⟩

variable {b b' : Buffer} {c d c' d' : Container} {R R' : List Chunk} {key : List UInt8}
  {hash : UInt32} {isArr : Bool} {o : ℕ}

theorem Alike.withSize (h : c.Alike d) (s : UInt32) : (c.withSize s).Alike (d.withSize s) where
  kind := h.kind
  ofs := by rw [ofs_withSize, ofs_withSize, h.ofs]
  size := by
    have hc := toNat_size_withSize c s
    rw [← toNat_size_withSize d s] at hc
    exact UInt32.toNat_inj.mp hc
  core := by
    have hcore := h.core
    unfold BTree.core at hcore ⊢
    dsimp only [Container.withSize] at hcore ⊢
    rw [BTree.erase_setRoot, BTree.erase_setRoot]
    exact hcore

/-- The same call keeps containers alike. -/
theorem Alike.updates {a : SetArgs} {b₁ b₁' b₂ b₂' : Buffer} {x y : Entry} {ms ns : List Entry}
    (h : c.Alike d) (hc : Updates a b₁ b₁' c c' x ms) (hd : Updates a b₂ b₂' d d' y ns) :
    c'.Alike d' where
  kind := by rw [hc.kind, hd.kind, h.kind]
  ofs := by rw [hc.ofs, hd.ofs, h.ofs]
  size := by rw [hc.size, hd.size, h.size]
  core := by
    refine hc.put.alike (Entry.blind a.keyHash a.key) h.core hd.put ?_
    rw [hc.placed.eq, hd.placed.eq]
    rfl

theorem Alike.setImplWith {update update' : Update} {a : SetArgs} (hu : Updater update a)
    (hu' : Updater update' a) (h : c.Alike d) (ho : b.Owns (c.chunks ++ R))
    (ho' : b'.Owns (d.chunks ++ R')) (ha : a.Writable) (hk : a.isAppend = c.isArr)
    (hfin : (b.setImplWith update c.ofs a).2.usedSize < 2 ^ 32)
    (hfin' : (b'.setImplWith update' c.ofs a).2.usedSize < 2 ^ 32) :
    ∃ x y c' d' ms ns, c'.Alike d' ∧ (b.setImplWith update c.ofs a).2.Owns (c'.chunks ++ R) ∧
      (b'.setImplWith update' c.ofs a).2.Owns (d'.chunks ++ R') ∧
      Updates a b (b.setImplWith update c.ofs a).2 c c' x ms ∧
      Updates a b' (b'.setImplWith update' c.ofs a).2 d d' y ns := by
  obtain ⟨x, c', ms, -, hown, hup⟩ := Container.setImplWith hu ho ha hk hfin
  have hd := Container.setImplWith hu' ho' ha (hk.trans h.kind) (h.ofs ▸ hfin')
  rw [← h.ofs] at hd
  obtain ⟨y, d', ns, -, hown', hup'⟩ := hd
  exact ⟨x, y, c', d', ms, ns, h.updates hup hup', hown, hown', hup, hup'⟩

theorem Alike.read (h : c.Alike d) (ho : b.Owns (c.chunks ++ R)) (ho' : b'.Owns (d.chunks ++ R'))
    (hkey : c.isArr = true → key = []) :
    b.read c.ofs key hash c.isArr = b'.read c.ofs key hash c.isArr := by
  obtain ⟨t, ht, hst⟩ := BTree.exists_core_eq h.core
  have hfind := BTree.find_alike (Entry.blind hash key) hst
  have hd : d.tree.find (Entry.cmp hash key) = t.find (Entry.cmp hash key) := by
    obtain ⟨_, k, u, _, _, _⟩ := d
    cases ht
    rfl
  have hf' : b'.fetch _ _ hash _ = _ := fetch ho' (h.kind ▸ hkey)
  rw [← hd] at hfind
  rw [← h.kind, ← h.ofs] at hf'
  rw [Buffer.read, Buffer.read, fetch ho hkey, hf', Option.map_some, Option.map_some,
    Option.map_map, Option.map_map]
  have hmap := congrArg (Option.map fun p : UInt32 × List UInt8 × ValueType × List UInt8 => p.2.2)
    hfind
  rw [Option.map_map, Option.map_map] at hmap
  exact congrArg some hmap

end Container

namespace Iterator

open NodeTree

variable {m m' : Mem} {type : ValueType} {size size' h i n : ℕ} {st st' : List (ℕ × ℕ)}
  {it it' : Iterator}

/-- Places with the same index in nodes of trees that are alike. -/
def Mates (m m' : Mem) (type : ValueType) (size size' : ℕ) (p q : ℕ × ℕ) : Prop :=
  p.2 = q.2 ∧ ∃ h, ∃ t u : NodeTree h, p.1 = t.ofs ∧ q.1 = u.ofs ∧ t.Within m type size ∧
    u.Within m' type size' ∧ t.erase Entry.content = u.erase Entry.content

/-- Iterators over two memories that stand at the same place of trees that are alike. -/
structure Twins (m m' : Mem) (type : ValueType) (size size' : ℕ) (it it' : Iterator) : Prop where
  hasBuffer : it.hasBuffer = it'.hasBuffer
  left : it.generation = NodeView.generation m 0
  right : it'.generation = NodeView.generation m' 0
  stack : List.Forall₂ (Mates m m' type size size') it.stack it'.stack
  current : it.current.map (Buffer.shown m) = it'.current.map (Buffer.shown m')

section

variable {t u : NodeTree h} (ht : t.Within m type size) (hu : u.Within m' type size')
  (htu : t.erase Entry.content = u.erase Entry.content)

include ht hu htu

theorem mates_keyCount : NodeView.keyCount m t.ofs = NodeView.keyCount m' u.ofs := by
  rw [ht.seen.keyCount, hu.seen.keyCount, BTree.alike_length htu]

theorem mates_child (hi : i ≤ t.keys.length) :
    NodeView.getChildOffset m t.ofs i = 0 ∧ NodeView.getChildOffset m' u.ofs i = 0 ∨
      NodeView.getChildOffset m t.ofs i ≠ 0 ∧ NodeView.getChildOffset m' u.ofs i ≠ 0 ∧
        Mates m m' type size size' (NodeView.getChildOffset m t.ofs i, 0)
          (NodeView.getChildOffset m' u.ofs i, 0) := by
  have hle := ht.seen.laid.length_le
  cases h with
  | zero => exact Or.inl ⟨ht.seen.child_leaf (by omega), hu.seen.child_leaf (by omega)⟩
  | succ h =>
    have hlen := BTree.alike_length htu
    have hlt := ht.length_kids
    have hlu := hu.length_kids
    obtain ⟨hct, hnt⟩ := ht.child (i := i) (by omega)
    obtain ⟨hcu, hnu⟩ := hu.child (i := i) (by omega)
    have hkids := congrArg (·[i]?) (BTree.alike_kids htu)
    simp only [List.getElem?_map, List.getElem?_eq_getElem (show i < t.kids.length by omega),
      List.getElem?_eq_getElem (show i < u.kids.length by omega), Option.map_some,
      Option.some_inj] at hkids
    rw [hct, hcu]
    exact Or.inr ⟨hnt, hnu, rfl, h, _, _, rfl, rfl, ht.kid (List.getElem_mem _),
      hu.kid (List.getElem_mem _), hkids⟩

theorem mates_entry (hi : i < t.keys.length) :
    ∃ v v', readEntry m size (NodeView.getKvOffset m t.ofs i) = some v ∧
      readEntry m' size' (NodeView.getKvOffset m' u.ofs i) = some v' ∧
      Buffer.shown m v = Buffer.shown m' v' := by
  have hi' : i < u.keys.length := by rw [← BTree.alike_length htu]; exact hi
  have hkeys := congrArg (·[i]?) (BTree.alike_keys htu)
  simp only [List.getElem?_map, List.getElem?_eq_getElem hi, List.getElem?_eq_getElem hi',
    Option.map_some, Option.some_inj] at hkeys
  obtain ⟨-, hk, hty, hv⟩ := Entry.content_eq hkeys
  obtain ⟨hh, hr⟩ := ht.seen.keys _ (List.getElem_mem hi)
  obtain ⟨hh', hr'⟩ := hu.seen.keys _ (List.getElem_mem hi')
  have hp := hh.payload hr
  have hp' := hh'.payload hr'
  refine ⟨_, _, ht.readEntry hi, hu.readEntry hi', ?_⟩
  unfold Buffer.shown Entry.view
  dsimp only
  rw [hp, hp', hk, hty, hv]

end

theorem descend_mates (h : List.Forall₂ (Mates m m' type size size') st st') :
    List.Forall₂ (Mates m m' type size size') (descend m n st) (descend m' n st') := by
  induction n generalizing st st' with
  | zero =>
    cases h with
    | nil => exact .nil
    | cons hp hs => exact .cons hp hs
  | succ n ih =>
    cases h with
    | nil => exact .nil
    | @cons p q st st' hp hs =>
      obtain ⟨o, i⟩ := p
      obtain ⟨o', i'⟩ := q
      obtain ⟨hi, h, t, u, rfl, rfl, ht, hu, htu⟩ := id hp
      unfold descend
      rcases mates_child ht hu htu (Nat.zero_le _) with ⟨hc, hc'⟩ | ⟨hc, hc', hm⟩
      · rw [if_neg (by simp [hc]), if_neg (by simp [hc'])]
        exact .cons hp hs
      · rw [if_pos hc, if_pos hc']
        exact ih (.cons hm (.cons hp hs))

theorem unwind_mates (h : List.Forall₂ (Mates m m' type size size') st st') :
    List.Forall₂ (Mates m m' type size size') (unwind m st) (unwind m' st') ∧
      ∀ o i st₁, unwind m st = (o, i) :: st₁ → i < NodeView.keyCount m o := by
  induction h with
  | nil => exact ⟨.nil, by simp [unwind]⟩
  | @cons p q st st' hp hs ih =>
    obtain ⟨o, i⟩ := p
    obtain ⟨o', i'⟩ := q
    obtain ⟨hi, h, t, u, rfl, rfl, ht, hu, htu⟩ := id hp
    obtain rfl : i = i' := hi
    unfold unwind
    rw [← mates_keyCount ht hu htu]
    split
    · exact ih
    · refine ⟨.cons hp hs, ?_⟩
      rintro o₁ i₁ st₁ heq
      cases heq
      omega

variable (hs : size ≠ 0) (hs' : size' ≠ 0)

include hs hs'

theorem Twins.findFirst (h : Twins m m' type size size' it it') :
    Twins m m' type size size' (it.findFirst m size) (it'.findFirst m' size') := by
  have hlen := h.stack.length_eq
  unfold Iterator.findFirst
  rw [← h.hasBuffer]
  by_cases hb : it.hasBuffer = true
  · rw [if_pos hb, if_pos hb, if_neg hs, if_neg hs', if_neg (by simp [h.left]),
      if_neg (by simp [h.right])]
    refine ⟨rfl, h.left, h.right, ?_, h.current⟩
    dsimp only
    rw [← hlen]
    exact descend_mates h.stack
  · rw [if_neg hb, if_neg hb]
    exact h

theorem Twins.findNext (h : Twins m m' type size size' it it') :
    Twins m m' type size size' (it.findNext m size) (it'.findNext m' size') := by
  obtain ⟨hstack, hkey⟩ := unwind_mates h.stack
  unfold Iterator.findNext
  rw [← h.hasBuffer]
  by_cases hb : it.hasBuffer = true
  · rw [if_pos hb, if_pos hb, if_neg (by simp [hs, h.left]), if_neg (by simp [hs', h.right])]
    generalize unwind m it.stack = st at hstack hkey
    generalize unwind m' it'.stack = st' at hstack
    cases hstack with
    | nil => exact ⟨rfl, h.left, h.right, .nil, h.current⟩
    | @cons p q st st' hp hst =>
      obtain ⟨o, i⟩ := p
      obtain ⟨o', i'⟩ := q
      obtain ⟨hi, k, t, u, rfl, rfl, ht, hu, htu⟩ := id hp
      obtain rfl : i = i' := hi
      have hlt := hkey _ _ _ rfl
      rw [ht.seen.keyCount] at hlt
      obtain ⟨v, v', hv, hv', hshown⟩ := mates_entry ht hu htu hlt
      have hlen := hst.length_eq
      have hcur : (some v).map (Buffer.shown m) = (some v').map (Buffer.shown m') :=
        congrArg some hshown
      have hnext : Mates m m' type size size' (t.ofs, i + 1) (u.ofs, i + 1) :=
        ⟨rfl, k, t, u, rfl, rfl, ht, hu, htu⟩
      simp only [hv, hv', ← hlen]
      rcases mates_child ht hu htu (show i + 1 ≤ _ from hlt) with ⟨hc, hc'⟩ | ⟨hc, hc', hm⟩
      · rw [if_neg (by simp [hc]), if_neg (by simp [hc'])]
        exact ⟨rfl, h.left, h.right, .cons hnext hst, hcur⟩
      · by_cases hroom : st.length < treeHeightMax
        · rw [if_pos ⟨hc, hroom⟩, if_pos ⟨hc', hroom⟩]
          apply Twins.findFirst hs hs'
          exact ⟨rfl, h.left, h.right, .cons hm (.cons hnext hst), hcur⟩
        · rw [if_neg (fun h => hroom h.2), if_neg (fun h => hroom h.2)]
          exact ⟨rfl, h.left, h.right, .cons hnext hst, hcur⟩
  · rw [if_neg hb, if_neg hb]
    exact h

end Iterator

namespace Container

variable {b b' : Buffer} {c d : Container} {R R' : List Chunk}

/-- Iterators over objects that are alike show the same. -/
theorem Alike.visit (h : c.Alike d) (ho : b.Owns (c.chunks ++ R)) (ho' : b'.Owns (d.chunks ++ R'))
    (hc : c.isArr = false) (k : ℕ) : b.visit c.ofs k = b'.visit c.ofs k := by
  have hs : b.data.length ≠ 0 := by simpa using data_ne_nil ho
  have hs' : b'.data.length ≠ 0 := by simpa using data_ne_nil ho'
  obtain ⟨t, hofs, hw, hct⟩ : ∃ t : NodeTree c.height, t.ofs = c.ofs ∧
      t.Within b'.mem (kindOf false) b'.data.length ∧
      c.tree.erase Entry.content = t.erase Entry.content := by
    obtain ⟨t, ht, hst⟩ := BTree.exists_core_eq h.core
    have hw := within ho' (h.kind ▸ hc)
    have hofs := h.ofs
    obtain ⟨_, k, u, _, _, _⟩ := d
    cases ht
    exact ⟨_, hofs.symm, hw, hst⟩
  have htwins : Iterator.Twins b.mem b'.mem (kindOf false) b.data.length b'.data.length
      ((Iterator.next b)^[k] (b.begin c.ofs)) ((Iterator.next b')^[k] (b'.begin c.ofs)) := by
    induction k with
    | zero =>
      have hbegin := begin_eq ho'
      rw [← h.ofs, show NodeTree.ofs d.tree = d.ofs from rfl, ← h.ofs, ← hofs] at hbegin
      rw [Function.iterate_zero, id, Function.iterate_zero, id, begin_eq ho, ← hofs, hbegin]
      apply Iterator.Twins.findNext hs hs'
      apply Iterator.Twins.findFirst hs hs'
      refine ⟨rfl, rfl, rfl, .cons ?_ .nil, rfl⟩
      exact ⟨rfl, c.height, c.tree, t, rfl, rfl, within ho hc, hw, hct⟩
    | succ k ih =>
      rw [Function.iterate_succ_apply', Function.iterate_succ_apply']
      exact ih.findNext hs hs'
  have hd := data_ne_nil ho
  have hd' := data_ne_nil ho'
  unfold Buffer.visit Iterator.deref
  simp only [htwins.hasBuffer, htwins.left, htwins.right, hd, hd', or_false, ne_eq,
    not_true_eq_false, if_false]
  split
  · rfl
  · exact congrArg Except.ok htwins.current

end Container

end Lite3
