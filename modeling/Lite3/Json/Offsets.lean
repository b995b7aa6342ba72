import Lite3.Json.RoundTrip
import Lite3.Store.Proxy

/-! # Printing at the offset of an object

The offset of an object is that of its node, while the printer takes an offset
to be that of a type tag, with the node behind it. The low byte of the node
looks like the tag, so the node is read one byte late.
-/

namespace Lite3

open Bytes Config NodeView Lite3.Tree

theorem Bytes.toNat_load32 (m : Mem) (o : ℕ) : (load32 m o).toNat = (m o).toNat +
    256 * ((m (o + 1)).toNat + 256 * ((m (o + 2)).toNat + 256 * (m (o + 3)).toNat)) := by
  have h₀ := (m o).toNat_lt
  have h₁ := (m (o + 1)).toNat_lt
  have h₂ := (m (o + 2)).toNat_lt
  have h₃ := (m (o + 3)).toNat_lt
  simp only [load32, slice, ofLE, UInt32.toNat_ofNat', Nat.add_assoc, Nat.reduceAdd]
  omega

/-- The container is whole, and the size of an object is never counted. -/
structure Slim (c : Container) (l : Cell) : Prop where
  whole : Whole c l
  size : c.isArr = false → c.size = 0

theorem World.preserved_slim : Preserved Buffer.Routed Slim where
  tracks h := h.whole.exact.tracks
  new isArr o chain :=
    ⟨preserved_whole.new isArr o chain,
      fun _ => UInt32.toNat_inj.mp (Container.toNat_size_empty ..)⟩
  detach ofs key h := ⟨preserved_whole.detach ofs key h.whole, h.size⟩
  put h ho hc hr hup hx :=
    ⟨preserved_whole.put h.whole ho hc hr hup hx, fun _ => hup.size.trans (h.size hc)⟩
  push h hc hup hh hx hn :=
    ⟨preserved_whole.push h.whole hc hup hh hx hn,
      fun hc' => absurd (hup.kind.symm.trans hc') (by simp [hc])⟩

/-- A call on an object, with a key and a value as told -/
def Call.Uses (K : List UInt8 → Prop) (V : Scalar → Prop) : Call → Prop
  | set _ key v => K key ∧ V v
  | create isArr _ key => isArr = false ∧ K key
  | append .. | appendNew .. => False

/-- Keys and values that a document can hold, in objects only. -/
abbrev Call.Spells (valid : List UInt8 → Prop) : Call → Prop :=
  Uses (fun key => valid (cstr key)) fun v => v.atom.Valid valid

/-- No two keys of an object are the same C string. -/
def World.Named (w : World) : Prop :=
  ∀ l ∈ w.cells, ∀ k k', l.fields k ≠ none → l.fields k' ≠ none → cstr k = cstr k' → k = k'

namespace Buffer

/-- The offset that `get_obj` returns for the object at the end of a path. -/
def objectAt (b : Buffer) : ℕ → List (List UInt8) → Except Fault ℕ
  | o, [] => .ok o
  | o, k :: ks =>
    match b.getObj o k with
    | .ok o => b.objectAt o ks
    | .error f => .error f

end Buffer

/-- What is printed at the offset is what the text of the whole buffer has at the end of the
path. -/
def PrintsAlike (y : Yyjson) (b : Buffer) (path : List (List UInt8)) (o : ℕ) : Prop :=
  ∃ text whole v text' v', toJsonString y b 0 = .ok text ∧ y.read text = some whole ∧
    whole.get (path.map cstr) = some v ∧
    toJsonString y b o = .ok text' ∧ y.read text' = some v' ∧ v.Same v'

namespace Container

variable {b : Buffer} {c : Container} {R : List Chunk} {l : Cell}

theorem tag_object (ho : b.Owns (c.chunks ++ R)) (hc : c.isArr = false) :
    ValueType.ofCode (b.mem c.ofs) = .object := by
  have htype : NodeView.type b.mem c.ofs = kindOf c.isArr := by
    have hs := seen ho
    exact hs.label.type.trans hs.laid.type_eq
  rw [NodeView.type, NodeView.genType, Packed.type_eq, toNat_load32, hc] at htype
  have hlow : UInt8.ofNat ((b.mem c.ofs).toNat + 256 * ((b.mem (c.ofs + 1)).toNat +
      256 * ((b.mem (c.ofs + 2)).toNat + 256 * (b.mem (c.ofs + 3)).toNat))) = b.mem c.ofs := by
    apply UInt8.toNat_inj.mp
    have := (b.mem c.ofs).toNat_lt
    simp only [UInt8.toNat_ofNat']
    omega
  rwa [hlow] at htype

theorem keyCount_late (ho : b.Owns (c.chunks ++ R)) (hsize : c.size = 0) :
    keyCount b.mem (c.ofs + 1) = 0 := by
  have hs := congrArg UInt32.toNat ((size_eq ho).trans hsize)
  rw [NodeView.size, NodeView.sizeKc, Packed.toNat_size, toNat_load32] at hs
  rw [keyCount, NodeView.sizeKc, Packed.keyCount_eq, toNat_load32]
  have h₁ : c.ofs + 1 + 32 = c.ofs + 32 + 1 := by omega
  rw [h₁]
  simp only [UInt32.toNat_zero] at hs
  omega

theorem child_late (ho : b.Owns (c.chunks ++ R)) (hh : c.height = 0) :
    getChildOffset b.mem (c.ofs + 1) 0 = 0 := by
  obtain ⟨isArr, h, t, hlaid, hshaped, hread⟩ := c
  obtain rfl : h = 0 := hh
  have h₀ : getChildOffset b.mem t.ofs 0 = 0 := (seen ho).child_leaf (by omega)
  have h₁ : getChildOffset b.mem t.ofs 1 = 0 := (seen ho).child_leaf (by omega)
  change getChildOffset b.mem (t.ofs + 1) 0 = 0
  rw [getChildOffset, toNat_load32] at h₀ h₁ ⊢
  simp only [Nat.mul_zero, Nat.mul_one, Nat.add_assoc, Nat.reduceAdd] at h₀ h₁ ⊢
  omega

/-- Nothing is printed at the offset of an object whose node has no child when read late. -/
theorem rootVal_late (ho : b.Owns (c.chunks ++ R)) (hc : c.isArr = false) (hsize : c.size = 0)
    (hne : c.ofs ≠ 0) (hchild : getChildOffset b.mem (c.ofs + 1) 0 = 0) :
    b.rootVal c.ofs = .ok (.obj []) := by
  have hd := data_ne_nil ho
  have hheads := Iterator.heads_begin (m := b.mem) (show b.data.length ≠ 0 by simpa using hd)
    (c.ofs + 1)
  have hlayer : Stop.layer b.mem (Stop.below b.mem treeHeightMax) (c.ofs + 1) =
      [.node (c.ofs + 1)] := by
    have hbelow : Stop.below b.mem treeHeightMax (c.ofs + 1) 0 = [] := if_pos hchild
    rw [Stop.layer, hbelow, Stop.onwards_of_le (keyCount_late ho hsize).le]
    rfl
  have hempty : (b.begin (c.ofs + 1)).Heads b.mem b.data.length (List.map id []) := by
    rwa [hlayer, ← Iterator.begin_eq_beginAt] at hheads
  have hrun : b.members (b.toYyjsonVal b.data.length) b.levels (b.begin (c.ofs + 1)) = .ok [] :=
    hempty.members hd (f := fun _ => .atom .null) (by simp) (Nat.succ_pos _)
  rw [Buffer.rootVal, if_neg fun h => hne h.1, Buffer.levels, Buffer.toYyjsonVal, tag_object ho hc]
  dsimp only
  rw [hrun]
  rfl

end Container

/-- An object with keys and scalars as told -/
def Cell.Uses (K : List UInt8 → Prop) (V : Scalar → Prop) (l : Cell) : Prop :=
  l.isArr = false ∧ ∀ key it, l.fields key = some it → K key ∧ ∀ v, it = .scalar v → V v

section Uses

variable {K : List UInt8 → Prop} {V : Scalar → Prop} {cells : List Cell} {l : Cell}
  {key : List UInt8} {it : Item} {w : World} {k : Call} {ks : List Call}

theorem Cell.Uses.put (h : l.Uses K V) (hk : K key) (hv : ∀ v, it = .scalar v → V v) :
    (l.put key it).Uses K V := by
  refine ⟨h.1, fun key' it' hit => ?_⟩
  by_cases hkey : key' = key
  · rw [hkey, Cell.fields_put_self, Option.some_inj] at hit
    exact ⟨hkey ▸ hk, hit ▸ hv⟩
  · rw [Cell.fields_put_of_ne hkey] at hit
    exact h.2 key' it' hit

theorem Cell.Uses.modify (h : ∀ l ∈ cells, l.Uses K V) (hk : K key)
    (hv : ∀ v, it = .scalar v → V v) (ofs : ℕ) :
    ∀ l ∈ Cell.modify ofs (.put key it) cells, l.Uses K V := by
  intro l hl
  obtain ⟨d, hd, rfl⟩ := List.mem_map.mp hl
  split_ifs
  · exact (h d hd).put hk hv
  · exact h d hd

theorem World.uses_step (h : ∀ l ∈ w.cells, l.Uses K V) (hk : k.Uses K V) :
    ∀ l ∈ (w.step k).cells, l.Uses K V := by
  cases k with
  | set ofs key v =>
    intro l hl
    obtain ⟨d, hd, rfl⟩ := List.mem_map.mp hl
    exact Cell.Uses.modify h hk.1 (fun u hu => Item.scalar.inj hu ▸ hk.2) ofs d hd
  | create isArr ofs key =>
    obtain ⟨rfl, hkey⟩ := hk
    have hfilter : ∀ l ∈ w.cells.filter (¬ ·.Under ofs key), l.Uses K V :=
      fun l hl => h l (List.mem_of_mem_filter hl)
    intro l hl
    unfold World.step at hl
    dsimp only at hl
    split at hl
    · exact hfilter l hl
    · rcases List.mem_cons.mp hl with rfl | hl
      · exact ⟨rfl, fun key it hit => by cases hit⟩
      · exact Cell.Uses.modify hfilter hkey (fun u hu => by cases hu) ofs l hl
  | append | appendNew => exact hk.elim

theorem World.uses_run (h : ∀ k ∈ ks, k.Uses K V) :
    ∀ l ∈ ((World.start false).run ks).cells, l.Uses K V := by
  induction ks using List.reverseRecOn with
  | nil =>
    intro l hl
    obtain rfl := List.mem_singleton.mp hl
    exact ⟨rfl, fun key it hit => by cases hit⟩
  | append_singleton ks k ih =>
    obtain ⟨hks, hk⟩ := List.forall_mem_append.mp h
    have hrun : (World.start false).run (ks ++ [k]) = ((World.start false).run ks).step k :=
      List.foldl_concat ..
    rw [hrun]
    exact World.uses_step (ih hks) (hk k (List.mem_singleton_self k))

theorem World.named_run (h : ∀ k ∈ ks, k.Uses (0 ∉ ·) V) : ((World.start false).run ks).Named := by
  intro l hl k k' hk hk' heq
  have hno : ∀ key, l.fields key ≠ none → 0 ∉ key := by
    intro key hkey
    obtain ⟨it, hit⟩ := Option.ne_none_iff_exists'.mp hkey
    exact ((World.uses_run h l hl).2 key it hit).1
  rwa [cstr_eq_self (hno k hk), cstr_eq_self (hno k' hk')] at heq

end Uses

/-- The items of the object can be held by a document. -/
abbrev Cell.Spelled (valid : List UInt8 → Prop) : Cell → Prop :=
  Uses (fun key => valid (cstr key)) fun v => v.atom.Valid valid

/-- The members that are printed of an object, when its values are printed as `f` tells -/
def Container.topMembers (c : Container) (f : Entry → Json) : List (List UInt8 × Json) :=
  (c.tree.top treeHeightMax).map fun e => (cstr e.key, f e)

theorem Container.find_topMembers {c : Container} {e : Entry}
    (hnodup : (c.entries.map Entry.key).Nodup)
    (he : e ∈ c.entries) (halike : ∀ d ∈ c.entries, cstr d.key = cstr e.key → d.key = e.key)
    (f : Entry → Json) (m : List UInt8 × Json) :
    (c.topMembers f).find? (·.1 = cstr e.key) = some m ↔
      e ∈ c.tree.top treeHeightMax ∧ m = (cstr e.key, f e) := by
  have hfound : ∀ m, (c.topMembers f).find? (·.1 = cstr e.key) = some m →
      e ∈ c.tree.top treeHeightMax ∧ m = (cstr e.key, f e) := by
    intro m hm
    obtain ⟨d, hd, rfl⟩ := List.mem_map.mp (List.mem_of_find?_eq_some hm)
    have hd' : d ∈ c.entries := BTree.mem_inorder_of_mem_top treeHeightMax hd
    have hk : cstr d.key = cstr e.key := by simpa using List.find?_some hm
    obtain rfl : d = e := List.inj_on_of_nodup_map hnodup hd' he (halike d hd' hk)
    exact ⟨hd, rfl⟩
  constructor
  · exact hfound m
  · rintro ⟨htop, rfl⟩
    have hsome : ((c.topMembers f).find? (·.1 = cstr e.key)).isSome = true :=
      List.find?_isSome.mpr ⟨(cstr e.key, f e), List.mem_map_of_mem htop, by simp⟩
    obtain ⟨m, hm⟩ := Option.isSome_iff_exists.mp hsome
    rw [hm, (hfound m hm).2]

/-- The values of an object with `n` levels to go are printed as `f` tells. -/
structure Container.Prints (valid : List UInt8 → Prop) (b : Buffer) (n : ℕ) (c : Container)
    (f : Entry → Json) : Prop where
  value : ∀ e ∈ c.entries, b.toYyjsonVal n (e.valueOfs false) = .ok (f e)
  valid : ∀ e ∈ c.entries, valid (cstr e.key) ∧ (f e).All (Json.Valid valid)

theorem Container.Prints.all_valid {valid : List UInt8 → Prop} {b : Buffer} {n : ℕ} {c : Container}
    {f : Entry → Json} (h : c.Prints valid b n f) :
    (Json.obj (c.topMembers f)).All (Json.Valid valid) := by
  have hmem : ∀ m ∈ c.topMembers f, valid m.1 ∧ m.2.All (Json.Valid valid) := by
    intro m hm
    obtain ⟨e, he, rfl⟩ := List.mem_map.mp hm
    exact h.valid e (BTree.mem_inorder_of_mem_top treeHeightMax he)
  exact .obj (fun m hm => (hmem m hm).1) fun m hm => (hmem m hm).2

theorem TagAt.object {b : Buffer} {p o : ℕ} (h : TagAt b p (.nested false o)) (n : ℕ) :
    b.toYyjsonVal (n + 1) p = (b.members (b.toYyjsonVal n) b.levels (b.begin o)).map .obj := by
  rw [Buffer.toYyjsonVal, h.type, h.ofs false o rfl]
  rfl

namespace Container

variable {valid : List UInt8 → Prop} {b : Buffer} {c c₁ : Container} {R R₁ : List Chunk} {e : Entry}
  {f f₁ : Entry → Json} {n : ℕ}

theorem Prints.of_holds (hp : c₁.Prints valid b n f₁) (ho₁ : b.Owns (c₁.chunks ++ R₁))
    (hc₁ : c₁.isArr = false) (ho : b.Owns (c.chunks ++ R)) (hc : c.isArr = false)
    (he : e ∈ c.entries) (hh : e.Holds false (.nested false c₁.ofs)) :
    b.toYyjsonVal (n + 1) (e.valueOfs false) = .ok (.obj (c₁.topMembers f₁)) := by
  obtain ⟨hheld, hread⟩ := (seen ho).entry he
  rw [hc] at hheld hread
  have hrun := members_top ho₁ hc₁ hp.value
  exact ((hh.tagAt hheld hread).object n).trans (congrArg _ hrun)

theorem get_topMembers (ho : b.Owns (c.chunks ++ R)) (hc : c.isArr = false)
    (hnodup : (c.entries.map Entry.key).Nodup) (he : e ∈ c.entries)
    (halike : ∀ d ∈ c.entries, cstr d.key = cstr e.key → d.key = e.key)
    (ks : List (List UInt8)) (v : Json) :
    (Json.obj (c.topMembers f)).get (cstr e.key :: ks) = some v ↔
      (∃ u ∈ Iterator.shown b.mem b.data.length
        (Stop.layer b.mem (Stop.below b.mem treeHeightMax) c.ofs), u.key = e.key) ∧
      (f e).get ks = some v := by
  have hfind := find_topMembers hnodup he halike f
  rw [Json.get, Option.bind_eq_some_iff, shown_top ho hc]
  constructor
  · rintro ⟨m, hm, hv⟩
    obtain ⟨htop, rfl⟩ := (hfind m).mp hm
    exact ⟨⟨e.view, List.mem_map_of_mem htop, rfl⟩, hv⟩
  · rintro ⟨⟨u, hu, hkey⟩, hv⟩
    obtain ⟨d, htop, rfl⟩ := List.mem_map.mp hu
    obtain rfl : d = e := List.inj_on_of_nodup_map hnodup
      (BTree.mem_inorder_of_mem_top treeHeightMax htop) he hkey
    exact ⟨_, (hfind _).mpr ⟨htop, rfl⟩, hv⟩

end Container

theorem Cell.Linked.length_chain_lt {cells : List Cell} {d : Cell} (h : Cell.Linked cells)
    (hd : d ∈ cells) : d.chain.length < cells.length := by
  have hsub : ∀ k ∈ List.range (d.chain.length + 1), k ∈ cells.map fun l => l.chain.length := by
    intro k hk
    rcases Nat.lt_or_eq_of_le (Nat.le_of_lt_succ (List.mem_range.mp hk)) with hlt | rfl
    · obtain ⟨pre, o, key, rest, hch, hlen⟩ : ∃ pre o key rest,
          d.chain = pre ++ (o, key) :: rest ∧ rest.length = k := by
        have hi : d.chain.length - k - 1 < d.chain.length := by omega
        obtain ⟨p, hp⟩ : ∃ p, d.chain[d.chain.length - k - 1] = p := ⟨_, rfl⟩
        refine ⟨d.chain.take (d.chain.length - k - 1), p.1, p.2,
          d.chain.drop (d.chain.length - k - 1 + 1), ?_, by rw [List.length_drop]; omega⟩
        rw [Prod.mk.eta, ← hp, ← List.drop_eq_getElem_cons hi, List.take_append_drop]
      obtain ⟨l, hl, -, hr, -⟩ := h d hd pre o key rest hch
      exact List.mem_map.mpr ⟨l, hl, hr ▸ hlen⟩
    · exact List.mem_map_of_mem hd
  have hle := (List.nodup_range.subperm hsub).length_le
  rwa [List.length_range, List.length_map] at hle

namespace World

variable {valid : List UInt8 → Prop} {w : World} {cs : List Container} {l d : Cell} {n p o : ℕ}

theorem Backed.length_cells_le {Q : Container → Cell → Prop} (hw : w.Backed Q cs) :
    w.cells.length ≤ w.buf.data.length := by
  have hchunks := Owned.length_le hw.owns (flatMap_chunks_ne_nil cs)
  have hfits := hw.owns.fits
  have hlen : cs.length ≤ (cs.flatMap Container.chunks).length := by
    have hone : ∀ n ∈ cs.map fun c => c.chunks.length, 1 ≤ n := by
      intro n hn
      obtain ⟨c, -, rfl⟩ := List.mem_map.mp hn
      exact List.length_pos_of_mem (c.tree.label_chunk_mem c.isArr)
    have hsum := List.length_le_sum_of_one_le _ hone
    rwa [List.length_map, ← List.length_flatMap] at hsum
  rw [← hw.cells.length_eq]
  omega

theorem Backed.prints (hw : w.Backed Slim cs) (hclosed : Cell.Closed w.cells)
    (hspelled : ∀ l ∈ w.cells, l.Spelled valid) (hd : d ∈ w.cells)
    (hn : w.cells.length ≤ d.chain.length + n) : ∃ c R f, Slim c d ∧ w.buf.Owns (c.chunks ++ R) ∧
      c.Prints valid w.buf n f := by
  induction n generalizing d with
  | zero => exact absurd (hw.linked.length_chain_lt hd) (by omega)
  | succ n ih =>
    obtain ⟨c, R, -, hQ, ho⟩ := hw.container hd
    obtain ⟨hla, hitems⟩ := hspelled d hd
    have hc : c.isArr = false := hQ.whole.exact.tracks.kind.trans hla
    have hm := hQ.whole.exact.mirrors hc
    have hentry : ∀ e ∈ c.entries, ∃ j, w.buf.toYyjsonVal (n + 1) (e.valueOfs false) = .ok j ∧
        valid (cstr e.key) ∧ j.All (Json.Valid valid) := by
      intro e he
      obtain ⟨it, hit⟩ := Option.ne_none_iff_exists'.mp (hm.known e he)
      have hholds := hm.holds he hit
      obtain ⟨hkey, hval⟩ := hitems e.key it hit
      cases it with
      | scalar v =>
        obtain ⟨hheld, hread⟩ := (Container.seen ho).entry he
        rw [hc] at hheld hread
        exact ⟨_, (hholds.tagAt hheld hread).scalar (Nat.succ_pos n), hkey, .atom (hval v rfl)⟩
      | nested isArr o =>
        obtain ⟨d', hd', rfl, ha', hch⟩ := hclosed d hd (some e.key) isArr o hit
        obtain ⟨c', R', f, hQ', ho', hp⟩ := ih hd' (by rw [hch, List.length_cons]; omega)
        obtain rfl : isArr = false := ha' ▸ (hspelled d' hd').1
        have hc' : c'.isArr = false := hQ'.whole.exact.tracks.kind.trans ha'
        rw [← hQ'.whole.exact.tracks.ofs] at hholds
        exact ⟨_, hp.of_holds ho' hc' ho hc he hholds, hkey, hp.all_valid⟩
    choose! f hf using hentry
    exact ⟨c, R, f, hQ, ho, fun e he => (hf e he).1, fun e he => (hf e he).2⟩

/-- What the printed root has at the end of a path is what is printed of the object there, if the
keys of the path are shown. -/
theorem Backed.get_path (hw : w.Backed Slim cs) (hclosed : Cell.Closed w.cells)
    (hspelled : ∀ l ∈ w.cells, l.Spelled valid) (hnamed : w.Named) {path : List (List UInt8)}
    {c : Container} {R : List Chunk} {f : Entry → Json} (hd : d ∈ w.cells)
    (hn : w.cells.length ≤ d.chain.length + n) (hQ : Slim c d) (ho : w.buf.Owns (c.chunks ++ R))
    (hp : c.Prints valid w.buf n f) (hpath : w.buf.objectAt d.ofs path = .ok o) :
    ∃ l c' R' f' n', l ∈ w.cells ∧ l.ofs = o ∧ l.chain.length = d.chain.length + path.length ∧
      Slim c' l ∧ w.buf.Owns (c'.chunks ++ R') ∧ c'.Prints valid w.buf n' f' ∧
      ∀ v, (Json.obj (c.topMembers f)).get (path.map cstr) = some v ↔
        w.buf.Shown d.ofs path ∧ v = .obj (c'.topMembers f') := by
  induction path generalizing d c R f n with
  | nil =>
    obtain rfl : d.ofs = o := Except.ok.inj hpath
    refine ⟨d, c, R, f, n, hd, rfl, rfl, hQ, ho, hp, fun v => ?_⟩
    simp [Json.get, Buffer.Shown, eq_comm]
  | cons k ks ih =>
    have hla := (hspelled d hd).1
    have hc : c.isArr = false := hQ.whole.exact.tracks.kind.trans hla
    have hm := hQ.whole.exact.mirrors hc
    have hfaithful := (hw.imp fun _ _ h => h.whole.exact).faithful
    rw [Buffer.objectAt] at hpath
    rcases hfaithful.getContainer hd hla k false with ⟨o₁, hfield, hget⟩ | ⟨-, e, hget⟩
    · have hget : w.buf.getObj d.ofs k = .ok o₁ := hget
      rw [hget] at hpath
      obtain ⟨d₁, hd₁, rfl, ha₁, hch⟩ := hclosed d hd (some k) false o₁ hfield
      have hlt := hw.linked.length_chain_lt hd₁
      rw [hch, List.length_cons] at hlt
      obtain ⟨n, rfl⟩ : ∃ j, n = j + 1 := ⟨n - 1, by omega⟩
      have hn₁ : w.cells.length ≤ d₁.chain.length + n := by
        rw [hch, List.length_cons]
        omega
      obtain ⟨c₁, R₁, f₁, hQ₁, ho₁, hp₁⟩ := hw.prints hclosed hspelled hd₁ hn₁
      obtain ⟨l, c', R', f', n', hl, hlo, hlen, hQ', ho', hp', hiff⟩ :=
        ih hd₁ hn₁ hQ₁ ho₁ hp₁ hpath
      refine ⟨l, c', R', f', n', hl, hlo, ?_, hQ', ho', hp', fun v => ?_⟩
      · rw [hlen, hch, List.length_cons, List.length_cons]
        omega
      · obtain ⟨e, he, rfl, hholds⟩ := hm.item k _ hfield
        rw [← hQ₁.whole.exact.tracks.ofs] at hholds
        have hc₁ : c₁.isArr = false := hQ₁.whole.exact.tracks.kind.trans ha₁
        have hfe : f e = .obj (c₁.topMembers f₁) := Except.ok.inj
          ((hp.value e he).symm.trans (hp₁.of_holds ho₁ hc₁ ho hc he hholds))
        have hlink := Container.get_topMembers (f := f) ho hc hm.nodup_keys he fun e' he' =>
          hnamed d hd _ _ (hm.known e' he') (hm.known e he)
        rw [List.map_cons, hlink, hfe, hiff, Buffer.Shown, hQ.whole.exact.tracks.ofs, and_assoc]
        have hrest : (∀ o, w.buf.getObj d.ofs e.key = .ok o → w.buf.Shown o ks) ↔
            w.buf.Shown d₁.ofs ks := by
          rw [hget]
          simp
        rw [hrest]
    · have hget : w.buf.getObj d.ofs k = .error (.exception e) := hget
      rw [hget] at hpath
      cases hpath

theorem Careful.slim {ks : List Call} (h : Careful false ks) :
    ∃ cs, ((start false).run ks).Backed Slim cs :=
  Loop.Allowed.invariant (I := fun w => ∃ cs, w.Backed Slim cs) h
    ⟨_, Backed.start false (preserved_slim.new _ _ _)⟩ fun _ _ ⟨_, hw⟩ ⟨hl, hc, hr⟩ =>
      (hw.advanced preserved_slim hl hc hr).backed

end World

theorem Slim.seven_le {c : Container} {l : Cell} (h : Slim c l) (hh : c.height ≠ 0) :
    7 ≤ c.entries.length := by
  have hpow := h.whole.rooted.pow_le c.shaped hh
  have hfour : 4 ^ 1 ≤ 4 ^ c.height := Nat.pow_le_pow_right (by decide) (Nat.pos_of_ne_zero hh)
  have hlen : c.tree.inorder.length = c.entries.length := rfl
  simp only [Nat.reduceAdd] at hpow
  omega

theorem Yyjson.Faithful.prints {y : Yyjson} {valid : List UInt8 → Prop} (hy : y.Faithful valid)
    {b : Buffer} {o : ℕ} {j : Json} (hj : b.rootVal o = .ok j) (hv : j.All (Json.Valid valid)) :
    ∃ text, toJsonString y b o = .ok text ∧ y.read text = some j := by
  obtain ⟨text, hwrite, hread⟩ := hy.write j hv
  refine ⟨text, ?_, hread⟩
  rw [toJsonString, hj]
  simp [Except.map, hwrite]

variable {y : Yyjson} {valid : List UInt8 → Prop} {ks : List Call}
  {path : List (List UInt8)} {o : ℕ}

theorem Container.Prints.rootVal {b : Buffer} {c : Container} {R : List Chunk} {f : Entry → Json}
    (hp : c.Prints valid b b.levels f) (ho : b.Owns (c.chunks ++ R)) (hc : c.isArr = false)
    (hofs : c.ofs = 0) : b.rootVal 0 = .ok (.obj (c.topMembers f)) := by
  obtain ⟨hsize, htype⟩ := type_root ho hofs
  have hrun := members_top ho hc hp.value
  rw [hofs] at hrun
  rw [Buffer.rootVal, if_pos ⟨rfl, hsize⟩, htype, hc]
  simp only [kindOf, Bool.false_eq_true, if_false, hrun]
  rfl

/-- What is printed of the root, of the object at the end of a path and at its offset -/
structure Nested (valid : List UInt8 → Prop) (b : Buffer) (path : List (List UInt8)) (o : ℕ)
    (whole : Json) (members : List (List UInt8 × Json)) : Prop where
  root : b.rootVal 0 = .ok whole
  valid : whole.All (Json.Valid valid)
  get : ∀ v, whole.get (path.map cstr) = some v ↔ b.Shown 0 path ∧ v = .obj members
  empty : members = [] ↔ b.slots o = []
  split : getChildOffset b.mem (o + 1) 0 ≠ 0 → 7 ≤ (b.slots o).length
  late : getChildOffset b.mem (o + 1) 0 = 0 → b.rootVal o = .ok (.obj [])

theorem World.Sound.nested {w : World} {cs : List Container} (hs : w.Sound) (hw : w.Backed Slim cs)
    (hr : w.HasRoot false) (hspelled : ∀ l ∈ w.cells, l.Spelled valid) (hnamed : w.Named)
    (hne : path ≠ []) (hpath : w.buf.objectAt 0 path = .ok o) :
    ∃ whole members, Nested valid w.buf path o whole members := by
  obtain ⟨d, hd, hdo, hda, hdc⟩ := hr
  have hlevels : w.cells.length ≤ d.chain.length + w.buf.levels := by
    have := hw.length_cells_le
    rw [Buffer.levels]
    omega
  obtain ⟨c₀, R₀, f₀, hQ₀, ho₀, hp₀⟩ := hw.prints hs.closed hspelled hd hlevels
  rw [← hdo] at hpath
  obtain ⟨l, c, R, f, n, hl, hlo, hlen, hQ, ho, hp, hiff⟩ :=
    hw.get_path hs.closed hspelled hnamed hd hlevels hQ₀ ho₀ hp₀ hpath
  have hc : c.isArr = false := hQ.whole.exact.tracks.kind.trans (hspelled l hl).1
  have hco : c.ofs = o := hQ.whole.exact.tracks.ofs.trans hlo
  have hslots := Container.slots ho
  subst hco
  refine ⟨.obj (c₀.topMembers f₀), c.topMembers f, ?_, hp₀.all_valid, ?_, ?_, ?_, ?_⟩
  · exact hp₀.rootVal ho₀ (hQ₀.whole.exact.tracks.kind.trans hda)
      (hQ₀.whole.exact.tracks.ofs.trans hdo)
  · rwa [hdo] at hiff
  · rw [hslots, List.map_eq_nil_iff, Container.topMembers, List.map_eq_nil_iff]
    constructor
    · exact hQ.whole.rooted.top_eq_nil
    · intro hentries
      refine List.eq_nil_iff_forall_not_mem.mpr fun e he => ?_
      have he' : e ∈ c.entries := BTree.mem_inorder_of_mem_top treeHeightMax he
      simp [hentries] at he'
  · intro hchild
    rw [hslots, List.length_map]
    exact hQ.seven_le fun hh => hchild (Container.child_late ho hh)
  · apply Container.rootVal_late ho hc (hQ.size hc)
    intro hzero
    obtain rfl : l = d := hs.unique d hd l hl (hlo.trans (hzero.trans hdo.symm))
    have := List.length_pos_iff.mpr hne
    omega

section

variable {b : Buffer} {whole : Json} {members : List (List UInt8 × Json)}

theorem Nested.text (h : Nested valid b path o whole members) (hy : y.Faithful valid)
    (hchild : getChildOffset b.mem (o + 1) 0 = 0) :
    ∃ text, toJsonString y b o = .ok text ∧ y.read text = some (.obj []) :=
  hy.prints (h.late hchild) (.obj (by simp [Json.Valid]) (by simp))

/-- An empty object that is shown is printed alike. -/
theorem Nested.alike (h : Nested valid b path o whole members) (hy : y.Faithful valid)
    (hshown : b.Shown 0 path) (hempty : b.slots o = []) : PrintsAlike y b path o := by
  obtain ⟨text, htext, hread⟩ := hy.prints h.root h.valid
  have hchild : getChildOffset b.mem (o + 1) 0 = 0 := by
    by_contra hne
    have := h.split hne
    simp [hempty] at this
  obtain ⟨out, hout, hback⟩ := h.text hy hchild
  have hget := (h.get _).mpr ⟨hshown, rfl⟩
  rw [h.empty.mpr hempty] at hget
  exact ⟨text, whole, _, out, _, htext, hread, hget, hout, hback, .obj (.refl _) rfl (by simp)⟩

/-- An object that is printed alike is shown, and it is empty or has been split. -/
theorem Nested.shown (h : Nested valid b path o whole members) (hy : y.Faithful valid)
    (halike : PrintsAlike y b path o) : b.Shown 0 path ∧
      (b.slots o = [] ∨ 7 ≤ (b.slots o).length ∧ getChildOffset b.mem (o + 1) 0 ≠ 0) := by
  obtain ⟨text', whole', v, out, v', htext', hread', hget, hout, hback, hsame⟩ := halike
  obtain ⟨text, htext, hread⟩ := hy.prints h.root h.valid
  obtain rfl : text = text' := Except.ok.inj (htext.symm.trans htext')
  obtain rfl : whole = whole' := Option.some_inj.mp (hread.symm.trans hread')
  obtain ⟨hshown, rfl⟩ := (h.get v).mp hget
  refine ⟨hshown, ?_⟩
  by_cases hchild : getChildOffset b.mem (o + 1) 0 = 0
  · left
    obtain ⟨out', hout', hback'⟩ := h.text hy hchild
    obtain rfl : out' = out := Except.ok.inj (hout'.symm.trans hout)
    obtain rfl : .obj [] = v' := Option.some_inj.mp (hback'.symm.trans hback)
    apply h.empty.mp
    cases hsame with
    | obj hperm hkeys _ =>
      have hnil := List.map_eq_nil_iff.mp hkeys
      rw [hnil] at hperm
      exact hperm.eq_nil
  · exact .inr ⟨h.split hchild, hchild⟩

end

/-- An object in a root object is printed alike at its offset if it is shown and empty; of the
others at most those that have been split are, whose node leads somewhere when it is read late. -/
theorem nested_alike (hy : y.Faithful valid) (hks : World.Careful false ks)
    (hspells : ∀ k ∈ ks, k.Spells valid) (hnamed : ((World.start false).run ks).Named)
    (hne : path ≠ []) (hpath : ((World.start false).run ks).buf.objectAt 0 path = .ok o) :
    let b := ((World.start false).run ks).buf
    (b.Shown 0 path ∧ b.slots o = [] → PrintsAlike y b path o) ∧
      (PrintsAlike y b path o → b.Shown 0 path ∧
        (b.slots o = [] ∨ 7 ≤ (b.slots o).length ∧ getChildOffset b.mem (o + 1) 0 ≠ 0)) := by
  obtain ⟨cs, hw⟩ := hks.slim
  obtain ⟨whole, members, h⟩ := hks.sound.nested hw ((World.hasRoot_start false).run ks)
    (World.uses_run hspells) hnamed hne hpath
  exact ⟨fun hc => h.alike hy hc.1 hc.2, h.shown hy⟩

/-- An object with a number and an empty object. -/
def inObject : List Call := [.create false 0 [97], .set 100 [98] (.i64 5), .create false 100 [99]]

theorem inObject_spells : ∀ k ∈ inObject, k.Spells Json.AnyString := by
  simp [inObject, Call.Uses, Scalar.atom, Atom.Valid]

theorem inObject_named : ((World.start false).run inObject).Named :=
  World.named_run (V := fun _ => True) (by simp [inObject, Call.Uses])

theorem nested_alike_deep : let b := ((World.start false).run inObject).buf
    (b.Shown 0 [[97], [99]] ∧ b.slots 212 = [] → PrintsAlike (.sample []) b [[97], [99]] 212) ∧
      (PrintsAlike (.sample []) b [[97], [99]] 212 → b.Shown 0 [[97], [99]] ∧
        (b.slots 212 = [] ∨ 7 ≤ (b.slots 212).length ∧ getChildOffset b.mem (212 + 1) 0 ≠ 0)) :=
  nested_alike (Yyjson.sample_faithful (by simp) (by simp) (by simp)) (by decide +kernel)
    inObject_spells inObject_named (by simp) (by decide +kernel)

/-- The object with the number and the empty object is printed as an empty object. -/
theorem members_lost : ¬ ∀ (y : Yyjson) (valid : List UInt8 → Prop) (ks : List Call)
    (path : List (List UInt8)) (o : ℕ), y.Faithful valid → World.Careful false ks →
    (∀ k ∈ ks, k.Spells valid) → ((World.start false).run ks).Named → path ≠ [] →
    ((World.start false).run ks).buf.objectAt 0 path = .ok o →
    PrintsAlike y ((World.start false).run ks).buf path o := by
  intro h
  have hy : (Yyjson.sample []).Faithful Json.AnyString :=
    Yyjson.sample_faithful (by simp) (by simp) (by simp)
  have hks : World.Careful false inObject := by decide +kernel
  have hpath : ((World.start false).run inObject).buf.objectAt 0 [[97]] = .ok 100 := by
    decide +kernel
  have halike := h _ _ inObject [[97]] 100 hy hks inObject_spells inObject_named (by simp) hpath
  obtain ⟨cs, hw⟩ := hks.slim
  obtain ⟨whole, members, hn⟩ := hks.sound.nested hw ((World.hasRoot_start false).run inObject)
    (World.uses_run inObject_spells) inObject_named (by simp) hpath
  have hslots : (((World.start false).run inObject).buf.slots 100).length = 2 := by decide +kernel
  rcases (hn.shown hy halike).2 with hempty | ⟨hsplit, -⟩
  · rw [hempty] at hslots
    cases hslots
  · omega

end Lite3
