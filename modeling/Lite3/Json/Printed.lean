import Lite3.Json.Stored
import Lite3.Json.Yyjson
import Lite3.Layout.Getters
import Lite3.Layout.Top
import Lite3.Store.Proxy

/-! # Printing values

The loop over an object yields its entries in order. What is printed of a stored
value is the value itself, with the members of objects in the order of their
hashes and the atoms as the getters read them.
-/

namespace Lite3

open Bytes Config Lite3.Tree

/-- The atom that a scalar is printed as. -/
def Scalar.atom : Scalar → Atom
  | .null => .null
  | .bool v => .bool v
  | .i64 v => .int v.toInt
  | .f64 bits => .real bits
  | .str s => .str s
  | .bytes bs => .str (hexText bs)

/-- The value that is printed for a stored value. -/
def Json.printed (y : Yyjson) (v : Json) : Json := v.map (fun a => (a.scalar y).atom) cstr

namespace Buffer

/-- The keys of the path lie in the first ten levels of their objects. -/
def Shown (b : Buffer) : ℕ → List (List UInt8) → Prop
  | _, [] => True
  | o, k :: ks =>
    (∃ v ∈ Iterator.shown b.mem b.data.length (Stop.layer b.mem (Stop.below b.mem treeHeightMax) o),
      v.key = k) ∧ ∀ o', b.getObj o k = .ok o' → b.Shown o' ks

/-- The keys of the value lie in the first ten levels of their objects, the outermost at the
offset. -/
def ShowsAll (b : Buffer) (v : Json) (o : ℕ) : Prop :=
  ∀ path u, v.get path = some u → b.Shown o (path.map cstr)

end Buffer

theorem cstr_append_zero (s r : List UInt8) : cstr (s ++ 0 :: r) = cstr s := by
  induction s with
  | nil => rfl
  | cons c s ih =>
    by_cases hc : c = 0
    · simp [cstr, hc]
    · have := congrArg (c :: ·) ih
      simpa [cstr, hc] using this

@[simp] theorem cstr_cstr (s : List UInt8) : cstr (cstr s) = cstr s := List.takeWhile_idem

theorem cstr_eq_self {s : List UInt8} (h : 0 ∉ s) : cstr s = s :=
  List.takeWhile_eq_self_iff.mpr fun c hc => by simpa using fun h0 : c = 0 => h (h0 ▸ hc)

variable {b : Buffer} {c : Container} {R : List Chunk} {e : Entry} {it : Item} {n p : ℕ}

theorem Entry.Held.cstringAt (h : e.Held false b.mem) (hr : e.Readable false)
    (hs : (e.chunk false).stop ≤ b.data.length) : b.cstringAt (e.ofs + 1) = cstr e.key := by
  have hk := h.keyAt
  rw [keyBytes_short hr.key, at_cons] at hk
  have hk : slice b.mem (e.ofs + 1) (e.key ++ [0]).length = e.key ++ [0] := hk.2
  have hle : e.ofs + 1 + (e.key ++ [0]).length ≤ b.data.length := by
    refine le_trans ?_ hs
    simp only [Chunk.stop, Entry.chunk, Entry.bytes, keyBytes_short hr.key, List.length_append,
      List.length_cons, List.length_nil]
    omega
  rw [Buffer.cstringAt, show b.data.length - (e.ofs + 1) = (e.key ++ [0]).length +
    (b.data.length - (e.ofs + 1) - (e.key ++ [0]).length) by omega, slice_add, hk,
    List.append_assoc, List.singleton_append, cstr_append_zero]

theorem Entry.Readable.keyOfs (hr : e.Readable false) :
    e.valueOfs false - 1 - e.key.length = e.ofs + 1 := by
  rw [Entry.valueOfs, keyBytes_short hr.key]
  simp only [List.length_cons, List.length_append, List.length_nil]
  omega

/-- The loop over what an iterator has still to show, whatever the bytes are. -/
theorem Iterator.Heads.members {it : Iterator} {ι : Type} {xs : List ι} {g : ι → IterValue}
    (hp : it.Heads b.mem b.data.length (xs.map g)) (hd : b.data ≠ [])
    {value : ℕ → Except Fault Json}
    {f : ι → Json} (hxs : ∀ x ∈ xs, value (g x).valueOffset = .ok (f x)) (hn : xs.length < n) :
    b.members value n it =
      .ok (xs.map fun x => (b.cstringAt ((g x).valueOffset - 1 - (g x).key.length), f x)) := by
  induction xs generalizing it n with
  | nil =>
    obtain ⟨n, rfl⟩ : ∃ k, n = k + 1 := ⟨n - 1, by omega⟩
    have hb : it.hasBuffer = false := hp
    have hequals : it.equals b .atEnd = true := if_pos ⟨hb, rfl⟩
    rw [Buffer.members, hequals, if_pos rfl]
    rfl
  | cons x xs ih =>
    rw [List.length_cons] at hn
    obtain ⟨n, rfl⟩ : ∃ k, n = k + 1 := ⟨n - 1, by omega⟩
    obtain ⟨hb, hcur, hgen, hlen, hrest⟩ := hp
    obtain ⟨hval, hxs⟩ := List.forall_mem_cons.mp hxs
    have hequals : it.equals b .atEnd = false := by
      rw [Iterator.equals, if_neg (by simp [hb]),
        if_pos (Or.inr (show Iterator.atEnd.hasBuffer = false from rfl))]
    have hderef : it.deref b = .ok (some (g x)) := by
      rw [Iterator.deref, if_neg (by simp [hb, hd]), if_neg (by simp [hgen]), hcur]
    have hnext := heads_findNext hb (show b.data.length ≠ 0 by simpa using hd) hgen hlen
    rw [hrest] at hnext
    have hloop : b.members value n (it.next b) = _ := ih hnext hxs (by omega)
    rw [Buffer.members, hequals, if_neg (by simp), hderef]
    simp only [hval, hloop]
    rfl

/-- The loop over an object prints the entries of its first ten levels. -/
theorem Container.members_top (ho : b.Owns (c.chunks ++ R)) (hc : c.isArr = false)
    {value : ℕ → Except Fault Json} {f : Entry → Json}
    (hv : ∀ e ∈ c.entries, value (e.valueOfs false) = .ok (f e)) :
    b.members value b.levels (b.begin c.ofs) =
      .ok ((c.tree.top treeHeightMax).map fun e => (cstr e.key, f e)) := by
  have hd := data_ne_nil ho
  have hsize : b.data.length ≠ 0 := by simpa using hd
  have hmem : ∀ e ∈ c.tree.top treeHeightMax, e ∈ c.entries :=
    fun e => BTree.mem_inorder_of_mem_top treeHeightMax
  have hheads := Iterator.heads_begin (m := b.mem) hsize c.ofs
  rw [← Iterator.begin_eq_beginAt, shown_top ho hc] at hheads
  have hlen : (c.tree.top treeHeightMax).length < b.levels := by
    have hle := Owned.length_le (Owned.sublist ho (List.sublist_append_left _ R))
      (c.tree.chunks_ne_nil c.isArr)
    have hf := ho.fits
    have htop := BTree.length_top_le treeHeightMax c.tree
    rw [chunks, NodeTree.chunks, List.length_append, List.length_map, List.length_map] at hle
    rw [Buffer.levels]
    omega
  have hrun := hheads.members hd (fun e he => hv e (hmem e he)) hlen
  refine hrun.trans (congrArg _ (List.map_congr_left fun e he => ?_))
  obtain ⟨hheld, hread⟩ := (seen ho).entry (hmem e he)
  rw [hc] at hheld hread
  have hchunk : e.chunk false ∈ c.chunks ++ R :=
    List.mem_append_left _ (List.mem_append_right _ (hc ▸ List.mem_map_of_mem (hmem e he)))
  rw [Entry.view, hread.keyOfs, hheld.cstringAt hread ((ho.below _ hchunk).trans ho.fits)]

theorem Container.members (ho : b.Owns (c.chunks ++ R)) (hc : c.isArr = false)
    (hh : c.height ≤ treeHeightMax) {value : ℕ → Except Fault Json} {f : Entry → Json}
    (hv : ∀ e ∈ c.entries, value (e.valueOfs false) = .ok (f e)) :
    b.members value b.levels (b.begin c.ofs) = .ok (c.entries.map fun e => (cstr e.key, f e)) := by
  rw [members_top ho hc hv, BTree.top_eq_inorder hh]
  rfl

/-- The type tag and the payload of an item. -/
structure TagAt (b : Buffer) (p : ℕ) (it : Item) : Prop where
  type : ValueType.ofCode (b.mem p) = it.type
  payload : Buffer.payload b.mem it.type (p + 1) = it.image
  ofs : ∀ a o, it = .nested a o → p + 1 = o

theorem Entry.Holds.tagAt (h : e.Holds false it) (hheld : e.Held false b.mem)
    (hread : e.Readable false) : TagAt b (e.valueOfs false) it where
  type := h.type ▸ hheld.type hread
  payload := h.type ▸ h.val ▸ hheld.payload hread
  ofs := h.ofs

theorem TagAt.scalar {v : Scalar} (h : TagAt b p (.scalar v)) (hn : 0 < n) :
    b.toYyjsonVal n p = .ok (.atom v.atom) := by
  obtain ⟨n, rfl⟩ : ∃ k, n = k + 1 := ⟨n - 1, by omega⟩
  have ht := h.type
  have hv := h.payload
  rw [Buffer.toYyjsonVal, ht]
  rcases v with _ | v | v | v | v | v <;> simp only [Item.type, Scalar.type, Item.image] at hv ⊢
  · rfl
  · rw [Buffer.readBool_eq hv]
    rfl
  · rw [Buffer.readI64_eq hv]
    rfl
  · rw [Buffer.readF64_eq hv]
    rfl
  · rw [Buffer.readSpan_str hv]
    rfl
  · rw [Buffer.readSpan_bytes hv]
    rfl

theorem Container.height_le_max (hr : BTree.Rooted c.tree) (hn : c.entries.length < 2097151) :
    c.height ≤ treeHeightMax := by
  by_contra hlt
  have hpow := hr.pow_le c.shaped (by omega)
  have hmono : 4 ^ 10 ≤ 4 ^ c.height :=
    Nat.pow_le_pow_right (by omega) (by simp only [treeHeightMax] at hlt; omega)
  have hlen : c.tree.inorder.length = c.entries.length := rfl
  simp only [Nat.reduceAdd, Nat.reducePow] at hpow hmono
  omega

theorem Mirrors.nodup_keys {l : Cell} (hm : Mirrors c l) : (c.entries.map Entry.key).Nodup := by
  rw [List.Nodup, List.pairwise_map]
  refine hm.ordered.imp_of_mem fun {e f} he hf hlt hk => ?_
  have hfiled : e.filed = f.filed := by
    rw [Entry.filed, Entry.filed, hm.hashed e he, hm.hashed f hf, hk]
  rw [hfiled] at hlt
  simp [Std.ReflCmp.compare_self] at hlt

theorem Mirrors.holds {l : Cell} (hm : Mirrors c l) (he : e ∈ c.entries)
    (hf : l.fields e.key = some it) : e.Holds false it := by
  obtain ⟨e', he', hk, hh⟩ := hm.item e.key it hf
  rwa [List.inj_on_of_nodup_map hm.nodup_keys he' he hk] at hh

theorem Mirrors.entries_perm {ι : Type} [Nonempty ι] {l : Cell} (hm : Mirrors c l) {ms : List ι}
    {key : ι → List UInt8} {item : ι → Item} (hfields : ∀ m ∈ ms, l.fields (key m) = some (item m))
    (hknown : ∀ k, l.fields k ≠ none → ∃ m ∈ ms, key m = k)
    (hnodup : (ms.map fun m => djb2Hash (key m)).Nodup) :
    ∃ memberOf : Entry → ι, (c.entries.map memberOf).Perm ms ∧ ∀ e ∈ c.entries,
      memberOf e ∈ ms ∧ key (memberOf e) = e.key ∧ e.Holds false (item (memberOf e)) := by
  have hentry : ∀ e ∈ c.entries, ∃ m, m ∈ ms ∧ key m = e.key ∧ e.Holds false (item m) := by
    intro e he
    obtain ⟨m, hmem, hk⟩ := hknown e.key (hm.known e he)
    exact ⟨m, hmem, hk, hm.holds he (hk ▸ hfields m hmem)⟩
  choose! memberOf hof using hentry
  have hkeys : (c.entries.map memberOf).map key = c.entries.map Entry.key := by
    rw [List.map_map]
    exact List.map_congr_left fun e he => (hof e he).2.1
  refine ⟨memberOf, ?_, hof⟩
  refine (List.perm_ext_iff_of_nodup (List.Nodup.of_map key (hkeys ▸ hm.nodup_keys))
    (List.Nodup.of_map _ hnodup)).mpr fun m => ⟨fun h => ?_, fun hmem => ?_⟩
  · obtain ⟨e, he, rfl⟩ := List.mem_map.mp h
    exact (hof e he).1
  · obtain ⟨e, he, hk, -⟩ := hm.item _ _ (hfields m hmem)
    have hke : key (memberOf e) = key m := (hof e he).2.1.trans hk
    exact List.mem_map.mpr
      ⟨e, he, List.inj_on_of_nodup_map hnodup (hof e he).1 hmem (congrArg djb2Hash hke)⟩

variable {y : Yyjson} {C : Cell → Prop} {v : Json} {w : World} {cs : List Container} {l : Cell}
  {members : List (List UInt8 × Json)} {item : List UInt8 × Json → Item} {valid : List UInt8 → Prop}

/-- The keys of an object without repetitions are shown with all that is below them. -/
theorem Buffer.showsAll_obj {b : Buffer} {o : ℕ} (hkeyed : (Json.obj members).Keyed) :
    b.ShowsAll (.obj members) o ↔ ∀ m ∈ members,
      (∃ u ∈ Iterator.shown b.mem b.data.length
        (Stop.layer b.mem (Stop.below b.mem treeHeightMax) o),
        u.key = cstr m.1) ∧ ∀ o', b.getObj o (cstr m.1) = .ok o' → b.ShowsAll m.2 o' := by
  have hn : (members.map Prod.fst).Nodup :=
    List.Nodup.of_map (fun k => djb2Hash (cstr k)) (by rw [List.map_map]; exact hkeyed.2)
  constructor
  · intro h m hm
    have hget := Json.get_obj_of_mem hn (show (m.1, m.2) ∈ members from hm)
    exact ⟨(h [m.1] m.2 (hget [])).1, fun o' ho' path u hu =>
      (h (m.1 :: path) u ((hget path).trans hu)).2 o' ho'⟩
  · intro h path u hu
    cases path with
    | nil => trivial
    | cons k ks =>
      obtain ⟨v, hv, hget⟩ := Json.get_obj hu
      exact ⟨(h _ hv).1, fun o' ho' => (h _ hv).2 o' ho' ks u hget⟩

theorem World.Backed.members_printed (hw : w.Backed Whole cs) (hl : l ∈ w.cells)
    (hla : l.isArr = false) (hfields : ∀ m ∈ members, l.fields (cstr m.1) = some (item m))
    (hknown : ∀ k, l.fields k ≠ none → ∃ m ∈ members, cstr m.1 = k)
    (hkeyed : (Json.obj members).Keyed) {value : ℕ → Except Fault Json}
    {S : List UInt8 × Json → Prop} (hval : ∀ m ∈ members, ∀ p, TagAt w.buf p (item m) →
      ∃ j, value p = .ok j ∧ ((m.2.printed y).Same j ↔ S m) ∧
        ∀ valid, (m.2.printed y).All (Json.Valid valid) → j.All (Json.Valid valid)) :
    ∃ ms, w.buf.members value w.buf.levels (w.buf.begin l.ofs) = .ok ms ∧
      (((Json.obj members).printed y).Same (.obj ms) ↔ ∀ m ∈ members,
        (∃ u ∈ Iterator.shown w.buf.mem w.buf.data.length
          (Stop.layer w.buf.mem (Stop.below w.buf.mem treeHeightMax) l.ofs), u.key = cstr m.1) ∧
          S m) ∧
      ∀ valid, ((Json.obj members).printed y).All (Json.Valid valid) →
        (Json.obj ms).All (Json.Valid valid) := by
  obtain ⟨c, R, -, hQ, ho⟩ := hw.container hl
  have hc : c.isArr = false := hQ.exact.tracks.kind.trans hla
  have hm := hQ.exact.mirrors hc
  obtain ⟨memberOf, hperm, hof⟩ := hm.entries_perm hfields hknown hkeyed.2
  have hvalue : ∀ e ∈ c.entries, ∃ j, value (e.valueOfs false) = .ok j ∧
      (((memberOf e).2.printed y).Same j ↔ S (memberOf e)) ∧
      ∀ valid, ((memberOf e).2.printed y).All (Json.Valid valid) → j.All (Json.Valid valid) := by
    intro e he
    obtain ⟨hheld, hread⟩ := (Container.seen ho).entry he
    rw [hc] at hheld hread
    exact hval _ (hof e he).1 _ ((hof e he).2.2.tagAt hheld hread)
  choose! f hf using hvalue
  have hrun := Container.members_top ho hc fun e he => (hf e he).1
  have hshown := Container.shown_top ho hc
  have htop : ∀ e ∈ c.tree.top treeHeightMax, e ∈ c.entries :=
    fun e => BTree.mem_inorder_of_mem_top treeHeightMax
  have hnodup : ((members.map fun m => (cstr m.1, m.2.printed y)).map Prod.fst).Nodup := by
    refine List.Nodup.of_map djb2Hash ?_
    rw [List.map_map, List.map_map]
    exact hkeyed.2
  have hmembers : (c.entries.map fun e => (cstr (memberOf e).1, (memberOf e).2.printed y)).Perm
      (members.map fun m => (cstr m.1, m.2.printed y)) := by
    have h := hperm.map fun m => (cstr m.1, m.2.printed y)
    rw [List.map_map] at h
    exact h
  have hkeys : (c.tree.top treeHeightMax).map (fun e => (cstr e.key, f e)) =
      (c.tree.top treeHeightMax).map fun e => (cstr (memberOf e).1, f e) := by
    refine List.map_congr_left fun e he => ?_
    rw [← (hof e (htop e he)).2.1, cstr_cstr]
  rw [hQ.exact.tracks.ofs] at hrun hshown
  refine ⟨_, hrun, ?_, ?_⟩
  · have hsame := Json.same_obj_iff (f := f) hmembers hnodup htop
      (BTree.length_top_le treeHeightMax c.tree)
    have hviewed : ∀ e ∈ c.entries, e ∈ c.tree.top treeHeightMax ↔
        ∃ u ∈ (c.tree.top treeHeightMax).map Entry.view, u.key = cstr (memberOf e).1 := by
      intro e he
      rw [(hof e he).2.1]
      refine ⟨fun h => ⟨e.view, List.mem_map_of_mem h, rfl⟩, ?_⟩
      rintro ⟨u, hu, huk⟩
      obtain ⟨d, hd, rfl⟩ := List.mem_map.mp hu
      exact List.inj_on_of_nodup_map hm.nodup_keys (htop d hd) he huk ▸ hd
    rw [hshown, Json.printed, Json.map_obj, hkeys]
    refine hsame.trans ⟨fun h m hm => ?_, fun h e he => ?_⟩
    · obtain ⟨e, he, rfl⟩ := List.mem_map.mp (hperm.mem_iff.mpr hm)
      exact ⟨(hviewed e he).mp (h e he).1, (hf e he).2.1.mp (h e he).2⟩
    · have hshow := h _ (hof e he).1
      exact ⟨(hviewed e he).mpr hshow.1, (hf e he).2.1.mpr hshow.2⟩
  · intro valid hvalid
    rw [Json.printed, Json.map_obj] at hvalid
    obtain ⟨hv, hall⟩ := Json.all_obj.mp hvalid
    have hmem : ∀ e ∈ c.tree.top treeHeightMax, valid (cstr e.key) ∧
        (f e).All (Json.Valid valid) := by
      intro e he
      obtain ⟨hm, hk, -⟩ := hof e (htop e he)
      have hin := List.mem_map_of_mem (f := fun m => (cstr m.1, m.2.printed y)) hm
      have hkey : valid (cstr (memberOf e).1) := hv _ hin
      rw [← cstr_cstr, hk] at hkey
      exact ⟨hkey, (hf e (htop e he)).2.2 valid (hall _ hin)⟩
    refine .obj (fun u hu => ?_) fun u hu => ?_
    · obtain ⟨e, he, rfl⟩ := List.mem_map.mp hu
      exact (hmem e he).1
    · obtain ⟨e, he, rfl⟩ := List.mem_map.mp hu
      exact (hmem e he).2

theorem World.Backed.shown_of_counted (hw : w.Backed Whole cs) (hl : l ∈ w.cells)
    (hla : l.isArr = false) (hfields : ∀ m ∈ members, l.fields (cstr m.1) = some (item m))
    (hknown : ∀ k, l.fields k ≠ none → ∃ m ∈ members, cstr m.1 = k)
    (hcount : members.length < 2097151) : ∀ m ∈ members, ∃ u ∈ Iterator.shown w.buf.mem
      w.buf.data.length (Stop.layer w.buf.mem (Stop.below w.buf.mem treeHeightMax) l.ofs),
        u.key = cstr m.1 := by
  obtain ⟨c, R, -, hQ, ho⟩ := hw.container hl
  have hc : c.isArr = false := hQ.exact.tracks.kind.trans hla
  have hm := hQ.exact.mirrors hc
  have hsub : c.entries.map Entry.key ⊆ members.map fun m => cstr m.1 := by
    intro k hk
    obtain ⟨e, he, rfl⟩ := List.mem_map.mp hk
    obtain ⟨m, hmem, hmk⟩ := hknown e.key (hm.known e he)
    exact List.mem_map.mpr ⟨m, hmem, hmk⟩
  have hlen : c.entries.length ≤ members.length := by
    simpa using (hm.nodup_keys.subperm hsub).length_le
  have hheight := Container.height_le_max hQ.rooted (hlen.trans_lt hcount)
  intro m hmem
  obtain ⟨e, he, hk, -⟩ := hm.item _ _ (hfields m hmem)
  rw [← hQ.exact.tracks.ofs, Container.shown_top ho hc, BTree.top_eq_inorder hheight]
  exact ⟨e.view, List.mem_map_of_mem he, hk⟩

theorem mapM_eq_ok {α β : Type} {f : α → Except Fault β} {g : α → β} {xs : List α}
    (h : ∀ x ∈ xs, f x = .ok (g x)) : xs.mapM f = .ok (xs.map g) := by
  induction xs with
  | nil => rfl
  | cons x xs ih =>
    rw [List.mapM_cons, h x (by simp), ih fun z hz => h z (List.mem_cons_of_mem _ hz)]
    rfl

theorem World.Backed.elements_eq (hw : w.Backed Whole cs) (hl : l ∈ w.cells) (hla : l.isArr = true)
    {β : Type} {f : UInt32 → Except Fault β} {g : Item → β}
    (hf : ∀ i, ∀ it ∈ l.items, w.buf.arrGetType l.ofs i = .ok it.type → f i = .ok (g it)) :
    w.buf.elements f l.ofs = .ok (l.items.map g) := by
  obtain ⟨c, R, -, hQ, -⟩ := hw.container hl
  have hbound := (hQ.exact.tracks.elements (hQ.exact.tracks.kind.trans hla)).bound
  obtain ⟨hsize, hread, -⟩ := (hw.imp fun _ _ h => h.exact.tracks).arraysRead l hl hla
  have helem : ∀ i ∈ List.range l.items.length, f (.ofNat i) =
      .ok (g (l.items.getD i (.scalar .null))) := by
    intro i hi
    have hi := List.mem_range.mp hi
    have htoNat : (UInt32.ofNat i).toNat = i := UInt32.toNat_ofNat_of_lt' (show i < 2 ^ 32 by omega)
    have hit : l.items[(UInt32.ofNat i).toNat]? = some l.items[i] := by simp [htoNat, hi]
    rw [hf _ _ (List.getElem_mem hi) (hread _ _ hit).1]
    simp [hi]
  rw [Buffer.elements, hsize, mapM_eq_ok helem]
  congr 1
  apply List.ext_getElem
  · simp
  · intro i h₁ h₂
    simp only [List.length_map] at h₂
    simp [h₂]

theorem World.Backed.elements_printed (hw : w.Backed Whole cs) (hl : l ∈ w.cells)
    (hla : l.isArr = true) (hnull : ∀ it ∈ l.items, it = .scalar .null) (hp : p + 1 = l.ofs)
    (value : ℕ → Except Fault Json) :
    w.buf.elements (w.buf.element value p) l.ofs =
      .ok (List.replicate l.items.length [.atom .null]) := by
  rw [hw.elements_eq (g := fun _ => [.atom .null]) hl hla fun i it hit htype => ?_, List.map_const']
  rw [hnull it hit] at htype
  rw [Buffer.element, hp, htype]
  rfl

theorem World.Backed.nulls_printed (hw : w.Backed Whole cs) (hl : l ∈ w.cells)
    (hla : l.isArr = true) (hitems : ∀ it ∈ l.items, it = .scalar .null) {items : List Json}
    (hlen : l.items.length = items.length) (hnull : ∀ v ∈ items, v = .atom .null)
    (ht : TagAt w.buf p (.nested true l.ofs)) (n : ℕ) :
    ∃ j, w.buf.toYyjsonVal (n + 1) p = .ok j ∧ ((Json.arr items).printed y).Same j := by
  have helems := hw.elements_printed hl hla hitems (ht.ofs _ _ rfl) (w.buf.toYyjsonVal n)
  refine ⟨.arr (List.replicate l.items.length [Json.atom .null]).flatten, ?_, ?_⟩
  · rw [Buffer.toYyjsonVal, ht.type]
    simp only [Item.type, kindOf, if_true, ht.ofs _ _ rfl, helems]
    rfl
  · have hrep : items.map (Json.map (fun a => (a.scalar y).atom) cstr) =
        List.replicate items.length (.atom .null) := by
      apply List.eq_replicate_iff.mpr
      constructor
      · simp
      · intro v hv
        obtain ⟨u, hu, rfl⟩ := List.mem_map.mp hv
        rw [hnull u hu]
        simp [Atom.scalar, Scalar.atom]
    rw [Json.printed, Json.map_arr, hlen, List.flatten_replicate_singleton, hrep]
    apply Json.Same.arr rfl
    intro q hq
    obtain ⟨h₁, h₂⟩ := List.of_mem_zip hq
    rw [List.eq_of_mem_replicate h₁, List.eq_of_mem_replicate h₂]
    exact .atom _

theorem World.Backed.getObj_eq (hw : w.Backed Whole cs) (hl : l ∈ w.cells) (hla : l.isArr = false)
    {k : List UInt8} (hf : l.fields k = some it) (o : ℕ) :
    w.buf.getObj l.ofs k = .ok o ↔ it = .nested false o := by
  have hfaithful := (hw.imp fun _ _ h => h.exact).faithful
  rcases hfaithful.getContainer hl hla k false with ⟨o', hfield, hget⟩ | ⟨hno, e, hget⟩
  · have hget : w.buf.getObj l.ofs k = .ok o' := hget
    rw [hget, Option.some_inj.mp (hf.symm.trans hfield)]
    simp [eq_comm]
  · have hget : w.buf.getObj l.ofs k = .error (.exception e) := hget
    rw [hget]
    constructor
    · intro h
      cases h
    · rintro rfl
      exact absurd hf (hno o)

variable {j j' : Json}

theorem Json.Same.all_valid (h : j.Same j') (hj : j.All (Json.Valid valid)) :
    j'.All (Json.Valid valid) := by
  induction h with
  | atom a => exact hj
  | @arr xs ys hlen _ ih =>
    obtain ⟨-, hall⟩ := Json.all_arr.mp hj
    refine .arr trivial fun v hv => ?_
    obtain ⟨i, hi, rfl⟩ := List.mem_iff_getElem.mp hv
    exact ih _ (Json.getElem_mem_zip (hlen ▸ hi) hi) (hall _ (List.getElem_mem _))
  | @obj xs xs' ys hperm hkeys _ ih =>
    obtain ⟨hv, hall⟩ := Json.all_obj.mp hj
    have hlen : xs'.length = ys.length := by simpa using congrArg List.length hkeys
    refine .obj (fun m hm => ?_) fun m hm => ?_
    · have hk : m.1 ∈ xs'.map Prod.fst := hkeys ▸ List.mem_map_of_mem hm
      obtain ⟨u, hu, hue⟩ := List.mem_map.mp hk
      exact hue ▸ hv u (hperm.mem_iff.mpr hu)
    · obtain ⟨i, hi, rfl⟩ := List.mem_iff_getElem.mp hm
      exact ih _ (Json.getElem_mem_zip (hlen ▸ hi) hi)
        (hall _ (hperm.mem_iff.mpr (List.getElem_mem _)))

/-- What is printed of a stored value, which is all of it if all its keys are shown. -/
theorem Stored.printed {it : Item} (hw : w.Backed Whole cs) (hs : Stored y C v it)
    (hC : ∀ d, C d → d ∈ w.cells) (hkeyed : v.All Json.Keyed) (hnulls : v.All Json.Nulls)
    (ht : TagAt w.buf p it) (hn : 0 < n)
    (hd : ∀ a o, it = .nested a o → w.buf.data.length < n + o) :
    ∃ j, w.buf.toYyjsonVal n p = .ok j ∧
      ((v.printed y).Same j ↔ ∀ o, it = .nested false o → w.buf.ShowsAll v o) ∧
      ∀ valid, (v.printed y).All (Json.Valid valid) → j.All (Json.Valid valid) := by
  induction hs generalizing p n with
  | atom a =>
    rw [Json.printed, Json.map_atom]
    exact ⟨_, ht.scalar hn, iff_of_true (.atom _) (by simp), fun _ => id⟩
  | @arr items l hl hla hlen hs _ ih =>
    obtain ⟨n, rfl⟩ : ∃ k, n = k + 1 := ⟨n - 1, by omega⟩
    have hnull : ∀ v ∈ items, v = .atom .null := fun v hv => (hnulls.self v hv).eq
    have hitems : ∀ it ∈ l.items, it = .scalar .null := by
      intro it hit
      obtain ⟨i, hi, rfl⟩ := List.mem_iff_getElem.mp hit
      have h := hs _ (Json.getElem_mem_zip (hlen ▸ hi) hi)
      rw [hnull _ (List.getElem_mem (by omega))] at h
      generalize l.items[i] = it at h
      cases h
      rfl
    obtain ⟨j, hj, hsame⟩ := hw.nulls_printed (hC l hl) hla hitems hlen.symm hnull ht n
    exact ⟨j, hj, iff_of_true hsame (by simp), fun _ => hsame.all_valid⟩
  | @obj members l item hl hla hfields _ habove hknown ih =>
    obtain ⟨n, rfl⟩ : ∃ k, n = k + 1 := ⟨n - 1, by omega⟩
    obtain ⟨hk, hkall⟩ := Json.all_obj.mp hkeyed
    obtain ⟨-, hnall⟩ := Json.all_obj.mp hnulls
    have hofs := hw.ofs_lt_usedSize (hC l hl)
    have hfits := hw.owns.fits
    have hlen := hd _ _ rfl
    obtain ⟨ms, hms, hsame, hvalid⟩ := hw.members_printed (hC l hl) hla hfields hknown hk
      fun m hm p hp => ih m hm (hkall m hm) (hnall m hm) hp (show 0 < n by omega) fun a o ho => by
        have := habove m hm a o ho
        omega
    refine ⟨.obj ms, ?_, hsame.trans ?_, hvalid⟩
    · rw [Buffer.toYyjsonVal, ht.type]
      simp only [Item.type, kindOf, ht.ofs _ _ rfl, hms]
      rfl
    · have hobj : (∀ o, Item.nested false l.ofs = .nested false o →
          w.buf.ShowsAll (.obj members) o) ↔ w.buf.ShowsAll (.obj members) l.ofs := by simp
      rw [hobj, Buffer.showsAll_obj hk]
      refine forall₂_congr fun m hm => and_congr_right fun _ => forall_congr' fun o => ?_
      rw [hw.getObj_eq (hC l hl) hla (hfields m hm)]

theorem Stored.showsAll {it : Item} (hw : w.Backed Whole cs) (hs : Stored y C v it)
    (hC : ∀ d, C d → d ∈ w.cells) (hkeyed : v.All Json.Keyed) (hcount : v.All Json.Counted) :
    ∀ o, it = .nested false o → w.buf.ShowsAll v o := by
  induction hs with
  | atom | arr => simp
  | @obj members l item hl hla hfields _ _ hknown ih =>
    intro o ho
    obtain rfl : l.ofs = o := (Item.nested.inj ho).2
    obtain ⟨hk, hkall⟩ := Json.all_obj.mp hkeyed
    obtain ⟨hlt, hcall⟩ := Json.all_obj.mp hcount
    refine (Buffer.showsAll_obj hk).mpr fun m hm => ⟨?_, fun o' ho' => ?_⟩
    · exact hw.shown_of_counted (hC l hl) hla hfields hknown hlt m hm
    · exact ih m hm (hkall m hm)
        (hcall m hm) o' ((hw.getObj_eq (hC l hl) hla (hfields m hm) o').mp ho')

end Lite3
