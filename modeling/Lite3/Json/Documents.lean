import Lite3.Json.Offsets
import Lite3.Store.Statements

/-! # Printing documents

What is printed of a buffer with objects and scalars has at every path what its
document has there.
-/

namespace Lite3

open Bytes Config Paths Lite3.Tree

/-- A scalar, or whether it is an array that stands there. -/
def Json.top : Json → Atom ⊕ Bool
  | .atom a => .inl a
  | .arr _ => .inr true
  | .obj _ => .inr false

def Node.top : Node → Atom ⊕ Bool
  | scalar v => .inl v.atom
  | container isArr => .inr isArr

/-- The keys of the list -/
def Place.Among (names : List (List UInt8)) (p : Place) : Prop := ∃ k ∈ names, p = .key k

instance (names : List (List UInt8)) (p : Place) : Decidable (p.Among names) :=
  inferInstanceAs (Decidable (∃ k ∈ names, p = .key k))

theorem Place.among_key {names : List (List UInt8)} {k : List UInt8} :
    (key k).Among names ↔ k ∈ names := by
  simp [Among]

variable {y : Yyjson} {valid : List UInt8 → Prop} {w : World} {d : Doc} {l : Cell} {q : List Place}
  {names : List (List UInt8)} {V : Scalar → Prop} {cs : List Container} {n : ℕ} {v : Scalar}
  {key : List UInt8} {root : Bool}

namespace World

theorem Represents.get_below {Q : Place → Prop} (h : w.Represents Q V root d)
    (hq : w.At q (.scalar v)) (p : Place) : d.get (q ++ [p]) = none := by
  rw [Option.eq_none_iff_forall_ne_some]
  intro n hn
  obtain ⟨it, hit, -⟩ := (h.get _ n).mp hn
  obtain ⟨l, -, hq', -, -⟩ := at_concat.mp hit
  cases hq.item_unique h.sound hq'

theorem Reached.uses (h : w.Reached (Place.Among names) V false) :
    ∀ l ∈ w.cells, l.Uses (· ∈ names) V := by
  induction h with
  | start =>
    have hnil : ∀ k ∈ ([] : List Call), k.Uses (· ∈ names) V := by simp
    exact uses_run hnil
  | @step w k _ _ _ _ htakes ih =>
    refine uses_step ih ?_
    cases k with
    | set ofs key v => exact ⟨Place.among_key.mp htakes.1, htakes.2⟩
    | create isArr ofs key =>
      obtain ⟨hkey, p, ⟨k, -, rfl⟩, rfl⟩ := htakes
      exact ⟨rfl, Place.among_key.mp hkey⟩
    | append ofs v =>
      obtain ⟨⟨i, k, -, he⟩, -⟩ := htakes
      cases he
    | appendNew isArr ofs =>
      obtain ⟨⟨i, k, -, he⟩, -⟩ := htakes
      cases he
  | reload _ ih => exact ih

theorem Reached.hasRoot {Q : Place → Prop} (h : w.Reached Q V root) : w.HasRoot root := by
  induction h with
  | start => exact hasRoot_start root
  | step _ _ _ _ _ ih => exact ih.run [_]
  | reload _ ih => exact ih

theorem Reached.spelled (h : w.Reached (Place.Among names) V false)
    (hV : ∀ x, V x → x.atom.Valid valid) (hnames : ∀ k ∈ names, 0 ∉ k ∧ valid k) :
    ∀ l ∈ w.cells, l.Spelled valid := by
  intro l hl
  obtain ⟨hla, hitems⟩ := h.uses l hl
  refine ⟨hla, fun key it hit => ?_⟩
  obtain ⟨hkey, hv⟩ := hitems key it hit
  obtain ⟨hzero, hvalid⟩ := hnames key hkey
  have hcstr : valid (cstr key) := by rwa [cstr_eq_self hzero]
  exact ⟨hcstr, fun v he => hV v (hv v he)⟩

end World

namespace Slim

variable {c : Container} {f : Entry → Json} {it : Item}

theorem key_mem (hQ : Slim c l) (hu : l.Uses (· ∈ names) V) : ∀ e ∈ c.entries, e.key ∈ names := by
  intro e he
  have hc : c.isArr = false := hQ.whole.exact.tracks.kind.trans hu.1
  obtain ⟨it, hit⟩ := Option.ne_none_iff_exists'.mp ((hQ.whole.exact.mirrors hc).known e he)
  exact (hu.2 e.key it hit).1

theorem top_eq (hQ : Slim c l) (hu : l.Uses (· ∈ names) V) (hlen : names.length < 2097151) :
    c.tree.top treeHeightMax = c.entries := by
  have hc : c.isArr = false := hQ.whole.exact.tracks.kind.trans hu.1
  have hsub : c.entries.map Entry.key ⊆ names := fun k hk => by
    obtain ⟨e, he, rfl⟩ := List.mem_map.mp hk
    exact hQ.key_mem hu e he
  have hcount : c.entries.length ≤ names.length := by
    simpa using ((hQ.whole.exact.mirrors hc).nodup_keys.subperm hsub).length_le
  exact BTree.top_eq_inorder (Container.height_le_max hQ.whole.rooted (hcount.trans_lt hlen))

theorem find_member (hQ : Slim c l) (hu : l.Uses (· ∈ names) V) (hlen : names.length < 2097151)
    (hzero : ∀ k ∈ names, 0 ∉ k) (f : Entry → Json) (key : List UInt8) :
    match l.fields key with
    | none => (c.topMembers f).find? (·.1 = key) = none
    | some it => ∃ e ∈ c.entries, e.key = key ∧ e.Holds false it ∧
        (c.topMembers f).find? (·.1 = key) = some (key, f e) := by
  have hc : c.isArr = false := hQ.whole.exact.tracks.kind.trans hu.1
  have hm := hQ.whole.exact.mirrors hc
  have hcstr : ∀ e ∈ c.entries, cstr e.key = e.key := fun e he =>
    cstr_eq_self (hzero _ (hQ.key_mem hu e he))
  cases hit : l.fields key with
  | none =>
    rw [List.find?_eq_none]
    rintro m hmem hk
    obtain ⟨e, he, rfl⟩ := List.mem_map.mp hmem
    rw [hQ.top_eq hu hlen] at he
    have hek : cstr e.key = key := of_decide_eq_true hk
    rw [hcstr e he] at hek
    exact hm.known e he (hek ▸ hit)
  | some it =>
    obtain ⟨e, he, rfl, hholds⟩ := hm.item key it hit
    have halike : ∀ d ∈ c.entries, cstr d.key = cstr e.key → d.key = e.key := fun d hd hk => by
      rwa [hcstr d hd, hcstr e he] at hk
    have hfound := (Container.find_topMembers hm.nodup_keys he halike f (cstr e.key, f e)).mpr
      ⟨by rwa [hQ.top_eq hu hlen], rfl⟩
    rw [hcstr e he] at hfound
    exact ⟨e, he, rfl, hholds, hfound⟩

end Slim

namespace World

/-- What a printed object has at a path is what the document has below the path of the object. -/
theorem Represents.printed (h : w.Represents (Place.Among names) V false d)
    (hV : ∀ x, V x → x.atom.Valid valid) (hnames : ∀ k ∈ names, 0 ∉ k ∧ valid k)
    (hlen : names.length < 2097151) (hw : w.Backed Slim cs) (path : List (List UInt8))
    {c : Container} {R : List Chunk} {f : Entry → Json} (hl : l ∈ w.cells)
    (hq : w.At q (.nested l.isArr l.ofs)) (hn : w.cells.length ≤ l.chain.length + n) (hQ : Slim c l)
    (ho : w.buf.Owns (c.chunks ++ R)) (hp : c.Prints valid w.buf n f) :
    ((Json.obj (c.topMembers f)).get path).map Json.top =
      (d.get (q ++ path.map .key)).map Node.top := by
  have huses := h.reached.uses
  have hspelled := h.reached.spelled hV hnames
  induction path generalizing l q c R f n with
  | nil =>
    rw [List.map_nil, List.append_nil, h.get_of_at hq, (huses l hl).1]
    rfl
  | cons k ks ih =>
    have hla := (huses l hl).1
    have hc : c.isArr = false := hQ.whole.exact.tracks.kind.trans hla
    have hpath : q ++ (k :: ks).map .key = (q ++ [.key k]) ++ ks.map .key := by simp
    have hfind := hQ.find_member (huses l hl) hlen (fun k hk => (hnames k hk).1) f k
    rw [hpath, Json.get]
    cases hit : l.fields k with
    | none =>
      rw [hit] at hfind
      have hnone : d.get (q ++ [.key k]) = none := by
        have hget := h.get_concat (p := .key k) hq hl hla
        rwa [show l.itemAt (.key k) = none from hit] at hget
      rw [hfind, PathMap.get_eq_none_of_prefix (List.prefix_append _ _) hnone]
      rfl
    | some it =>
      rw [hit] at hfind
      obtain ⟨e, he, rfl, hholds, hfind⟩ := hfind
      have hat : w.At (q ++ [.key e.key]) it := .sub hq hl hla hit
      rw [hfind, Option.bind_some]
      cases it with
      | scalar v =>
        obtain ⟨hheld, hread⟩ := (Container.seen ho).entry he
        rw [hc] at hheld hread
        have hlt := hw.linked.length_chain_lt hl
        have hfe : f e = .atom v.atom := Except.ok.inj
          ((hp.value e he).symm.trans ((hholds.tagAt hheld hread).scalar (by omega)))
        rw [hfe]
        cases ks with
        | nil =>
          rw [List.map_nil, List.append_nil, h.get_of_at hat]
          rfl
        | cons k' ks =>
          have hpre : (q ++ [.key e.key]) ++ [.key k'] <+:
              (q ++ [.key e.key]) ++ (k' :: ks).map .key := by simp
          rw [PathMap.get_eq_none_of_prefix hpre (h.get_below hat (.key k'))]
          rfl
      | nested isArr o =>
        obtain ⟨d₁, hd₁, rfl, ha₁, hch⟩ := h.sound.closed l hl (some e.key) isArr o hit
        have hlt := hw.linked.length_chain_lt hd₁
        rw [hch, List.length_cons] at hlt
        obtain ⟨n, rfl⟩ : ∃ j, n = j + 1 := ⟨n - 1, by omega⟩
        have hn₁ : w.cells.length ≤ d₁.chain.length + n := by
          rw [hch, List.length_cons]
          omega
        obtain ⟨c₁, R₁, f₁, hQ₁, ho₁, hp₁⟩ := hw.prints h.sound.closed hspelled hd₁ hn₁
        obtain rfl : isArr = false := ha₁ ▸ (hspelled d₁ hd₁).1
        have hc₁ : c₁.isArr = false := hQ₁.whole.exact.tracks.kind.trans ha₁
        rw [← hQ₁.whole.exact.tracks.ofs] at hholds
        have hfe : f e = .obj (c₁.topMembers f₁) := Except.ok.inj
          ((hp.value e he).symm.trans (hp₁.of_holds ho₁ hc₁ ho hc he hholds))
        rw [hfe]
        exact ih hd₁ (by rwa [ha₁]) hn₁ hQ₁ ho₁ hp₁

/-- The text of a buffer that represents a document has its scalars and its objects at their paths,
and nothing where the document has nothing. -/
theorem Represents.exported (h : w.Represents (Place.Among names) V false d) (hy : y.Faithful valid)
    (hV : ∀ x, V x → x.atom.Valid valid) (hnames : ∀ k ∈ names, 0 ∉ k ∧ valid k)
    (hlen : names.length < 2097151) :
    ∃ text j, toJsonString y w.buf 0 = .ok text ∧ y.read text = some j ∧
      ∀ path, (j.get path).map Json.top = (d.get (path.map .key)).map Node.top := by
  obtain ⟨cs, hw⟩ := h.reached.backed preserved_slim
  have hspelled := h.reached.spelled hV hnames
  obtain ⟨l, hl, hlo, hla, hlc⟩ := h.reached.hasRoot
  have hlevels : w.cells.length ≤ l.chain.length + w.buf.levels := by
    have := hw.length_cells_le
    rw [Buffer.levels]
    omega
  obtain ⟨c, R, f, hQ, ho, hp⟩ := hw.prints h.sound.closed hspelled hl hlevels
  obtain ⟨text, htext, hread⟩ := hy.prints (hp.rootVal ho
    (hQ.whole.exact.tracks.kind.trans hla) (hQ.whole.exact.tracks.ofs.trans hlo)) hp.all_valid
  refine ⟨text, _, htext, hread, fun path => ?_⟩
  have hroot : w.At [] (.nested l.isArr l.ofs) := hlo ▸ .root hl hlo hlc
  exact h.printed hV hnames hlen hw path hl hroot hlevels hQ ho hp

end World

/-- What is printed of the buffer that a run of statements and reloads leaves has the scalars and
the objects of the document at their paths, and nothing where the document has nothing. -/
theorem document_printed (hy : y.Faithful valid) (hproper : Place.Proper (Place.Among names))
    (hnames : ∀ k ∈ names, 0 ∉ k ∧ valid k) (hlen : names.length < 2097151) {acts : List Act}
    (hok : Act.Fitting (Place.Among names) false acts)
    (hvalues : ∀ st, .exec st ∈ acts → ∀ x ∈ st.value, x.scalar.atom.Valid valid) {b : Buffer}
    (hrun : Act.run false acts = (b, d)) (hfin : b.usedSize < 2 ^ 32) :
    ∃ text j, toJsonString y b 0 = .ok text ∧ y.read text = some j ∧
      ∀ path, (j.get path).map Json.top = (d.get (path.map .key)).map Node.top := by
  obtain ⟨w, rfl, h⟩ := Act.represented (V := fun x => x.atom.Valid valid) hproper hok hvalues
    hrun hfin
  exact h.exported hy (fun _ => id) hnames hlen

/-- `root["a"]["b"] = 5; root["b"] = "x"; root["a"]["b"] = true`, with a reload in between -/
def threeActs : List Act :=
  [.exec ⟨[.key [97], .key [98]], some (.i64 5)⟩, .exec ⟨[.key [98]], some (.str [120])⟩, .reload,
    .exec ⟨[.key [97], .key [98]], some (.bool true)⟩]

theorem twoKeys_proper : Place.Proper (Place.Among [[97], [98]]) where
  short := by simp [Place.Among]
  distinct k k' hk hk' := by
    have hall : ∀ k ∈ [[97], [98]], ∀ k' ∈ [[97], [98]], djb2Hash k = djb2Hash k' → k = k' := by
      decide
    exact hall k (Place.among_key.mp hk) k' (Place.among_key.mp hk')

set_option maxRecDepth 10000 in
theorem document_printed_three : ∃ text j,
    toJsonString (.sample []) (Act.run false threeActs).1 0 = .ok text ∧
      (Yyjson.sample []).read text = some j ∧ ∀ path, (j.get path).map Json.top =
        ((Act.run false threeActs).2.get (path.map .key)).map Node.top :=
  document_printed (Yyjson.sample_faithful (by simp) (by simp) (by simp)) twoKeys_proper
    (by simp) (by simp)
    (by decide +kernel) (by simp [threeActs, Literal.scalar, Scalar.atom, Atom.Valid])
      Prod.mk.eta.symm (by decide +kernel)

end Lite3
