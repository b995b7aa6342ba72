import Lite3.Store.Arrays
import Lite3.Store.Lookup

/-! # Creating containers

As long as every call is routed and every new container finds room, containers
hold exactly what their cells say, whatever a key held before a container was
created under it.
-/

namespace Lite3

open Bytes Config Lite3.Tree

/-- The container is tracked, and an object holds exactly its items. -/
structure Exact (c : Container) (l : Cell) : Prop where
  tracks : Tracks c l
  mirrors : c.isArr = false → Mirrors c l

namespace Mirrors

variable {b b' : Buffer} {c c' : Container} {l : Cell} {x : Entry} {ms : List Entry}
  {key : List UInt8} {a : SetArgs}

/-- A routed call leaves the searches for other keys as they are. -/
theorem find_eq (hm : Mirrors c l) (h : Updates a b b' c c' x ms) (hr : ∀ m ∈ ms, a.Routes m)
    (hk : a.key ≠ key) (hash : UInt32) :
    c'.tree.find (Entry.cmp hash key) = c.tree.find (Entry.cmp hash key) := by
  have hch := h.changed (hm.ordered.strict _ _) hr
  refine Option.ext fun e => ?_
  rw [BTree.find_eq_some_iff c'.shaped ((h.ordered hm.ordered hr).strict _ _),
    BTree.find_eq_some_iff c.shaped (hm.ordered.strict _ _), Entry.cmp_eq_eq_iff]
  refine and_congr_left fun hfiled => ?_
  have hke : e.key = key := congrArg Prod.snd hfiled
  refine hch.mem_iff.trans ⟨?_, fun he => Or.inr ⟨he, fun heq => hk ?_⟩⟩
  · rintro (rfl | ⟨he, -⟩)
    · exact absurd (h.key_eq.symm.trans hke) hk
    · exact he
  · rw [← (SetArgs.eq_of_cmp heq).2, hke]

end Mirrors

namespace World

variable {w : World} {cs : List Container} {isArr : Bool} {ofs : ℕ} {key : List UInt8}

/-- Containers stay exact when keyed calls are routed. -/
theorem preserved_exact : Preserved Buffer.Routed Exact where
  tracks h := h.tracks
  new _ _ _ := ⟨.empty, fun _ => .empty⟩
  detach ofs key h := ⟨preserved_tracks.detach ofs key h.tracks, fun hc =>
    ⟨(h.mirrors hc).ordered, (h.mirrors hc).hashed, (h.mirrors hc).item, (h.mirrors hc).known⟩⟩
  put h ho hc hr hup hx := ⟨h.tracks.put hc hup rfl _, fun _ =>
    (h.mirrors hc).put hup rfl rfl (Container.routes ho hc hup rfl hr) hx⟩
  push h hc hup hh hx hn := ⟨h.tracks.push hc hup hh hx hn,
    fun hc' => absurd (hup.kind.symm.trans hc') (by simp [hc])⟩

/-- Every object finds exactly its items, a container at its offset, and arrays read theirs. -/
def Faithful (w : World) : Prop :=
  (∀ l ∈ w.cells, l.isArr = false → ∀ key,
    match l.fields key with
    | some it => ∃ p, w.buf.fetch l.ofs key (djb2Hash key) false =
        some (some (it.type, p, it.image)) ∧ ∀ a o, it = .nested a o → p = o
    | none => w.buf.fetch l.ofs key (djb2Hash key) false = some none) ∧
  w.ArraysRead

/-- The new container is empty, and only lookups under its key change. -/
def CreatesClean (w : World) (isArr : Bool) (ofs : ℕ) (key : List UInt8) : Prop :=
  ∃ o b, w.buf.setContainer ofs key isArr = (some o, b) ∧
    (∀ k hash, (isArr = true → k = []) → b.fetch o k hash isArr = some none) ∧
    (∀ k, k ≠ key → b.fetch ofs k (djb2Hash k) false = w.buf.fetch ofs k (djb2Hash k) false) ∧
    ∀ l ∈ w.cells, l.ofs ≠ ofs → ¬ l.Under ofs key → ∀ k hash, (l.isArr = true → k = []) →
      b.fetch l.ofs k hash l.isArr = w.buf.fetch l.ofs k hash l.isArr

/-- The cells tell what is found, and the next routed creation that finds room is clean. -/
structure Clean (w : World) : Prop where
  faithful : w.Faithful
  creates : ∀ isArr ofs key, (Call.create isArr ofs key).Legal w →
    w.ClearBehind ofs key → w.buf.Routed ofs key → w.CreatesClean isArr ofs key

theorem Backed.faithful (hw : w.Backed Exact cs) : w.Faithful := by
  refine ⟨fun l hl hla key => ?_, (hw.imp fun _ _ h => h.tracks).arraysRead⟩
  obtain ⟨c, R, -, hex, ho⟩ := hw.container hl
  have hc : c.isArr = false := hex.tracks.kind.trans hla
  rw [← hex.tracks.ofs]
  split
  · exact (hex.mirrors hc).fetch_some ho hc ‹_›
  · exact (hex.mirrors hc).fetch_none ho hc ‹_›

theorem Created.clean {o : ℕ} {c c' : Container} {C₁ C₂ : List Container}
    (h : w.Created Exact isArr ofs key o c c' C₁ C₂) (hr : w.buf.Routed ofs key)
    (hadv : w.Advanced Exact (.create isArr ofs key)) : w.CreatesClean isArr ofs key := by
  have hbuf := w.buf_step_create isArr ofs key
  have howns : ∀ {d}, d ∈ Container.empty isArr o :: (C₁ ++ c' :: C₂) → ∃ R,
      (w.buf.setContainer ofs key isArr).2.Owns (d.chunks ++ R) :=
    fun hd => hbuf ▸ h.after.owns_mem hd
  refine ⟨o, _, Prod.ext h.result rfl, fun k hash hk => ?_, fun k hne => ?_,
    fun l hl hne hu k hash hk => ?_⟩
  · obtain ⟨R, ho⟩ := howns (List.mem_cons_self ..)
    exact Container.fetch_empty ho hk hash
  · obtain ⟨R, ho⟩ := h.before.owns_mem (c := c) (by simp)
    obtain ⟨R', ho'⟩ := howns (d := c') (by simp)
    obtain ⟨b', x, ms, hup⟩ := h.updates
    obtain ⟨l, hex⟩ : ∃ l, Exact c l := by
      obtain ⟨_, l, _, _, _, -, -, -, hex, -⟩ :=
        forall₂_split h.before.cells.flip (y := c) (by simp)
      exact ⟨l, hex⟩
    have hroutes := Container.routes ho h.object hup rfl (h.ofs ▸ hr)
    have hc' : c'.isArr = false := hup.kind.trans h.object
    have h₁ : Buffer.fetch _ _ k (djb2Hash k) _ = _ := Container.fetch ho (by simp [h.object])
    have h₂ : Buffer.fetch _ _ k (djb2Hash k) _ = _ := Container.fetch ho' (by simp [hc'])
    rw [hc', (hex.mirrors h.object).find_eq hup hroutes (Ne.symm hne), hup.ofs, h.ofs] at h₂
    rw [h.object, h.ofs] at h₁
    exact h₂.trans h₁.symm
  · obtain ⟨d, R, R', hex, ho, ho'⟩ := hadv.kept l hl hne hu
    rw [hbuf] at ho'
    rw [← hex.tracks.kind] at hk
    rw [← hex.tracks.ofs, ← hex.tracks.kind, Container.fetch ho' hk, Container.fetch ho hk]

/-- The calls of a history are legal and routed, and new containers find room. -/
def Careful (isArr : Bool) (ks : List Call) : Prop :=
  Loop.Allowed World.step (fun w k => k.Legal w ∧ k.Clear w ∧ k.Ok Buffer.Routed w)
    (.start isArr) ks

instance (isArr : Bool) (ks : List Call) : Decidable (Careful isArr ks) :=
  inferInstanceAs (Decidable (Loop.Allowed ..))

theorem Careful.backed {ks : List Call} (h : Careful isArr ks) :
    ∃ cs, ((World.start isArr).run ks).Backed Exact cs :=
  Loop.Allowed.invariant (I := fun w => ∃ cs, w.Backed Exact cs) h
    ⟨_, Backed.start isArr (preserved_exact.new _ _ _)⟩ fun _ _ ⟨_, hw⟩ ⟨hl, hc, hr⟩ =>
      (hw.advanced preserved_exact hl hc hr).backed

/-- After calls that split no median to its wrong side and create containers only where a node
fits, the containers hold what their cells say and the next such creation is clean. -/
theorem clean_of_careful {ks : List Call} (h : Careful isArr ks) :
    ((start isArr).run ks).Clean := by
  obtain ⟨cs, hw⟩ := h.backed
  refine ⟨hw.faithful, fun isArr ofs key hl hc hr => ?_⟩
  obtain ⟨o, c, c', C₁, C₂, hcr⟩ := hw.created preserved_exact hl hc hr
  exact hcr.clean hr (hw.advanced preserved_exact hl hc hr)

/-- A null at the end makes way for an object, which makes way for an array and for another object;
a string makes way for a third. -/
def replacements : List Call :=
  [.set 0 [98] (.str [65]), .set 0 [97] .null, .create false 0 [97], .set 110 [99] (.i64 1),
    .create true 0 [97], .append 110 .null, .create false 0 [97], .create false 0 [98]]

set_option maxRecDepth 10000 in
theorem clean_replacements : ((start false).run replacements).Clean :=
  clean_of_careful (by decide +kernel)

set_option maxRecDepth 10000 in
/-- An object created in place of a null clears the entry behind it. -/
theorem create_destroys : ¬ ∀ isArr ks,
    Loop.Allowed World.step (fun w k => k.Legal w) (start isArr) ks →
    ((start isArr).run ks).Faithful ∧ ∀ isArr' ofs key,
      (Call.create isArr' ofs key).Legal ((start isArr).run ks) →
        ((start isArr).run ks).CreatesClean isArr' ofs key := by
  intro h
  obtain ⟨-, hclean⟩ := h false [.set 0 [97] .null, .set 0 [98] (.i64 5)] (by decide +kernel)
  obtain ⟨o, b, hb, -, hother, -⟩ := hclean false 0 [97] (by decide +kernel)
  have hchanged := hother [98] (by decide)
  rw [show b = (Buffer.setContainer _ _ _ _).2 from (congrArg Prod.snd hb).symm] at hchanged
  revert hchanged
  decide +kernel

end World

end Lite3
