import Lite3.Store.Shape

/-! # Lookups in objects

An object with strictly ordered entries answers every lookup with the item
under the key. A history of scalars set at offset zero keeps it so as long as
every set is routed.
-/

namespace Lite3

open Bytes Lite3.Tree

variable {b : Buffer} {c : Container} {l : Cell} {R : List Chunk} {key : List UInt8} {it : Item}

namespace Mirrors

theorem find_eq_some (hm : Mirrors c l) (hf : l.fields key = some it) :
    ∃ e, c.tree.find (Entry.cmp (djb2Hash key) key) = some e ∧ e.Holds false it := by
  obtain ⟨e, he, hk, hh⟩ := hm.item key it hf
  have hcmp : e.cmp (djb2Hash key) key = .eq :=
    Entry.cmp_eq_eq_iff.mpr (Prod.ext ((hm.hashed e he).trans (by rw [hk])) hk)
  exact ⟨e, (BTree.find_eq_some_iff c.shaped (hm.ordered.strict _ _)).mpr ⟨he, hcmp⟩, hh⟩

theorem find_eq_none (hm : Mirrors c l) (hf : l.fields key = none) :
    c.tree.find (Entry.cmp (djb2Hash key) key) = none := by
  cases h : c.tree.find (Entry.cmp (djb2Hash key) key) with
  | none => rfl
  | some e =>
    obtain ⟨he, hcmp⟩ := BTree.find_mem h
    have hk : e.key = key := congrArg Prod.snd (Entry.cmp_eq_eq_iff.mp hcmp)
    exact absurd hf (hk ▸ hm.known e he)

/-- A lookup finds the item under the key, a container at its offset. -/
theorem fetch_some (hm : Mirrors c l) (ho : b.Owns (c.chunks ++ R)) (hc : c.isArr = false)
    (hf : l.fields key = some it) :
    ∃ p, b.fetch c.ofs key (djb2Hash key) false = some (some (it.type, p, it.image)) ∧
      ∀ a o, it = .nested a o → p = o := by
  obtain ⟨e, he, hh⟩ := hm.find_eq_some hf
  have h : b.fetch _ key (djb2Hash key) _ = _ := Container.fetch ho (by simp [hc])
  rw [hc, he, Option.map_some, hh.type, hh.val] at h
  exact ⟨_, h, hh.ofs⟩

theorem fetch_none (hm : Mirrors c l) (ho : b.Owns (c.chunks ++ R)) (hc : c.isArr = false)
    (hf : l.fields key = none) : b.fetch c.ofs key (djb2Hash key) false = some none := by
  have h : b.fetch _ key (djb2Hash key) _ = _ := Container.fetch ho (by simp [hc])
  rwa [hc, hm.find_eq_none hf] at h

theorem found (hm : Mirrors c l) (ho : b.Owns (c.chunks ++ R)) (hc : c.isArr = false)
    (key : List UInt8) :
    b.found c.ofs key = some ((l.fields key).map fun it => (it.type, it.image)) := by
  rw [Buffer.found]
  cases hf : l.fields key with
  | none => rw [hm.fetch_none ho hc hf]; rfl
  | some it =>
    obtain ⟨p, hp, -⟩ := hm.fetch_some ho hc hf
    rw [hp]; rfl

theorem setScalar (hm : Mirrors c l) (ho : b.Owns (c.chunks ++ R)) (hc : c.isArr = false)
    (hk : key.length ≤ 62) (v : Scalar) (hr : b.Routed c.ofs key)
    (hfin : (b.setScalar c.ofs key v).usedSize < 2 ^ 32) :
    ∃ c', (b.setScalar c.ofs key v).Owns (c'.chunks ++ R) ∧ Mirrors c' (l.put key (.scalar v)) ∧
      c'.ofs = c.ofs ∧ c'.isArr = false := by
  obtain ⟨x, c', ms, hown, hup⟩ := Container.setScalar ho hc hk v hfin
  have hx : x.Holds false (.scalar v) := hup.holds (setArgs_carries key v) (by simp)
  exact ⟨c', hown, hm.put hup rfl rfl (Container.routes ho hc hup rfl hr) hx, hup.ofs,
    hup.kind.trans hc⟩

end Mirrors

/-- Set a key of the object at offset zero. -/
def Buffer.setRoot (b : Buffer) (p : List UInt8 × Scalar) : Buffer := b.setScalar 0 p.1 p.2

/-- A new object with a history of scalars set at offset zero. -/
def Buffer.setAll (hist : List (List UInt8 × Scalar)) : Buffer :=
  hist.foldl Buffer.setRoot Buffer.empty.initObject

/-- The last value set under a key. -/
def lastSet (hist : List (List UInt8 × Scalar)) (key : List UInt8) : Option Scalar :=
  (hist.reverse.find? (·.1 = key)).map Prod.snd

theorem lastSet_of_not_mem {hist : List (List UInt8 × Scalar)} (h : key ∉ hist.map Prod.fst) :
    lastSet hist key = none := by
  have : hist.reverse.find? (fun p => decide (p.1 = key)) = none := by
    refine List.find?_eq_none.mpr fun p hp => ?_
    have hm : p.1 ∈ hist.map Prod.fst := List.mem_map_of_mem (List.mem_reverse.mp hp)
    simpa using fun hk : p.1 = key => h (hk ▸ hm)
  rw [lastSet, this]; rfl

theorem lastSet_of_nodup {hist : List (List UInt8 × Scalar)} (hn : (hist.map Prod.fst).Nodup)
    {p : List UInt8 × Scalar} (hp : p ∈ hist) : lastSet hist p.1 = some p.2 := by
  have hex : ∃ q, hist.reverse.find? (fun q => decide (q.1 = p.1)) = some q :=
    Option.isSome_iff_exists.mp (List.find?_isSome.mpr ⟨p, List.mem_reverse.mpr hp, by simp⟩)
  obtain ⟨q, hq⟩ := hex
  have hqm := List.mem_reverse.mp (List.mem_of_find?_eq_some hq)
  have hqe : q.1 = p.1 := by simpa using List.find?_some hq
  rw [lastSet, hq, List.inj_on_of_nodup_map hn hqm hp hqe]
  rfl

def Cell.putScalar (l : Cell) (p : List UInt8 × Scalar) : Cell := l.put p.1 (.scalar p.2)

theorem usedSize_le_setAll (b : Buffer) (hist : List (List UInt8 × Scalar)) :
    b.usedSize ≤ (hist.foldl Buffer.setRoot b).usedSize := by
  induction hist generalizing b with
  | nil => exact le_rfl
  | cons p hist ih => exact (usedSize_le_setImpl _ _ _).trans (ih _)

/-- A history whose sets are all routed is mirrored at its end. -/
theorem Mirrors.foldl {ok : Buffer → List UInt8 × Scalar → Prop}
    {P : Cell → List (List UInt8 × Scalar) → Prop} {hist : List (List UInt8 × Scalar)}
    (hP : ∀ l p ps, P l (p :: ps) → P (l.putScalar p) ps)
    (hok : ∀ (b : Buffer) c l p ps, b.Owns (Container.chunks c ++ []) → c.isArr = false →
      c.ofs = 0 →
      Mirrors c l → P l (p :: ps) → ok b p → b.Routed 0 p.1)
    (hshort : ∀ p ∈ hist, p.1.length ≤ 62) (hm : Mirrors c l) (ho : b.Owns (c.chunks ++ []))
    (hc : c.isArr = false) (hofs : c.ofs = 0) (hPl : P l hist)
    (hall : Loop.Allowed Buffer.setRoot ok b hist)
    (hfin : (hist.foldl Buffer.setRoot b).usedSize < 2 ^ 32) :
    ∃ c', (hist.foldl Buffer.setRoot b).Owns (c'.chunks ++ []) ∧
      Mirrors c' (hist.foldl Cell.putScalar l) ∧ c'.ofs = 0 ∧ c'.isArr = false := by
  induction hist generalizing b c l with
  | nil => exact ⟨c, ho, hm, hofs, hc⟩
  | cons p ps ih =>
    have hr := hok b c l p ps ho hc hofs hm hPl hall.1
    have hlt : (b.setScalar c.ofs p.1 p.2).usedSize < 2 ^ 32 := by
      rw [hofs]
      exact (usedSize_le_setAll _ ps).trans_lt hfin
    obtain ⟨c', ho', hm', hofs', hc'⟩ :=
      hm.setScalar ho hc (hshort p (by simp)) p.2 (by rwa [hofs]) hlt
    rw [hofs] at ho' hofs'
    exact ih (fun q hq => hshort q (by simp [hq])) hm' ho' hc' hofs' (hP l p ps hPl) hall.2 hfin

theorem fields_foldl (l : Cell) (hist : List (List UInt8 × Scalar)) (key : List UInt8) :
    (hist.foldl Cell.putScalar l).fields key =
      ((lastSet hist key).map Item.scalar).or (l.fields key) := by
  induction hist generalizing l with
  | nil => rfl
  | cons p ps ih =>
    rw [List.foldl_cons, ih, lastSet, lastSet, List.reverse_cons, List.find?_append]
    cases ps.reverse.find? (fun q => decide (q.1 = key)) with
    | some q => rfl
    | none =>
      by_cases hk : p.1 = key
      · subst hk
        simp [Cell.putScalar]
      · simp [Cell.putScalar, hk, Cell.fields_put_of_ne (Ne.symm hk)]

theorem setAll_start : Buffer.empty.initObject.Owns (Container.chunks (.empty false 0) ++ []) := by
  rw [List.append_nil]
  exact Container.owns_initStructure false

/-- A lookup in a mirrored history finds the last value set under the key. -/
theorem Mirrors.found_lastSet {hist : List (List UInt8 × Scalar)}
    (hm : Mirrors c (hist.foldl Cell.putScalar (.new false 0 []))) (ho : b.Owns (c.chunks ++ R))
    (hofs : c.ofs = 0) (hc : c.isArr = false) (key : List UInt8) :
    b.found 0 key = some ((lastSet hist key).map fun v => (v.type, v.image)) := by
  have := hm.found ho hc key
  rw [hofs, fields_foldl] at this
  refine this.trans ?_
  cases lastSet hist key <;> rfl

theorem setAll_found {ok : Buffer → List UInt8 × Scalar → Prop}
    {P : Cell → List (List UInt8 × Scalar) → Prop} {hist : List (List UInt8 × Scalar)}
    (hP : ∀ l p ps, P l (p :: ps) → P (l.putScalar p) ps)
    (hok : ∀ (b : Buffer) c l p ps, b.Owns (Container.chunks c ++ []) → c.isArr = false →
      c.ofs = 0 → Mirrors c l → P l (p :: ps) → ok b p → b.Routed 0 p.1)
    (hshort : ∀ p ∈ hist, p.1.length ≤ 62) (hPl : P (.new false 0 []) hist)
    (hall : Loop.Allowed Buffer.setRoot ok Buffer.empty.initObject hist)
    (hfin : (Buffer.setAll hist).usedSize < 2 ^ 32) (key : List UInt8) :
    (Buffer.setAll hist).found 0 key =
      some ((lastSet hist key).map fun v => (v.type, v.image)) := by
  obtain ⟨c, ho, hm, hofs, hc⟩ :=
    Mirrors.foldl hP hok hshort .empty setAll_start rfl rfl hPl hall hfin
  exact hm.found_lastSet ho hofs hc key

namespace Buffer

/-- No median that the insertion splits off is stored under the key itself. -/
def Unpromoted (b : Buffer) (o : ℕ) (key : List UInt8) : Prop :=
  ∀ s ∈ b.medians o (djb2Hash key) key false, storedKey b.mem s.2 ≠ key

instance (b : Buffer) (o : ℕ) (key : List UInt8) : Decidable (b.Unpromoted o key) :=
  inferInstanceAs (Decidable (∀ s ∈ _, _))

/-- No median that the insertion splits off has the hash of the key and a smaller key. -/
def Uncrossed (b : Buffer) (o : ℕ) (key : List UInt8) : Prop :=
  ∀ s ∈ b.medians o (djb2Hash key) key false, s.1 = djb2Hash key →
    compare (storedKey b.mem s.2) key ≠ .lt

instance (b : Buffer) (o : ℕ) (key : List UInt8) : Decidable (b.Uncrossed o key) :=
  inferInstanceAs (Decidable (∀ s ∈ _, _))

end Buffer

/-- The entry behind the slot of a median. -/
theorem Container.entry_of_median (ho : b.Owns (c.chunks ++ R)) (hc : c.isArr = false)
    {s : UInt32 × ℕ} {hash : UInt32} (hs : s ∈ b.medians c.ofs hash key false) :
    ∃ e ∈ c.entries, e.hash = s.1 ∧ storedKey b.mem s.2 = e.key := by
  have hmed : b.medians _ hash key _ = _ := medians ho (by simp [hc])
  rw [hc] at hmed
  rw [hmed] at hs
  obtain ⟨e, he, rfl⟩ := List.mem_map.mp hs
  have hmem : e ∈ c.tree.inorder := BTree.mem_of_mem_promoted.2 he
  have := (seen ho).entry hmem
  rw [hc] at this
  exact ⟨e, hmem, rfl, this.1.storedKey this.2⟩

/-- Without collisions the last value set under a key is found, and nothing under other keys,
as long as no set promotes the entry of its own key. -/
theorem last_set_found (hist : List (List UInt8 × Scalar)) (hshort : ∀ p ∈ hist, p.1.length ≤ 62)
    (hinj : ∀ p ∈ hist, ∀ q ∈ hist, djb2Hash p.1 = djb2Hash q.1 → p.1 = q.1)
    (hfin : (Buffer.setAll hist).usedSize < 2 ^ 32)
    (hok : Loop.Allowed Buffer.setRoot (fun b p => b.Unpromoted 0 p.1) Buffer.empty.initObject hist)
    (key : List UInt8) :
    (Buffer.setAll hist).found 0 key =
      some ((lastSet hist key).map fun v => (v.type, v.image)) := by
  let P : Cell → List (List UInt8 × Scalar) → Prop := fun l ps =>
    (∀ k, l.fields k ≠ none → ∃ q ∈ hist, q.1 = k) ∧ ∀ p ∈ ps, p ∈ hist
  have hP : ∀ l p ps, P l (p :: ps) → P (l.putScalar p) ps := by
    rintro l p ps ⟨hk, hps⟩
    refine ⟨fun k hne => ?_, fun q hq => hps q (List.mem_cons_of_mem _ hq)⟩
    by_cases hkp : k = p.1
    · exact ⟨p, hps p (by simp), hkp.symm⟩
    · rw [Cell.putScalar, Cell.fields_put_of_ne hkp] at hne
      exact hk k hne
  have hroute : ∀ (b : Buffer) c l p ps, b.Owns (Container.chunks c ++ []) → c.isArr = false →
      c.ofs = 0 →
      Mirrors c l → P l (p :: ps) → b.Unpromoted 0 p.1 → b.Routed 0 p.1 := by
    rintro b c l p ps ho hc hofs hm ⟨hk, hps⟩ hok s hs hh
    rw [← hofs] at hs
    obtain ⟨e, he, heh, hek⟩ := Container.entry_of_median ho hc hs
    obtain ⟨q, hq, hqe⟩ := hk e.key (hm.known e he)
    refine absurd ?_ (hok s (hofs ▸ hs))
    rw [hek, ← hqe]
    refine hinj q hq p (hps p (by simp)) ?_
    rw [hqe, ← hm.hashed e he, heh, hh]
  exact setAll_found hP hroute hshort ⟨fun k hk => absurd rfl hk, fun _ => id⟩ hok hfin key

/-- The keys with the bytes one to seven fill a root. -/
def fullRoot : List (List UInt8 × Scalar) :=
  [([1], .null), ([2], .null), ([3], .null), ([4], .null), ([5], .null), ([6], .null), ([7], .null)]

set_option maxRecDepth 10000 in
theorem last_set_found_after_split :
    (Buffer.setAll (fullRoot ++ [([8], .i64 3), ([1], .str [65])])).found 0 [1] =
      some (some (.string, [65])) :=
  last_set_found _ (by decide) (by decide) (by decide +kernel) (by decide +kernel) [1]

set_option maxRecDepth 10000 in
/-- The median of a full root is promoted by the set of its own key, and the set is lost. -/
theorem last_set_lost : ¬ ∀ hist : List (List UInt8 × Scalar), (∀ p ∈ hist, p.1.length ≤ 62) →
    (∀ p ∈ hist, ∀ q ∈ hist, djb2Hash p.1 = djb2Hash q.1 → p.1 = q.1) →
    (Buffer.setAll hist).usedSize < 2 ^ 32 →
    ∀ key, (Buffer.setAll hist).found 0 key =
      some ((lastSet hist key).map fun v => (v.type, v.image)) := by
  intro h
  have hlost := h (fullRoot ++ [([4], .bool true)]) (by decide) (by decide) (by decide +kernel) [4]
  revert hlost
  decide +kernel

/-- Distinct keys that are each set once are mirrored, as long as no set promotes a smaller key with
the hash of its own. -/
theorem mirrors_of_uncrossed {hist : List (List UInt8 × Scalar)}
    (hshort : ∀ p ∈ hist, p.1.length ≤ 62) (hnodup : (hist.map Prod.fst).Nodup)
    (hfin : (Buffer.setAll hist).usedSize < 2 ^ 32)
    (hok : Loop.Allowed Buffer.setRoot (fun b p => b.Uncrossed 0 p.1)
      Buffer.empty.initObject hist) :
    ∃ c : Container, (Buffer.setAll hist).Owns (c.chunks ++ []) ∧
      Mirrors c (hist.foldl Cell.putScalar (.new false 0 [])) ∧ c.ofs = 0 ∧ c.isArr = false := by
  let P : Cell → List (List UInt8 × Scalar) → Prop := fun l ps =>
    (ps.map Prod.fst).Nodup ∧ ∀ p ∈ ps, l.fields p.1 = none
  have hP : ∀ l p ps, P l (p :: ps) → P (l.putScalar p) ps := by
    rintro l p ps ⟨hn, hno⟩
    rw [List.map_cons, List.nodup_cons] at hn
    refine ⟨hn.2, fun q hq => ?_⟩
    have hne : q.1 ≠ p.1 := fun h => hn.1 (h ▸ List.mem_map_of_mem hq)
    rw [Cell.putScalar, Cell.fields_put_of_ne hne]
    exact hno q (by simp [hq])
  have hroute : ∀ (b : Buffer) c l p ps, b.Owns (Container.chunks c ++ []) → c.isArr = false →
      c.ofs = 0 →
      Mirrors c l → P l (p :: ps) → b.Uncrossed 0 p.1 → b.Routed 0 p.1 := by
    rintro b c l p ps ho hc hofs hm ⟨-, hno⟩ hok s hs hh
    have hlt := hok s hs hh
    rw [← hofs] at hs
    obtain ⟨e, he, heh, hek⟩ := Container.entry_of_median ho hc hs
    have hne : e.key ≠ p.1 := fun h => hm.known e he (h ▸ hno p (by simp))
    rw [hek] at hlt ⊢
    cases hcmp : compare e.key p.1 with
    | lt => exact absurd hcmp hlt
    | eq => exact absurd (Std.LawfulEqCmp.compare_eq_iff_eq.mp hcmp) hne
    | gt => rfl
  exact Mirrors.foldl hP hroute hshort .empty setAll_start rfl rfl ⟨hnodup, fun _ _ => rfl⟩ hok hfin

/-- Distinct keys that are each set once are found with their values, and no other key is, as long
as no set promotes a smaller key with the hash of its own. -/
theorem every_set_found (hist : List (List UInt8 × Scalar)) (hshort : ∀ p ∈ hist, p.1.length ≤ 62)
    (hnodup : (hist.map Prod.fst).Nodup) (hfin : (Buffer.setAll hist).usedSize < 2 ^ 32)
    (hok : Loop.Allowed Buffer.setRoot (fun b p => b.Uncrossed 0 p.1)
      Buffer.empty.initObject hist) :
    (∀ p ∈ hist, (Buffer.setAll hist).found 0 p.1 = some (some (p.2.type, p.2.image))) ∧
      ∀ key, key ∉ hist.map Prod.fst → (Buffer.setAll hist).found 0 key = some none := by
  obtain ⟨c, ho, hm, hofs, hc⟩ := mirrors_of_uncrossed hshort hnodup hfin hok
  have hfound := hm.found_lastSet ho hofs hc
  refine ⟨fun p hp => ?_, fun key hk => ?_⟩
  · rw [hfound, lastSet_of_nodup hnodup hp]; rfl
  · rw [hfound, lastSet_of_not_mem hk]; rfl

/-- Seven keys with a given median. -/
def collidingRoot (median : List UInt8) : List (List UInt8 × Scalar) :=
  [([97], .null), ([98], .null), ([99], .null), (median, .null), ([66, 122], .null),
    ([67, 122], .null), ([68, 122], .null)]

set_option maxRecDepth 10000 in
theorem every_set_found_colliding :
    (Buffer.setAll (collidingRoot [66, 89] ++ [([65, 122], .i64 3)])).found 0 [65, 122] =
      some (some (Scalar.type (.i64 3), Scalar.image (.i64 3))) := by
  have h := every_set_found (collidingRoot [66, 89] ++ [([65, 122], .i64 3)]) (by decide)
    (by decide +kernel) (by decide +kernel) (by decide +kernel)
  exact h.1 ([65, 122], .i64 3) (by simp)

set_option maxRecDepth 10000 in
/-- A key with the hash of the promoted median and greater bytes is inserted on the wrong side. -/
theorem colliding_set_lost : ¬ ∀ hist : List (List UInt8 × Scalar),
    (∀ p ∈ hist, p.1.length ≤ 62) → (hist.map Prod.fst).Nodup →
    (Buffer.setAll hist).usedSize < 2 ^ 32 →
    (∀ p ∈ hist, (Buffer.setAll hist).found 0 p.1 = some (some (p.2.type, p.2.image))) ∧
      ∀ key, key ∉ hist.map Prod.fst → (Buffer.setAll hist).found 0 key = some none := by
  intro h
  have hfound := h (collidingRoot [65, 122] ++ [([66, 89], .null)]) (by decide)
    (by decide +kernel) (by decide +kernel)
  have hlost := hfound.1 ([66, 89], .null) (by simp)
  revert hlost
  decide +kernel

end Lite3
