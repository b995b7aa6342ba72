import Lite3.Json.RoundTrip
import Lite3.Layout.Codec

/-! # Orders of insertion

Scalars are set under keys with distinct hashes. Whatever the order is in which
they are set, lookups find the same, and iterators and texts show the pairs in
the order of their hashes.
-/

namespace Lite3

open Bytes Config Lite3.Tree

/-- The pairs in the order of their hashes. -/
def byHash (hist : List (List UInt8 × Scalar)) : List (List UInt8 × Scalar) :=
  hist.mergeSort fun p q => djb2Hash p.1 ≤ djb2Hash q.1

theorem pairwise_byHash (hist : List (List UInt8 × Scalar)) :
    (byHash hist).Pairwise fun p q => djb2Hash p.1 ≤ djb2Hash q.1 := by
  have h : (byHash hist).Pairwise fun p q => decide (djb2Hash p.1 ≤ djb2Hash q.1) = true := by
    apply List.pairwise_mergeSort
    · intro p q r hpq hqr
      simp only [decide_eq_true_eq] at hpq hqr ⊢
      exact UInt32.le_trans hpq hqr
    · intro p q
      simpa using UInt32.le_total _ _
  simpa using h

theorem eq_byHash {hist ps : List (List UInt8 × Scalar)}
    (hnodup : (hist.map fun p => djb2Hash p.1).Nodup) (hperm : ps.Perm hist)
    (hsorted : ps.Pairwise fun p q => djb2Hash p.1 ≤ djb2Hash q.1) : ps = byHash hist := by
  have hsame : ps.Perm (byHash hist) := hperm.trans (List.mergeSort_perm hist _).symm
  refine hsame.eq_of_pairwise (fun p q hp hq hpq hqp => ?_) hsorted (pairwise_byHash hist)
  have hq : q ∈ hist := hperm.mem_iff.mp (hsame.mem_iff.mpr hq)
  exact List.inj_on_of_nodup_map hnodup (hperm.mem_iff.mp hp) hq (UInt32.le_antisymm hpq hqp)

theorem lastSet_perm {hist hist' : List (List UInt8 × Scalar)} (hperm : hist.Perm hist')
    (hkeys : (hist.map Prod.fst).Nodup) (key : List UInt8) :
    lastSet hist key = lastSet hist' key := by
  by_cases hk : key ∈ hist.map Prod.fst
  · obtain ⟨p, hp, rfl⟩ := List.mem_map.mp hk
    rw [lastSet_of_nodup hkeys hp,
      lastSet_of_nodup ((hperm.map Prod.fst).nodup_iff.mp hkeys) (hperm.mem_iff.mp hp)]
  · rw [lastSet_of_not_mem hk, lastSet_of_not_mem fun h => hk ((hperm.map Prod.fst).mem_iff.mpr h)]

/-- Iterators over the object at offset zero show the pairs, one after the other. -/
def Buffer.Shows (b : Buffer) (ps : List (List UInt8 × Scalar)) : Prop :=
  ∀ k, b.visit 0 k =
    match ps[k]? with
    | some p => .ok (some (p.1, p.2.type, p.2.image))
    | none => .error (.exception "Invalid iterator")

variable {hist hist' : List (List UInt8 × Scalar)} {b : Buffer} {c : Container} {R : List Chunk}

/-- The members that are printed for the pairs. -/
def jsonMembers (ps : List (List UInt8 × Scalar)) : List (List UInt8 × Json) :=
  ps.map fun p => (cstr p.1, .atom p.2.atom)

namespace Cell

theorem ofs_foldl_putScalar (l : Cell) (hist : List (List UInt8 × Scalar)) :
    (hist.foldl Cell.putScalar l).ofs = l.ofs ∧ (hist.foldl Cell.putScalar l).isArr = l.isArr := by
  induction hist generalizing l with
  | nil => exact ⟨rfl, rfl⟩
  | cons p ps ih => exact ih (l.putScalar p)

end Cell

theorem setAll_backed (hshort : ∀ p ∈ hist, p.1.length ≤ 62)
    (hnodup : (hist.map fun p => djb2Hash p.1).Nodup)
    (hfin : (Buffer.setAll hist).usedSize < 2 ^ 32) :
    ∃ (w : World) (cs : List Container), w.buf = Buffer.setAll hist ∧ w.Backed Whole cs ∧
      hist.foldl Cell.putScalar (.new false 0 []) ∈ w.cells := by
  induction hist using List.reverseRecOn with
  | nil => exact ⟨.start false, _, rfl, start_backed false, List.mem_singleton_self _⟩
  | append_singleton ps p ih =>
    have hle := usedSize_le_setAll (Buffer.setAll ps) [p]
    rw [Buffer.setAll, List.foldl_append] at hfin
    rw [List.map_append, List.nodup_append] at hnodup
    obtain ⟨hps, -, hnew⟩ := hnodup
    obtain ⟨w, cs, hbuf, hw, hl⟩ :=
      ih (fun q hq => hshort q (by simp [hq])) hps (hle.trans_lt hfin)
    set l := ps.foldl Cell.putScalar (.new false 0 []) with hl_def
    obtain ⟨hofs, hla⟩ := Cell.ofs_foldl_putScalar (.new false 0 []) ps
    have htakes : Target.Takes l (.under 0 p.1) := by
      refine ⟨hofs, hla, hshort p (by simp), fun k hk => ?_⟩
      rw [hl_def, fields_foldl] at hk
      have hmem : k ∈ ps.map Prod.fst := by
        by_contra hno
        exact hk (by rw [lastSet_of_not_mem hno]; rfl)
      obtain ⟨q, hq, rfl⟩ := List.mem_map.mp hmem
      exact hnew _ (List.mem_map_of_mem hq) _ (by simp)
    obtain ⟨w', hw', hg, hm⟩ := Target.put_grown hw hl htakes p.2 (by rw [hbuf]; exact hfin)
    obtain ⟨cs', hcs'⟩ := hg.backed
    refine ⟨w', cs', ?_, hcs', ?_⟩
    · rw [← hw', hbuf, Buffer.setAll, Buffer.setAll, List.foldl_append]
      rfl
    · rw [List.foldl_append]
      exact hm

/-- The entries are those of the pairs, in the order of their hashes. -/
theorem Mirrors.entries_byHash (hm : Mirrors c (hist.foldl Cell.putScalar (.new false 0 [])))
    (hnodup : (hist.map fun p => djb2Hash p.1).Nodup) :
    ∃ pairOf : Entry → List UInt8 × Scalar, c.entries.map pairOf = byHash hist ∧
      ∀ e ∈ c.entries, (pairOf e).1 = e.key ∧ e.Holds false (.scalar (pairOf e).2) := by
  have hkeys : (hist.map Prod.fst).Nodup :=
    List.Nodup.of_map djb2Hash (by simpa [Function.comp_def] using hnodup)
  have : Nonempty Scalar := ⟨.null⟩
  have hfields : ∀ p ∈ hist, (hist.foldl Cell.putScalar (.new false 0 [])).fields p.1 =
      some (.scalar p.2) := by
    intro p hp
    rw [fields_foldl, lastSet_of_nodup hkeys hp]
    rfl
  have hknown : ∀ k, (hist.foldl Cell.putScalar (.new false 0 [])).fields k ≠ none →
      ∃ p ∈ hist, p.1 = k := by
    intro k hk
    by_contra hno
    rw [fields_foldl, lastSet_of_not_mem (by simpa using hno)] at hk
    exact hk rfl
  obtain ⟨pairOf, hperm, hof⟩ := hm.entries_perm hfields hknown hnodup
  refine ⟨pairOf, ?_, fun e he => (hof e he).2⟩
  have hsorted : (c.entries.map pairOf).Pairwise fun p q => djb2Hash p.1 ≤ djb2Hash q.1 := by
    rw [List.pairwise_map]
    refine hm.ordered.imp_of_mem fun {e f} he hf hlt => ?_
    rw [(hof e he).2.1, (hof f hf).2.1, ← hm.hashed e he, ← hm.hashed f hf]
    have hcmp : e.cmp f.hash f.key = .lt := hlt
    exact Entry.hash_le_of_cmp_lt hcmp
  exact eq_byHash hnodup hperm hsorted

/-- Lookups find the pairs, iterators show them, and texts have them as members. -/
structure Exposes (b : Buffer) (hist : List (List UInt8 × Scalar)) : Prop where
  found : ∀ key, b.found 0 key = some ((lastSet hist key).map fun v => (v.type, v.image))
  shows : b.Shows (byHash hist)
  printed : b.rootVal 0 = .ok (.obj (jsonMembers (byHash hist)))

theorem setAll_exposes (hshort : ∀ p ∈ hist, p.1.length ≤ 62)
    (hnodup : (hist.map fun p => djb2Hash p.1).Nodup) (hcount : hist.length < 2097151)
    (hfin : (Buffer.setAll hist).usedSize < 2 ^ 32) : Exposes (Buffer.setAll hist) hist := by
  obtain ⟨w, cs, hbuf, hw, hl⟩ := setAll_backed hshort hnodup hfin
  obtain ⟨hofs, hla⟩ := Cell.ofs_foldl_putScalar (.new false 0 []) hist
  obtain ⟨c, R, -, hQ, ho⟩ := hw.container hl
  rw [hbuf] at ho
  have hofs : c.ofs = 0 := hQ.exact.tracks.ofs.trans hofs
  have hc : c.isArr = false := hQ.exact.tracks.kind.trans hla
  have hm := hQ.exact.mirrors hc
  obtain ⟨pairOf, hentries, hof⟩ := hm.entries_byHash hnodup
  have hlen : c.entries.length = hist.length := by
    simpa [byHash] using congrArg List.length hentries
  have hh : c.height ≤ treeHeightMax := Container.height_le_max hQ.rooted (hlen ▸ hcount)
  have hseen : ∀ e ∈ c.entries, e.Held false (Buffer.setAll hist).mem ∧ e.Readable false := by
    intro e he
    have := (Container.seen ho).entry he
    rwa [hc] at this
  constructor
  · exact fun key => hm.found_lastSet ho hofs hc key
  · intro k
    have hpoints := Container.begin_points ho hc hh
    rw [Buffer.visit, ← hofs, hpoints.deref_iterate (Container.data_ne_nil ho) hh k, ← hentries,
      List.getElem?_map]
    cases he : c.entries[k]? with
    | none => rfl
    | some e =>
      have hmem := List.mem_of_getElem? he
      obtain ⟨hkey, hholds⟩ := hof e hmem
      obtain ⟨hheld, hread⟩ := hseen e hmem
      have hpay := hheld.payload hread
      rw [hholds.type, hholds.val] at hpay
      simp only [Except.map, Option.map, Buffer.shown, Entry.view, hholds.type, hpay, hkey]
      rfl
  · obtain ⟨hsize, htype⟩ := Container.type_root ho hofs
    have hval : ∀ e ∈ c.entries, (Buffer.setAll hist).toYyjsonVal (Buffer.setAll hist).levels
        (e.valueOfs false) = .ok (.atom (pairOf e).2.atom) := by
      intro e he
      obtain ⟨hheld, hread⟩ := hseen e he
      exact ((hof e he).2.tagAt hheld hread).scalar (Nat.succ_pos _)
    have hrun := Container.members ho hc hh hval
    rw [hofs] at hrun
    rw [Buffer.rootVal, if_pos ⟨rfl, hsize⟩, htype, hc]
    simp only [kindOf, Bool.false_eq_true, if_false, hrun, jsonMembers, ← hentries, List.map_map,
      Except.map]
    congr 2
    refine List.map_congr_left fun e he => ?_
    simp [(hof e he).1]

/-- The order in which the pairs are set does not show. -/
theorem orders_agree (hist hist' : List (List UInt8 × Scalar)) (hperm : hist.Perm hist')
    (hshort : ∀ p ∈ hist, p.1.length ≤ 62) (hnodup : (hist.map fun p => djb2Hash p.1).Nodup)
    (hcount : hist.length < 2097151) (hfin : (Buffer.setAll hist).usedSize < 2 ^ 32)
    (hfin' : (Buffer.setAll hist').usedSize < 2 ^ 32) :
    (∀ key, (Buffer.setAll hist).found 0 key = (Buffer.setAll hist').found 0 key) ∧
      (Buffer.setAll hist).Shows (byHash hist) ∧ (Buffer.setAll hist').Shows (byHash hist) ∧
      (Buffer.setAll hist).rootVal 0 = .ok (.obj (jsonMembers (byHash hist))) ∧
      ∀ y, toJsonString y (Buffer.setAll hist') 0 = toJsonString y (Buffer.setAll hist) 0 := by
  have hkeys : (hist.map Prod.fst).Nodup :=
    List.Nodup.of_map djb2Hash (by simpa [Function.comp_def] using hnodup)
  have hbyHash : byHash hist = byHash hist' := by
    refine eq_byHash ((hperm.map _).nodup_iff.mp hnodup) ?_ (pairwise_byHash hist)
    exact (List.mergeSort_perm hist _).trans hperm
  have h := setAll_exposes hshort hnodup hcount hfin
  have h' := setAll_exposes (fun p hp => hshort p (hperm.mem_iff.mpr hp))
    ((hperm.map _).nodup_iff.mp hnodup) (hperm.length_eq ▸ hcount) hfin'
  refine ⟨fun key => ?_, h.shows, hbyHash ▸ h'.shows, h.printed, fun y => ?_⟩
  · rw [h.found, h'.found, lastSet_perm hperm hkeys]
  · rw [toJsonString, toJsonString, h.printed, h'.printed, hbyHash]

theorem orders_agree_split :
    let hist := fullRoot ++ [([8], .null)]
    (∀ key, (Buffer.setAll hist).found 0 key = (Buffer.setAll hist.reverse).found 0 key) ∧
      (Buffer.setAll hist).Shows (byHash hist) ∧ (Buffer.setAll hist.reverse).Shows (byHash hist) ∧
      (Buffer.setAll hist).rootVal 0 = .ok (.obj (jsonMembers (byHash hist))) ∧
      ∀ y, toJsonString y (Buffer.setAll hist.reverse) 0 = toJsonString y (Buffer.setAll hist) 0 :=
  orders_agree _ _ (List.reverse_perm _).symm (by decide) (by decide) (by decide)
    (by decide +kernel) (by decide +kernel)

theorem length_visit_lt {k : ℕ} {key val : List UInt8} {type : ValueType}
    (h : b.visit 0 k = .ok (some (key, type, val))) : val.length < 2 ^ 32 := by
  unfold Buffer.visit at h
  cases hd : ((Iterator.next b)^[k] (b.begin 0)).deref b with
  | error f => simp [hd, Except.map] at h
  | ok shown =>
    cases shown with
    | none => simp [hd, Except.map] at h
    | some v =>
      have hval : Buffer.payload b.mem v.valueType (v.valueOffset + 1) = val := by
        simp only [hd, Except.map, Option.map, Buffer.shown, Except.ok.injEq, Option.some.injEq,
          Prod.mk.injEq] at h
        exact h.2.2
      exact hval ▸ length_payload_lt _ _ _

/-- A string of 4 GiB is not shown as it was set. -/
theorem long_string_cut : ¬ ∀ hist hist' : List (List UInt8 × Scalar), hist.Perm hist' →
    (∀ p ∈ hist, p.1.length ≤ 62) → (hist.map fun p => djb2Hash p.1).Nodup →
    hist.length < 2097151 →
    (∀ key, (Buffer.setAll hist).found 0 key = (Buffer.setAll hist').found 0 key) ∧
      (Buffer.setAll hist).Shows (byHash hist) ∧ (Buffer.setAll hist').Shows (byHash hist) ∧
      (Buffer.setAll hist).rootVal 0 = .ok (.obj (jsonMembers (byHash hist))) ∧
      ∀ y, toJsonString y (Buffer.setAll hist') 0 = toJsonString y (Buffer.setAll hist) 0 := by
  intro h
  obtain ⟨s, hs⟩ : ∃ s : List UInt8, s.length = 2 ^ 32 :=
    ⟨List.replicate _ 0, List.length_replicate⟩
  obtain ⟨-, hshows, -⟩ := h [([97], .str s)] _ (List.Perm.refl _) (by simp) (by simp) (by simp)
  have hone : byHash [([97], .str s)] = [([97], .str s)] := List.mergeSort_singleton _
  have hfirst := hshows 0
  rw [hone] at hfirst
  have hlt : s.length < 2 ^ 32 := length_visit_lt hfirst
  omega

end Lite3
