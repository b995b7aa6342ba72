import Lite3.Layout.Container

/-! # The order of the entries

Entries are compared by hash, then by key. Whatever a call promotes, the hashes
of a container stay in order; they decide the side of every median. The order
by hash and key also survives, and lookup with it, when no promoted median
with the hash of the key is sent to the wrong side.
-/

namespace Lite3

open Lite3.Tree

namespace Entry

/-- The order by hash, then by key. -/
def keyCmp (p q : UInt32 × List UInt8) : Ordering :=
  compareLex (compareOn Prod.fst) (compareOn Prod.snd) p q

instance : Std.TransCmp keyCmp :=
  inferInstanceAs (Std.TransCmp (compareLex (compareOn Prod.fst) (compareOn Prod.snd)))

/-- What an entry is filed under. -/
def filed (e : Entry) : UInt32 × List UInt8 := (e.hash, e.key)

variable {hash : UInt32} {key : List UInt8} {e f : Entry} {xs : List Entry}

theorem cmp_eq_keyCmp (hash : UInt32) (key : List UInt8) (e : Entry) :
    e.cmp hash key = keyCmp e.filed (hash, key) := rfl

theorem cmp_eq_eq_iff : e.cmp hash key = .eq ↔ e.filed = (hash, key) := by
  rw [cmp, Ordering.then_eq_eq, Std.LawfulEqCmp.compare_eq_iff_eq,
    Std.LawfulEqCmp.compare_eq_iff_eq, filed, Prod.mk.injEq]

theorem hash_le_of_cmp_lt (h : e.cmp hash key = .lt) : e.hash ≤ hash := by
  rw [cmp, Ordering.then_eq_lt] at h
  rcases h with h | ⟨h, -⟩
  · exact UInt32.le_of_lt (Std.compare_eq_lt.mp h)
  · rw [Std.LawfulEqCmp.compare_eq_iff_eq.mp h]; exact UInt32.le_refl _

theorem le_hash_of_cmp_gt (h : e.cmp hash key = .gt) : hash ≤ e.hash := by
  rw [cmp, Ordering.then_eq_gt] at h
  rcases h with h | ⟨h, -⟩
  · exact UInt32.le_of_lt (Std.compare_eq_gt.mp h)
  · rw [Std.LawfulEqCmp.compare_eq_iff_eq.mp h]; exact UInt32.le_refl _

theorem cmp_lt_of_hash_lt (h : e.hash < hash) : e.cmp hash key = .lt := by
  rw [cmp, Std.compare_eq_lt.mpr h, Ordering.lt_then]

theorem cmp_gt_of_lt_hash (h : hash < e.hash) : e.cmp hash key = .gt := by
  rw [cmp, Std.compare_eq_gt.mpr h, Ordering.gt_then]

/-- Sorted by hash. -/
def Sorted (xs : List Entry) : Prop := xs.Pairwise fun e f => e.hash ≤ f.hash

/-- Strictly sorted by hash and key. -/
def Ordered (xs : List Entry) : Prop := xs.Pairwise fun e f => keyCmp e.filed f.filed = .lt

theorem Ordered.strict (h : Ordered xs) (hash : UInt32) (key : List UInt8) :
    Strict (Entry.cmp hash key) xs := by
  refine h.imp fun {e f} hef he => ?_
  rw [cmp_eq_keyCmp] at he ⊢
  refine Std.OrientedCmp.gt_iff_lt.mpr (Std.TransCmp.lt_of_isLE_of_lt ?_ hef)
  rw [← Std.OrientedCmp.isGE_iff_isLE]
  cases hc : keyCmp e.filed (hash, key) <;> simp_all

end Entry

/-- A promoted median sends the call to the side that the key lies on. -/
def SetArgs.Routes (a : SetArgs) (m : Entry) : Prop := a.right m = false → a.cmp m = .gt

namespace Updates

variable {a : SetArgs} {b b' : Buffer} {c c' : Container} {x : Entry} {ms : List Entry}

theorem filed_eq (h : Updates a b b' c c' x ms) : x.filed = (a.keyHash, a.key) := by
  rw [h.placed.eq]; rfl

theorem mem (h : Updates a b b' c c' x ms) {e : Entry} (he : e ∈ c'.entries) :
    e = x ∨ e ∈ c.entries :=
  h.put.mem c.shaped he

theorem changed_of_sorted (h : Updates a b b' c c' x ms) (hs : Entry.Sorted c.entries) :
    Changed a.cmp (·.hash ≤ a.keyHash) (a.keyHash ≤ ·.hash) x c.entries c'.entries := by
  have hcut : Cut a.cmp (fun e => e.hash ≤ a.keyHash) (fun e => a.keyHash ≤ e.hash) c.entries :=
    hs.imp fun {e f} hef => ⟨fun h => UInt32.le_trans hef h, fun h => UInt32.le_trans h hef,
      fun he => (SetArgs.eq_of_cmp he).1 ▸ hef, fun he => (SetArgs.eq_of_cmp he).1 ▸ hef⟩
  exact h.put.changed (fun _ he => Entry.hash_le_of_cmp_lt he)
    (fun _ he => Entry.le_hash_of_cmp_gt he) c.shaped hcut fun m _ =>
      ⟨fun hr => UInt32.le_of_lt (by simpa [SetArgs.right] using hr),
        fun hr => UInt32.not_lt.mp (by simpa [SetArgs.right] using hr)⟩

theorem sorted (h : Updates a b b' c c' x ms) (hs : Entry.Sorted c.entries) :
    Entry.Sorted c'.entries := by
  have hx : x.hash = a.keyHash := congrArg Prod.fst h.filed_eq
  exact (h.changed_of_sorted hs).pairwise hs (fun e he => hx ▸ he) (fun e he => hx ▸ he)

/-- Between strictly ordered entries the call changes one place. -/
theorem changed (h : Updates a b b' c c' x ms) (ho : Strict a.cmp c.entries)
    (hr : ∀ m ∈ ms, a.Routes m) :
    Changed a.cmp (a.cmp · = .lt) (a.cmp · = .gt) x c.entries c'.entries :=
  h.put.changed (fun _ => id) (fun _ => id) c.shaped ho.cut fun m hm =>
    ⟨fun hlt => Entry.cmp_lt_of_hash_lt (by simpa [SetArgs.right] using hlt),
      fun hn => hr m hm (by simpa using hn)⟩

theorem ordered (h : Updates a b b' c c' x ms) (ho : Entry.Ordered c.entries)
    (hr : ∀ m ∈ ms, a.Routes m) : Entry.Ordered c'.entries := by
  refine (h.changed (ho.strict _ _) hr).pairwise ho (fun e he => ?_) (fun e he => ?_)
  · rw [h.filed_eq]; exact he
  · rw [h.filed_eq]; exact Std.OrientedCmp.gt_iff_lt.mp he

theorem append (h : Updates a b b' c c' x ms) (hall : ∀ e ∈ c.entries, e.hash < a.keyHash) :
    c'.entries = c.entries ++ [x] := by
  have hlt : ∀ e ∈ c.entries, a.cmp e = .lt := fun e he => Entry.cmp_lt_of_hash_lt (hall e he)
  have hst : Strict a.cmp c.entries :=
    List.pairwise_iff_getElem.mpr fun i j hi _ _ hn => absurd (hlt _ (List.getElem_mem hi)) hn
  refine (h.changed hst fun m hm hn => ?_).eq_append hlt
  have := hall m (h.put.promoted_mem m hm)
  simp [SetArgs.right, this] at hn

theorem fresh (h : Updates a b b' c c' x ms)
    (hno : ∀ e ∈ c.entries, a.cmp e = .eq → (valueBytes e.type e.val).length ≠ a.valTotalLen) :
    b.usedSize ≤ x.ofs ∧ x.ofs + (a.klen + a.valTotalLen) = b'.usedSize := by
  rcases h.placed.place with hp | ⟨e, he, heq, -, hl⟩
  · exact hp
  · exact absurd hl (hno e he heq)

end Updates

end Lite3
