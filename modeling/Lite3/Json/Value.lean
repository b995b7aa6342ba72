import Mathlib.Data.List.Perm.Subperm
import Mathlib.Data.List.Nodup
import Mathlib.Data.List.Zip
import Mathlib.Data.Int.Notation

/-! # JSON values

Strings and keys are byte strings, and a number is an integer or the bits of a
double. Values are the same when they differ in the order of members only.
-/

namespace Lite3

inductive Atom
  | null
  | bool (v : Bool)
  | int (v : ℤ)
  | real (bits : UInt64)
  | str (s : List UInt8)
  deriving DecidableEq

inductive Json
  | atom (a : Atom)
  | arr (items : List Json)
  | obj (members : List (List UInt8 × Json))

namespace Json

instance : Inhabited Json := ⟨.atom .null⟩

@[elab_as_elim, induction_eliminator]
theorem induct {P : Json → Prop} (atom : ∀ a, P (.atom a))
    (arr : ∀ items, (∀ v ∈ items, P v) → P (.arr items))
    (obj : ∀ members, (∀ m ∈ members, P m.2) → P (.obj members)) (j : Json) : P j :=
  @Json.rec P (fun items => ∀ v ∈ items, P v) (fun members => ∀ m ∈ members, P m.2) (fun m => P m.2)
    atom arr obj (by simp) (fun _ _ h hs => by simpa using ⟨h, hs⟩) (by simp)
    (fun m _ h hs => List.forall_mem_cons.mpr ⟨h, hs⟩) (fun _ _ h => h) j

/-- Every value in it has the property, at any depth. -/
inductive All (P : Json → Prop) : Json → Prop

  | atom {a : Atom} : P (.atom a) → All P (.atom a)

  | arr {items : List Json} : P (.arr items) → (∀ v ∈ items, All P v) → All P (.arr items)

  | obj {members : List (List UInt8 × Json)} : P (.obj members) → (∀ m ∈ members, All P m.2) →
      All P (.obj members)

/-- The same value, with members compared as unordered maps. -/
inductive Same : Json → Json → Prop

  | atom (a : Atom) : Same (.atom a) (.atom a)

  | arr {xs ys : List Json} : xs.length = ys.length → (∀ p ∈ xs.zip ys, Same p.1 p.2) →
      Same (.arr xs) (.arr ys)

  | obj {xs xs' ys : List (List UInt8 × Json)} : xs.Perm xs' → xs'.map Prod.fst = ys.map Prod.fst →
      (∀ p ∈ xs'.zip ys, Same p.1.2 p.2.2) → Same (.obj xs) (.obj ys)

mutual

/-- Change the atoms with `f` and the keys with `g`. -/
def map (f : Atom → Atom) (g : List UInt8 → List UInt8) : Json → Json
  | .atom a => .atom (f a)
  | .arr items => .arr (mapItems f g items)
  | .obj members => .obj (mapMembers f g members)

def mapItems (f : Atom → Atom) (g : List UInt8 → List UInt8) : List Json → List Json
  | [] => []
  | v :: vs => v.map f g :: mapItems f g vs

def mapMembers (f : Atom → Atom) (g : List UInt8 → List UInt8) :
    List (List UInt8 × Json) → List (List UInt8 × Json)
  | [] => []
  | (k, v) :: ms => (g k, v.map f g) :: mapMembers f g ms

end

/-- The value that a path of keys leads to. -/
def get : Json → List (List UInt8) → Option Json
  | j, [] => some j
  | .obj members, k :: ks => (members.find? (·.1 = k)).bind fun m => m.2.get ks
  | _, _ :: _ => none

variable {P Q : Json → Prop} {f : Atom → Atom} {g : List UInt8 → List UInt8} {j : Json}
  {items : List Json} {members : List (List UInt8 × Json)}

theorem All.self (h : All P j) : P j := by cases h <;> assumption

theorem All.imp (h : All P j) (hPQ : ∀ v, P v → Q v) : All Q j := by
  induction h with
  | atom h => exact .atom (hPQ _ h)
  | arr h _ ih => exact .arr (hPQ _ h) ih
  | obj h _ ih => exact .obj (hPQ _ h) ih

theorem all_arr : All P (.arr items) ↔ P (.arr items) ∧ ∀ v ∈ items, All P v := by
  constructor
  · rintro (_ | ⟨h, hs⟩ | _)
    exact ⟨h, hs⟩
  · rintro ⟨h, hs⟩
    exact .arr h hs

theorem all_obj : All P (.obj members) ↔ P (.obj members) ∧ ∀ m ∈ members, All P m.2 := by
  constructor
  · rintro (_ | _ | ⟨h, hs⟩)
    exact ⟨h, hs⟩
  · rintro ⟨h, hs⟩
    exact .obj h hs

theorem all_atom {a : Atom} : All P (.atom a) ↔ P (.atom a) :=
  ⟨All.self, .atom⟩

mutual

def decideAll [DecidablePred P] : (j : Json) → Decidable (All P j)
  | .atom _ => decidable_of_iff _ all_atom.symm
  | .arr items =>
    have := decideItems items
    decidable_of_iff _ all_arr.symm
  | .obj members =>
    have := decideMembers members
    decidable_of_iff _ all_obj.symm

def decideItems [DecidablePred P] : (items : List Json) → Decidable (∀ v ∈ items, All P v)
  | [] => isTrue fun _ h => absurd h List.not_mem_nil
  | v :: vs =>
    have := decideAll v
    have := decideItems vs
    decidable_of_iff _ List.forall_mem_cons.symm

def decideMembers [DecidablePred P] :
    (members : List (List UInt8 × Json)) → Decidable (∀ m ∈ members, All P m.2)
  | [] => isTrue fun _ h => absurd h List.not_mem_nil
  | (_, v) :: ms =>
    have := decideAll v
    have := decideMembers ms
    decidable_of_iff _ List.forall_mem_cons.symm

end

instance [DecidablePred P] : DecidablePred (All P) := decideAll

@[simp] theorem map_atom (a : Atom) : (Json.atom a).map f g = .atom (f a) := by rw [map]

@[simp] theorem map_arr (items : List Json) : (arr items).map f g = .arr (items.map (map f g)) := by
  rw [map]
  congr 1
  induction items with
  | nil => rfl
  | cons v vs ih => rw [mapItems, ih, List.map_cons]

@[simp] theorem map_obj (members : List (List UInt8 × Json)) :
    (obj members).map f g = .obj (members.map fun m => (g m.1, m.2.map f g)) := by
  rw [map]
  congr 1
  induction members with
  | nil => rfl
  | cons m ms ih => rw [mapMembers, ih, List.map_cons]

theorem map_eq_self (hf : All (fun v => ∀ a, v = .atom a → f a = a) j)
    (hg : All (fun v => ∀ ms, v = .obj ms → ∀ m ∈ ms, g m.1 = m.1) j) : j.map f g = j := by
  induction j with
  | atom a => rw [map_atom, hf.self a rfl]
  | arr items ih =>
    rw [map_arr]
    congr 1
    refine (List.map_congr_left fun v hv => ?_).trans (List.map_id _)
    exact ih v hv ((all_arr.mp hf).2 v hv) ((all_arr.mp hg).2 v hv)
  | obj members ih =>
    rw [map_obj]
    congr 1
    refine (List.map_congr_left fun m hm => ?_).trans (List.map_id _)
    rw [hg.self members rfl m hm, ih m hm ((all_obj.mp hf).2 m hm) ((all_obj.mp hg).2 m hm)]
    rfl

theorem getElem_mem_zip {α β : Type} {xs : List α} {ys : List β} {i : ℕ} (hx : i < xs.length)
    (hy : i < ys.length) : (xs[i], ys[i]) ∈ xs.zip ys :=
  List.mem_iff_getElem.mpr ⟨i, by rw [List.length_zip]; exact lt_min hx hy, by simp⟩

/-- The keys of every object are distinct. -/
def Distinct : Json → Prop
  | .obj members => (members.map Prod.fst).Nodup
  | _ => True

theorem find?_key (hn : (members.map Prod.fst).Nodup) {m : List UInt8 × Json} (hm : m ∈ members) :
    members.find? (·.1 = m.1) = some m := by
  have hsome : (members.find? (·.1 = m.1)).isSome = true :=
    List.find?_isSome.mpr ⟨m, hm, by simp⟩
  obtain ⟨u, hu⟩ := Option.isSome_iff_exists.mp hsome
  have hk : u.1 = m.1 := by simpa using List.find?_some hu
  rw [hu, List.inj_on_of_nodup_map hn (List.mem_of_find?_eq_some hu) hm hk]

theorem get_obj {k : List UInt8} {ks : List (List UInt8)} {v : Json}
    (h : (obj members).get (k :: ks) = some v) : ∃ u, (k, u) ∈ members ∧ u.get ks = some v := by
  rw [get] at h
  obtain ⟨⟨k', u⟩, hu, hv⟩ := Option.bind_eq_some_iff.mp h
  have hk : k' = k := by simpa using List.find?_some hu
  subst hk
  exact ⟨u, List.mem_of_find?_eq_some hu, hv⟩

theorem get_obj_of_mem (hn : (members.map Prod.fst).Nodup) {k : List UInt8} {u : Json}
    (hu : (k, u) ∈ members) (ks : List (List UInt8)) : (obj members).get (k :: ks) = u.get ks := by
  have hfind : members.find? (·.1 = k) = some (k, u) := find?_key hn hu
  rw [get, hfind]
  rfl

theorem Same.under_keys {ys : List (List UInt8 × Json)} (h : (Json.obj members).Same (.obj ys)) :
    (members.map Prod.fst).Perm (ys.map Prod.fst) ∧ ((members.map Prod.fst).Nodup →
      ∀ m ∈ members, ∀ u ∈ ys, m.1 = u.1 → m.2.Same u.2) := by
  cases h with
  | @obj _ xs' _ hperm hkeys hsame =>
    have hkeysPerm : (members.map Prod.fst).Perm (ys.map Prod.fst) := hkeys ▸ hperm.map Prod.fst
    refine ⟨hkeysPerm, fun hn m hm u hu hk => ?_⟩
    have hlen : xs'.length = ys.length := by simpa using congrArg List.length hkeys
    obtain ⟨i, hi, hui⟩ := List.mem_iff_getElem.mp (hperm.mem_iff.mp hm)
    have hz := getElem_mem_zip hi (hlen ▸ hi)
    have hkey : ys[i].1 = m.1 := by
      have hik : (xs'.map Prod.fst)[i]? = some m.1 := by simp [hi, hui]
      rw [hkeys] at hik
      simpa [hlen ▸ hi] using hik
    have huniq : ys[i] = u :=
      List.inj_on_of_nodup_map (hkeysPerm.nodup_iff.mp hn) (List.getElem_mem _) hu (hkey.trans hk)
    have hpair := hsame _ hz
    rwa [hui, huniq] at hpair

/-- An object is the same as one that is made of some of its members exactly if these are all of
them, with the same values. -/
theorem same_obj_iff {ι : Type} {E T : List ι} {g : ι → List UInt8 × Json} {f : ι → Json}
    (hperm : (E.map g).Perm members) (hn : (members.map Prod.fst).Nodup) (hsub : T ⊆ E)
    (hlen : T.length ≤ E.length) :
    (Json.obj members).Same (.obj (T.map fun e => ((g e).1, f e))) ↔
      ∀ e ∈ E, e ∈ T ∧ (g e).2.Same (f e) := by
  have hnE : (E.map fun e => (g e).1).Nodup := by
    have h := hperm.map Prod.fst
    rw [List.map_map] at h
    exact h.nodup_iff.mpr hn
  refine ⟨fun hsame e he => ?_, fun h => ?_⟩
  · obtain ⟨hkeys, hunder⟩ := hsame.under_keys
    have hmem : g e ∈ members := hperm.mem_iff.mp (List.mem_map_of_mem he)
    obtain ⟨u, hu, huk⟩ := List.mem_map.mp (hkeys.mem_iff.mp (List.mem_map_of_mem hmem))
    obtain ⟨d, hd, rfl⟩ := List.mem_map.mp hu
    obtain rfl : d = e := List.inj_on_of_nodup_map hnE (hsub hd) he huk
    exact ⟨hd, hunder hn _ hmem _ hu rfl⟩
  · have hall : T.Perm E := ((List.Nodup.of_map _ hnE).subperm fun e he =>
      (h e he).1).perm_of_length_le hlen |>.symm
    refine .obj (hperm.symm.trans (hall.symm.map g)) ?_ ?_
    · simp only [List.map_map]
      rfl
    · rw [List.zip_map']
      intro p hp
      obtain ⟨e, he, rfl⟩ := List.mem_map.mp hp
      exact (h e (hsub he)).2

/-- The same atoms are found in values that are the same. -/
theorem Same.get_atom {j' : Json} (h : j.Same j') (hd : j.All Distinct) {path : List (List UInt8)}
    {a : Atom} (hg : j.get path = some (.atom a)) : j'.get path = some (.atom a) := by
  induction path generalizing j j' with
  | nil =>
    obtain rfl : j = .atom a := by simpa [get] using hg
    cases h
    rfl
  | cons k ks ih =>
    cases h with
    | atom | arr => simp [get] at hg
    | @obj xs xs' ys hperm hkeys hsame =>
      obtain ⟨hn, hall⟩ := all_obj.mp hd
      obtain ⟨hkeysPerm, hunder⟩ := (Same.obj hperm hkeys hsame).under_keys
      obtain ⟨u, hu, hget⟩ := get_obj hg
      have hk : k ∈ ys.map Prod.fst := hkeysPerm.mem_iff.mp (List.mem_map_of_mem hu)
      obtain ⟨⟨k', u'⟩, hu', rfl⟩ := List.mem_map.mp hk
      rw [get_obj_of_mem (hkeysPerm.nodup_iff.mp hn) hu']
      exact ih (hunder hn _ hu _ hu' rfl) (hall _ hu) hget

theorem All.map (h : All (fun v => P (v.map f g)) j) : All P (j.map f g) := by
  induction h with
  | atom h => simpa using All.atom h
  | arr h _ ih =>
    rw [map_arr] at h ⊢
    refine .arr h fun v hv => ?_
    obtain ⟨u, hu, rfl⟩ := List.mem_map.mp hv
    exact ih u hu
  | obj h _ ih =>
    rw [map_obj] at h ⊢
    refine .obj h fun m hm => ?_
    obtain ⟨u, hu, rfl⟩ := List.mem_map.mp hm
    exact ih u hu

theorem get_map (hd : (j.map f g).All Distinct)
    (hg : All (fun v => ∀ ms, v = .obj ms → ∀ m ∈ ms, g m.1 = m.1) j) {path : List (List UInt8)}
    {a : Atom} (h : j.get path = some (.atom a)) :
    (j.map f g).get path = some (.atom (f a)) := by
  induction path generalizing j with
  | nil =>
    obtain rfl : j = .atom a := by simpa [get] using h
    rw [map_atom, get]
  | cons k ks ih =>
    cases j with
    | atom | arr => simp [get] at h
    | obj members =>
      obtain ⟨u, hu, hget⟩ := get_obj h
      rw [map_obj] at hd ⊢
      obtain ⟨hn, hall⟩ := all_obj.mp hd
      have hmem : (k, u.map f g) ∈ members.map fun m => (g m.1, m.2.map f g) :=
        List.mem_map.mpr ⟨(k, u), hu, by rw [hg.self members rfl _ hu]⟩
      rw [get_obj_of_mem hn hmem]
      exact ih (hall _ hmem) ((all_obj.mp hg).2 _ hu) hget

end Json

end Lite3
