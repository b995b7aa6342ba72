import Mathlib.Data.Finset.Prod
import Lite3.Ring.Owners

/-! # The ring is made of its members

As long as no two labels have the same hash, the ring holds the points of the
live nodes and nothing else, whatever the order is in which nodes came and went.
-/

namespace Lite3

open Ordered

/-- The labels of these nodes have distinct hashes. -/
def LabelsDistinct (replicas : Int32) (used : UInt32 → Prop) : Prop :=
  ∀ a b i j, used a → used b → i < replicas.toInt.toNat → j < replicas.toInt.toNat →
    fnv1a64 (vnodeKey a i) = fnv1a64 (vnodeKey b j) → a = b ∧ i = j

namespace ConsistentHash

variable {replicas : Int32} {hist hist' : List RingCall} {n x : UInt32} {p : UInt64 × UInt32}

@[simp] theorem replicas_run (replicas : Int32) (hist : List RingCall) :
    (run replicas hist).replicas = replicas := by
  induction hist using List.reverseRecOn with
  | nil => rfl
  | append_singleton hist call ih =>
    rw [run, List.foldl_concat]
    cases call <;> exact ih

theorem added_of_live (h : x ∈ liveNodes hist) : .addNode x ∈ hist := by
  induction hist using List.reverseRecOn with
  | nil => exact absurd h (Finset.notMem_empty x)
  | append_singleton hist call ih =>
    rw [liveNodes, List.foldl_concat] at h
    cases call with
    | addNode n =>
      rcases Finset.mem_insert.mp h with rfl | h
      · exact List.mem_append_right _ (List.mem_singleton_self _)
      · exact List.mem_append_left _ (ih h)
    | removeNode n => exact List.mem_append_left _ (ih (Finset.mem_of_mem_erase h))

theorem mem_points {r : ConsistentHash} {hash : UInt64} :
    hash ∈ r.points n ↔ ∃ i < r.replicas.toInt.toNat, fnv1a64 (vnodeKey n i) = hash := by
  simp [points]

/-- The ring holds the points of the live nodes. -/
theorem mem_run (hdist : LabelsDistinct replicas fun a => .addNode a ∈ hist) :
    p ∈ (run replicas hist).ring ↔ p.2 ∈ liveNodes hist ∧
      ∃ i < replicas.toInt.toNat, fnv1a64 (vnodeKey p.2 i) = p.1 := by
  induction hist using List.reverseRecOn with
  | nil => exact iff_of_false OrdMap.not_mem_empty fun h => Finset.notMem_empty _ h.1
  | append_singleton hist call ih =>
    have hsub : ∀ a, .addNode a ∈ hist → .addNode a ∈ hist ++ [call] := fun a =>
      List.mem_append_left _
    have ih := ih fun a b i j ha hb => hdist a b i j (hsub a ha) (hsub b hb)
    rw [run, liveNodes, List.foldl_concat, List.foldl_concat]
    change p ∈ (call.apply (run replicas hist)).ring ↔ p.2 ∈ call.liven (liveNodes hist) ∧ _
    cases call with
    | addNode n =>
      rw [RingCall.apply, RingCall.liven, mem_addNode, ih, mem_points, replicas_run,
        Finset.mem_insert]
      constructor
      · rintro (⟨hi, hn⟩ | ⟨-, hlive, hi⟩)
        · exact ⟨Or.inl hn, hn ▸ hi⟩
        · exact ⟨Or.inr hlive, hi⟩
      · rintro ⟨hx, i, hi, heq⟩
        by_cases hn : p.2 = n
        · exact Or.inl ⟨⟨i, hi, hn ▸ heq⟩, hn⟩
        · have hlive := hx.resolve_left hn
          refine Or.inr ⟨?_, hlive, i, hi, heq⟩
          -- another node has no label with this hash
          rintro ⟨j, hj, hjeq⟩
          have hadded : .addNode n ∈ hist ++ [.addNode n] :=
            List.mem_append_right _ (List.mem_singleton_self _)
          exact hn (hdist p.2 n i j (hsub _ (added_of_live hlive)) hadded hi hj
            (heq.trans hjeq.symm)).1
    | removeNode n =>
      rw [RingCall.apply, RingCall.liven, mem_removeNode, ih, Finset.mem_erase]
      tauto

/-- The same nodes make the same ring. -/
theorem run_eq (hlive : liveNodes hist = liveNodes hist')
    (hdist : LabelsDistinct replicas fun a => .addNode a ∈ hist)
    (hdist' : LabelsDistinct replicas fun a => .addNode a ∈ hist') :
    run replicas hist = run replicas hist' := by
  have hring : (run replicas hist).ring = (run replicas hist').ring := by
    apply OrdMap.ext_mem
    intro p
    rw [mem_run hdist, mem_run hdist', hlive]
  have hrep : (run replicas hist).replicas = (run replicas hist').replicas := by simp
  cases h : run replicas hist
  cases h' : run replicas hist'
  rw [h, h'] at hring hrep
  simp only at hring hrep
  rw [hring, hrep]

theorem size_run (hdist : LabelsDistinct replicas fun a => .addNode a ∈ hist) :
    (run replicas hist).size = replicas.toInt.toNat * (liveNodes hist).card := by
  let point : UInt32 × ℕ → UInt64 × UInt32 := fun q => (fnv1a64 (vnodeKey q.1 q.2), q.1)
  have himage : (run replicas hist).ring.entries.toFinset =
      (liveNodes hist ×ˢ Finset.range replicas.toInt.toNat).image point := by
    ext p
    rw [List.mem_toFinset, ← OrdMap.mem_iff, mem_run hdist, Finset.mem_image]
    constructor
    · rintro ⟨hlive, i, hi, heq⟩
      exact ⟨(p.2, i), Finset.mem_product.mpr ⟨hlive, Finset.mem_range.mpr hi⟩, Prod.ext heq rfl⟩
    · rintro ⟨q, hq, rfl⟩
      obtain ⟨hlive, hi⟩ := Finset.mem_product.mp hq
      exact ⟨hlive, q.2, Finset.mem_range.mp hi, rfl⟩
  let labels : Finset (UInt32 × ℕ) := liveNodes hist ×ˢ Finset.range replicas.toInt.toNat
  have hinj : Set.InjOn point labels := by
    rintro ⟨a, i⟩ ha ⟨b, j⟩ hb heq
    obtain ⟨hla, hi⟩ := Finset.mem_product.mp (Finset.mem_coe.mp ha)
    obtain ⟨hlb, hj⟩ := Finset.mem_product.mp (Finset.mem_coe.mp hb)
    obtain ⟨rfl, rfl⟩ := hdist a b i j (added_of_live hla) (added_of_live hlb)
      (Finset.mem_range.mp hi) (Finset.mem_range.mp hj) (congrArg Prod.fst heq)
    rfl
  rw [size, OrdMap.size, ← List.toFinset_card_of_nodup (OrdMap.nodup_entries _), himage,
    Finset.card_image_of_injOn hinj, Finset.card_product, Finset.card_range, mul_comm]

/-- What two rings with the same live nodes have in common. -/
structure SameOwners (r r' : ConsistentHash) : Prop where
  getNode : ∀ key, r.getNode key = r'.getNode key
  isOwner : ∀ key x, r.isOwner key x = r'.isOwner key x

/-- Owners depend on the live nodes only, in whatever order nodes came and went. -/
theorem owners_of_live (replicas : Int32) (hist hist' : List RingCall)
    (hlive : liveNodes hist = liveNodes hist')
    (hdist : LabelsDistinct replicas fun a => .addNode a ∈ hist ∨ .addNode a ∈ hist') :
    SameOwners (run replicas hist) (run replicas hist') ∧
      (run replicas hist).size = replicas.toInt.toNat * (liveNodes hist).card ∧
      (run replicas hist').size = replicas.toInt.toNat * (liveNodes hist').card := by
  have hleft : LabelsDistinct replicas fun a => .addNode a ∈ hist := fun a b i j ha hb =>
    hdist a b i j (Or.inl ha) (Or.inl hb)
  have hright : LabelsDistinct replicas fun a => .addNode a ∈ hist' := fun a b i j ha hb =>
    hdist a b i j (Or.inr ha) (Or.inr hb)
  have hrun := run_eq hlive hleft hright
  constructor
  · constructor
    · intro key
      rw [hrun]
    · intro key x
      rw [hrun]
  · exact ⟨size_run hleft, size_run hright⟩

/-- Nodes 1 and 2 come in one order, and in another with a node 3 that leaves again. -/
theorem owners_of_live_three :
    SameOwners (run 2 [.addNode 1, .addNode 2])
        (run 2 [.addNode 2, .addNode 3, .addNode 1, .removeNode 3, .addNode 2]) ∧
      (run 2 [.addNode 1, .addNode 2]).size = 2 * 2 ∧
      (run 2 [.addNode 2, .addNode 3, .addNode 1, .removeNode 3, .addNode 2]).size = 2 * 2 := by
  have hnodup : ((List.product [1, 2, 3] (List.range 2)).map fun p : UInt32 × ℕ =>
      fnv1a64 (vnodeKey p.1 p.2)).Nodup := by decide +kernel
  refine owners_of_live 2 _ _ (by decide) fun a b i j ha hb hi hj => ?_
  have hmem : ∀ x : UInt32, RingCall.addNode x ∈ [.addNode 1, .addNode 2] ∨ RingCall.addNode x ∈
      [.addNode 2, .addNode 3, .addNode 1, .removeNode 3, .addNode 2] → x ∈ [1, 2, 3] := by
    rintro x (hx | hx)
    · have h : x = 1 ∨ x = 2 := by simpa using hx
      rcases h with rfl | rfl
      · exact .head _
      · exact .tail _ (.head _)
    · have h : x = 2 ∨ x = 3 ∨ x = 1 ∨ x = 2 := by simpa using hx
      rcases h with rfl | rfl | rfl | rfl
      · exact .tail _ (.head _)
      · exact .tail _ (.tail _ (.head _))
      · exact .head _
      · exact .tail _ (.head _)
  have hpair : ∀ {x : UInt32} {k : ℕ}, x ∈ [1, 2, 3] → k < 2 →
      (x, k) ∈ List.product [1, 2, 3] (List.range 2) :=
    fun hx hk => List.pair_mem_product.mpr ⟨hx, List.mem_range.mpr hk⟩
  intro heq
  exact Prod.mk.inj (List.inj_on_of_nodup_map hnodup (hpair (hmem a ha) hi)
    (hpair (hmem b hb) hj) heq)

/-- A ring with a negative number of replicas has no points. -/
theorem size_ne_replicas_mul : ¬ ∀ (replicas : Int32) (hist hist' : List RingCall),
    liveNodes hist = liveNodes hist' →
    LabelsDistinct replicas (fun a => .addNode a ∈ hist ∨ .addNode a ∈ hist') →
    SameOwners (run replicas hist) (run replicas hist') ∧
      ((run replicas hist).size : ℤ) = replicas.toInt * (liveNodes hist).card ∧
      ((run replicas hist').size : ℤ) = replicas.toInt * (liveNodes hist').card := by
  intro h
  let hist : List RingCall := [.addNode 7]
  have hdist : LabelsDistinct (-1) fun a => .addNode a ∈ hist ∨ .addNode a ∈ hist := by
    intro a b i j _ _ hi
    exact absurd hi (Nat.not_lt_zero i)
  have hsize := (h (-1) hist hist rfl hdist).2.1
  exact absurd hsize (by decide)

end ConsistentHash

end Lite3
