import Lite3.Ring.Basic

/-! # Owners

A node that is added takes keys from others and nothing else changes hands, and
a node that is removed leaves all other keys where they are. The owner of a key
is live if there is a point on the ring; an empty ring answers with node zero.
-/

namespace Lite3

open Ordered

namespace ConsistentHash

variable {r : ConsistentHash} {n x : UInt32} {key : List UInt8} {p : UInt64 × UInt32}

theorem mem_foldl_insert {points : List UInt64} {ring : OrdMap UInt64 UInt32} :
    p ∈ points.foldl (fun ring hash => ring.insert hash n) ring ↔
      p.1 ∈ points ∧ p.2 = n ∨ p.1 ∉ points ∧ p ∈ ring := by
  induction points generalizing ring with
  | nil => simp
  | cons hash points ih =>
    rw [List.foldl_cons, ih, OrdMap.mem_insert, List.mem_cons, Prod.ext_iff]
    tauto

/-- The points of a node. -/
def points (r : ConsistentHash) (n : UInt32) : List UInt64 :=
  (List.range r.replicas.toInt.toNat).map fun i => fnv1a64 (vnodeKey n i)

theorem mem_addNode : p ∈ (r.addNode n).ring ↔
    p.1 ∈ r.points n ∧ p.2 = n ∨ p.1 ∉ r.points n ∧ p ∈ r.ring := mem_foldl_insert

theorem mem_removeNode : p ∈ (r.removeNode n).ring ↔ p ∈ r.ring ∧ p.2 ≠ n := by
  rw [removeNode, OrdMap.mem_filter, decide_eq_true_eq]

/-- The owner of a key is the node of the next point. -/
theorem getNode_eq (r : ConsistentHash) (key : List UInt8) :
    r.getNode key = ((r.ring.next (fnv1a64 key)).map Prod.snd).getD 0 := by
  rw [getNode, OrdMap.next]
  split
  · next hempty =>
    have hnone : r.ring.next (fnv1a64 key) = none := OrdMap.next_eq_none_iff.mpr hempty
    rw [OrdMap.next] at hnone
    rw [hnone]
    rfl
  · cases r.ring.lowerBound (fnv1a64 key) with
    | some point => rfl
    | none => cases r.ring.first <;> rfl

theorem getNode_of_next (hp : r.ring.next (fnv1a64 key) = some p) : r.getNode key = p.2 := by
  rw [getNode_eq, hp]
  rfl

theorem getNode_of_empty (h : r.ring.isEmpty = true) : r.getNode key = 0 := by
  rw [getNode_eq, OrdMap.next_eq_none_iff.mpr h]
  rfl

theorem exists_next (h : r.ring.isEmpty = false) (key : List UInt8) :
    ∃ p, r.ring.next (fnv1a64 key) = some p := by
  cases hp : r.ring.next (fnv1a64 key) with
  | none => exact absurd (OrdMap.next_eq_none_iff.mp hp) (by simp [h])
  | some p => exact ⟨p, rfl⟩

theorem exists_point (h : r.ring.isEmpty = false) (key : List UInt8) :
    ∃ p ∈ r.ring, p.2 = r.getNode key := by
  obtain ⟨p, hp⟩ := exists_next h key
  exact ⟨p, (OrdMap.next_eq_some_iff.mp hp).1, (getNode_of_next hp).symm⟩

theorem getNode_addNode (r : ConsistentHash) (n : UInt32) (key : List UInt8) :
    (r.addNode n).getNode key = r.getNode key ∨ (r.addNode n).getNode key = n := by
  -- every point of the old ring is still taken
  have hkept : ∀ q ∈ r.ring, ∃ q' ∈ (r.addNode n).ring, q'.1 = q.1 := by
    intro q hq
    by_cases hmem : q.1 ∈ r.points n
    · exact ⟨(q.1, n), mem_addNode.mpr (Or.inl ⟨hmem, rfl⟩), rfl⟩
    · exact ⟨q, mem_addNode.mpr (Or.inr ⟨hmem, hq⟩), rfl⟩
  cases hempty : (r.addNode n).ring.isEmpty with
  | true =>
    left
    rw [getNode_of_empty hempty, getNode_of_empty]
    refine OrdMap.isEmpty_iff.mpr fun q hq => ?_
    obtain ⟨q', hq', -⟩ := hkept q hq
    exact OrdMap.isEmpty_iff.mp hempty q' hq'
  | false =>
    obtain ⟨p, hp⟩ := exists_next hempty key
    obtain ⟨hmem, hle⟩ := OrdMap.next_eq_some_iff.mp hp
    rw [getNode_of_next hp]
    rcases mem_addNode.mp hmem with ⟨-, hn⟩ | ⟨-, hold⟩
    · exact Or.inr hn
    · left
      refine (getNode_of_next (OrdMap.next_eq_some_iff.mpr ⟨hold, fun q hq => ?_⟩)).symm
      obtain ⟨q', hq', hk⟩ := hkept q hq
      exact hk ▸ hle q' hq'

theorem getNode_removeNode (hne : r.getNode key ≠ n) :
    (r.removeNode n).getNode key = r.getNode key := by
  cases hempty : r.ring.isEmpty with
  | true =>
    rw [getNode_of_empty hempty, getNode_of_empty]
    exact OrdMap.isEmpty_iff.mpr fun q hq =>
      OrdMap.isEmpty_iff.mp hempty q (mem_removeNode.mp hq).1
  | false =>
    obtain ⟨p, hp⟩ := exists_next hempty key
    obtain ⟨hmem, hle⟩ := OrdMap.next_eq_some_iff.mp hp
    rw [getNode_of_next hp] at hne ⊢
    apply getNode_of_next
    exact OrdMap.next_eq_some_iff.mpr
      ⟨mem_removeNode.mpr ⟨hmem, hne⟩, fun q hq => hle q (mem_removeNode.mp hq).1⟩

theorem getNode_removeNode_ne (h : (r.removeNode n).ring.isEmpty = false) (key : List UInt8) :
    (r.removeNode n).getNode key ≠ n := by
  obtain ⟨p, hp, hown⟩ := exists_point h key
  rw [← hown]
  exact (mem_removeNode.mp hp).2

/-- Adding and removing a node moves no key that it need not move. -/
theorem moves_least (replicas : Int32) (hist : List RingCall) (n : UInt32) (key : List UInt8) :
    let r := run replicas hist
    ((r.addNode n).getNode key = r.getNode key ∨ (r.addNode n).getNode key = n) ∧
      (r.getNode key ≠ n → (r.removeNode n).getNode key = r.getNode key) ∧
      ((r.removeNode n).ring.isEmpty = false → (r.removeNode n).getNode key ≠ n) :=
  ⟨getNode_addNode _ n key, getNode_removeNode, fun h => getNode_removeNode_ne h key⟩

theorem live_of_mem (replicas : Int32) (hist : List RingCall) (hp : p ∈ (run replicas hist).ring) :
    p.2 ∈ liveNodes hist := by
  induction hist using List.reverseRecOn generalizing p with
  | nil => exact absurd hp OrdMap.not_mem_empty
  | append_singleton hist call ih =>
    rw [run, List.foldl_concat] at hp
    rw [liveNodes, List.foldl_concat]
    cases call with
    | addNode n =>
      rcases mem_addNode.mp hp with ⟨-, hn⟩ | ⟨-, hold⟩
      · exact hn ▸ Finset.mem_insert_self _ _
      · exact Finset.mem_insert_of_mem (ih hold)
    | removeNode n =>
      obtain ⟨hold, hne⟩ := mem_removeNode.mp hp
      exact Finset.mem_erase.mpr ⟨hne, ih hold⟩

/-- Every key has one owner, and it is live, if a live node has its points on the ring; and no other
node owns a key. -/
structure OwnedByLive (r : ConsistentHash) (live : Finset UInt32) (key : List UInt8) : Prop where
  one : (∃ x ∈ live, ∃ p ∈ r.ring, p.2 = x) → ∃ x ∈ live, ∀ z, r.isOwner key z = true ↔ z = x
  none : ∀ x, x ∉ live → r.isOwner key x = false

/-- Owners are live except where an empty ring answers with a node zero that is not. -/
theorem ownedByLive_iff (replicas : Int32) (hist : List RingCall) (key : List UInt8) :
    OwnedByLive (run replicas hist) (liveNodes hist) key ↔
      (run replicas hist).ring.isEmpty = false ∨ 0 ∈ liveNodes hist := by
  have howner : ∀ z, (run replicas hist).isOwner key z = true ↔
      z = (run replicas hist).getNode key :=
    fun z => beq_iff_eq.trans eq_comm
  constructor
  · intro h
    by_contra hno
    obtain ⟨hempty, hzero⟩ := not_or.mp hno
    have hempty : (run replicas hist).ring.isEmpty = true := by simpa using hempty
    have hfalse := h.none 0 hzero
    have htrue := (howner 0).mpr (getNode_of_empty hempty).symm
    exact absurd (htrue.symm.trans hfalse) (by decide)
  · intro h
    have hlive : (run replicas hist).getNode key ∈ liveNodes hist := by
      cases hempty : (run replicas hist).ring.isEmpty with
      | true =>
        rw [getNode_of_empty hempty]
        exact h.resolve_left (by simp [hempty])
      | false =>
        obtain ⟨p, hp, hown⟩ := exists_point hempty key
        exact hown ▸ live_of_mem replicas hist hp
    constructor
    · intro _
      exact ⟨_, hlive, howner⟩
    · intro x hx
      refine Bool.eq_false_iff.mpr fun hown => hx ?_
      exact (howner x).mp hown ▸ hlive

/-- Before any node is added every key is owned by node zero. -/
theorem owner_not_live : ¬ ∀ (replicas : Int32) (hist : List RingCall) (key : List UInt8),
    1 ≤ replicas.toInt → OwnedByLive (run replicas hist) (liveNodes hist) key := by
  intro h
  have hfalse := (h 100 [] [] (by decide)).none 0 (by decide)
  exact absurd hfalse (by decide)

end ConsistentHash

end Lite3
