import Lite3.Ring.Members

/-! # Rings by their histories

Where labels of two nodes have one hash, the point belongs to the node that was
placed there last, unless it has left since. A point that a node has taken from
another does not come back when it leaves, so a node that comes and goes leaves
the ring as it was only if it takes no point.
-/

namespace Lite3

open Ordered

namespace RingCall

def node : RingCall → UInt32
  | addNode n | removeNode n => n

end RingCall

namespace ConsistentHash

/-- A label of the node has the hash. -/
def LabelAt (replicas : Int32) (n : UInt32) (hash : UInt64) : Prop :=
  ∃ i < replicas.toInt.toNat, fnv1a64 (vnodeKey n i) = hash

/-- The node was the last one to be placed at the hash, and it has not left since. -/
def Holds (replicas : Int32) (hist : List RingCall) (hash : UInt64) (n : UInt32) : Prop :=
  ∃ pre post, hist = pre ++ .addNode n :: post ∧ LabelAt replicas n hash ∧
    ∀ call ∈ post, call ≠ .removeNode n ∧ ∀ m, call = .addNode m → LabelAt replicas m hash → m = n

variable {replicas : Int32} {hist : List RingCall} {call a b : RingCall} {hash : UInt64}
  {m n : UInt32} {r : ConsistentHash} {key : List UInt8}

theorem holds_concat : Holds replicas (hist ++ [call]) hash n ↔
    call = .addNode n ∧ LabelAt replicas n hash ∨ Holds replicas hist hash n ∧
      call ≠ .removeNode n ∧
      ∀ m, call = .addNode m → LabelAt replicas m hash → m = n := by
  constructor
  · rintro ⟨pre, post, heq, hlabel, hpost⟩
    rcases List.eq_nil_or_concat' post with rfl | ⟨post, c, rfl⟩
    · obtain ⟨-, hcall⟩ := List.append_inj' heq rfl
      exact Or.inl ⟨List.singleton_inj.mp hcall, hlabel⟩
    · rw [← List.cons_append, ← List.append_assoc] at heq
      obtain ⟨rfl, hcall⟩ := List.append_inj' heq rfl
      obtain rfl := List.singleton_inj.mp hcall
      refine Or.inr ⟨⟨pre, post, rfl, hlabel, fun d hd => hpost d (List.mem_append_left _ hd)⟩, ?_⟩
      exact hpost _ (List.mem_append_right _ (List.mem_singleton_self _))
  · rintro (⟨rfl, hlabel⟩ | ⟨⟨pre, post, rfl, hlabel, hpost⟩, hcall⟩)
    · exact ⟨hist, [], rfl, hlabel, by simp⟩
    · refine ⟨pre, post ++ [call], by simp, hlabel, fun d hd => ?_⟩
      rcases List.mem_append.mp hd with hd | hd
      · exact hpost d hd
      · obtain rfl := List.mem_singleton.mp hd
        exact hcall

/-- After any history the ring has the points that are held. -/
theorem mem_run_iff : (hash, n) ∈ (run replicas hist).ring ↔ Holds replicas hist hash n := by
  induction hist using List.reverseRecOn with
  | nil => exact iff_of_false OrdMap.not_mem_empty (by rintro ⟨_ | _, _, heq, -⟩ <;> cases heq)
  | append_singleton hist call ih =>
    have hlabel : ∀ {m}, hash ∈ (run replicas hist).points m ↔ LabelAt replicas m hash := by
      intro m
      rw [mem_points, replicas_run]
      rfl
    rw [holds_concat, ← ih, run, List.foldl_concat]
    change (hash, n) ∈ (call.apply (run replicas hist)).ring ↔ _
    cases call with
    | addNode m =>
      rw [RingCall.apply, mem_addNode, hlabel]
      constructor
      · rintro (⟨hm, rfl⟩ | ⟨hm, hr⟩)
        · exact Or.inl ⟨rfl, hm⟩
        · refine Or.inr ⟨hr, by simp, ?_⟩
          rintro m' ⟨⟩ hm'
          exact absurd hm' hm
      · rintro (⟨⟨⟩, hn⟩ | ⟨hr, -, hm⟩)
        · exact Or.inl ⟨hn, rfl⟩
        · by_cases hlm : LabelAt replicas m hash
          · exact Or.inl ⟨hlm, (hm m rfl hlm).symm⟩
          · exact Or.inr ⟨hlm, hr⟩
    | removeNode m =>
      rw [RingCall.apply, mem_removeNode]
      simp [eq_comm]

/-- The owner of a key is the node that holds the next point, or node zero if no point is held. -/
theorem owner_history (replicas : Int32) (hist : List RingCall) (key : List UInt8) (n : UInt32) :
    (run replicas hist).getNode key = n ↔
      (∃ hash, Holds replicas hist hash n ∧ ∀ hash' m, Holds replicas hist hash' m →
        rank (fnv1a64 key) hash ≤ rank (fnv1a64 key) hash') ∨
      n = 0 ∧ ∀ hash m, ¬ Holds replicas hist hash m := by
  simp only [← mem_run_iff]
  cases hempty : (run replicas hist).ring.isEmpty with
  | true =>
    have hnone := OrdMap.isEmpty_iff.mp hempty
    rw [getNode_of_empty hempty]
    constructor
    · rintro rfl
      exact Or.inr ⟨rfl, fun hash m => hnone _⟩
    · rintro (⟨hash, hmem, -⟩ | ⟨rfl, -⟩)
      · exact absurd hmem (hnone _)
      · rfl
  | false =>
    obtain ⟨p, hp⟩ := exists_next hempty key
    obtain ⟨hmem, hle⟩ := OrdMap.next_eq_some_iff.mp hp
    rw [getNode_of_next hp]
    constructor
    · rintro rfl
      exact Or.inl ⟨p.1, hmem, fun hash m hm => hle _ hm⟩
    · rintro (⟨hash, hn, hmin⟩ | ⟨-, hnone⟩)
      · have hsome := OrdMap.next_eq_some_iff.mpr ⟨hn, fun q hq => hmin q.1 q.2 hq⟩
        exact congrArg Prod.snd (Option.some_inj.mp (hp.symm.trans hsome))
      · exact absurd hmem (hnone p.1 p.2)

/-- Both calls place nodes, and these have labels with one hash. -/
def Clash (r : ConsistentHash) : RingCall → RingCall → Prop
  | .addNode m, .addNode n => ∃ hash ∈ r.points m, hash ∈ r.points n
  | _, _ => False

theorem ring_ext {r r' : ConsistentHash} (hrep : r.replicas = r'.replicas)
    (hmem : ∀ p, p ∈ r.ring ↔ p ∈ r'.ring) : r = r' := by
  cases r
  cases r'
  cases hrep
  exact congrArg _ (OrdMap.ext_mem hmem)

theorem removeNode_addNode_comm (r : ConsistentHash) (hne : m ≠ n) :
    (r.addNode m).removeNode n = (r.removeNode n).addNode m := by
  refine ring_ext rfl fun p => ?_
  have hpoints : (r.removeNode n).points m = r.points m := rfl
  simp only [mem_addNode, mem_removeNode, hpoints]
  constructor
  · rintro ⟨⟨hp, he⟩ | ⟨hp, hr⟩, hn⟩
    · exact Or.inl ⟨hp, he⟩
    · exact Or.inr ⟨hp, hr, hn⟩
  · rintro (⟨hp, he⟩ | ⟨hp, hr, hn⟩)
    · exact ⟨Or.inl ⟨hp, he⟩, he ▸ hne⟩
    · exact ⟨Or.inr ⟨hp, hr⟩, hn⟩

/-- Calls about two nodes can be swapped unless both place nodes with labels of one hash. -/
theorem calls_commute_iff (r : ConsistentHash) (hne : a.node ≠ b.node) :
    b.apply (a.apply r) = a.apply (b.apply r) ↔ ¬ Clash r a b := by
  have hpoints : ∀ (r : ConsistentHash) m n, (r.addNode m).points n = r.points n := fun _ _ _ => rfl
  rcases a with m | m <;> rcases b with n | n
  · constructor
    · rintro heq ⟨hash, hm, hn⟩
      have hmem : (hash, n) ∈ ((r.addNode m).addNode n).ring := mem_addNode.mpr (Or.inl ⟨hn, rfl⟩)
      rw [show (r.addNode m).addNode n = (r.addNode n).addNode m from heq] at hmem
      rcases mem_addNode.mp hmem with ⟨-, he⟩ | ⟨hno, -⟩
      · exact hne he.symm
      · exact hno hm
    · intro hclash
      refine ring_ext rfl fun p => ?_
      have hp : ¬ (p.1 ∈ r.points m ∧ p.1 ∈ r.points n) := fun h => hclash ⟨p.1, h⟩
      change p ∈ ((r.addNode m).addNode n).ring ↔ p ∈ ((r.addNode n).addNode m).ring
      simp only [mem_addNode, hpoints]
      tauto
  · exact iff_of_true (removeNode_addNode_comm r hne) id
  · exact iff_of_true (removeNode_addNode_comm r (Ne.symm hne)).symm id
  · refine iff_of_true (ring_ext rfl fun p => ?_) id
    change p ∈ ((r.removeNode m).removeNode n).ring ↔ p ∈ ((r.removeNode n).removeNode m).ring
    simp only [mem_removeNode]
    tauto

theorem calls_commute_two : (RingCall.addNode 2).apply ((RingCall.addNode 1).apply (new 2)) =
    (RingCall.addNode 1).apply ((RingCall.addNode 2).apply (new 2)) := by
  refine (calls_commute_iff (a := .addNode 1) (b := .addNode 2) (new 2) (by decide)).mpr ?_
  rintro ⟨hash, h₁, h₂⟩
  have hapart : ((new 2).points 1).any ((new 2).points 2).contains = false := by decide +kernel
  have hshared := List.any_eq_true.mpr ⟨hash, h₁, List.contains_iff_mem.mpr h₂⟩
  exact absurd hshared (by simp [hapart])

theorem removeNode_addNode_iff (r : ConsistentHash) (n : UInt32) :
    (r.addNode n).removeNode n = r ↔ ∀ p ∈ r.ring, p.2 ≠ n ∧ p.1 ∉ r.points n := by
  constructor
  · intro heq p hp
    rw [← heq, mem_removeNode, mem_addNode] at hp
    tauto
  · intro h
    refine ring_ext rfl fun p => ?_
    rw [mem_removeNode, mem_addNode]
    constructor
    · tauto
    · exact fun hp => ⟨Or.inr ⟨(h p hp).2, hp⟩, (h p hp).1⟩

end ConsistentHash

end Lite3
