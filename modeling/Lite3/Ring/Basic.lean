import Mathlib.Data.Finset.Erase
import Mathlib.Data.Finset.Insert
import Lite3.Ordered.Cyclic

/-! # The ring of virtual nodes

Every node has a point on the ring for each of its replicas, at the hash of its
label. A key belongs to the node of the next point behind its own hash.
-/

namespace Lite3

open Ordered

instance instLinearOrderUInt64 : LinearOrder UInt64 where
  le_refl := UInt64.le_refl
  le_trans _ _ _ := UInt64.le_trans
  le_antisymm _ _ := UInt64.le_antisymm
  le_total := UInt64.le_total
  lt_iff_le_not_ge a b := by
    rw [UInt64.not_le, UInt64.lt_iff_toNat_lt, UInt64.le_iff_toNat_le]
    omega
  toDecidableLE := inferInstance

/-- A character as a 64-bit number, where characters are signed. -/
def widen (c : UInt8) : UInt64 := c.toInt8.toInt64.toUInt64

def fnv1a64 (s : List UInt8) : UInt64 :=
  s.foldl (fun hash c => (hash ^^^ widen c) * 1099511628211) 14695981039346656037

/-- `std::to_string` -/
def decimal (n : ℕ) : List UInt8 := (Nat.toDigits 10 n).map Char.toUInt8

/-- The label of a virtual node. -/
def vnodeKey (nodeId : UInt32) (i : ℕ) : List UInt8 := decimal nodeId.toNat ++ 58 :: decimal i

structure ConsistentHash where
  replicas : Int32
  ring : OrdMap UInt64 UInt32

namespace ConsistentHash

def new (replicas : Int32) : ConsistentHash := ⟨replicas, .empty⟩

/-- A negative number of replicas is none. -/
def addNode (r : ConsistentHash) (nodeId : UInt32) : ConsistentHash :=
  let points := (List.range r.replicas.toInt.toNat).map fun i => fnv1a64 (vnodeKey nodeId i)
  { r with ring := points.foldl (fun ring hash => ring.insert hash nodeId) r.ring }

def removeNode (r : ConsistentHash) (nodeId : UInt32) : ConsistentHash :=
  { r with ring := r.ring.filter fun point => point.2 ≠ nodeId }

def getNode (r : ConsistentHash) (key : List UInt8) : UInt32 :=
  if r.ring.isEmpty then 0
  else
    match r.ring.lowerBound (fnv1a64 key) with
    | some point => point.2
    | none =>
      match r.ring.first with
      | some point => point.2
      | none => 0

def isOwner (r : ConsistentHash) (key : List UInt8) (selfId : UInt32) : Bool :=
  r.getNode key == selfId

def size (r : ConsistentHash) : ℕ := r.ring.size

end ConsistentHash

/-- What can happen to a ring. -/
inductive RingCall
  | addNode (nodeId : UInt32)
  | removeNode (nodeId : UInt32)
  deriving DecidableEq

namespace RingCall

def apply (r : ConsistentHash) : RingCall → ConsistentHash
  | addNode n => r.addNode n
  | removeNode n => r.removeNode n

/-- The live nodes after a call: those added and not removed since. -/
def liven (live : Finset UInt32) : RingCall → Finset UInt32
  | addNode n => insert n live
  | removeNode n => live.erase n

end RingCall

/-- The ring after a history. -/
def ConsistentHash.run (replicas : Int32) (hist : List RingCall) : ConsistentHash :=
  hist.foldl RingCall.apply (.new replicas)

/-- The nodes that are live after a history. -/
def liveNodes (hist : List RingCall) : Finset UInt32 := hist.foldl RingCall.liven ∅

end Lite3
