import Mathlib.Logic.Function.Iterate
import Lite3.Buffer.Api
import Lite3.Buffer.Walk

/-! # Iterators

An iterator walks the entries below a node with a bounded stack. It gives up its
buffer when it runs off the end or reads something out of range, and it notices
modifications by the generation of the node at offset zero.
-/

namespace Lite3

open NodeView Config

structure IterValue where
  key : List UInt8
  valueOffset : ℕ
  valueType : ValueType
  deriving DecidableEq

/-- The stack holds node offsets and key indices, the deepest node first; `hasBuffer` tells whether
the buffer pointer is set. -/
structure Iterator where
  hasBuffer : Bool
  generation : UInt32
  stack : List (ℕ × ℕ)
  current : Option IterValue

namespace Iterator

/-- Descend along first children as long as the stack has room for `n` more nodes. -/
def descend (m : Mem) : ℕ → List (ℕ × ℕ) → List (ℕ × ℕ)
  | n + 1, (o, i) :: st =>
    if getChildOffset m o 0 ≠ 0 then descend m n ((getChildOffset m o 0, 0) :: (o, i) :: st)
    else (o, i) :: st
  | _, st => st

/-- Go down to the first key below the node on top; `size` is that of the byte vector. -/
def findFirst (m : Mem) (size : ℕ) (it : Iterator) : Iterator :=
  if it.hasBuffer then
    if size = 0 then it
    else if it.generation ≠ NodeView.generation m 0 then { it with hasBuffer := false }
    else { it with stack := descend m (treeHeightMax + 1 - it.stack.length) it.stack }
  else it

/-- Leave the nodes whose keys are used up. -/
def unwind (m : Mem) : List (ℕ × ℕ) → List (ℕ × ℕ)
  | [] => []
  | (o, i) :: st => if keyCount m o ≤ i then unwind m st else (o, i) :: st

/-- The entry at `kvOffset`, unless it does not lie within the vector. -/
def readEntry (m : Mem) (size kvOffset : ℕ) : Option IterValue :=
  if size ≤ kvOffset then none
  else
    let keySize := ((m kvOffset) >>> 2).toNat
    if keySize = 0 ∨ size < kvOffset + 1 + keySize then none
    else
      let valueOffset := kvOffset + 1 + keySize
      if size ≤ valueOffset then none
      else some ⟨Bytes.slice m (kvOffset + 1) (keySize - 1), valueOffset, .ofCode (m valueOffset)⟩

def findNext (m : Mem) (size : ℕ) (it : Iterator) : Iterator :=
  if it.hasBuffer then
    if size = 0 ∨ it.generation ≠ NodeView.generation m 0 then { it with hasBuffer := false }
    else
      match unwind m it.stack with
      | [] => { it with hasBuffer := false, stack := [] }
      | (o, i) :: st =>
        match readEntry m size (getKvOffset m o i) with
        | none => { it with hasBuffer := false, stack := (o, i) :: st }
        | some v =>
          let child := getChildOffset m o (i + 1)
          if child ≠ 0 ∧ st.length < treeHeightMax then
            findFirst m size { it with current := some v, stack := (child, 0) :: (o, i + 1) :: st }
          else { it with current := some v, stack := (o, i + 1) :: st }
  else it

/-- The constructor on a buffer that is not empty. -/
def start (m : Mem) (size nodeOffset : ℕ) (generation : UInt32) : Iterator :=
  findNext m size (findFirst m size ⟨true, generation, [(nodeOffset, 0)], none⟩)

/-- Iterators without a buffer are at the end. -/
def atEnd : Iterator := ⟨false, 0, [], none⟩

/-- `operator*` and `operator->` -/
def deref (b : Buffer) (it : Iterator) : Except Fault (Option IterValue) :=
  if it.hasBuffer = false ∨ b.data = [] then .error (.exception "Invalid iterator")
  else if it.generation ≠ NodeView.generation b.mem 0 then
    .error (.exception "Iterator invalidated: Buffer modified during iteration.")
  else .ok it.current

/-- `operator==` of two iterators over one buffer -/
def equals (b : Buffer) (x y : Iterator) : Bool :=
  if x.hasBuffer = false ∧ y.hasBuffer = false then true
  else if x.hasBuffer = false ∨ y.hasBuffer = false then false
  else if b.data = [] ∨ x.generation ≠ NodeView.generation b.mem 0 then false
  else x.stack.length = y.stack.length ∧ x.stack.head? = y.stack.head?

/-- `operator++` -/
def next (b : Buffer) (it : Iterator) : Iterator := it.findNext b.mem b.data.length

end Iterator

namespace Buffer

def begin (b : Buffer) (ofs : ℕ) : Iterator :=
  if b.data = [] then .atEnd
  else .start b.mem b.data.length ofs (NodeView.generation b.mem 0)

/-- The key, the type and the value bytes of what an iterator shows. -/
def shown (m : Mem) (v : IterValue) : List UInt8 × ValueType × List UInt8 :=
  (v.key, v.valueType, payload m v.valueType (v.valueOffset + 1))

/-- What the `k`-th iterator from `begin` on shows. -/
def visit (b : Buffer) (ofs k : ℕ) : Except Fault (Option (List UInt8 × ValueType × List UInt8)) :=
  (((Iterator.next b)^[k] (b.begin ofs)).deref b).map (Option.map (shown b.mem))

end Buffer

end Lite3
