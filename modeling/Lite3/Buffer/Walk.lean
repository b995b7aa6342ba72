import Lite3.Buffer.Set
import Lite3.Tree.Basic

/-! # Trees as they lie in memory

What following the child offsets from a node finds: the nodes, their slots in
order, the bytes they take up and the shape they have. None of this is computed
by the library; the properties of its buffers are stated with it.
-/

namespace Lite3

open NodeView Config

namespace NodeView

/-- The hash and the entry offset in slot `i`. -/
def slot (m : Mem) (o i : ℕ) : UInt32 × ℕ := (getHash m o i, getKvOffset m o i)

/-- The children of a node; a leaf has a zero in the first place. -/
def kids (m : Mem) (o : ℕ) : List ℕ :=
  if getChildOffset m o 0 = 0 then []
  else (List.range (keyCount m o + 1)).map (getChildOffset m o)

/-- The nodes at `o` and below, down to `n` levels. -/
def nodes (m : Mem) : ℕ → ℕ → List ℕ
  | 0, _ => []
  | n + 1, o => o :: (kids m o).flatMap (nodes m n)

/-- The slots at `o` and below in order, down to `n` levels. -/
def slots (m : Mem) : ℕ → ℕ → List (UInt32 × ℕ)
  | 0, _ => []
  | n + 1, o => Tree.weave ((kids m o).map (slots m n)) ((List.range (keyCount m o)).map (slot m o))

/-- The offset and the length of an entry: key tag, key, terminator, type tag and payload. -/
def entryRegion (m : Mem) (isArr : Bool) (vo : ℕ) : ℕ × ℕ :=
  let value := Buffer.skipKey m vo isArr
  (vo, value - vo + Buffer.existingTotalLen m value)

/-- All leaves lie `h` levels below `o`, nodes have the given type and their number of keys, and
child offsets tell leaves from inner nodes. -/
def Shape (m : Mem) (type : ValueType) : (h : ℕ) → (root : Bool) → (o : ℕ) → Prop
  | 0, root, o =>
    (keyCount m o ≤ 7 ∧ (root = false → 3 ≤ keyCount m o) ∧ NodeView.type m o = type) ∧
      ∀ i ≤ keyCount m o, getChildOffset m o i = 0
  | h + 1, root, o =>
    (keyCount m o ≤ 7 ∧ (root = false → 3 ≤ keyCount m o) ∧ NodeView.type m o = type) ∧
      ∀ i ≤ keyCount m o, getChildOffset m o i ≠ 0 ∧ Shape m type h false (getChildOffset m o i)

/-- Search `count` slots from `start` on and go on with the child where the search ends. -/
def searchAmong (m : Mem) (hash : UInt32) (key : List UInt8) (isArr : Bool)
    (next : ℕ → List (UInt32 × ℕ)) (o start count : ℕ) : List (UInt32 × ℕ) :=
  let i := scan (fun i => compareNodeKey m o i hash key isArr = .lt) count start
  if i < start + count ∧ compareNodeKey m o i hash key isArr = .eq then []
  else if getChildOffset m o i = 0 then []
  else next (getChildOffset m o i)

/-- The slots of the medians that an insertion splits off on its way down. -/
def medians (m : Mem) (hash : UInt32) (key : List UInt8) (isArr : Bool) :
    ℕ → ℕ → List (UInt32 × ℕ)
  | 0, _ => []
  | n + 1, o =>
    let among := searchAmong m hash key isArr (medians m hash key isArr n) o
    let mid := nodeKeyCountMin
    if keyCount m o = nodeKeyCountMax then
      slot m o mid :: if getHash m o mid < hash then among (mid + 1) mid else among 0 mid
    else among 0 (keyCount m o)

/-- Search `count` slots from `start` on and go on with the child where the search ends, if any. -/
def searchOn {β : Type} (m : Mem) (hash : UInt32) (key : List UInt8) (isArr : Bool) (stop : β)
    (next : ℕ → β) (o start count : ℕ) : β :=
  let i := scan (fun i => compareNodeKey m o i hash key isArr = .lt) count start
  if i < start + count ∧ compareNodeKey m o i hash key isArr = .eq then stop
  else if getChildOffset m o i = 0 then stop
  else next (getChildOffset m o i)

/-- The number of nodes that an insertion passes on its way down, of a full one only half. -/
def passed (m : Mem) (hash : UInt32) (key : List UInt8) (isArr : Bool) : ℕ → ℕ → ℕ
  | 0, _ => 0
  | n + 1, o =>
    let among := searchOn m hash key isArr 1 (fun o => 1 + passed m hash key isArr n o) o
    let mid := nodeKeyCountMin
    if keyCount m o = nodeKeyCountMax then
      if getHash m o mid < hash then among (mid + 1) mid else among 0 mid
    else among 0 (keyCount m o)

/-- The levels of a tree along its first children, down to `n`. -/
def depth (m : Mem) : ℕ → ℕ → ℕ
  | 0, _ => 0
  | n + 1, o => if getChildOffset m o 0 = 0 then 1 else depth m n (getChildOffset m o 0) + 1

end NodeView

namespace Buffer

/-- The value bytes of a given type behind a type tag. -/
def payload (m : Mem) (type : ValueType) (p : ℕ) : List UInt8 :=
  match type with
  | .string | .bytes => Bytes.slice m (p + 4) (Bytes.load32 m p).toNat
  | .bool => Bytes.slice m p 1
  | .int64 | .float64 => Bytes.slice m p 8
  | _ => []

/-- What a lookup finds: the type, the offset behind the type tag and the value bytes. -/
def fetch (b : Buffer) (ofs : ℕ) (key : List UInt8) (hash : UInt32) (isArr : Bool) :
    Option (Option (ValueType × ℕ × List UInt8)) :=
  (b.getImpl ofs key hash isArr).map fun found =>
    found.map fun (type, p) => (type, p, payload b.mem type p)

/-- The type and the value bytes under a key of an object. -/
def found (b : Buffer) (ofs : ℕ) (key : List UInt8) : Option (Option (ValueType × List UInt8)) :=
  (b.fetch ofs key (djb2Hash key) false).map fun found =>
    found.map fun (type, _, val) => (type, val)

/-- The type and the value bytes that a lookup finds. -/
def read (b : Buffer) (ofs : ℕ) (key : List UInt8) (hash : UInt32) (isArr : Bool) :
    Option (Option (ValueType × List UInt8)) :=
  (b.fetch ofs key hash isArr).map fun found => found.map fun (type, _, val) => (type, val)

/-- The levels of a tree are fewer than the bytes of its buffer. -/
def levels (b : Buffer) : ℕ := b.data.length + 1

def nodes (b : Buffer) (o : ℕ) : List ℕ := NodeView.nodes b.mem b.levels o

def slots (b : Buffer) (o : ℕ) : List (UInt32 × ℕ) := NodeView.slots b.mem b.levels o

/-- The offsets and lengths of all nodes and entries of the container at `o`. -/
def regions (b : Buffer) (isArr : Bool) (o : ℕ) : List (ℕ × ℕ) :=
  (b.nodes o).map (·, nodeSize) ++ (b.slots o).map fun s => entryRegion b.mem isArr s.2

def medians (b : Buffer) (o : ℕ) (hash : UInt32) (key : List UInt8) (isArr : Bool) :
    List (UInt32 × ℕ) :=
  NodeView.medians b.mem hash key isArr b.levels o

def passed (b : Buffer) (o : ℕ) (hash : UInt32) (key : List UInt8) (isArr : Bool) : ℕ :=
  NodeView.passed b.mem hash key isArr b.levels o

def depth (b : Buffer) (o : ℕ) : ℕ := NodeView.depth b.mem b.levels o

/-- The times that `set_impl` pushes an offset on `path`, once in every iteration. -/
def pushes (b : Buffer) (ofs : ℕ) (a : SetArgs) : ℕ :=
  Loop.rounds (setStep a) (2 * b.data.length + 2) ⟨b, none, ofs, 0⟩

/-- The states of the descent of `set_impl`. -/
def setVisits (b : Buffer) (ofs : ℕ) (a : SetArgs) : List SetState :=
  Loop.visited (setStep a) (2 * b.data.length + 2) ⟨b, none, ofs, 0⟩

/-- Every median with the hash of the key that the insertion splits off has a greater key. -/
def Routed (b : Buffer) (o : ℕ) (key : List UInt8) : Prop :=
  ∀ s ∈ b.medians o (djb2Hash key) key false, s.1 = djb2Hash key →
    compare (storedKey b.mem s.2) key = .gt

instance (b : Buffer) (o : ℕ) (key : List UInt8) : Decidable (b.Routed o key) :=
  inferInstanceAs (Decidable (∀ s ∈ _, _))

end Buffer

end Lite3
