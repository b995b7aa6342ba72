import Lite3.Buffer.Basic
import Lite3.Loop.Basic

/-! # Insertion

The descent of `set_impl` as a loop: every iteration bumps the generation of
the node it stands on, splits the node when it is full, and otherwise updates
the entry it finds, descends, or inserts into a leaf.
-/

namespace Lite3

open NodeView Config

def djb2Hash (key : List UInt8) : UInt32 :=
  key.foldl (fun hash c => ((hash <<< 5) + hash) + c.toInt8.toInt32.toUInt32) 5381

/-- The key that the tag byte of an entry announces. -/
def storedKey (m : Mem) (vo : ℕ) : List UInt8 :=
  let klen := ((m vo) >>> 2).toUInt32
  let ksz := klen - 1
  Bytes.slice m (vo + 1) ksz.toNat

/-- The order of entry `i` relative to the sought hash and key. -/
def compareNodeKey (m : Mem) (o i : ℕ) (hash : UInt32) (key : List UInt8) (isArr : Bool) :
    Ordering :=
  let nh := getHash m o i
  if nh < hash then .lt
  else if nh > hash then .gt
  else if isArr then .eq
  else compare (storedKey m (getKvOffset m o i)) key

/-- The first of the indices `i, i + 1, …` below `i + n` that fails `p`. -/
def scan (p : ℕ → Bool) : ℕ → ℕ → ℕ
  | 0, i => i
  | n + 1, i => if p i then scan p n (i + 1) else i

/-- The first of `count` entries that is not before the sought hash and key. -/
def searchNode (m : Mem) (o : ℕ) (hash : UInt32) (key : List UInt8) (isArr : Bool) (count : ℕ) :
    ℕ :=
  scan (fun i => compareNodeKey m o i hash key isArr = .lt) count 0

/-- The arguments of `set_impl` besides the container. -/
structure SetArgs where
  key : List UInt8
  keyHash : UInt32
  val : List UInt8
  type : ValueType
  isAppend : Bool

/-- The number of tag bytes that the writer accounts for. -/
def keyTagSize (isAppend : Bool) (keySize : ℕ) : ℕ :=
  if isAppend then 0
  else if keySize < 64 then 1
  else if keySize < 16384 then 2
  else 3

namespace SetArgs

def klen (a : SetArgs) : ℕ :=
  if a.isAppend then 0 else a.key.length + keyTagSize a.isAppend a.key.length + 1

def valTotalLen (a : SetArgs) : ℕ :=
  let n := 1 + a.val.length
  let n := if a.type = .string ∨ a.type = .bytes then n + 4 else n
  if a.type = .string then n + 1 else n

end SetArgs

/-- The variables of the descent; no parent stands for `SIZE_MAX`. -/
structure SetState where
  buf : Buffer
  parentOfs : Option ℕ
  nodeOfs : ℕ
  pathDepth : ℕ

/-- `for (j = n; j > i; j--)` -/
def downTo {β : Type*} (i : ℕ) (body : ℕ → β → β) : ℕ → β → β
  | 0, b => b
  | j + 1, b => if i < j + 1 then downTo i body j (body (j + 1) b) else b

namespace Buffer

def writeKey (b : Buffer) (start : ℕ) (key : List UInt8) : Buffer :=
  let b := b.write start [.ofNat ((key.length + 1) <<< 2)]
  let b := b.write (start + 1) key
  b.write (start + 1 + key.length) [0]

def writeValue (b : Buffer) (vo : ℕ) (type : ValueType) (val : List UInt8) : Buffer :=
  let b := b.write vo [type.code]
  let vstart := vo + 1
  if type = .string ∨ type = .bytes then
    let b := b.write32 vstart (.ofNat val.length)
    let vstart := vstart + 4
    let b := b.write vstart val
    if type = .string then b.write (vstart + val.length) [0] else b
  else b.write vstart val

/-- Write key and value of a new entry at the end of the used bytes. -/
def writeEntry (b : Buffer) (a : SetArgs) : Buffer :=
  let start := b.usedSize
  let b := b.advance (a.klen + a.valTotalLen)
  let b := if a.isAppend then b else b.writeKey start a.key
  b.writeValue (start + a.klen) a.type a.val

def existingTotalLen (m : Mem) (vo : ℕ) : ℕ :=
  match ValueType.ofCode (m vo) with
  | .string => 1 + (4 + (Bytes.load32 m (vo + 1)).toNat) + 1
  | .bytes => 1 + (4 + (Bytes.load32 m (vo + 1)).toNat)
  | .bool => 1 + 1
  | .int64 | .float64 => 1 + 8
  | _ => 1 + 0

/-- The offset behind the key of an entry. -/
def skipKey (m : Mem) (vo : ℕ) (isArr : Bool) : ℕ :=
  if isArr then vo else vo + (1 + ((m vo) >>> 2).toNat)

def valueOffset (m : Mem) (o i : ℕ) (isArr : Bool) : ℕ := skipKey m (getKvOffset m o i) isArr

def updateEntry (b : Buffer) (a : SetArgs) (o i : ℕ) : Option ℕ × Buffer :=
  let vo := valueOffset b.mem o i a.isAppend
  if existingTotalLen b.mem vo = a.valTotalLen then
    (some vo, b.writeValue vo a.type a.val)
  else
    let b := b.ensureCapacity (a.klen + a.valTotalLen)
    let b := b.setKvOffset o i b.usedSize
    let b := b.writeEntry a
    (some (b.usedSize - a.valTotalLen), b)

/-- Copy entry `j - 1` to slot `j`. -/
def moveEntry (b : Buffer) (o j : ℕ) : Buffer :=
  let b := b.setHash o j (getHash b.mem o (j - 1))
  b.setKvOffset o j (getKvOffset b.mem o (j - 1))

/-- Copy entry `j - 1` and the child behind it. -/
def moveKid (b : Buffer) (o j : ℕ) : Buffer :=
  let b := b.moveEntry o j
  b.setChildOffset o (j + 1) (getChildOffset b.mem o j)

/-- Copy entry `k` of node `o` and the child behind it to slot `j` of node `s`. -/
def copyEntry (b : Buffer) (o s k j : ℕ) : Buffer :=
  let b := b.setHash s j (getHash b.mem o k)
  let b := b.setKvOffset s j (getKvOffset b.mem o k)
  b.setChildOffset s (j + 1) (getChildOffset b.mem o (k + 1))

def insertEntry (b : Buffer) (a : SetArgs) (o i : ℕ) : Option ℕ × Buffer :=
  let count := keyCount b.mem o
  let b := b.ensureCapacity (a.klen + a.valTotalLen)
  let start := b.usedSize
  let b := b.writeEntry a
  let b := downTo i (fun j b => b.moveEntry o j) count b
  let b := b.setHash o i a.keyHash
  let b := b.setKvOffset o i start
  let b := b.setKeyCount o (count + 1)
  (some (start + a.klen), b)

/-- Align the used size and make room for the nodes that a split adds. -/
def makeRoom (b : Buffer) (parentOfs : Option ℕ) : Buffer :=
  let nextAligned := (b.usedSize + nodeAlignment - 1) / nodeAlignment * nodeAlignment
  let spaceNeeded := if parentOfs.isNone then 2 * nodeSize else nodeSize
  let b := b.ensureCapacity (spaceNeeded + (nextAligned - b.usedSize) + 128)
  { b with usedSize := nextAligned }

/-- Move the root's contents to a new node and make the root its parent. -/
def splitRoot (b : Buffer) (o : ℕ) : Buffer :=
  let movesTo := b.usedSize
  let b := b.advance nodeSize
  let b := b.write movesTo (Bytes.slice b.mem o nodeSize)
  let rootType := type b.mem o
  let b := b.clear o nodeSize
  let b := b.setGenType o 1 rootType
  let b := b.setKeyCount o 0
  let b := b.setChildOffset o 0 movesTo
  b.setSizeKc o (size b.mem movesTo) 0

/-- Allocate a sibling of node `o` and copy the upper keys and children to it. -/
def newSibling (b : Buffer) (o : ℕ) : Buffer :=
  let sibling := b.usedSize
  let b := b.advance nodeSize
  let b := b.clear sibling nodeSize
  let b := b.setGenType sibling (generation b.mem o) (type b.mem o)
  let mid := nodeKeyCountMin
  let moveCount := keyCount b.mem o - (mid + 1)
  let b := b.setChildOffset sibling 0 (getChildOffset b.mem o (mid + 1))
  let b := (List.range moveCount).foldl (fun b j => b.copyEntry o sibling (mid + 1 + j) j) b
  b.setSizeKc sibling 0 moveCount

/-- Insert the median of node `o` at slot `i` of the parent, with the sibling behind it. -/
def promoteMedian (b : Buffer) (p o i sibling : ℕ) : Buffer :=
  let mid := nodeKeyCountMin
  let b := downTo i (fun j b => b.moveKid p j) (keyCount b.mem p) b
  let b := b.setHash p i (getHash b.mem o mid)
  let b := b.setKvOffset p i (getKvOffset b.mem o mid)
  let b := b.setChildOffset p (i + 1) sibling
  b.setSizeKc p (size b.mem p) (keyCount b.mem p + 1)

/-- Split the full node `o` below slot `i` of the parent. -/
def splitChild (b : Buffer) (p o i : ℕ) : Buffer :=
  let sibling := b.usedSize
  let b := b.newSibling o
  let b := b.promoteMedian p o i sibling
  b.setKeyCount o nodeKeyCountMin

/-- The generation counts the visit. -/
def touch (b : Buffer) (o : ℕ) : Buffer :=
  b.setGenType o (generation b.mem o + 1) (type b.mem o)

/-- The child slot of the parent that holds `o`; without one the code indexes by `-1`. -/
def slotOf (m : Mem) (p o : ℕ) : Option ℕ :=
  (List.range (keyCount m p + 1)).find? (fun k => getChildOffset m p k = o)

end Buffer

/-- One iteration. `path` is only written to, so all that is kept of it is how far it is filled;
`setGuarded` has its bound. -/
def setStep (a : SetArgs) (s : SetState) : SetState ⊕ (Option ℕ × Buffer) :=
  let o := s.nodeOfs
  let b := s.buf.touch o
  let count := keyCount b.mem o
  if nodeKeyCountMax ≤ count then
    let b := b.makeRoom s.parentOfs
    match s.parentOfs with
    | none => .inl ⟨b.splitRoot o, some o, b.usedSize, s.pathDepth⟩
    | some p =>
      match Buffer.slotOf b.mem p o with
      -- indexing by -1 is undefined behaviour: no result
      | none => .inr (none, b)
      | some i =>
        let sibling := b.usedSize
        let b := b.splitChild p o i
        .inl ⟨b, some p, if a.keyHash > getHash b.mem p i then sibling else o, s.pathDepth + 1⟩
  else
    let i := searchNode b.mem o a.keyHash a.key a.isAppend count
    if i < count ∧ compareNodeKey b.mem o i a.keyHash a.key a.isAppend = .eq then
      .inr (b.updateEntry a o i)
    else if getChildOffset b.mem o i ≠ 0 then
      .inl ⟨b, some o, getChildOffset b.mem o i, s.pathDepth + 1⟩
    else .inr (b.insertEntry a o i)

/-- The offset of the value written, or nothing when the descent has no defined result. -/
def Buffer.setImpl (b : Buffer) (ofs : ℕ) (a : SetArgs) : Option ℕ × Buffer :=
  match Loop.run (setStep a) (2 * b.data.length + 2) ⟨b, none, ofs, 0⟩ with
  | .inl s => (none, s.buf)
  | .inr r => r

/-- `size_t path[16]` -/
def pathSize : ℕ := 16

/-- The node of the iteration lies inside the data. -/
def SetState.Inside (s : SetState) : Prop := s.nodeOfs + nodeSize ≤ s.buf.data.length

/-- `path[path_depth++] = node_ofs` and the first access to the node have defined behaviour. -/
def SetState.Defined (s : SetState) : Prop := s.pathDepth < pathSize ∧ s.Inside

instance : DecidablePred SetState.Inside := fun _ => inferInstanceAs (Decidable (_ ≤ _))

instance : DecidablePred SetState.Defined := fun _ => inferInstanceAs (Decidable (_ ∧ _))

/-- One iteration of the lookup loop; a hit is the type and the offset behind the type tag. -/
def getStep (m : Mem) (hash : UInt32) (key : List UInt8) (isArr : Bool) (o : ℕ) :
    ℕ ⊕ Option (ValueType × ℕ) :=
  let count := keyCount m o
  let i := searchNode m o hash key isArr count
  if i < count ∧ compareNodeKey m o i hash key isArr = .eq then
    let vo := Buffer.valueOffset m o i isArr
    .inr (some (.ofCode (m vo), vo + 1))
  else if getChildOffset m o i ≠ 0 then .inl (getChildOffset m o i)
  else .inr none

/-- The outcome of a lookup, or nothing when the descent has not ended. -/
def Buffer.getImpl (b : Buffer) (ofs : ℕ) (key : List UInt8) (hash : UInt32) (isArr : Bool) :
    Option (Option (ValueType × ℕ)) :=
  match Loop.run (getStep b.mem hash key isArr) (b.data.length + 1) ofs with
  | .inl _ => none
  | .inr r => some r

end Lite3
