import Lite3.Bytes.Words

/-! # Packed nodes

A node is 96 bytes: the generation and type word, seven hashes, the size and
key-count word, seven entry offsets and eight child offsets. Two words pack two
fields each with masks and shifts. The views read single words of a node
through a pointer to the buffer.
-/

namespace Lite3

abbrev Mem := ℕ → UInt8

namespace Config

def nodeKeyCount : ℕ := 7
def nodeKeyCountMin : ℕ := nodeKeyCount / 2
def nodeKeyCountMax : ℕ := nodeKeyCount
def nodeSize : ℕ := 96
def treeHeightMax : ℕ := 9
def nodeAlignment : ℕ := 4

def nodeGenMask : UInt32 := 0xFFFFFF00
def nodeGenShift : UInt32 := 8
def nodeTypeMask : UInt32 := 0x000000FF
def nodeTypeShift : UInt32 := 0
def nodeSizeMask : UInt32 := 0xFFFFFFC0
def nodeSizeShift : UInt32 := 6
def nodeKeyCountMask : UInt32 := 0x00000007
def nodeKeyCountShift : UInt32 := 0

end Config

/-- The type tags; a tag byte that names no type stays representable. -/
inductive ValueType
  | null | bool | int64 | float64 | bytes | string | object | array | invalid | count
  | other (code : UInt8)
  deriving DecidableEq, Repr

namespace ValueType

def ofCode (c : UInt8) : ValueType :=
  match c.toNat with
  | 0 => null
  | 1 => bool
  | 2 => int64
  | 3 => float64
  | 4 => bytes
  | 5 => string
  | 6 => object
  | 7 => array
  | 8 => invalid
  | 9 => count
  | _ => other c

def code : ValueType → UInt8
  | null => 0
  | bool => 1
  | int64 => 2
  | float64 => 3
  | bytes => 4
  | string => 5
  | object => 6
  | array => 7
  | invalid => 8
  | count => 9
  | other c => c

end ValueType

namespace Packed

open Config

def generation (w : UInt32) : UInt32 := (w &&& nodeGenMask) >>> nodeGenShift

def type (w : UInt32) : ValueType := .ofCode ((w &&& nodeTypeMask) >>> nodeTypeShift).toUInt8

def size (w : UInt32) : UInt32 := (w &&& nodeSizeMask) >>> nodeSizeShift

def keyCount (w : UInt32) : ℕ := ((w &&& nodeKeyCountMask) >>> nodeKeyCountShift).toNat

def genType (gen : UInt32) (type : ValueType) : UInt32 :=
  (gen <<< nodeGenShift) ||| (type.code.toUInt32 &&& nodeTypeMask)

def sizeKc (size : UInt32) (keyCount : ℕ) : UInt32 :=
  (size <<< nodeSizeShift) ||| (.ofNat keyCount &&& nodeKeyCountMask)

def withSize (w size : UInt32) : UInt32 :=
  (w &&& ~~~nodeSizeMask) ||| ((size <<< nodeSizeShift) &&& nodeSizeMask)

def withKeyCount (w : UInt32) (keyCount : ℕ) : UInt32 :=
  (w &&& ~~~nodeKeyCountMask) ||| (.ofNat keyCount &&& nodeKeyCountMask)

end Packed

namespace NodeView

open Bytes

def genType (m : Mem) (o : ℕ) : UInt32 := load32 m o

def sizeKc (m : Mem) (o : ℕ) : UInt32 := load32 m (o + 32)

def generation (m : Mem) (o : ℕ) : UInt32 := Packed.generation (genType m o)

def type (m : Mem) (o : ℕ) : ValueType := Packed.type (genType m o)

def size (m : Mem) (o : ℕ) : UInt32 := Packed.size (sizeKc m o)

def keyCount (m : Mem) (o : ℕ) : ℕ := Packed.keyCount (sizeKc m o)

def getHash (m : Mem) (o i : ℕ) : UInt32 := load32 m (o + 4 + 4 * i)

def getKvOffset (m : Mem) (o i : ℕ) : ℕ := (load32 m (o + 36 + 4 * i)).toNat

def getChildOffset (m : Mem) (o i : ℕ) : ℕ := (load32 m (o + 64 + 4 * i)).toNat

end NodeView

end Lite3
