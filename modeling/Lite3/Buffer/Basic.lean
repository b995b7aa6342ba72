import Lite3.Buffer.Node

/-! # The buffer

A growing byte vector with the number of bytes handed out so far. Growth fills
with zeros, and everything the library stores is written through `write`.
-/

namespace Lite3

structure Buffer where
  data : List UInt8
  usedSize : ℕ
  deriving DecidableEq

namespace Buffer

open NodeView Config

def empty : Buffer := ⟨[], 0⟩

def ofVector (data : List UInt8) : Buffer := ⟨data, data.length⟩

def mem (b : Buffer) : Mem := Bytes.view b.data

def write (b : Buffer) (o : ℕ) (bs : List UInt8) : Buffer :=
  { b with data := Bytes.overwrite b.data o bs }

def write32 (b : Buffer) (o : ℕ) (v : UInt32) : Buffer := b.write o (Bytes.bytes32 v)

def setGenType (b : Buffer) (o : ℕ) (gen : UInt32) (type : ValueType) : Buffer :=
  b.write32 o (Packed.genType gen type)

def setSize (b : Buffer) (o : ℕ) (size : UInt32) : Buffer :=
  b.write32 (o + 32) (Packed.withSize (sizeKc b.mem o) size)

def setSizeKc (b : Buffer) (o : ℕ) (size : UInt32) (keyCount : ℕ) : Buffer :=
  b.write32 (o + 32) (Packed.sizeKc size keyCount)

def setKeyCount (b : Buffer) (o keyCount : ℕ) : Buffer :=
  b.write32 (o + 32) (Packed.withKeyCount (sizeKc b.mem o) keyCount)

def setHash (b : Buffer) (o i : ℕ) (hash : UInt32) : Buffer := b.write32 (o + 4 + 4 * i) hash

def setKvOffset (b : Buffer) (o i ofs : ℕ) : Buffer := b.write32 (o + 36 + 4 * i) (.ofNat ofs)

def setChildOffset (b : Buffer) (o i ofs : ℕ) : Buffer := b.write32 (o + 64 + 4 * i) (.ofNat ofs)

def ensureCapacity (b : Buffer) (required : ℕ) : Buffer :=
  if b.data.length < b.usedSize + required then
    let newSize := max (max (b.data.length * 2) (b.usedSize + required)) Config.nodeSize
    { b with data := b.data ++ List.replicate (newSize - b.data.length) 0 }
  else b

def advance (b : Buffer) (n : ℕ) : Buffer := { b with usedSize := b.usedSize + n }

def clear (b : Buffer) (o n : ℕ) : Buffer := b.write o (List.replicate n 0)

def initStructure (b : Buffer) (type : ValueType) : Buffer :=
  let b := b.ensureCapacity Config.nodeSize
  let b := b.clear b.usedSize Config.nodeSize
  let b := b.setGenType b.usedSize 1 type
  b.advance Config.nodeSize

def initObject (b : Buffer) : Buffer := b.initStructure .object

def initArray (b : Buffer) : Buffer := b.initStructure .array

end Buffer

end Lite3
