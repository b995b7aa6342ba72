import Lite3.Buffer.Set

/-! # The public interface

The setters pass the bytes of their value to `set_impl`, container creation
initialises a node behind the type tag it has just written, and the getters
check the type that the lookup finds. A float is its bit pattern, and an
exception is the text it is thrown with.
-/

namespace Lite3

open NodeView Config

/-- The values that the scalar setters store. -/
inductive Scalar
  | null
  | bool (v : Bool)
  | i64 (v : Int64)
  | f64 (bits : UInt64)
  | str (v : List UInt8)
  | bytes (v : List UInt8)
  deriving DecidableEq

namespace Scalar

def type : Scalar → ValueType
  | null => .null
  | bool _ => .bool
  | i64 _ => .int64
  | f64 _ => .float64
  | str _ => .string
  | bytes _ => .bytes

/-- The bytes that the setter is given a pointer to. -/
def image : Scalar → List UInt8
  | null => []
  | bool v => [if v then 1 else 0]
  | i64 v => Bytes.toLE 8 v.toUInt64.toNat
  | f64 bits => Bytes.toLE 8 bits.toNat
  | str v => v
  | bytes v => v

end Scalar

/-- The type of a container's nodes. -/
def kindOf (isArr : Bool) : ValueType := if isArr then .array else .object

/-- What keeps a getter from returning: an exception, or a lookup that does not end. -/
inductive Fault
  | exception (what : String)
  | unfinished
  deriving DecidableEq

def setArgs (key : List UInt8) (type : ValueType) (val : List UInt8) : SetArgs :=
  ⟨key, djb2Hash key, val, type, false⟩

def appendArgs (index : UInt32) (type : ValueType) (val : List UInt8) : SetArgs :=
  ⟨[], index, val, type, true⟩

namespace Buffer

def setScalar (b : Buffer) (ofs : ℕ) (key : List UInt8) (v : Scalar) : Buffer :=
  (b.setImpl ofs (setArgs key v.type v.image)).2

def setNull (b : Buffer) (ofs : ℕ) (key : List UInt8) : Buffer := b.setScalar ofs key .null

def setBool (b : Buffer) (ofs : ℕ) (key : List UInt8) (value : Bool) : Buffer :=
  b.setScalar ofs key (.bool value)

def setI64 (b : Buffer) (ofs : ℕ) (key : List UInt8) (value : Int64) : Buffer :=
  b.setScalar ofs key (.i64 value)

def setF64 (b : Buffer) (ofs : ℕ) (key : List UInt8) (value : UInt64) : Buffer :=
  b.setScalar ofs key (.f64 value)

def setStr (b : Buffer) (ofs : ℕ) (key value : List UInt8) : Buffer :=
  b.setScalar ofs key (.str value)

def setBytes (b : Buffer) (ofs : ℕ) (key value : List UInt8) : Buffer :=
  b.setScalar ofs key (.bytes value)

/-- Initialise the node behind the type tag at `o`: the last eight bytes are left as they are. -/
def makeNode (b : Buffer) (o : ℕ) (type : ValueType) : Buffer :=
  let b := b.ensureCapacity nodeSize
  let b := b.clear (o + 1) (nodeSize - 8)
  let b := b.setGenType (o + 1) 1 type
  b.advance nodeSize

/-- The offset of the new container, or nothing when the call has no defined result. -/
def setContainer (b : Buffer) (ofs : ℕ) (key : List UInt8) (isArr : Bool) : Option ℕ × Buffer :=
  match b.setImpl ofs (setArgs key (kindOf isArr) []) with
  | (none, b) => (none, b)
  | (some o, b) => (some (o + 1), b.makeNode o (kindOf isArr))

def setObj (b : Buffer) (ofs : ℕ) (key : List UInt8) : Option ℕ × Buffer :=
  b.setContainer ofs key false

def setArr (b : Buffer) (ofs : ℕ) (key : List UInt8) : Option ℕ × Buffer :=
  b.setContainer ofs key true

def arrAppend (b : Buffer) (ofs : ℕ) (v : Scalar) : Buffer :=
  let currentSize := size b.mem ofs
  let b := (b.setImpl ofs (appendArgs currentSize v.type v.image)).2
  b.setSize ofs (currentSize + 1)

def arrAppendNull (b : Buffer) (ofs : ℕ) : Buffer := b.arrAppend ofs .null

def arrAppendBool (b : Buffer) (ofs : ℕ) (v : Bool) : Buffer := b.arrAppend ofs (.bool v)

def arrAppendI64 (b : Buffer) (ofs : ℕ) (v : Int64) : Buffer := b.arrAppend ofs (.i64 v)

def arrAppendF64 (b : Buffer) (ofs : ℕ) (v : UInt64) : Buffer := b.arrAppend ofs (.f64 v)

def arrAppendStr (b : Buffer) (ofs : ℕ) (v : List UInt8) : Buffer := b.arrAppend ofs (.str v)

def arrAppendBytes (b : Buffer) (ofs : ℕ) (v : List UInt8) : Buffer := b.arrAppend ofs (.bytes v)

def arrAppendContainer (b : Buffer) (ofs : ℕ) (isArr : Bool) : Option ℕ × Buffer :=
  let idx := size b.mem ofs
  match b.setImpl ofs (appendArgs idx (kindOf isArr) []) with
  | (none, b) => (none, b)
  | (some o, b) => (some (o + 1), (b.makeNode o (kindOf isArr)).setSize ofs (idx + 1))

def arrAppendObj (b : Buffer) (ofs : ℕ) : Option ℕ × Buffer := b.arrAppendContainer ofs false

def arrAppendArr (b : Buffer) (ofs : ℕ) : Option ℕ × Buffer := b.arrAppendContainer ofs true

/-- The type and the offset behind the type tag, when the key is found. -/
def lookup (b : Buffer) (ofs : ℕ) (key : List UInt8) : Option (Option (ValueType × ℕ)) :=
  b.getImpl ofs key (djb2Hash key) false

def arrGetImpl (b : Buffer) (ofs : ℕ) (index : UInt32) : Option (Option (ValueType × ℕ)) :=
  b.getImpl ofs [] index true

/-- Read with `f` what a lookup found, if it has the expected type. -/
def expect {β : Type} (found : Option (Option (ValueType × ℕ))) (type : ValueType)
    (missing mismatch : String) (f : ℕ → β) : Except Fault β :=
  match found with
  | none => .error .unfinished
  | some none => .error (.exception missing)
  | some (some (t, p)) => if t = type then .ok (f p) else .error (.exception mismatch)

def readI64 (m : Mem) (p : ℕ) : Int64 := (UInt64.ofNat (Bytes.ofLE (Bytes.slice m p 8))).toInt64

def readF64 (m : Mem) (p : ℕ) : UInt64 := .ofNat (Bytes.ofLE (Bytes.slice m p 8))

def readBool (m : Mem) (p : ℕ) : Bool := m p != 0

/-- The bytes behind a four-byte length. -/
def readSpan (m : Mem) (p : ℕ) : List UInt8 := Bytes.slice m (p + 4) (Bytes.load32 m p).toNat

def getI64 (b : Buffer) (ofs : ℕ) (key : List UInt8) : Except Fault Int64 :=
  expect (b.lookup ofs key) .int64 "Type mismatch or not found" "Type mismatch or not found"
    (readI64 b.mem)

def getF64 (b : Buffer) (ofs : ℕ) (key : List UInt8) : Except Fault UInt64 :=
  expect (b.lookup ofs key) .float64 "Type mismatch or not found" "Type mismatch or not found"
    (readF64 b.mem)

def getBool (b : Buffer) (ofs : ℕ) (key : List UInt8) : Except Fault Bool :=
  expect (b.lookup ofs key) .bool "Type mismatch or not found" "Type mismatch or not found"
    (readBool b.mem)

def getStr (b : Buffer) (ofs : ℕ) (key : List UInt8) : Except Fault (List UInt8) :=
  expect (b.lookup ofs key) .string "Key not found" "Type mismatch" (readSpan b.mem)

def getObj (b : Buffer) (ofs : ℕ) (key : List UInt8) : Except Fault ℕ :=
  expect (b.lookup ofs key) .object "Type mismatch" "Type mismatch" id

def getArr (b : Buffer) (ofs : ℕ) (key : List UInt8) : Except Fault ℕ :=
  expect (b.lookup ofs key) .array "Type mismatch" "Type mismatch" id

/-- A first lookup under hash zero has no effect on the result. -/
def getBytes (b : Buffer) (ofs : ℕ) (key : List UInt8) : Except Fault (List UInt8) :=
  match b.getImpl ofs key 0 false, b.lookup ofs key with
  | none, _ | _, none => .error .unfinished
  | some _, some (some (.bytes, p)) => .ok (readSpan b.mem p)
  | some _, some _ => .ok []

def arrGetI64 (b : Buffer) (ofs : ℕ) (index : UInt32) : Except Fault Int64 :=
  expect (b.arrGetImpl ofs index) .int64 "Type mismatch" "Type mismatch" (readI64 b.mem)

def arrGetF64 (b : Buffer) (ofs : ℕ) (index : UInt32) : Except Fault UInt64 :=
  expect (b.arrGetImpl ofs index) .float64 "Type mismatch" "Type mismatch" (readF64 b.mem)

def arrGetBool (b : Buffer) (ofs : ℕ) (index : UInt32) : Except Fault Bool :=
  expect (b.arrGetImpl ofs index) .bool "Type mismatch" "Type mismatch" (readBool b.mem)

def arrGetStr (b : Buffer) (ofs : ℕ) (index : UInt32) : Except Fault (List UInt8) :=
  expect (b.arrGetImpl ofs index) .string "Type mismatch" "Type mismatch" (readSpan b.mem)

def arrGetBytes (b : Buffer) (ofs : ℕ) (index : UInt32) : Except Fault (List UInt8) :=
  expect (b.arrGetImpl ofs index) .bytes "Type mismatch" "Type mismatch" (readSpan b.mem)

def arrGetObj (b : Buffer) (ofs : ℕ) (index : UInt32) : Except Fault ℕ :=
  expect (b.arrGetImpl ofs index) .object "Type mismatch" "Type mismatch" id

def arrGetArr (b : Buffer) (ofs : ℕ) (index : UInt32) : Except Fault ℕ :=
  expect (b.arrGetImpl ofs index) .array "Type mismatch" "Type mismatch" id

/-- The type of an element; a missing one leaves the initial `Null`. -/
def arrGetType (b : Buffer) (ofs : ℕ) (index : UInt32) : Except Fault ValueType :=
  match b.arrGetImpl ofs index with
  | none => .error .unfinished
  | some none => .ok .null
  | some (some (t, _)) => .ok t

end Buffer

end Lite3
