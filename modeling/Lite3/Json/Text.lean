import Lite3.Buffer.Iterator
import Lite3.Json.Hex
import Lite3.Json.Value

/-! # Reading and writing JSON texts

A parsed value is stored member by member; strings that are hex texts become
byte strings. A buffer is printed from the node at offset zero, or from a type
tag. Parsing and printing of texts themselves is the work of yyjson.
-/

namespace Lite3

open NodeView Config

/-- What is used of yyjson: reading, writing, and integers as C integers. -/
structure Yyjson where
  read : List UInt8 → Option Json
  write : Json → Option (List UInt8)
  getInt : ℤ → Int64

/-- The characters of a C string. -/
def cstr (s : List UInt8) : List UInt8 := s.takeWhile (· ≠ 0)

/-- A string is stored as the bytes it spells, if any. -/
def Atom.scalar (y : Yyjson) : Atom → Scalar
  | .null => .null
  | .bool v => .bool v
  | .int v => .i64 (y.getInt v)
  | .real bits => .f64 bits
  | .str s =>
    match hexDecode (cstr s) with
    | .ok decodedBytes => .bytes decodedBytes
    | .error _ => .str (cstr s)

/-- Where a value goes: into the node at an offset, under a key of an object, or to the end of an
array. -/
inductive Target
  | here (ofs : ℕ)
  | under (ofs : ℕ) (key : List UInt8)
  | behind (ofs : ℕ)

namespace Target

/-- Scalars are not stored without a key or an array. -/
def put (b : Buffer) (v : Scalar) : Target → Buffer
  | here _ => b
  | under ofs key => b.setScalar ofs key v
  | behind ofs => b.arrAppend ofs v

def container (b : Buffer) (isArr : Bool) : Target → Option ℕ × Buffer
  | here ofs => (some ofs, b)
  | under ofs key => b.setContainer ofs key isArr
  | behind ofs => b.arrAppendContainer ofs isArr

end Target

/-- An empty buffer is initialised when its first container is filled. -/
def Buffer.started (b : Buffer) (ofs : ℕ) (isArr : Bool) : Buffer :=
  if ofs = 0 ∧ b.data.length = 0 then b.initStructure (kindOf isArr) else b

mutual

/-- Store a value; the flag tells whether all calls have had a defined result. -/
def Json.store (y : Yyjson) : Json → Target → Buffer → Bool × Buffer
  | .atom a, t, b => (true, t.put b (a.scalar y))
  | .arr items, t, b =>
    match t.container b true with
    | (none, b) => (false, b)
    | (some o, b) => storeItems y o items (b.started o true)
  | .obj members, t, b =>
    match t.container b false with
    | (none, b) => (false, b)
    | (some o, b) => storeMembers y o members (b.started o false)

/-- The loop over the elements of an array. -/
def storeItems (y : Yyjson) (ofs : ℕ) : List Json → Buffer → Bool × Buffer
  | [], b => (true, b)
  | item :: items, b =>
    match item.store y (.behind ofs) b with
    | (false, b) => (false, b)
    | (true, b) => storeItems y ofs items b

/-- The loop over the members of an object. -/
def storeMembers (y : Yyjson) (ofs : ℕ) : List (List UInt8 × Json) → Buffer → Bool × Buffer
  | [], b => (true, b)
  | (key, item) :: members, b =>
    match item.store y (.under ofs (cstr key)) b with
    | (false, b) => (false, b)
    | (true, b) => storeMembers y ofs members b

end

/-- `from_yyjson_val` without a key -/
def fromYyjsonVal (y : Yyjson) (val : Json) (b : Buffer) (ofs : ℕ) : Bool × Buffer :=
  val.store y (.here ofs) b

/-- `from_yyjson_val` with a key -/
def fromYyjsonMember (y : Yyjson) (val : Json) (b : Buffer) (ofs : ℕ) (key : List UInt8) :
    Bool × Buffer :=
  val.store y (.under ofs key) b

def fromJsonString (y : Yyjson) (text : List UInt8) : Except Fault (Bool × Buffer) :=
  match y.read text with
  | none => .error (.exception "Invalid JSON string provided.")
  | some root => .ok (fromYyjsonVal y root .empty 0)

namespace Buffer

/-- The C string at an offset. -/
def cstringAt (b : Buffer) (o : ℕ) : List UInt8 := cstr (Bytes.slice b.mem o (b.data.length - o))

/-- The loop over the entries of an object, at most `n` times: the key characters lie in front of
the value and a terminator. -/
def members (b : Buffer) (value : ℕ → Except Fault Json) :
    ℕ → Iterator → Except Fault (List (List UInt8 × Json))
  | 0, _ => .error .unfinished
  | n + 1, it =>
    if it.equals b .atEnd then .ok []
    else
      match it.deref b with
      | .error f => .error f
      | .ok none => .error .unfinished
      | .ok (some v) => do
        let j ← value v.valueOffset
        let rest ← members b value n (it.next b)
        return (b.cstringAt (v.valueOffset - 1 - v.key.length), j) :: rest

/-- An element of the array behind the type tag at `ofs`; the getters are given the offset of the
tag. The text of a byte string is freed before it is printed. -/
def element (b : Buffer) (value : ℕ → Except Fault Json) (ofs : ℕ) (i : UInt32) :
    Except Fault (List Json) := do
  match ← b.arrGetType (ofs + 1) i with
  | .null => return [.atom .null]
  | .bool => return [.atom (.bool (← b.arrGetBool ofs i))]
  | .int64 => return [.atom (.int (← b.arrGetI64 ofs i).toInt)]
  | .float64 => return [.atom (.real (← b.arrGetF64 ofs i))]
  | .string => return [.atom (.str (← b.arrGetStr ofs i))]
  | .bytes =>
    let _ ← b.arrGetBytes ofs i
    .error .unfinished
  | .object => return [← value (← b.arrGetObj ofs i)]
  | .array => return [← value (← b.arrGetArr ofs i)]
  | _ => return []

/-- The loop over the elements of an array. -/
def elements {β : Type} (b : Buffer) (f : UInt32 → Except Fault β) (ofs : ℕ) :
    Except Fault (List β) :=
  (List.range (size b.mem ofs).toNat).mapM fun i => f (.ofNat i)

/-- The value behind the type tag at an offset, down to `n` levels. -/
def toYyjsonVal (b : Buffer) : ℕ → ℕ → Except Fault Json
  | 0, _ => .error .unfinished
  | n + 1, ofs =>
    match ValueType.ofCode (b.mem ofs) with
    | .bool => .ok (.atom (.bool (readBool b.mem (ofs + 1))))
    | .int64 => .ok (.atom (.int (readI64 b.mem (ofs + 1)).toInt))
    | .float64 => .ok (.atom (.real (readF64 b.mem (ofs + 1))))
    | .string => .ok (.atom (.str (readSpan b.mem (ofs + 1))))
    | .bytes => .ok (.atom (.str (hexText (readSpan b.mem (ofs + 1)))))
    | .object => (b.members (b.toYyjsonVal n) b.levels (b.begin (ofs + 1))).map .obj
    | .array =>
      (b.elements (b.element (b.toYyjsonVal n) ofs) (ofs + 1)).map fun vs => .arr vs.flatten
    | _ => .ok (.atom .null)

/-- The value to be printed: the node at offset zero has no type tag, and the elements of an array
there are left out. -/
def rootVal (b : Buffer) (ofs : ℕ) : Except Fault Json :=
  if ofs = 0 ∧ nodeSize ≤ b.data.length then
    match NodeView.type b.mem 0 with
    | .object => (b.members (b.toYyjsonVal b.levels) b.levels (b.begin 0)).map .obj
    | .array => (b.elements (b.arrGetType 0) 0).map fun _ => .arr []
    | _ => .ok (.atom .null)
  else b.toYyjsonVal b.levels ofs

end Buffer

/-- A document that is not printed leaves a text for an empty object. -/
def toJsonString (y : Yyjson) (b : Buffer) (ofs : ℕ) : Except Fault (List UInt8) :=
  (b.rootVal ofs).map fun root => (y.write root).getD [123, 125]

end Lite3
