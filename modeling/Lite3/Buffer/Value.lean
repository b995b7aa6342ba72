import Lite3.Buffer.Api

/-! # Proxies

A proxy names a key or an index of the container at an offset, or the root when
it names neither. Indexing it looks up the container that it stands for and
creates one when the lookup throws. Assigning to it sets the key or appends.
-/

namespace Lite3

/-- What `operator[]` is given. -/
inductive Place
  | key (k : List UInt8)
  | index (i : UInt32)
  deriving DecidableEq

/-- The kind of container that has the place. -/
def Place.isArr : Place → Bool
  | key _ => false
  | index _ => true

namespace Buffer

/-- The type under a key; a missing one leaves the result uninitialised. -/
def getType (b : Buffer) (ofs : ℕ) (key : List UInt8) : Except Fault (Option ValueType) :=
  match b.lookup ofs key with
  | none => .error .unfinished
  | some found => .ok (found.map Prod.fst)

/-- `get_obj` and `get_arr`. -/
def getContainer (b : Buffer) (ofs : ℕ) (key : List UInt8) (isArr : Bool) : Except Fault ℕ :=
  if isArr then b.getArr ofs key else b.getObj ofs key

/-- `arr_get_obj` and `arr_get_arr`. -/
def arrGetContainer (b : Buffer) (ofs : ℕ) (index : UInt32) (isArr : Bool) : Except Fault ℕ :=
  if isArr then b.arrGetArr ofs index else b.arrGetObj ofs index

/-- The container that is found, or the one that is made where the lookup throws. -/
def orMake (b : Buffer) (found : Except Fault ℕ) (make : Option ℕ × Buffer) : Option ℕ × Buffer :=
  match found with
  | .ok o => (some o, b)
  | .error (.exception _) => make
  | .error .unfinished => (none, b)

end Buffer

structure Value where
  offset : ℕ
  parentOfs : ℕ
  key : List UInt8
  index : UInt32
  isArrayElement : Bool
  deriving DecidableEq

namespace Value

/-- `root_obj()` and `root_arr()`. -/
def root : Value := ⟨0, 0, [], 0, false⟩

/-- The proxy of a place in the container at `o`. -/
def of (o : ℕ) : Place → Value
  | .key k => ⟨0, o, k, 0, false⟩
  | .index i => ⟨0, o, [], i, true⟩

/-- The container that the proxy stands for. -/
def currentNode (b : Buffer) (v : Value) (isArr : Bool) : Option ℕ × Buffer :=
  if v.offset ≠ 0 then (some v.offset, b)
  else if v.key ≠ [] then
    b.orMake (b.getContainer v.parentOfs v.key isArr) (b.setContainer v.parentOfs v.key isArr)
  else if v.isArrayElement then
    b.orMake (b.arrGetContainer v.parentOfs v.index isArr) (b.arrAppendContainer v.parentOfs isArr)
  else (some 0, b)

/-- `operator[](std::string_view)` -/
def atKey (b : Buffer) (v : Value) (key : List UInt8) : Option Value × Buffer :=
  let (o, b) := v.currentNode b false
  (o.map (of · (.key key)), b)

/-- `operator[](uint32_t)` -/
def atIndex (b : Buffer) (v : Value) (index : UInt32) : Option Value × Buffer :=
  let (o, b) := v.currentNode b true
  (o.map (of · (.index index)), b)

/-- One more step of an expression `root[…]…[…]`. -/
def indexed : Option Value × Buffer → Place → Option Value × Buffer
  | (none, b), _ => (none, b)
  | (some v, b), .key k => v.atKey b k
  | (some v, b), .index i => v.atIndex b i

/-- Exceptions give the default; the result is missing when the lookup does not end. -/
def caught {β : Type} (default : β) : Except Fault β → Option β
  | .ok x => some x
  | .error (.exception _) => some default
  | .error .unfinished => none

/-- A conversion reads the element or the member. -/
def cast {β : Type} (v : Value) (element member : Except Fault β) (default : β) : Option β :=
  if v.isArrayElement then caught default element
  else if v.key ≠ [] then caught default member
  else some default

def toBool (b : Buffer) (v : Value) : Option Bool :=
  v.cast (b.arrGetBool v.parentOfs v.index) (b.getBool v.parentOfs v.key) false

def toI64 (b : Buffer) (v : Value) : Option Int64 :=
  v.cast (b.arrGetI64 v.parentOfs v.index) (b.getI64 v.parentOfs v.key) 0

def toF64 (b : Buffer) (v : Value) : Option UInt64 :=
  v.cast (b.arrGetF64 v.parentOfs v.index) (b.getF64 v.parentOfs v.key) 0

def toStr (b : Buffer) (v : Value) : Option (List UInt8) :=
  v.cast (b.arrGetStr v.parentOfs v.index) (b.getStr v.parentOfs v.key) []

def toBytes (b : Buffer) (v : Value) : Option (List UInt8) :=
  v.cast (b.arrGetBytes v.parentOfs v.index) (b.getBytes v.parentOfs v.key) []

/-- The key comes first here, and a type may be uninitialised. -/
def type (b : Buffer) (v : Value) : Option (Option ValueType) :=
  if v.key ≠ [] then caught (some .null) (b.getType v.parentOfs v.key)
  else if v.isArrayElement then
    caught (some .null) ((b.arrGetType v.parentOfs v.index).map some)
  else some (some .null)

def assign (b : Buffer) (v : Value) (x : Scalar) : Buffer :=
  if v.key ≠ [] then b.setScalar v.parentOfs v.key x
  else if v.isArrayElement then b.arrAppend v.parentOfs x
  else b

def assignBool (b : Buffer) (v : Value) (val : Bool) : Buffer := v.assign b (.bool val)

def assignI64 (b : Buffer) (v : Value) (val : Int64) : Buffer := v.assign b (.i64 val)

def assignF64 (b : Buffer) (v : Value) (val : UInt64) : Buffer := v.assign b (.f64 val)

def assignStr (b : Buffer) (v : Value) (val : List UInt8) : Buffer := v.assign b (.str val)

/-- `==` of doubles: not a number is equal to nothing, and the two zeros are equal. -/
def equalF64 (x y : UInt64) : Bool :=
  let isNaN (z : UInt64) := 0x7ff0000000000000 < z &&& 0x7fffffffffffffff
  !isNaN x && !isNaN y && (x == y || (x ||| y) &&& 0x7fffffffffffffff == 0)

/-- `operator==(bool)` and so on for the other types -/
def equalsBool (b : Buffer) (v : Value) (other : Bool) : Option Bool :=
  (v.toBool b).map (· == other)

def equalsI64 (b : Buffer) (v : Value) (other : Int64) : Option Bool := (v.toI64 b).map (· == other)

def equalsF64 (b : Buffer) (v : Value) (other : UInt64) : Option Bool :=
  (v.toF64 b).map (equalF64 · other)

def equalsStr (b : Buffer) (v : Value) (other : List UInt8) : Option Bool :=
  (v.toStr b).map (· == other)

end Value

end Lite3
