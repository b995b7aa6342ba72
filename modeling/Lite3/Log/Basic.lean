import Lite3.Json.Text
import Lite3.Store.World

/-! # Log messages

What the operations hand to the logger, in this order. Most messages pass a
filter for their level; the one about a full node is handed over directly.
-/

namespace Lite3

open NodeView Config

inductive LogLevel
  | debug
  | info
  | warn
  | error
  deriving DecidableEq

/-- The value of the enumerator. -/
def LogLevel.code : LogLevel → ℕ
  | debug => 0
  | info => 1
  | warn => 2
  | error => 3

instance : LE LogLevel := ⟨fun x y => x.code ≤ y.code⟩

instance (x y : LogLevel) : Decidable (x ≤ y) := inferInstanceAs (Decidable (x.code ≤ y.code))

/-- The arguments of `ILogger::log`, with the duration in microseconds. -/
structure LogMessage where
  level : LogLevel
  message : String
  operation : String
  duration : ℕ
  bufferOffset : ℕ
  key : List UInt8
  deriving DecidableEq

def logIfEnabled (threshold : LogLevel) (m : LogMessage) : List LogMessage :=
  if threshold ≤ m.level then [m] else []

namespace LogMessage

def nodeFull : LogMessage := ⟨.info, "Node is full, splitting", "set_impl", 0, 0, []⟩

def iteratorNext : LogMessage := ⟨.debug, "Iterator::find_next called.", "IteratorNext", 0, 0, []⟩

def stringifyStarted (ofs : ℕ) : LogMessage :=
  ⟨.info, "JSON stringify started.", "JsonStringify", 0, ofs, []⟩

def parseStarted : LogMessage := ⟨.info, "JSON parse started.", "JsonParse", 0, 0, []⟩

end LogMessage

/-- The iteration finds its node full. -/
def SetState.MeetsFull (s : SetState) : Prop :=
  nodeKeyCountMax ≤ keyCount (s.buf.touch s.nodeOfs).mem s.nodeOfs

instance (s : SetState) : Decidable s.MeetsFull :=
  inferInstanceAs (Decidable (nodeKeyCountMax ≤ _))

/-- What an iteration of `set_impl` logs, whatever the threshold. -/
def SetState.log (s : SetState) : List LogMessage := if s.MeetsFull then [.nodeFull] else []

namespace Call

def apply (b : Buffer) : Call → Buffer
  | set ofs key v => b.setScalar ofs key v
  | create isArr ofs key => (b.setContainer ofs key isArr).2
  | append ofs v => b.arrAppend ofs v
  | appendNew isArr ofs => (b.arrAppendContainer ofs isArr).2

/-- What the call gives to `set_impl`. -/
def args (b : Buffer) : Call → SetArgs
  | set _ key v => setArgs key v.type v.image
  | create isArr _ key => setArgs key (kindOf isArr) []
  | append ofs v => appendArgs (size b.mem ofs) v.type v.image
  | appendNew isArr ofs => appendArgs (size b.mem ofs) (kindOf isArr) []

def log (b : Buffer) (k : Call) : List LogMessage :=
  (b.setVisits k.ofs (k.args b)).flatMap SetState.log

/-- The descent of the call meets a full node. -/
def MeetsFull (b : Buffer) (k : Call) : Prop :=
  ∃ s ∈ b.setVisits k.ofs (k.args b), s.MeetsFull

instance (b : Buffer) (k : Call) : Decidable (k.MeetsFull b) :=
  inferInstanceAs (Decidable (∃ s ∈ _, SetState.MeetsFull s))

end Call

theorem World.buf_step (w : World) (k : Call) : (w.step k).buf = k.apply w.buf := by
  cases k with
  | set | append => rfl
  | create isArr ofs key =>
    rw [World.step, Call.apply]
    split <;> simp [*]
  | appendNew isArr ofs =>
    rw [World.step, Call.apply]
    split <;> simp [*]

namespace Target

/-- The call that stores a scalar. -/
def putCall (v : Scalar) : Target → Option Call
  | here _ => none
  | under ofs key => some (.set ofs key v)
  | behind ofs => some (.append ofs v)

/-- The call that creates a container. -/
def containerCall (isArr : Bool) : Target → Option Call
  | here _ => none
  | under ofs key => some (.create isArr ofs key)
  | behind ofs => some (.appendNew isArr ofs)

end Target

mutual

/-- The calls that storing a value makes, each with the buffer it is made on. -/
def Json.calls (y : Yyjson) : Json → Target → Buffer → List (Buffer × Call)
  | .atom a, t, b => ((t.putCall (a.scalar y)).map (b, ·)).toList
  | .arr items, t, b => ((t.containerCall true).map (b, ·)).toList ++
    match t.container b true with
    | (none, _) => []
    | (some o, b) => itemCalls y o items (b.started o true)
  | .obj members, t, b => ((t.containerCall false).map (b, ·)).toList ++
    match t.container b false with
    | (none, _) => []
    | (some o, b) => memberCalls y o members (b.started o false)

def itemCalls (y : Yyjson) (ofs : ℕ) : List Json → Buffer → List (Buffer × Call)
  | [], _ => []
  | item :: items, b => item.calls y (.behind ofs) b ++
    match item.store y (.behind ofs) b with
    | (false, _) => []
    | (true, b) => itemCalls y ofs items b

def memberCalls (y : Yyjson) (ofs : ℕ) : List (List UInt8 × Json) → Buffer → List (Buffer × Call)
  | [], _ => []
  | (key, item) :: members, b => item.calls y (.under ofs (cstr key)) b ++
    match item.store y (.under ofs (cstr key)) b with
    | (false, _) => []
    | (true, b) => memberCalls y ofs members b

end

/-- The calls that reading a text makes. -/
def parseCalls (y : Yyjson) (text : List UInt8) : List (Buffer × Call) :=
  match y.read text with
  | none => []
  | some root => root.calls y (.here 0) .empty

namespace Iterator

/-- The nodes on the stack that `find_next` calls itself behind. -/
def popped (m : Mem) : List (ℕ × ℕ) → ℕ
  | [] => 0
  | (o, i) :: st => if keyCount m o ≤ i ∧ st ≠ [] then popped m st + 1 else 0

/-- The calls of `find_next`, the first one among them. -/
def nextCalls (m : Mem) (size : ℕ) (it : Iterator) : ℕ :=
  if it.hasBuffer = true ∧ size ≠ 0 ∧ it.generation = NodeView.generation m 0 then
    popped m it.stack + 1
  else 1

def nextLog (threshold : LogLevel) (b : Buffer) (it : Iterator) : List LogMessage :=
  (List.replicate (it.nextCalls b.mem b.data.length) (logIfEnabled threshold .iteratorNext)).flatten

end Iterator

namespace Buffer

def beginLog (threshold : LogLevel) (b : Buffer) (ofs : ℕ) : List LogMessage :=
  if b.data = [] then []
  else (Iterator.findFirst b.mem b.data.length
    ⟨true, NodeView.generation b.mem 0, [(ofs, 0)], none⟩).nextLog threshold b

/-- The loop over the entries of an object. -/
def membersLog (threshold : LogLevel) (b : Buffer) (value : ℕ → Except Fault Json)
    (valueLog : ℕ → List LogMessage) : ℕ → Iterator → List LogMessage
  | 0, _ => []
  | n + 1, it =>
    if it.equals b .atEnd then []
    else
      match it.deref b with
      | .error _ | .ok none => []
      | .ok (some v) => valueLog v.valueOffset ++
        match value v.valueOffset with
        | .error _ => []
        | .ok _ => it.nextLog threshold b ++ membersLog threshold b value valueLog n (it.next b)

def elementLog (b : Buffer) (valueLog : ℕ → List LogMessage) (ofs : ℕ) (i : UInt32) :
    List LogMessage :=
  match b.arrGetType (ofs + 1) i with
  | .ok .object =>
    match b.arrGetObj ofs i with
    | .ok o => valueLog o
    | .error _ => []
  | .ok .array =>
    match b.arrGetArr ofs i with
    | .ok o => valueLog o
    | .error _ => []
  | _ => []

/-- The loop over the elements of an array, up to the first one that throws. -/
def elementsLog {β : Type} (f : UInt32 → Except Fault β) (log : UInt32 → List LogMessage) :
    List UInt32 → List LogMessage
  | [] => []
  | i :: is => log i ++
    match f i with
    | .error _ => []
    | .ok _ => elementsLog f log is

def toYyjsonValLog (threshold : LogLevel) (b : Buffer) : ℕ → ℕ → List LogMessage
  | 0, _ => []
  | n + 1, ofs =>
    match ValueType.ofCode (b.mem ofs) with
    | .object => b.beginLog threshold (ofs + 1) ++ b.membersLog threshold (b.toYyjsonVal n)
        (b.toYyjsonValLog threshold n) b.levels (b.begin (ofs + 1))
    | .array => elementsLog (b.element (b.toYyjsonVal n) ofs)
        (b.elementLog (b.toYyjsonValLog threshold n) ofs)
        ((List.range (size b.mem (ofs + 1)).toNat).map .ofNat)
    | _ => []

def rootValLog (threshold : LogLevel) (b : Buffer) (ofs : ℕ) : List LogMessage :=
  if ofs = 0 ∧ nodeSize ≤ b.data.length then
    match NodeView.type b.mem 0 with
    | .object => b.beginLog threshold 0 ++ b.membersLog threshold (b.toYyjsonVal b.levels)
        (b.toYyjsonValLog threshold b.levels) b.levels (b.begin 0)
    | _ => []
  else b.toYyjsonValLog threshold b.levels ofs

end Buffer

def toJsonLog (threshold : LogLevel) (b : Buffer) (ofs : ℕ) : List LogMessage :=
  logIfEnabled threshold (.stringifyStarted ofs) ++ b.rootValLog threshold ofs

def fromJsonLog (y : Yyjson) (threshold : LogLevel) (text : List UInt8) : List LogMessage :=
  logIfEnabled threshold .parseStarted ++ (parseCalls y text).flatMap fun p => p.2.log p.1

end Lite3
