import Lite3.Json.Yyjson
import Lite3.Log.Basic
import Lite3.Loop.Runs

/-! # What the logger is handed

A session is a history of operations on buffers, iterators and texts under a
threshold that may change. Each message goes with the threshold in force.
-/

namespace Lite3

open Config

structure Session where
  threshold : LogLevel
  buffers : List Buffer
  /-- Iterators with the index of their buffer. -/
  iterators : List (ℕ × Iterator)
  /-- The messages that the logger has been handed. -/
  delivered : List (LogLevel × LogMessage)

inductive Operation
  | setLogLevelThreshold (level : LogLevel)
  | buffer (b : Buffer)
  | init (i : ℕ) (isArr : Bool)
  | call (i : ℕ) (k : Call)
  | begin (i ofs : ℕ)
  | next (j : ℕ)
  | toJson (i ofs : ℕ)
  | fromJson (text : List UInt8)

namespace Session

variable {y : Yyjson} {s : Session} {op : Operation} {ops : List Operation} {threshold : LogLevel}
  {b : Buffer} {ms : List LogMessage}

/-- A session with no buffers yet. -/
def start (threshold : LogLevel) : Session := ⟨threshold, [], [], []⟩

/-- The buffer of an iterator, and the iterator. -/
def iteratorAt (s : Session) (j : ℕ) : Option (Buffer × Iterator) :=
  s.iterators[j]?.bind fun it => s.buffers[it.1]?.map fun b => (b, it.2)

/-- What is left of an operation besides its messages. -/
def effect (y : Yyjson) (s : Session) : Operation → Session
  | .setLogLevelThreshold level => { s with threshold := level }
  | .buffer b => { s with buffers := s.buffers ++ [b] }
  | .init i isArr =>
    { s with buffers := s.buffers.modify i fun b => b.initStructure (kindOf isArr) }
  | .call i k => { s with buffers := s.buffers.modify i fun b => k.apply b }
  | .begin i ofs =>
    { s with iterators := s.iterators ++ (s.buffers[i]?.map fun b => (i, b.begin ofs)).toList }
  | .next j =>
    match s.iteratorAt j with
    | none => s
    | some (b, it) =>
      { s with iterators := s.iterators.modify j fun p => (p.1, it.next b) }
  | .toJson _ _ => s
  | .fromJson text =>
    match fromJsonString y text with
    | .error _ => s
    | .ok (_, b) => { s with buffers := s.buffers ++ [b] }

def log (y : Yyjson) (s : Session) : Operation → List LogMessage
  | .call i k => s.buffers[i]?.elim [] fun b => k.log b
  | .begin i ofs => s.buffers[i]?.elim [] fun b => b.beginLog s.threshold ofs
  | .next j => (s.iteratorAt j).elim [] fun p => p.2.nextLog s.threshold p.1
  | .toJson i ofs => s.buffers[i]?.elim [] fun b => toJsonLog s.threshold b ofs
  | .fromJson text => fromJsonLog y s.threshold text
  | .setLogLevelThreshold _ | .buffer _ | .init _ _ => []

def step (y : Yyjson) (s : Session) (op : Operation) : Session :=
  { s.effect y op with delivered := s.delivered ++ (s.log y op).map (s.threshold, ·) }

def run (y : Yyjson) (s : Session) (ops : List Operation) : Session := ops.foldl (step y) s

/-- No message has been delivered below the threshold in force. -/
def Filtered (s : Session) : Prop := ∀ p ∈ s.delivered, p.1 ≤ p.2.level

instance (s : Session) : Decidable s.Filtered :=
  inferInstanceAs (Decidable (∀ p ∈ s.delivered, p.1 ≤ p.2.level))

/-- The calls on buffers that an operation makes. -/
def calls (y : Yyjson) (s : Session) : Operation → List (Buffer × Call)
  | .call i k => (s.buffers[i]?.map (·, k)).toList
  | .fromJson text => parseCalls y text
  | _ => []

/-- The threshold is not above `info`, or no call of the operation meets a full node. -/
def Quiet (y : Yyjson) (s : Session) (op : Operation) : Prop :=
  s.threshold ≤ .info ∨ ∀ p ∈ s.calls y op, ¬ p.2.MeetsFull p.1

end Session

/-- All messages have the threshold at least. -/
def Passes (threshold : LogLevel) (ms : List LogMessage) : Prop := ∀ m ∈ ms, threshold ≤ m.level

section Passes

variable {threshold : LogLevel} {b : Buffer} {ms ms' : List LogMessage}

theorem passes_nil : Passes threshold [] := by simp [Passes]

theorem passes_append : Passes threshold (ms ++ ms') ↔ Passes threshold ms ∧ Passes threshold ms' :=
  List.forall_mem_append

theorem passes_logIfEnabled (threshold : LogLevel) (m : LogMessage) :
    Passes threshold (logIfEnabled threshold m) := by
  unfold logIfEnabled Passes
  split_ifs with h <;> simp [h]

theorem Iterator.passes_nextLog (threshold : LogLevel) (b : Buffer) (it : Iterator) :
    Passes threshold (it.nextLog threshold b) := by
  intro m hm
  obtain ⟨ms, hms, hm⟩ := List.mem_flatten.mp hm
  rw [List.eq_of_mem_replicate hms] at hm
  exact passes_logIfEnabled threshold _ m hm

namespace Buffer

theorem passes_beginLog (threshold : LogLevel) (b : Buffer) (ofs : ℕ) :
    Passes threshold (b.beginLog threshold ofs) := by
  unfold beginLog
  split_ifs
  · exact passes_nil
  · exact Iterator.passes_nextLog _ _ _

theorem passes_membersLog {valueLog : ℕ → List LogMessage} (h : ∀ o, Passes threshold (valueLog o))
    (value : ℕ → Except Fault Json) (n : ℕ) (it : Iterator) :
    Passes threshold (b.membersLog threshold value valueLog n it) := by
  induction n generalizing it with
  | zero => exact passes_nil
  | succ n ih =>
    rw [membersLog]
    split_ifs
    · exact passes_nil
    · split
      · exact passes_nil
      · exact passes_nil
      · apply passes_append.mpr
        constructor
        · exact h _
        · split
          · exact passes_nil
          · exact passes_append.mpr ⟨Iterator.passes_nextLog _ _ _, ih _⟩

theorem passes_elementLog {valueLog : ℕ → List LogMessage} (h : ∀ o, Passes threshold (valueLog o))
    (ofs : ℕ) (i : UInt32) : Passes threshold (b.elementLog valueLog ofs i) := by
  unfold elementLog
  repeat' split
  all_goals first | exact h _ | exact passes_nil

theorem passes_elementsLog {β : Type} {log : UInt32 → List LogMessage}
    (h : ∀ i, Passes threshold (log i)) (f : UInt32 → Except Fault β) (is : List UInt32) :
    Passes threshold (elementsLog f log is) := by
  induction is with
  | nil => exact passes_nil
  | cons i is ih =>
    rw [elementsLog]
    apply passes_append.mpr
    constructor
    · exact h i
    · split
      · exact passes_nil
      · exact ih

theorem passes_toYyjsonValLog (threshold : LogLevel) (b : Buffer) (n ofs : ℕ) :
    Passes threshold (b.toYyjsonValLog threshold n ofs) := by
  induction n generalizing ofs with
  | zero => exact passes_nil
  | succ n ih =>
    rw [toYyjsonValLog]
    split
    · exact passes_append.mpr ⟨passes_beginLog _ _ _, passes_membersLog ih _ _ _⟩
    · exact passes_elementsLog (passes_elementLog ih ofs) _ _
    · exact passes_nil

end Buffer

theorem passes_toJsonLog (threshold : LogLevel) (b : Buffer) (ofs : ℕ) :
    Passes threshold (toJsonLog threshold b ofs) := by
  apply passes_append.mpr
  constructor
  · exact passes_logIfEnabled _ _
  · unfold Buffer.rootValLog
    split_ifs
    · split
      · exact passes_append.mpr ⟨b.passes_beginLog _ _, Buffer.passes_membersLog
          (b.passes_toYyjsonValLog threshold _) _ _ _⟩
      · exact passes_nil
    · exact Buffer.passes_toYyjsonValLog _ _ _ _

theorem Call.passes_log (threshold : LogLevel) (b : Buffer) (k : Call) :
    Passes threshold (k.log b) ↔ threshold ≤ .info ∨ ¬ k.MeetsFull b := by
  have hstate : ∀ s : SetState, Passes threshold s.log ↔ (s.MeetsFull → threshold ≤ .info) := by
    intro s
    unfold SetState.log Passes
    split_ifs with h <;> simp [h, LogMessage.nodeFull]
  have hlog : Passes threshold (k.log b) ↔
      ∀ s ∈ b.setVisits k.ofs (k.args b), s.MeetsFull → threshold ≤ .info := by
    simp only [← hstate, Passes, log, List.forall_mem_flatMap]
  rw [hlog, MeetsFull]
  by_cases ht : threshold ≤ .info <;> simp [ht]

end Passes

namespace Session

variable {y : Yyjson} {s : Session} {op : Operation} {ops : List Operation}

theorem passes_calls (threshold : LogLevel) (cs : List (Buffer × Call)) :
    Passes threshold (cs.flatMap fun p => p.2.log p.1) ↔
      threshold ≤ .info ∨ ∀ p ∈ cs, ¬ p.2.MeetsFull p.1 := by
  have hall : Passes threshold (cs.flatMap fun p => p.2.log p.1) ↔
      ∀ p ∈ cs, threshold ≤ .info ∨ ¬ p.2.MeetsFull p.1 := by
    simp only [← Call.passes_log, Passes, List.forall_mem_flatMap]
  rw [hall]
  by_cases ht : threshold ≤ .info <;> simp [ht]

/-- An operation lets nothing past the filter exactly if it is quiet. -/
theorem passes_log (y : Yyjson) (s : Session) (op : Operation) :
    Passes s.threshold (s.log y op) ↔ s.Quiet y op := by
  cases op with
  | call i k =>
    have hc := passes_calls s.threshold (s.calls y (.call i k))
    rw [Quiet, ← hc, log, calls]
    cases s.buffers[i]? <;> simp
  | fromJson text =>
    rw [log, fromJsonLog, passes_append, passes_calls]
    exact and_iff_right (passes_logIfEnabled _ _)
  | setLogLevelThreshold | buffer | init =>
    exact iff_of_true passes_nil (Or.inr (by simp [calls]))
  | begin i ofs =>
    refine iff_of_true ?_ (Or.inr (by simp [calls]))
    rw [log]
    cases s.buffers[i]? with
    | none => exact passes_nil
    | some b => exact b.passes_beginLog _ _
  | next j =>
    refine iff_of_true ?_ (Or.inr (by simp [calls]))
    rw [log]
    cases s.iteratorAt j with
    | none => exact passes_nil
    | some p => exact p.2.passes_nextLog _ _
  | toJson i ofs =>
    refine iff_of_true ?_ (Or.inr (by simp [calls]))
    rw [log]
    cases s.buffers[i]? with
    | none => exact passes_nil
    | some b => exact passes_toJsonLog _ _ _

theorem filtered_step : (s.step y op).Filtered ↔ s.Filtered ∧ s.Quiet y op := by
  rw [← passes_log, Filtered, step, List.forall_mem_append, List.forall_mem_map]
  rfl

/-- Over a whole history, nothing is delivered below the threshold exactly if every operation is
quiet. -/
theorem filtered_run (ops : List Operation) :
    (s.run y ops).Filtered ↔ s.Filtered ∧ Loop.Allowed (step y) (Quiet y) s ops := by
  induction ops generalizing s with
  | nil => simp [run, Loop.Allowed]
  | cons op ops ih =>
    rw [Loop.Allowed, ← and_assoc, ← filtered_step, ← ih]
    rfl

end Session

theorem filtered_iff (y : Yyjson) (threshold : LogLevel) (ops : List Operation) :
    ((Session.start threshold).run y ops).Filtered ↔
      Loop.Allowed (Session.step y) (Session.Quiet y) (.start threshold) ops := by
  rw [Session.filtered_run]
  exact and_iff_right (by simp [Session.Filtered, Session.start])

/-- An object with eight keys -/
def eightKeys : List Operation :=
  [.buffer .empty, .init 0 false] ++
    (List.range 8).map fun i => .call 0 (.set 0 [UInt8.ofNat (97 + i)] .null)

/-- The eighth key splits the root, and the message is delivered at a threshold of `warn`. -/
theorem split_logged : ¬ ∀ (y : Yyjson) (threshold : LogLevel) (ops : List Operation),
    ((Session.start threshold).run y ops).Filtered := by
  intro h
  exact absurd (h (.sample []) .warn eightKeys) (by decide +kernel)

end Lite3
