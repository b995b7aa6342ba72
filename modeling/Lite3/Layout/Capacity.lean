import Lite3.Doubling.Basic
import Lite3.Layout.Growth
import Lite3.Log.Basic

/-! # Capacity

What a call reserves it uses, up to the slack of a split. So the used bytes fit
into the data, the data is not much longer than twice the used bytes, and all
the times that it moves it copies less than it ends with. This holds of every
buffer and every call, also where the descent reads garbage.
-/

namespace Lite3

open Config Doubling

/-- The data has grown once at most, and as long as the used bytes need it. -/
structure Buffer.Extends (b b' : Buffer) : Prop where
  used : b.usedSize ≤ b'.usedSize
  fits : b.usedSize ≤ b.data.length → b'.usedSize ≤ b'.data.length
  length : b'.data.length = b.data.length ∨
    2 * b.data.length ≤ b'.data.length ∧ b'.data.length ≤ 2 * b'.usedSize + 448

namespace Buffer

variable {b b' : Buffer} {a : SetArgs} {o p i m n : ℕ}

theorem extends_of_eq (hlen : b'.data.length = b.data.length) (hu : b'.usedSize = b.usedSize) :
    b.Extends b' := by
  constructor
  · exact hu.ge
  · rw [hlen, hu]
    exact id
  · exact Or.inl hlen

theorem Extends.doubles (h : b.Extends b') : Doubles b.data.length b'.data.length :=
  h.length.imp id And.left

theorem extends_of_reserve (hlen : b'.data.length = (b.ensureCapacity n).data.length)
    (hu : b'.usedSize = b.usedSize + m) (hm : m ≤ n) (hn : n ≤ m + 224) : b.Extends b' := by
  have hle := b.le_length_ensureCapacity n
  constructor
  · omega
  · omega
  · rw [hlen, ensureCapacity]
    split_ifs with hgrow
    · right
      simp only [List.length_append, List.length_replicate, nodeSize]
      omega
    · exact Or.inl rfl

theorem length_insertEntry (b : Buffer) (a : SetArgs) (o i : ℕ) :
    (b.insertEntry a o i).2.data.length =
    (b.ensureCapacity (a.klen + a.valTotalLen)).data.length := by
  unfold insertEntry
  extract_lets count b₀ start b₁ b₂ b₃ b₄ b₅
  have h₂ : b₂.data.length = b₁.data.length :=
    downTo_keeps (g := fun b => b.data.length) (fun j b => b.length_moveEntry o j) i count b₁
  simp [b₅, b₄, b₃, h₂, b₁, b₀, setKeyCount, setKvOffset, setHash]

theorem extends_insertEntry (b : Buffer) (a : SetArgs) (o i : ℕ) :
    b.Extends (b.insertEntry a o i).2 :=
  extends_of_reserve (b.length_insertEntry a o i) (b.usedSize_insertEntry a o i) le_rfl
    (Nat.le_add_right _ _)

theorem extends_updateEntry (b : Buffer) (a : SetArgs) (o i : ℕ) :
    b.Extends (b.updateEntry a o i).2 := by
  rw [updateEntry_eq]
  split_ifs
  · exact extends_of_eq (by simp [writeValue_eq]) (by simp)
  · exact extends_of_reserve (by simp [replaceEntry, setKvOffset])
      (b.usedSize_replaceEntry a o i) le_rfl
      (Nat.le_add_right _ _)

theorem Extends.setSize (h : b.Extends b') (o : ℕ) (size : UInt32) :
    b.Extends (b'.setSize o size) := by
  obtain ⟨hu, hf, hl⟩ := h
  have hlen : (b'.setSize o size).data.length = b'.data.length := length_write32 _ _ _
  rw [← hlen] at hf hl
  exact ⟨hu, hf, hl⟩

theorem extends_makeRoom {par : Option ℕ} (hlen : b'.data.length = (b.makeRoom par).data.length)
    (hu : b'.usedSize = (b.makeRoom par).usedSize + m) (hm : m = 96 ∨ m = 0 ∧ par.isSome) :
    b.Extends b' := by
  refine extends_of_reserve (m := (b.makeRoom par).usedSize - b.usedSize + m) hlen ?_ ?_ ?_
  · have := (b.usedSize_makeRoom par).1
    omega
  · simp only [makeRoom, nodeSize]
    split_ifs <;> omega
  · simp only [makeRoom, nodeSize]
    rcases hm with rfl | ⟨rfl, hpar⟩
    · split_ifs <;> omega
    · obtain ⟨p, rfl⟩ := Option.isSome_iff_exists.mp hpar
      simp only [Option.isNone_some, Bool.false_eq_true, if_false]
      omega

theorem extends_makeNode (b : Buffer) (o : ℕ) (type : ValueType) : b.Extends (b.makeNode o type) :=
  extends_of_reserve (n := nodeSize) (by simp [makeNode, setGenType, clear])
    (Container.usedSize_makeNode b o type) le_rfl (by decide)

end Buffer

section

variable {a : SetArgs} {b : Buffer} {s : SetState}

theorem extends_setStep (a : SetArgs) (s : SetState) :
    s.buf.Extends (SetState.bufOf (setStep a s)) := by
  unfold setStep
  extract_lets o b count b₁ sibling i
  have hb : s.buf.data.length = b.data.length := (Buffer.length_write32 _ _ _).symm
  have htouch : ∀ {b'}, b.Extends b' → s.buf.Extends b' := by
    rintro b' ⟨hu, hf, hl⟩
    rw [← hb] at hf hl
    exact ⟨hu, hf, hl⟩
  apply htouch
  split
  · split
    · exact Buffer.extends_makeRoom (m := 96) (b₁.length_splitRoot o) rfl (Or.inl rfl)
    · split
      · exact Buffer.extends_makeRoom rfl rfl (Or.inr ⟨rfl, by simp [*]⟩)
      · next p _ _ j _ =>
        exact Buffer.extends_makeRoom (m := 96) (b₁.length_splitChild o p j)
          (b₁.usedSize_splitChild o p j) (Or.inl rfl)
  · split
    · exact b.extends_updateEntry a o i
    · split
      · exact Buffer.extends_of_eq rfl rfl
      · exact b.extends_insertEntry a o i

theorem extends_call (b : Buffer) (k : Call) :
    (b.setImpl k.ofs (k.args b)).2.Extends (k.apply b) := by
  cases k with
  | set ofs key v => exact Buffer.extends_of_eq rfl rfl
  | append ofs v => exact (Buffer.extends_of_eq rfl rfl).setSize _ _
  | create isArr ofs key =>
    simp only [Call.apply, Call.args, Call.ofs, Buffer.setContainer]
    split <;> rename_i h <;> rw [h]
    · exact Buffer.extends_of_eq rfl rfl
    · exact Buffer.extends_makeNode _ _ _
  | appendNew isArr ofs =>
    simp only [Call.apply, Call.args, Call.ofs, Buffer.arrAppendContainer]
    split <;> rename_i h <;> rw [h]
    · exact Buffer.extends_of_eq rfl rfl
    · exact (Buffer.extends_makeNode _ _ _).setSize _ _

end

/-- Entry `i` of the node at `o` lies in the used bytes. -/
def Buffer.EntryInside (b : Buffer) (isArr : Bool) (o i : ℕ) : Prop :=
  let vo := valueOffset b.mem o i isArr
  (isArr = true ∨ ((b.mem (NodeView.getKvOffset b.mem o i)) >>> 2).toNat ≠ 0) ∧
    vo + existingTotalLen b.mem vo ≤ b.usedSize

instance (b : Buffer) (isArr : Bool) (o i : ℕ) : Decidable (b.EntryInside isArr o i) :=
  inferInstanceAs (Decidable (_ ∧ _))

namespace Call

/-- All that the call comes to lies inside the data and fits on its path, and it has a result. -/
def Defined (b : Buffer) (k : Call) : Prop :=
  (∀ s ∈ b.setVisits k.ofs (k.args b), s.Defined ∧
    ∀ i < NodeView.keyCount s.buf.mem s.nodeOfs,
      s.buf.EntryInside (k.args b).isAppend s.nodeOfs i) ∧
    (b.setImpl k.ofs (k.args b)).1 ≠ none

instance (b : Buffer) (k : Call) : Decidable (k.Defined b) := inferInstanceAs (Decidable (_ ∧ _))

/-- The call, if its behaviour is defined. -/
def applyDefined (b : Buffer) (k : Call) : Option Buffer :=
  if k.Defined b then some (k.apply b) else none

/-- The lengths of the data that a descent goes through. -/
def lengths (b : Buffer) (k : Call) : List ℕ :=
  (b.setVisits k.ofs (k.args b)).map (fun s => s.buf.data.length) ++
    [(b.setImpl k.ofs (k.args b)).2.data.length]

theorem lengths_eq (b : Buffer) (k : Call) : k.lengths b =
    (b.setVisits k.ofs (k.args b)).map (fun s => s.buf.data.length) ++
      [(SetState.bufOf (Loop.run (setStep (k.args b)) (2 * b.data.length + 2)
        ⟨b, none, k.ofs, 0⟩)).data.length] := by
  rw [lengths, setImpl_eq, setImplWith_snd, setStep_eq]

end Call

namespace Buffer

/-- The lengths of the data that a history of calls goes through. -/
def lengths : Buffer → List Call → List ℕ
  | b, [] => [b.data.length]
  | b, k :: ks => k.lengths b ++ lengths (k.apply b) ks

def runCalls (b : Buffer) (ks : List Call) : Buffer := ks.foldl (fun b k => k.apply b) b

/-- A history of calls whose behaviour is defined. -/
def runDefined (b : Buffer) (ks : List Call) : Option Buffer := ks.foldlM Call.applyDefined b

theorem runCalls_eq_of_runDefined {b b' : Buffer} {ks : List Call} (h : b.runDefined ks = some b') :
    b.runCalls ks = b' := by
  induction ks generalizing b with
  | nil => exact Option.some_inj.mp h
  | cons k ks ih =>
    rw [runDefined, List.foldlM_cons, Call.applyDefined] at h
    split at h
    · exact ih h
    · cases h

theorem head?_lengths (b : Buffer) (ks : List Call) :
    (b.lengths ks).head? = some b.data.length := by
  cases ks with
  | nil => rfl
  | cons k ks =>
    rw [lengths, Call.lengths_eq, List.head?_append]
    exact congrArg (Option.or · _)
      (Loop.head?_visited (g := fun r => (SetState.bufOf r).data.length) (fun _ => rfl) _ _)

theorem getLast?_lengths (b : Buffer) (ks : List Call) :
    (b.lengths ks).getLast? = some (b.runCalls ks).data.length := by
  induction ks generalizing b with
  | nil => rfl
  | cons k ks ih =>
    rw [lengths, List.getLast?_append, ih]
    rfl

theorem isChain_lengths (b : Buffer) (ks : List Call) : (b.lengths ks).IsChain Doubles := by
  induction ks generalizing b with
  | nil => exact .singleton _
  | cons k ks ih =>
    rw [lengths, List.isChain_append, head?_lengths]
    refine ⟨?_, ih _, ?_⟩
    · rw [Call.lengths_eq]
      exact Loop.isChain_visited (g := fun r => (SetState.bufOf r).data.length) (fun _ => rfl)
        (fun s => (extends_setStep _ s).doubles) _ _
    · simpa [Call.lengths] using (extends_call b k).doubles

/-- The used bytes fit into the data, which is not much longer than twice as many. -/
structure Snug (b : Buffer) : Prop where
  fits : b.usedSize ≤ b.data.length
  tight : b.data.length ≤ 2 * b.usedSize + 448

theorem Extends.snug {b b' : Buffer} (h : b.Extends b') (hb : b.Snug) : b'.Snug := by
  constructor
  · exact h.fits hb.fits
  · have hused := h.used
    have htight := hb.tight
    rcases h.length with heq | ⟨-, hle⟩
    · omega
    · exact hle

theorem Snug.setImpl {b : Buffer} (h : b.Snug) (ofs : ℕ) (a : SetArgs) :
    (b.setImpl ofs a).2.Snug := by
  rw [setImpl_eq, setImplWith_snd]
  exact Loop.run_invariant (I := fun r => (SetState.bufOf r).Snug)
    (fun s hs => (extends_setStep a s).snug hs) _ h

theorem Snug.runCalls {b : Buffer} (h : b.Snug) (ks : List Call) : (b.runCalls ks).Snug := by
  induction ks generalizing b with
  | nil => exact h
  | cons k ks ih => exact ih ((extends_call b k).snug (h.setImpl k.ofs (k.args b)))

end Buffer

theorem World.buf_run (w : World) (ks : List Call) : (w.run ks).buf = w.buf.runCalls ks := by
  induction ks generalizing w with
  | nil => rfl
  | cons k ks ih => exact (ih (w.step k)).trans (by rw [w.buf_step]; rfl)

/-- Over every history of calls inside the data, the data stays within about twice the used bytes,
all that is copied when it moves is less than what it ends with, and it moves as often as its length
can double. -/
theorem capacity_kept {b b' : Buffer} {ks : List Call} (h : b.Snug)
    (hrun : b.runDefined ks = some b') : b'.Snug ∧
    copied (b.lengths ks) + b.data.length ≤ b'.data.length ∧
    b.data.length * 2 ^ moves (b.lengths ks) ≤ b'.data.length := by
  obtain rfl := Buffer.runCalls_eq_of_runDefined hrun
  have hchain := b.isChain_lengths ks
  have hlast := b.getLast?_lengths ks
  obtain ⟨ns, hns⟩ : ∃ ns, b.lengths ks = b.data.length :: ns :=
    List.head?_eq_some_iff.mp (b.head?_lengths ks)
  rw [hns] at hchain hlast ⊢
  rw [List.getLast?_eq_some_getLast (by simp), Option.some_inj] at hlast
  refine ⟨h.runCalls ks, ?_, ?_⟩
  · exact hlast ▸ copied_le hchain
  · exact hlast ▸ mul_two_pow_moves_le hchain

/-- Eight keys in a new object: its root is split and the data moves. -/
theorem capacity_kept_eight :
    let b := Buffer.empty.initObject
    let ks := (List.range 8).map fun i => Call.set 0 [.ofNat (97 + i)] (.i64 7)
    ∃ b', b.runDefined ks = some b' ∧ b'.Snug ∧
      copied (b.lengths ks) + b.data.length ≤ b'.data.length ∧
      b.data.length * 2 ^ moves (b.lengths ks) ≤ b'.data.length := by
  intro b ks
  obtain ⟨b', hrun⟩ : ∃ b', b.runDefined ks = some b' :=
    Option.isSome_iff_exists.mp (by decide +kernel)
  exact ⟨b', hrun, capacity_kept ⟨by decide, by decide⟩ hrun⟩

end Lite3
