import Lite3.Buffer.Replace
import Lite3.Layout.Write

/-! # Buffers only grow

Neither the used size nor the data ever shrinks. This holds of every buffer,
also when the descent reads garbage: whatever the call does, a bound on the used
size at its end bounds it throughout. Every round adds a node at most, and the
last one an entry.
-/

namespace Lite3

namespace Buffer

theorem downTo_keeps {γ : Type*} {g : Buffer → γ} {f : ℕ → Buffer → Buffer}
    (hf : ∀ j b, g (f j b) = g b) (i n : ℕ) (b : Buffer) : g (downTo i f n b) = g b := by
  induction n generalizing b with
  | zero => rfl
  | succ n ih =>
    rw [downTo]
    split
    · rw [ih, hf]
    · rfl

theorem foldl_keeps {γ : Type*} {g : Buffer → γ} {f : Buffer → ℕ → Buffer}
    (hf : ∀ b j, g (f b j) = g b) (js : List ℕ) (b : Buffer) : g (js.foldl f b) = g b := by
  induction js generalizing b with
  | nil => rfl
  | cons j js ih => rw [List.foldl_cons, ih, hf]

variable (b : Buffer) (a : SetArgs) (o p i : ℕ)

@[simp] theorem usedSize_moveEntry (j : ℕ) : (b.moveEntry o j).usedSize = b.usedSize := rfl

@[simp] theorem usedSize_moveKid (j : ℕ) : (b.moveKid o j).usedSize = b.usedSize := rfl

@[simp] theorem usedSize_copyEntry (s k j : ℕ) : (b.copyEntry o s k j).usedSize = b.usedSize := rfl

theorem usedSize_shiftEntries (n : ℕ) :
    (downTo i (fun j b => b.moveEntry o j) n b).usedSize = b.usedSize :=
  downTo_keeps (fun j b => b.usedSize_moveEntry o j) i n b

theorem usedSize_promoteMedian (s : ℕ) : (b.promoteMedian p o i s).usedSize = b.usedSize :=
  downTo_keeps (fun j b => b.usedSize_moveKid p j) i _ b

theorem usedSize_newSibling : (b.newSibling o).usedSize = b.usedSize + 96 :=
  foldl_keeps (fun b _ => b.usedSize_copyEntry o _ _ _) _ _

theorem usedSize_insertEntry :
    (b.insertEntry a o i).2.usedSize = b.usedSize + (a.klen + a.valTotalLen) := by
  simp only [insertEntry, usedSize_setKeyCount, usedSize_setKvOffset, usedSize_setHash]
  rw [usedSize_shiftEntries, usedSize_writeEntry, usedSize_ensureCapacity]

theorem usedSize_replaceEntry :
    (b.replaceEntry a o i).2.usedSize = b.usedSize + (a.klen + a.valTotalLen) := by
  simp only [replaceEntry, usedSize_writeEntry, usedSize_setKvOffset, usedSize_ensureCapacity]

theorem updateEntry_eq : b.updateEntry a o i =
    if existingTotalLen b.mem (valueOffset b.mem o i a.isAppend) = a.valTotalLen then
      (some (valueOffset b.mem o i a.isAppend),
        b.writeValue (valueOffset b.mem o i a.isAppend) a.type a.val)
    else b.replaceEntry a o i := rfl

theorem usedSize_updateEntry :
    b.usedSize ≤ (b.updateEntry a o i).2.usedSize ∧
      (b.updateEntry a o i).2.usedSize ≤ b.usedSize + (a.klen + a.valTotalLen) := by
  rw [updateEntry_eq]
  split
  · rw [usedSize_writeValue]
    exact ⟨le_rfl, Nat.le_add_right _ _⟩
  · rw [usedSize_replaceEntry]
    exact ⟨Nat.le_add_right _ _, le_rfl⟩

theorem usedSize_makeRoom (par : Option ℕ) :
    b.usedSize ≤ (b.makeRoom par).usedSize ∧ (b.makeRoom par).usedSize ≤ b.usedSize + 3 := by
  simp only [makeRoom, Config.nodeAlignment]
  omega

theorem usedSize_splitRoot : (b.splitRoot o).usedSize = b.usedSize + 96 := rfl

theorem usedSize_splitChild : (b.splitChild p o i).usedSize = b.usedSize + 96 := by
  rw [splitChild, usedSize_setKeyCount, usedSize_promoteMedian, usedSize_newSibling]

end Buffer

/-- The update of an entry adds at most a fresh one. -/
def Grows (a : SetArgs) (update : Update) : Prop :=
  ∀ b o i, b.usedSize ≤ (update b a o i).2.usedSize ∧
    (update b a o i).2.usedSize ≤ b.usedSize + (a.klen + a.valTotalLen)

theorem grows_updateEntry (a : SetArgs) : Grows a Buffer.updateEntry :=
  fun b o i => b.usedSize_updateEntry a o i

theorem grows_replaceEntry (a : SetArgs) : Grows a Buffer.replaceEntry := by
  intro b o i
  rw [b.usedSize_replaceEntry]
  exact ⟨Nat.le_add_right _ _, le_rfl⟩

/-- The buffer of a descent, ended or not. -/
def SetState.bufOf (s : SetState ⊕ (Option ℕ × Buffer)) : Buffer :=
  match s with
  | .inl s => s.buf
  | .inr r => r.2

section

variable {update : Update} {a : SetArgs}

theorem usedSize_setStepWith (hu : Grows a update) (s : SetState) :
    s.buf.usedSize ≤ (SetState.bufOf (setStepWith update a s)).usedSize ∧
      (SetState.bufOf (setStepWith update a s)).usedSize ≤
        s.buf.usedSize + (99 + (a.klen + a.valTotalLen)) ∧
      ∀ s', setStepWith update a s = .inl s' → s'.buf.usedSize ≤ s.buf.usedSize + 99 := by
  unfold setStepWith
  extract_lets o b count b₁ sibling i
  have hb : b.usedSize = s.buf.usedSize := rfl
  obtain ⟨h₁, h₂⟩ : s.buf.usedSize ≤ b₁.usedSize ∧ b₁.usedSize ≤ s.buf.usedSize + 3 :=
    b.usedSize_makeRoom _
  split
  · split
    · have hs := b₁.usedSize_splitRoot o
      refine ⟨?_, ?_, ?_⟩
      · simp only [SetState.bufOf]; omega
      · simp only [SetState.bufOf]; omega
      · rintro s' ⟨⟩
        show (b₁.splitRoot o).usedSize ≤ _
        omega
    · split
      · exact ⟨h₁, by simp only [SetState.bufOf]; omega, by simp⟩
      · rename_i p _ _ j _
        have hs := b₁.usedSize_splitChild o p j
        refine ⟨?_, ?_, ?_⟩
        · simp only [SetState.bufOf]; omega
        · simp only [SetState.bufOf]; omega
        · rintro s' ⟨⟩
          show (b₁.splitChild p o j).usedSize ≤ _
          omega
  · split
    · obtain ⟨hle, hle'⟩ := hu b o i
      exact ⟨hb ▸ hle, by simp only [SetState.bufOf]; omega, by simp⟩
    · split
      · exact ⟨le_rfl, by simp only [SetState.bufOf]; omega, by rintro s' ⟨⟩; simp [hb]⟩
      · have hs := b.usedSize_insertEntry a o i
        exact ⟨by simp only [SetState.bufOf]; omega, by simp only [SetState.bufOf]; omega, by simp⟩

theorem usedSize_le_run (hu : Grows a update) (n : ℕ) (s : SetState) :
    s.buf.usedSize ≤ (SetState.bufOf (Loop.run (setStepWith update a) n s)).usedSize := by
  induction n generalizing s with
  | zero => exact le_rfl
  | succ n ih =>
    have hs := (usedSize_setStepWith hu s).1
    rw [Loop.run]
    cases h : setStepWith update a s with
    | inl s' =>
      rw [h] at hs
      exact hs.trans (ih s')
    | inr r =>
      rw [h] at hs
      exact hs

/-- What a descent of `n` rounds can add. -/
theorem usedSize_run_le (hu : Grows a update) (n : ℕ) (s : SetState) :
    (SetState.bufOf (Loop.run (setStepWith update a) n s)).usedSize ≤
      s.buf.usedSize + (99 * n + (a.klen + a.valTotalLen)) := by
  induction n generalizing s with
  | zero => exact Nat.le_add_right _ _
  | succ n ih =>
    obtain ⟨-, hr, hl⟩ := usedSize_setStepWith hu s
    rw [Loop.run]
    cases h : setStepWith update a s with
    | inl s' =>
      have := hl s' h
      have := ih s'
      simp only
      omega
    | inr r =>
      rw [h] at hr
      simp only [SetState.bufOf] at hr ⊢
      omega

theorem setImplWith_snd (b : Buffer) (ofs : ℕ) : (b.setImplWith update ofs a).2 =
    SetState.bufOf (Loop.run (setStepWith update a) (2 * b.data.length + 2) ⟨b, none, ofs, 0⟩) := by
  unfold Buffer.setImplWith SetState.bufOf
  cases Loop.run (setStepWith update a) (2 * b.data.length + 2) ⟨b, none, ofs, 0⟩ <;> rfl

theorem usedSize_le_setImplWith (hu : Grows a update) (b : Buffer) (ofs : ℕ) :
    b.usedSize ≤ (b.setImplWith update ofs a).2.usedSize := by
  rw [setImplWith_snd]
  exact usedSize_le_run hu _ ⟨b, none, ofs, 0⟩

end

theorem usedSize_le_setImpl (b : Buffer) (ofs : ℕ) (a : SetArgs) :
    b.usedSize ≤ (b.setImpl ofs a).2.usedSize := by
  rw [setImpl_eq]
  exact usedSize_le_setImplWith (grows_updateEntry a) b ofs

namespace Buffer

variable (b : Buffer) (a : SetArgs) (o p i : ℕ)

@[simp] theorem length_moveEntry (j : ℕ) : (b.moveEntry o j).data.length = b.data.length := by
  simp [moveEntry, setHash, setKvOffset]

@[simp] theorem length_moveKid (j : ℕ) : (b.moveKid o j).data.length = b.data.length := by
  simp [moveKid, setChildOffset]

@[simp] theorem length_copyEntry (s k j : ℕ) :
    (b.copyEntry o s k j).data.length = b.data.length := by
  simp [copyEntry, setHash, setKvOffset, setChildOffset]

@[simp] theorem length_splitRoot : (b.splitRoot o).data.length = b.data.length := by
  simp [splitRoot, setSizeKc, setChildOffset, setKeyCount, setGenType, clear]

@[simp] theorem length_newSibling : (b.newSibling o).data.length = b.data.length := by
  unfold newSibling
  extract_lets s b₀ b₁ b₂ mid n b₃ b₄
  have h₄ : b₄.data.length = b₃.data.length :=
    foldl_keeps (g := fun b => b.data.length)
      (fun b j => b.length_copyEntry o s (mid + 1 + j) j) _ b₃
  simp [setSizeKc, h₄, b₃, b₂, b₁, b₀, setChildOffset, setGenType, clear]

@[simp] theorem length_promoteMedian (s : ℕ) :
    (b.promoteMedian p o i s).data.length = b.data.length := by
  unfold promoteMedian
  extract_lets mid b₁ b₂ b₃ b₄
  have h₁ : b₁.data.length = b.data.length :=
    downTo_keeps (g := fun b => b.data.length) (fun j b => b.length_moveKid p j) i _ b
  simp [setSizeKc, b₄, b₃, b₂, h₁, setChildOffset, setKvOffset, setHash]

@[simp] theorem length_splitChild : (b.splitChild p o i).data.length = b.data.length := by
  simp [splitChild, setKeyCount]

theorem length_le_ensureCapacity (n : ℕ) : b.data.length ≤ (b.ensureCapacity n).data.length := by
  obtain ⟨k, hk⟩ := b.data_ensureCapacity n
  rw [hk, List.length_append]
  exact Nat.le_add_right _ _

theorem length_le_makeRoom (par : Option ℕ) : b.data.length ≤ (b.makeRoom par).data.length :=
  b.length_le_ensureCapacity _

theorem length_le_insertEntry : b.data.length ≤ (b.insertEntry a o i).2.data.length := by
  unfold insertEntry
  extract_lets count b₀ start b₁ b₂ b₃ b₄ b₅
  have hle : b.data.length ≤ b₀.data.length := b.length_le_ensureCapacity _
  have h₂ : b₂.data.length = b₁.data.length :=
    downTo_keeps (g := fun b => b.data.length) (fun j b => b.length_moveEntry o j) i count b₁
  simpa [b₅, b₄, b₃, h₂, b₁, setKeyCount, setKvOffset, setHash] using hle

theorem length_le_updateEntry : b.data.length ≤ (b.updateEntry a o i).2.data.length := by
  rw [updateEntry_eq]
  split
  · simp [writeValue_eq]
  · have hle := b.length_le_ensureCapacity (a.klen + a.valTotalLen)
    simpa [replaceEntry, setKvOffset] using hle
end Buffer

section

variable {a : SetArgs}

theorem length_le_setStep (s : SetState) :
    s.buf.data.length ≤ (SetState.bufOf (setStep a s)).data.length := by
  unfold setStep
  extract_lets o b count b₁ sibling i
  have hb : b.data.length = s.buf.data.length := Buffer.length_write32 _ _ _
  have hroom : s.buf.data.length ≤ b₁.data.length := hb.ge.trans (b.length_le_makeRoom _)
  split
  · split
    · simpa [SetState.bufOf] using hroom
    · split
      · exact hroom
      · simpa [SetState.bufOf] using hroom
  · split
    · exact hb.ge.trans (b.length_le_updateEntry a o i)
    · split
      · exact hb.ge
      · exact hb.ge.trans (b.length_le_insertEntry a o i)

theorem length_le_run (n : ℕ) (s : SetState) :
    s.buf.data.length ≤ (SetState.bufOf (Loop.run (setStep a) n s)).data.length := by
  induction n generalizing s with
  | zero => exact le_rfl
  | succ n ih =>
    have hs := length_le_setStep (a := a) s
    rw [Loop.run]
    cases h : setStep a s with
    | inl s' =>
      rw [h] at hs
      exact hs.trans (ih s')
    | inr r =>
      rw [h] at hs
      exact hs

theorem length_le_setImpl (b : Buffer) (ofs : ℕ) :
    b.data.length ≤ (b.setImpl ofs a).2.data.length := by
  rw [setImpl_eq, setImplWith_snd]
  exact length_le_run _ ⟨b, none, ofs, 0⟩

end

end Lite3
