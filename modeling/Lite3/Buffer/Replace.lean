import Lite3.Buffer.Set

/-! # Insertion without the shortcut

The loop of `set_impl` with what it does to the entry it finds as a parameter.
One instance is the loop itself; in the other one every update of an entry
appends a fresh one and repoints the slot.
-/

namespace Lite3

open NodeView Config

/-- `updateEntry` without the update in place -/
def Buffer.replaceEntry (b : Buffer) (a : SetArgs) (o i : ℕ) : Option ℕ × Buffer :=
  let b := b.ensureCapacity (a.klen + a.valTotalLen)
  let b := b.setKvOffset o i b.usedSize
  let b := b.writeEntry a
  (some (b.usedSize - a.valTotalLen), b)

abbrev Update := Buffer → SetArgs → ℕ → ℕ → Option ℕ × Buffer

/-- One iteration of the loop that treats the entry it finds with `update`. -/
def setStepWith (update : Update) (a : SetArgs) (s : SetState) :
    SetState ⊕ (Option ℕ × Buffer) :=
  let o := s.nodeOfs
  let b := s.buf.touch o
  let count := keyCount b.mem o
  if nodeKeyCountMax ≤ count then
    let b := b.makeRoom s.parentOfs
    match s.parentOfs with
    | none => .inl ⟨b.splitRoot o, some o, b.usedSize, s.pathDepth⟩
    | some p =>
      match Buffer.slotOf b.mem p o with
      | none => .inr (none, b)
      | some i =>
        let sibling := b.usedSize
        let b := b.splitChild p o i
        .inl ⟨b, some p, if a.keyHash > getHash b.mem p i then sibling else o, s.pathDepth + 1⟩
  else
    let i := searchNode b.mem o a.keyHash a.key a.isAppend count
    if i < count ∧ compareNodeKey b.mem o i a.keyHash a.key a.isAppend = .eq then
      .inr (update b a o i)
    else if getChildOffset b.mem o i ≠ 0 then
      .inl ⟨b, some o, getChildOffset b.mem o i, s.pathDepth + 1⟩
    else .inr (b.insertEntry a o i)

def Buffer.setImplWith (update : Update) (b : Buffer) (ofs : ℕ) (a : SetArgs) :
    Option ℕ × Buffer :=
  match Loop.run (setStepWith update a) (2 * b.data.length + 2) ⟨b, none, ofs, 0⟩ with
  | .inl s => (none, s.buf)
  | .inr r => r

theorem setStep_eq : setStep = setStepWith Buffer.updateEntry := rfl

theorem setImpl_eq : Buffer.setImpl = Buffer.setImplWith Buffer.updateEntry := rfl

end Lite3
