import Lite3.Layout.Block
import Lite3.Buffer.Set

/-! # Entries

An entry is a key and a typed value at an offset, filed under a hash. Its bytes
are the key tag, the key, the terminator, the type tag and the payload; array
elements have no key bytes. Every reader decodes keys of at most 62 bytes.
-/

namespace Lite3

open Bytes

structure Entry where
  hash : UInt32
  ofs : ℕ
  key : List UInt8
  type : ValueType
  val : List UInt8

def keyBytes (isArr : Bool) (key : List UInt8) : List UInt8 :=
  if isArr then []
  else .ofNat ((key.length + 1) <<< 2) ::
    (key ++ 0 :: List.replicate (keyTagSize false key.length - 1) 0)

def valueBytes (type : ValueType) (val : List UInt8) : List UInt8 :=
  type.code ::
    (if type = .string ∨ type = .bytes then
      toLE 4 val.length ++ (val ++ if type = .string then [0] else [])
    else val)

/-- The payload has the length that its type announces. -/
def ValOk : ValueType → List UInt8 → Prop
  | .string, val | .bytes, val => val.length < 2 ^ 32
  | .bool, val => val.length = 1
  | .int64, val | .float64, val => val.length = 8
  | _, val => val.length = 0

namespace Entry

def bytes (isArr : Bool) (e : Entry) : List UInt8 := keyBytes isArr e.key ++ valueBytes e.type e.val

def chunk (isArr : Bool) (e : Entry) : Chunk := ⟨e.ofs, e.bytes isArr⟩

/-- The offset of the type tag. -/
def valueOfs (isArr : Bool) (e : Entry) : ℕ := e.ofs + (keyBytes isArr e.key).length

/-- The order of an entry relative to a sought hash and key. -/
def cmp (hash : UInt32) (key : List UInt8) (e : Entry) : Ordering :=
  (compare e.hash hash).then (compare e.key key)

/-- The entry can be read back: short key, named type, payload of the right length. -/
structure Readable (isArr : Bool) (e : Entry) : Prop where
  key : if isArr then e.key = [] else e.key.length ≤ 62
  named : e.type.Named
  val : ValOk e.type e.val

end Entry

namespace SetArgs

/-- The entry that the arguments describe, at offset `o`. -/
def entry (a : SetArgs) (o : ℕ) : Entry := ⟨a.keyHash, o, a.key, a.type, a.val⟩

def cmp (a : SetArgs) : Entry → Ordering := Entry.cmp a.keyHash a.key

theorem length_keyBytes (a : SetArgs) : (keyBytes a.isAppend a.key).length = a.klen := by
  unfold keyBytes klen
  split
  · rfl
  · rename_i h
    have h₁ : 1 ≤ keyTagSize false a.key.length := by
      unfold keyTagSize; simp only [Bool.false_eq_true, if_false]; split_ifs <;> omega
    simp only [List.length_cons, List.length_append, List.length_replicate,
      Bool.eq_false_iff.mpr h]
    omega

theorem length_valueBytes (a : SetArgs) : (valueBytes a.type a.val).length = a.valTotalLen := by
  unfold valueBytes valTotalLen
  by_cases h : a.type = .string
  · simp [h]; omega
  · by_cases h' : a.type = .bytes <;> simp [h, h'] <;> omega

end SetArgs

namespace Buffer

variable {b : Buffer} {cs xs ys : List Chunk} {a : SetArgs}

theorem write_write (b : Buffer) (o : ℕ) (xs ys : List UInt8) :
    (b.write o xs).write (o + xs.length) ys = b.write o (xs ++ ys) := by
  simp only [write, overwrite_append]

theorem writeKey_eq (b : Buffer) (o : ℕ) (key : List UInt8) :
    b.writeKey o key = b.write o (.ofNat ((key.length + 1) <<< 2) :: (key ++ [0])) := by
  have h₁ := b.write_write o [.ofNat ((key.length + 1) <<< 2)] key
  have h₂ := b.write_write o (.ofNat ((key.length + 1) <<< 2) :: key) [0]
  simp only [List.length_singleton, List.singleton_append] at h₁
  simp only [List.length_cons, List.cons_append] at h₂
  rw [← h₂, ← h₁, writeKey, Nat.add_right_comm, Nat.add_assoc o]

theorem writeValue_eq (b : Buffer) (vo : ℕ) (type : ValueType) (val : List UInt8) :
    b.writeValue vo type val = b.write vo (valueBytes type val) := by
  have h₁ := b.write_write vo [type.code]
  simp only [List.length_singleton, List.singleton_append] at h₁
  unfold writeValue valueBytes
  by_cases h : type = .string ∨ type = .bytes
  · simp only [h, if_true, write32, bytes32_ofNat, h₁]
    have h₂ := b.write_write vo (type.code :: toLE 4 val.length)
    simp only [List.length_cons, length_toLE] at h₂
    rw [show vo + 1 + 4 = vo + (4 + 1) by omega, h₂]
    by_cases hs : type = .string
    · have h₃ := b.write_write vo (type.code :: toLE 4 val.length ++ val) [0]
      simp only [List.length_append, List.length_cons, length_toLE] at h₃
      simp only [hs, if_true] at h₃ ⊢
      rw [show vo + (4 + 1) + val.length = vo + (4 + 1 + val.length) by omega, h₃]
      simp
    · simp [hs]
  · simp only [h, if_false, h₁]

@[simp] theorem usedSize_writeEntry (b : Buffer) (a : SetArgs) :
    (b.writeEntry a).usedSize = b.usedSize + (a.klen + a.valTotalLen) := by
  unfold writeEntry
  split <;> simp [writeValue_eq, writeKey_eq]

@[simp] theorem length_writeEntry (b : Buffer) (a : SetArgs) :
    (b.writeEntry a).data.length = b.data.length := by
  unfold writeEntry
  split <;> simp [writeValue_eq, writeKey_eq]

/-- Writing an entry at the end of the used bytes owns its chunk. -/
theorem Owns.writeEntry (h : b.Owns cs)
    (hl : b.usedSize + (a.klen + a.valTotalLen) ≤ b.data.length) :
    (b.writeEntry a).Owns ((a.entry b.usedSize).chunk a.isAppend :: cs) := by
  have hk := a.length_keyBytes
  have hv := a.length_valueBytes
  have h₀ := h.advance hl
  have hkey : (if a.isAppend then b.advance (a.klen + a.valTotalLen)
      else (b.advance (a.klen + a.valTotalLen)).writeKey b.usedSize a.key).Owns
      (⟨b.usedSize, keyBytes a.isAppend a.key ++ List.replicate a.valTotalLen 0⟩ :: cs) := by
    split
    · rename_i ha
      have : a.klen = 0 := by simp [SetArgs.klen, ha]
      simpa [keyBytes, ha, this] using h₀
    · rename_i ha
      have hn : a.klen = a.key.length + 2 + (keyTagSize false a.key.length - 1) := by
        rw [← hk, keyBytes, if_neg ha]; simp; omega
      have hd : (List.replicate (a.klen + a.valTotalLen) (0 : UInt8)).drop (a.key.length + 2) =
          List.replicate (keyTagSize false a.key.length - 1) 0 ++
            List.replicate a.valTotalLen 0 := by
        rw [List.drop_replicate, ← List.replicate_add]; congr 1; omega
      have hw : ((b.advance (a.klen + a.valTotalLen)).write (b.usedSize + 0)
          (.ofNat ((a.key.length + 1) <<< 2) :: (a.key ++ [0]))).Owns _ :=
        Owns.write [] cs h₀ (by simp; omega)
      rw [overwrite_front (by simp; omega)] at hw
      rw [writeKey_eq]
      simpa [keyBytes, ha, hd] using hw
  have hw : (Buffer.write _ (b.usedSize + ((keyBytes a.isAppend a.key).length + 0))
      (valueBytes a.type a.val)).Owns _ := Owns.write [] cs hkey (by simp [hv])
  rw [overwrite_append_right, overwrite_front (by simp [hv]), hv, List.drop_replicate,
    Nat.sub_self, hk] at hw
  rw [Buffer.writeEntry]
  simpa only [writeValue_eq, SetArgs.entry, Entry.chunk, Entry.bytes, List.replicate_zero,
    List.append_nil, List.nil_append, Nat.add_zero] using hw

theorem Owns.writeValue {e : Entry} {isArr : Bool} (xs ys : List Chunk) (type : ValueType)
    (val : List UInt8) (h : b.Owns (xs ++ e.chunk isArr :: ys))
    (hl : (valueBytes e.type e.val).length = (valueBytes type val).length) :
    (b.writeValue (e.valueOfs isArr) type val).Owns
      (xs ++ ({ e with type := type, val := val } : Entry).chunk isArr :: ys) := by
  have hw : (b.write (e.ofs + (keyBytes isArr e.key).length) (valueBytes type val)).Owns _ :=
    Owns.write xs ys h (by simp [Entry.chunk, Entry.bytes, hl])
  rw [writeValue_eq, Entry.valueOfs]
  convert hw using 3
  have := overwrite_append_right (keyBytes isArr e.key) (valueBytes e.type e.val) 0
    (valueBytes type val)
  rw [overwrite_front hl.ge, ← hl, List.drop_length, Nat.add_zero, List.append_nil] at this
  simp [Entry.chunk, Entry.bytes, this]

end Buffer

end Lite3
