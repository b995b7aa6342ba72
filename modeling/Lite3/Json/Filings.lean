import Lite3.Buffer.Walk
import Lite3.Json.Kinds

/-! # Storing a document value by value

The values inside a document are stored one after another, each into the buffer
that the ones before it have left. A container that comes in place of a mere type
tag is put over the bytes behind the tag, and a value that comes again takes the
place of the one before only if its set goes the way of that one.
-/

namespace Lite3

open Bytes Buffer

/-- A value about to be stored, with the values of the object that it goes into. -/
structure Filing where
  buf : Buffer
  target : Target
  item : Json
  siblings : List Json

/-- The offset of the node that is made for a value. -/
def Target.home (t : Target) (b : Buffer) : Json → List ℕ
  | .atom _ => []
  | .arr _ => (t.container b true).1.toList
  | .obj _ => (t.container b false).1.toList

mutual

/-- The values stored inside a value. -/
def Json.filings (y : Yyjson) : Json → Target → Buffer → List Filing
  | .atom _, _, _ => []
  | .arr items, t, b =>
    match t.container b true with
    | (none, _) => []
    | (some o, b) => itemFilings y o items (b.started o true)
  | .obj members, t, b =>
    match t.container b false with
    | (none, _) => []
    | (some o, b) => memberFilings y (members.map Prod.snd) o members (b.started o false)

def itemFilings (y : Yyjson) (ofs : ℕ) : List Json → Buffer → List Filing
  | [], _ => []
  | item :: items, b =>
    ⟨b, .behind ofs, item, []⟩ :: (item.filings y (.behind ofs) b ++
      itemFilings y ofs items (item.store y (.behind ofs) b).2)

def memberFilings (y : Yyjson) (siblings : List Json) (ofs : ℕ) :
    List (List UInt8 × Json) → Buffer → List Filing
  | [], _ => []
  | (key, item) :: members, b =>
    ⟨b, .under ofs (cstr key), item, siblings⟩ :: (item.filings y (.under ofs (cstr key)) b ++
      memberFilings y siblings ofs members (item.store y (.under ofs (cstr key)) b).2)

end

/-- Behind each mere type tag under the key a node has been made before whose last bytes are zeros,
or the tag is the last of the used bytes and no node is split off. -/
def Buffer.Clears (b : Buffer) (homes : List ℕ) (ofs : ℕ) (key : List UInt8) : Prop :=
  ∀ s ∈ b.slots ofs, s.1 = djb2Hash key → storedKey b.mem s.2 = key →
    existingTotalLen b.mem (skipKey b.mem s.2 false) = 1 →
      skipKey b.mem s.2 false + 1 ∈ homes ∧
          slice b.mem (skipKey b.mem s.2 false + 89) 8 = List.replicate 8 0 ∨
        skipKey b.mem s.2 false + 1 = b.usedSize ∧ b.medians ofs (djb2Hash key) key false = []

instance (b : Buffer) (homes : List ℕ) (ofs : ℕ) (key : List UInt8) :
    Decidable (b.Clears homes ofs key) :=
  inferInstanceAs (Decidable (∀ s ∈ b.slots ofs, _))

mutual

/-- Arrays hold nothing but nulls, apart from those whose keys come again. -/
def Json.legible : Json → Bool
  | .atom _ => true
  | .arr items => items.all fun v => v.IsNull
  | .obj members => membersLegible members

def membersLegible : List (List UInt8 × Json) → Bool
  | [] => true
  | (key, item) :: members =>
    (item.legible || members.any fun n => cstr n.1 = cstr key) && membersLegible members

end

namespace Filing

def home (f : Filing) : List ℕ := f.target.home f.buf f.item

/-- A container finds room. -/
def Clear (homes : List ℕ) (f : Filing) : Prop :=
  match f.target with
  | .under ofs key => f.item.IsAtom ∨ f.buf.Clears homes ofs key
  | .here _ | .behind _ => True

instance (homes : List ℕ) : DecidablePred (Clear homes)
  | ⟨b, .under ofs key, item, _⟩ =>
    inferInstanceAs (Decidable (item.IsAtom ∨ b.Clears homes ofs key))
  | ⟨_, .here _, _, _⟩ | ⟨_, .behind _, _, _⟩ => inferInstanceAs (Decidable True)

/-- The nodes made by the end -/
def homes : List Filing → List ℕ → List ℕ
  | [], made => made
  | f :: fs, made => homes fs (f.home ++ made)

/-- All containers find room among the nodes made before them. -/
def AllClear : List ℕ → List Filing → Prop
  | _, [] => True
  | made, f :: fs => f.Clear made ∧ AllClear (f.home ++ made) fs

def decideAllClear : (made : List ℕ) → (fs : List Filing) → Decidable (AllClear made fs)
  | _, [] => inferInstanceAs (Decidable True)
  | made, f :: fs =>
    have := decideAllClear (f.home ++ made) fs
    inferInstanceAs (Decidable (f.Clear made ∧ AllClear (f.home ++ made) fs))

instance (made : List ℕ) (fs : List Filing) : Decidable (AllClear made fs) := decideAllClear made fs

/-- All values of the object are legible, or the set goes the way of its key. -/
def Orderly (f : Filing) : Prop :=
  match f.target with
  | .under ofs key => (∀ v ∈ f.siblings, v.legible = true) ∨ f.buf.Routed ofs key
  | .here _ | .behind _ => True

instance : DecidablePred Orderly
  | ⟨b, .under ofs key, _, siblings⟩ =>
    inferInstanceAs (Decidable ((∀ v ∈ siblings, v.legible = true) ∨ b.Routed ofs key))
  | ⟨_, .here _, _, _⟩ | ⟨_, .behind _, _, _⟩ => inferInstanceAs (Decidable True)

variable {made : List ℕ} {fs gs : List Filing}

theorem homes_append : homes (fs ++ gs) made = homes gs (homes fs made) := by
  induction fs generalizing made with
  | nil => rfl
  | cons f fs ih => exact ih

theorem allClear_append :
    AllClear made (fs ++ gs) ↔ AllClear made fs ∧ AllClear (homes fs made) gs := by
  induction fs generalizing made with
  | nil => simp [AllClear, homes]
  | cons f fs ih => simp only [List.cons_append, AllClear, homes, ih, and_assoc]

end Filing

end Lite3
