import Lite3.Bytes.Basic

/-! # Hex texts

Decoding reads two digits of either case for every byte; bytes are printed with
lower-case digits.
-/

namespace Lite3

def hexCharToInt (c : UInt8) : Except String UInt8 :=
  if 48 ≤ c ∧ c ≤ 57 then .ok (c - 48)
  else if 97 ≤ c ∧ c ≤ 102 then .ok (c - 97 + 10)
  else if 65 ≤ c ∧ c ≤ 70 then .ok (c - 65 + 10)
  else .error "Invalid hex character"

/-- The loop over pairs of digits. -/
def hexPairs : List UInt8 → Except String (List UInt8)
  | hi :: lo :: s => do
    let highNibble ← hexCharToInt hi
    let lowNibble ← hexCharToInt lo
    let bytes ← hexPairs s
    return ((highNibble <<< 4) ||| lowNibble) :: bytes
  | _ => return []

def hexDecode (s : List UInt8) : Except String (List UInt8) :=
  if s.length % 2 ≠ 0 then .error "Hex string length must be even." else hexPairs s

def hexDigit (n : UInt8) : UInt8 := if n < 10 then 48 + n else 87 + n

/-- Every byte printed with `%02x`. -/
def hexText (bytes : List UInt8) : List UInt8 :=
  bytes.flatMap fun b : UInt8 => [hexDigit (b >>> 4), hexDigit (b &&& 15)]

/-- The lower-case form of a hex digit. -/
def lowerHex (c : UInt8) : UInt8 := if 65 ≤ c ∧ c ≤ 70 then c + 32 else c

variable {s bytes : List UInt8} {c n hi lo : UInt8}

theorem hexCharToInt_eq_ok (h : hexCharToInt c = .ok n) : n < 16 ∧ hexDigit n = lowerHex c := by
  unfold hexCharToInt at h
  unfold hexDigit lowerHex
  split_ifs at h with h₁ h₂ h₃ <;> obtain rfl := Except.ok.inj h <;> grind

theorem nibbles_of_byte (hhi : hi < 16) (hlo : lo < 16) :
    ((hi <<< 4) ||| lo) >>> 4 = hi ∧ ((hi <<< 4) ||| lo) &&& 15 = lo := by
  have h : ∀ a b : Fin 16, ((UInt8.ofNat a <<< 4) ||| UInt8.ofNat b) >>> 4 = UInt8.ofNat a ∧
      ((UInt8.ofNat a <<< 4) ||| UInt8.ofNat b) &&& 15 = UInt8.ofNat b := by decide
  simpa using h ⟨hi.toNat, hhi⟩ ⟨lo.toNat, hlo⟩

theorem hexPairs_nil : hexPairs [] = .ok [] := by
  rw [hexPairs]
  · rfl
  · exact fun _ _ _ h => by cases h

theorem hexPairs_cons_ok :
    hexPairs (hi :: lo :: s) = .ok bytes ↔ ∃ a b bs, hexCharToInt hi = .ok a ∧
    hexCharToInt lo = .ok b ∧ hexPairs s = .ok bs ∧ bytes = ((a <<< 4) ||| b) :: bs := by
  rw [hexPairs]
  cases hexCharToInt hi <;> cases hexCharToInt lo <;> cases hexPairs s <;>
    simp [bind, Except.bind, pure, Except.pure, eq_comm]

@[elab_as_elim]
theorem pairs_induct {P : (s : List UInt8) → s.length % 2 = 0 → Prop} (nil : P [] rfl)
    (cons : ∀ hi lo s hlen hlen', P s hlen → P (hi :: lo :: s) hlen') (s : List UInt8)
    (hlen : s.length % 2 = 0) : P s hlen := by
  induction s using hexPairs.induct with
  | case1 hi lo s ih =>
    have hs : s.length % 2 = 0 := by
      simp only [List.length_cons] at hlen
      omega
    exact cons hi lo s hs hlen (ih hs)
  | case2 s hs =>
    match s, hs with
    | [], _ => exact nil
    | [c], _ => simp at hlen
    | c :: d :: s, hs => exact (hs c d s rfl).elim

theorem hexText_of_pairs (hlen : s.length % 2 = 0) (h : hexPairs s = .ok bytes) :
    2 * bytes.length = s.length ∧ hexText bytes = s.map lowerHex := by
  induction s, hlen using pairs_induct generalizing bytes with
  | nil =>
    rw [hexPairs_nil] at h
    obtain rfl := Except.ok.inj h
    exact ⟨rfl, rfl⟩
  | cons hi lo s hlen _ ih =>
    obtain ⟨a, b, bs, ha, hb, hs, rfl⟩ := hexPairs_cons_ok.mp h
    obtain ⟨ha, hal⟩ := hexCharToInt_eq_ok ha
    obtain ⟨hb, hbl⟩ := hexCharToInt_eq_ok hb
    obtain ⟨hhi, hlo⟩ := nibbles_of_byte ha hb
    obtain ⟨hl, ht⟩ := ih hs
    constructor
    · simp only [List.length_cons]
      omega
    · rw [List.map_cons, List.map_cons, ← ht, ← hal, ← hbl]
      simp [hexText, hhi, hlo]

/-- What a text decodes to is printed as the text in lower case. -/
theorem hexText_of_decode (h : hexDecode s = .ok bytes) : hexText bytes = s.map lowerHex := by
  unfold hexDecode at h
  split_ifs at h with hlen
  exact (hexText_of_pairs (not_not.mp hlen) h).2

theorem high_lt (b : UInt8) : b >>> 4 < 16 := by
  rw [UInt8.lt_iff_toNat_lt, UInt8.toNat_shiftRight]
  have := b.toNat_lt
  simp [Nat.shiftRight_eq_div_pow]
  omega

theorem low_lt (b : UInt8) : b &&& 15 < 16 := by
  rw [UInt8.lt_iff_toNat_lt, UInt8.toNat_and]
  exact Nat.and_lt_two_pow _ (n := 4) (by decide)

theorem join_nibbles (b : UInt8) : ((b >>> 4) <<< 4) ||| (b &&& 15) = b := by
  have hb := b.toNat_lt
  have hlow : b.toNat &&& 15 = b.toNat % 2 ^ 4 := Nat.and_two_pow_sub_one_eq_mod _ 4
  apply UInt8.toNat_inj.mp
  rw [UInt8.toNat_or, UInt8.toNat_shiftLeft, UInt8.toNat_shiftRight, UInt8.toNat_and]
  simp only [UInt8.toNat_ofNat, Nat.reducePow, Nat.reduceMod]
  rw [hlow, Nat.shiftRight_eq_div_pow, Nat.mod_eq_of_lt, ← Nat.shiftLeft_add_eq_or_of_lt,
    Nat.shiftLeft_eq]
  all_goals omega

theorem hexCharToInt_hexDigit (hn : n < 16) : hexCharToInt (hexDigit n) = .ok n := by
  have h : ∀ a : Fin 16, hexCharToInt (hexDigit (UInt8.ofNat a)) = .ok (UInt8.ofNat a) := by decide
  simpa using h ⟨n.toNat, hn⟩

theorem hexText_cons (b : UInt8) (bytes : List UInt8) :
    hexText (b :: bytes) = hexDigit (b >>> 4) :: hexDigit (b &&& 15) :: hexText bytes := rfl

theorem hexDecode_hexText (bytes : List UInt8) : hexDecode (hexText bytes) = .ok bytes := by
  have h : (hexText bytes).length % 2 = 0 ∧ hexPairs (hexText bytes) = .ok bytes := by
    induction bytes with
    | nil => exact ⟨rfl, hexPairs_nil⟩
    | cons b bytes ih =>
      obtain ⟨hlen, hs⟩ := ih
      rw [hexText_cons]
      constructor
      · simp only [List.length_cons]
        omega
      · exact hexPairs_cons_ok.mpr ⟨_, _, bytes, hexCharToInt_hexDigit (high_lt b),
          hexCharToInt_hexDigit (low_lt b), hs, by rw [join_nibbles]⟩
  unfold hexDecode
  rw [if_neg (not_not.mpr h.1)]
  exact h.2

theorem hexText_digit : ∀ c ∈ hexText bytes, 48 ≤ c ∧ c < 128 := by
  have hdigit : ∀ n : UInt8, n < 16 → 48 ≤ hexDigit n ∧ hexDigit n < 128 := fun n hn => by
    unfold hexDigit
    grind
  intro c hc
  obtain ⟨b, -, hb⟩ := List.mem_flatMap.mp hc
  rcases List.mem_pair.mp hb with rfl | rfl
  · exact hdigit _ (high_lt b)
  · exact hdigit _ (low_lt b)

theorem hexText_ascii : ∀ c ∈ hexText bytes, c < 128 := fun c hc => (hexText_digit c hc).2

theorem zero_notMem_hexText : 0 ∉ hexText bytes := fun h => absurd (hexText_digit 0 h).1 (by decide)

end Lite3
