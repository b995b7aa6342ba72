import Lite3.Buffer.Api
import Lite3.Layout.Read

/-! # Reading values

Behind the type tag of a scalar the readers find the value whose image the
entry holds.
-/

namespace Lite3.Buffer

open Bytes

variable {m : Mem} {p : ℕ}

theorem readI64_eq {v : Int64} (h : payload m .int64 p = (Scalar.i64 v).image) :
    readI64 m p = v := by
  have h : slice m p 8 = toLE 8 v.toUInt64.toNat := h
  have hlt := v.toUInt64.toNat_lt
  rw [readI64, h, ofLE_toLE, Nat.mod_eq_of_lt (by omega), UInt64.ofNat_toNat]
  rfl

theorem readF64_eq {v : UInt64} (h : payload m .float64 p = (Scalar.f64 v).image) :
    readF64 m p = v := by
  have h : slice m p 8 = toLE 8 v.toNat := h
  have hlt := v.toNat_lt
  rw [readF64, h, ofLE_toLE, Nat.mod_eq_of_lt (by omega), UInt64.ofNat_toNat]

theorem readBool_eq {v : Bool} (h : payload m .bool p = (Scalar.bool v).image) :
    readBool m p = v := by
  have h : slice m p 1 = [if v then 1 else 0] := h
  have hm : m p = if v then 1 else 0 := (List.cons.inj h).1
  rw [readBool, hm]
  cases v <;> rfl

theorem readSpan_str {v : List UInt8} (h : payload m .string p = (Scalar.str v).image) :
    readSpan m p = v := h

theorem readSpan_bytes {v : List UInt8} (h : payload m .bytes p = (Scalar.bytes v).image) :
    readSpan m p = v := h

variable {β : Type} {type : ValueType} {missing mismatch : String} {f : ℕ → β}

theorem expect_found :
    expect (some (some (type, p))) type missing mismatch f = .ok (f p) := if_pos rfl

theorem lookup_of_fetch {b : Buffer} {ofs : ℕ} {key val : List UInt8} {t : ValueType}
    (h : b.fetch ofs key (djb2Hash key) false = some (some (t, p, val))) :
    b.lookup ofs key = some (some (t, p)) ∧ payload b.mem t p = val := by
  unfold fetch at h
  obtain ⟨found, hf, hfound⟩ := Option.map_eq_some_iff.mp h
  obtain ⟨⟨t', p'⟩, rfl, he⟩ := Option.map_eq_some_iff.mp hfound
  obtain ⟨rfl, rfl, rfl⟩ : t' = t ∧ p' = p ∧ payload b.mem t' p' = val := by simpa using he
  exact ⟨hf, rfl⟩

theorem lookup_of_fetch_none {b : Buffer} {ofs : ℕ} {key : List UInt8}
    (h : b.fetch ofs key (djb2Hash key) false = some none) : b.lookup ofs key = some none := by
  unfold fetch at h
  obtain ⟨found, hf, hfound⟩ := Option.map_eq_some_iff.mp h
  rw [Option.map_eq_none_iff.mp hfound] at hf
  exact hf

end Lite3.Buffer
