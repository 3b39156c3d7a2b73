/-
  Yabiir.Lib.Decimal

  Decimal numbers as ASCII strings of a fixed width: `toDecimal w n` is `n` with
  zeros in front up to `w` digits, `ofDecimal` the number a string of digits
  spells.
-/

import Yabiir.Lib.LeBytes
import Mathlib.Data.Nat.Digits.Lemmas

namespace Yabiir

/-- The ASCII digit of `d < 10`. -/
def digitByte (d : Nat) : UInt8 := UInt8.ofNat (48 + d)

/-- `u8::is_ascii_digit`. -/
def isDigitByte (b : UInt8) : Bool := 48 ≤ b.toNat && b.toNat ≤ 57

def digitValue (b : UInt8) : Nat := b.toNat - 48

/-- The digits of `n`, most significant first, with zeros in front up to `w`. -/
def toDecimal (w n : Nat) : Bytes :=
  ((Nat.digits 10 n).reverse.map digitByte).leftpad w (digitByte 0)

/-- The number spelled by a string of digits. -/
def ofDecimal (bs : Bytes) : Nat := Nat.ofDigits 10 (bs.reverse.map digitValue)

theorem isDigitByte_iff {b : UInt8} : isDigitByte b = true ↔ 48 ≤ b.toNat ∧ b.toNat ≤ 57 := by
  simp [isDigitByte]

theorem toNat_digitByte {d : Nat} (h : d < 10) : (digitByte d).toNat = 48 + d := by
  unfold digitByte
  rw [UInt8.toNat_ofNat']
  omega

theorem isDigitByte_digitByte {d : Nat} (h : d < 10) : isDigitByte (digitByte d) = true := by
  rw [isDigitByte_iff, toNat_digitByte h]
  omega

theorem digitValue_digitByte {d : Nat} (h : d < 10) : digitValue (digitByte d) = d := by
  rw [digitValue, toNat_digitByte h]
  omega

theorem digitValue_lt {b : UInt8} (h : isDigitByte b = true) : digitValue b < 10 := by
  have hb := isDigitByte_iff.mp h
  unfold digitValue
  omega

theorem digitByte_digitValue {b : UInt8} (h : isDigitByte b = true) :
    digitByte (digitValue b) = b := by
  apply UInt8.toNat_inj.mp
  rw [toNat_digitByte (digitValue_lt h), digitValue]
  have hb := isDigitByte_iff.mp h
  omega

theorem isDigitByte_of_mem_toDecimal {w n : Nat} {b : UInt8} (h : b ∈ toDecimal w n) :
    isDigitByte b = true := by
  rcases List.mem_append.mp h with h | h
  · rw [List.eq_of_mem_replicate h]
    exact isDigitByte_digitByte (by omega)
  · obtain ⟨d, hd, rfl⟩ := List.mem_map.mp h
    exact isDigitByte_digitByte (Nat.digits_lt_base (by omega) (List.mem_reverse.mp hd))

theorem length_toDecimal {w n : Nat} (h : n < 10 ^ w) : (toDecimal w n).length = w := by
  have hlen : (Nat.digits 10 n).length ≤ w := (Nat.digits_length_le_iff (by omega) n).mpr h
  simp [toDecimal, hlen]

/-- The digits come back, with the zeros in front of them. -/
theorem digits_toDecimal (w n : Nat) : (toDecimal w n).reverse.map digitValue
    = Nat.digits 10 n ++ List.replicate (w - (Nat.digits 10 n).length) 0 := by
  have hdigits : ∀ d ∈ Nat.digits 10 n, (digitValue ∘ digitByte) d = id d := fun d hd =>
    digitValue_digitByte (Nat.digits_lt_base (by omega) hd)
  unfold toDecimal List.leftpad
  rw [List.reverse_append, List.map_append, List.reverse_replicate, List.map_replicate,
    digitValue_digitByte (by omega), ← List.map_reverse, List.reverse_reverse, List.map_map,
    List.map_congr_left hdigits, List.map_id, List.length_map, List.length_reverse]

theorem ofDecimal_toDecimal (w n : Nat) : ofDecimal (toDecimal w n) = n := by
  rw [ofDecimal, digits_toDecimal, Nat.ofDigits_append_replicate_zero, Nat.ofDigits_digits]

theorem ofDecimal_lt {bs : Bytes} (h : ∀ b ∈ bs, isDigitByte b = true) :
    ofDecimal bs < 10 ^ bs.length := by
  have hlt := Nat.ofDigits_lt_base_pow_length (b := 10) (l := bs.reverse.map digitValue) (by omega)
    fun d hd => by
      obtain ⟨b, hb, rfl⟩ := List.mem_map.mp hd
      exact digitValue_lt (h b (List.mem_reverse.mp hb))
  simpa [ofDecimal] using hlt

/-- A string of digits is the one its number is written as. -/
theorem toDecimal_ofDecimal {bs : Bytes} (h : ∀ b ∈ bs, isDigitByte b = true) :
    toDecimal bs.length (ofDecimal bs) = bs := by
  have hlen := length_toDecimal (ofDecimal_lt h)
  have hdigit : ∀ {bs : Bytes}, (∀ b ∈ bs, isDigitByte b = true) →
      ∀ d ∈ bs.reverse.map digitValue, d < 10 := by
    intro bs h d hd
    obtain ⟨b, hb, rfl⟩ := List.mem_map.mp hd
    exact digitValue_lt (h b (List.mem_reverse.mp hb))
  have hmap : (toDecimal bs.length (ofDecimal bs)).reverse.map digitValue
      = bs.reverse.map digitValue := by
    apply Nat.ofDigits_inj_of_len_eq (b := 10) (by omega)
    · simp [hlen]
    · exact hdigit fun b hb => isDigitByte_of_mem_toDecimal hb
    · exact hdigit h
    · exact ofDecimal_toDecimal _ _
  have hbytes := congrArg (List.map digitByte) hmap
  rw [List.map_map, List.map_map, List.map_congr_left (g := id) ?_,
    List.map_congr_left (l := bs.reverse) (g := id) ?_, List.map_id, List.map_id] at hbytes
  · exact List.reverse_injective hbytes
  · intro b hb
    exact digitByte_digitValue (h b (List.mem_reverse.mp hb))
  · intro b hb
    exact digitByte_digitValue (isDigitByte_of_mem_toDecimal (List.mem_reverse.mp hb))

end Yabiir
