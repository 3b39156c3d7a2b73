/-
  Yabiir.Lib.LeBytes

  Little-endian integers as byte lists, for any width: `toLeBytes w n` is the
  `w`-byte encoding of `n` (truncated to `256 ^ w`, as `to_le_bytes` after an
  `as` cast is), `ofLeBytes` the number a byte list spells.
-/

import Mathlib.Data.List.Basic
import Mathlib.Algebra.Order.Ring.Nat
import Mathlib.Tactic.Ring

namespace Yabiir

/-- A byte string. -/
abbrev Bytes := List UInt8

/-- The low `w` bytes of `n`, least significant first. -/
def toLeBytes : Nat → Nat → Bytes
  | 0, _ => []
  | w + 1, n => UInt8.ofNat n :: toLeBytes w (n / 256)

/-- The number spelled by a little-endian byte string. -/
def ofLeBytes : Bytes → Nat
  | [] => 0
  | b :: bs => b.toNat + 256 * ofLeBytes bs

@[simp] theorem length_toLeBytes (w n : Nat) : (toLeBytes w n).length = w := by
  induction w generalizing n with
  | zero => rfl
  | succ w ih => simp [toLeBytes, ih]

theorem ofLeBytes_lt (bs : Bytes) : ofLeBytes bs < 256 ^ bs.length := by
  induction bs with
  | nil => simp [ofLeBytes]
  | cons b bs ih =>
    have hb : b.toNat < 256 := b.toNat_lt
    simp only [ofLeBytes, List.length_cons, pow_succ]
    omega

/-- Decoding an encoding gives the number back, modulo the width. -/
theorem ofLeBytes_toLeBytes (w n : Nat) : ofLeBytes (toLeBytes w n) = n % 256 ^ w := by
  induction w generalizing n with
  | zero => simp [toLeBytes, ofLeBytes, Nat.mod_one]
  | succ w ih =>
    have hmod : n % (256 * 256 ^ w) = n % 256 + 256 * (n / 256 % 256 ^ w) := Nat.mod_mul
    have hhead : (UInt8.ofNat n).toNat = n % 256 := UInt8.toNat_ofNat'
    rw [toLeBytes, ofLeBytes, ih, hhead, pow_succ, Nat.mul_comm (256 ^ w) 256, hmod]

theorem ofLeBytes_toLeBytes_of_lt {w n : Nat} (h : n < 256 ^ w) :
    ofLeBytes (toLeBytes w n) = n := by
  rw [ofLeBytes_toLeBytes, Nat.mod_eq_of_lt h]

/-- A byte string is the encoding of the number it spells. -/
theorem toLeBytes_ofLeBytes (bs : Bytes) : toLeBytes bs.length (ofLeBytes bs) = bs := by
  induction bs with
  | nil => rfl
  | cons b bs ih =>
    have hb : b.toNat < 256 := b.toNat_lt
    have hhead : UInt8.ofNat (b.toNat + 256 * ofLeBytes bs) = b := by
      apply UInt8.toNat_inj.mp
      rw [UInt8.toNat_ofNat']
      omega
    have htail : (b.toNat + 256 * ofLeBytes bs) / 256 = ofLeBytes bs := by omega
    simp only [ofLeBytes, List.length_cons, toLeBytes, hhead, htail, ih]

/-- Four bytes are the encoding of the word they spell. -/
theorem toLeBytes_four {bs : Bytes} (h : bs.length = 4) : toLeBytes 4 (ofLeBytes bs) = bs := by
  have heq := toLeBytes_ofLeBytes bs
  rwa [h] at heq

theorem ofLeBytes_four_lt {bs : Bytes} (h : bs.length = 4) : ofLeBytes bs < 2 ^ 32 := by
  have hlt := ofLeBytes_lt bs
  rw [h] at hlt
  simpa using hlt

end Yabiir
