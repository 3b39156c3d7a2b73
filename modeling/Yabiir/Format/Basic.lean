/-
  Yabiir.Format.Basic

  What the data-file and the hint-file formats share (`src/format/mod.rs`): the
  packing of a key length and the tombstone flag into one 32-bit word, the
  reading of a fixed number of bytes from a source of short reads, and the
  checksum, which the third-party crate `crc32fast` computes.
-/

import Yabiir.Lib.LeBytes
import Mathlib.Data.Nat.Bitwise
import Mathlib.Tactic.Ring

namespace Yabiir.Format

/-! ## The checksum -/

/-- The crate `crc32fast`: `hash` of a byte string.  A `Hasher` fed piecewise
    finalizes to the hash of everything it was fed. -/
class Crc32Fast where
  hash : Bytes → UInt32

/-- One byte of the IEEE CRC-32, bit by bit in reflected form. -/
def ieeeStep (crc : UInt32) (byte : UInt8) : UInt32 :=
  (List.range 8).foldl
    (fun c _ => if c &&& 1 = 1 then (c >>> 1) ^^^ 0xEDB88320 else c >>> 1)
    (crc ^^^ byte.toUInt32)

/-- The IEEE CRC-32, what the real crate computes. -/
@[reducible] def ieee : Crc32Fast where
  hash bs := bs.foldl ieeeStep 0xFFFFFFFF ^^^ 0xFFFFFFFF

/-- The standard check value of the IEEE CRC-32: the digits `123456789`. -/
example : ieee.hash [49, 50, 51, 52, 53, 54, 55, 56, 57] = 0xCBF43926 := by decide +kernel

/-! ## Key sizes -/

def tombstoneBit : Nat := 2 ^ 31
def keySizeMask : Nat := 2 ^ 31 - 1

/-- Largest key length representable in the 31 bits below the tombstone flag. -/
def maxKeyLen : Nat := keySizeMask

/-- Header fields shared by data-file entries and hint-file records. -/
structure EntryHeader where
  timestamp : UInt32
  keySize : Nat
  valueSize : Nat
  tombstone : Bool
  deriving DecidableEq, Repr

/-- Pack a key length and the tombstone flag into one word. -/
def encodeKeySize (keyLen : Nat) (tombstone : Bool) : Nat :=
  keyLen ||| if tombstone then tombstoneBit else 0

/-- Inverse of `encodeKeySize`. -/
def decodeKeySize (raw : Nat) : Nat × Bool :=
  (raw &&& keySizeMask, raw &&& tombstoneBit != 0)

theorem encodeKeySize_eq {keyLen : Nat} (h : keyLen ≤ maxKeyLen) (tombstone : Bool) :
    encodeKeySize keyLen tombstone = keyLen + if tombstone then 2 ^ 31 else 0 := by
  have hlt : keyLen < 2 ^ 31 := by simp only [maxKeyLen, keySizeMask] at h; omega
  cases tombstone with
  | false => simp [encodeKeySize]
  | true =>
    have hor := Nat.two_pow_add_eq_or_of_lt hlt 1
    simp only [encodeKeySize, tombstoneBit, if_true]
    rw [Nat.or_comm, Nat.add_comm]
    simpa using hor.symm

theorem encodeKeySize_lt {keyLen : Nat} (h : keyLen ≤ maxKeyLen) (tombstone : Bool) :
    encodeKeySize keyLen tombstone < 256 ^ 4 := by
  rw [encodeKeySize_eq h]
  simp only [maxKeyLen, keySizeMask] at h
  cases tombstone <;> simp <;> omega

/-- The low 31 bits of a word are its remainder modulo `2 ^ 31`. -/
theorem and_keySizeMask (raw : Nat) : raw &&& keySizeMask = raw % 2 ^ 31 :=
  Nat.and_two_pow_sub_one_eq_mod raw 31

theorem decodeKeySize_fst_le (raw : Nat) : (decodeKeySize raw).1 ≤ maxKeyLen :=
  Nat.and_le_right

/-- The flag bit is set exactly when the word reaches `2 ^ 31`. -/
theorem and_tombstoneBit {raw : Nat} (h : raw < 2 ^ 32) :
    (raw &&& tombstoneBit != 0) = decide (2 ^ 31 ≤ raw) := by
  have hbit : raw &&& tombstoneBit = 2 ^ 31 * (raw.testBit 31).toNat := by
    rw [Nat.and_comm]
    exact Nat.two_pow_and raw 31
  rw [hbit]
  by_cases hge : 2 ^ 31 ≤ raw
  · have htest : raw.testBit 31 = true := by
      rw [Nat.testBit_eq_decide_div_mod_eq]
      exact decide_eq_true (by omega)
    rw [htest, decide_eq_true hge]
    rfl
  · have htest : raw.testBit 31 = false := Nat.testBit_lt_two_pow (by omega)
    rw [htest, decide_eq_false hge]
    rfl

/-- Packing a key length within the limit is undone by `decodeKeySize`. -/
theorem decodeKeySize_encodeKeySize {keyLen : Nat} (h : keyLen ≤ maxKeyLen)
    (tombstone : Bool) :
    decodeKeySize (encodeKeySize keyLen tombstone) = (keyLen, tombstone) := by
  have hlt : keyLen < 2 ^ 31 := by simp only [maxKeyLen, keySizeMask] at h; omega
  have h32 := encodeKeySize_lt h tombstone
  unfold decodeKeySize
  rw [and_tombstoneBit (by omega), and_keySizeMask, encodeKeySize_eq h]
  refine Prod.ext ?_ ?_
  · cases tombstone <;> simp only [Bool.false_eq_true, if_true, if_false] <;> omega
  · cases tombstone with
    | false =>
      rw [decide_eq_false_iff_not, if_neg Bool.false_ne_true]
      omega
    | true =>
      rw [decide_eq_true_eq, if_pos rfl]
      omega

/-- Unpacking a word is undone by packing it again. -/
theorem encodeKeySize_decodeKeySize {raw : Nat} (h : raw < 2 ^ 32) :
    encodeKeySize (decodeKeySize raw).1 (decodeKeySize raw).2 = raw := by
  rw [encodeKeySize_eq (decodeKeySize_fst_le raw)]
  unfold decodeKeySize
  rw [and_tombstoneBit h, and_keySizeMask]
  by_cases hge : 2 ^ 31 ≤ raw
  · rw [decide_eq_true hge, if_pos rfl]
    omega
  · rw [decide_eq_false hge, if_neg Bool.false_ne_true]
    omega

/-! ## Sources of bytes -/

/-- A source of bytes, as Rust's `Read`: one call asked for `len` bytes gives a
    chunk and the source after it.  An empty chunk means end of file. -/
class Read (R : Type) where
  read : R → Nat → Bytes × R

/-- A buffer read from the front gives all that is asked for, while it lasts. -/
instance : Read Bytes where
  read bs len := (bs.take len, bs.drop len)

/-- The loop of `readUpTo`: keep reading until `len` bytes are there or a call
    comes back empty.  Each further call adds a byte, so `len + 1` calls do. -/
def readUpToLoop {R : Type} [Read R] : Nat → R → Nat → Bytes → Bytes × R
  | 0, r, _, acc => (acc, r)
  | calls + 1, r, len, acc =>
    if acc.length < len then
      match Read.read r (len - acc.length) with
      | ([], r') => (acc, r')
      | (b :: chunk, r') => readUpToLoop calls r' len (acc ++ b :: chunk)
    else (acc, r)

/-- Read up to `len` bytes, stopping early only at end of file. -/
def readUpTo {R : Type} [Read R] (r : R) (len : Nat) : Bytes × R :=
  readUpToLoop (len + 1) r len []

/-- With calls to spare, the loop over a buffer stops at `len` bytes or at the
    end of the buffer. -/
theorem readUpToLoop_bytes (calls : Nat) (bs : Bytes) (len : Nat) (acc : Bytes)
    (hacc : acc.length ≤ len) :
    readUpToLoop (calls + 2) bs len acc
      = (acc ++ bs.take (len - acc.length), bs.drop (len - acc.length)) := by
  unfold readUpToLoop
  by_cases hlt : acc.length < len
  · rw [if_pos hlt]
    simp only [Read.read]
    cases hchunk : bs.take (len - acc.length) with
    | nil => simp
    | cons b chunk =>
      -- one chunk is all a buffer has to give, so the next call ends the loop
      have hlen : (b :: chunk).length = min (len - acc.length) bs.length := by
        rw [← hchunk, List.length_take]
      simp only [readUpToLoop]
      by_cases hmore : (acc ++ b :: chunk).length < len
      · have hdrop : bs.drop (len - acc.length) = [] := by
          simp only [List.length_append] at hmore
          exact List.drop_eq_nil_of_le (by omega)
        rw [if_pos hmore, hdrop]
        simp [Read.read]
      · rw [if_neg hmore]
  · have hsub : len - acc.length = 0 := by omega
    rw [if_neg hlt, hsub]
    simp

/-- From a buffer, `readUpTo` takes the next `min len remaining` bytes. -/
theorem readUpTo_bytes (bs : Bytes) (len : Nat) :
    readUpTo bs len = (bs.take len, bs.drop len) := by
  cases len with
  | zero => simp [readUpTo, readUpToLoop]
  | succ len =>
    rw [readUpTo, readUpToLoop_bytes len bs (len + 1) [] (Nat.zero_le _)]
    simp

end Yabiir.Format
