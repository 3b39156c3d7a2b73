/-
  Yabiir.ShortReads

  A reader may give fewer bytes than it was asked for.  However it splits a file,
  `readUpTo` finds the same bytes in it, and the scan loops find the same entries
  and records.
-/

import Yabiir.Recovery

namespace Yabiir

open Format

/-! ## Readers -/

/-- A reader of the bytes `rest`, in what pieces it likes: a call gives at least
    one byte while there is one, and no more than it was asked for. -/
class Source (R : Type) extends Read R where
  rest : R → Bytes
  read_rest : ∀ r len, (read r len).1 ++ rest (read r len).2 = rest r
  read_le : ∀ r len, (read r len).1.length ≤ len
  read_pos : ∀ r len, 0 < len → (read r len).1 = [] → rest r = []

/-- A buffer is not split. -/
instance : Source Bytes where
  rest bs := bs
  read_rest bs len := bs.take_append_drop len
  read_le bs len := List.length_take_le len bs
  read_pos bs len hlen hnil := by
    rcases List.take_eq_nil_iff.mp hnil with h | h
    · omega
    · exact h

/-- A file whose calls are answered with pieces of the sizes `sizes`, or as near
    to them as the rules allow. -/
structure Split where
  bytes : Bytes
  sizes : Nat → Nat
  calls : Nat

instance : Read Split where
  read r len :=
    let n := min len (max 1 (r.sizes r.calls))
    (r.bytes.take n, { r with bytes := r.bytes.drop n, calls := r.calls + 1 })

instance : Source Split where
  rest := Split.bytes
  read_rest r len := r.bytes.take_append_drop _
  read_le r len := (List.length_take_le _ _).trans (Nat.min_le_left ..)
  read_pos r len hlen hnil := by
    rcases List.take_eq_nil_iff.mp hnil with h | h
    · omega
    · exact h

variable {R : Type} [Source R]

/-- What the loop has gathered and what is still to come stay the same bytes;
    with a call to spare for each byte missing, it stops at `len` bytes or at the
    end of the file. -/
theorem readUpToLoop_source (calls : Nat) (r : R) (len : Nat) (acc : Bytes) (hacc : acc.length ≤ len)
    (hcalls : len - acc.length < calls) :
    (readUpToLoop calls r len acc).1 = acc ++ (Source.rest r).take (len - acc.length) ∧
      Source.rest (readUpToLoop calls r len acc).2 = (Source.rest r).drop (len - acc.length) := by
  induction calls generalizing r acc with
  | zero => omega
  | succ calls ih =>
    rw [readUpToLoop]
    by_cases hlt : acc.length < len
    · rw [if_pos hlt]
      have hrest := Source.read_rest r (len - acc.length)
      have hle := Source.read_le r (len - acc.length)
      have hpos := Source.read_pos r (len - acc.length) (by omega)
      rcases hread : Read.read r (len - acc.length) with ⟨chunk, r'⟩
      rw [hread] at hrest hle hpos
      dsimp only at hrest hle hpos
      cases chunk with
      | nil =>
        have hnil := hpos rfl
        rw [hnil, List.nil_append] at hrest
        simp [hnil, hrest]
      | cons b chunk =>
        dsimp only
        have hlen : (acc ++ b :: chunk).length = acc.length + (b :: chunk).length :=
          List.length_append
        have hone : 1 ≤ (b :: chunk).length := by simp
        have hsub : len - (acc ++ b :: chunk).length
            = len - acc.length - (b :: chunk).length := by omega
        obtain ⟨hbytes, hrest'⟩ := ih r' (acc ++ b :: chunk) (by omega) (by omega)
        rw [hbytes, hrest', hsub, ← hrest]
        have hfull : (b :: chunk).take (len - acc.length) = b :: chunk := List.take_of_length_le hle
        have hover : (b :: chunk).drop (len - acc.length) = [] := List.drop_eq_nil_of_le hle
        rw [List.take_append, List.drop_append, hfull, hover]
        simp
    · have hsub : len - acc.length = 0 := by omega
      rw [if_neg hlt, hsub]
      simp

/-- `readUpTo` takes the next `min len remaining` bytes, however they come. -/
theorem readUpTo_source (r : R) (len : Nat) :
    (readUpTo r len).1 = (readUpTo (Source.rest r) len).1 ∧
      Source.rest (readUpTo r len).2 = (readUpTo (Source.rest r) len).2 := by
  rw [readUpTo_bytes]
  exact readUpToLoop_source (len + 1) r len [] (Nat.zero_le _) (by simp)

/-! ## Entries and records -/

/-- A reading that depends on the bytes only, and leaves the bytes behind it. -/
def Unsplit {α : Type} (readR : R → α × R) (readBytes : Bytes → α × Bytes) : Prop :=
  ∀ r, (readR r).1 = (readBytes (Source.rest r)).1 ∧
    Source.rest (readR r).2 = (readBytes (Source.rest r)).2

theorem unsplit_readEntry [Crc32Fast] : Unsplit (R := R) readEntry readEntry := by
  intro r
  obtain ⟨hheader, hrest⟩ := readUpTo_source r headerSize
  unfold readEntry
  rcases hread : readUpTo r headerSize with ⟨headerBuf, r'⟩
  rcases hbytes : readUpTo (Source.rest r) headerSize with ⟨headerBuf', bs'⟩
  rw [hread, hbytes] at hheader hrest
  obtain rfl : headerBuf = headerBuf' := hheader
  obtain rfl : Source.rest r' = bs' := hrest
  dsimp only
  split
  · exact ⟨rfl, rfl⟩
  · split
    · exact ⟨rfl, rfl⟩
    · -- the body, as long as the header says
      generalize (decodeEntryHeader headerBuf).2.keySize
        + (decodeEntryHeader headerBuf).2.valueSize = bodyLen
      obtain ⟨hbody, hrest⟩ := readUpTo_source r' bodyLen
      rcases hread' : readUpTo r' bodyLen with ⟨body, r''⟩
      rcases hbytes' : readUpTo (Source.rest r') bodyLen with ⟨body', bs''⟩
      rw [hread', hbytes'] at hbody hrest
      obtain rfl : body = body' := hbody
      obtain rfl : Source.rest r'' = bs'' := hrest
      dsimp only
      split
      · exact ⟨rfl, rfl⟩
      · split <;> exact ⟨rfl, rfl⟩

theorem unsplit_readHint : Unsplit (R := R) readHint readHint := by
  intro r
  obtain ⟨hheader, hrest⟩ := readUpTo_source r hintHeaderSize
  unfold readHint
  rcases hread : readUpTo r hintHeaderSize with ⟨headerBuf, r'⟩
  rcases hbytes : readUpTo (Source.rest r) hintHeaderSize with ⟨headerBuf', bs'⟩
  rw [hread, hbytes] at hheader hrest
  obtain rfl : headerBuf = headerBuf' := hheader
  obtain rfl : Source.rest r' = bs' := hrest
  dsimp only
  split
  · exact ⟨rfl, rfl⟩
  · split
    · exact ⟨rfl, rfl⟩
    · generalize (decodeHintHeader headerBuf).1.keySize = keySize
      obtain ⟨hkey, hrest⟩ := readUpTo_source r' keySize
      rcases hread' : readUpTo r' keySize with ⟨key, r''⟩
      rcases hbytes' : readUpTo (Source.rest r') keySize with ⟨key', bs''⟩
      rw [hread', hbytes'] at hkey hrest
      obtain rfl : key = key' := hkey
      obtain rfl : Source.rest r'' = bs'' := hrest
      dsimp only
      split <;> exact ⟨rfl, rfl⟩

/-! ## Scan loops -/

/-- What a loop gets that reads on until the end of the file or until it has read
    something it stops at, in `turns` turns at most. -/
def results {S α : Type} (read : S → Option α × S) (stop : α → Bool) : Nat → S → List α
  | 0, _ => []
  | turns + 1, r =>
    match read r with
    | (none, _) => []
    | (some x, r) => if stop x then [x] else x :: results read stop turns r

/-- Scans of data files stop at a torn entry. -/
def stopsScan : EntryRead → Bool
  | .truncated => true
  | _ => false

/-- The validation of a hint file stops at a torn record. -/
def stopsValidation : HintRead → Bool
  | .truncated => true
  | _ => false

theorem Unsplit.results {α : Type} {readR : R → Option α × R} {readBytes : Bytes → Option α × Bytes}
    (h : Unsplit readR readBytes) (stop : α → Bool) (turns : Nat) (r : R) :
    results readR stop turns r = results readBytes stop turns (Source.rest r) := by
  induction turns generalizing r with
  | zero => rfl
  | succ turns ih =>
    obtain ⟨hres, hrest⟩ := h r
    unfold Yabiir.results
    rcases hread : readR r with ⟨res, r'⟩
    rcases hbytes : readBytes (Source.rest r) with ⟨res', bs'⟩
    rw [hread, hbytes] at hres hrest
    obtain rfl : res = res' := hres
    obtain rfl : Source.rest r' = bs' := hrest
    cases res with
    | none => rfl
    | some x =>
      dsimp only
      rw [ih]

/-- The loop of `scan_data_file` and `read_all_entries` over the file itself
    rather than over its bytes (`scanFrom`). -/
def scanSource [Crc32Fast] {S σ : Type} [Read S] (onEntry : σ → Nat → Entry → σ) :
    Nat → S → Nat → σ → σ
  | 0, _, _, s => s
  | turns + 1, r, pos, s =>
    match readEntry r with
    | (none, _) => s
    | (some .truncated, _) => s
    | (some (.ok entry totalLen), r) =>
      scanSource onEntry turns r (pos + totalLen) (onEntry s pos entry)
    | (some (.crcMismatch totalLen), r) => scanSource onEntry turns r (pos + totalLen) s

theorem scanSource_eq [Crc32Fast] {σ : Type} (onEntry : σ → Nat → Entry → σ) (turns : Nat) (r : R)
    (pos : Nat) (s : σ) :
    scanSource onEntry turns r pos s = scanFrom onEntry turns (Source.rest r) pos s := by
  induction turns generalizing r pos s with
  | zero => rfl
  | succ turns ih =>
    obtain ⟨hres, hrest⟩ := unsplit_readEntry r
    unfold scanSource scanFrom
    rcases hread : readEntry r with ⟨res, r'⟩
    rcases hbytes : readEntry (Source.rest r) with ⟨res', bs'⟩
    rw [hread, hbytes] at hres hrest
    obtain rfl : res = res' := hres
    obtain rfl : Source.rest r' = bs' := hrest
    cases res with
    | none => rfl
    | some x =>
      cases x with
      | truncated => rfl
      | ok entry totalLen => exact ih ..
      | crcMismatch totalLen => exact ih ..

/-- However a reader splits a file into short reads: `readUpTo` takes the next
    `min len remaining` bytes, and the loops over `readEntry` and `readHint` get
    what they get from the unsplit buffer. -/
theorem short_reads_unnoticed [Crc32Fast] (r : R) :
    (∀ len, (readUpTo r len).1 = (Source.rest r).take len ∧
      Source.rest (readUpTo r len).2 = (Source.rest r).drop len) ∧
    (∀ turns, results readEntry stopsScan turns r
      = results readEntry stopsScan turns (Source.rest r)) ∧
    (∀ turns, results readHint stopsValidation turns r
      = results readHint stopsValidation turns (Source.rest r)) ∧
    ∀ (σ : Type) (onEntry : σ → Nat → Entry → σ) (turns pos : Nat) (s : σ),
      scanSource onEntry turns r pos s = scanFrom onEntry turns (Source.rest r) pos s := by
  refine ⟨fun len => ?_, fun turns => ?_, fun turns => ?_, fun σ onEntry turns pos s => ?_⟩
  · have h := readUpTo_source r len
    rw [readUpTo_bytes] at h
    exact h
  · exact unsplit_readEntry.results stopsScan turns r
  · exact unsplit_readHint.results stopsValidation turns r
  · exact scanSource_eq onEntry turns r pos s

/-- Five bytes, one to a turn of the source: the first four are read in four turns. -/
example : (readUpTo (⟨[1, 2, 3, 4, 5], fun _ => 1, 0⟩ : Split) 4).1 = [1, 2, 3, 4] := by decide

end Yabiir
