/-
  Yabiir.FileNames

  The names of data and hint files, and the listing of a directory
  (`src/datafile.rs`): twenty decimal digits, zeros in front, and a suffix.
  The rest of the development speaks of files by their ids; here is why it may.
-/

import Yabiir.DataFile
import Yabiir.Lib.Decimal
import Mathlib.Data.List.DropRight

namespace Yabiir

/-! ## Names -/

/-- The bytes of a string. -/
def utf8 (s : String) : Bytes := s.toUTF8.data.toList

def dataSuffix : Bytes := utf8 ".bitcask.data"
def hintSuffix : Bytes := utf8 ".bitcask.hint"

/-- The name `data_path` gives file `fileId`. -/
def dataPath (fileId : FileId) : Bytes := toDecimal 20 fileId ++ dataSuffix

/-- The name `hint_path` gives file `fileId`. -/
def hintPath (fileId : FileId) : Bytes := toDecimal 20 fileId ++ hintSuffix

/-- `str::parse::<u32>` on a string of digits: digit by digit, every step
    checked for overflow. -/
def parseU32 (digits : Bytes) : Option Nat :=
  digits.foldlM (fun n b => if 10 * n + digitValue b < 2 ^ 32 then some (10 * n + digitValue b)
    else none) 0

def parseDataFileId (name : Bytes) : Option FileId :=
  match name.dropSuffix? dataSuffix with
  | none => none
  | some stem => if stem.length ≠ 20 || !stem.all isDigitByte then none else parseU32 stem

/-- Whether `OsStr::to_str` succeeds. -/
def isUtf8 (name : Bytes) : Bool := name.toByteArray.validateUTF8

/-- The names in a directory, in the order `read_dir` gives them, which is any.
    No name is there twice. -/
structure Listing where
  names : List Bytes
  nodup : names.Nodup

/-- `DataFileSet::discover`. -/
def Listing.discover (l : Listing) : List FileId :=
  ((l.names.filter isUtf8).filterMap parseDataFileId).insertionSort (· ≤ ·)

/-! ## Parsing -/

theorem ofDecimal_append (bs : Bytes) (b : UInt8) :
    ofDecimal (bs ++ [b]) = 10 * ofDecimal bs + digitValue b := by
  unfold ofDecimal
  rw [List.reverse_append, List.reverse_singleton, List.singleton_append, List.map_cons,
    Nat.ofDigits_cons]
  simp [Nat.add_comm]

/-- The number of the digits, if a `u32` can hold it. -/
theorem parseU32_eq (digits : Bytes) :
    parseU32 digits = if ofDecimal digits < 2 ^ 32 then some (ofDecimal digits) else none := by
  induction digits using List.reverseRecOn with
  | nil => rfl
  | append_singleton bs b ih =>
    unfold parseU32 at ih ⊢
    rw [List.foldlM_append, ih, ofDecimal_append]
    by_cases hlt : ofDecimal bs < 2 ^ 32
    · rw [if_pos hlt]
      simp
    · -- a number too big stays too big
      rw [if_neg hlt, if_neg (by omega)]
      rfl

/-- The names it accepts are those `data_path` builds. -/
theorem parseDataFileId_iff {name : Bytes} {id : FileId} :
    parseDataFileId name = some id ↔ id < 2 ^ 32 ∧ name = dataPath id := by
  unfold parseDataFileId
  constructor
  · intro h
    split at h
    · cases h
    · rename_i stem hstem
      obtain ⟨suffix, rfl, hsuffix⟩ := List.dropSuffix?_eq_some_iff.mp hstem
      obtain rfl := beq_iff_eq.mp hsuffix
      split at h
      · cases h
      · rename_i hcheck
        simp only [ne_eq, Bool.or_eq_true, decide_eq_true_eq, Bool.not_eq_true', not_or, not_not,
          Bool.not_eq_false, List.all_eq_true] at hcheck
        obtain ⟨hlen, hdigits⟩ := hcheck
        rw [parseU32_eq] at h
        split at h <;> cases h
        rename_i hlt
        refine ⟨hlt, ?_⟩
        rw [dataPath, ← hlen, toDecimal_ofDecimal hdigits]
  · rintro ⟨hlt, rfl⟩
    have hstem : (dataPath id).dropSuffix? dataSuffix = some (toDecimal 20 id) :=
      List.dropSuffix?_eq_some_iff.mpr ⟨dataSuffix, rfl, beq_self_eq_true _⟩
    have hlen : (toDecimal 20 id).length = 20 := length_toDecimal (hlt.trans (by decide))
    have hdigits : (toDecimal 20 id).all isDigitByte = true :=
      List.all_eq_true.mpr fun b hb => isDigitByte_of_mem_toDecimal hb
    rw [hstem]
    dsimp only
    rw [hlen, hdigits, parseU32_eq, ofDecimal_toDecimal, if_pos hlt]
    rfl

/-! ## Listings -/

theorem utf8EncodeChar_ascii {b : UInt8} (h : b.toNat < 128) :
    String.utf8EncodeChar (Char.ofNat b.toNat) = [b] := by
  have hvalid : (b.toNat).isValidChar := Or.inl (by omega)
  have hval : (Char.ofNat b.toNat).val.toNat = b.toNat := by
    unfold Char.ofNat
    rw [dif_pos hvalid]
    rfl
  unfold String.utf8EncodeChar
  simp only [hval]
  rw [if_pos (by omega), UInt8.ofNat_toNat]

/-- A string of ASCII characters is valid UTF-8. -/
theorem isUtf8_of_ascii {bs : Bytes} (h : ∀ b ∈ bs, b.toNat < 128) : isUtf8 bs = true := by
  unfold isUtf8
  rw [ByteArray.validateUTF8_eq_true_iff]
  refine ⟨bs.map fun b => Char.ofNat b.toNat, ?_⟩
  have hchars : ∀ b ∈ bs, String.utf8EncodeChar (Char.ofNat b.toNat) = [b] := fun b hb =>
    utf8EncodeChar_ascii (h b hb)
  rw [List.utf8Encode, List.flatMap_map, List.flatMap_congr hchars, List.flatMap_singleton']

theorem isUtf8_dataPath (id : FileId) : isUtf8 (dataPath id) = true := by
  apply isUtf8_of_ascii
  intro b hb
  rcases List.mem_append.mp hb with hb | hb
  · have hdigit := isDigitByte_iff.mp (isDigitByte_of_mem_toDecimal hb)
    omega
  · have hsuffix : ∀ b ∈ dataSuffix, b.toNat < 128 := by decide +kernel
    exact hsuffix b hb

theorem Listing.mem_discover {l : Listing} {id : FileId} :
    id ∈ l.discover ↔ id < 2 ^ 32 ∧ dataPath id ∈ l.names := by
  unfold Listing.discover
  rw [List.mem_insertionSort, List.mem_filterMap]
  constructor
  · rintro ⟨name, hname, hparse⟩
    obtain ⟨hlt, rfl⟩ := parseDataFileId_iff.mp hparse
    exact ⟨hlt, (List.mem_filter.mp hname).1⟩
  · rintro ⟨hlt, hname⟩
    exact ⟨dataPath id, List.mem_filter.mpr ⟨hname, isUtf8_dataPath id⟩,
      parseDataFileId_iff.mpr ⟨hlt, rfl⟩⟩

/-- Two names of one id would be one name. -/
theorem Listing.pairwise_discover (l : Listing) : l.discover.Pairwise (· < ·) := by
  have hle : l.discover.Pairwise (· ≤ ·) := List.pairwise_insertionSort (· ≤ ·) _
  have hnodup : l.discover.Nodup := by
    unfold Listing.discover
    rw [List.Perm.nodup_iff (List.perm_insertionSort ..)]
    apply (l.nodup.filter isUtf8).filterMap
    intro name name' id hname hname'
    obtain ⟨-, rfl⟩ := parseDataFileId_iff.mp hname
    obtain ⟨-, rfl⟩ := parseDataFileId_iff.mp hname'
    rfl
  exact (hle.and hnodup).imp fun h => lt_of_le_of_ne h.1 h.2

/-- Names and ids are inverse to each other, and a listing in any order gives the
    ids of the data files that are there, ascending and each once. -/
theorem names_and_ids :
    (∀ name id, parseDataFileId name = some id ↔ id < 2 ^ 32 ∧ name = dataPath id) ∧
    ∀ l : Listing, l.discover.Pairwise (· < ·) ∧
      ∀ id, id ∈ l.discover ↔ id < 2 ^ 32 ∧ dataPath id ∈ l.names :=
  ⟨fun _ _ => parseDataFileId_iff, fun l => ⟨l.pairwise_discover, fun _ => l.mem_discover⟩⟩

/-- A listing of the directory a table of files stands for, whatever other names
    are there. -/
theorem FileTable.discover_eq {t : FileTable} {l : Listing}
    (hids : ∀ id f, t.lookup id = some f → id < 2 ^ 32)
    (hnames : ∀ id, dataPath id ∈ l.names ↔ ∃ f, t.lookup id = some f ∧ f.linked = true) :
    t.discover = l.discover := by
  apply List.Pairwise.eq_of_mem_iff t.pairwise_discover l.pairwise_discover
  intro id
  rw [t.mem_discover, l.mem_discover, hnames]
  constructor
  · rintro ⟨f, hf, hlinked⟩
    exact ⟨hids id f hf, f, hf, hlinked⟩
  · exact fun h => h.2

end Yabiir
