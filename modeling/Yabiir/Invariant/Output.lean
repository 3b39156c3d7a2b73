/-
  Yabiir.Invariant.Output

  One output of a merge: the record of it is in order (`OutputSound`), and its
  data file and hint file hold what the record says (`OutputOk`), be the merge
  at work, ended or failed.
-/

import Yabiir.Invariant.Files

namespace Yabiir

open Format

variable [Crc32Fast]

/-! ## The record -/

/-- A copy's entry at its place in the output. -/
def Copy.placed (c : Copy) : Nat × Entry := (c.dstPos, c.entry)

/-- A copy of a live entry as a scan finds it. -/
structure Copy.Sound (c : Copy) : Prop where
  fits : c.entry.Fits
  live : c.entry.isTombstone = false

/-- The record of an output is in order. -/
structure OutputSound (o : Output) : Prop where
  base : o.base = 0
  copies : ∀ c ∈ o.copies, c.Sound ∧ c.dst = o.id
  placed : o.copies.map Copy.placed = layout 0 o.records
  short : o.data.length ≤ maxFileLen
  hinted : o.hinted = o.copies ∨ ∃ c, o.copies = o.hinted ++ [c]
  trailer : o.trailer = true → o.hinted = o.copies ∧ o.hintTorn = []
  torn : o.torn = [] ∨ ∃ r : Record, r.Fits ∧ o.torn = r.encode
  hintTorn : o.hintTorn = [] ∨ (∃ c, o.copies = o.hinted ++ [c] ∧ o.hintTorn = c.hint) ∨
    o.hinted = o.copies ∧ o.hintTorn = hintTrailer o.hinted
  noHint : o.hintMade = false →
    o.copies = [] ∧ o.torn = [] ∧ o.hintTorn = [] ∧ o.trailer = false

section

variable {o : Output} {c : Copy}

omit [Crc32Fast] in
/-- The copy's record reads back as the entry copied. -/
theorem Copy.Sound.entry_record (h : c.Sound) : c.record.entry = c.entry := by
  obtain ⟨src, pos, ⟨header, key, value⟩, dst, dstPos⟩ := c
  obtain ⟨timestamp, keySize, valueSize, tombstone⟩ := header
  have hkey : keySize = key.length := h.fits.keySize
  have hvalue : valueSize = value.length := h.fits.valueSize
  have hlive : tombstone = false := h.live
  simp [Copy.record, Record.entry, headerOf, hkey, hvalue, hlive]

omit [Crc32Fast] in
theorem Copy.Sound.fits_record (h : c.Sound) : c.record.Fits := ⟨h.fits.key, h.fits.value⟩

omit [Crc32Fast] in
theorem encodeHints_eq (cs : List Copy) :
    encodeHints cs = encodeHintRecords (cs.map Copy.placed) := by
  rw [encodeHintRecords, List.flatMap_map]
  rfl

omit [Crc32Fast] in
@[simp] theorem encodeHints_append (cs cs' : List Copy) :
    encodeHints (cs ++ cs') = encodeHints cs ++ encodeHints cs' := by
  simp [encodeHints]

namespace OutputSound

theorem fits (h : OutputSound o) : ∀ r ∈ o.records, r.Fits := by
  intro r hr
  obtain ⟨c, hc, rfl⟩ := List.mem_map.mp hr
  exact (h.copies c hc).1.fits_record

/-- A scan of the output's data finds the copies, whatever torn write follows. -/
theorem readAllEntries (h : OutputSound o) {tail : Bytes} (htail : Torn tail) :
    readAllEntries (o.data ++ tail) = o.copies.map Copy.placed := by
  rw [h.placed]
  exact readAllEntries_encodeAll h.fits htail

theorem hintable (h : OutputSound o) {tail : Bytes} (htail : Torn tail) :
    ∀ p ∈ o.copies.map Copy.placed, Hintable (o.data ++ tail).length p := by
  intro p hp
  rw [← h.readAllEntries htail] at hp
  have hfound := mem_readAllEntries hp
  exact ⟨hfound.fits, hfound.le⟩

/-- The junk of a failed write to the data file is torn. -/
theorem torn_junk (h : OutputSound o) {junk : Bytes} (hpre : junk <+: o.torn)
    (hlt : o.torn = [] ∨ junk.length < o.torn.length) : Torn junk := by
  rcases h.torn with hnil | ⟨r, hfits, hr⟩
  · rw [hnil, List.prefix_nil] at hpre
    exact hpre ▸ torn_nil
  · rcases hlt with hnil | hlt
    · rw [hnil, List.prefix_nil] at hpre
      exact hpre ▸ torn_nil
    · rw [hr] at hpre hlt
      exact torn_of_front hfits hpre hlt

omit [Crc32Fast] in
theorem hinted_front [Crc32Fast] (h : OutputSound o) : o.hinted <+: o.copies := by
  rcases h.hinted with heq | ⟨c, hc⟩
  · exact heq ▸ List.prefix_rfl
  · exact hc ▸ List.prefix_append ..

theorem length_hintTrailer (cs : List Copy) : (hintTrailer cs).length = hintTrailerSize := by
  simp [hintTrailer, hintTrailerSize]

/-- What is written to the hint file is the front of the copies' hint records
    and four bytes. -/
theorem hints_front (h : OutputSound o) {junk : Bytes} (hpre : junk <+: o.hintTorn) :
    ∃ trailer : Bytes, trailer.length = hintTrailerSize ∧
      o.hints ++ junk <+: encodeHintRecords (o.copies.map Copy.placed) ++ trailer := by
  refine ⟨hintTrailer o.hinted, length_hintTrailer _, ?_⟩
  rw [← encodeHints_eq]
  by_cases htrailer : o.trailer = true
  · obtain ⟨hhinted, htorn⟩ := h.trailer htrailer
    rw [htorn, List.prefix_nil] at hpre
    simp [Output.hints, htrailer, hpre, hhinted]
  · have hhints : o.hints = encodeHints o.hinted := by simp [Output.hints, htrailer]
    rw [hhints]
    rcases h.hintTorn with htorn | ⟨c, hc, htorn⟩ | ⟨hhinted, htorn⟩
    · rw [htorn, List.prefix_nil] at hpre
      obtain ⟨cs, hcs⟩ := h.hinted_front
      rw [hpre, ← hcs, encodeHints_append, List.append_nil, List.append_assoc]
      exact List.prefix_append ..
    · obtain ⟨rest, hrest⟩ := hpre
      have hlast : encodeHints [c] = junk ++ rest := by
        rw [hrest, htorn]
        simp [encodeHints]
      rw [hc, encodeHints_append, hlast]
      simp only [List.append_assoc]
      exact ⟨rest ++ hintTrailer o.hinted, by simp⟩
    · obtain ⟨rest, hrest⟩ := hpre
      rw [← hhinted, ← htorn, ← hrest]
      exact ⟨rest, by simp⟩

end OutputSound

/-! ## The files -/

/-- A file that was written `bytes`, and some of `torn`, not all, by a write that
    failed. -/
def Wrote (file : FileState) (bytes torn : Bytes) : Prop :=
  ∃ junk, file.logical = bytes ++ junk ∧ junk <+: torn ∧ (torn = [] ∨ junk.length < torn.length)

/-- The data file of an output. -/
structure OutputData (o : Output) (active : FileId) (data : FileState) : Prop where
  wrote : Wrote data o.data o.torn
  flushed : o.dataFlushed = true → data.buffer = []
  linked : data.linked = true ∨ o.id < active

/-- The hint file of an output. -/
structure OutputHint (o : Output) (hint : FileState) : Prop where
  wrote : Wrote hint o.hints o.hintTorn
  flushed : o.hintFlushed = true → hint.buffer = []

/-- The files of an output hold what its record says.  In a directory that is not
    tidy a hint file of its id may have been there before. -/
structure OutputOk (tidy : Prop) (o : Output) (w : World) : Prop where
  sound : OutputSound o
  data : ∃ data, w.disk.data.lookup o.id = some data ∧ OutputData o w.active.fileId data
  hintMade : o.hintMade = true → ∃ hint, w.disk.hint.lookup o.id = some hint
  hint : tidy ∨ o.hintMade = true →
    ∀ hint, w.disk.hint.lookup o.id = some hint → OutputHint o hint

omit [Crc32Fast] in
theorem wrote_of_eq {f : FileState} {bytes : Bytes} (h : f.logical = bytes) :
    Wrote f bytes [] := ⟨[], by simp [h], List.prefix_rfl, Or.inl rfl⟩

omit [Crc32Fast] in
theorem Wrote.logical {f : FileState} {bytes : Bytes} (h : Wrote f bytes []) :
    f.logical = bytes := by
  obtain ⟨junk, hlogical, hpre, -⟩ := h
  rw [List.prefix_nil] at hpre
  simpa [hpre] using hlogical

omit [Crc32Fast] in
theorem Wrote.congr {f f' : FileState} {bytes torn : Bytes} (h : Wrote f bytes torn)
    (heq : f'.logical = f.logical) : Wrote f' bytes torn := by
  unfold Wrote
  rw [heq]
  exact h

/-- An output just opened. -/
theorem outputSound_opened (id : FileId) : OutputSound (.opened id 0) where
  base := rfl
  copies := by simp [Output.opened]
  placed := rfl
  short := by simp [Output.data, Output.records, Output.opened]
  hinted := Or.inl rfl
  trailer := by simp [Output.opened]
  torn := Or.inl rfl
  hintTorn := Or.inl rfl
  noHint := fun _ => ⟨rfl, rfl, rfl, rfl⟩

/-- More may be written only where nothing was torn and the trailer is not there. -/
theorem OutputSound.push (h : OutputSound o) (hopen : o.Open) (hhinted : o.hinted = o.copies)
    (hc : c.Sound) (hdst : c.dst = o.id) (hpos : c.dstPos = o.base + o.data.length)
    (hshort : (o.data ++ c.record.encode).length ≤ maxFileLen) : OutputSound (o.push c) := by
  have hrecords : (o.push c).records = o.records ++ [c.record] := by
    simp [Output.records, Output.push]
  refine ⟨h.base, ?_, ?_, ?_, Or.inr ⟨c, by simp [Output.push, hhinted]⟩,
    fun ht => ?_, Or.inl hopen.torn, Or.inl hopen.hintTorn, fun hm => ?_⟩
  · intro c' hc'
    rcases List.mem_append.mp hc' with hc' | hc'
    · exact h.copies c' hc'
    · cases List.mem_singleton.mp hc'
      exact ⟨hc, hdst⟩
  · have hlast : c.placed = (0 + (encodeAll o.records).length, c.record.entry) := by
      rw [hc.entry_record, Copy.placed, hpos, h.base]
      rfl
    rw [hrecords, layout_append, ← h.placed]
    simp [Output.push, layout, hlast]
  · simpa [Output.data, hrecords] using hshort
  · exact absurd (hopen.trailer.symm.trans ht) Bool.false_ne_true
  · exact absurd (hm.symm.trans hopen.hintMade) Bool.false_ne_true

/-- After a failed write of a record. -/
theorem OutputSound.tear (h : OutputSound o) (hopen : o.Open) {r : Record} (hr : r.Fits) :
    OutputSound { o with torn := r.encode, dataFlushed := false } where
  base := h.base
  copies := h.copies
  placed := h.placed
  short := h.short
  hinted := h.hinted
  trailer := h.trailer
  torn := Or.inr ⟨r, hr, rfl⟩
  hintTorn := h.hintTorn
  noHint := fun hm => absurd (hm.symm.trans hopen.hintMade) Bool.false_ne_true

theorem OutputSound.makeHint (h : OutputSound o) : OutputSound { o with hintMade := true } where
  base := h.base
  copies := h.copies
  placed := h.placed
  short := h.short
  hinted := h.hinted
  trailer := h.trailer
  torn := h.torn
  hintTorn := h.hintTorn
  noHint := fun hm => absurd hm (by simp)

theorem OutputSound.pushHint (h : OutputSound o) (hopen : o.Open) : OutputSound o.pushHint where
  base := h.base
  copies := h.copies
  placed := h.placed
  short := h.short
  hinted := Or.inl rfl
  trailer := fun ht => absurd (hopen.trailer.symm.trans ht) Bool.false_ne_true
  torn := h.torn
  hintTorn := Or.inl hopen.hintTorn
  noHint := fun hm => absurd (hm.symm.trans hopen.hintMade) Bool.false_ne_true

theorem OutputSound.close (h : OutputSound o) (hopen : o.Open) (hhinted : o.hinted = o.copies) :
    OutputSound { o with trailer := true, hintFlushed := false } where
  base := h.base
  copies := h.copies
  placed := h.placed
  short := h.short
  hinted := h.hinted
  trailer := fun _ => ⟨hhinted, hopen.hintTorn⟩
  torn := h.torn
  hintTorn := h.hintTorn
  noHint := fun hm => absurd (hm.symm.trans hopen.hintMade) Bool.false_ne_true

/-- After a failed write to the hint file. -/
theorem OutputSound.tearHint (h : OutputSound o) (hopen : o.Open) {bytes : Bytes}
    (hbytes : (∃ c, o.copies = o.hinted ++ [c] ∧ bytes = c.hint) ∨
      o.hinted = o.copies ∧ bytes = hintTrailer o.hinted) :
    OutputSound { o with hintTorn := bytes, hintFlushed := false } where
  base := h.base
  copies := h.copies
  placed := h.placed
  short := h.short
  hinted := h.hinted
  trailer := fun ht => absurd (hopen.trailer.symm.trans ht) Bool.false_ne_true
  torn := h.torn
  hintTorn := Or.inr hbytes
  noHint := fun hm => absurd (hm.symm.trans hopen.hintMade) Bool.false_ne_true

/-- The record does not depend on what is flushed. -/
theorem OutputSound.flushed (h : OutputSound o) (dataFlushed hintFlushed : Bool) :
    OutputSound { o with dataFlushed, hintFlushed } :=
  ⟨h.base, h.copies, h.placed, h.short, h.hinted, h.trailer, h.torn, h.hintTorn, h.noHint⟩

variable {tidy : Prop} {o' : Output} {w w' : World}

/-- A change to the data file. -/
theorem OutputOk.ofData (h : OutputOk tidy o w) (hsound : OutputSound o') (hid : o'.id = o.id)
    (hmade : o'.hintMade = o.hintMade) (hhints : o'.hints = o.hints)
    (htorn : o'.hintTorn = o.hintTorn) (hflushed : o'.hintFlushed = o.hintFlushed)
    (hhint : w'.disk.hint = w.disk.hint) {data : FileState}
    (hlookup : w'.disk.data.lookup o.id = some data)
    (hdata : OutputData o' w'.active.fileId data) : OutputOk tidy o' w' where
  sound := hsound
  data := ⟨data, hid ▸ hlookup, hdata⟩
  hintMade := fun hm => by
    rw [hid, hhint]
    exact h.hintMade (hmade.symm.trans hm)
  hint := fun ht hint hl => by
    rw [hid, hhint] at hl
    have hok := h.hint (hmade ▸ ht) hint hl
    exact ⟨hhints ▸ htorn ▸ hok.wrote, fun hf => hok.flushed (hflushed.symm.trans hf)⟩

/-- A change to the hint file. -/
theorem OutputOk.ofHint (h : OutputOk tidy o w) (hsound : OutputSound o') (hid : o'.id = o.id)
    (hdata : o'.data = o.data) (htorn : o'.torn = o.torn)
    (hflushed : o'.dataFlushed = o.dataFlushed) (htable : w'.disk.data = w.disk.data)
    (hactive : w'.active = w.active) {hint : FileState}
    (hlookup : w'.disk.hint.lookup o.id = some hint) (hhint : OutputHint o' hint) :
    OutputOk tidy o' w' where
  sound := hsound
  data := by
    obtain ⟨data, hl, hok⟩ := h.data
    refine ⟨data, by rw [hid, htable]; exact hl, ?_, fun hf => hok.flushed (hflushed.symm.trans hf),
      by rw [hid, hactive]; exact hok.linked⟩
    rw [hdata, htorn]
    exact hok.wrote
  hintMade := fun _ => ⟨hint, hid ▸ hlookup⟩
  hint := fun _ hint' hl => by
    rw [hid, hlookup] at hl
    cases hl
    exact hhint

/-- Steps of others at most unlink an output, and only one older than the active
    file. -/
theorem OutputOk.evolves {X : FileId → Prop} (h : OutputOk tidy o w) (hE : Evolves X w w')
    (hlt : o.id < w.nextFileId) (hX : ¬ X o.id) (hne : o.id ≠ w.active.fileId) :
    OutputOk tidy o w' := by
  obtain ⟨data, hd, hok⟩ := h.data
  have hhint := hE.hint o.id hlt hX hne
  refine ⟨h.sound, ?_, fun hm => ?_, fun ht hint hl => ?_⟩
  · obtain ⟨data', hd', hlinked⟩ := hE.stays o.id data hd
    have hsame := hE.data o.id hlt hX hne
    rw [hd, hd'] at hsame
    refine ⟨data', hd', ?_⟩
    have hfile : data'.logical = data.logical ∧ data'.buffer = data.buffer := by
      rcases hsame with hsame | hsame <;> cases hsame <;> exact ⟨rfl, rfl⟩
    refine ⟨hok.wrote.congr hfile.1, fun hf => hfile.2.trans (hok.flushed hf), ?_⟩
    rcases hlinked with hlinked | ⟨-, hlinked⟩
    · exact hok.linked.imp hlinked.trans fun h => h.trans_le hE.active
    · exact Or.inr hlinked
  · obtain ⟨hint, hl⟩ := h.hintMade hm
    rcases hhint with hsame | hsame
    · exact ⟨hint, hsame.trans hl⟩
    · exact ⟨hint.unlink, by rw [hsame, hl]; rfl⟩
  · rcases hhint with hsame | hsame
    · exact h.hint ht hint (hsame.symm.trans hl)
    · rw [hsame] at hl
      obtain ⟨hint', hl', rfl⟩ := Option.map_eq_some_iff.mp hl
      have hok' := h.hint ht hint' hl'
      exact ⟨hok'.wrote.congr rfl, hok'.flushed⟩

theorem OutputOk.agreesOff {X : FileId → Prop} (h : OutputOk tidy o w) (hA : AgreesOff X w w')
    (hX : ¬ X o.id) : OutputOk tidy o w' := by
  obtain ⟨data, hd, hok⟩ := h.data
  refine ⟨h.sound, ⟨data, (hA.data o.id hX).trans hd, hok.wrote, hok.flushed, ?_⟩, fun hm => ?_,
    fun ht hint hl => h.hint ht hint ((hA.hint o.id hX).symm.trans hl)⟩
  · rw [hA.active]
    exact hok.linked
  · rw [hA.hint o.id hX]
    exact h.hintMade hm

/-! ## Reading an output back -/

/-- A hint file that was written whole, torn writes apart, either does not
    validate or lists every copy with a hint record, and only copies. -/
theorem OutputSound.validHints (h : OutputSound o) {junk : Bytes} (hpre : junk <+: o.hintTorn)
    {n : Nat} {records : List (EntryHeader × Nat × Bytes)}
    (hvalid : validHintRecords (o.hints ++ junk) n = some records) :
    ∃ qs, records = qs.map hintRecord ∧ qs <+: o.copies.map Copy.placed ∧
      o.hinted.map Copy.placed <+: qs := by
  obtain ⟨trailer, htrailer, hfront⟩ := h.hints_front hpre
  have hshort := h.short
  have hps := h.hintable torn_nil
  rw [List.append_nil] at hps
  obtain ⟨qs, hqs, hrecords, hlength⟩ := validHintRecords_of_front hps
    (by simp only [maxFileLen] at hshort; omega) htrailer hfront hvalid
  refine ⟨qs, hrecords, hqs, ?_⟩
  rcases List.prefix_or_prefix_of_prefix (h.hinted_front.map Copy.placed) hqs with hle | hge
  · exact hle
  · obtain ⟨ds, hds⟩ := hge
    cases ds with
    | nil => exact ⟨[], by rw [List.append_nil, ← hds, List.append_nil]⟩
    | cons d ds =>
      -- four bytes cannot make up for the record of `d`
      exfalso
      have hle : (encodeHintRecords (o.hinted.map Copy.placed)).length ≤ (o.hints ++ junk).length := by
        rw [← encodeHints_eq]
        simp [Output.hints]
      rw [hlength, ← hds] at hle
      simp [hintTrailerSize, hintHeaderSize] at hle
      omega

/-- An output left alone with nothing in its buffers is a file like any other. -/
theorem OutputOk.sealedFile (h : OutputOk True o w) (hdrained : o.Drained) {data : FileState}
    (hdata : w.disk.data.lookup o.id = some data) :
    SealedFile data (w.disk.hint.open? o.id) := by
  obtain ⟨data', hd, hok⟩ := h.data
  cases hd.symm.trans hdata
  obtain ⟨junk, hlogical, hpre, hlt⟩ := hok.wrote
  have htorn := h.sound.torn_junk hpre hlt
  have hcontent : data.content = o.data ++ junk :=
    (FileState.content_eq_logical (hok.flushed hdrained.1)).trans hlogical
  refine ⟨hok.flushed hdrained.1, ⟨o.records, junk, h.sound.fits, htorn, hcontent⟩, ?_⟩
  intro hint hopen
  obtain ⟨hl, -⟩ := open?_eq_some.mp hopen
  have hhint := h.hint (Or.inl trivial) hint hl
  have hbuffer := hhint.flushed hdrained.2
  refine ⟨hbuffer, fun records hvalid => ?_⟩
  obtain ⟨junk', hlogical', hpre', -⟩ := hhint.wrote
  rw [FileState.content_eq_logical hbuffer, hlogical'] at hvalid
  obtain ⟨qs, rfl, hqs, -⟩ := h.sound.validHints hpre' hvalid
  rw [hcontent, h.sound.readAllEntries htorn]
  exact hqs.map hintRecord

end

end Yabiir
