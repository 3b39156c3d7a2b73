/-
  Yabiir.Compacted

  What a merge leaves, in any single-threaded run: the inputs are gone, and the
  files it made hold the entries the keydir pointed at, in scan order
  (`Run.merges_compact`).
-/

import Yabiir.Invariant.Charted
import Yabiir.Sessions

namespace Yabiir

open Format

/-- The files a merge made: those that were not there before, the new active one
    apart. -/
def World.outputIds (w w' : World) : List FileId :=
  w'.disk.data.discover.filter fun id => id ∉ w.disk.data.discover ∧ id ≠ w'.active.fileId

variable [Crc32Fast]

/-- The entries of the files a merge made, in ascending order. -/
def World.outputScan (w w' : World) : List (FileId × Nat × Entry) :=
  (w.outputIds w').flatMap w'.scan

/-- What a merge between the worlds `w` and `w'` is to do: the inputs are gone, data
    and hint files; the file that was active is as it was; the outputs, read in
    ascending order, hold the input entries the keydir pointed at, in scan order and
    none of them a tombstone; the keydir points their keys at the copies, and others
    where it did; and every output but the last is `max_file_size` long. -/
structure Compacted (w w' : World) : Prop where
  removed : ∀ f ∈ w.inputIds, ¬ w'.Linked f ∧ w'.disk.hint.open? f = none
  active : w'.Linked w.active.fileId ∧
    w'.contentOf w.active.fileId = w.contentOf w.active.fileId
  copied : (w.outputScan w').map (fun x => x.2.2) = w.liveScan.map fun x => x.2.2
  live : ∀ x ∈ w.outputScan w', x.2.2.isTombstone = false
  repointed : ∀ x ∈ w.outputScan w',
    w'.keydir.get x.2.2.key = some (keydirEntryOf x.1 x.2.1 x.2.2) ∧
      ∃ old, w.keydir.get x.2.2.key = some old ∧ old.valueSize = x.2.2.header.valueSize ∧
        old.timestamp = x.2.2.header.timestamp
  others : ∀ key, (∀ x ∈ w.liveScan, x.2.2.key ≠ key) → w'.keydir.get key = w.keydir.get key
  full : ∀ id ∈ (w.outputIds w').dropLast, w.opts.maxFileSize ≤ (w'.contentOf id).length

/-! ## At the end of a merge -/

/-- A merge that began in `w` and has succeeded. -/
structure Finished (w : World) (own : FileId → Prop) (g : MergeLog) (u : Upkeep) (w' : World) :
    Prop where
  work : AtWork True own g w'
  aside : ∃ m, Aside False m g w'
  moving : Moving w g w'
  charted : Charted w g u w'
  filled : g.Filled w.opts.maxFileSize u
  succeeded : g.Succeeded
  owed : u.owed = none

namespace Finished

variable {failing : Prop} {m : KeyMap} {w w' : World} {own : FileId → Prop} {g : MergeLog}
  {u : Upkeep} {id f : FileId}

theorem settled (h : Finished w own g u w') : g.Settled := h.succeeded.1

theorem removed (h : Finished w own g u w') (hf : f ∈ w.inputIds) :
    ¬ w'.Linked f ∧ w'.disk.hint.open? f = none := by
  obtain ⟨m, haside⟩ := h.aside
  have hmem : f ∈ g.removed := by
    rcases h.work.sourced.due f (h.moving.inputs ▸ hf) with hmem | hmem
    · rw [h.succeeded.2.1] at hmem
      cases hmem
    · exact hmem
  refine ⟨fun hl => (haside.linked_removed h.work hmem hl).2, ?_⟩
  exact (h.charted.hints f hmem).resolve_left (by simp [h.owed])

/-- The outputs are above all files from the start. -/
theorem new (h : Finished w own g u w') (hready : Ready failing m w) (hid : id ∈ g.ids) :
    ¬ w.Linked id := by
  obtain ⟨m', haside⟩ := h.aside
  intro hl
  have habove := haside.above id hid
  have htop := hready.top id hl
  rw [h.moving.start] at habove
  exact absurd (habove.trans_le htop) (lt_irrefl _)

theorem active (h : Finished w own g u w') (hready : Ready failing m w) :
    w'.Linked w.active.fileId ∧
      w'.contentOf w.active.fileId = w.contentOf w.active.fileId := by
  have hl := hready.files.linked_active
  refine ⟨h.charted.stays _ hl fun hmem => ?_, h.moving.content _ fun hid => h.new hready hid hl⟩
  have hlt := h.work.merge.sound.inputs _ (h.work.merge.sound.removed _ hmem)
  rw [h.moving.start] at hlt
  exact lt_irrefl _ hlt

/-- Every id of the merge is an output's. -/
theorem ids (h : Finished w own g u w') : g.ids = g.outs.map Output.id := by
  rw [MergeLog.ids, h.settled.claimed, Option.toList_none, List.nil_append]

/-- The files the merge made are its outputs, the oldest first. -/
theorem outputIds (h : Finished w own g u w') (hready : Ready failing m w) :
    w.outputIds w' = g.outs.reverse.map Output.id := by
  have hsorted : (g.outs.reverse.map Output.id).Pairwise (· < ·) := by
    rw [List.map_reverse, ← h.ids, List.pairwise_reverse]
    exact h.charted.sorted
  refine ((FileTable.pairwise_discover _).filter _).eq_of_mem_iff hsorted fun id => ?_
  have hmem : id ∈ g.outs.reverse.map Output.id ↔ id ∈ g.ids := by
    rw [h.ids, List.map_reverse, List.mem_reverse]
  rw [hmem, List.mem_filter]
  constructor
  · rintro ⟨hl, hnew⟩
    obtain ⟨hnew, hactive⟩ : id ∉ w.disk.data.discover ∧ id ≠ w'.active.fileId := by
      simpa using hnew
    have hl' : w'.Linked id := by
      obtain ⟨data, hl, hlinked⟩ := (FileTable.mem_discover _ _).mp hl
      exact ⟨data, open?_eq_some.mpr ⟨hl, hlinked⟩⟩
    rcases h.charted.directory id hl' with ⟨data, hopen⟩ | hid | heq
    · exact absurd ((FileTable.mem_discover _ _).mpr ⟨data, open?_eq_some.mp hopen⟩) hnew
    · exact hid
    · exact absurd heq hactive
  · intro hid
    obtain ⟨o, ho, rfl⟩ := List.mem_map.mp (h.ids ▸ hid)
    obtain ⟨data, hopen⟩ := h.work.present o ho
    have hlt : o.id < w'.active.fileId := by
      rcases h.succeeded.2.2 with hnil | hrestored
      · rw [hnil] at ho
        cases ho
      · exact h.work.merge.restored hrestored o ho
    refine ⟨(FileTable.mem_discover _ _).mpr ⟨data, open?_eq_some.mp hopen⟩, ?_⟩
    have hnew : o.id ∉ w.disk.data.discover := fun hmem => by
      obtain ⟨data, hl, hlinked⟩ := (FileTable.mem_discover _ _).mp hmem
      exact h.new hready hid ⟨data, open?_eq_some.mpr ⟨hl, hlinked⟩⟩
    simp [hnew, ne_of_lt hlt]

/-- What a scan finds in an output. -/
theorem scan (h : Finished w own g u w') {o : Output} (ho : o ∈ g.outs) :
    w'.scan o.id = o.copies.map fun c => (c.dst, c.dstPos, c.entry) := by
  have hok := h.work.merge.outs o ho
  rw [World.scan, (hok.content_closed (h.settled.closed o ho)).2, List.map_map]
  apply List.map_congr_left
  intro c hc
  rw [(hok.sound.copies c hc).2]
  rfl

theorem outputScan (h : Finished w own g u w') (hready : Ready failing m w) :
    w.outputScan w' = g.copies.map fun c => (c.dst, c.dstPos, c.entry) := by
  rw [World.outputScan, h.outputIds hready, List.flatMap_map, MergeLog.copies, List.map_flatMap]
  exact List.flatMap_congr fun o ho => h.scan (List.mem_reverse.mp ho)

theorem found (h : Finished w own g u w') : g.found = w.liveScan := by
  have horder := h.moving.order
  rw [MergeLog.ahead, h.settled.todo, h.settled.unread] at horder
  simpa using horder

/-- The copies are those of the live entries, in order. -/
theorem copied (h : Finished w own g u w') :
    g.copies.map Copy.entry = w.liveScan.map fun x => x.2.2 :=
  MergeLog.entries_of_found h.found h.settled.checked

/-- Every copy is what the keydir points at. -/
theorem repointed (h : Finished w own g u w') : (∀ c ∈ g.copies,
      w'.keydir.get c.entry.key = some c.new) ∧
    ∀ key, (∀ c ∈ g.copies, c.entry.key ≠ key) → w'.keydir.get key = w.keydir.get key := by
  obtain ⟨done, hcopies, hdone⟩ := h.moving.done
  rw [h.settled.pending, List.append_nil] at hcopies
  exact hcopies ▸ hdone

theorem full (h : Finished w own g u w') (hready : Ready failing m w)
    (hid : id ∈ (w.outputIds w').dropLast) : w.opts.maxFileSize ≤ (w'.contentOf id).length := by
  rw [h.outputIds hready, ← List.map_dropLast, List.dropLast_reverse] at hid
  obtain ⟨o, ho, rfl⟩ := List.mem_map.mp hid
  have ho' := List.mem_reverse.mp ho
  cases houts : g.outs with
  | nil =>
    rw [houts] at ho'
    cases ho'
  | cons o' outs =>
    rw [houts] at ho'
    have hmem : o ∈ g.outs := houts ▸ List.mem_cons_of_mem _ ho'
    have hok := h.work.merge.outs o hmem
    have hfilled := h.filled
    unfold MergeLog.Filled at hfilled
    rw [h.settled.claimed] at hfilled
    have hsizes : g.sizes = o'.size :: outs.map Output.size := by
      rw [MergeLog.sizes, houts, List.map_cons]
    have hsize := (hfilled _ _ hsizes).2 o.size (List.mem_map_of_mem ho')
    rw [(hok.content_closed (h.settled.closed o hmem)).1]
    rwa [Output.size, hok.sound.base, Nat.zero_add] at hsize

theorem compacted (h : Finished w own g u w') (hready : Ready failing m w) : Compacted w w' where
  removed := fun _ => h.removed
  active := h.active hready
  copied := by
    rw [h.outputScan hready, List.map_map]
    exact h.copied
  live := fun x hx => by
    rw [h.outputScan hready] at hx
    obtain ⟨c, hc, rfl⟩ := List.mem_map.mp hx
    obtain ⟨o, ho, hc⟩ := List.mem_flatMap.mp hc
    exact ((h.work.merge.outs o (List.mem_reverse.mp ho)).sound.copies c hc).1.live
  repointed := fun x hx => by
    rw [h.outputScan hready] at hx
    obtain ⟨c, hc, rfl⟩ := List.mem_map.mp hx
    exact ⟨h.repointed.1 c hc, c.old, h.moving.copied hready hc, rfl, rfl⟩
  others := fun key hkey => by
    apply h.repointed.2
    intro c hc
    obtain ⟨x, hx, heq⟩ := List.mem_map.mp (h.copied ▸ List.mem_map_of_mem (f := Copy.entry) hc)
    rw [← heq]
    exact hkey x hx
  full := fun _ => h.full hready

end Finished

/-! ## Runs -/

section

variable {m : KeyMap} {w : World}

/-- A merge on its own, between two calls. -/
theorem Ready.compacted (h : Ready False m w) (hinputs : w.inputIds ≠ [])
    (hmerge : (w.call .merge).1 = .unit (.ok ())) (hids : (w.call .merge).2.allotted < 2 ^ 32) :
    Compacted w (w.call .merge).2 := by
  have hlook : ∀ {o : Op} {r : Op.Res o} {w' : World}, Faultless o w r w' →
      r = (perform o w).1 ∧ w' = (perform o w).2 :=
    fun ho => ⟨(congrArg Prod.fst ho).symm, (congrArg Prod.snd ho).symm⟩
  obtain ⟨p, ⟨g₁, u₁⟩, ⟨g, u⟩, ⟨⟨-, hg₁⟩, -, hu₁⟩, ⟨⟨-, -, hg⟩, -, hu⟩, hfollows, hruns, -⟩ :=
    runs_merge_along ((Engine.merge_follows w.opts).both (Engine.merge_upkeep w.opts))
      (fun a w' ho => hlook ho) (fun r w' ho => hlook ho) h.files.readWrite
      (Prog.runs_exec perform (Engine.code w.opts .merge) w)
  obtain rfl : g₁ = _ := hg₁
  obtain rfl : g = .begun w := hg
  obtain rfl : u = .init := hu.trans hu₁
  obtain ⟨⟨g, u⟩, own, ⟨hends, howed⟩, hwork, ⟨hc, ha, hmoving, hcharted, hfilled⟩, -⟩ :=
    AtWork.runs_along Prod.fst (fun _ _ _ _ hR => hR.1) (fun _ _ _ _ ho => Or.inl ho)
      (fun x w' => Carrying m x.1 w' ∧ Aside False m x.1 w' ∧ Moving w x.1 w' ∧
        Charted w x.1 x.2 w' ∧ x.1.Filled w.opts.maxFileSize x.2)
      (fun own x op w₁ r w₂ x' hwork hR ho hlt hinv => by
        obtain ⟨hc, ha, hmoving, hcharted, hfilled⟩ := hinv
        have ho' : Tolerated False op w₁ r w₂ := Faultless.tolerated ho
        exact ⟨hc.step hwork hR.1 ho'.1 hlt, ha.step hc hwork hR.1 ho' hlt,
          hmoving.step h hc.inputs hwork hR.1 ho,
          hcharted.step hc.inputs h.files.linked_active hwork hR.1 hR.2 ho, hfilled.step hR.1 hR.2⟩)
      (atWork_begun h.files) hfollows hruns hids
      ⟨.begun h hinputs, .begun h, .begun h, .begun w, fun n ns heq => by cases heq⟩
  have hsucceeded : g.Succeeded := by
    rcases hends with ⟨-, hend⟩ | ⟨⟨e, herror⟩, -⟩
    · exact hend
    · cases hmerge.symm.trans herror
  exact Finished.compacted ⟨hwork, ⟨m, ha⟩, hmoving, hcharted, hfilled, hsucceeded, howed⟩ h

/-- In every run of single calls and sessions without faults, on any directory that
    stores a map, every merge that returns `Ok` and has inputs does what it is to do,
    as long as the counter of file ids has not wrapped round. -/
theorem Run.merges_compact {disk : Disk} {n : Nat} {opts : Options} {es : List Event}
    (hstores : disk.Stores False m n) (hrun : Run Faultless (.open disk opts n false) es w)
    (hfits : ∀ e ∈ es, e.Fits) (hrefused : w.refused = false) (hinputs : w.inputIds ≠ [])
    (hmerge : (w.call .merge).1 = .unit (.ok ())) (hids : (w.call .merge).2.allotted < 2 ^ 32) :
    Compacted w (w.call .merge).2 := by
  have hle : w.allotted ≤ (w.call .merge).2.allotted := allotted_le_exec _ w
  have hrun' := hrun.mono fun _ _ _ _ ho => ho.tolerated
  have hstart : Resting False m (.open disk opts n false) := by
    apply hstores.resting opts le_rfl
    exact (hrun'.allotted_le.trans hle).trans_lt hids
  have hresting := hrun'.resting hstart hfits (hle.trans_lt hids) hrefused
  cases hresting with
  | ready h => exact h.compacted hinputs hmerge hids
  | readOnly h hro hn refused readers =>
    -- a read-only engine refuses to merge
    obtain ⟨e, hcode⟩ := code_readOnly (c := .merge) rfl hro
    unfold World.call at hmerge
    rw [opts_open, hcode] at hmerge
    cases hmerge

/-! ## At the end of the ids -/

/-- Options under which every entry fills a file. -/
def smallFiles : Options := ⟨true, false, 1⟩

/-- Two puts, and the directory opened again. -/
def twoPuts (w : World) : World :=
  ((w.call (.put [1] [2] 7)).2.call (.put [3] [4] 8)).2.reopen smallFiles

omit [Crc32Fast] in
def twoPutsEvents : List Event :=
  [.call (.put [1] [2] 7) (.unit (.ok ())), .call (.put [3] [4] 8) (.unit (.ok ())),
    .reopen smallFiles]

omit [Crc32Fast] in
theorem twoPuts_fit : ∀ e ∈ twoPutsEvents, e.Fits := by
  simp [twoPutsEvents, Event.Fits, maxKeyLen, keySizeMask]

theorem run_twoPuts (h₁ : (w.call (.put [1] [2] 7)).1 = .unit (.ok ()))
    (h₂ : ((w.call (.put [1] [2] 7)).2.call (.put [3] [4] 8)).1 = .unit (.ok ())) :
    Run Faultless w twoPutsEvents (twoPuts w) := by
  have hrun₁ := (Run.nil w).snoc (step_call w (.put [1] [2] 7))
  have hrun₂ := hrun₁.snoc (step_call _ (.put [3] [4] 8))
  rw [h₁, h₂] at hrun₂
  exact hrun₂.snoc rfl

end

omit [Crc32Fast] in
/-- Of a new directory, the merge makes three files of the two keys put, the last of
    them empty. -/
theorem compacted_twoPuts : letI := ieee
    Compacted (twoPuts (.open ⟨∅, ∅⟩ readWrite 0 false))
        ((twoPuts (.open ⟨∅, ∅⟩ readWrite 0 false)).call .merge).2 ∧
      (twoPuts (.open ⟨∅, ∅⟩ readWrite 0 false)).outputIds
        ((twoPuts (.open ⟨∅, ∅⟩ readWrite 0 false)).call .merge).2 = [2, 3, 4] :=
  letI := ieee
  ⟨Run.merges_compact Disk.stores_empty (run_twoPuts (by decide +kernel) (by decide +kernel))
    twoPuts_fit (by decide +kernel) (by decide +kernel) (by decide +kernel) (by decide +kernel),
    by decide +kernel⟩

/-- A directory whose newest data file, an empty one, has the fourth-last id. -/
def lateDirectory : Disk := ⟨AList.singleton 4294967292 .fresh, ∅⟩

theorem lateDirectory_stores {failing : Prop} :
    lateDirectory.Stores failing (fun _ => none) 4294967293 := by
  have hlookup : ∀ id f, lateDirectory.data.lookup id = some f → id = 4294967292 ∧ f = .fresh := by
    intro id f hl
    by_cases hid : id = 4294967292
    · subst hid
      exact ⟨rfl, (Option.some.inj hl).symm⟩
    · have hmem := AList.mem_lookup_iff.mp hl
      cases List.mem_singleton.mp hmem
      exact absurd rfl hid
  have hlog : ∀ id ops, lateDirectory.log id = some ops → ops = [] := by
    intro id ops hops
    obtain ⟨f, hopen, rfl⟩ := Option.map_eq_some_iff.mp hops
    obtain ⟨rfl, rfl⟩ := hlookup id f (open?_eq_some.mp hopen).1
    rfl
  have huncut : ∀ keep, lateDirectory.data.cut keep = lateDirectory.data := by
    intro keep
    apply AList.ext
    have hentries : lateDirectory.data.entries = [⟨4294967292, .fresh⟩] := rfl
    simp [FileTable.cut, hentries, FileState.cut, FileState.fresh]
  refine ⟨fun keep => ⟨huncut keep, rfl⟩, fun id f hl => ?_, fun id f hl => ?_,
    fun _ _ hl => (by cases hl), fun key id op hn => ?_, fun _ _ hm => (by cases hm),
    fun _ id ops hops => ?_⟩
  · obtain ⟨rfl, rfl⟩ := hlookup id f hl
    exact ⟨rfl, by decide⟩
  · obtain ⟨rfl, rfl⟩ := hlookup id f hl
    exact ⟨rfl, isLog_nil, fun hint hh => (by cases hh)⟩
  · obtain ⟨ops, hops, hlast⟩ := hn.1
    obtain rfl := hlog id ops hops
    cases mem_of_lastOn hlast
  · obtain ⟨f, hopen, -⟩ := Option.map_eq_some_iff.mp hops
    obtain ⟨rfl, rfl⟩ := hlookup id f (open?_eq_some.mp hopen).1
    rw [hlog _ ops hops]
    rfl

omit [Crc32Fast] in
/-- There, the outputs get the last id, 0 and 1: in ascending order, their entries are
    not in scan order. -/
theorem wrappedIds_disorder : letI := ieee
    lateDirectory.Stores False (fun _ => none) 4294967293 ∧
      Run Faultless (.open lateDirectory readWrite 4294967293 false) twoPutsEvents
        (twoPuts (.open lateDirectory readWrite 4294967293 false)) ∧
      (∀ e ∈ twoPutsEvents, e.Fits) ∧
      (twoPuts (.open lateDirectory readWrite 4294967293 false)).refused = false ∧
      (twoPuts (.open lateDirectory readWrite 4294967293 false)).inputIds ≠ [] ∧
      ((twoPuts (.open lateDirectory readWrite 4294967293 false)).call .merge).1
        = .unit (.ok ()) ∧
      ¬ Compacted (twoPuts (.open lateDirectory readWrite 4294967293 false))
        ((twoPuts (.open lateDirectory readWrite 4294967293 false)).call .merge).2 := by
  let := ieee
  refine ⟨lateDirectory_stores, run_twoPuts (by decide +kernel) (by decide +kernel), twoPuts_fit,
    by decide +kernel, by decide +kernel, by decide +kernel, fun h => ?_⟩
  have hcopied := h.copied
  revert hcopied
  decide +kernel

end Yabiir
