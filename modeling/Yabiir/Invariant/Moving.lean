/-
  Yabiir.Invariant.Moving

  A merge that nobody disturbs, followed against the world it started in: what it
  found live and what is left to scan are the entries the keydir pointed at then,
  in order (`Moving`); the keydir has changed at the keys repointed and nowhere
  else.
-/

import Yabiir.Invariant.Merged
import Yabiir.Merge.Order

namespace Yabiir

open Format

/-- The input files of a merge: the data files below the active one. -/
def World.inputIds (w : World) : List FileId := w.disk.data.discover.filter (· < w.active.fileId)

/-- The keydir points at the entry. -/
def World.pointsAt (w : World) (x : FileId × Nat × Entry) : Bool :=
  (w.keydir.get x.2.2.key).any fun kd => kd.fileId == x.1 && kd.valuePos == valuePosOf x.2.1 x.2.2

variable [Crc32Fast]

/-- The entries that a scan of a data file finds, tombstones included. -/
def World.scan (w : World) (f : FileId) : List (FileId × Nat × Entry) :=
  (readAllEntries (w.contentOf f)).map fun p => (f, p.1, p.2)

/-- The entries of the input files that the keydir points at, in scan order. -/
def World.liveScan (w : World) : List (FileId × Nat × Entry) :=
  (w.inputIds.flatMap w.scan).filter w.pointsAt

section

variable {failing : Prop} {m : KeyMap} {w w' w₀ : World} {g g' : MergeLog} {own : FileId → Prop}
  {op : Op} {r : Op.Res op} {x y : FileId × Nat × Entry} {f id : FileId}

/-! ## What the keydir points at -/

omit [Crc32Fast] in
theorem pointsAt_iff : w.pointsAt x = true ↔
    ∃ kd, w.keydir.get x.2.2.key = some kd ∧ kd.fileId = x.1 ∧
      kd.valuePos = valuePosOf x.2.1 x.2.2 := by
  simp [World.pointsAt, Option.any_eq_true]

theorem mem_scan : x ∈ w.scan f ↔ x.1 = f ∧ x.2 ∈ readAllEntries (w.contentOf f) := by
  constructor
  · intro h
    obtain ⟨p, hp, rfl⟩ := List.mem_map.mp h
    exact ⟨rfl, hp⟩
  · rintro ⟨rfl, hp⟩
    exact List.mem_map.mpr ⟨x.2, hp, rfl⟩

/-- An entry that the keydir points at is live, and the keydir has it as it is. -/
theorem Ready.pointed (h : Ready failing m w) (hx : x.2 ∈ readAllEntries (w.contentOf x.1))
    (hp : w.pointsAt x = true) : x.2.2.isTombstone = false ∧
      w.keydir.get x.2.2.key = some (keydirEntryOf x.1 x.2.1 x.2.2) := by
  obtain ⟨kd, hkd, hfile, hpos⟩ := pointsAt_iff.mp hp
  cases hm : m x.2.2.key with
  | none => cases (h.absent _ hm).symm.trans hkd
  | some value =>
    obtain ⟨entry, hkd', hleads⟩ := h.present _ _ hm
    cases hkd.symm.trans hkd'
    obtain ⟨p, hp, hlive, -, hentry⟩ := World.scans_iff.mp hleads.scans
    rw [hfile] at hp hentry
    have hpos' : valuePosOf p.1 p.2 = valuePosOf x.2.1 x.2.2 := by
      rw [← hpos, ← hentry]
      rfl
    obtain rfl := readAllEntries_inj hp hx hpos'
    exact ⟨hlive, hkd.trans (congrArg some hentry.symm)⟩

theorem nodup_readAllEntries (bytes : Bytes) : (readAllEntries bytes).Nodup := by
  have hsorted := scanFrom_pairwise (bytes.length + 1) bytes 0 [] (by simp) (by simp)
  exact .of_map _ (hsorted.imp fun h => h.ne)

theorem nodup_scan (w : World) (f : FileId) : (w.scan f).Nodup := by
  refine List.Nodup.map (fun p q h => ?_) (nodup_readAllEntries _)
  exact (Prod.mk.inj h).2

/-- At most one entry is pointed at for each key. -/
theorem Ready.nodup_liveScan (h : Ready failing m w) :
    (w.liveScan.map fun x => x.2.2.key).Nodup := by
  have hmem : ∀ x ∈ w.liveScan, x.2 ∈ readAllEntries (w.contentOf x.1) ∧ w.pointsAt x = true := by
    intro x hx
    obtain ⟨hx, hp⟩ := List.mem_filter.mp hx
    obtain ⟨f, -, hx⟩ := List.mem_flatMap.mp hx
    obtain ⟨rfl, hx⟩ := mem_scan.mp hx
    exact ⟨hx, hp⟩
  have hinputs : w.inputIds.Nodup :=
    ((FileTable.pairwise_discover _).filter _).imp fun h => ne_of_lt h
  have hscan : (w.inputIds.flatMap w.scan).Nodup := by
    refine List.nodup_flatMap.mpr ⟨fun f _ => nodup_scan w f, hinputs.imp fun hne x hx hx' => ?_⟩
    exact hne ((mem_scan.mp hx).1.symm.trans (mem_scan.mp hx').1)
  refine List.Nodup.map_on (fun x hx y hy hkey => ?_) (hscan.filter _)
  obtain ⟨hx, hpx⟩ := hmem x hx
  obtain ⟨hy, hpy⟩ := hmem y hy
  have hget := (h.pointed hx hpx).2
  rw [hkey, (h.pointed hy hpy).2] at hget
  obtain ⟨hfile, -, hpos, -⟩ := KeydirEntry.mk.inj (Option.some.inj hget)
  obtain ⟨f, p⟩ := x
  obtain ⟨f', q⟩ := y
  obtain rfl : f' = f := hfile
  exact congrArg _ (readAllEntries_inj hx hy hpos.symm)

/-! ## What a step does to the files -/

/-- A step of a merge writes to the files of the merge, removes a file or replaces
    the active one. -/
theorem AtWork.effect (h : AtWork True own g w) (hR : MergeLog.protocol g op r g')
    (hO : perform op w = (r, w')) :
    ((w'.active = w.active ∧ ∀ id, id ∉ g'.ids →
        w'.disk.data.lookup id = w.disk.data.lookup id ∧
          w'.disk.hint.lookup id = w.disk.hint.lookup id) ∧
      (∀ f, op ≠ .removeData f) ∧ (∀ f, op ≠ .removeHint f) ∧
        ∀ highest, op ≠ .locked (.restoreActive highest)) ∨
    (∃ f, op = .removeData f ∧ (w' = w ∨ w' = w.modifyData f .unlink)) ∨
    (∃ f, op = .removeHint f ∧
      (w.disk.hint.open? f = none ∧ w' = w ∨ w' = w.modifyHint f .unlink)) ∨
    ∃ highest, op = .locked (.restoreActive highest) ∧ (w' = w ∨ w' = w.rotated) := by
  have hO' : Outcome op w r w' := Or.inl hO
  by_cases hwrite : op.isWrite = true
  · have hok := h.merge.write hwrite hR hO'
    refine Or.inl ⟨⟨hok.agrees.active, fun id hid => ?_⟩, ?_⟩
    · rw [hok.ids] at hid
      exact ⟨hok.agrees.data id hid, hok.agrees.hint id hid⟩
    · refine ⟨?_, ?_, ?_⟩ <;> rintro _ rfl <;> cases hwrite
  · cases op with
    | removeData f =>
      refine Or.inr (Or.inl ⟨f, rfl, ?_⟩)
      simp only [perform, performBase] at hO
      split at hO
      · exact Or.inl (Prod.mk.inj hO).2.symm
      · exact Or.inr (Prod.mk.inj hO).2.symm
    | removeHint f =>
      refine Or.inr (Or.inr (Or.inl ⟨f, rfl, ?_⟩))
      simp only [perform, performBase] at hO
      split at hO
      · rename_i hnone
        exact Or.inl ⟨hnone, (Prod.mk.inj hO).2.symm⟩
      · exact Or.inr (Prod.mk.inj hO).2.symm
    | locked s =>
      cases s with
      | append n e => exact hR.elim
      | activeFileId =>
        obtain ⟨-, rfl⟩ := Prod.mk.inj hO
        exact Or.inl ⟨⟨rfl, fun _ _ => ⟨rfl, rfl⟩⟩, by simp⟩
      | restoreActive highest =>
        refine Or.inr (Or.inr (Or.inr ⟨highest, rfl, ?_⟩))
        rw [perform_restoreActive] at hO
        obtain ⟨-, rfl⟩ := Prod.mk.inj hO
        split
        · exact Or.inr rfl
        · exact Or.inl rfl
    | keydirIsLive key f pos =>
      obtain ⟨-, -, rfl⟩ := h.merge.keydirIsLive hR hO'
      exact Or.inl (by simp)
    | discover =>
      obtain ⟨-, -, rfl⟩ := h.merge.discover hR hO'
      exact Or.inl (by simp)
    | readFile f =>
      obtain ⟨-, -, rfl⟩ := h.merge.readFile hR hO'
      exact Or.inl (by simp)
    | keydirCasRepoint key old new =>
      obtain ⟨-, -, hw'⟩ := h.merge.keydirCasRepoint hR hO'
      rw [hw']
      exact Or.inl (by simp)
    | fetchAddFileId | forget =>
      obtain ⟨-, rfl⟩ := Prod.mk.inj hO
      exact Or.inl ⟨⟨rfl, fun _ _ => ⟨rfl, rfl⟩⟩, by simp⟩
    | createData | createHint | writeData | writeHint | flushData | flushHint | syncData =>
      exact absurd rfl hwrite
    | _ => exact hR.elim

/-- Files that are none of its own keep their bytes. -/
theorem AtWork.contentOf_step (h : AtWork True own g w) (hR : MergeLog.protocol g op r g')
    (hO : perform op w = (r, w')) (hid : id ∉ g'.ids) : w'.contentOf id = w.contentOf id := by
  rcases h.effect hR hO with ⟨⟨-, hsame⟩, -⟩ | ⟨f, -, rfl | rfl⟩ | ⟨f, -, ⟨-, rfl⟩ | rfl⟩ |
    ⟨highest, -, rfl | rfl⟩
  · rw [World.contentOf, World.contentOf, (hsame id hid).1]
  · rfl
  · exact contentOf_unlinked w f id
  · rfl
  · rfl
  · rfl
  · exact h.files.log_rotated.2.2 id

/-! ## What is copied, and in which order -/

/-- What is left to be scanned. -/
def MergeLog.ahead (g : MergeLog) (w₀ : World) : List (FileId × Nat × Entry) :=
  g.todo ++ g.unread.flatMap fun f => liveEntries f (readAllEntries (w₀.contentOf f))

/-- A merge that began in the world `w₀`: the entries found live and those ahead that
    were live then are all of them, in scan order; of the copies, those no longer
    pending are what the keydir points at, and other keys are as they were. -/
structure Moving (w₀ : World) (g : MergeLog) (w : World) : Prop where
  start : g.activeAtStart = w₀.active.fileId
  inputs : g.inputs = w₀.inputIds
  content : ∀ id, id ∉ g.ids → w.contentOf id = w₀.contentOf id
  order : g.found ++ (g.ahead w₀).filter w₀.pointsAt = w₀.liveScan
  done : ∃ done, g.copies = done ++ g.pending ∧
    (∀ c ∈ done, w.keydir.get c.entry.key = some c.new) ∧
    ∀ key, (∀ c ∈ done, c.entry.key ≠ key) → w.keydir.get key = w₀.keydir.get key

/-- The scan of an input finds the live entries that are pointed at. -/
theorem Ready.filter_liveEntries (h : Ready failing m w) (f : FileId) :
    (liveEntries f (readAllEntries (w.contentOf f))).filter w.pointsAt
      = (w.scan f).filter w.pointsAt := by
  unfold liveEntries World.scan
  rw [List.filter_map, List.filter_filter, List.filter_map]
  congr 1
  apply List.filter_congr
  intro p hp
  cases hpoints : w.pointsAt (f, p.1, p.2) with
  | false => simp [Function.comp_apply, hpoints]
  | true =>
    obtain ⟨hlive, -⟩ := h.pointed (x := (f, p.1, p.2)) hp hpoints
    simp [Function.comp_apply, hpoints, show p.2.isTombstone = false from hlive]

theorem Moving.begun (h : Ready failing m w) : Moving w (.begun w) w where
  start := rfl
  inputs := rfl
  content := fun _ _ => rfl
  order := by
    show ((w.inputIds.flatMap _).filter w.pointsAt) = (w.inputIds.flatMap w.scan).filter w.pointsAt
    rw [List.filter_flatMap, List.filter_flatMap]
    exact List.flatMap_congr fun f _ => h.filter_liveEntries f
  done := ⟨[], rfl, fun c hc => (by cases hc), fun _ _ => rfl⟩

/-- The key of an entry found is that of no other entry that was live. -/
theorem Moving.keys (h : Moving w₀ g w) (hready : Ready failing m w₀) :
    ((g.copies.map fun c => c.entry.key) ++ (g.checked.toList.map fun x => x.2.2.key)
      ++ ((g.ahead w₀).filter w₀.pointsAt).map fun x => x.2.2.key).Nodup := by
  have hkeys := hready.nodup_liveScan
  rw [← h.order, MergeLog.found, List.map_append, List.map_append, List.map_map] at hkeys
  exact hkeys

/-- A copy has what the keydir had for its key at the start. -/
theorem Moving.copied (h : Moving w₀ g w) (hready : Ready failing m w₀) {c : Copy}
    (hc : c ∈ g.copies) : w₀.keydir.get c.entry.key = some c.old := by
  have hmem : c.source ∈ w₀.liveScan := by
    rw [← h.order]
    exact List.mem_append_left _ (List.mem_append_left _ (List.mem_map_of_mem hc))
  obtain ⟨hmem, hpoints⟩ := List.mem_filter.mp hmem
  obtain ⟨f, -, hscan⟩ := List.mem_flatMap.mp hmem
  obtain ⟨rfl, hscan⟩ := mem_scan.mp hscan
  exact (hready.pointed hscan hpoints).2

/-- Only reading an input and checking an entry change what is ahead. -/
theorem MergeLog.ahead_same (hR : protocol g op r g') (hinputs : g.inputs ≠ [])
    (hread : ∀ f, op ≠ .readFile f) (hlive : ∀ key f pos, op ≠ .keydirIsLive key f pos) :
    g'.ahead w₀ = g.ahead w₀ := by
  have hsame : g'.todo = g.todo ∧ g'.unread = g.unread := by
    unfold protocol at hR
    split at hR
    all_goals first
      | exact absurd rfl (hread _)
      | exact absurd rfl (hlive _ _ _)
      | grind [ids, init, fail, list, copied, flushedData, flushedHint, failFlush]
  rw [ahead, ahead, hsame.1, hsame.2]

/-- Only writing an entry and repointing the keydir change what is pending. -/
theorem MergeLog.pending_same (hR : protocol g op r g') (hinputs : g.inputs ≠ [])
    (hwrite : ∀ id bytes, op ≠ .writeData id bytes)
    (hcas : ∀ key old new, op ≠ .keydirCasRepoint key old new) : g'.pending = g.pending := by
  unfold protocol at hR
  split at hR
  all_goals first
    | exact absurd rfl (hwrite _ _)
    | exact absurd rfl (hcas _ _ _)
    | grind [ids, init, fail, list, read, flushedData, flushedHint, failFlush]

/-- Reading an input: its live entries come first in what is ahead. -/
theorem Moving.read (h : Moving w₀ g w) (hwork : AtWork True own g w) {r : Except IoError Bytes}
    (hR : MergeLog.protocol g (.readFile f) r g') (hO : perform (.readFile f) w = (r, w')) :
    g'.ahead w₀ = g.ahead w₀ := by
  obtain ⟨rest, hunread, htodo, -, rfl⟩ := hR
  cases r with
  | error e => rfl
  | ok bytes =>
    have hO' : Outcome (.readFile f) w (.ok bytes) w' := Or.inl hO
    have hf : f ∈ g.inputs := hwork.merge.sound.unread f (hunread ▸ List.mem_cons_self)
    have hbytes : bytes = w₀.contentOf f :=
      hO'.readFile.trans (h.content f (hwork.sourced.apart f hf))
    unfold MergeLog.ahead
    rw [hunread, htodo, hbytes]
    rfl

/-- The liveness check of an entry finds what it would have found at the start. -/
theorem Moving.check (h : Moving w₀ g w) (hready : Ready failing m w₀) (hwork : AtWork True own g w)
    {rest : List (FileId × Nat × Entry)} (htodo : g.todo = x :: rest) :
    w.pointsAt x = w₀.pointsAt x := by
  obtain ⟨done, hcopies, hrepointed, hothers⟩ := h.done
  have hx : x ∈ g.todo := htodo ▸ List.mem_cons_self
  by_cases hkey : ∃ c ∈ done, c.entry.key = x.2.2.key
  · -- the key is repointed at a copy of another entry
    obtain ⟨c, hc, hkey⟩ := hkey
    have hmem : c ∈ g.copies := hcopies ▸ List.mem_append_left _ hc
    have hnow : w.pointsAt x = false := by
      rw [World.pointsAt, ← hkey, hrepointed c hc]
      obtain ⟨bytes, hread, -, -⟩ := hwork.sourced.todo x hx
      have hinput := hwork.merge.sound.reads _ hread
      obtain ⟨o, ho, hco⟩ := List.mem_flatMap.mp hmem
      have hout := List.mem_reverse.mp ho
      have hdst : c.dst ∈ g.ids :=
        ((hwork.merge.outs o hout).sound.copies c hco).2 ▸ MergeLog.id_mem_ids hout
      have hne : c.dst ≠ x.1 := fun heq => hwork.sourced.apart _ hinput (heq ▸ hdst)
      simp [Copy.new, keydirEntryOf, hne]
    have hthen : w₀.pointsAt x = false := by
      by_contra hpoints
      have hahead : x ∈ (g.ahead w₀).filter w₀.pointsAt :=
        List.mem_filter.mpr ⟨List.mem_append_left _ hx, by simpa using hpoints⟩
      have hkeys := h.keys hready
      rw [List.nodup_append] at hkeys
      exact hkeys.2.2 _ (List.mem_append_left _ (List.mem_map_of_mem hmem)) _
        (List.mem_map_of_mem hahead) hkey
    rw [hnow, hthen]
  · have hget := hothers x.2.2.key fun c hc heq => hkey ⟨c, hc, heq⟩
    rw [World.pointsAt, World.pointsAt, hget]

theorem Moving.order_step (h : Moving w₀ g w) (hready : Ready failing m w₀)
    (hinputs : g.inputs ≠ []) (hwork : AtWork True own g w) (hR : MergeLog.protocol g op r g')
    (hO : perform op w = (r, w')) :
    g'.found ++ (g'.ahead w₀).filter w₀.pointsAt = w₀.liveScan := by
  by_cases hlive : ∃ key f pos, op = .keydirIsLive key f pos
  · obtain ⟨key, f, pos, rfl⟩ := hlive
    obtain ⟨pos', entry, rest, htodo, rfl, rfl, hchecked, rfl⟩ := hR
    obtain rfl : w.pointsAt (f, pos', entry) = r := (Prod.mk.inj hO).1
    rw [h.check hready hwork htodo, ← h.order]
    unfold MergeLog.found MergeLog.ahead
    rw [htodo, hchecked]
    dsimp only
    split
    · rename_i hpoints
      simp [hpoints, MergeLog.copies]
    · rename_i hpoints
      simp [hpoints, MergeLog.copies]
  · have hne : ∀ key f pos, op ≠ .keydirIsLive key f pos :=
      fun key f pos heq => hlive ⟨key, f, pos, heq⟩
    have hahead : g'.ahead w₀ = g.ahead w₀ := by
      by_cases hread : ∃ f, op = .readFile f
      · obtain ⟨f, rfl⟩ := hread
        exact h.read hwork hR hO
      · exact MergeLog.ahead_same hR hinputs (fun f heq => hread ⟨f, heq⟩) hne
    rw [MergeLog.found_step hR hne, hahead]
    exact h.order

/-- The next copy pending is repointed: the keydir has its key as at the start. -/
theorem Moving.repoint (h : Moving w₀ g w) (hready : Ready failing m w₀) {c : Copy}
    {rest : List Copy} (hpending : g.pending = c :: rest) {r : Bool}
    (hO : perform (.keydirCasRepoint c.entry.key c.old c.new) w = (r, w')) :
    ∃ done, g.copies = done ++ rest ∧ (∀ c ∈ done, w'.keydir.get c.entry.key = some c.new) ∧
      ∀ key, (∀ c ∈ done, c.entry.key ≠ key) → w'.keydir.get key = w₀.keydir.get key := by
  obtain ⟨done, hcopies, hrepointed, hothers⟩ := h.done
  rw [hpending] at hcopies
  obtain ⟨-, rfl⟩ := Prod.mk.inj hO
  have hkeys := h.keys hready
  rw [hcopies, List.append_assoc, List.nodup_append, List.map_append, List.nodup_append] at hkeys
  have hne : ∀ d ∈ done, d.entry.key ≠ c.entry.key := fun d hd =>
    hkeys.1.2.2 _ (List.mem_map_of_mem hd) _ (List.mem_map_of_mem List.mem_cons_self)
  have hold : w.keydir.get c.entry.key = some c.old := by
    rw [hothers _ hne]
    exact h.copied hready (hcopies ▸ List.mem_append_right _ List.mem_cons_self)
  have hself : (w.keydir.casRepoint c.entry.key c.old c.new).2.get c.entry.key = some c.new := by
    rw [Keydir.get_casRepoint_self, if_pos hold]
  refine ⟨done ++ [c], by rw [hcopies]; simp, fun d hd => ?_, fun key hkey => ?_⟩
  · rcases List.mem_append.mp hd with hd | hd
    · exact (Keydir.get_casRepoint_of_ne _ _ _ (hne d hd)).trans (hrepointed d hd)
    · cases List.mem_singleton.mp hd
      exact hself
  · have hcne : key ≠ c.entry.key := (hkey c (by simp)).symm
    exact (Keydir.get_casRepoint_of_ne _ _ _ hcne).trans
      (hothers key fun d hd => hkey d (List.mem_append_left _ hd))

theorem Moving.done_step (h : Moving w₀ g w) (hready : Ready failing m w₀) (hinputs : g.inputs ≠ [])
    (hR : MergeLog.protocol g op r g') (hO : perform op w = (r, w')) :
    ∃ done, g'.copies = done ++ g'.pending ∧
      (∀ c ∈ done, w'.keydir.get c.entry.key = some c.new) ∧
      ∀ key, (∀ c ∈ done, c.entry.key ≠ key) → w'.keydir.get key = w₀.keydir.get key := by
  have hO' : Outcome op w r w' := Or.inl hO
  obtain ⟨done, hcopies, hdone⟩ := h.done
  cases op with
  | keydirCasRepoint key old new =>
    obtain ⟨c, rest, hpending, rfl, rfl, rfl, -, hg'⟩ := id hR
    have hsame := MergeLog.copies_same hR fun id bytes heq => by cases heq
    rw [hsame, hg']
    exact h.repoint hready hpending hO
  | writeData id bytes =>
    rw [hO'.keydir rfl]
    rcases MergeLog.copies_writeData hR with ⟨hsame, hpending, -⟩ | ⟨o, x, -, -, hsame, hpending⟩
    · exact ⟨done, by rw [hsame, hpending, hcopies], hdone⟩
    · exact ⟨done, by rw [hsame, hpending, hcopies, List.append_assoc], hdone⟩
  | keydirInsert | keydirRemove => exact hR.elim
  | _ =>
    rw [hO'.keydir rfl]
    refine ⟨done, ?_, hdone⟩
    rw [MergeLog.copies_same hR (by simp), MergeLog.pending_same hR hinputs (by simp) (by simp),
      hcopies]

/-- Every step of a merge that nobody disturbs keeps it. -/
theorem Moving.step (h : Moving w₀ g w) (hready : Ready failing m w₀) (hinputs : g.inputs ≠ [])
    (hwork : AtWork True own g w) (hR : MergeLog.protocol g op r g')
    (hO : perform op w = (r, w')) : Moving w₀ g' w' where
  start := (MergeLog.plan_step hR hinputs).1.trans h.start
  inputs := (MergeLog.plan_step hR hinputs).2.1.trans h.inputs
  content := fun id hid => by
    rw [hwork.contentOf_step hR hO hid]
    exact h.content id fun hmem => hid (MergeLog.ids_mono hR hmem)
  order := h.order_step hready hinputs hwork hR hO
  done := h.done_step hready hinputs hR hO

end

end Yabiir
