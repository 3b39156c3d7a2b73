/-
  Yabiir.Invariant.Charted

  The files of a merge that nobody disturbs: every output but the current one is
  long enough (`MergeLog.Filled`), the ids of the outputs ascend, and apart from
  them, from the active file and from what was there at the start there are no
  files (`Charted`).
-/

import Yabiir.Invariant.Moving
import Yabiir.Merge.Upkeep

namespace Yabiir

open Format

variable [Crc32Fast] {w w' w₀ : World} {g g' : MergeLog} {own : FileId → Prop} {op : Op}
  {r : Op.Res op} {f id : FileId}

/-! ## How long the outputs are -/

/-- How long the data file of an output is. -/
def Output.size (o : Output) : Nat := o.base + o.data.length

/-- How long the outputs are, the current one first. -/
def MergeLog.sizes (g : MergeLog) : List Nat := g.outs.map Output.size

theorem MergeLog.sizes_flushedData :
    (g.flushedData id).claimed = g.claimed ∧ (g.flushedData id).sizes = g.sizes := by
  unfold sizes flushedData
  rw [List.map_map]
  refine ⟨rfl, List.map_congr_left fun o _ => ?_⟩
  rw [Function.comp_apply]
  split <;> rfl

theorem MergeLog.sizes_flushedHint :
    (g.flushedHint id).claimed = g.claimed ∧ (g.flushedHint id).sizes = g.sizes := by
  unfold sizes flushedHint
  rw [List.map_map]
  refine ⟨rfl, List.map_congr_left fun o _ => ?_⟩
  rw [Function.comp_apply]
  split <;> rfl

/-- Outputs grow by what is written to them. -/
theorem Output.size_push {o : Output} (c : Copy) :
    (o.push c).size = o.size + c.record.encode.length := by
  simp [Output.size, Output.push, Output.data, Output.records, encodeAll, Nat.add_assoc]

/-- Only the drawing of an id, the creation of an output and the writing of an
    entry change the outputs or their lengths. -/
theorem MergeLog.sizes_same (hR : protocol g op r g') (hop : op ≠ .fetchAddFileId)
    (hcreate : ∀ id, op ≠ .createData id) (hwrite : ∀ id bytes, op ≠ .writeData id bytes) :
    g'.claimed = g.claimed ∧ g'.sizes = g.sizes := by
  unfold protocol at hR
  split at hR
  all_goals first
    | exact absurd rfl hop
    | exact absurd rfl (hcreate _)
    | exact absurd rfl (hwrite _ _)
    | grind [sizes_flushedData, sizes_flushedHint, sizes, Output.size, Output.data, Output.records,
        init, fail, list, read, failFlush, Output.pushHint]

/-- The rules know the length of the current output, and all others are long
    enough. -/
def MergeLog.Filled (maxFileSize : Nat) (g : MergeLog) (u : Upkeep) : Prop :=
  match g.claimed with
  | none => ∀ n ns, g.sizes = n :: ns → u.length = some n ∧ ∀ k ∈ ns, maxFileSize ≤ k
  | some _ => ∀ k ∈ g.sizes, maxFileSize ≤ k

theorem MergeLog.Filled.step {n : Nat} {u u' : Upkeep} (h : g.Filled n u)
    (hR : MergeLog.protocol g op r g') (hU : Upkeep.protocol n u op r u') : g'.Filled n u' := by
  have hsame : op ≠ .fetchAddFileId → (∀ id, op ≠ .createData id) →
      (∀ id bytes, op ≠ .writeData id bytes) → u'.length = u.length → g'.Filled n u' := by
    intro hop hcreate hwrite hlength
    obtain ⟨hclaimed, hsizes⟩ := MergeLog.sizes_same hR hop hcreate hwrite
    unfold Filled
    rw [hclaimed, hsizes, hlength]
    exact h
  cases op with
  | fetchAddFileId =>
    obtain ⟨hclaimed, -, -, rfl⟩ := hR
    obtain ⟨-, hfull, rfl⟩ := hU
    -- the current output is long enough for a new one to be begun
    unfold Filled at h
    rw [hclaimed] at h
    intro k hk
    cases hsizes : g.sizes with
    | nil =>
      have hk' : k ∈ g.sizes := hk
      rw [hsizes] at hk'
      cases hk'
    | cons n' ns =>
      obtain ⟨hlength, hns⟩ := h n' ns hsizes
      have hk' : k ∈ g.sizes := hk
      rw [hsizes] at hk'
      rcases List.mem_cons.mp hk' with rfl | hk'
      · exact hfull _ hlength
      · exact hns k hk'
  | createData id =>
    obtain ⟨hclaimed, -, rfl⟩ := hR
    obtain ⟨-, rfl⟩ := hU
    unfold Filled at h
    rw [hclaimed] at h
    cases r with
    | error e =>
      show MergeLog.Filled n g.fail _
      unfold Filled fail
      dsimp only
      rw [hclaimed]
      exact h
    | ok base =>
      intro n' ns hsizes
      obtain ⟨rfl, rfl⟩ := List.cons.inj hsizes
      exact ⟨rfl, h⟩
  | writeData id bytes =>
    obtain ⟨o, outs, x, houts, -, -, -, -, rfl, rfl⟩ := hR
    obtain ⟨-, rfl⟩ := hU
    have hsizes : g.sizes = o.size :: outs.map Output.size := by
      rw [sizes, houts, List.map_cons]
    unfold Filled at h ⊢
    rw [hsizes] at h
    cases r with
    | error e => exact h
    | ok _ =>
      have hsizes' : (g.copied o outs x).sizes
          = (o.size + (copyTo o x).record.encode.length) :: outs.map Output.size := by
        show (o.push (copyTo o x)).size :: _ = _
        rw [Output.size_push]
      show match g.claimed with | none => _ | some _ => _
      rw [hsizes']
      cases hclaimed : g.claimed with
      | none =>
        rw [hclaimed] at h
        intro n' ns heq
        obtain ⟨rfl, rfl⟩ := List.cons.inj heq
        obtain ⟨hlength, hns⟩ := h _ _ rfl
        exact ⟨by rw [hlength]; rfl, hns⟩
      | some id =>
        rw [hclaimed] at h
        intro k hk
        rcases List.mem_cons.mp hk with rfl | hk
        · exact (h _ List.mem_cons_self).trans (Nat.le_add_right _ _)
        · exact h k (List.mem_cons_of_mem _ hk)
  | removeData f =>
    obtain ⟨-, rfl⟩ := id hU
    exact hsame (by simp) (by simp) (by simp) rfl
  | removeHint f =>
    obtain ⟨-, -, rfl⟩ := id hU
    exact hsame (by simp) (by simp) (by simp) rfl
  | locked s =>
    cases s with
    | append => exact hR.elim
    | _ =>
      obtain ⟨-, rfl⟩ := id hU
      exact hsame (by simp) (by simp) (by simp) rfl
  | _ =>
    obtain ⟨-, rfl⟩ := id hU
    exact hsame (by simp) (by simp) (by simp) rfl

/-! ## Which files there are -/

/-- A merge gets new ids from the counter only. -/
theorem MergeLog.ids_same (hR : protocol g op r g') : g'.ids = g.ids ∨
    ∃ id, (⟨op, r⟩ : Σ op, Op.Res op) = ⟨.fetchAddFileId, id⟩ ∧ g'.ids = id :: g.ids := by
  unfold protocol at hR
  split at hR
  all_goals grind [ids_flushedData, ids_flushedHint, ids, init, fail, list, read, copied, failFlush,
    Output.push, Output.pushHint, Output.opened]

/-- An input removed is not among the ids of the merge. -/
theorem AtWork.apart_step (h : AtWork True own g w) (hR : MergeLog.protocol g op r g')
    (hO : perform op w = (r, w')) (hf : f ∈ g.removed) : f ∉ g'.ids := by
  have hinput := h.merge.sound.removed f hf
  rcases MergeLog.ids_same hR with hids | ⟨id, heq, hids⟩
  · rw [hids]
    exact h.sourced.apart f hinput
  · obtain ⟨rfl, hr⟩ := Sigma.mk.inj heq
    cases hr
    obtain ⟨rfl, -⟩ := Prod.mk.inj hO
    obtain ⟨data, hl⟩ := h.merge.inputs f hinput
    rw [hids]
    intro hmem
    rcases List.mem_cons.mp hmem with rfl | hmem
    · exact absurd (h.files.lt_of_lookup hl) (lt_irrefl _)
    · exact h.sourced.apart f hinput hmem

omit [Crc32Fast] in
theorem linked_of_unlinked (hl : (w.modifyData f .unlink).Linked id) : w.Linked id := by
  have hlookup : (w.modifyData f .unlink).disk.data.lookup id
      = if id = f then (w.disk.data.lookup f).map .unlink else w.disk.data.lookup id :=
    FileTable.lookup_modify w.disk.data f id .unlink
  by_cases hid : id = f
  · obtain ⟨data, hopen⟩ := hl
    obtain ⟨hl, hlinked⟩ := open?_eq_some.mp hopen
    rw [hlookup, if_pos hid] at hl
    obtain ⟨data', -, rfl⟩ := Option.map_eq_some_iff.mp hl
    cases hlinked
  · rw [if_neg hid] at hlookup
    rw [World.Linked, ← open?_congr hlookup]
    exact hl

omit [Crc32Fast] in
/-- Removing a hint file removes it and no other. -/
theorem hint_unlinked (f id : FileId) : (w.modifyHint f .unlink).disk.hint.open? id
    = if id = f then none else w.disk.hint.open? id := by
  have hlookup : (w.modifyHint f .unlink).disk.hint.lookup id
      = if id = f then (w.disk.hint.lookup f).map .unlink else w.disk.hint.lookup id :=
    FileTable.lookup_modify w.disk.hint f id .unlink
  by_cases hid : id = f
  · rw [FileTable.open?, hlookup, if_pos hid, if_pos hid]
    cases w.disk.hint.lookup f <;> simp
  · rw [if_neg hid] at hlookup ⊢
    exact open?_congr hlookup

/-- A merge that began in the world `w₀`: its outputs have ascending ids; the files
    are those from the start, its own and the active one, which is the one from the
    start until it is restored; the inputs removed have no hint files,
    and no other file is gone. -/
structure Charted (w₀ : World) (g : MergeLog) (u : Upkeep) (w : World) : Prop where
  sorted : g.ids.Pairwise (· > ·)
  directory : ∀ id, w.Linked id → w₀.Linked id ∨ id ∈ g.ids ∨ id = w.active.fileId
  active : u.restored = false → w.active.fileId = w₀.active.fileId
  stays : ∀ id, w₀.Linked id → id ∉ g.removed → w.Linked id
  hints : ∀ f ∈ g.removed, u.owed = some f ∨ w.disk.hint.open? f = none

omit [Crc32Fast] in
theorem Charted.begun (w : World) : Charted w (.begun w) .init w where
  sorted := .nil
  directory := fun _ h => Or.inl h
  active := fun _ => rfl
  stays := fun _ h _ => h
  hints := fun f hf => by cases hf

omit [Crc32Fast] in
/-- What a step does to the rules' state, removals and the restoring apart. -/
theorem Upkeep.protocol_same {n : Nat} {u u' : Upkeep} (hU : Upkeep.protocol n u op r u')
    (hremove : ∀ f, op ≠ .removeData f) (hhint : ∀ f, op ≠ .removeHint f)
    (hrestore : ∀ highest, op ≠ .locked (.restoreActive highest)) :
    u.Idle ∧ u'.owed = u.owed ∧ u'.restored = u.restored := by
  cases op with
  | removeData f => exact absurd rfl (hremove f)
  | removeHint f => exact absurd rfl (hhint f)
  | locked s =>
    cases s with
    | restoreActive highest => exact absurd rfl (hrestore highest)
    | _ =>
      obtain ⟨hu, rfl⟩ := hU
      exact ⟨hu, rfl, rfl⟩
  | fetchAddFileId =>
    obtain ⟨hu, -, rfl⟩ := hU
    exact ⟨hu, rfl, rfl⟩
  | writeData id bytes =>
    obtain ⟨hu, rfl⟩ := hU
    cases r <;> exact ⟨hu, rfl, rfl⟩
  | _ =>
    obtain ⟨hu, rfl⟩ := hU
    exact ⟨hu, rfl, rfl⟩

theorem Charted.step {n : Nat} {u u' : Upkeep} (h : Charted w₀ g u w) (hinputs : g.inputs ≠ [])
    (hlinked : w₀.Linked w₀.active.fileId) (hwork : AtWork True own g w)
    (hR : MergeLog.protocol g op r g') (hU : Upkeep.protocol n u op r u')
    (hO : perform op w = (r, w')) : Charted w₀ g' u' w' := by
  obtain ⟨-, -, hplan⟩ := MergeLog.plan_step hR hinputs
  have hstays : ∀ id, w₀.Linked id → id ∉ g'.removed → w'.Linked id := by
    have hO' : Outcome op w r w' := Or.inl hO
    intro id hl hid
    have hremoved : op ≠ .removeData id ∧ id ∉ g.removed := by
      by_cases hop : ∃ f, op = .removeData f
      · obtain ⟨f, rfl⟩ := hop
        obtain ⟨-, rest, -, rfl⟩ := hR
        obtain ⟨hne, hid⟩ := List.ne_and_not_mem_of_not_mem_cons hid
        exact ⟨fun heq => hne (by cases heq; rfl), hid⟩
      · rw [(hplan fun f heq => hop ⟨f, heq⟩).2.1] at hid
        exact ⟨fun heq => hop ⟨id, heq⟩, hid⟩
    exact hO'.linked hremoved.1 (h.stays id hl hremoved.2)
  have hsorted : g'.ids.Pairwise (· > ·) := by
    rcases MergeLog.ids_same hR with hids | ⟨id, heq, hids⟩
    · rw [hids]
      exact h.sorted
    · obtain ⟨rfl, hr⟩ := Sigma.mk.inj heq
      cases hr
      obtain ⟨rfl, -⟩ := Prod.mk.inj hO
      rw [hids]
      exact List.pairwise_cons.mpr ⟨fun id hid => hwork.files.own_lt id (hwork.own id hid), h.sorted⟩
  have hids : ∀ id, id ∈ g.ids → id ∈ g'.ids := fun id => MergeLog.ids_mono hR
  rcases hwork.effect hR hO with ⟨⟨hactive, hsame⟩, hremove, hhint, hrestore⟩ | ⟨f, rfl, hw'⟩ |
    ⟨f, rfl, hw'⟩ | ⟨highest, rfl, hw'⟩
  · obtain ⟨hidle, howed, hrestored⟩ := Upkeep.protocol_same hU hremove hhint hrestore
    refine ⟨hsorted, fun id hl => ?_, fun hu => ?_, hstays, fun f hf => ?_⟩
    · rw [hactive]
      by_cases hid : id ∈ g'.ids
      · exact Or.inr (Or.inl hid)
      · have hl' : w.Linked id := by
          rw [World.Linked, ← open?_congr (hsame id hid).1]
          exact hl
        exact (h.directory id hl').imp_right fun h => h.imp_left (hids id)
    · rw [hactive]
      exact h.active (hrestored ▸ hu)
    · rw [(hplan hremove).2.1] at hf
      rw [howed]
      rw [open?_congr (hsame f (hwork.apart_step hR hO hf)).2]
      exact h.hints f hf
  · -- the data file of an input, whose hint file comes next
    obtain ⟨⟨howed, hrestored⟩, rfl⟩ := hU
    obtain ⟨-, rest, -, rfl⟩ := hR
    have hlook : w'.active = w.active ∧ w'.disk.hint = w.disk.hint ∧
        ∀ id, w'.Linked id → w.Linked id := by
      rcases hw' with rfl | rfl
      · exact ⟨rfl, rfl, fun _ h => h⟩
      · exact ⟨rfl, rfl, fun _ => linked_of_unlinked⟩
    obtain ⟨hactive, hhint, hl⟩ := hlook
    refine ⟨hsorted, fun id h' => ?_, fun hu => ?_, hstays, fun f' hf' => ?_⟩
    · rw [hactive]
      exact h.directory id (hl id h')
    · rw [hactive]
      exact h.active hu
    · rcases List.mem_cons.mp hf' with rfl | hf'
      · exact Or.inl rfl
      · rw [hhint]
        exact Or.inr ((h.hints f' hf').resolve_left (by simp [howed]))
  · -- the hint file of the input removed last
    obtain ⟨howed, hrestored, rfl⟩ := hU
    obtain ⟨hf, rfl⟩ := hR
    have hlook : w'.active = w.active ∧ w'.disk.data = w.disk.data ∧
        w'.disk.hint.open? f = none ∧
          ∀ id, w.disk.hint.open? id = none → w'.disk.hint.open? id = none := by
      rcases hw' with ⟨hnone, rfl⟩ | rfl
      · exact ⟨rfl, rfl, hnone, fun _ h => h⟩
      · refine ⟨rfl, rfl, (hint_unlinked f f).trans (if_pos rfl), fun id hnone => ?_⟩
        rw [hint_unlinked, hnone, ite_self]
    obtain ⟨hactive, hdata, hself, hothers⟩ := hlook
    refine ⟨hsorted, fun id h' => ?_, fun hu => ?_, hstays, fun f' hf' => Or.inr ?_⟩
    · rw [hactive]
      rw [World.Linked, hdata] at h'
      exact h.directory id h'
    · rw [hactive]
      exact h.active hu
    · rcases h.hints f' hf' with heq | hnone
      · obtain rfl : f = f' := Option.some.inj (howed.symm.trans heq)
        exact hself
      · exact hothers f' hnone
  · -- the active file from the start stays, whether or not there is a new one
    obtain ⟨⟨howed, hrestored⟩, rfl⟩ := hU
    have hold : ∀ id, w.Linked id → w₀.Linked id ∨ id ∈ g'.ids := fun id hl => by
      rcases h.directory id hl with hl | hid | rfl
      · exact Or.inl hl
      · exact Or.inr (hids id hid)
      · rw [h.active hrestored]
        exact Or.inl hlinked
    obtain ⟨-, hremoved, -⟩ := hplan fun f heq => by cases heq
    refine ⟨hsorted, fun id h' => ?_, fun hu => (by cases hu), hstays, fun f hf => ?_⟩
    · rcases hw' with rfl | rfl
      · exact (hold id h').imp_right Or.inl
      · by_cases hid : id = w.nextFileId
        · exact Or.inr (Or.inr hid)
        · obtain ⟨-, hlog, -⟩ := hwork.files.log_rotated
          have hsame : w.rotated.disk.log id = w.disk.log id := by
            rw [hlog, Function.update_of_ne hid]
          exact (hold id ((linked_congr hsame).mp h')).imp_right Or.inl
    · rw [hremoved] at hf
      have hhint : w'.disk.hint = w.disk.hint := by rcases hw' with rfl | rfl <;> rfl
      rw [hhint]
      exact h.hints f hf

end Yabiir
