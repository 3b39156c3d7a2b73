/-
  Yabiir.Newest

  Rotations and the outputs of a merge draw their ids from one counter, in any
  order.  A merge that ends well leaves an active file newer than all its
  outputs and every other data file: `restore_active_file` rotates unless it is
  already, and what the merge made by then is all that may be newer.
-/

import Yabiir.FileIds

namespace Yabiir

open Format

variable [Crc32Fast]

/-! ## One merge at a time -/

/-- Moves without I/O faults and reopenings; no merge is begun beside another. -/
def OneMerge (cfg : Engine.system.Config) : Engine.system.Move → Prop
  | .call _ .merge => ∀ p ∈ cfg.threads.entries, p.2.call ≠ .merge
  | .call .. => True
  | .step _ => True
  | _ => False

instance (cfg : Engine.system.Config) (m : Engine.system.Move) : Decidable (OneMerge cfg m) :=
  match m with
  | .call _ .merge => inferInstanceAs (Decidable (∀ p ∈ cfg.threads.entries, p.2.call ≠ .merge))
  | .call _ (.put ..) | .call _ (.delete ..) | .call _ (.get _) | .call _ .listKeys
  | .call _ .fold | .step _ => inferInstanceAs (Decidable True)
  | .fault .. | .restart _ => inferInstanceAs (Decidable False)

theorem OneMerge.calm {cfg : Engine.system.Config} {m : Engine.system.Move} (h : OneMerge cfg m) :
    Calm cfg m := by
  cases m with
  | call t c => trivial
  | step t => trivial
  | fault t f => exact h
  | restart r => exact h.elim

/-- The data files a merge has created so far. -/
def outputs (j : Journal) : List FileId :=
  j.filterMap fun
    | ⟨.createData id, .ok _⟩ => some id
    | _ => none

/-! ## The record of a merge -/

namespace MergeLog

/-- The ids of the outputs. -/
def outIds (g : MergeLog) : List FileId := g.outs.map Output.id

variable {g g' : MergeLog} {o : Op} {r : Op.Res o}

omit [Crc32Fast] in
theorem outIds_flushedData {id : FileId} : (g.flushedData id).outIds = g.outIds := by
  unfold outIds flushedData
  rw [List.map_map]
  exact List.map_congr_left fun o _ => by dsimp only [Function.comp]; split <;> rfl

omit [Crc32Fast] in
theorem outIds_flushedHint {id : FileId} : (g.flushedHint id).outIds = g.outIds := by
  unfold outIds flushedHint
  rw [List.map_map]
  exact List.map_congr_left fun o _ => by dsimp only [Function.comp]; split <;> rfl

/-- Outputs are added by creating their files. -/
theorem outIds_step (hR : protocol g o r g') :
    g'.outIds = g.outIds ∨ ∃ id base,
      (⟨o, r⟩ : Σ o, Op.Res o) = ⟨.createData id, .ok base⟩ ∧ g'.outIds = id :: g.outIds := by
  unfold protocol at hR
  split at hR
  all_goals grind [outIds_flushedData, outIds_flushedHint, outIds, init, fail, list, read, copied,
    failFlush, Output.push, Output.pushHint, Output.opened]

/-- The active file is restored above the outputs, and no id is drawn after that. -/
theorem restored_step (hR : protocol g o r g') (h : g'.restored = true) :
    (g.restored = true ∧ o ≠ .fetchAddFileId) ∨ ∃ highest,
      o = .locked (.restoreActive highest) ∧ ∀ id ∈ g.outIds, id ≤ highest := by
  unfold protocol at hR
  split at hR
  all_goals grind [outIds, init, fail, list, read, copied, flushedData, flushedHint, failFlush]

end MergeLog

/-! ## What an operation does to the newest file -/

/-- The ids a thread has drawn for outputs, with a file or yet without. -/
def Engine.Ghost.ids (g : Engine.Ghost) : List FileId := g.claim.toList ++ g.log.outIds

/-- An operation of a thread, where `n` ids are handed out: the active file is no
    older than before; a file is added as the active one or as an output. -/
structure IdMove (n : Nat) (v v' : Ids) (g g' : Engine.Ghost) : Prop where
  active : v.active ≤ v'.active
  kept : ∀ id, v.names id ≠ none → v'.names id ≠ none
  added : ∀ id, v'.names id ≠ none →
    v.names id ≠ none ∨ id ≤ v'.active ∨ g.claim = some id ∧ id ∈ g'.log.outIds
  drawn : ∀ id ∈ g'.ids, id ∈ g.ids ∨ id = n
  outs : ∀ id ∈ g.log.outIds, id ∈ g'.log.outIds
  made : ∀ id ∈ g'.log.outIds, id ∈ g.log.outIds ∨ v'.names id ≠ none

section Step

variable {first n : Nat} {w : World} {γ : System.Ghosts Engine.system Engine.Ghost} {t : Nat}
  {l : System.Local Engine.system Engine.Ghost} {c : Call} {j : Journal} {g g' : Engine.Ghost}
  {o : Op}

theorem outIds_of_callProtocol {g g' : MergeLog} {r : Op.Res o}
    (hR : Engine.callProtocol c j g o r g') :
    g'.outIds = g.outIds ∨ c = .merge ∧ ∃ id base,
      (⟨o, r⟩ : Σ o, Op.Res o) = ⟨.createData id, .ok base⟩ ∧ g'.outIds = id :: g.outIds := by
  by_cases hc : c = .merge
  · subst hc
    exact (MergeLog.outIds_step hR).imp_right fun h => ⟨rfl, h⟩
  · left
    rw [((Engine.callProtocol_of_ne hc).mp hR).2]

theorem outIds_createData {g g' : MergeLog} {id : FileId} {base : Nat}
    (hR : Engine.callProtocol c j g (.createData id) (.ok base) g') : g'.outIds = id :: g.outIds := by
  by_cases hc : c = .merge
  · subst hc
    obtain ⟨-, -, rfl⟩ := hR
    rfl
  · cases Engine.rule_leavesIds hc ((Engine.callProtocol_of_ne hc).mp hR).1

omit [Crc32Fast] in
/-- Nothing drawn, nothing created by the thread itself. -/
theorem IdMove.of_same {v v' : Ids} (hactive : v.active ≤ v'.active)
    (hkept : ∀ id, v.names id ≠ none → v'.names id ≠ none)
    (hadded : ∀ id, v'.names id ≠ none → v.names id ≠ none ∨ id ≤ v'.active)
    (hclaim : g.claim = none) (hclaim' : g'.claim = none) (houts : g'.log.outIds = g.log.outIds) :
    IdMove n v v' g g' where
  active := hactive
  kept := hkept
  added id hid := (hadded id hid).imp_right Or.inl
  drawn id hid := by
    left
    unfold Engine.Ghost.ids at hid ⊢
    rwa [hclaim', houts, ← hclaim] at hid
  outs id hid := houts ▸ hid
  made id hid := Or.inl (houts ▸ hid)

theorem PoolIds.idMove (h : PoolIds first n w γ) (hl : γ t = some l)
    (hR : Engine.rules.step l.call l.journal l.ghost o (perform o w).1 g)
    (hn : n + (handedOut (o.fileEvents w)).length ≤ 2 ^ 32) :
    IdMove n w.ids (perform o w).2.ids l.ghost g := by
  have hactive : w.ids.active ≤ (perform o w).2.ids.active := (h.act (j := []) hl hR hn).2.1
  have hafter := ids_perform w o
  obtain ⟨hmode, hreads, hcall, hclaim⟩ := hR
  have houts := outIds_of_callProtocol hcall
  have hrw : o.isReads = false → w.opts.isReadWrite = true := by
    intro ho
    rw [← h.mode t l hl]
    by_contra hro
    rw [hreads (Bool.not_eq_true _ ▸ hro)] at ho
    cases ho
  -- an operation that leaves the names, or rotates
  have hsame : o.leavesIds = true →
      (∀ id, w.ids.names id ≠ none → (perform o w).2.ids.names id ≠ none) →
      (∀ id, (perform o w).2.ids.names id ≠ none →
        w.ids.names id ≠ none ∨ id ≤ (perform o w).2.ids.active) →
      IdMove n w.ids (perform o w).2.ids l.ghost g := by
    intro ho hkept hadded
    obtain ⟨hnone, hnone'⟩ := claimProtocol_leavesIds hclaim ho
    apply IdMove.of_same hactive hkept hadded hnone hnone'
    rcases houts with houts | ⟨-, id, base, heq, -⟩
    · exact houts
    · obtain rfl : o = .createData id := congrArg Sigma.fst heq
      cases ho
  have hkeep : o.leavesIds = true → (perform o w).2.ids.names = w.ids.names →
      IdMove n w.ids (perform o w).2.ids l.ghost g := by
    intro ho hnames
    apply hsame ho
    · exact fun id hid => by rwa [hnames]
    · exact fun id hid => Or.inl (hnames ▸ hid)
  have hrotate : o.leavesIds = true → (perform o w).2.ids = w.ids.rotate →
      IdMove n w.ids (perform o w).2.ids l.ghost g := by
    intro ho hids
    have hnames : ∀ id, id ≠ w.ids.next → (perform o w).2.ids.names id = w.ids.names id := by
      intro id hid
      rw [hids]
      exact Function.update_of_ne hid ..
    apply hsame ho
    · intro id hid
      by_cases hnew : id = w.ids.next
      · rw [hids, hnew]
        exact (Function.update_self ..).trans_ne (Option.some_ne_none _)
      · rwa [hnames id hnew]
    · intro id hid
      by_cases hnew : id = w.ids.next
      · right
        rw [hids, hnew]
        exact le_refl w.ids.next
      · exact Or.inl (hnames id hnew ▸ hid)
  cases o with
  | fetchAddFileId =>
    have hnext : w.nextFileId = n := h.ids.next_eq (hrw rfl) hn
    have houts : g.log.outIds = l.ghost.log.outIds := by
      rcases houts with houts | ⟨-, id, base, heq, -⟩
      · exact houts
      · cases congrArg Sigma.fst heq
    cases hc : l.ghost.claim with
    | some id =>
      rw [hc] at hclaim
      exact hclaim.elim
    | none =>
      rw [hc] at hclaim
      have hg : g.claim = some n := hclaim.trans (congrArg some hnext)
      refine ⟨hactive, fun _ hid => hid, fun _ hid => Or.inl hid, fun id hid => ?_,
        fun id hid => houts ▸ hid, fun id hid => Or.inl (houts ▸ hid)⟩
      unfold Engine.Ghost.ids at hid ⊢
      rw [hg, houts] at hid
      rcases List.mem_cons.mp hid with rfl | hid
      · exact Or.inr rfl
      · exact Or.inl (List.mem_append_right _ hid)
  | createData id =>
    cases hc : l.ghost.claim with
    | none =>
      rw [hc] at hclaim
      cases hclaim.1
    | some id' =>
      rw [hc] at hclaim
      obtain ⟨rfl, hg⟩ := hclaim
      have houts := outIds_createData hcall
      have hids : (perform (.createData id) w).2.ids = w.ids.create id := hafter
      have hself : (w.ids.create id).names id = some true := Function.update_self ..
      have hother : ∀ id', id' ≠ id → (w.ids.create id).names id' = w.ids.names id' :=
        fun id' hne => Function.update_of_ne hne ..
      rw [hids]
      refine ⟨le_refl _, fun id' hid => ?_, fun id' hid => ?_, fun id' hid => Or.inl ?_,
        fun id' hid => houts ▸ List.mem_cons_of_mem _ hid, fun id' hid => ?_⟩
      · by_cases hne : id' = id
        · rw [hne, hself]
          exact Option.some_ne_none _
        · rwa [hother id' hne]
      · by_cases hne : id' = id
        · rw [hne, houts]
          exact Or.inr (Or.inr ⟨hc, List.mem_cons_self⟩)
        · exact Or.inl (hother id' hne ▸ hid)
      · unfold Engine.Ghost.ids at hid ⊢
        rw [hg, houts] at hid
        rw [hc]
        exact hid
      · rw [houts] at hid
        rcases List.mem_cons.mp hid with rfl | hid
        · right
          rw [hself]
          exact Option.some_ne_none _
        · exact Or.inl hid
  | removeData f =>
    have hids : (perform (.removeData f) w).2.ids = w.ids.remove f := hafter
    have hnames : ∀ id, (w.ids.remove f).names id ≠ none ↔ w.ids.names id ≠ none := by
      intro id
      unfold Ids.remove
      split
      · rename_i hname
        by_cases hne : id = f
        · simp [hne, hname]
        · simp [Function.update_of_ne hne]
      · exact Iff.rfl
    apply hsame rfl
    · exact fun id hid => hids ▸ (hnames id).mpr hid
    · exact fun id hid => Or.inl ((hnames id).mp (hids ▸ hid))
  | setActive a => exact (not_callProtocol_setActive hcall).elim
  | locked s =>
    cases s with
    | activeFileId => exact hkeep rfl rfl
    | append maxFileSize encoded =>
      rcases hafter with hids | hids
      · exact hkeep rfl (congrArg Ids.names hids)
      · exact hrotate rfl hids
    | restoreActive highest =>
      by_cases hle : w.ids.active ≤ highest
      · exact hrotate rfl (Eq.trans hafter (if_pos hle))
      · exact hkeep rfl (congrArg Ids.names (Eq.trans hafter (if_neg hle)))
  | _ => exact hkeep rfl (congrArg Ids.names hafter)

end Step

/-! ## The invariant -/

/-- The merge thread `t` was in the midst of, with journal `j` so far and outputs
    `ids`, has restored the active file: when the lock was released it was newer
    than these and all other files, and `active` is no older. -/
def RestoredAt (tr : List (Engine.system.Config × Engine.system.Move)) (t : Nat) (j : Journal)
    (ids : List FileId) (active : FileId) : Prop :=
  ∃ tr₁ cfg₁ tr₂ highest th₁, tr = tr₁ ++ (cfg₁, .step t) :: tr₂ ∧
    cfg₁.threads.lookup t = some th₁ ∧ th₁.call = .merge ∧
    th₁.next? = some (.locked (.restoreActive highest)) ∧ th₁.journal <+: j ∧
    let released := (perform (.locked (.restoreActive highest)) cfg₁.world).2
    (ids ≠ [] → (∀ id ∈ ids, id < released.active.fileId) ∧
      ∀ id, released.ids.names id ≠ none → id ≤ released.active.fileId) ∧
    (∀ p ∈ tr₂, released.active.fileId ≤ p.1.world.active.fileId) ∧
    released.active.fileId ≤ active

/-- The data files, for one merge in flight at a time. -/
structure MergeIds (tr : List (Engine.system.Config × Engine.system.Move)) (w : World)
    (γ : System.Ghosts Engine.system Engine.Ghost) : Prop where
  one : ∀ t l t' l', γ t = some l → γ t' = some l' → l.call = .merge → l'.call = .merge → t = t'
  plain : ∀ t l, γ t = some l → l.call ≠ .merge → l.ghost.log = .init ∧ l.ghost.claim = none
  made : ∀ t l, γ t = some l → ∀ id ∈ l.ghost.log.outIds, w.ids.names id ≠ none
  newest : ∀ t l, γ t = some l → ∀ id, w.ids.names id ≠ none →
    id ≤ w.active.fileId ∨ id ∈ l.ghost.log.outIds ∨ ∀ o ∈ l.ghost.ids, id < o
  created : ∀ t l, γ t = some l → ∀ id ∈ outputs l.journal, id ∈ l.ghost.log.outIds
  restored : ∀ t l, γ t = some l → l.ghost.log.restored = true → l.ghost.claim = none ∧
    RestoredAt tr t l.journal l.ghost.log.outIds w.active.fileId
  ascending : (tr.map fun p => p.1.world.active.fileId).Pairwise (· ≤ ·)
  last : ∀ p ∈ tr, p.1.world.active.fileId ≤ w.active.fileId

section

variable {tr : List (Engine.system.Config × Engine.system.Move)} {t : Nat} {j j' : Journal}
  {ids : List FileId} {active active' : FileId} {cfg : Engine.system.Config}
  {m : Engine.system.Move} {first n : Nat} {w : World}
  {γ γ' : System.Ghosts Engine.system Engine.Ghost} {l : System.Local Engine.system Engine.Ghost}

theorem RestoredAt.later (h : RestoredAt tr t j ids cfg.world.active.fileId)
    (hj : j <+: j') (hactive : cfg.world.active.fileId ≤ active) :
    RestoredAt (tr ++ [(cfg, m)]) t j' ids active := by
  obtain ⟨tr₁, cfg₁, tr₂, highest, th₁, rfl, hth, hcall, hnext, hprefix, habove, hlater, hle⟩ := h
  refine ⟨tr₁, cfg₁, tr₂ ++ [(cfg, m)], highest, th₁, by simp, hth, hcall, hnext, hprefix.trans hj,
    habove, fun p hp => ?_, hle.trans hactive⟩
  rcases List.mem_append.mp hp with hp | hp
  · exact hlater p hp
  · rw [List.mem_singleton.mp hp]
    exact hle

/-- The actives of a longer trace. -/
theorem MergeIds.trace (h : MergeIds tr cfg.world γ) (hactive : cfg.world.active.fileId ≤ active) :
    ((tr ++ [(cfg, m)]).map fun p => p.1.world.active.fileId).Pairwise (· ≤ ·) ∧
      ∀ p ∈ tr ++ [(cfg, m)], p.1.world.active.fileId ≤ active := by
  constructor
  · rw [List.map_append]
    refine List.pairwise_append.mpr ⟨h.ascending, List.pairwise_singleton .., ?_⟩
    rintro a ha b hb
    obtain ⟨p, hp, rfl⟩ := List.mem_map.mp ha
    rw [List.mem_singleton.mp hb]
    exact h.last p hp
  · intro p hp
    rcases List.mem_append.mp hp with hp | hp
    · exact (h.last p hp).trans hactive
    · rw [List.mem_singleton.mp hp]
      exact hactive

/-- A call begins or returns: the other threads stay. -/
theorem MergeIds.threads (h : MergeIds tr cfg.world γ)
    (hone : ∀ t l t' l', γ' t = some l → γ' t' = some l' → l.call = .merge → l'.call = .merge → t = t')
    (hold : ∀ u l, γ' u = some l → γ u = some l ∨ l.journal = [] ∧ l.ghost.log = .init ∧
      l.ghost.claim = none) : MergeIds (tr ++ [(cfg, m)]) cfg.world γ' where
  one := hone
  plain u l hl hcall := (hold u l hl).elim (h.plain u l · hcall) fun hnew => hnew.2
  made u l hl id hid := by
    rcases hold u l hl with hl | ⟨-, hlog, -⟩
    · exact h.made u l hl id hid
    · rw [hlog] at hid
      cases hid
  newest u l hl id hid := by
    rcases hold u l hl with hl | ⟨-, hlog, hclaim⟩
    · exact h.newest u l hl id hid
    · right; right
      intro o ho
      rw [Engine.Ghost.ids, hlog, hclaim] at ho
      cases ho
  created u l hl id hid := by
    rcases hold u l hl with hl | ⟨hj, -, -⟩
    · exact h.created u l hl id hid
    · rw [hj] at hid
      cases hid
  restored u l hl hr := by
    rcases hold u l hl with hl | ⟨-, hlog, -⟩
    · obtain ⟨hclaim, hrestored⟩ := h.restored u l hl hr
      exact ⟨hclaim, hrestored.later (List.prefix_refl _) le_rfl⟩
    · rw [hlog] at hr
      cases hr
  ascending := (h.trace le_rfl).1
  last := (h.trace le_rfl).2

omit [Crc32Fast] in
theorem outputs_log (j : Journal) (o : Op) (r : Op.Res o) {id : FileId}
    (h : id ∈ outputs (j.log o r)) : id ∈ outputs j ∨ ∃ base,
      (⟨o, r⟩ : Σ o, Op.Res o) = ⟨.createData id, .ok base⟩ := by
  unfold outputs at h ⊢
  rw [List.filterMap_append] at h
  rcases List.mem_append.mp h with h | h
  · exact Or.inl h
  · right
    obtain ⟨x, hx, hid⟩ := List.mem_filterMap.mp h
    rw [List.mem_singleton.mp hx] at hid
    split at hid
    · rename_i id' base heq
      cases hid
      exact ⟨base, heq⟩
    · cases hid

/-- The merge restores the active file. -/
theorem MergeIds.release (h : MergeIds tr w γ) (hids : PoolIds first n w γ) (hl : γ t = some l)
    {highest : FileId} (hrw : w.opts.isReadWrite = true)
    (hhighest : ∀ id ∈ l.ghost.log.outIds, id ≤ highest)
    (hn : n + (handedOut ((Op.locked (.restoreActive highest)).fileEvents w)).length ≤ 2 ^ 32)
    (hne : l.ghost.log.outIds ≠ []) :
    let released := (perform (.locked (.restoreActive highest)) w).2
    (∀ id ∈ l.ghost.log.outIds, id < released.active.fileId) ∧
      ∀ id, released.ids.names id ≠ none → id ≤ released.active.fileId := by
  dsimp only
  rcases fileEvents_restoreActive highest w with ⟨hlt, -, hafter⟩ | ⟨⟨files, -, hes⟩, hafter⟩
  · have hactive : (perform (.locked (.restoreActive highest)) w).2.active.fileId
        = w.active.fileId := congrArg Ids.active hafter
    rw [hactive, hafter]
    refine ⟨fun id hid => (hhighest id hid).trans_lt hlt, fun id hid => ?_⟩
    -- what is neither an output nor older than the active file is older than the outputs
    rcases h.newest t l hl id hid with hle | hout | hold
    · exact hle
    · exact ((hhighest id hout).trans_lt hlt).le
    · obtain ⟨o, ho⟩ := List.exists_mem_of_ne_nil _ hne
      exact ((hold o (List.mem_append_right _ ho)).trans_le ((hhighest o ho).trans hlt.le)).le
  · have hlt : n < 2 ^ 32 := by
      rw [hes] at hn
      exact hn
    have hnext : w.ids.next = n := hids.ids.next_eq hrw hlt
    have hactive : (perform (.locked (.restoreActive highest)) w).2.active.fileId = n :=
      (congrArg Ids.active hafter).trans hnext
    rw [hactive, hafter]
    constructor
    · exact fun id hid => hids.ids.below id (h.made t l hl id hid)
    · intro id hid
      by_cases hnew : id = w.ids.next
      · exact (hnew.trans hnext).le
      · exact (hids.ids.below id ((Function.update_of_ne hnew ..).symm.trans_ne hid)).le

/-- A thread performs an operation. -/
theorem MergeIds.act (h : MergeIds tr cfg.world γ) (hids : PoolIds first n cfg.world γ)
    {th : Engine.system.Thread} {o : Op} {k : Op.Res o → Prog Op Op.Res Resp} {g : Engine.Ghost}
    (hth : cfg.threads.lookup t = some th) (hp : th.prog = .act o k) (hl : γ t = some l)
    (hkeeps : th.Keeps Engine.rules l)
    (hR : Engine.rules.step l.call l.journal l.ghost o (perform o cfg.world).1 g)
    (hn : n + (handedOut (o.fileEvents cfg.world)).length ≤ 2 ^ 32) :
    MergeIds (tr ++ [(cfg, .step t)]) (perform o cfg.world).2 (Function.update γ t
      (some ⟨l.call, l.journal.log o (perform o cfg.world).1, g⟩)) := by
  have hmove := hids.idMove hl hR hn
  have htrace := h.trace (m := .step t) hmove.active
  obtain ⟨hmode, hreads, hcall, hclaim⟩ := hR
  -- the threads after the operation, one by one
  have hcases : ∀ {P : Nat → System.Local Engine.system Engine.Ghost → Prop},
      P t ⟨l.call, l.journal.log o (perform o cfg.world).1, g⟩ →
      (∀ u l, u ≠ t → γ u = some l → P u l) →
      ∀ u l', Function.update γ t
        (some ⟨l.call, l.journal.log o (perform o cfg.world).1, g⟩) u = some l' → P u l' := by
    intro P ht hother u l' hl'
    by_cases hu : u = t
    · subst hu
      rw [Function.update_self] at hl'
      cases hl'
      exact ht
    · rw [Function.update_of_ne hu] at hl'
      exact hother u l' hu hl'
  have hsame : l.ghost.claim = none → o ≠ .fetchAddFileId →
      g.claim = none ∧ g.log.outIds = l.ghost.log.outIds := by
    intro hnone ho
    have hleaves : o.leavesIds = true := by
      rw [hnone] at hclaim
      cases o with
      | fetchAddFileId => exact absurd rfl ho
      | createData id => cases hclaim.1
      | _ => rfl
    refine ⟨(claimProtocol_leavesIds hclaim hleaves).2, ?_⟩
    rcases outIds_of_callProtocol hcall with houts | ⟨-, id, base, heq, -⟩
    · exact houts
    · obtain rfl : o = .createData id := congrArg Sigma.fst heq
      cases hleaves
  have hplain : l.call ≠ .merge → g.log = .init ∧ g.claim = none := by
    intro hne
    obtain ⟨hrule, hlog⟩ := (Engine.callProtocol_of_ne hne).mp hcall
    obtain ⟨hinit, -⟩ := h.plain t l hl hne
    exact ⟨hlog.trans hinit, (claimProtocol_leavesIds hclaim (Engine.rule_leavesIds hne hrule)).2⟩
  have hcalls := hcases (P := fun u l' => ∃ l₀, γ u = some l₀ ∧ l₀.call = l'.call)
    ⟨l, hl, rfl⟩ fun u l' _ hl' => ⟨l', hl', rfl⟩
  constructor
  case ascending => exact htrace.1
  case last => exact htrace.2
  case one =>
    intro u l₁ u' l₂ h₁ h₂ hc₁ hc₂
    obtain ⟨l₁', h₁', hc₁'⟩ := hcalls u l₁ h₁
    obtain ⟨l₂', h₂', hc₂'⟩ := hcalls u' l₂ h₂
    exact h.one u l₁' u' l₂' h₁' h₂' (hc₁'.trans hc₁) (hc₂'.trans hc₂)
  case plain => exact hcases hplain fun u l' _ hl' => h.plain u l' hl'
  case made =>
    apply hcases
    · intro id hid
      rcases hmove.made id hid with hid | hid
      · exact hmove.kept id (h.made t l hl id hid)
      · exact hid
    · exact fun u l' _ hl' id hid => hmove.kept id (h.made u l' hl' id hid)
  case newest =>
    apply hcases
    · intro id hid
      rcases hmove.added id hid with hid | hle | ⟨-, hout⟩
      · rcases h.newest t l hl id hid with hle | hout | hold
        · exact Or.inl (hle.trans hmove.active)
        · exact Or.inr (Or.inl (hmove.outs id hout))
        · refine Or.inr (Or.inr fun o' ho' => ?_)
          rcases hmove.drawn o' ho' with ho' | rfl
          · exact hold o' ho'
          · exact hids.ids.below id hid
      · exact Or.inl hle
      · exact Or.inr (Or.inl hout)
    · intro u l' hu hl' id hid
      rcases hmove.added id hid with hid | hle | ⟨hdrawn, -⟩
      · exact (h.newest u l' hl' id hid).imp_left (·.trans hmove.active)
      · exact Or.inl hle
      · -- the thread that creates an output is in the one merge
        have hmerge : l.call = .merge := by
          by_contra hne
          cases hdrawn.symm.trans (h.plain t l hl hne).2
        have hne : l'.call ≠ .merge := fun hcall' => hu (h.one u l' t l hl' hl hcall' hmerge)
        obtain ⟨hlog, hclaim'⟩ := h.plain u l' hl' hne
        refine Or.inr (Or.inr fun o' ho' => ?_)
        rw [Engine.Ghost.ids, hlog, hclaim'] at ho'
        cases ho'
  case created =>
    apply hcases
    · intro id hid
      rcases outputs_log _ _ _ hid with hid | ⟨base, heq⟩
      · exact hmove.outs id (h.created t l hl id hid)
      · obtain rfl : o = .createData id := congrArg Sigma.fst heq
        rw [eq_of_heq (Sigma.mk.inj heq).2] at hcall
        rw [outIds_createData hcall]
        exact List.mem_cons_self
    · exact fun u l' _ hl' => h.created u l' hl'
  case restored =>
    apply hcases
    · intro hrestored
      have hmerge : l.call = .merge := by
        by_contra hne
        rw [(hplain hne).1] at hrestored
        cases hrestored
      rw [hmerge] at hcall
      rcases MergeLog.restored_step hcall hrestored with ⟨hbefore, ho⟩ | ⟨highest, rfl, hhighest⟩
      · obtain ⟨hnone, hat⟩ := h.restored t l hl hbefore
        obtain ⟨hclaim', houts⟩ := hsame hnone ho
        rw [houts]
        exact ⟨hclaim', hat.later (List.prefix_append ..) hmove.active⟩
      · obtain ⟨hclaim', houts⟩ :=
          hsame (claimProtocol_leavesIds hclaim rfl).1 (fun h => by cases h)
        refine ⟨hclaim', tr, cfg, [], highest, th, rfl, hth, hkeeps.call.trans hmerge, ?_, ?_, ?_,
          fun p hp => (by cases hp), le_rfl⟩
        · rw [System.Thread.next?, hp]
        · rw [hkeeps.journal]
          exact List.prefix_append ..
        · rw [houts]
          have hrw : cfg.world.opts.isReadWrite = true := by
            rw [← hids.mode t l hl]
            by_contra hro
            cases hreads (Bool.not_eq_true _ ▸ hro)
          exact h.release hids hl hrw hhighest hn
    · intro u l' _ hl' hrestored
      obtain ⟨hnone, hat⟩ := h.restored u l' hl' hrestored
      exact ⟨hnone, hat.later (List.prefix_refl _) hmove.active⟩

end

/-! ## Runs -/

section Runs

variable {d : Directory} {opts : Options} {tr : List (Engine.system.Config × Engine.system.Move)}
  {cfg : Engine.system.Config}

theorem MergeIds.opened {w : World} : MergeIds [] w fun _ => none where
  one _ _ _ _ h := by cases h
  plain _ _ h := by cases h
  made _ _ h := by cases h
  newest _ _ h := by cases h
  created _ _ h := by cases h
  restored _ _ h := by cases h
  ascending := List.Pairwise.nil
  last _ h := by cases h

theorem MergeIds.move {m : Engine.system.Move} {w : World} {first n : Nat}
    {γ γ' : System.Ghosts Engine.system Engine.Ghost} (h : MergeIds tr cfg.world γ)
    (hids : PoolIds first n cfg.world γ) (hkeeps : cfg.Keeps Engine.rules γ)
    (hone : OneMerge cfg m) (hm : cfg.Ghosted Engine.rules γ m w γ')
    (hn : n + (handedOut (moveEvents cfg m)).length ≤ 2 ^ 32) :
    MergeIds (tr ++ [(cfg, m)]) w γ' := by
  cases hm with
  | @call t c ht =>
    -- a thread in a merge already is none if the new call is one
    have hothers : c = .merge → ∀ u l, γ u = some l → l.call ≠ .merge := by
      rintro rfl u l hl hcall
      obtain ⟨th, hth, hkeeps'⟩ := hkeeps.thread hl
      exact hone ⟨u, th⟩ (AList.mem_lookup_iff.mp hth) (hkeeps'.call.trans hcall)
    have hcases : ∀ u l, Function.update γ t (some ⟨c, [], Engine.rules.start cfg.world c⟩) u = some l →
        (u = t ∧ l = ⟨c, [], Engine.rules.start cfg.world c⟩) ∨ γ u = some l := by
      intro u l hl
      by_cases hu : u = t
      · rw [hu, Function.update_self] at hl
        cases hl
        exact Or.inl ⟨hu, rfl⟩
      · rw [Function.update_of_ne hu] at hl
        exact Or.inr hl
    apply h.threads
    · intro u l u' l' hl hl' hcall hcall'
      rcases hcases u l hl with ⟨hu, rfl⟩ | hold <;> rcases hcases u' l' hl' with ⟨hu', rfl⟩ | hold'
      · exact hu.trans hu'.symm
      · exact absurd hcall' (hothers hcall u' l' hold')
      · exact absurd hcall (hothers hcall' u l hold)
      · exact h.one u l u' l' hold hold' hcall hcall'
    · intro u l hl
      rcases hcases u l hl with ⟨-, rfl⟩ | hl
      · exact Or.inr ⟨rfl, rfl, rfl⟩
      · exact Or.inl hl
  | @ret t th l r ht hp hl hend =>
    have hcases : ∀ u l, Function.update γ t none u = some l → γ u = some l := by
      intro u l hl
      by_cases hu : u = t
      · rw [hu, Function.update_self] at hl
        cases hl
      · rwa [Function.update_of_ne hu] at hl
    apply h.threads
    · exact fun u l u' l' hl hl' => h.one u l u' l' (hcases u l hl) (hcases u' l' hl')
    · exact fun u l hl => Or.inl (hcases u l hl)
  | @act t th l o k g ht hp hl hR =>
    have hes : moveEvents cfg (.step t) = o.fileEvents cfg.world := by
      simp [moveEvents, ht, System.Thread.next?, hp]
    rw [hes] at hn
    obtain ⟨l', hl', hkeeps'⟩ := hkeeps.local ht
    cases hl.symm.trans hl'
    exact h.act hids ht hp hl hkeeps' hR hn
  | fault => exact hone.elim
  | restart => exact hone.elim

/-- The invariant holds wherever merges come one at a time. -/
theorem mergeIds (h : System.Trace OneMerge ⟨d.open opts, ∅, []⟩ tr cfg)
    (hn : d.allotted + (handedOut (traceEvents d opts tr)).length ≤ 2 ^ 32) :
    ∃ γ, cfg.Keeps Engine.rules γ ∧ IdsRun d opts tr cfg.world γ ∧ MergeIds tr cfg.world γ := by
  suffices hghost : ∃ γ, cfg.Keeps Engine.rules γ ∧
      (d.allotted + (handedOut (traceEvents d opts tr)).length ≤ 2 ^ 32 →
        IdsRun d opts tr cfg.world γ ∧ MergeIds tr cfg.world γ) by
    obtain ⟨γ, hkeeps, hrun⟩ := hghost
    exact ⟨γ, hkeeps, hrun hn⟩
  clear hn
  apply h.ghost (J := fun tr w γ => d.allotted + (handedOut (traceEvents d opts tr)).length ≤ 2 ^ 32 →
    IdsRun d opts tr w γ ∧ MergeIds tr w γ) Engine.rules_sound rfl fun hn => ⟨.opened hn, .opened⟩
  intro tr cfg m w γ γ' _ hkeeps hrun hone hm hn
  obtain ⟨hids, hmerge⟩ := hrun (le_of_traceEvents_snoc hn)
  refine ⟨hids.move hkeeps hone.calm hm hn, hmerge.move hids.pool hkeeps hone hm ?_⟩
  rw [traceEvents_snoc, handedOut_append, List.length_append, ← Nat.add_assoc] at hn
  exact hn

omit [Crc32Fast] in
/-- An entry is appended to the active file. -/
theorem place_of_append {maxFileSize : Nat} {encoded : EncodedEntry} {w : World}
    {place : FileId × Nat × Nat}
    (h : (perform (.locked (.append maxFileSize encoded)) w).1 = .ok place) :
    place.1 = w.active.fileId := by
  cases hlong : World.tooLong w.disk.data w.active.fileId encoded.bytes with
  | true =>
    rw [perform_append_tooLong _ _ _ hlong] at h
    cases h
  | false =>
    rw [perform_append _ _ _ hlong] at h
    cases h
    rfl

/-- In every interleaving of one merge at a time with other calls, as long as the
    ids suffice: no id is handed out twice; and a merge that returned `Ok` and
    made outputs had restored the active file before, so that when the lock was
    released the active file was newer than every output and every other data
    file, and whatever is appended later, goes to a newer file than any output. -/
theorem restored_newest (h : System.Trace OneMerge ⟨d.open opts, ∅, []⟩ tr cfg)
    (hn : d.allotted + (handedOut (traceEvents d opts tr)).length ≤ 2 ^ 32) :
    (handedOut (traceEvents d opts tr)).Nodup ∧
    ∀ tr₀ cfg₀ t tr₃ th, tr = tr₀ ++ (cfg₀, .step t) :: tr₃ →
      cfg₀.threads.lookup t = some th → th.call = .merge → th.prog = .ret (.unit (.ok ())) →
      outputs th.journal ≠ [] →
      ∃ tr₁ cfg₁ tr₂ highest th₁, tr₀ = tr₁ ++ (cfg₁, .step t) :: tr₂ ∧
        cfg₁.threads.lookup t = some th₁ ∧ th₁.call = .merge ∧
        th₁.next? = some (.locked (.restoreActive highest)) ∧ th₁.journal <+: th.journal ∧
        let released := (perform (.locked (.restoreActive highest)) cfg₁.world).2
        (∀ id ∈ outputs th.journal, id < released.active.fileId) ∧
        (∀ id, released.Linked id → id ≠ released.active.fileId → id < released.active.fileId) ∧
        ∀ p ∈ tr₂ ++ (cfg₀, .step t) :: tr₃, ∀ maxFileSize encoded place,
          (perform (.locked (.append maxFileSize encoded)) p.1.world).1 = .ok place →
          released.active.fileId ≤ place.1 := by
  obtain ⟨γ, hkeeps, hids, hmerge⟩ := mergeIds h hn
  refine ⟨?_, ?_⟩
  · rw [hids.handedOut]
    exact List.nodup_range'
  rintro tr₀ cfg₀ t tr₃ th rfl hth hcall hret hout
  have hbefore : d.allotted + (handedOut (traceEvents d opts tr₀)).length ≤ 2 ^ 32 := by
    simp only [traceEvents, List.flatMap_append, handedOut_append, List.length_append] at hn ⊢
    lia
  obtain ⟨γ₀, hkeeps₀, -, hmerge₀⟩ := mergeIds h.before hbefore
  obtain ⟨l, hl, hkeep⟩ := hkeeps₀.local hth
  have hmergeCall : l.call = .merge := hkeep.call.symm.trans hcall
  have hends := hkeep.follows
  rw [hret, hmergeCall] at hends
  have hcreated := hmerge₀.created t l hl
  rw [← hkeep.journal] at hcreated
  -- the merge has outputs, so it has restored the active file
  have houts : l.ghost.log.outIds ≠ [] := by
    obtain ⟨id, hid⟩ := List.exists_mem_of_ne_nil _ hout
    exact List.ne_nil_of_mem (hcreated id hid)
  have hrestored : l.ghost.log.restored = true := by
    rcases hends.1 with ⟨-, -, -, hnone | hrestored⟩ | ⟨⟨e, herror⟩, -⟩
    · exact absurd (congrArg (List.map Output.id) hnone) houts
    · exact hrestored
    · cases herror
  obtain ⟨-, tr₁, cfg₁, tr₂, highest, th₁, rfl, hth₁, hcall₁, hnext, hprefix, habove, hlater, hle⟩ :=
    hmerge₀.restored t l hl hrestored
  obtain ⟨habove, hnewest⟩ := habove houts
  refine ⟨tr₁, cfg₁, tr₂, highest, th₁, rfl, hth₁, hcall₁, hnext, hkeep.journal ▸ hprefix,
    fun id hid => habove id (hcreated id hid), ?_, ?_⟩
  · rintro id ⟨data, hopen⟩ hne
    have hname : (perform (.locked (.restoreActive highest)) cfg₁.world).2.ids.names id ≠ none := by
      intro hnone
      cases (FileTable.open?_eq_none.mpr (hnone.trans_ne (by simp))).symm.trans hopen
    exact lt_of_le_of_ne (hnewest id hname) hne
  · rintro p hp maxFileSize encoded place happend
    rw [place_of_append happend]
    rcases List.mem_append.mp hp with hp | hp
    · exact hlater p hp
    · apply hle.trans
      have hascending := hmerge.ascending
      rw [List.map_append] at hascending
      rcases List.mem_cons.mp hp with rfl | hp
      · exact le_refl _
      · exact List.rel_of_pairwise_cons (List.pairwise_append.mp hascending).2.1
          (List.mem_map_of_mem hp)

end Runs

/-- A merge in whose midst a put rotates the active file. -/
def rotatedBeside : List Engine.system.Move :=
  .call 0 .merge :: List.replicate 7 (.step 0) ++
    .call 1 (.put [1] [5] 7) :: List.replicate 3 (.step 1) ++ List.replicate 18 (.step 0)

omit [Crc32Fast] in
/-- The merge's outputs get the ids 2 and 4, the put rotates to 3, and the restored
    active file gets 5. -/
theorem restored_newest_beside : letI := ieee
    ∃ tr₀ cfg₀ cfg, System.Trace OneMerge ⟨oneRecord.open ⟨true, false, 10⟩, ∅, []⟩
        (tr₀ ++ [(cfg₀, .step 0)]) cfg ∧
      handedOut (traceEvents oneRecord ⟨true, false, 10⟩ tr₀) = [1, 2, 3, 4, 5] ∧
      ∃ tr₁ cfg₁ tr₂ highest, tr₀ = tr₁ ++ (cfg₁, .step 0) :: tr₂ ∧
        let released := (perform (.locked (.restoreActive highest)) cfg₁.world).2
        2 < released.active.fileId ∧ 4 < released.active.fileId := by
  have hrun : letI := ieee
      (((⟨oneRecord.open ⟨true, false, 10⟩, ∅, []⟩ : Engine.system.Config).trace OneMerge
        rotatedBeside).bind fun p => (p.2.threads.lookup 0).map fun th =>
          (handedOut (traceEvents oneRecord ⟨true, false, 10⟩ p.1), outputs th.journal, th.call,
            match th.prog with
            | .ret r => some r
            | .act .. => none)) = some ([1, 2, 3, 4, 5], [2, 4], .merge, some (.unit (.ok ()))) := by
    decide +kernel
  obtain ⟨⟨tr₀, cfg₀⟩, htr, hrun⟩ := Option.bind_eq_some_iff.mp hrun
  obtain ⟨th, hth, hrun⟩ := Option.map_eq_some_iff.mp hrun
  obtain ⟨hids, hrun⟩ := Prod.mk.inj hrun
  obtain ⟨hout, hrun⟩ := Prod.mk.inj hrun
  obtain ⟨hcall, hprog⟩ := Prod.mk.inj hrun
  have hret : th.prog = .ret (.unit (.ok ())) := by
    split at hprog
    · rename_i r hr
      rw [hr, Option.some.inj hprog]
    · cases hprog
  have htr₀ := System.Trace.of_trace .refl htr
  rw [List.nil_append] at htr₀
  dsimp only at hids hth
  have hm : letI := ieee
      cfg₀.move (.step 0) = some (cfg₀.returned 0 th.call (.unit (.ok ()))) := by
    simp only [System.Config.move, hth, hret]
  have htr := htr₀.move (m := .step 0) trivial hm
  have hn : letI := ieee
      oneRecord.allotted + (handedOut (traceEvents oneRecord ⟨true, false, 10⟩
        (tr₀ ++ [(cfg₀, .step 0)]))).length ≤ 2 ^ 32 := by
    have hlast : @moveEvents ieee cfg₀ (.step 0) = [] := by
      simp [moveEvents, hth, System.Thread.next?, hret]
    rw [@traceEvents_snoc ieee, hlast, List.append_nil, hids]
    decide +kernel
  obtain ⟨-, hnewest⟩ := @restored_newest ieee _ _ _ _ htr hn
  obtain ⟨tr₁, cfg₁, tr₂, highest, th₁, hsplit, -, -, -, -, habove, -⟩ :=
    hnewest tr₀ cfg₀ 0 [] th rfl hth hcall hret (by rw [hout]; simp)
  rw [hout] at habove
  exact ⟨tr₀, cfg₀, _, htr, hids, tr₁, cfg₁, tr₂, highest, hsplit, habove 2 (by simp),
    habove 4 (by simp)⟩

end Yabiir
