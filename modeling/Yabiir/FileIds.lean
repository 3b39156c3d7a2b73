/-
  Yabiir.FileIds

  The ids a directory's data files get, over runs of any calls by any threads
  with any number of reopenings: each is greater than all before it, and no file
  is opened twice for appending, exactly as long as the 2^32 ids suffice.
-/

import Yabiir.Invariant.Ids

namespace Yabiir

open Format

variable [Crc32Fast]

/-! ## The law of file ids -/

omit [Crc32Fast] in
/-- Every id handed out is greater than those of the listing and all handed out
    before it, and a data file is opened for appending only under an id that was
    handed out and has no data file. -/
inductive Lawful (listing : List FileId) : List FileEvent → Prop where
  | nil : Lawful listing []
  | handOut {es : List FileEvent} {id : FileId} (h : Lawful listing es)
      (habove : ∀ i ∈ listing ++ handedOut es, i < id) : Lawful listing (es ++ [.handOut id])
  | create {es : List FileEvent} {files : FileTable} {id : FileId} (h : Lawful listing es)
      (hid : id ∈ handedOut es) (hfree : files.open? id = none) :
      Lawful listing (es ++ [.create files id])

/-- The file events of a run on directory `d`, from its opening. -/
def traceEvents (d : Directory) (opts : Options)
    (tr : List (Engine.system.Config × Engine.system.Move)) : List FileEvent :=
  openEvents d.disk opts ++ tr.flatMap fun p => moveEvents p.1 p.2

section

variable {listing : List FileId} {es new : List FileEvent} {first k : Nat}

omit [Crc32Fast] in
theorem Lawful.ascending (h : Lawful listing es) (hlisting : listing.Pairwise (· < ·)) :
    (listing ++ handedOut es).Pairwise (· < ·) := by
  induction h with
  | nil => simpa [handedOut] using hlisting
  | @handOut es id h habove ih =>
    rw [handedOut_append, ← List.append_assoc]
    refine List.pairwise_append.mpr ⟨ih, List.pairwise_singleton .., ?_⟩
    rintro i hi _ (_ | ⟨_, ⟨⟩⟩)
    exact habove i hi
  | @create es files id h hid hfree ih =>
    rw [handedOut_append]
    simpa [handedOut] using ih

omit [Crc32Fast] in
/-- Moves that hand out the next id keep the law. -/
theorem Lawful.fresh (h : Lawful listing es) (hlisting : ∀ i ∈ listing, i < first)
    (hout : handedOut es = List.range' first k) (hnew : Fresh first (first + k) new) :
    Lawful listing (es ++ new) ∧
      handedOut (es ++ new) = List.range' first (k + (handedOut new).length) := by
  have habove : ∀ i ∈ listing ++ handedOut es, i < first + k := by
    intro i hi
    rcases List.mem_append.mp hi with hi | hi
    · have := hlisting i hi
      lia
    · rw [hout, List.mem_range'_1] at hi
      exact hi.2
  have hnext : handedOut (es ++ [.handOut (first + k)]) = List.range' first (k + 1) := by
    rw [handedOut_append, hout, List.range'_1_concat]
    rfl
  cases hnew with
  | none => exact ⟨by rwa [List.append_nil], by rwa [List.append_nil]⟩
  | draw => exact ⟨.handOut h habove, hnext⟩
  | create hfirst hid hfree =>
    refine ⟨.create h ?_ hfree, ?_⟩
    · rw [hout, List.mem_range'_1]
      exact ⟨hfirst, hid⟩
    · rw [handedOut_append, hout]
      exact List.append_nil _
  | @rotate files hfree =>
    have hsplit : es ++ [.handOut (first + k), .create files (first + k)]
        = es ++ [.handOut (first + k)] ++ [.create files (first + k)] := by simp
    rw [hsplit]
    refine ⟨.create (.handOut h habove) ?_ hfree, ?_⟩
    · rw [hnext, List.mem_range'_1]
      lia
    · rw [handedOut_append, hnext]
      exact List.append_nil _

end

/-! ## Runs -/

section Runs

variable {d : Directory} {opts : Options} {tr : List (Engine.system.Config × Engine.system.Move)}
  {cfg : Engine.system.Config}

omit [Crc32Fast] in
theorem Directory.names_ne_none {id : FileId} (h : d.disk.data.names id ≠ none) :
    id ∈ d.disk.data.discover := by
  rw [FileTable.mem_discover_iff]
  have hnames : d.disk.data.names id = (d.data.lookup id).map fun _ => true := by
    show ((FileTable.ofBytes d.data).lookup id).map FileState.linked = _
    rw [FileTable.lookup_ofBytes, Option.map_map]
    rfl
  rw [hnames] at h ⊢
  cases hl : d.data.lookup id with
  | none => simp [hl] at h
  | some bytes => rfl

omit [Crc32Fast] in
/-- The ids listed are those below `d.allotted`, the greatest of them just below. -/
theorem Directory.lt_allotted_of_mem {id : FileId} (h : id ∈ d.disk.data.discover) : id < d.allotted := by
  unfold Directory.allotted
  cases hl : d.disk.data.discover.getLast? with
  | none =>
    rw [List.getLast?_eq_none_iff.mp hl] at h
    cases h
  | some last => exact Nat.lt_succ_of_le (FileTable.le_getLast hl h)

omit [Crc32Fast] in
theorem Directory.last_allotted {k : Nat} (h : d.allotted = k + 1) : k ∈ d.disk.data.discover := by
  unfold Directory.allotted at h
  cases hl : d.disk.data.discover.getLast? with
  | none =>
    rw [hl] at h
    cases h
  | some last =>
    rw [hl] at h
    rw [← Nat.succ.inj h]
    exact List.mem_of_getLast? hl

theorem traceEvents_snoc {m : Engine.system.Move} :
    traceEvents d opts (tr ++ [(cfg, m)]) = traceEvents d opts tr ++ moveEvents cfg m := by
  simp [traceEvents]

/-- What a run has done with ids, as long as they suffice. -/
structure IdsRun (d : Directory) (opts : Options)
    (tr : List (Engine.system.Config × Engine.system.Move)) (w : World)
    (γ : System.Ghosts Engine.system Engine.Ghost) : Prop where
  pool : PoolIds d.allotted (d.allotted + (handedOut (traceEvents d opts tr)).length) w γ
  handedOut : handedOut (traceEvents d opts tr)
    = List.range' d.allotted (handedOut (traceEvents d opts tr)).length
  lawful : Lawful d.disk.data.discover (traceEvents d opts tr)

theorem IdsRun.opened (hn : d.allotted + (Yabiir.handedOut (traceEvents d opts [])).length ≤ 2 ^ 32) :
    IdsRun d opts [] (d.open opts) fun _ => none := by
  have hes : traceEvents d opts [] = openEvents d.disk opts := List.append_nil _
  rw [hes] at hn
  have hopened : Fresh _ _ (openEvents d.disk opts) ∧
      PoolIds _ _ (World.open d.disk opts d.allotted false) fun _ => none :=
    PoolIds.opened le_rfl (fun id hid => d.lt_allotted_of_mem (d.names_ne_none hid))
      (fun k hk => FileTable.mem_discover_iff.mp (d.last_allotted hk)) hn
  obtain ⟨hfresh, hpool⟩ := hopened
  obtain ⟨hlawful, hout⟩ := Lawful.nil.fresh (k := 0) (fun _ hi => d.lt_allotted_of_mem hi) rfl hfresh
  rw [List.nil_append, Nat.zero_add] at hout
  exact ⟨hes ▸ hpool, hes ▸ hout, hes ▸ hlawful⟩

theorem IdsRun.move {m : Engine.system.Move} {w : World}
    {γ γ' : System.Ghosts Engine.system Engine.Ghost} (h : IdsRun d opts tr cfg.world γ)
    (hkeeps : cfg.Keeps Engine.rules γ) (hcalm : Calm cfg m)
    (hm : cfg.Ghosted Engine.rules γ m w γ')
    (hn : d.allotted + (Yabiir.handedOut (traceEvents d opts (tr ++ [(cfg, m)]))).length ≤ 2 ^ 32) :
    IdsRun d opts (tr ++ [(cfg, m)]) w γ' := by
  have hlen : (Yabiir.handedOut (traceEvents d opts (tr ++ [(cfg, m)]))).length
      = (Yabiir.handedOut (traceEvents d opts tr)).length
        + (Yabiir.handedOut (moveEvents cfg m)).length := by
    rw [traceEvents_snoc, handedOut_append, List.length_append]
  rw [hlen, ← Nat.add_assoc] at hn
  obtain ⟨hfresh, hpool⟩ := h.pool.move hkeeps hcalm hm hn
  obtain ⟨hlawful, hout⟩ := h.lawful.fresh (fun _ hi => d.lt_allotted_of_mem hi) h.handedOut hfresh
  refine ⟨?_, ?_, ?_⟩
  · rw [hlen, ← Nat.add_assoc]
    exact hpool
  · rw [hlen, traceEvents_snoc]
    exact hout
  · rw [traceEvents_snoc]
    exact hlawful

/-- The ids that suffice for a run suffice for what comes before a move. -/
theorem le_of_traceEvents_snoc {m : Engine.system.Move} {n : Nat}
    (hn : d.allotted + (handedOut (traceEvents d opts (tr ++ [(cfg, m)]))).length ≤ n) :
    d.allotted + (handedOut (traceEvents d opts tr)).length ≤ n := by
  rw [traceEvents_snoc, handedOut_append, List.length_append] at hn
  lia

/-- As long as the ids suffice the law holds, and the pool's ids are in order. -/
theorem idsRun (h : System.Trace Calm ⟨d.open opts, ∅, []⟩ tr cfg)
    (hn : d.allotted + (handedOut (traceEvents d opts tr)).length ≤ 2 ^ 32) :
    ∃ γ, cfg.Keeps Engine.rules γ ∧ IdsRun d opts tr cfg.world γ := by
  suffices hghost : ∃ γ, cfg.Keeps Engine.rules γ ∧
      (d.allotted + (handedOut (traceEvents d opts tr)).length ≤ 2 ^ 32 →
        IdsRun d opts tr cfg.world γ) by
    obtain ⟨γ, hkeeps, hrun⟩ := hghost
    exact ⟨γ, hkeeps, hrun hn⟩
  clear hn
  apply h.ghost (J := fun tr w γ => d.allotted + (handedOut (traceEvents d opts tr)).length ≤ 2 ^ 32 →
    IdsRun d opts tr w γ) Engine.rules_sound rfl IdsRun.opened
  intro tr cfg m w γ γ' _ hkeeps hrun hcalm hm hn
  exact (hrun (le_of_traceEvents_snoc hn)).move hkeeps hcalm hm hn

/-! ### Every id is a `u32` -/

omit [Crc32Fast] in
theorem handedOut_fileEvents (o : Op) (w : World) :
    ∀ id ∈ handedOut (o.fileEvents w), id = w.nextFileId := by
  have hrotates : ∀ {es : List FileEvent} {w' : World},
      (es = [] ∧ w'.ids = w.ids) ∨ Rotates w.ids es ∧ w'.ids = w.ids.rotate →
      ∀ id ∈ handedOut es, id = w.nextFileId := by
    rintro es w' (⟨rfl, -⟩ | ⟨⟨files, -, rfl⟩, -⟩) id hid
    · cases hid
    · exact List.mem_singleton.mp hid
  cases o with
  | fetchAddFileId => exact fun id hid => List.mem_singleton.mp hid
  | locked s =>
    cases s with
    | append maxFileSize encoded => exact hrotates (fileEvents_append maxFileSize encoded w)
    | activeFileId => exact fun id hid => (by cases hid)
    | restoreActive highest =>
      exact hrotates ((fileEvents_restoreActive highest w).imp_left And.right)
  | _ => exact fun id hid => (by cases hid)

omit [Crc32Fast] in
theorem nextFileId_perform (o : Op) {w : World} (h : w.nextFileId < 2 ^ 32) :
    (perform o w).2.nextFileId < 2 ^ 32 := by
  have hwrap : ∀ n, wrapU32 n < 2 ^ 32 := fun n => Nat.mod_lt _ (by decide)
  have hafter := ids_perform w o
  show (perform o w).2.ids.next < 2 ^ 32
  cases o with
  | fetchAddFileId => exact hwrap _
  | locked s =>
    cases s with
    | append maxFileSize encoded =>
      rcases hafter with hids | hids <;> rw [hids]
      · exact h
      · exact hwrap _
    | activeFileId => exact h
    | restoreActive highest =>
      rw [show World.ids _ = _ from hafter]
      split
      · exact hwrap _
      · exact h
  | removeData f | createData id | setActive a =>
    rw [show World.ids _ = _ from hafter]
    exact h
  | _ =>
    rw [show World.ids _ = _ from hafter]
    exact h

theorem handedOut_openEvents {disk : Disk} {id : FileId} (h : id ∈ handedOut (openEvents disk opts)) :
    id < 2 ^ 32 := by
  have hnext : disk.nextId < 2 ^ 32 := by
    unfold Disk.nextId
    split
    · decide
    · exact Nat.mod_lt _ (by decide)
  rw [openEvents_eq] at h
  split at h
  · rw [List.mem_singleton.mp h]
    exact hnext
  · cases h

theorem nextFileId_open {disk : Disk} {allotted : Nat} {refused : Bool} :
    (World.open disk opts allotted refused).nextFileId < 2 ^ 32 := by
  unfold World.open
  split <;> exact Nat.mod_lt _ (by decide)

/-- Ids handed out fit the counter. -/
theorem handedOut_lt (h : System.Trace Calm ⟨d.open opts, ∅, []⟩ tr cfg) :
    cfg.world.nextFileId < 2 ^ 32 ∧ ∀ id ∈ handedOut (traceEvents d opts tr), id < 2 ^ 32 := by
  induction h with
  | refl =>
    have hes : traceEvents d opts [] = openEvents d.disk opts := List.append_nil _
    exact ⟨nextFileId_open, fun id hid => handedOut_openEvents (hes ▸ hid)⟩
  | @move tr cfg cfg' m htr hcalm hm ih =>
    obtain ⟨hnext, hids⟩ := ih
    rw [traceEvents_snoc, handedOut_append]
    have happend : ∀ {new : List FileId}, (∀ id ∈ new, id < 2 ^ 32) →
        ∀ id ∈ handedOut (traceEvents d opts tr) ++ new, id < 2 ^ 32 :=
      fun hnew id hid => (List.mem_append.mp hid).elim (hids id) (hnew id)
    cases System.Config.moved hm with
    | call ht => exact ⟨hnext, happend fun id hid => (by cases hid)⟩
    | @ret t th r ht hp =>
      refine ⟨hnext, happend fun id hid => ?_⟩
      simp [moveEvents, ht, System.Thread.next?, hp, handedOut] at hid
    | @act t th o k ht hp =>
      refine ⟨nextFileId_perform o hnext, happend fun id hid => ?_⟩
      simp only [moveEvents, ht, System.Thread.next?, hp, Option.bind_some] at hid
      rw [handedOut_fileEvents o cfg.world id hid]
      exact hnext
    | fault => exact hcalm.elim
    | @restart r w hr =>
      have hcalm : cfg.inFlight = [] := hcalm
      rw [hcalm] at hr
      obtain rfl : World.open (cfg.world.crash r) r.opts cfg.world.allotted cfg.world.refused = w :=
        Option.some.inj hr
      exact ⟨nextFileId_open, happend fun id hid => handedOut_openEvents hid⟩

omit [Crc32Fast] in
/-- Ascending numbers between two bounds are no more than fit. -/
theorem length_le_of_ascending {l : List Nat} {a b : Nat} (hab : a ≤ b)
    (hl : l.Pairwise (· < ·)) (hbounds : ∀ x ∈ l, a ≤ x ∧ x < b) : a + l.length ≤ b := by
  induction l generalizing a with
  | nil => exact hab
  | cons x l ih =>
    obtain ⟨hx, hl⟩ := List.pairwise_cons.mp hl
    obtain ⟨hax, hxb⟩ := hbounds x List.mem_cons_self
    have hrest := ih (a := x + 1) hxb hl fun y hy =>
      ⟨hx y hy, (hbounds y (List.mem_cons_of_mem _ hy)).2⟩
    rw [List.length_cons]
    lia

/-- In any directory and any later run, of rotations, merges and reopenings by any
    threads in any order, each data file is created under an id of its own above
    all earlier ones exactly if no more ids are handed out than are left above
    those listed. -/
theorem lawful_iff (hd : ∀ id ∈ d.disk.data.discover, id < 2 ^ 32)
    (h : System.Trace Calm ⟨d.open opts, ∅, []⟩ tr cfg) :
    Lawful d.disk.data.discover (traceEvents d opts tr)
      ↔ d.allotted + (handedOut (traceEvents d opts tr)).length ≤ 2 ^ 32 := by
  constructor
  · intro hlawful
    have hallotted : d.allotted ≤ 2 ^ 32 := by
      cases hn : d.allotted with
      | zero => exact Nat.zero_le _
      | succ k => exact hd k (d.last_allotted hn)
    obtain ⟨-, hascending, habove⟩ :=
      List.pairwise_append.mp (hlawful.ascending (FileTable.pairwise_discover _))
    apply length_le_of_ascending hallotted hascending
    intro id hid
    refine ⟨?_, (handedOut_lt h).2 id hid⟩
    cases hn : d.allotted with
    | zero => exact Nat.zero_le _
    | succ k => exact habove k (d.last_allotted hn) id hid
  · intro hn
    obtain ⟨γ, -, hrun⟩ := idsRun h hn
    exact hrun.lawful

end Runs

/-- The directory of one file with one record. -/
def oneRecord : Directory where
  data := AList.singleton 0 (encodeEntry [1] [2] false 0).bytes
  hint := ∅

omit [Crc32Fast] in
/-- A put that rotates the active file, a merge, and a reopening: the ids 1 and 2
    go to active files, 3 and 4 to the merge's outputs, 5 to the active file once
    it is restored, 6 to the engine opened after that. -/
theorem lawful_merged : letI := ieee
    ∃ tr cfg, System.Trace Calm ⟨oneRecord.open ⟨true, false, 10⟩, ∅, []⟩ tr cfg ∧
      handedOut (traceEvents oneRecord ⟨true, false, 10⟩ tr) = [1, 2, 3, 4, 5, 6] ∧
      Lawful oneRecord.disk.data.discover (traceEvents oneRecord ⟨true, false, 10⟩ tr) := by
  have hrun : letI := ieee
      (((⟨oneRecord.open ⟨true, false, 10⟩, ∅, []⟩ : Engine.system.Config).trace Calm
        (.call 0 (.put [1] [5] 7) :: List.replicate 3 (.step 0) ++
          .call 0 .merge :: List.replicate 31 (.step 0) ++
          [.restart ⟨0, fun _ => 0, fun _ => 0, ⟨true, false, 10⟩⟩])).map fun p =>
        handedOut (traceEvents oneRecord ⟨true, false, 10⟩ p.1)) = some [1, 2, 3, 4, 5, 6] := by
    decide +kernel
  obtain ⟨⟨tr, cfg⟩, htr, hids⟩ := Option.map_eq_some_iff.mp hrun
  dsimp only at hids
  have htrace := System.Trace.of_trace .refl htr
  rw [List.nil_append] at htrace
  have hlisted : letI := ieee
      oneRecord.allotted + 6 ≤ 2 ^ 32 ∧ ∀ id ∈ oneRecord.disk.data.discover, id < 2 ^ 32 := by
    decide +kernel
  refine ⟨tr, cfg, htrace, hids, (@lawful_iff ieee _ _ _ _ hlisted.2 htrace).mpr ?_⟩
  rw [hids]
  exact hlisted.1

/-- The directory of a file with one record and an empty file with the greatest id. -/
def fullDirectory : Directory where
  data := (AList.singleton 0 (encodeEntry [1] [2] false 0).bytes).insert (2 ^ 32 - 1) []
  hint := ∅

omit [Crc32Fast] in
/-- In a directory with the greatest id, `Engine::open` resumes the closed file 0. -/
theorem closedFile_resumed : letI := ieee
    (fullDirectory.open ⟨true, false, 1000⟩).active
        = ⟨0, (encodeEntry [1] [2] false 0).bytes.length⟩ ∧
      (∀ id ∈ fullDirectory.disk.data.discover, id < 2 ^ 32) ∧
      ¬ Lawful fullDirectory.disk.data.discover (traceEvents fullDirectory ⟨true, false, 1000⟩ []) := by
  refine ⟨by decide +kernel, by decide +kernel, fun hlawful => ?_⟩
  have hids : letI := ieee
      ¬ (fullDirectory.disk.data.discover
        ++ handedOut (traceEvents fullDirectory ⟨true, false, 1000⟩ [])).Pairwise (· < ·) := by
    decide +kernel
  exact hids (hlawful.ascending (FileTable.pairwise_discover _))

end Yabiir
