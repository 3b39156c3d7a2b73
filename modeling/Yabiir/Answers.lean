/-
  Yabiir.Answers

  What single-threaded runs answer: every call what a plain map from keys to values
  says (`run_answers`), after every reopen too.  The map is told of puts within the
  format's limits only, and stays true where removals of a merge fail only as long
  as none of them leaves an older value of a deleted key behind.
-/

import Yabiir.Sessions

namespace Yabiir

open Format

/-- What a call answers where the map is `m`; in a session that may write
    (`isReadWrite`), puts, deletes and merges are acknowledged. -/
def Answers (m : KeyMap) (isReadWrite : Bool) : Call → Resp → Prop
  | .get key, r => r = .value (.ok (m key))
  | .listKeys, r =>
    ∃ keys, r = .keys (.ok keys) ∧ keys.Nodup ∧ ∀ key, key ∈ keys ↔ (m key).isSome
  | .fold, r =>
    ∃ pairs, r = .pairs (.ok pairs) ∧ (pairs.map Prod.fst).Nodup ∧
      ∀ key value, (key, value) ∈ pairs ↔ m key = some value
  | .put key _ _, r | .delete key _, r =>
    isReadWrite = true → key ≠ [] → r = .unit (.ok ())
  | .merge, r => isReadWrite = true → r = .unit (.ok ())

section

variable [Crc32Fast] {failing : Prop} {m : KeyMap} {w w' : World}

/-! ## Calls -/

/-- Reads answer from the map. -/
theorem World.Shows.answers (h : w.Shows m) {c : Call} (hc : c.isRead = true) (isReadWrite : Bool) :
    Answers m isReadWrite c (w.call c).1 := by
  cases c with
  | get key => exact h.get key
  | listKeys => exact h.listKeys
  | fold => exact h.fold
  | _ => cases hc

/-- Writes the kernel does not refuse are acknowledged. -/
theorem Ready.acknowledges (h : Ready failing m w) {c : Call} (hread : c.isRead = false)
    (hc : c ≠ .merge) (hrefused : (w.call c).2.refused = false) :
    Answers m true c (w.call c).1 := by
  cases c with
  | put key value timestamp =>
    intro _ hkey
    cases hlong : World.tooLong w.disk.data w.active.fileId
      (encodeEntry key value false timestamp).bytes with
    | true =>
      rw [call_put_tooLong h.files.readWrite hkey hlong] at hrefused
      cases hrefused
    | false => rw [call_put h.files.readWrite hkey hlong]
  | delete key timestamp =>
    intro _ hkey
    cases hkd : w.keydir.get key with
    | none => rw [call_delete_none h.files.readWrite hkey timestamp hkd]
    | some entry =>
      cases hlong : World.tooLong w.disk.data w.active.fileId
        (encodeEntry key [] true timestamp).bytes with
      | true =>
        rw [call_delete_tooLong h.files.readWrite hkey hkd hlong] at hrefused
        cases hrefused
      | false => rw [call_delete h.files.readWrite hkey hkd hlong]
  | merge => exact absurd rfl hc
  | _ => cases hread

/-- Every call answers from the map. -/
theorem Resting.answers (h : Resting failing m w) {c : Call} {r : Resp}
    (hrun : (Engine.code w.opts c).Runs (Tolerated failing) w r w') (hids : w'.allotted < 2 ^ 32)
    (hrefused : w'.refused = false) : Answers m w.opts.isReadWrite c r := by
  by_cases hmerge : c = .merge
  · subst hmerge
    intro hrw
    cases h with
    | ready h =>
      rcases h.merged hrun hids with ⟨htrue, -⟩ | ⟨hok, -⟩
      · cases hrefused.symm.trans htrue
      · exact hok
    | readOnly h hro =>
      rw [show World.opts _ = _ from opts_open, hro] at hrw
      cases hrw
  · have hcall := call_of_runs hmerge hrun
    obtain rfl : r = (w.call c).1 := (congrArg Prod.fst hcall).symm
    obtain rfl : w' = (w.call c).2 := (congrArg Prod.snd hcall).symm
    cases hread : c.isRead with
    | true => exact h.shows.answers hread _
    | false =>
      cases h with
      | ready h =>
        rw [h.files.readWrite]
        exact h.acknowledges hread hmerge hrefused
      | readOnly h hro =>
        -- nothing is promised of writes in a read-only session
        rw [show World.opts _ = _ from opts_open, hro]
        cases c with
        | put | delete | merge => exact fun hrw => (by cases hrw)
        | _ => cases hread

/-! ## Runs -/

/-- The engine just opened on an empty directory holds the empty map. -/
theorem resting_start (opts : Options) : Resting failing (fun _ => none) (Engine.start opts) :=
  Disk.stores_empty.resting opts le_rfl (by rw [allotted_open]; decide)

/-- The state after any run from an empty directory. -/
theorem Run.resting_start {opts : Options} {es : List Event}
    (hrun : Run (Tolerated failing) (Engine.start opts) es w) (hfits : ∀ e ∈ es, e.Fits)
    (hids : w.allotted < 2 ^ 32) (hrefused : w.refused = false) :
    Resting failing (acknowledged es) w :=
  hrun.resting (Yabiir.resting_start opts) hfits hids hrefused

/-- After any single-threaded run from an empty directory, of calls, reopens and
    kills between calls, the next call answers what the map of acknowledged puts and
    deletes says. -/
theorem run_answers (opts : Options) {es : List Event} {c : Call} {r : Resp}
    (hrun : Run Faultless (Engine.start opts) es w)
    (hcall : (Event.call c r).Step Faultless w w') (hfits : ∀ e ∈ es, e.Fits)
    (hids : w'.allotted < 2 ^ 32) (hrefused : w'.refused = false) :
    Answers (acknowledged es) w.opts.isReadWrite c r := by
  have hrun' : Run (Tolerated False) _ _ _ := hrun.mono fun _ _ _ _ ho => ho.tolerated
  have hcall' : (Engine.code w.opts c).Runs (Tolerated False) w r w' :=
    Prog.Runs.mono hcall fun _ _ _ _ ho => ho.tolerated
  have hstep : (Event.call c r).Step (Tolerated False) w w' := hcall'
  have hresting := hrun'.resting_start hfits (hstep.grows.1.trans_lt hids)
    (hstep.unrefused hrefused)
  exact hresting.answers hcall' hids hrefused

/-! ## Removals that fail -/

/-- Whatever removals of its merges failed, after a run a reopen recovers the map of
    acknowledged puts and deletes, as long as no merge removed the file with the
    tombstone of a deleted key from above a value left in an older one. -/
theorem reopen_recovers (opts : Options) {es : List Event}
    (hrun : Run (Tolerated True) (Engine.start opts) es w) (hfits : ∀ e ∈ es, e.Fits)
    (hrefused : w.refused = false) (opts' : Options)
    (hids : (w.reopen opts').allotted < 2 ^ 32) :
    (w.reopen opts').Shows (acknowledged es) := by
  have hallotted : (w.reopen opts').allotted = w.allotted + 1 := allotted_open
  have hresting := hrun.resting_start hfits (by omega) hrefused
  have hstep : (Event.reopen opts').Step (Tolerated True) w (w.reopen opts') := rfl
  have hrefused' : (w.reopen opts').refused = false := refused_open.trans hrefused
  exact (hresting.step hstep trivial hids hrefused').shows

omit [Crc32Fast] in
/-- Operations where removing the data files of `fails` goes wrong. -/
def performBut (fails : FileId → Bool) : (o : Op) → World → Op.Res o × World
  | .removeData f, w => if fails f then (.error .injected, w) else perform (.removeData f) w
  | o, w => perform o w

omit [Crc32Fast] in
theorem removing_performBut (fails : FileId → Bool) (o : Op) (w : World) :
    Removing True o w (performBut fails o w).1 (performBut fails o w).2 := by
  cases o with
  | removeData f =>
    have heq : performBut fails (.removeData f) w
        = if fails f then (.error .injected, w) else perform (.removeData f) w := rfl
    rw [heq]
    split
    · exact Or.inr ⟨trivial, rfl, ⟨0, 0⟩, rfl⟩
    · exact Or.inl rfl
  | _ => exact Or.inl rfl

/-- What is not removed uncovers nothing. -/
theorem tolerated_performBut (o : Op) (w : World) :
    Tolerated True o w (performBut (fun _ => true) o w).1 (performBut (fun _ => true) o w).2 := by
  refine ⟨removing_performBut _ o w, fun _ f key heq => ?_⟩
  obtain ⟨rfl, hr⟩ := Sigma.mk.inj heq
  cases hr

/-- A merge where removing the data files of `fails` goes wrong. -/
def World.mergeBut (fails : FileId → Bool) (w : World) : Resp × World :=
  (Engine.code w.opts .merge).exec (performBut fails) w

theorem runs_mergeBut {Out : Outcomes} {fails : FileId → Bool}
    (hOut : ∀ o w, Out o w (performBut fails o w).1 (performBut fails o w).2) (w : World) :
    (Event.call .merge (w.mergeBut fails).1).Step Out w (w.mergeBut fails).2 := by
  refine Prog.Runs.mono (Prog.runs_exec (performBut fails) _ w) fun o w r w' ho => ?_
  have hout := hOut o w
  rw [ho] at hout
  exact hout

/-! ## Beyond the format's limits -/

omit [Crc32Fast] in
/-- The event is a put or a delete of `key`. -/
def Event.Writes (key : Bytes) : Event → Prop
  | .call (.put key' _ _) _ | .call (.delete key' _) _ => key' = key
  | _ => False

omit [Crc32Fast] in
/-- Other events leave the key as it is. -/
theorem KeyMap.after_of_not_writes {key : Bytes} {e : Event} (h : ¬ e.Writes key) (m : KeyMap) :
    m.after e key = m key := by
  cases e with
  | call c r =>
    cases c with
    | put key' value timestamp =>
      cases r with
      | unit r =>
        cases r with
        | error e => rfl
        | ok _ => exact Function.update_of_ne (Ne.symm h) ..
      | _ => rfl
    | delete key' timestamp =>
      cases r with
      | unit r =>
        cases r with
        | error e => rfl
        | ok _ => exact Function.update_of_ne (Ne.symm h) ..
      | _ => rfl
    | _ => rfl
  | _ => rfl

omit [Crc32Fast] in
/-- A put counts until the key is written again. -/
theorem acknowledged_put {before after : List Event} {key value : Bytes} {timestamp : UInt32}
    (hafter : ∀ e ∈ after, ¬ e.Writes key) :
    acknowledged (before ++ .call (.put key value timestamp) (.unit (.ok ())) :: after) key
      = some value := by
  unfold acknowledged
  rw [List.foldl_append, List.foldl_cons]
  have hput : ∀ m : KeyMap,
      m.after (.call (.put key value timestamp) (.unit (.ok ()))) key = some value :=
    fun m => Function.update_self ..
  have hstays : ∀ m : KeyMap, m key = some value →
      after.foldl KeyMap.after m key = some value := by
    induction after with
    | nil => exact fun m hm => hm
    | cons e after ih =>
      intro m hm
      apply ih fun e he => hafter e (List.mem_cons_of_mem _ he)
      rw [KeyMap.after_of_not_writes (hafter e List.mem_cons_self), hm]
  exact hstays _ (hput _)

/-- A value of 2^32 bytes or more is not read back even right after the put: the
    keydir has its length modulo 2^32. -/
theorem get_oversized (hrw : w.opts.isReadWrite = true) {key value : Bytes} {timestamp : UInt32}
    (hkey : key ≠ []) (hvalue : 2 ^ 32 ≤ value.length)
    (hshort : World.tooLong w.disk.data w.active.fileId
      (encodeEntry key value false timestamp).bytes = false) :
    ((w.call (.put key value timestamp)).2.call (.get key)).1 ≠ .value (.ok (some value)) := by
  rw [call_put hrw hkey hshort]
  intro hget
  obtain ⟨readers, -, -, hanswer⟩ := call_get _ key
  obtain ⟨entry, hkd, -, hholds⟩ := (hanswer value).mp hget
  obtain rfl : putEntry value timestamp _ = entry :=
    Option.some.inj ((Keydir.get_put_self _ _ _).symm.trans hkd)
  have hlen : value.length ≤ value.length % 2 ^ 32 := length_le_of_preadExact hholds
  have hlt := Nat.mod_lt value.length (Nat.two_pow_pos 32)
  omega

end

/-! ## Runs that show it -/

section

variable [Crc32Fast]

/-- A put on a new directory, with every entry filling its file. -/
def onePut : World := ((Engine.start ⟨true, false, 1⟩).call (.put [1] [2] 7)).2

/-- The same, and a delete. -/
def putDelete : World := (onePut.call (.delete [1] 8)).2

end

theorem ok_onePut : letI := ieee
    ((Engine.start ⟨true, false, 1⟩).call (.put [1] [2] 7)).1 = .unit (.ok ()) := by
  decide +kernel

/-- The put as a run. -/
theorem run_onePut : letI := ieee
    Run Faultless (Engine.start ⟨true, false, 1⟩) [.call (.put [1] [2] 7) (.unit (.ok ()))] onePut := by
  let := ieee
  have hstep := step_call (Engine.start ⟨true, false, 1⟩) (.put [1] [2] 7)
  rw [ok_onePut] at hstep
  exact (Run.nil _).snoc hstep

/-- The value put is there after a reopen. -/
theorem run_answers_onePut : letI := ieee
    Answers (acknowledged [.call (.put [1] [2] 7) (.unit (.ok ())), .reopen ⟨true, false, 9⟩]) true
      (.get [1]) (((onePut.reopen ⟨true, false, 9⟩).call (.get [1])).1) :=
  letI := ieee
  run_answers ⟨true, false, 1⟩ (run_onePut.snoc (e := .reopen ⟨true, false, 9⟩) rfl)
    (step_call _ (.get [1])) (by simp [Event.Fits, maxKeyLen, keySizeMask]) (by decide +kernel)
    (by decide +kernel)

/-- Where a merge can remove none of its inputs, the value is still there after a
    reopen. -/
theorem reopen_recovers_onePut : letI := ieee
    ((onePut.mergeBut fun _ => true).2.reopen ⟨true, false, 9⟩).Shows
      (acknowledged [.call (.put [1] [2] 7) (.unit (.ok ())),
        .call .merge (onePut.mergeBut fun _ => true).1]) := by
  let := ieee
  have hput : Run (Tolerated True) (Engine.start ⟨true, false, 1⟩)
      [.call (.put [1] [2] 7) (.unit (.ok ()))] onePut := by
    have hstep : (Event.call (.put [1] [2] 7) _).Step (Tolerated True) _ onePut :=
      step_call_tolerated (fun heq => by cases heq) (Engine.start ⟨true, false, 1⟩)
    rw [ok_onePut] at hstep
    exact (Run.nil _).snoc hstep
  exact reopen_recovers ⟨true, false, 1⟩ (hput.snoc (runs_mergeBut tolerated_performBut onePut))
    (by simp [Event.Fits, maxKeyLen, keySizeMask]) (by decide +kernel) ⟨true, false, 9⟩
    (by decide +kernel)

/-- A key put and deleted, each in a file of its own: a merge that cannot remove the
    file of the put removes the tombstone all the same and returns `Ok`, and the next
    session finds the value again. -/
theorem deleted_revived : letI := ieee
    Run (Removing True) (Engine.start ⟨true, false, 1⟩)
        [.call (.put [1] [2] 7) (.unit (.ok ())), .call (.delete [1] 8) (.unit (.ok ())),
          .call .merge (.unit (.ok ()))] (putDelete.mergeBut (· == 0)).2 ∧
      acknowledged [.call (.put [1] [2] 7) (.unit (.ok ())),
        .call (.delete [1] 8) (.unit (.ok ())), .call .merge (.unit (.ok ()))] [1] = none ∧
      (((putDelete.mergeBut (· == 0)).2.reopen ⟨true, false, 9⟩).call (.get [1])).1
        = .value (.ok (some [2])) := by
  let := ieee
  have hdelete := step_call onePut (.delete [1] 8)
  have hdeleted : (onePut.call (.delete [1] 8)).1 = .unit (.ok ()) := by decide +kernel
  have hmerge := runs_mergeBut (removing_performBut (· == 0)) putDelete
  have hmerged : (putDelete.mergeBut (· == 0)).1 = .unit (.ok ()) := by decide +kernel
  rw [hdeleted] at hdelete
  rw [hmerged] at hmerge
  refine ⟨?_, by decide +kernel, by decide +kernel⟩
  have hrun := (run_onePut.snoc hdelete).mono fun o w r w' ho =>
    show Removing True o w r w' from Or.inl ho
  exact hrun.snoc hmerge

/-- A value of 2^32 bytes. -/
def longValue : Bytes := List.replicate (2 ^ 32) 0

end Yabiir
