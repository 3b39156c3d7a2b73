/-
  Yabiir.Crashed

  Single-threaded runs in which the process may be killed at any moment, also in the
  middle of a call (`resting_of_steps`).  What the next session finds is the map as it
  was before the call or, if the call was a put or a delete, perhaps as it is after it:
  no write that was acknowledged is lost, and a merge cut short changes nothing.
-/

import Yabiir.Answers
import Yabiir.Invariant.Halted
import Yabiir.Invariant.Stored
import Yabiir.Lib.Steps

namespace Yabiir

open Format

/-! ## What may happen -/

/-- What happens to a directory: an event of a single-threaded run, or a call during whose
    operation number `n` the process is killed. -/
inductive Happening where
  | whole (e : Event)
  | cutShort (c : Call) (n : Nat) (r : Restart)

/-- Puts are within the format's limits. -/
def Happening.Fits : Happening → Prop
  | .whole e => e.Fits
  | .cutShort c _ _ => Event.Fits (.call c (.unit (.ok ())))

/-- The map `m'` may be what there is after a call that found `m` was cut short. -/
def Call.MayLeave (c : Call) (m m' : KeyMap) : Prop :=
  m' = m ∨ ∃ rec, c.record? = some rec ∧ rec.key ≠ [] ∧ m' = m.write rec

/-- The maps there may be after a happening. -/
def KeyMap.Leads (m : KeyMap) : Happening → KeyMap → Prop
  | .whole e, m' => m' = m.after e
  | .cutShort c _ _, m' => c.MayLeave m m'

section

variable [Crc32Fast] {m m' : KeyMap} {w w' : World} {c : Call} {n : Nat} {r : Restart}

/-- Kill the process during operation number `n` of the call, and open the directory
    again. -/
def World.cutShort (w : World) (c : Call) (n : Nat) (r : Restart) : Option World :=
  ((Engine.code w.opts c).visits perform w)[n]?.bind fun x => restart r x.1 [x.2]

def World.Leads (w : World) : Happening → World → Prop
  | .whole e, w' => e.Step Faultless w w'
  | .cutShort c n r, w' => w.cutShort c n r = some w'

/-! ## Calls cut short -/

omit [Crc32Fast] in
theorem Call.MayLeave.write {rec : Record} (h : c.MayLeave m m') (hrec : c.record? = some rec)
    (hkey : rec.key ≠ []) : c.MayLeave m (m'.write rec) := by
  refine Or.inr ⟨rec, hrec, hkey, ?_⟩
  rcases h with rfl | ⟨rec', hrec', -, rfl⟩
  · rfl
  · cases hrec.symm.trans hrec'
    rw [KeyMap.write, KeyMap.write, Function.update_idem]

/-- A merge cut short leaves the map. -/
theorem Ready.merge_cutShort (h : Ready False m w) {x : World × Op}
    (hx : x ∈ (Engine.code w.opts .merge).visits perform w) (hkill : restart r x.1 [x.2] = some w')
    (hids : w'.allotted < 2 ^ 32) : Resting False m w' := by
  obtain ⟨k, hk, hnone⟩ := merge_begins h.files.readWrite
  have hfollows : (Engine.code w.opts .merge).Follows MergeLog.protocol MergeLog.Ends .init :=
    Engine.merge_follows w.opts
  rw [hk] at hfollows hx
  obtain ⟨x₁, hR₁, h₁⟩ := hfollows w.active.fileId
  obtain ⟨x₂, hR₂, h₂⟩ := h₁ (.ok w.disk.data.discover)
  obtain ⟨-, rfl⟩ := hR₁
  obtain ⟨-, -, rfl⟩ := hR₂
  obtain rfl := Option.some.inj hkill
  have hids' : (x.1.interrupted r.stage x.2).allotted < 2 ^ 32 := by
    rw [allotted_open] at hids
    omega
  apply Disk.Stores.resting (n := (x.1.interrupted r.stage x.2).allotted) _ r.opts le_rfl hids
  rcases Prog.mem_visits_act.mp hx with rfl | hx
  · dsimp only
    rw [interrupted_activeFileId]
    exact h.stores r
  rcases Prog.mem_visits_act.mp hx with rfl | hx
  · exact h.stores r
  -- it has listed its inputs
  have hx' : x ∈ (k w.active.fileId (.ok w.disk.data.discover)).visits perform w := hx
  by_cases hinputs : (MergeLog.begun w).inputs = []
  · rw [hnone _ _ hinputs] at hx'
    cases hx'
  have hinv : ∀ g op w g', MergeLog.protocol g op (perform op w).1 g' →
      (w.allotted < 2 ^ 32 → ∃ own, AtWork True own g w ∧ Carrying m g w ∧ Aside False m g w ∧
        Lasting m g w ∧ ∀ id, own id → id ∈ g.ids) →
      (perform op w).2.allotted < 2 ^ 32 → ∃ own, AtWork True own g' (perform op w).2 ∧
        Carrying m g' (perform op w).2 ∧ Aside False m g' (perform op w).2 ∧
        Lasting m g' (perform op w).2 ∧ ∀ id, own id → id ∈ g'.ids := by
    intro g op w g' hR hwork hlt
    have hO : Outcome op w (perform op w).1 (perform op w).2 := Or.inl rfl
    have hO' : Removing False op w (perform op w).1 (perform op w).2 := Or.inl rfl
    obtain ⟨own, hwork, hc, ha, hlasting, hown⟩ := hwork (hO.allotted.2.trans_lt hlt)
    refine ⟨_, (hwork.step hR hO hlt).1, hc.step hwork hR hO' hlt,
      ha.step hc hwork hR ⟨hO', fun hf => hf.elim⟩ hlt, hlasting.step hc ha hwork hR rfl, ?_⟩
    rintro id (hid | hid)
    · exact MergeLog.ids_mono hR (hown id hid)
    · exact hid
  obtain ⟨g, g', hwork, hR⟩ := Prog.Follows.visits_along hinv h₂ (fun _ => ⟨fun _ => False,
    atWork_begun h.files, .begun h hinputs, .begun h, .begun h, fun _ hid => hid.elim⟩) hx'
  obtain ⟨own, hwork, hc, -, hlasting, hown⟩ := hwork
    ((x.1.interrupted_grows r.stage x.2).1.trans_lt hids')
  exact hlasting.stores hc hwork hown hR

theorem Call.MayLeave.append {j : Journal} {o : Op} (h : c.MayLeave m m') (hrule : c.rule j o)
    (res : Op.Res o) : c.MayLeave m (m'.append c o res) := by
  unfold KeyMap.append
  split
  · obtain ⟨rec, hrec, -, hkey⟩ := rule_append hrule
    rw [KeyMap.writeBy, hrec, Option.elim_some]
    exact h.write hrec hkey
  · exact h

theorem rule_keydirGet {j : Journal} {key : Bytes} (h : c.rule j (.keydirGet key)) : j = [] := by
  cases c with
  | get | delete => exact h.1
  | fold =>
    obtain ⟨_, -, _, -, hreads⟩ := h
    exact hreads.elim
  | put | listKeys | merge => exact h.elim

/-- The record a call appends is within the format's limits, if the keys it found are. -/
theorem fits_of_rule {j : Journal} {encoded : EncodedEntry} {rec : Record}
    (hfits : Event.Fits (.call c (.unit (.ok ()))))
    (hfound : ∀ key entry, (⟨.keydirGet key, some entry⟩ : Σ o : Op, Op.Res o) ∈ j →
      key.length ≤ maxKeyLen)
    (hrule : c.rule j (.locked (.append n encoded))) (hrec : c.record? = some rec) : rec.Fits := by
  cases c with
  | put key value timestamp =>
    cases hrec
    exact hfits
  | delete key timestamp =>
    cases hrec
    obtain ⟨-, ⟨entry, rfl⟩, -⟩ := hrule
    exact ⟨hfound key entry List.mem_cons_self, by simp⟩
  | _ => cases hrec

/-- A key in the keydir is within the format's limits. -/
theorem Ready.fits_key (h : Ready False m w) {key : Bytes} {entry : KeydirEntry}
    (hkd : w.keydir.get key = some entry) : key.length ≤ maxKeyLen := by
  obtain ⟨value, hm, -⟩ := h.shows.keydir hkd
  obtain ⟨entry', -, hleads⟩ := h.present key value hm
  obtain ⟨p, hp, -, hkey, -⟩ := World.scans_iff.mp hleads.scans
  exact hkey ▸ (mem_readAllEntries hp).fits.key

/-- Any other call cut short leaves the map, or the map with its record written. -/
theorem Ready.call_cutShort (h : Ready False m w) (hc : c ≠ .merge)
    (hfits : Event.Fits (.call c (.unit (.ok ())))) {x : World × Op}
    (hx : x ∈ (Engine.code w.opts c).visits perform w) (hkill : restart r x.1 [x.2] = some w')
    (hids : w'.allotted < 2 ^ 32) : ∃ m', c.MayLeave m m' ∧ Resting False m' w' := by
  let Inv : Journal → World → Prop := fun j w₁ => w₁.allotted < 2 ^ 32 →
    (∃ m', c.MayLeave m m' ∧ w₁.Stored m') ∧ (j = [] → w₁.keydir = w.keydir) ∧
      ∀ key entry, (⟨.keydirGet key, some entry⟩ : Σ o : Op, Op.Res o) ∈ j → key.length ≤ maxKeyLen
  have hstep : ∀ j o w₁ j', Prog.Journal.protocol c.rule j o (perform o w₁).1 j' → Inv j w₁ →
      Inv j' (perform o w₁).2 := by
    rintro j o w₁ j' ⟨hrule, rfl⟩ hinv hlt
    have hO : Outcome o w₁ (perform o w₁).1 (perform o w₁).2 := Or.inl rfl
    obtain ⟨⟨m', hleave, hstored⟩, hkd, hfound⟩ := hinv (hO.allotted.2.trans_lt hlt)
    refine ⟨⟨_, hleave.append hrule _, hstored.act hrule ?_ hlt⟩, fun hnil => ?_,
      fun key entry hmem => ?_⟩
    · rintro rec n encoded hrec rfl
      exact fits_of_rule hfits hfound hrule hrec
    · simp [Prog.Journal.log] at hnil
    · rcases List.mem_append.mp hmem with hmem | hmem
      · exact hfound key entry hmem
      · -- what the call finds, the keydir had at its start
        obtain ⟨rfl, hres⟩ := Sigma.mk.inj (List.mem_singleton.mp hmem)
        have hget : w₁.keydir.get key = some entry := (eq_of_heq hres).symm
        rw [hkd (rule_keydirGet hrule)] at hget
        exact h.fits_key hget
  obtain ⟨j, j', hinv, hrule, -⟩ := (Engine.code_follows w.opts hc).visits_along hstep
    (fun _ => ⟨⟨m, Or.inl rfl, h.onDisk⟩, fun _ => rfl, fun _ _ hmem => (by cases hmem)⟩) hx
  have hlt : x.1.allotted < 2 ^ 32 := by
    have hgrows := (x.1.interrupted_grows r.stage x.2).1
    obtain rfl := Option.some.inj hkill
    rw [allotted_open] at hids
    omega
  obtain ⟨⟨m', hleave, hstored⟩, -, hfound⟩ := hinv hlt
  rcases hstored.killed hrule (fun rec n encoded hrec ho =>
    fits_of_rule hfits hfound (ho ▸ hrule) hrec) hkill hids with hrest | ⟨⟨n, encoded, ho⟩, hrest⟩
  · exact ⟨m', hleave, hrest⟩
  · obtain ⟨rec, hrec, -, hkey⟩ := rule_append (ho ▸ hrule)
    refine ⟨_, ?_, hrest⟩
    rw [KeyMap.writeBy, hrec, Option.elim_some]
    exact hleave.write hrec hkey

/-- The calls that only read do no more than open files, one operation at a time. -/
theorem visits_reads (hc : c.isRead = true) {x : World × Op}
    (hx : x ∈ (Engine.code w.opts c).visits perform w) :
    ∃ readers, x.1.interrupted r.stage x.2 = { w with readers } := by
  have hne : c ≠ .merge := by
    rintro rfl
    cases hc
  have hlook : ∀ j o w₁, c.rule j o → (∃ readers, w₁ = { w with readers }) →
      w₁.interrupted r.stage o = w₁ ∧ ∃ readers, (perform o w₁).2 = { w with readers } := by
    rintro j o w₁ hrule ⟨readers, rfl⟩
    have hcalls := rule_isCalls hrule
    cases o with
    | openReader id =>
      obtain ⟨readers', -, hw, -⟩ := perform_openReader { w with readers } id
      exact ⟨rfl, readers', hw⟩
    | keydirGet | keydirSnapshot | pread => exact ⟨rfl, readers, rfl⟩
    | keydirInsert | keydirRemove | commit =>
      cases c with
      | get => exact hrule.elim fun _ h => h.2.elim
      | fold =>
        obtain ⟨_, -, _, -, hreads⟩ := hrule
        exact hreads.elim
      | listKeys => exact hrule.elim
      | _ => cases hc
    | locked s =>
      cases s with
      | append n encoded =>
        obtain ⟨rec, hrec, -⟩ := rule_append hrule
        cases c with
        | put | delete => cases hc
        | _ => cases hrec
      | _ => cases hcalls
    | _ => cases hcalls
  obtain ⟨j, j', hw, hrule, -⟩ := (Engine.code_follows w.opts hne).visits_along
    (I := fun _ w₁ => ∃ readers, w₁ = { w with readers })
    (fun j o w₁ j' hR h => (hlook j o w₁ hR.1 h).2) ⟨w.readers, rfl⟩ hx
  obtain ⟨readers, heq⟩ := id hw
  exact ⟨readers, (hlook j x.2 x.1 hrule hw).1.trans heq⟩

/-! ## Lives of a directory -/

theorem Event.Step.tolerated {e : Event} (h : e.Step Faultless w w') : e.Step (Tolerated False) w w' := by
  cases e with
  | call c res => exact Prog.Runs.mono h fun _ _ _ _ ho => Faultless.tolerated ho
  | reopen opts => exact h
  | killed r => exact h

/-- Every happening. -/
theorem Resting.happens (h : Resting False m w) {e : Happening} (hstep : w.Leads e w') (hfits : e.Fits)
    (hids : w'.allotted < 2 ^ 32) (hrefused : w'.refused = false) :
    ∃ m', m.Leads e m' ∧ Resting False m' w' := by
  cases e with
  | whole e =>
    exact ⟨m.after e, rfl, h.step (Event.Step.tolerated hstep) hfits hids hrefused⟩
  | cutShort c n r =>
    obtain ⟨x, hx, hkill⟩ := Option.bind_eq_some_iff.mp hstep
    replace hx := List.mem_of_getElem? hx
    cases h with
    | ready h =>
      by_cases hc : c = .merge
      · subst hc
        exact ⟨m, Or.inl rfl, h.merge_cutShort hx hkill hids⟩
      · exact h.call_cutShort hc hfits hx hkill hids
    | @readOnly disk n₀ h opts hro allotted hn refused readers =>
      cases hread : c.isRead with
      | false =>
        obtain ⟨e, hcode⟩ := code_readOnly hread hro
        rw [show World.opts _ = _ from opts_open, hcode] at hx
        cases hx
      | true =>
        -- nothing is written, so the directory is the one opened
        obtain ⟨readers', hw⟩ := visits_reads (r := r) hread hx
        have hkill' : some (World.open ((x.1.interrupted r.stage x.2).crash r) r.opts
            (x.1.interrupted r.stage x.2).allotted (x.1.interrupted r.stage x.2).refused)
              = some w' := hkill
        rw [hw] at hkill'
        obtain rfl := Option.some.inj hkill'
        refine ⟨m, Or.inl rfl, ?_⟩
        have hsame : ({ World.open disk opts allotted refused with readers := readers' }).crash r = disk :=
          crash_readOnly h hro r
        rw [hsame] at hids ⊢
        apply h.resting r.opts _ hids
        show n₀ ≤ (World.open disk opts allotted refused).allotted
        rw [allotted_open]
        exact hn.trans (Nat.le_succ _)

theorem World.Leads.grows {e : Happening} (h : w.Leads e w') :
    w.allotted ≤ w'.allotted ∧ (w.refused = true → w'.refused = true) := by
  cases e with
  | whole e =>
    exact (Event.Step.tolerated h).grows
  | cutShort c n r =>
    obtain ⟨x, hx, hkill⟩ := Option.bind_eq_some_iff.mp h
    let grown : World → Prop := fun w' =>
      w.allotted ≤ w'.allotted ∧ (w.refused = true → w'.refused = true)
    have hvisit : grown x.1 := by
      refine Prog.visits_keeps (P := grown) (fun o w₁ hw => ?_) ⟨le_rfl, fun h => h⟩ x
        (List.mem_of_getElem? hx)
      have hO : Outcome o w₁ (perform o w₁).1 (perform o w₁).2 := Or.inl rfl
      exact ⟨hw.1.trans hO.allotted.2, fun hrefused => refused_perform o (hw.2 hrefused)⟩
    obtain ⟨hallotted, hrefused⟩ := x.1.interrupted_grows r.stage x.2
    obtain rfl := Option.some.inj hkill
    rw [allotted_open, refused_open]
    exact ⟨(hvisit.1.trans hallotted).trans (Nat.le_succ _), fun hw => hrefused (hvisit.2 hw)⟩

theorem life_resting (opts : Options) {es : List Happening}
    (hlife : Steps World.Leads (Engine.start opts) es w) (hfits : ∀ e ∈ es, e.Fits)
    (hids : w.allotted < 2 ^ 32) (hrefused : w.refused = false) :
    ∃ m, Steps KeyMap.Leads (fun _ => none) es m ∧ Resting False m w := by
  let ok : World → Prop := fun w => w.allotted < 2 ^ 32 ∧ w.refused = false
  have hback : ∀ w e w', World.Leads w e w' → ok w' → ok w := by
    rintro w e w' hstep ⟨hids, hrefused⟩
    obtain ⟨hallotted, hgrows⟩ := hstep.grows
    refine ⟨hallotted.trans_lt hids, ?_⟩
    cases hw : w.refused with
    | false => rfl
    | true => cases hrefused.symm.trans (hgrows hw)
  exact hlife.simulated (I := fun w m => Resting False m w) hback
    (fun w e w' m hw hstep hfit hok => hw.happens hstep hfit hok.1 hok.2) hfits ⟨hids, hrefused⟩
    (resting_start opts)

end

/-! ## A life that shows it -/

section

variable [Crc32Fast]

/-- A merge killed in the middle of the record it copies. -/
def mergeCut : World :=
  (onePut.cutShort .merge 7 ⟨0, fun _ => 9, fun _ => 0, ⟨true, false, 1⟩⟩).getD onePut

/-- After that a put, killed with the first bytes of its record written. -/
def putCut : World :=
  (mergeCut.cutShort (.put [3] [4] 8) 0 ⟨2, fun _ => 17, fun _ => 0, ⟨true, false, 1⟩⟩).getD mergeCut

end

/-- How `putCut` comes about. -/
theorem steps_putCut : letI := ieee
    Steps World.Leads (Engine.start ⟨true, false, 1⟩)
      [.whole (.call (.put [1] [2] 7) (.unit (.ok ()))),
        .cutShort .merge 7 ⟨0, fun _ => 9, fun _ => 0, ⟨true, false, 1⟩⟩,
        .cutShort (.put [3] [4] 8) 0 ⟨2, fun _ => 17, fun _ => 0, ⟨true, false, 1⟩⟩] putCut := by
  let := ieee
  have hsome : ∀ {o : Option World} {w : World}, o.isSome = true → o = some (o.getD w) := by
    intro o w h
    obtain ⟨w', rfl⟩ := Option.isSome_iff_exists.mp h
    rfl
  have hput : World.Leads (Engine.start ⟨true, false, 1⟩)
      (.whole (.call (.put [1] [2] 7) (.unit (.ok ())))) onePut := by
    have hstep := step_call (Engine.start ⟨true, false, 1⟩) (.put [1] [2] 7)
    rwa [ok_onePut] at hstep
  have hmerge : World.Leads onePut (.cutShort .merge 7 _) mergeCut :=
    hsome (w := onePut) (by decide +kernel)
  have hput' : World.Leads mergeCut (.cutShort (.put [3] [4] 8) 0 _) putCut :=
    hsome (w := mergeCut) (by decide +kernel)
  exact ((Steps.nil.snoc hput).snoc hmerge).snoc hput'

end Yabiir
