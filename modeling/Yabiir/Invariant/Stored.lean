/-
  Yabiir.Invariant.Stored

  What the files say, whatever the keydir says (`World.Stored`): the map of the
  records appended, in the order they were appended.  Every operation of a call other
  than merge keeps it, and so does a kill while one of them is under way
  (`World.Stored.killed`): the record being appended is there or not.
-/

import Yabiir.Invariant.Cut
import Yabiir.Sessions

namespace Yabiir

open Format

/-! ## Records appended -/

/-- The record a call appends. -/
def Call.record? : Call → Option Record
  | .put key value timestamp => some ⟨key, value, false, timestamp⟩
  | .delete key timestamp => some ⟨key, [], true, timestamp⟩
  | _ => none

/-- The map with the record of a call written. -/
def KeyMap.writeBy (m : KeyMap) (c : Call) : KeyMap := c.record?.elim m m.write

/-- The map after an operation of a call: an append that succeeds counts. -/
def KeyMap.append (m : KeyMap) (c : Call) : (o : Op) → Op.Res o → KeyMap
  | .locked (.append ..), .ok _ => m.writeBy c
  | _, _ => m

/-- The keydir that has what an operation of a call has appended in the world `w`. -/
def Keydir.append (kd : Keydir) (w : World) (c : Call) : (o : Op) → Op.Res o → Keydir
  | .locked (.append ..), .ok _ =>
    c.record?.elim kd fun rec => kd.applyOp (rec.key, rec.op w.active.fileId w.active.offset)
  | _, _ => kd

variable [Crc32Fast]

/-- The files say what the map `m` says, whatever the keydir says. -/
def World.Stored (m : KeyMap) (w : World) : Prop := ∃ kd, Ready False m (w.publish kd)

section

variable {m : KeyMap} {kd : Keydir} {w w' : World} {c : Call} {j : Journal} {o : Op} {rec : Record}

theorem Ready.onDisk (h : Ready False m w) : w.Stored m := ⟨w.keydir, h⟩

/-- What a call appends. -/
theorem rule_append {n : Nat} {encoded : EncodedEntry} (h : c.rule j (.locked (.append n encoded))) :
    ∃ rec, c.record? = some rec ∧ encoded.bytes = rec.encode ∧ rec.key ≠ [] := by
  cases c with
  | put key value timestamp =>
    obtain ⟨-, hkey, rfl⟩ := h
    exact ⟨_, rfl, rfl, hkey⟩
  | delete key timestamp =>
    obtain ⟨hkey, -, rfl⟩ := h
    exact ⟨_, rfl, rfl, hkey⟩
  | get key =>
    obtain ⟨entry, -, hreads⟩ := h
    exact hreads.elim
  | fold =>
    obtain ⟨pairs, -, p, -, hreads⟩ := h
    exact hreads.elim
  | listKeys | merge => exact h.elim

/-- An append: the record is written, or the kernel refuses it. -/
theorem Ready.append (h : Ready False m (w.publish kd)) {n : Nat} {encoded : EncodedEntry}
    (hrec : rec.Fits) (hbytes : encoded.bytes = rec.encode)
    (hids : (perform (.locked (.append n encoded)) w).2.allotted < 2 ^ 32) :
    (∃ x, (perform (.locked (.append n encoded)) w).1 = .ok x ∧
        Ready False (m.write rec) ((perform (.locked (.append n encoded)) w).2.publish
          (kd.applyOp (rec.key, rec.op w.active.fileId w.active.offset)))) ∨
      (∃ e, (perform (.locked (.append n encoded)) w).1 = .error e) ∧
        Ready False m ((perform (.locked (.append n encoded)) w).2.publish kd) := by
  cases hlong : World.tooLong w.disk.data w.active.fileId encoded.bytes with
  | true =>
    rw [perform_append_tooLong _ _ _ hlong]
    exact Or.inr ⟨⟨_, rfl⟩, h.refused⟩
  | false =>
    rw [perform_append _ _ _ hlong] at hids ⊢
    refine Or.inl ⟨_, rfl, ?_⟩
    -- a keydir that has the record as well
    let kd' := kd.applyOp (rec.key, rec.op w.active.fileId w.active.offset)
    have hkd : ∀ key, kd'.get key = if key = rec.key then rec.op w.active.fileId w.active.offset
        else kd.get key := fun key => get_applyOp _ _ _
    have happended : Ready False (m.write rec) ((w.appended rec.encode).publish kd') :=
      h.appended hrec (hbytes ▸ hlong) hkd
    rw [hbytes] at hids ⊢
    rw [publish_appendRotate]
    unfold World.appendRotate at hids
    split
    · rename_i hfull
      rw [if_pos hfull] at hids
      exact happended.rotated hids
    · exact happended

/-- Every operation of a call other than merge. -/
theorem Ready.act (h : Ready False m (w.publish kd)) (hrule : c.rule j o)
    (hfits : ∀ rec n encoded, c.record? = some rec → o = .locked (.append n encoded) → rec.Fits)
    (hids : (perform o w).2.allotted < 2 ^ 32) :
    Ready False (m.append c o (perform o w).1)
      ((perform o w).2.publish (kd.append w c o (perform o w).1)) := by
  have hcalls := rule_isCalls hrule
  cases o with
  | locked s =>
    cases s with
    | append n encoded =>
      obtain ⟨rec, hrec, hbytes, -⟩ := rule_append hrule
      rcases h.append (hfits rec n encoded hrec rfl) hbytes hids with ⟨x, hx, hready⟩ | ⟨⟨e, he⟩, hready⟩
      · rw [hx]
        simp only [KeyMap.append, KeyMap.writeBy, Keydir.append, hrec, Option.elim_some]
        exact hready
      · rw [he]
        exact hready
    | activeFileId | restoreActive => cases hcalls
  | commit generation =>
    show Ready False m ((perform (.commit generation) w).2.publish kd)
    rw [publish_commit]
    exact h.commit generation
  | keydirInsert | keydirRemove => exact h
  | keydirGet | keydirSnapshot | pread => exact h
  | openReader id =>
    obtain ⟨readers, -, hw, -⟩ := perform_openReader w id
    rw [hw]
    exact h.readers readers
  | _ => cases hcalls

theorem World.Stored.act (h : w.Stored m) (hrule : c.rule j o)
    (hfits : ∀ rec n encoded, c.record? = some rec → o = .locked (.append n encoded) → rec.Fits)
    (hids : (perform o w).2.allotted < 2 ^ 32) :
    (perform o w).2.Stored (m.append c o (perform o w).1) := by
  obtain ⟨kd, hready⟩ := h
  exact ⟨_, hready.act hrule hfits hids⟩

/-! ## Kills -/

/-- Killed between two operations, the process leaves what is stored. -/
theorem World.Stored.resting (h : w.Stored m) {r : Restart} (hkill : restart r w [] = some w')
    (hids : w'.allotted < 2 ^ 32) : Resting False m w' := by
  obtain ⟨kd, hready⟩ := h
  obtain rfl := Option.some.inj hkill
  exact (hready.stores r).resting r.opts le_rfl hids

/-- Killed while an operation of a call other than merge is under way, it leaves that or,
    where the operation is an append, that with the record written. -/
theorem World.Stored.killed (h : w.Stored m) (hrule : c.rule j o)
    (hfits : ∀ rec n encoded, c.record? = some rec → o = .locked (.append n encoded) → rec.Fits)
    {r : Restart} (hkill : restart r w [o] = some w') (hids : w'.allotted < 2 ^ 32) :
    Resting False m w' ∨
      (∃ n encoded, o = .locked (.append n encoded)) ∧ Resting False (m.writeBy c) w' := by
  have hcalls := rule_isCalls hrule
  have hsame : w.interrupted r.stage o = w → Resting False m w' := by
    intro heq
    have hkill' : some (World.open ((w.interrupted r.stage o).crash r) r.opts
        (w.interrupted r.stage o).allotted (w.interrupted r.stage o).refused) = some w' := hkill
    rw [heq] at hkill'
    exact h.resting hkill' hids
  cases o with
  | locked s =>
    cases s with
    | append n encoded =>
      obtain ⟨rec, hrec, hbytes, -⟩ := rule_append hrule
      have hfit := hfits rec n encoded hrec rfl
      obtain ⟨kd, hready⟩ := h
      have hfiles := hready.files.of_publish
      obtain ⟨front, hfront, hleaves⟩ := (w.midway_append hfiles n encoded r.stage).leaves r
      obtain rfl := Option.some.inj hkill
      rw [hbytes] at hfront
      by_cases hwhole : front = rec.encode
      · -- the record got there whole
        right
        subst hwhole
        have hwrite : m.writeBy c = m.write rec := by rw [KeyMap.writeBy, hrec, Option.elim_some]
        rw [hwrite]
        exact ⟨⟨n, encoded, rfl⟩,
          (hleaves.stores_written hready hfit).resting r.opts le_rfl hids⟩
      · left
        have hlt : front.length < rec.encode.length := by
          refine lt_of_le_of_ne hfront.length_le fun heq => hwhole ?_
          exact hfront.eq_of_length heq
        have hstores := hleaves.stores_torn hfiles (hready.stores r) (torn_of_front hfit hfront hlt)
        exact hstores.resting r.opts le_rfl hids
    | activeFileId | restoreActive => cases hcalls
  | keydirGet | keydirInsert | keydirRemove | keydirSnapshot | openReader | pread | commit =>
    exact Or.inl (hsame rfl)
  | _ => cases hcalls

end

end Yabiir
