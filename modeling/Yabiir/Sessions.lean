/-
  Yabiir.Sessions

  Single-threaded runs: calls, one after the other, in sessions on one directory.
  Whatever has happened, gets answer from the map of acknowledged puts and deletes
  (`Run.resting`, `Resting.shows`).
-/

import Yabiir.Invariant.Merged
import Yabiir.Invariant.Reopen

namespace Yabiir

open Format

/-! ## Runs -/

/-- What happens in a single-threaded run. -/
inductive Event where
  | call (c : Call) (r : Resp)
  /-- The engine is dropped, and the directory opened again. -/
  | reopen (opts : Options)
  /-- The process is killed between two calls, and the directory opened again. -/
  | killed (r : Restart)

/-- Dropping the engine: the `BufWriter` of the active file flushes what it holds. -/
def World.close (w : World) : World := w.modifyData w.active.fileId .flushBuf

/-- What may come of an operation. -/
abbrev Outcomes := (o : Op) → World → Op.Res o → World → Prop

/-- Nothing goes wrong. -/
def Faultless : Outcomes := fun o w r w' => perform o w = (r, w')

section

variable [Crc32Fast]

/-- `drop`, then `Engine::open`. -/
def World.reopen (w : World) (opts : Options) : World :=
  .open (w.close.crash ⟨0, fun _ => 0, fun _ => 0, opts⟩) opts w.allotted w.refused

def Event.Step (Out : Outcomes) (w : World) : Event → World → Prop
  | .call c r, w' => (Engine.code w.opts c).Runs Out w r w'
  | .reopen opts, w' => w' = w.reopen opts
  | .killed r, w' => restart r w [] = some w'

/-- The run with these events leads from one world to another. -/
inductive Run (Out : Outcomes) : World → List Event → World → Prop where
  | nil (w : World) : Run Out w [] w
  | snoc {w w' w'' : World} {es : List Event} {e : Event} (h : Run Out w es w')
      (hstep : e.Step Out w' w'') : Run Out w (es ++ [e]) w''

end

/-- The map after an event: a put or a delete counts once it has returned `Ok`. -/
def KeyMap.after (m : KeyMap) : Event → KeyMap
  | .call (.put key value _) (.unit (.ok ())) => m.put key value
  | .call (.delete key _) (.unit (.ok ())) => m.delete key
  | _ => m

/-- The map of acknowledged puts and deletes. -/
def acknowledged (es : List Event) : KeyMap := es.foldl KeyMap.after fun _ => none

/-- Puts are within the format's limits. -/
def Event.Fits : Event → Prop
  | .call (.put key value _) _ => key.length ≤ maxKeyLen ∧ value.length < 2 ^ 32
  | _ => True

/-! ## Answers -/

/-- The keydir leads to what the map `m` holds. -/
structure World.Shows (w : World) (m : KeyMap) : Prop where
  absent : ∀ key, m key = none → w.keydir.get key = none
  present : ∀ key value, m key = some value →
    ∃ entry, w.keydir.get key = some entry ∧ w.Opens entry.fileId ∧ w.Holds entry value

section

variable [Crc32Fast] {m : KeyMap} {w : World} {key : Bytes}

omit [Crc32Fast] in
/-- The keys of the keydir are those of the map. -/
theorem World.Shows.keydir (h : w.Shows m) {entry : KeydirEntry}
    (hkd : w.keydir.get key = some entry) :
    ∃ value, m key = some value ∧ w.Opens entry.fileId ∧ w.Holds entry value := by
  cases hm : m key with
  | none => cases (h.absent key hm).symm.trans hkd
  | some value =>
    obtain ⟨entry', hkd', hopens, hholds⟩ := h.present key value hm
    cases hkd.symm.trans hkd'
    exact ⟨value, rfl, hopens, hholds⟩

/-- A get answers what the map holds. -/
theorem World.Shows.get (h : w.Shows m) (key : Bytes) :
    (w.call (.get key)).1 = .value (.ok (m key)) := by
  cases hm : m key with
  | none => exact call_get_none (h.absent key hm)
  | some value =>
    obtain ⟨-, -, -, hanswer⟩ := call_get w key
    exact (hanswer value).mpr (h.present key value hm)

/-- A listing names each key of the map once. -/
theorem World.Shows.listKeys (h : w.Shows m) : ∃ keys, (w.call .listKeys).1 = .keys (.ok keys) ∧
    keys.Nodup ∧ ∀ key, key ∈ keys ↔ (m key).isSome := by
  refine ⟨_, rfl, w.keydir.nodup_snapshot, fun key => ?_⟩
  constructor
  · intro hkey
    obtain ⟨⟨key', entry⟩, hp, rfl⟩ := List.mem_map.mp hkey
    obtain ⟨value, hm, -⟩ := h.keydir ((Keydir.mem_snapshot _ _ _).mp hp)
    exact hm ▸ rfl
  · intro hkey
    obtain ⟨value, hm⟩ := Option.isSome_iff_exists.mp hkey
    obtain ⟨entry, hkd, -⟩ := h.present key value hm
    exact List.mem_map.mpr ⟨(key, entry), (Keydir.mem_snapshot _ _ _).mpr hkd, rfl⟩

/-- A fold visits each pair of the map once. -/
theorem World.Shows.fold (h : w.Shows m) : ∃ pairs, (w.call .fold).1 = .pairs (.ok pairs) ∧
    (pairs.map Prod.fst).Nodup ∧ ∀ key value, (key, value) ∈ pairs ↔ m key = some value := by
  have hread : ∀ p ∈ w.keydir.snapshot,
      m p.1 = some ((m p.1).getD []) ∧ w.Opens p.2.fileId ∧ w.Holds p.2 ((m p.1).getD []) := by
    rintro ⟨key, entry⟩ hp
    obtain ⟨value, hm, hread⟩ := h.keydir ((Keydir.mem_snapshot _ _ _).mp hp)
    rw [hm]
    exact ⟨rfl, hread⟩
  obtain ⟨readers, hfold⟩ := call_fold (fun p => (m p.1).getD []) w
    fun p hp => (hread p hp).2
  refine ⟨_, congrArg Prod.fst hfold, ?_, fun key value => ?_⟩
  · rw [List.map_map]
    exact w.keydir.nodup_snapshot
  · constructor
    · intro hmem
      obtain ⟨p, hp, heq⟩ := List.mem_map.mp hmem
      obtain ⟨rfl, rfl⟩ := Prod.mk.inj heq
      exact (hread p hp).1
    · intro hm
      obtain ⟨entry, hkd, -⟩ := h.present key value hm
      refine List.mem_map.mpr ⟨(key, entry), (Keydir.mem_snapshot _ _ _).mpr hkd, ?_⟩
      simp [hm]

/-- The calls that only read. -/
def Call.isRead : Call → Bool
  | .get _ | .listKeys | .fold => true
  | _ => false

/-- They do no more than open files. -/
theorem World.Shows.reads (h : w.Shows m) (c : Call) (hc : c.isRead = true) :
    ∃ readers, (w.call c).2 = { w with readers } := by
  cases c with
  | get key =>
    obtain ⟨readers, -, hw, -⟩ := call_get w key
    exact ⟨readers, hw⟩
  | listKeys => exact ⟨w.readers, rfl⟩
  | fold =>
    have hread : ∀ p ∈ w.keydir.snapshot,
        w.Opens p.2.fileId ∧ w.Holds p.2 ((m p.1).getD []) := by
      rintro ⟨key, entry⟩ hp
      obtain ⟨value, hm, hread⟩ := h.keydir ((Keydir.mem_snapshot _ _ _).mp hp)
      rw [hm]
      exact hread
    obtain ⟨readers, hfold⟩ := call_fold (fun p => (m p.1).getD []) w hread
    exact ⟨readers, congrArg Prod.snd hfold⟩
  | _ => cases hc

variable {failing : Prop}

theorem Ready.shows (h : Ready failing m w) : w.Shows m where
  absent := h.absent
  present := fun key value hm => by
    obtain ⟨entry, hkd, hleads⟩ := h.present key value hm
    exact ⟨entry, hkd, Or.inr hleads.linked, hleads.holds⟩

/-! ## Calls -/

omit [Crc32Fast] in
theorem KeyMap.write_put (m : KeyMap) (key value : Bytes) (timestamp : UInt32) :
    m.write ⟨key, value, false, timestamp⟩ = m.put key value := rfl

omit [Crc32Fast] in
theorem KeyMap.write_delete (m : KeyMap) (key : Bytes) (timestamp : UInt32) :
    m.write ⟨key, [], true, timestamp⟩ = m.delete key := rfl

/-- A refused write changes nothing. -/
theorem Ready.refused (h : Ready failing m w) : Ready failing m { w with refused := true } := by
  have hA : AgreesOff (fun _ => False) w { w with refused := true } := .of_eq rfl rfl rfl rfl rfl
  exact h.alike (h.files.agreesOff hA fun _ hx => hx) rfl (fun _ => rfl) rfl rfl

omit [Crc32Fast] in
/-- The entry a put publishes is the one a scan finds for its record. -/
theorem putEntry_appended {key value : Bytes} (timestamp : UInt32) (hvalue : value.length < 2 ^ 32)
    {id : FileId} {pos n : Nat} (hlength : n = headerSize + (key.length + value.length)) :
    putEntry value timestamp (id, pos + (n - value.length))
      = keydirEntryOf id pos (Record.entry ⟨key, value, false, timestamp⟩) := by
  have hpos : pos + (n - value.length) = pos + headerSize + key.length := by omega
  simp only [putEntry, keydirEntryOf, Record.entry, headerOf, valuePosOf, hpos,
    Nat.mod_eq_of_lt hvalue]

theorem Ready.put (h : Ready failing m w) (key value : Bytes) (timestamp : UInt32)
    (hkey : key.length ≤ maxKeyLen) (hvalue : value.length < 2 ^ 32)
    (hids : (w.call (.put key value timestamp)).2.allotted < 2 ^ 32) :
    Ready failing (m.after (.call (.put key value timestamp) (w.call (.put key value timestamp)).1))
      (w.call (.put key value timestamp)).2 := by
  by_cases hempty : key = []
  · subst hempty
    rw [call_put_empty]
    exact h
  · cases hlong : World.tooLong w.disk.data w.active.fileId
      (encodeEntry key value false timestamp).bytes with
    | true =>
      rw [call_put_tooLong h.files.readWrite hempty hlong]
      exact h.refused
    | false =>
      rw [call_put h.files.readWrite hempty hlong] at hids ⊢
      have hr : Record.Fits ⟨key, value, false, timestamp⟩ := ⟨hkey, hvalue⟩
      refine h.stored hr hlong (fun key' => ?_) hids
      have hentry : putEntry value timestamp (w.active.fileId, w.active.offset
            + ((encodeEntry key value false timestamp).bytes.length - value.length))
          = keydirEntryOf w.active.fileId w.active.offset
              (Record.entry ⟨key, value, false, timestamp⟩) :=
        putEntry_appended timestamp hvalue (Record.length_encode ⟨key, value, false, timestamp⟩)
      rw [hentry, Keydir.get_put]
      rfl

theorem Ready.delete (h : Ready failing m w) (key : Bytes) (timestamp : UInt32)
    (hids : (w.call (.delete key timestamp)).2.allotted < 2 ^ 32) :
    Ready failing (m.after (.call (.delete key timestamp) (w.call (.delete key timestamp)).1))
      (w.call (.delete key timestamp)).2 := by
  by_cases hempty : key = []
  · subst hempty
    rw [call_delete_empty]
    exact h
  · cases hkd : w.keydir.get key with
    | none =>
      rw [call_delete_none h.files.readWrite hempty timestamp hkd]
      have hm : m key = none := by
        cases hm : m key with
        | none => rfl
        | some value =>
          obtain ⟨entry, hkd', -⟩ := h.present key value hm
          cases hkd.symm.trans hkd'
      have hsame : m.delete key = m := by
        rw [KeyMap.delete, ← hm, Function.update_eq_self]
      show Ready failing (m.delete key) w
      rw [hsame]
      exact h
    | some entry =>
      cases hlong : World.tooLong w.disk.data w.active.fileId
        (encodeEntry key [] true timestamp).bytes with
      | true =>
        rw [call_delete_tooLong h.files.readWrite hempty hkd hlong]
        exact h.refused
      | false =>
        rw [call_delete h.files.readWrite hempty hkd hlong] at hids ⊢
        -- the key is one that was put, within the limits
        obtain ⟨value, hm, -⟩ := h.shows.keydir hkd
        obtain ⟨entry', -, hleads⟩ := h.present key value hm
        obtain ⟨p, hp, -, hkey, -⟩ := World.scans_iff.mp hleads.scans
        have hr : Record.Fits ⟨key, [], true, timestamp⟩ :=
          ⟨hkey ▸ (mem_readAllEntries hp).fits.key, by simp⟩
        refine h.stored hr hlong (fun key' => ?_) hids
        rw [Keydir.get_remove]
        rfl

omit [Crc32Fast] in
theorem KeyMap.after_isRead (m : KeyMap) {c : Call} (hc : c.isRead = true) (r : Resp) :
    m.after (.call c r) = m := by
  cases c with
  | get | listKeys | fold => rfl
  | _ => cases hc

/-- A call other than merge. -/
theorem Ready.call (h : Ready failing m w) {c : Call} (hc : c ≠ .merge)
    (hfits : Event.Fits (.call c (w.call c).1)) (hids : (w.call c).2.allotted < 2 ^ 32) :
    Ready failing (m.after (.call c (w.call c).1)) (w.call c).2 := by
  cases hread : c.isRead with
  | true =>
    obtain ⟨readers, hw⟩ := h.shows.reads c hread
    rw [hw, KeyMap.after_isRead m hread]
    exact h.readers readers
  | false =>
    cases c with
    | put key value timestamp => exact h.put key value timestamp hfits.1 hfits.2 hids
    | delete key timestamp => exact h.delete key timestamp hids
    | merge => exact absurd rfl hc
    | _ => cases hread

/-- Where only removals may fail, a call other than merge does what it does where
    nothing goes wrong. -/
theorem call_of_runs {c : Call} (hc : c ≠ .merge) {r : Resp} {w' : World}
    (hrun : (Engine.code w.opts c).Runs (Tolerated failing) w r w') : w.call c = (r, w') := by
  refine (Engine.code_follows w.opts hc).runs_eq (fun j o s b s' j' hR ho => ?_) hrun
  have hcalls := rule_isCalls hR.1
  rcases ho.1 with ho | ⟨-, hremoval, -⟩
  · exact ho
  · cases o with
    | removeData f | removeHint f => cases hcalls
    | _ => cases hremoval

/-- Calls other than merges remove no files. -/
theorem step_call_tolerated {c : Call} (hc : c ≠ .merge) (w : World) :
    (Event.call c (w.call c).1).Step (Tolerated failing) w (w.call c).2 := by
  refine (Engine.code_follows w.opts hc).runs_of (fun j o s j' hR => ⟨Or.inl rfl, ?_⟩) w
  rintro - f key heq
  obtain ⟨rfl, -⟩ := Sigma.mk.inj heq
  cases rule_isCalls hR.1

/-- Dropping an engine between two calls changes no file. -/
theorem Ready.close (h : Ready failing m w) : Ready failing m w.close := by
  have hlookup : ∀ id, w.close.disk.data.lookup id = w.disk.data.lookup id := by
    intro id
    have hmodify := FileTable.lookup_modify w.disk.data w.active.fileId id .flushBuf
    by_cases hid : id = w.active.fileId
    · obtain ⟨data, hl, hok⟩ := h.files.active
      have hsame : data.flushBuf = data := by
        obtain ⟨content, buffer, linked, synced⟩ := data
        obtain rfl : buffer = [] := hok.drained
        simp [FileState.flushBuf]
      rw [if_pos hid, hl, Option.map_some, hsame] at hmodify
      rw [hid] at hmodify ⊢
      exact hmodify.trans hl.symm
    · rw [if_neg hid] at hmodify
      exact hmodify
  have hA : AgreesOff (fun _ => False) w w.close := by
    refine ⟨rfl, rfl, rfl, rfl, fun id _ => hlookup id, fun _ _ => rfl, fun id => ?_,
      fun id data hl => ⟨data, (hlookup id).trans hl, rfl⟩⟩
    rw [World.contentOf, World.contentOf, hlookup]
  refine h.alike (h.files.agreesOff hA fun _ hx => hx) (funext fun id => ?_) (fun id => ?_) rfl rfl
  · exact log_congr (by rw [open?_congr (hlookup id)]) rfl
  · rw [World.contentOf, World.contentOf, hlookup]

/-! ## Read-only sessions -/

/-- Between two calls, in a session of either kind: a read-only one is on the
    directory it was opened on. -/
inductive Resting (failing : Prop) (m : KeyMap) : World → Prop where
  | ready {w : World} (h : Ready failing m w) : Resting failing m w
  | readOnly {disk : Disk} {n : Nat} (h : disk.Stores failing m n) {opts : Options}
      (hro : opts.isReadWrite = false) {allotted : Nat} (hn : n ≤ allotted) (refused : Bool)
      (readers : List FileId) :
      Resting failing m { World.open disk opts allotted refused with readers }

variable {disk : Disk} {n : Nat} {r : Restart} {opts : Options} {allotted : Nat} {refused : Bool}
  {readers : List FileId}

theorem open_readOnly (hro : opts.isReadWrite = false) :
    World.open disk opts allotted refused =
      { opts, disk, keydir := recover disk disk.data.discover ∅, active := ⟨disk.nextId, 0⟩
        nextFileId := wrapU32 (disk.nextId + 1), readers := [], commit := .new
        allotted := allotted + 1, refused } := by
  unfold World.open
  rw [hro]
  rfl

theorem allotted_open : (World.open disk opts allotted refused).allotted = allotted + 1 := by
  cases hrw : opts.isReadWrite with
  | true => rw [open_eq hrw]
  | false => rw [open_readOnly hrw]

theorem refused_open : (World.open disk opts allotted refused).refused = refused := by
  cases hrw : opts.isReadWrite with
  | true => rw [open_eq hrw]
  | false => rw [open_readOnly hrw]

theorem opts_open : (World.open disk opts allotted refused).opts = opts := by
  cases hrw : opts.isReadWrite with
  | true => rw [open_eq hrw]
  | false => rw [open_readOnly hrw]

/-- A read-only session shows what the log of the directory says. -/
theorem Disk.Stores.shows (h : disk.Stores failing m n) (hro : opts.isReadWrite = false) :
    World.Shows { World.open disk opts allotted refused with readers } m := by
  rw [open_readOnly hro]
  constructor
  · intro key hm
    show (recover disk disk.data.discover ∅).get key = none
    cases hkd : (recover disk disk.data.discover ∅).get key with
    | none => rfl
    | some entry =>
      obtain ⟨id, hn⟩ := get_recover.mp hkd
      obtain ⟨value, hvalue, -⟩ := h.agrees key id _ hn
      cases hm.symm.trans hvalue
  · intro key value hm
    obtain ⟨entry, hn, hholds⟩ := h.newest hm
    refine ⟨entry, get_recover.mpr ⟨_, hn⟩, Or.inr ?_, hholds⟩
    obtain ⟨ops, hops, -⟩ := hn.1
    obtain ⟨f, hopen, -⟩ := Option.map_eq_some_iff.mp hops
    exact ⟨f, hopen⟩

/-- Gets, listings and folds answer from the map, in every session. -/
theorem Resting.shows (h : Resting failing m w) : w.Shows m := by
  cases h with
  | ready h => exact h.shows
  | readOnly h hro _ _ _ => exact h.shows hro

/-- The next session. -/
theorem Disk.Stores.resting (h : disk.Stores failing m n) (opts : Options) (hn : n ≤ allotted)
    (hids : (World.open disk opts allotted refused).allotted < 2 ^ 32) :
    Resting failing m (World.open disk opts allotted refused) := by
  cases hrw : opts.isReadWrite with
  | true =>
    rw [open_eq hrw] at hids
    exact .ready (h.opened hrw hn hids)
  | false =>
    have hopen : World.open disk opts allotted refused = _ := open_readOnly hrw
    have hresting := Resting.readOnly h hrw hn refused []
    rw [hopen] at hresting ⊢
    exact hresting

/-- A read-only engine refuses the calls that write. -/
theorem code_readOnly {c : Call} (hc : c.isRead = false) (hro : opts.isReadWrite = false) :
    ∃ e, Engine.code opts c = .ret (.unit (.error e)) := by
  cases c with
  | put key value timestamp =>
    unfold Engine.code Engine.put Engine.requireWrite
    rw [hro]
    cases key with
    | nil => exact ⟨.emptyKey, rfl⟩
    | cons => exact ⟨.readOnly, rfl⟩
  | delete key timestamp =>
    unfold Engine.code Engine.delete Engine.requireWrite
    rw [hro]
    cases key with
    | nil => exact ⟨.emptyKey, rfl⟩
    | cons => exact ⟨.readOnly, rfl⟩
  | merge =>
    unfold Engine.code Engine.merge Engine.requireWrite
    rw [hro]
    exact ⟨.readOnly, rfl⟩
  | _ => cases hc

omit [Crc32Fast] in
theorem KeyMap.after_error (m : KeyMap) (c : Call) (e : Error) :
    m.after (.call c (.unit (.error e))) = m := by
  cases c <;> rfl

/-! ## Runs -/

/-- A read-only session leaves the directory as it is. -/
theorem crash_readOnly (h : disk.Stores failing m n) (hro : opts.isReadWrite = false) (r : Restart) :
    ({ World.open disk opts allotted refused with readers } : World).crash r = disk := by
  obtain ⟨hdata, -⟩ := h.uncut r.keepData
  obtain ⟨-, hhint⟩ := h.uncut r.keepHint
  rw [open_readOnly hro]
  show Disk.mk (disk.data.cut r.keepData) (disk.hint.cut r.keepHint) = disk
  rw [hdata, hhint]

/-- A read-only engine has no active file to flush. -/
theorem close_readOnly (h : disk.Stores failing m n) (hn : n ≤ allotted)
    (hids : allotted + 1 < 2 ^ 32) (hro : opts.isReadWrite = false) :
    ({ World.open disk opts allotted refused with readers } : World).close
      = { World.open disk opts allotted refused with readers } := by
  have hnone : disk.data.lookup disk.nextId = none := by
    cases hl : disk.data.lookup disk.nextId with
    | none => rfl
    | some f =>
      have hbelow : ∀ id f, disk.data.lookup id = some f → id + 1 < 2 ^ 32 := by
        intro id f hl
        have hlt := (h.below id f hl).2
        lia
      exact absurd (lt_nextId hbelow hl (h.below _ f hl).1) (lt_irrefl _)
  rw [open_readOnly hro]
  unfold World.close World.modifyData FileTable.modify
  dsimp only
  rw [hnone]

/-- Every event of a run. -/
theorem Resting.step (h : Resting failing m w) {e : Event} {w' : World}
    (hstep : e.Step (Tolerated failing) w w') (hfits : e.Fits) (hids : w'.allotted < 2 ^ 32)
    (hrefused : w'.refused = false) : Resting failing (m.after e) w' := by
  cases h with
  | ready h =>
    cases e with
    | call c r =>
      by_cases hc : c = .merge
      · subst hc
        rcases h.merged hstep hids with ⟨htrue, -⟩ | ⟨rfl, h'⟩
        · cases hrefused.symm.trans htrue
        · exact .ready h'
      · have hcall := call_of_runs hc hstep
        obtain rfl : r = (w.call c).1 := (congrArg Prod.fst hcall).symm
        obtain rfl : w' = (w.call c).2 := (congrArg Prod.snd hcall).symm
        exact .ready (h.call hc hfits hids)
    | reopen opts =>
      obtain rfl := hstep
      exact (h.close.stores _).resting opts le_rfl hids
    | killed r =>
      obtain rfl := Option.some.inj hstep
      exact (h.stores r).resting r.opts le_rfl hids
  | @readOnly disk n h opts hro allotted hn refused readers =>
    have hn' : n ≤ (World.open disk opts allotted refused).allotted := by
      rw [allotted_open]
      exact hn.trans (Nat.le_succ _)
    cases e with
    | call c r' =>
      cases hc : c.isRead with
      | true =>
        have hne : c ≠ .merge := by
          rintro rfl
          cases hc
        have hcall := call_of_runs hne hstep
        obtain ⟨readers', hw⟩ := World.Shows.reads (h.shows hro) c hc
        rw [hcall] at hw
        obtain rfl : w' = _ := hw
        rw [KeyMap.after_isRead m hc]
        exact .readOnly h hro hn refused readers'
      | false =>
        obtain ⟨e, hcode⟩ := code_readOnly hc hro
        have hstep' : (Engine.code _ c).Runs (Tolerated failing) _ r' w' := hstep
        rw [opts_open, hcode] at hstep'
        cases hstep'
        rw [KeyMap.after_error]
        exact .readOnly h hro hn refused readers
    | reopen opts' =>
      obtain rfl := hstep
      have hids₀ : allotted + 1 < 2 ^ 32 := by
        unfold World.reopen at hids
        rw [allotted_open, allotted_open] at hids
        omega
      unfold World.reopen at hids ⊢
      rw [close_readOnly h hn hids₀ hro, crash_readOnly h hro] at hids ⊢
      exact h.resting opts' hn' hids
    | killed r' =>
      obtain rfl := Option.some.inj hstep
      rw [crash_readOnly h hro] at hids ⊢
      exact h.resting r'.opts hn' hids

/-- Ids are not given back, and a refused write is not forgotten. -/
theorem Event.Step.grows {e : Event} {w' : World} (hstep : e.Step (Tolerated failing) w w') :
    w.allotted ≤ w'.allotted ∧ (w.refused = true → w'.refused = true) := by
  cases e with
  | call c r =>
    refine Prog.Runs.keeps (P := fun w' => w.allotted ≤ w'.allotted ∧
      (w.refused = true → w'.refused = true)) (fun o w₁ r w₂ ho h => ?_) hstep
      ⟨le_rfl, fun h => h⟩
    refine ⟨h.1.trans ho.1.outcome.allotted.2, fun hw => ?_⟩
    rcases ho.1.failed with ho | ⟨-, -, rfl⟩
    · obtain ⟨-, rfl⟩ := Prod.mk.inj ho
      exact refused_perform o (h.2 hw)
    · exact h.2 hw
  | reopen opts =>
    obtain rfl := hstep
    unfold World.reopen
    rw [allotted_open, refused_open]
    exact ⟨Nat.le_succ _, fun h => h⟩
  | killed r =>
    obtain rfl := Option.some.inj hstep
    rw [allotted_open, refused_open]
    exact ⟨Nat.le_succ _, fun h => h⟩

/-- Before a step without refused writes, no write was refused. -/
theorem Event.Step.unrefused {e : Event} {w' : World} (hstep : e.Step (Tolerated failing) w w')
    (h : w'.refused = false) : w.refused = false := by
  cases hw : w.refused with
  | false => rfl
  | true => cases h.symm.trans (hstep.grows.2 hw)

theorem Run.allotted_le {es : List Event} {w' : World} (hrun : Run (Tolerated failing) w es w') :
    w.allotted ≤ w'.allotted := by
  induction hrun with
  | nil => exact le_rfl
  | snoc _ hstep ih => exact ih.trans hstep.grows.1

/-- A single-threaded run keeps keydir and log in agreement with the map of
    acknowledged puts and deletes. -/
theorem Run.resting {es : List Event} {w' : World} (hrun : Run (Tolerated failing) w es w')
    (h : Resting failing m w) (hfits : ∀ e ∈ es, e.Fits) (hids : w'.allotted < 2 ^ 32)
    (hrefused : w'.refused = false) : Resting failing (es.foldl KeyMap.after m) w' := by
  induction hrun with
  | nil => exact h
  | snoc _ hstep ih =>
    rw [List.foldl_append]
    have hbefore := ih (fun e he => hfits e (List.mem_append_left _ he))
      (hstep.grows.1.trans_lt hids) (hstep.unrefused hrefused)
    exact hbefore.step hstep (hfits _ (by simp)) hids hrefused

/-- The empty directory stores nothing. -/
theorem Disk.stores_empty : (⟨∅, ∅⟩ : Disk).Stores failing (fun _ => none) 0 := by
  refine ⟨fun _ => ⟨rfl, rfl⟩, fun _ _ h => (by cases h), fun _ _ h => (by cases h),
    fun _ _ h => (by cases h), fun _ _ _ h => ?_, fun _ _ h => (by cases h),
    fun _ _ _ h => (by cases h)⟩
  obtain ⟨_, hops, -⟩ := h.1
  cases hops

theorem Faultless.tolerated {o : Op} {r : Op.Res o} {w' : World} (h : Faultless o w r w') :
    Tolerated False o w r w' :=
  ⟨Or.inl h, fun hf => hf.elim⟩

/-- A run in which more may come of an operation. -/
theorem Run.mono {Out Out' : Outcomes} {es : List Event} {w' : World} (h : Run Out w es w')
    (hOut : ∀ o w r w', Out o w r w' → Out' o w r w') : Run Out' w es w' := by
  induction h with
  | nil => exact .nil w
  | snoc _ hstep ih =>
    refine ih.snoc ?_
    rename_i e _
    cases e with
    | call c r => exact Prog.Runs.mono hstep hOut
    | reopen opts => exact hstep
    | killed r => exact hstep

/-- What a call does where nothing goes wrong is a step. -/
theorem step_call (w : World) (c : Call) :
    (Event.call c (w.call c).1).Step Faultless w (w.call c).2 :=
  Prog.runs_exec perform (Engine.code w.opts c) w

end

end Yabiir
