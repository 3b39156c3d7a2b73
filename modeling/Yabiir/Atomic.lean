/-
  Yabiir.Atomic

  The calls of a session take effect one after the other, whatever the threads:
  every history is linearizable with respect to a map from keys to values
  (`linearizable`).  A put takes effect when its entry is inserted into the
  keydir, a delete when the key is removed, a listing or a fold when it takes its
  snapshot.  Merges change nothing, nor do calls that fail.
-/

import Yabiir.Invariant.Tells
import Yabiir.Lib.Linear
import Yabiir.Sessions

namespace Yabiir

open Format

/-! ## The map -/

/-- The call failed. -/
def Resp.isError : Resp → Bool
  | .unit (.error _) | .value (.error _) | .keys (.error _) | .pairs (.error _) => true
  | _ => false

/-- What a call answers, and what it makes of the map. -/
inductive Takes [Crc32Fast] : System.Spec Engine.system KeyMap where
  | put (m : KeyMap) (key value : Bytes) (timestamp : UInt32) :
      Takes m (.put key value timestamp) (.unit (.ok ())) (m.put key value)
  | delete (m : KeyMap) (key : Bytes) (timestamp : UInt32) :
      Takes m (.delete key timestamp) (.unit (.ok ())) (m.delete key)
  | get (m : KeyMap) (key : Bytes) : Takes m (.get key) (.value (.ok (m key))) m
  | listKeys {m : KeyMap} {keys : List Bytes} (hnodup : keys.Nodup)
      (hkeys : ∀ key, key ∈ keys ↔ (m key).isSome) : Takes m .listKeys (.keys (.ok keys)) m
  | fold {m : KeyMap} {pairs : List (Bytes × Bytes)} (hnodup : (pairs.map Prod.fst).Nodup)
      (hpairs : ∀ key value, (key, value) ∈ pairs ↔ m key = some value) :
      Takes m .fold (.pairs (.ok pairs)) m
  | merge (m : KeyMap) : Takes m .merge (.unit (.ok ())) m
  | failed (m : KeyMap) (c : Call) {r : Resp} (hr : r.isError = true) : Takes m c r m

/-- The operation with which a call takes effect. -/
def Call.TakesAt : Call → (o : Op) → Op.Res o → Prop
  | .put .., .keydirInsert .., _ => True
  | .delete .., .keydirRemove _, _ => True
  | .delete .., .keydirGet _, none => True
  | .get _, .keydirGet _, _ => True
  | .listKeys, .keydirSnapshot, _ => True
  | .fold, .keydirSnapshot, _ => True
  | _, _, _ => False

/-- It has done so. -/
def Call.Took (c : Call) (j : Journal) : Prop := ∃ x ∈ j, c.TakesAt x.1 x.2

/-- What an event makes of the map: only the publications of puts and deletes
    count. -/
def KeyMap.publish [Crc32Fast] (m : KeyMap) : Engine.system.Event → KeyMap
  | .act _ (.put key value _) (.keydirInsert ..) _ => m.put key value
  | .act _ (.delete key _) (.keydirRemove _) _ => m.delete key
  | _ => m

/-- The map after a history. -/
def published [Crc32Fast] (m : KeyMap) (es : List Engine.system.Event) : KeyMap :=
  es.foldl KeyMap.publish m

/-- What a call is going to answer, unless it fails, by the operation with which
    it took effect. -/
def World.Foretells (w : World) : Call → (o : Op) → Op.Res o → Resp → Prop
  | .get _, .keydirGet _, none, r => r = .value (.ok none)
  | .get _, .keydirGet _, some entry, r => ∃ value, r = .value (.ok (some value)) ∧ w.Lies entry value
  | .listKeys, .keydirSnapshot, pairs, r => r = .keys (.ok (pairs.map Prod.fst))
  | .fold, .keydirSnapshot, pairs, r => ∃ kvs, r = .pairs (.ok kvs) ∧
      List.Forall₂ (fun p kv => kv.1 = p.1 ∧ w.Lies p.2 kv.2) pairs kvs
  | _, _, _, r => r = .unit (.ok ())

section

variable {w w' : World} {c : Call} {j : Journal} {o : Op} {b : Op.Res o} {r : Resp}

theorem took_log : c.Took (j.log o b) ↔ c.Took j ∨ c.TakesAt o b := by
  constructor
  · rintro ⟨x, hx, htakes⟩
    rcases List.mem_append.mp hx with hx | hx
    · exact Or.inl ⟨x, hx, htakes⟩
    · cases List.mem_singleton.mp hx
      exact Or.inr htakes
  · rintro (⟨x, hx, htakes⟩ | htakes)
    · exact ⟨x, List.mem_append_left _ hx, htakes⟩
    · exact ⟨⟨o, b⟩, List.mem_append_right _ List.mem_cons_self, htakes⟩

theorem not_took_nil : ¬ c.Took [] := by
  rintro ⟨x, hx, -⟩
  cases hx

theorem World.Foretells.grows (h : w.Foretells c o b r) (hgrows : w.Grows w') :
    w'.Foretells c o b r := by
  cases c with
  | get key =>
    cases o with
    | keydirGet =>
      cases b with
      | none => exact h
      | some entry =>
        obtain ⟨value, hr, hlies⟩ := h
        exact ⟨value, hr, hlies.grows hgrows⟩
    | _ => exact h
  | fold =>
    cases o with
    | keydirSnapshot =>
      obtain ⟨kvs, hr, hall⟩ := h
      exact ⟨kvs, hr, hall.imp fun _ _ hp => ⟨hp.1, hp.2.grows hgrows⟩⟩
    | _ => exact h
  | listKeys => cases o <;> exact h
  | _ => exact h

end

section

variable [Crc32Fast] {w w' : World} {m : KeyMap} {c : Call} {t : Nat} {o : Op} {b : Op.Res o}

omit [Crc32Fast] in
/-- A value for each entry of a snapshot. -/
theorem World.Tells.values (h : w.Tells m) {pairs : List (Bytes × KeydirEntry)}
    (hpairs : ∀ p ∈ pairs, w.keydir.get p.1 = some p.2) :
    ∃ kvs : List (Bytes × Bytes),
      List.Forall₂ (fun p kv => kv.1 = p.1 ∧ w.Lies p.2 kv.2) pairs kvs ∧
      kvs.map Prod.fst = pairs.map Prod.fst ∧ ∀ kv ∈ kvs, m kv.1 = some kv.2 := by
  induction pairs with
  | nil => exact ⟨[], .nil, rfl, fun _ hkv => by cases hkv⟩
  | cons p pairs ih =>
    obtain ⟨kvs, hall, hkeys, hm⟩ := ih fun p hp => hpairs p (List.mem_cons_of_mem _ hp)
    obtain ⟨value, hvalue, hlies⟩ := h.present (hpairs p List.mem_cons_self)
    refine ⟨(p.1, value) :: kvs, .cons ⟨rfl, hlies⟩ hall, by simp [hkeys], fun kv hkv => ?_⟩
    rcases List.mem_cons.mp hkv with rfl | hkv
    · exact hvalue
    · exact hm kv hkv

theorem World.Tells.snapshot (h : w.Tells m) : ∃ r, Takes m .fold r m ∧
    w.Foretells .fold .keydirSnapshot w.keydir.snapshot r := by
  obtain ⟨kvs, hall, hkeys, hm⟩ := h.values fun p hp => (Keydir.mem_snapshot _ _ _).mp hp
  refine ⟨.pairs (.ok kvs), .fold ?_ fun key value => ?_, kvs, rfl, hall⟩
  · rw [hkeys]
    exact w.keydir.nodup_snapshot
  · constructor
    · exact fun hkv => hm _ hkv
    · intro hvalue
      have hkey : key ∈ kvs.map Prod.fst := by
        rw [hkeys]
        cases hkd : w.keydir.get key with
        | none => cases (h.absent.mp hkd).symm.trans hvalue
        | some entry =>
          exact List.mem_map.mpr ⟨(key, entry), (Keydir.mem_snapshot _ _ _).mpr hkd, rfl⟩
      obtain ⟨kv, hkv, rfl⟩ := List.mem_map.mp hkey
      cases (hm kv hkv).symm.trans hvalue
      exact hkv

/-- The operation with which a call takes effect: what the call answers and makes
    of the map. -/
theorem World.Tells.takes (h : w.Tells m) {j : Journal} (hrule : c.rule j o) (htakes : c.TakesAt o b)
    (hO : perform o w = (b, w')) :
    ∃ r, Takes m c r (m.publish (.act t c o b)) ∧ w.Foretells c o b r := by
  cases c with
  | put key value timestamp =>
    cases o with
    | keydirInsert => exact ⟨_, .put m key value timestamp, rfl⟩
    | _ => exact htakes.elim
  | delete key timestamp =>
    cases o with
    | keydirRemove => exact ⟨_, .delete m key timestamp, rfl⟩
    | keydirGet key' =>
      obtain ⟨-, rfl⟩ := hrule
      obtain ⟨rfl, -⟩ := Prod.mk.inj hO
      have hnone : w.keydir.get key' = none := by
        cases hkd : w.keydir.get key' with
        | none => rfl
        | some entry =>
          rw [hkd] at htakes
          exact htakes.elim
      -- there is nothing to delete
      have hdelete : m.delete key' = m :=
        Function.update_eq_self_iff.mpr (h.absent.mp hnone).symm
      refine ⟨.unit (.ok ()), ?_, rfl⟩
      have htook := Takes.delete m key' timestamp
      rwa [hdelete] at htook
    | _ => exact htakes.elim
  | get key =>
    cases o with
    | keydirGet key' =>
      obtain ⟨-, rfl⟩ := hrule
      obtain ⟨rfl, -⟩ := Prod.mk.inj hO
      refine ⟨_, .get m key', ?_⟩
      cases hkd : w.keydir.get key' with
      | none => exact congrArg (fun v => Resp.value (.ok v)) (h.absent.mp hkd)
      | some entry =>
        obtain ⟨value, hvalue, hlies⟩ := h.present hkd
        exact ⟨value, congrArg (fun v => Resp.value (.ok v)) hvalue, hlies⟩
    | _ => exact htakes.elim
  | listKeys =>
    cases o with
    | keydirSnapshot =>
      obtain ⟨rfl, -⟩ := Prod.mk.inj hO
      refine ⟨_, .listKeys w.keydir.nodup_snapshot fun key => ?_, rfl⟩
      rw [List.mem_map]
      constructor
      · rintro ⟨p, hp, rfl⟩
        obtain ⟨value, hvalue, -⟩ := h.present ((Keydir.mem_snapshot _ _ _).mp hp)
        exact hvalue ▸ rfl
      · intro hkey
        obtain ⟨value, hvalue⟩ := Option.isSome_iff_exists.mp hkey
        cases hkd : w.keydir.get key with
        | none => cases (h.absent.mp hkd).symm.trans hvalue
        | some entry => exact ⟨(key, entry), (Keydir.mem_snapshot _ _ _).mpr hkd, rfl⟩
    | _ => exact htakes.elim
  | fold =>
    cases o with
    | keydirSnapshot =>
      obtain ⟨rfl, -⟩ := Prod.mk.inj hO
      exact h.snapshot
    | _ => exact htakes.elim
  | merge => cases o <;> exact htakes.elim

end

/-! ## What a call in progress knows -/

section

variable [Crc32Fast] {c : Call} {j : Journal} {o : Op} {b : Op.Res o}

/-- Once a put or a delete has taken effect it does nothing more. -/
theorem Call.Took.idle (htook : c.Took j) (hwrite : c.isRead = false)
    (hunpublished : j.unpublished = none) : ¬ c.rule j o := by
  intro hrule
  cases c with
  | put key value timestamp =>
    cases o with
    | locked s =>
      cases s with
      | append => exact not_took_nil (hrule.1 ▸ htook)
      | _ => exact hrule
    | commit =>
      rw [Call.rule, hunpublished] at hrule
      cases hrule
    | keydirInsert =>
      obtain ⟨-, x, hx, -⟩ := hrule
      cases hunpublished.symm.trans hx
    | _ => exact hrule
  | delete key timestamp =>
    cases o with
    | locked s =>
      cases s with
      | append =>
        -- it has found the key
        obtain ⟨-, ⟨entry, rfl⟩, -⟩ := hrule
        obtain ⟨x, hx, htakes⟩ := htook
        cases List.mem_singleton.mp hx
        exact htakes
      | _ => exact hrule
    | keydirGet => exact not_took_nil (hrule.1 ▸ htook)
    | commit =>
      rw [Call.rule, hunpublished] at hrule
      cases hrule
    | keydirRemove =>
      rw [Call.rule, hunpublished] at hrule
      cases hrule.2
    | _ => exact hrule
  | merge => exact hrule
  | _ => cases hwrite

/-- A call takes effect once. -/
theorem Call.TakesAt.once (htakes : c.TakesAt o b) (hrule : c.rule j o)
    (hwrite : c.isRead = false → c.Took j → j.unpublished = none) : ¬ c.Took j := by
  intro htook
  cases hread : c.isRead with
  | false => exact htook.idle hread (hwrite hread htook) hrule
  | true =>
    apply not_took_nil (c := c)
    cases c with
    | get key =>
      cases o with
      | keydirGet => exact hrule.1 ▸ htook
      | _ => exact htakes.elim
    | listKeys | fold =>
      cases o with
      | keydirSnapshot => exact (show j = [] from hrule) ▸ htook
      | _ => exact htakes.elim
    | _ => cases hread

/-- Where a put or a delete takes effect, it publishes what it appended, without
    an error. -/
theorem Call.TakesAt.published (htakes : c.TakesAt o b) (hrule : c.rule j o)
    (hwrite : c.isRead = false) : o.error? b = none ∧ Journal.unpublished (j.log o b) = none := by
  cases c with
  | put =>
    cases o with
    | keydirInsert => exact ⟨rfl, unpublished_keydirInsert _ _ _ _⟩
    | _ => exact htakes.elim
  | delete =>
    cases o with
    | keydirRemove => exact ⟨rfl, unpublished_keydirRemove _ _ _⟩
    | keydirGet =>
      obtain ⟨rfl, -⟩ := hrule
      exact ⟨rfl, unpublished_keydirGet [] _ _⟩
    | _ => exact htakes.elim
  | merge => cases o <;> exact htakes.elim
  | _ => cases hwrite

/-- What a call in progress knows: the values it has read are there to be read,
    and so is the value it has appended and not published. -/
structure Informed (w : World) (c : Call) (j : Journal) : Prop where
  reads : ∀ entry value, readEvent entry value ∈ j → w.Holds entry value
  appended : ∀ key value timestamp x, c = .put key value timestamp → j.unpublished = some x →
    w.Lies (putEntry value timestamp x) value
  whole : c.isRead = false → c.Took j → ¬ j.Failed ∧ j.unpublished = none
  fits : ∀ key value timestamp, c = .put key value timestamp → value.length < 2 ^ 32

variable {w w' : World} {own : FileId → Prop}

omit [Crc32Fast] in
theorem informed_nil (w : World) (hfits : ∀ key value timestamp, c = .put key value timestamp →
    value.length < 2 ^ 32) : Informed w c [] where
  reads := fun _ _ h => by cases h
  appended := fun _ _ _ _ _ h => by cases h
  whole := fun _ h => absurd h not_took_nil
  fits := hfits

omit [Crc32Fast] in
theorem World.Grows.contentOf (h : w.Grows w') (id : FileId) :
    w.contentOf id <+: w'.contentOf id := by
  cases hl : w.disk.data.lookup id with
  | none =>
    rw [World.contentOf, hl]
    exact List.nil_prefix
  | some data =>
    obtain ⟨data', hl', hfront, -⟩ := h id data hl
    rw [contentOf_of_lookup hl, contentOf_of_lookup hl']
    exact hfront

omit [Crc32Fast] in
theorem Informed.grows (h : Informed w c j) (hgrows : w.Grows w') : Informed w' c j :=
  { h with
    reads := fun entry value hread => (h.reads entry value hread).grows (hgrows.contentOf _)
    appended := fun key value timestamp x hc hx =>
      (h.appended key value timestamp x hc hx).grows hgrows }

omit [Crc32Fast] in
theorem Steady.pread {id : FileId} {pos len : Nat} {value : Bytes}
    (hO : Steady (.pread id pos len) w (.ok value) w') :
    preadExact (w.contentOf id) pos len = .ok value := by
  rcases hO with hO | ⟨f, -, hf⟩
  · exact congrArg Prod.fst hO
  · cases hf

/-- What a put appended holds its value. -/
theorem Steady.append_lies (hfiles : FilesOk False own w) {maxFileSize : Nat}
    {key value : Bytes} {timestamp : UInt32} {x : FileId × Nat × Nat}
    (hvalue : value.length < 2 ^ 32)
    (hO : Steady (.locked (.append maxFileSize (encodeEntry key value false timestamp))) w
      (.ok x) w') (hids : w'.allotted < 2 ^ 32) :
    w'.Lies (putEntry value timestamp (x.1, x.2.1)) value := by
  rcases hO with hO | ⟨f, hspares, hf⟩
  · exact hfiles.append_lies hvalue hO hids
  · -- an append that failed tells no position
    exfalso
    cases hlong : World.tooLong w.disk.data w.active.fileId
        (encodeEntry key value false timestamp).bytes with
    | true =>
      rw [fault_append_tooLong hspares hlong] at hf
      cases hf
    | false => cases (fault_append hspares hlong hf).1

/-- One more operation. -/
theorem Informed.log (h : Informed w c j) (hfiles : FilesOk False own w)
    (hrule : c ≠ .merge → c.rule j o ∧ ¬ j.Failed) (hO : Steady o w b w') (hgrows : w.Grows w')
    (hids : w'.allotted < 2 ^ 32) : Informed w' c (j.log o b) := by
  have hgrown := h.grows hgrows
  refine ⟨fun entry value hread => ?_, fun key value timestamp x hc hx => ?_,
    fun hwrite htook => ?_, h.fits⟩
  · rcases List.mem_append.mp hread with hread | hread
    · exact hgrown.reads entry value hread
    · cases List.mem_singleton.mp hread
      exact World.Holds.grows hO.pread (hgrows.contentOf _)
  · subst hc
    obtain ⟨hrule, -⟩ := hrule (by simp)
    cases o with
    | locked s =>
      cases s with
      | append maxFileSize encoded =>
        obtain ⟨rfl, -, rfl⟩ := hrule
        cases b with
        | error e => cases (unpublished_append_error [] _ _ e).symm.trans hx
        | ok y =>
          cases (unpublished_append [] _ _ y).symm.trans hx
          exact hO.append_lies hfiles (h.fits key value timestamp rfl) hids
      | _ => exact hrule.elim
    | commit generation =>
      exact hgrown.appended key value timestamp x rfl ((unpublished_commit j _ b).symm.trans hx)
    | keydirInsert => cases (unpublished_keydirInsert j _ _ b).symm.trans hx
    | _ => exact hrule.elim
  · by_cases hmerge : c = .merge
    · subst hmerge
      obtain ⟨x, -, htakes⟩ := htook
      cases x with
      | mk o b => cases o <;> exact htakes.elim
    · obtain ⟨hrule, hfailed⟩ := hrule hmerge
      rcases took_log.mp htook with hold | htakes
      · exact absurd hrule (hold.idle hwrite (h.whole hwrite hold).2)
      · obtain ⟨herror, hpublished⟩ := htakes.published hrule hwrite
        exact ⟨Engine.not_failed_append hfailed herror, hpublished⟩

end

/-! ## How calls end -/

section

variable [Crc32Fast] {m m' : KeyMap} {w : World} {c : Call} {j : Journal} {r : Resp} {g : MergeLog}

omit [Crc32Fast] in
theorem not_took_merge : ¬ Call.merge.Took j := by
  rintro ⟨⟨o, b⟩, -, htakes⟩
  cases o <;> exact htakes.elim

/-- Reads change nothing. -/
theorem Takes.of_isRead (h : Takes m c r m') (hread : c.isRead = true) : m' = m := by
  cases h with
  | put | delete => cases hread
  | _ => rfl

omit [Crc32Fast] in
/-- A call that fails has not taken effect, unless it only reads. -/
theorem Informed.failed (h : Informed w c j) (hend : Engine.callEnds c r j g)
    (hr : r.isError = true) : c.isRead = true ∨ ¬ c.Took j := by
  cases c with
  | put | delete =>
    right
    intro htook
    rcases hend with ⟨rfl, -⟩ | ⟨-, rfl | hfailed⟩
    · cases hr
    · exact not_took_nil htook
    · exact (h.whole rfl htook).1 hfailed
  | merge => exact Or.inr not_took_merge
  | _ => exact Or.inl rfl

omit [Crc32Fast] in
/-- A fold visits the values its snapshot points at. -/
theorem Informed.visited (h : Informed w c j) {pairs : List (Bytes × KeydirEntry)}
    {kvs kvs' : List (Bytes × Bytes)}
    (hread : List.Forall₂ (fun p kv => kv.1 = p.1 ∧ readEvent p.2 kv.2 ∈ j) pairs kvs)
    (hlies : List.Forall₂ (fun p kv => kv.1 = p.1 ∧ w.Lies p.2 kv.2) pairs kvs') : kvs' = kvs := by
  induction hread generalizing kvs' with
  | nil =>
    cases hlies
    rfl
  | @cons p kv _ _ hp _ ih =>
    cases hlies with
    | @cons _ kv' _ _ hp' hrest =>
      have hkey : kv'.1 = kv.1 := hp'.1.trans hp.1.symm
      have hvalue : kv'.2 = kv.2 := hp'.2.holds.unique (h.reads p.2 kv.2 hp.2)
      rw [ih hrest, Prod.ext hkey hvalue]

omit [Crc32Fast] in
/-- A call that does not fail answers what was foretold. -/
theorem Informed.foretold (h : Informed w c j) (hend : Engine.callEnds c r j g)
    (hr : r.isError = false) (hmerge : c ≠ .merge) :
    ∃ x ∈ j, c.TakesAt x.1 x.2 ∧ ∀ r', w.Foretells c x.1 x.2 r' → r' = r := by
  cases c with
  | put =>
    rcases hend with ⟨rfl, -, key, entry, hmem⟩ | ⟨⟨e, rfl⟩, -⟩
    · exact ⟨_, hmem, trivial, fun _ hr' => hr'⟩
    · cases hr
  | delete =>
    rcases hend with ⟨rfl, -, rfl | hmem⟩ | ⟨⟨e, rfl⟩, -⟩
    · exact ⟨_, List.mem_singleton_self _, trivial, fun _ hr' => hr'⟩
    · exact ⟨_, hmem, trivial, fun _ hr' => hr'⟩
    · cases hr
  | get =>
    rcases hend with ⟨rfl, rfl⟩ | ⟨entry, value, rfl, hmem, hread⟩ | ⟨e, rfl, -⟩
    · exact ⟨_, List.mem_singleton_self _, trivial, fun _ hr' => hr'⟩
    · refine ⟨_, hmem, trivial, ?_⟩
      rintro _ ⟨value', rfl, hlies⟩
      rw [hlies.holds.unique (h.reads entry value hread)]
    · cases hr
  | listKeys =>
    obtain ⟨pairs, rfl, hmem⟩ := hend
    exact ⟨_, hmem, trivial, fun _ hr' => hr'⟩
  | fold =>
    rcases hend with ⟨pairs, kvs, rfl, hmem, hread⟩ | ⟨e, rfl, -⟩
    · refine ⟨_, hmem, trivial, ?_⟩
      rintro _ ⟨kvs', rfl, hlies⟩
      rw [h.visited hread hlies]
    · cases hr
  | merge => exact absurd rfl hmerge

end

/-! ## The order in which calls take effect -/

/-- Where a call in progress stands in the order. -/
structure Stands [Crc32Fast] (es : List Engine.system.Event) (ops : List (System.Taken Engine.system))
    (w : World) (t i : Nat) (c : Call) (j : Journal) : Prop where
  began : System.inProgress es t = some (i, c)
  ahead : ¬ c.Took j → ∀ x ∈ ops, x.start ≠ i
  taken : c.Took j → ∃ r, ⟨i, t, c, r⟩ ∈ ops ∧ ∀ x ∈ j, c.TakesAt x.1 x.2 →
    w.Foretells c x.1 x.2 r

section

variable [Crc32Fast] {m₀ m m' : KeyMap} {es es' : List Engine.system.Event}
  {ops ops' : List (System.Taken Engine.system)} {w w' : World} {t u i i' : Nat} {c c' : Call}
  {j : Journal} {o : Op} {b : Op.Res o} {r : Resp} {g : MergeLog}

/-- Another thread's call goes on. -/
theorem Stands.other (h : Stands es ops w u i' c j) (hgrows : w.Grows w')
    (hbegan : System.inProgress es' u = some (i', c)) (hops : System.SameBut i ops ops')
    (hne : i' ≠ i) : Stands es' ops' w' u i' c j where
  began := hbegan
  ahead := by
    intro hahead x hx heq
    obtain ⟨y, hy, hyx⟩ := hops.starts x hx (heq ▸ hne)
    exact h.ahead hahead y hy (hyx.trans heq)
  taken := by
    intro htook
    obtain ⟨r, hmem, hforetold⟩ := h.taken htook
    exact ⟨r, hops.kept _ hmem hne, fun x hx htakes => (hforetold x hx htakes).grows hgrows⟩

/-- An operation with which the call does not take effect. -/
theorem Stands.acts (h : Stands es ops w t i c j) (hgrows : w.Grows w') (htakes : ¬ c.TakesAt o b) :
    Stands (es ++ [.act t c o b]) ops w' t i c (j.log o b) where
  began := by
    rw [System.inProgress_append]
    exact h.began
  ahead := fun hahead => h.ahead fun htook => hahead (took_log.mpr (Or.inl htook))
  taken := by
    intro htook
    obtain ⟨r, hmem, hforetold⟩ := h.taken ((took_log.mp htook).resolve_right htakes)
    refine ⟨r, hmem, fun x hx hx' => ?_⟩
    rcases List.mem_append.mp hx with hx | hx
    · exact (hforetold x hx hx').grows hgrows
    · cases List.mem_singleton.mp hx
      exact absurd hx' htakes

/-- The operation with which the call takes effect. -/
theorem Stands.takes (h : Stands es ops w t i c j) (hgrows : w.Grows w') (hnew : ¬ c.Took j)
    (htakes : c.TakesAt o b) (hforetold : w.Foretells c o b r) :
    Stands (es ++ [.act t c o b]) (ops ++ [⟨i, t, c, r⟩]) w' t i c (j.log o b) where
  began := by
    rw [System.inProgress_append]
    exact h.began
  ahead := fun hahead => absurd (took_log.mpr (Or.inr htakes)) hahead
  taken := by
    intro _
    refine ⟨r, List.mem_append_right _ List.mem_cons_self, fun x hx hx' => ?_⟩
    rcases List.mem_append.mp hx with hx | hx
    · exact absurd ⟨x, hx, hx'⟩ hnew
    · cases List.mem_singleton.mp hx
      exact hforetold.grows hgrows

/-- A call returns what it was to return, or fails without having done anything. -/
theorem Stands.returned (h : Stands es ops w t i c j) (hinformed : Informed w c j)
    (hlin : System.Linearizes Takes m₀ es ops m) (hend : Engine.callEnds c r j g) :
    ∃ ops', System.Linearizes Takes m₀ (es ++ [.ret t c r]) ops' m ∧
      System.SameBut i ops ops' := by
  have hnew : ∀ {r}, Takes m c r m → ¬ c.Took j →
      ∃ ops', System.Linearizes Takes m₀ (es ++ [.ret t c r]) ops' m ∧
        System.SameBut i ops ops' := fun htakes htook =>
    ⟨_, (hlin.takes h.began (h.ahead htook) htakes).returned h.began
      (List.mem_append_right _ List.mem_cons_self), System.sameBut_snoc ops ⟨i, t, c, _⟩⟩
  cases hr : r.isError with
  | true =>
    by_cases htook : c.Took j
    · -- a read that fails after all
      have hread := (hinformed.failed hend hr).resolve_right fun hn => hn htook
      obtain ⟨r', hmem, -⟩ := h.taken htook
      have hfailed : ∀ s s', Takes s c r' s' → Takes s c r s' := by
        intro s s' hs
        rw [hs.of_isRead hread]
        exact .failed s c hr
      obtain ⟨ops', hlin', hmem', hops⟩ := hlin.amend h.began hmem hfailed
      exact ⟨ops', hlin'.returned h.began hmem', hops⟩
    · exact hnew (.failed m c hr) htook
  | false =>
    by_cases hmerge : c = .merge
    · subst hmerge
      rcases hend with ⟨rfl, -⟩ | ⟨⟨e, rfl⟩, -⟩
      · exact hnew (.merge m) not_took_merge
      · cases hr
    · obtain ⟨x, hx, htakes, hanswer⟩ := hinformed.foretold hend hr hmerge
      obtain ⟨r', hmem, hforetold⟩ := h.taken ⟨x, hx, htakes⟩
      obtain rfl := hanswer r' (hforetold x hx htakes)
      exact ⟨ops, hlin.returned h.began hmem, .refl i ops⟩

end

/-! ## The invariant -/

/-- Where the threads of a pool stand: the keydir tells what the publications so
    far make of the map, and the calls take effect in some order. -/
structure Atomic [Crc32Fast] (m₀ : KeyMap) (es : List Engine.system.Event) (w : World)
    (γ : EngineGhosts) : Prop where
  pool : PoolOk w γ
  tells : w.Tells (published m₀ es)
  informed : ∀ t l, γ t = some l → Informed w l.call l.journal
  placed : ∃ ops, System.Linearizes Takes m₀ es ops (published m₀ es) ∧
    ∀ t l, γ t = some l → ∃ i, Stands es ops w t i l.call l.journal

section

variable [Crc32Fast] {m₀ m : KeyMap} {es : List Engine.system.Event} {w w' : World}
  {γ : EngineGhosts} {t u i i' : Nat} {c c' : Call} {j : Journal} {o : Op} {b : Op.Res o} {r : Resp}
  {l : System.Local Engine.system Engine.Ghost} {g : Engine.Ghost}

omit [Crc32Fast] in
theorem published_append [Crc32Fast] (m : KeyMap) (es : List Engine.system.Event)
    (e : Engine.system.Event) : published m (es ++ [e]) = (published m es).publish e := by
  rw [published, List.foldl_append]
  rfl

/-- Calls of two threads began at two events. -/
theorem ne_of_inProgress (h : System.inProgress es t = some (i, c))
    (h' : System.inProgress es u = some (i', c')) (hut : u ≠ t) : i' ≠ i := by
  rintro rfl
  have heq := (System.getElem?_of_inProgress h).symm.trans (System.getElem?_of_inProgress h')
  exact hut (System.Event.call.inj (Option.some.inj heq)).1.symm

theorem Atomic.called (h : Atomic m₀ es w γ) (hl : γ t = none) {g : Engine.Ghost}
    (hlog : g.log = .init)
    (hfits : ∀ key value timestamp, c = .put key value timestamp → value.length < 2 ^ 32) :
    Atomic m₀ (es ++ [.call t c]) w (Function.update γ t (some ⟨c, [], g⟩)) := by
  obtain ⟨ops, hlin, hplaced⟩ := h.placed
  have hsame : published m₀ (es ++ [.call t c]) = published m₀ es := published_append ..
  refine ⟨h.pool.threads fun u l hu => ?_, hsame ▸ h.tells, fun u l hu => ?_, ops, ?_,
    fun u l hu => ?_⟩
  · by_cases hut : u = t
    · rw [hut, Function.update_self] at hu
      cases hu
      exact Or.inr hlog
    · rw [Function.update_of_ne hut] at hu
      exact Or.inl hu
  · by_cases hut : u = t
    · rw [hut, Function.update_self] at hu
      cases hu
      exact informed_nil w hfits
    · rw [Function.update_of_ne hut] at hu
      exact h.informed u l hu
  · rw [hsame]
    exact hlin.quiet fun _ _ _ => by simp
  · by_cases hut : u = t
    · subst hut
      rw [Function.update_self] at hu
      cases hu
      refine ⟨es.length, ⟨?_, fun _ x hx => Nat.ne_of_lt (hlin.lt hx), fun htook => ?_⟩⟩
      · rw [System.inProgress_append, System.Event.progress, Function.update_self]
      · exact absurd htook not_took_nil
    · rw [Function.update_of_ne hut] at hu
      obtain ⟨i, hi⟩ := hplaced u l hu
      refine ⟨i, hi.other (.refl w) ?_ (.refl es.length ops)
        (Nat.ne_of_lt (System.lt_of_inProgress hi.began))⟩
      rw [System.inProgress_append, System.Event.progress, Function.update_of_ne hut]
      exact hi.began

theorem Atomic.returned (h : Atomic m₀ es w γ) (hl : γ t = some l)
    (hend : Engine.rules.ends l.call r l.journal l.ghost) :
    Atomic m₀ (es ++ [.ret t l.call r]) w (Function.update γ t none) := by
  obtain ⟨ops, hlin, hplaced⟩ := h.placed
  obtain ⟨i, hi⟩ := hplaced t l hl
  obtain ⟨ops', hlin', hops⟩ := hi.returned (h.informed t l hl) hlin hend.1
  have hsame : published m₀ (es ++ [.ret t l.call r]) = published m₀ es := published_append ..
  have hother : ∀ u lu, Function.update γ t none u = some lu → u ≠ t ∧ γ u = some lu := by
    intro u lu hu
    by_cases hut : u = t
    · rw [hut, Function.update_self] at hu
      cases hu
    · rw [Function.update_of_ne hut] at hu
      exact ⟨hut, hu⟩
  refine ⟨h.pool.threads fun u lu hu => Or.inl (hother u lu hu).2, hsame ▸ h.tells,
    fun u lu hu => h.informed u lu (hother u lu hu).2, ops', hsame ▸ hlin', fun u lu hu => ?_⟩
  obtain ⟨hut, hu⟩ := hother u lu hu
  obtain ⟨i', hi'⟩ := hplaced u lu hu
  refine ⟨i', hi'.other (.refl w) ?_ hops (ne_of_inProgress hi.began hi'.began hut)⟩
  rw [System.inProgress_append, System.Event.progress, Function.update_of_ne hut]
  exact hi'.began

omit [Crc32Fast] in
/-- The operations with which calls take effect do not fail. -/
theorem Call.TakesAt.performed (htakes : c.TakesAt o b) (hO : Steady o w b w') :
    perform o w = (b, w') := by
  rcases hO with hO | ⟨f, -, hf⟩
  · exact hO
  · cases o with
    | keydirInsert | keydirRemove | keydirGet | keydirSnapshot => cases hf
    | _ => cases c <;> exact htakes.elim

/-- After each operation the keydir tells what the publications make of the map. -/
theorem World.Tells.acts (h : w.Tells m) (hl : Informed w l.call l.journal)
    (hm : MergeOk False l.ghost.log w) (hs : l.ghost.log.Sourced)
    (hR : Engine.callProtocol l.call l.journal l.ghost.log o b g.log) (hO : Steady o w b w')
    (hgrows : w.Grows w') : w'.Tells (m.publish (.act t l.call o b)) := by
  obtain ⟨c, j, lg⟩ := l
  by_cases hmerge : c = .merge
  · subst hmerge
    have hR : MergeLog.protocol lg.log o b g.log := hR
    cases o with
    | keydirInsert | keydirRemove => exact hR.elim
    | keydirCasRepoint key old new =>
      rcases hO with hO | ⟨f, -, hf⟩
      · exact h.repoint hm hs hR hO
      · cases hf
    | _ => exact h.grows hgrows (hO.outcome.keydir rfl)
  · obtain ⟨hrule, -⟩ := (Engine.callProtocol_of_ne hmerge).mp hR
    cases c with
    | put key value timestamp =>
      cases o with
      | keydirInsert key' entry =>
        obtain ⟨rfl, x, hx, rfl⟩ := hrule
        have htakes : (Call.put key' value timestamp).TakesAt
            (.keydirInsert key' (putEntry value timestamp x)) b := trivial
        obtain ⟨-, rfl⟩ := Prod.mk.inj (htakes.performed hO)
        exact h.insert (hl.appended key' value timestamp x rfl hx) rfl rfl
      | keydirRemove | keydirCasRepoint => exact hrule.elim
      | _ => exact h.grows hgrows (hO.outcome.keydir rfl)
    | delete key timestamp =>
      cases o with
      | keydirRemove key' =>
        obtain ⟨rfl, -⟩ := hrule
        have htakes : (Call.delete key' timestamp).TakesAt (.keydirRemove key') b := trivial
        obtain ⟨-, rfl⟩ := Prod.mk.inj (htakes.performed hO)
        exact h.remove rfl rfl
      | keydirInsert | keydirCasRepoint => exact hrule.elim
      | _ => exact h.grows hgrows (hO.outcome.keydir rfl)
    | merge => exact absurd rfl hmerge
    | get key =>
      cases o with
      | keydirInsert | keydirRemove | keydirCasRepoint => exact (hrule.elim fun _ h => h.2).elim
      | _ => exact h.grows hgrows (hO.outcome.keydir rfl)
    | listKeys =>
      cases o with
      | keydirInsert | keydirRemove | keydirCasRepoint => exact hrule.elim
      | _ => exact h.grows hgrows (hO.outcome.keydir rfl)
    | fold =>
      cases o with
      | keydirInsert | keydirRemove | keydirCasRepoint =>
        obtain ⟨_, _, _, _, hreads⟩ := hrule
        exact hreads.elim
      | _ => exact h.grows hgrows (hO.outcome.keydir rfl)

/-- After each operation the calls take effect in the order so far, with the call
    at its end where it takes effect with this operation. -/
theorem Atomic.acted (h : Atomic m₀ es w γ) (hl : γ t = some l)
    (hR : Engine.rules.step l.call l.journal l.ghost o b g)
    (hfailed : l.call ≠ .merge → ¬ Journal.Failed l.journal) (hO : Steady o w b w')
    (hids : w'.allotted < 2 ^ 32) :
    Atomic m₀ (es ++ [.act t l.call o b]) w'
      (Function.update γ t (some ⟨l.call, l.journal.log o b, g⟩)) := by
  obtain ⟨ops, hlin, hplaced⟩ := h.placed
  obtain ⟨i, hi⟩ := hplaced t l hl
  have hinformed := h.informed t l hl
  have hrule : l.call ≠ .merge → l.call.rule l.journal o ∧ ¬ Journal.Failed l.journal := fun hne =>
    ⟨((Engine.callProtocol_of_ne hne).mp hR.2.2.1).1, hfailed hne⟩
  obtain ⟨hpool, hgrows⟩ := h.pool.act hl hR hO hids
  have htells : w'.Tells (published m₀ (es ++ [.act t l.call o b])) := by
    rw [published_append]
    exact h.tells.acts hinformed (h.pool.merge t l hl) (h.pool.sourced t l hl) hR.2.2.1 hO hgrows
  -- where the other calls stand
  have hother : ∀ {ops'}, System.SameBut i ops ops' → ∀ u lu, γ u = some lu → u ≠ t →
      ∃ i', Stands (es ++ [.act t l.call o b]) ops' w' u i' lu.call lu.journal := by
    intro ops' hops u lu hu hut
    obtain ⟨i', hi'⟩ := hplaced u lu hu
    refine ⟨i', hi'.other hgrows ?_ hops (ne_of_inProgress hi.began hi'.began hut)⟩
    rw [System.inProgress_append]
    exact hi'.began
  have hthreads : ∀ {ops'}, System.SameBut i ops ops' →
      Stands (es ++ [.act t l.call o b]) ops' w' t i l.call (l.journal.log o b) →
      ∀ u lu, Function.update γ t (some ⟨l.call, l.journal.log o b, g⟩) u = some lu →
        ∃ i', Stands (es ++ [.act t l.call o b]) ops' w' u i' lu.call lu.journal := by
    intro ops' hops hself u lu hu
    by_cases hut : u = t
    · subst hut
      rw [Function.update_self] at hu
      cases hu
      exact ⟨i, hself⟩
    · rw [Function.update_of_ne hut] at hu
      exact hother hops u lu hu hut
  refine ⟨hpool, htells, fun u lu hu => ?_, ?_⟩
  · by_cases hut : u = t
    · rw [hut, Function.update_self] at hu
      cases hu
      exact hinformed.log h.pool.files hrule hO hgrows hids
    · rw [Function.update_of_ne hut] at hu
      exact (h.informed u lu hu).grows hgrows
  · rw [published_append]
    by_cases htakes : l.call.TakesAt o b
    · have hne : l.call ≠ .merge := by
        intro heq
        exact not_took_merge ⟨⟨o, b⟩, List.mem_singleton_self _, heq ▸ htakes⟩
      have hnew : ¬ l.call.Took l.journal :=
        htakes.once (hrule hne).1 fun hwrite htook => (hinformed.whole hwrite htook).2
      obtain ⟨r, hspec, hforetold⟩ :=
        h.tells.takes (t := t) (hrule hne).1 htakes (htakes.performed hO)
      refine ⟨ops ++ [⟨i, t, l.call, r⟩], ?_, hthreads (System.sameBut_snoc ops ⟨i, t, l.call, r⟩)
        (hi.takes hgrows hnew htakes hforetold)⟩
      exact (hlin.takes hi.began (hi.ahead hnew) hspec).quiet fun _ _ _ => by simp
    · have hsame : (published m₀ es).publish (.act t l.call o b) = published m₀ es := by
        obtain ⟨c, j, lg⟩ := l
        cases c with
        | put =>
          cases o with
          | keydirInsert => exact absurd trivial htakes
          | _ => rfl
        | delete =>
          cases o with
          | keydirRemove => exact absurd trivial htakes
          | _ => rfl
        | _ => rfl
      rw [hsame]
      exact ⟨ops, hlin.quiet fun _ _ _ => by simp,
        hthreads (.refl i ops) (hi.acts hgrows htakes)⟩

end

/-! ## Runs -/

/-- A session: the process is not started again, an I/O error may end any
    operation but the write and the flush of an entry, and values are no longer
    than the format's length field can say. -/
def InSession [Crc32Fast] (cfg : Engine.system.Config) : Engine.system.Move → Prop
  | .fault t f => ∀ o, (cfg.threads.lookup t).bind (·.next?) = some o → f.Spares o
  | .call _ (.put _ value _) => value.length < 2 ^ 32
  | .restart _ => False
  | _ => True

instance [Crc32Fast] (cfg : Engine.system.Config) :
    ∀ m : Engine.system.Move, Decidable (InSession cfg m)
  | .fault t f => match h : (cfg.threads.lookup t).bind (·.next?) with
    | none => isTrue fun o ho => by cases h.symm.trans ho
    | some o => decidable_of_iff (f.Spares o)
      ⟨fun hs o' ho' => by cases h.symm.trans ho'; exact hs, fun hs => hs o h⟩
  | .call _ (.put _ value _) => inferInstanceAs (Decidable (value.length < 2 ^ 32))
  | .call _ (.delete ..) | .call _ (.get _) | .call _ .listKeys | .call _ .fold
  | .call _ .merge => isTrue trivial
  | .restart _ => isFalse fun h => h
  | .step _ => isTrue trivial

section

variable [Crc32Fast]

/-- The rules of the engine's threads, with nothing done after an error in a call
    other than merge. -/
def Engine.stoppingRules : System.Rules Engine.system Engine.Ghost :=
  Engine.rules.also fun c j _ => c ≠ .merge → ¬ Journal.Failed j

theorem Engine.stoppingRules_sound : Engine.stoppingRules.Sound := by
  refine Engine.rules_sound.also fun w c => ?_
  by_cases hc : c = .merge
  · subst hc
    refine (Prog.follows_journal _ []).sim (fun p q => q = p) ?_ ?_ rfl
    · rintro p o b p' _ rfl ⟨-, hj⟩
      exact ⟨p', ⟨fun h => absurd rfl h, hj⟩, rfl⟩
    · exact fun _ _ _ _ _ => trivial
  · refine (Engine.code_stops w.opts hc).sim (fun p q => q = p) ?_ ?_ rfl
    · rintro p o b p' _ rfl ⟨hfailed, hj⟩
      exact ⟨p', ⟨fun _ => hfailed, hj⟩, rfl⟩
    · exact fun _ _ _ _ _ => trivial

/-- Where a run of a session stands, while ids are left. -/
theorem atomic_reach {d : Directory} (hd : d.Short) {opts : Options}
    (hrw : opts.isReadWrite = true) {cfg : Engine.system.Config}
    (h : System.Reach InSession ⟨d.open opts, ∅, []⟩ cfg) (hids : cfg.world.allotted < 2 ^ 32) :
    ∃ γ, Atomic (d.open opts).told cfg.history cfg.world γ := by
  have halong : ∃ γ, cfg.Keeps Engine.stoppingRules γ ∧ (cfg.world.allotted < 2 ^ 32 →
      Atomic (d.open opts).told cfg.history cfg.world γ) := by
    refine h.along (J := fun es w γ => w.allotted < 2 ^ 32 → Atomic (d.open opts).told es w γ)
      Engine.stoppingRules_sound rfl (fun hids => ?_) ?_
    · have hbound : d.allotted + 1 < 2 ^ 32 := by
        rwa [show (d.open opts).allotted = d.allotted + 1 from allotted_open ..] at hids
      exact ⟨poolOk_idle (filesOk_directory d hrw hbound), tells_open hd hrw hbound,
        fun _ _ hl => (by cases hl), [], System.linearizes_nil _ _, fun _ _ hl => by cases hl⟩
    · intro cfg m e w γ γ' _ _ hJ hok hstepped hids
      cases hstepped with
      | call hl => exact (hJ hids).called hl rfl fun _ _ _ heq => by subst heq; exact hok
      | ret hl hend => exact (hJ hids).returned hl hend
      | @act m t th l o r w g hth hnext hl hout hR =>
        have hO : Steady o cfg.world r w := by
          rcases hout with ⟨-, hO⟩ | ⟨f, rfl, hf⟩
          · exact Or.inl hO
          · exact Or.inr ⟨f, hok o (by rw [hth]; exact hnext), hf⟩
        have hJ := hJ (lt_of_le_of_lt hO.outcome.allotted.2 hids)
        exact hJ.acted hl hR.1 hR.2 hO hids
      | restart => exact hok.elim
  obtain ⟨γ, -, hatomic⟩ := halong
  exact ⟨γ, hatomic hids⟩

end

/-- A get that begins and returns while a put has published its entry and not
    returned yet, a get that fails, and a merge that fails. -/
def overlap [Crc32Fast] : List Engine.system.Move :=
  [.call 0 (.put [1] [5] 7), .step 0, .call 1 (.get [1]), .step 0] ++ List.replicate 4 (.step 1) ++
    [.call 1 (.get [1]), .step 0, .step 1, .step 1, .fault 1 ⟨0, 0⟩, .step 1,
      .call 2 .merge, .step 2, .fault 2 ⟨0, 0⟩, .step 2]

/-- The returns of a history. -/
def returns [Crc32Fast] (es : List Engine.system.Event) : List (Nat × Resp) :=
  es.filterMap fun
    | .ret t _ r => some (t, r)
    | _ => none

theorem overlap_reached : letI := ieee
    ∃ cfg, System.Reach InSession
        ⟨(⟨∅, ∅⟩ : Directory).open ⟨true, false, 10⟩, ∅, []⟩ cfg ∧
      cfg.world.allotted < 2 ^ 32 ∧ returns cfg.history = [(1, .value (.ok (some [5]))),
        (0, .unit (.ok ())), (1, .value (.error (.io .injected))),
        (2, .unit (.error (.io .injected)))] := by
  let := ieee
  have hrun : ((⟨(⟨∅, ∅⟩ : Directory).open ⟨true, false, 10⟩, ∅, []⟩ :
      Engine.system.Config).play InSession overlap).map (fun cfg =>
        (decide (cfg.world.allotted < 2 ^ 32), returns cfg.history))
          = some (true, [(1, .value (.ok (some [5]))), (0, .unit (.ok ())),
            (1, .value (.error (.io .injected))), (2, .unit (.error (.io .injected)))]) := by
    decide +kernel
  obtain ⟨cfg, hplay, hcfg⟩ := Option.map_eq_some_iff.mp hrun
  obtain ⟨hids, hreturns⟩ := Prod.mk.inj hcfg
  exact ⟨cfg, .of_play .refl hplay, of_decide_eq_true hids, hreturns⟩

end Yabiir
