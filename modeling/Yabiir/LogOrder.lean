/-
  Yabiir.LogOrder

  Puts and deletes of any number of threads, in sessions that end with the process killed
  at any moment.  What is on disk is the map of the records in the order in which they
  were appended (`Logged`); the keydir agrees with it on every key that no two threads
  were writing at the same time (`log_order`).

  Each thread publishes what it has appended on its own, after the append: two writers of
  one key may publish in the other order.  The keydir `kd` of the invariant is the one
  with everything published at once, in the order of the log.
-/

import Yabiir.Crashed
import Yabiir.Lib.Linear
import Yabiir.Rules

namespace Yabiir

open Format

/-! ## Kills among many threads -/

/-- The engine, killed while the operation in flight of the given number is under way, or
    between two operations. -/
@[reducible] def Engine.killable [Crc32Fast] : System :=
  { Engine.system with
    Restart := Restart × Option Nat
    restart := fun r w ops => Yabiir.restart r.1 w (r.2.bind (ops[·]?)).toList }

/-- The call writes a record of `key`. -/
def Call.Writes (key : Bytes) (c : Call) : Prop := ∃ rec, c.record? = some rec ∧ rec.key = key

/-- The keydir entry a call publishes for what it has appended at `x`. -/
def Call.entry : Call → FileId × Nat → Option KeydirEntry
  | .put _ value timestamp, x => some (putEntry value timestamp x)
  | _, _ => none

/-- The operation has appended a record. -/
def Op.appended : (o : Op) → Op.Res o → Bool
  | .locked (.append ..), .ok _ => true
  | _, _ => false

/-- The call has appended its record. -/
def Journal.Appended (j : Journal) : Prop := ∃ x ∈ j, x.1.appended x.2 = true

section

variable [Crc32Fast]

/-- The record that the call a thread is in is still to append. -/
def pending (es : List Engine.killable.Event) : Nat → Option Record :=
  es.foldl (fun recs e =>
    match e with
    | .call t c => Function.update recs t c.record?
    | .act t _ o r => if o.appended r then Function.update recs t none else recs
    | .ret t .. => Function.update recs t none
    | .restart _ => fun _ => none) fun _ => none

/-- The map after an event: a record counts from its append on. -/
def KeyMap.log (m : KeyMap) : Engine.killable.Event → KeyMap
  | .act _ c o r => m.append c o r
  | _ => m

/-- The maps that a history may have left on disk, where `m₀` was there before: the
    records appended so far, in that order, and where a kill hit an operation, perhaps the
    record one thread was about to append. -/
inductive Logged (m₀ : KeyMap) : List Engine.killable.Event → KeyMap → Prop where
  | nil : Logged m₀ [] m₀
  | event {es : List Engine.killable.Event} {m : KeyMap} (h : Logged m₀ es m)
      (e : Engine.killable.Event) : Logged m₀ (es ++ [e]) (m.log e)
  | whole {es : List Engine.killable.Event} {m : KeyMap} (h : Logged m₀ es m) {t : Nat}
      {rec : Record} (hrec : pending es t = some rec) (hkey : rec.key ≠ [])
      {r : Restart × Option Nat} (hkill : r.2.isSome = true) :
      Logged m₀ (es ++ [.restart r]) (m.write rec)

/-! ## The programs' rules -/

/-- The calls other than merge, each with its own rule, and nothing done after an error. -/
def Engine.writingRules : System.Rules Engine.killable Unit where
  start _ _ := ()
  step c j _ o _ _ := c ≠ .merge → c.rule j o ∧ ¬ Journal.Failed j
  ends c r j _ := c ≠ .merge → c.ends r j

theorem Engine.writingRules_sound : Engine.writingRules.Sound := by
  intro w c
  by_cases hc : c = .merge
  · refine (Prog.follows_journal _ []).sim (fun j q => q = (j, ())) ?_ ?_ rfl
    · rintro j o b j' _ rfl ⟨-, hj⟩
      exact ⟨(j', ()), ⟨fun h => absurd hc h, hj⟩, rfl⟩
    · exact fun _ _ _ _ _ h => absurd hc h
  · refine ((Engine.code_follows w.opts hc).both (Engine.code_stops w.opts hc)).sim
      (fun p q => q = (p.1, ()) ∧ p.2 = p.1) ?_ ?_ ⟨rfl, rfl⟩
    · rintro p o b p' _ ⟨rfl, hp⟩ ⟨⟨hrule, hj⟩, hfailed, hj'⟩
      rw [hp] at hfailed hj'
      exact ⟨(p'.1, ()), ⟨fun _ => ⟨hrule, hfailed⟩, hj⟩, rfl, hj'.trans hj.symm⟩
    · rintro r p _ ⟨rfl, -⟩ ⟨hend, -⟩ -
      exact hend

/-! ## Journals -/

section

variable {c : Call} {j : Journal} {o : Op} {b : Op.Res o} {w w' : World} {kd : Keydir} {m : KeyMap}
  {es : List Engine.killable.Event} {t : Nat} {rec : Record}

omit [Crc32Fast] in
/-- The operations that neither append nor publish. -/
def Op.passes : Op → Bool
  | .locked (.append ..) | .keydirInsert .. | .keydirRemove _ => false
  | _ => true

omit [Crc32Fast] in
theorem Op.passes.unpublished (ho : o.passes = true) :
    Journal.unpublished (j.log o b) = j.unpublished := by
  cases o with
  | locked s =>
    cases s with
    | append => cases ho
    | _ => simp [Journal.unpublished, Prog.Journal.log]
  | keydirInsert | keydirRemove => cases ho
  | _ => simp [Journal.unpublished, Prog.Journal.log]

omit [Crc32Fast] in
theorem Op.passes.append (ho : o.passes = true) :
    m.append c o b = m ∧ kd.append w c o b = kd := by
  cases o with
  | locked s =>
    cases s with
    | append => cases ho
    | _ => exact ⟨rfl, rfl⟩
  | _ => exact ⟨rfl, rfl⟩

/-- A record is appended once by each call. -/
theorem not_appended {n : Nat} {encoded : EncodedEntry} (h : c.rule j (.locked (.append n encoded))) :
    ¬ j.Appended ∧ j.unpublished = none := by
  cases c with
  | put =>
    obtain ⟨rfl, -⟩ := h
    refine ⟨?_, rfl⟩
    rintro ⟨x, hmem, -⟩
    cases hmem
  | delete key =>
    obtain ⟨-, ⟨entry, rfl⟩, -⟩ := h
    refine ⟨?_, rfl⟩
    rintro ⟨x, hmem, happended⟩
    cases List.mem_singleton.mp hmem
    cases happended
  | get =>
    obtain ⟨_, -, hreads⟩ := h
    exact hreads.elim
  | fold =>
    obtain ⟨_, -, _, -, hreads⟩ := h
    exact hreads.elim
  | listKeys | merge => exact h.elim

/-- The writers are the puts and the deletes. -/
theorem record_of_rule (h : c.rule j o) (ho : o.isReads = false) : ∃ rec, c.record? = some rec := by
  cases c with
  | put | delete => exact ⟨_, rfl⟩
  | get key =>
    cases o with
    | keydirGet | openReader | pread => cases ho
    | _ =>
      obtain ⟨_, -, hreads⟩ := h
      exact hreads.elim
  | fold =>
    cases o with
    | keydirSnapshot | openReader | pread => cases ho
    | _ =>
      obtain ⟨_, -, _, -, hreads⟩ := h
      exact hreads.elim
  | listKeys =>
    cases o with
    | keydirSnapshot => cases ho
    | _ => exact h.elim
  | merge => exact h.elim

/-- What a call publishes is its own record's key, as what it appended. -/
theorem rule_publishes (h : c.rule j o) (ho : o.passes = false)
    (hnot : ∀ n encoded, o ≠ .locked (.append n encoded)) :
    ∃ rec x, c.record? = some rec ∧ j.unpublished = some x ∧
      (∀ key, (perform o w).2.keydir.get key = if key = rec.key then c.entry x else w.keydir.get key) ∧
      Journal.unpublished (j.log o b) = none := by
  cases o with
  | locked s =>
    cases s with
    | append n encoded => exact absurd rfl (hnot n encoded)
    | _ => cases ho
  | keydirInsert key entry =>
    cases c with
    | put key' value timestamp =>
      obtain ⟨rfl, x, hx, rfl⟩ := h
      exact ⟨_, x, rfl, hx, fun key => Keydir.get_put .., unpublished_keydirInsert ..⟩
    | get =>
      obtain ⟨_, -, hreads⟩ := h
      exact hreads.elim
    | fold =>
      obtain ⟨_, -, _, -, hreads⟩ := h
      exact hreads.elim
    | _ => exact h.elim
  | keydirRemove key =>
    cases c with
    | delete key' timestamp =>
      obtain ⟨rfl, hx⟩ := h
      obtain ⟨x, hx⟩ := Option.isSome_iff_exists.mp hx
      exact ⟨_, x, rfl, hx, fun key => Keydir.get_remove .., unpublished_keydirRemove ..⟩
    | get =>
      obtain ⟨_, -, hreads⟩ := h
      exact hreads.elim
    | fold =>
      obtain ⟨_, -, _, -, hreads⟩ := h
      exact hreads.elim
    | _ => exact h.elim
  | _ => cases ho

/-- Where a call has appended its record, a scan finds what the call is to publish. -/
theorem entry_appended (hrec : c.record? = some rec) (hfit : rec.Fits) {n : Nat}
    {encoded : EncodedEntry} (hrule : c.rule j (.locked (.append n encoded))) {id : FileId} {pos : Nat} :
    c.entry (id, pos + (encoded.bytes.length - encoded.valueLen)) = rec.op id pos := by
  cases c with
  | put key value timestamp =>
    cases hrec
    obtain ⟨-, -, rfl⟩ := hrule
    rw [valueLen_encodeEntry]
    exact congrArg some (putEntry_appended timestamp hfit.2
      (Record.length_encode ⟨key, value, false, timestamp⟩))
  | delete key timestamp =>
    cases hrec
    rfl
  | _ => cases hrec

end

/-! ## Where the threads stand -/

/-- A thread inside a call other than merge: what it found, whether its record is in the
    log, and that it has published it or is about to. -/
structure Under (es : List Engine.killable.Event) (t : Nat) (c : Call) (j : Journal) : Prop where
  ne_merge : c ≠ .merge
  fits : Event.Fits (.call c (.unit (.ok ())))
  found : ∀ key entry, (⟨.keydirGet key, some entry⟩ : Σ o : Op, Op.Res o) ∈ j →
    key.length ≤ maxKeyLen
  pending : ¬ j.Appended → pending es t = c.record?
  reads : c.record? = none → j.unpublished = none
  clean : j.Failed → j.unpublished = none

/-- What may come of an operation: reads may fail. -/
def Served (o : Op) (w : World) (b : Op.Res o) (w' : World) : Prop :=
  perform o w = (b, w') ∨ o.isReads = true ∧ ∃ f, fault f o w = some (b, w')

section

variable {c c' : Call} {j : Journal} {o : Op} {b : Op.Res o} {w w' : World} {t u : Nat} {r : Resp}
  {es : List Engine.killable.Event} {e : Engine.killable.Event}

omit [Crc32Fast] in
theorem Served.outcome (h : Served o w b w') : Outcome o w b w' := h.imp_right And.right

omit [Crc32Fast] in
/-- A read that fails changes nothing. -/
theorem fault_reads {f : Fault} (ho : o.isReads = true) (hf : fault f o w = some (b, w')) :
    w' = w := by
  cases o with
  | openReader | pread =>
    obtain ⟨-, rfl⟩ := Prod.mk.inj (Option.some.inj hf)
    rfl
  | keydirGet | keydirSnapshot => cases hf
  | _ => cases ho

theorem pending_append : pending (es ++ [e]) =
    match e with
    | .call t c => Function.update (pending es) t c.record?
    | .act t _ o r => if o.appended r then Function.update (pending es) t none else pending es
    | .ret t .. => Function.update (pending es) t none
    | .restart _ => fun _ => none := by
  rw [pending, List.foldl_append]
  rfl

/-- An event of another thread. -/
theorem Under.other (h : Under es u c j)
    (hpending : Yabiir.pending (es ++ [e]) u = Yabiir.pending es u) : Under (es ++ [e]) u c j :=
  { h with pending := fun hj => hpending.trans (h.pending hj) }

theorem under_called (hc : c ≠ .merge) (hfits : Event.Fits (.call c (.unit (.ok ())))) :
    Under (es ++ [.call t c]) t c [] where
  ne_merge := hc
  fits := hfits
  found := fun _ _ hmem => by cases hmem
  pending := fun _ => by
    rw [pending_append]
    exact Function.update_self ..
  reads := fun _ => rfl
  clean := fun _ => rfl

theorem pending_act (hut : u ≠ t) : pending (es ++ [.act t c o b]) u = pending es u := by
  rw [pending_append]
  dsimp only
  split
  · exact Function.update_of_ne hut ..
  · rfl

theorem Under.act (h : Under es t c j) (hrule : c.rule j o) (hfailed : ¬ j.Failed)
    (hO : Served o w b w') (hkeys : ∀ key entry, w.keydir.get key = some entry → key.length ≤ maxKeyLen) :
    Under (es ++ [.act t c o b]) t c (j.log o b) where
  ne_merge := h.ne_merge
  fits := h.fits
  found := by
    intro key entry hmem
    rcases List.mem_append.mp hmem with hmem | hmem
    · exact h.found key entry hmem
    · obtain ⟨rfl, hb⟩ := Sigma.mk.inj (List.mem_singleton.mp hmem)
      rcases hO with hO | ⟨-, f, hf⟩
      · obtain ⟨hget, -⟩ := Prod.mk.inj hO
        exact hkeys key entry (hget.trans (eq_of_heq hb).symm)
      · cases hf
  pending := by
    intro hnot
    have hbefore : ¬ j.Appended := by
      rintro ⟨x, hmem, happended⟩
      exact hnot ⟨x, List.mem_append_left _ hmem, happended⟩
    have ho : ¬ o.appended b = true := fun ho =>
      hnot ⟨⟨o, b⟩, List.mem_append_right _ (List.mem_singleton_self _), ho⟩
    rw [pending_append]
    dsimp only
    rw [if_neg ho]
    exact h.pending hbefore
  reads := by
    intro hrec
    cases hpass : o.passes with
    | true => exact (Op.passes.unpublished hpass).trans (h.reads hrec)
    | false =>
      obtain ⟨rec, hrec'⟩ := record_of_rule hrule (by
        cases o with
        | locked | keydirInsert | keydirRemove => rfl
        | _ => cases hpass)
      cases hrec.symm.trans hrec'
  clean := by
    rintro ⟨x, hx, hfailed'⟩
    -- the operation is the first that failed
    rcases List.mem_append.mp hx with hx | hx
    · exact absurd ⟨x, hx, hfailed'⟩ hfailed
    obtain rfl := List.mem_singleton.mp hx
    cases o with
    | locked s =>
      cases s with
      | append n encoded =>
        cases b with
        | error e => exact (unpublished_append_error ..).trans (not_appended hrule).2
        | ok x => cases hfailed'
      | activeFileId | restoreActive => cases rule_isCalls hrule
    | commit generation =>
      rcases hO with hO | ⟨hreads, -⟩
      · simp only [perform, performBase] at hO
        split at hO <;> obtain ⟨rfl, -⟩ := Prod.mk.inj hO <;> cases hfailed'
      · cases hreads
    | openReader | pread =>
      refine (Op.passes.unpublished rfl).trans (h.reads ?_)
      cases c with
      | put | delete => exact hrule.elim
      | _ => rfl
    | keydirGet | keydirInsert | keydirRemove | keydirSnapshot => cases hfailed'
    | _ => cases rule_isCalls hrule

end

/-! ## Keydir and log -/

/-- The threads of a pool, as the rules see them. -/
abbrev Writers := System.Ghosts Engine.killable Unit

/-- On one key, the keydir is behind the log by what the threads have not published. -/
structure Agrees (kd : Keydir) (w : World) (γ : Writers) (key : Bytes) : Prop where
  unpublished : ∀ t l x, γ t = some l → l.call.Writes key → Journal.unpublished l.journal = some x →
    kd.get key = l.call.entry x
  published : (∀ t l, γ t = some l → l.call.Writes key → Journal.unpublished l.journal = none) →
    w.keydir.get key = kd.get key

/-- The thread `t` is in a call, with journal `j`. -/
abbrev Writers.at (γ : Writers) (t : Nat) (c : Call) (j : Journal) : Writers :=
  Function.update γ t (some ⟨c, j, ()⟩)

section

variable {kd kd' : Keydir} {w w' : World} {γ : Writers} {key : Bytes} {t : Nat} {c : Call} {o : Op}
  {b : Op.Res o} {j j' : Journal} {rec : Record} {x : FileId × Nat}

/-- A call begins or ends, with nothing left to publish. -/
theorem Agrees.threads (h : Agrees kd w γ key)
    (hidle : ∀ l, γ t = some l → Journal.unpublished l.journal = none)
    {l? : Option (System.Local Engine.killable Unit)}
    (hl? : ∀ l, l? = some l → Journal.unpublished l.journal = none) :
    Agrees kd w (Function.update γ t l?) key where
  unpublished := by
    intro u l x hl hw hx
    by_cases hu : u = t
    · rw [hu, Function.update_self] at hl
      cases (hl? l hl).symm.trans hx
    · rw [Function.update_of_ne hu] at hl
      exact h.unpublished u l x hl hw hx
  published := by
    intro hall
    apply h.published
    intro u l hl hw
    by_cases hu : u = t
    · exact hidle l (hu ▸ hl)
    · exact hall u l ((Function.update_of_ne hu ..).trans hl) hw

/-- An operation that does not touch the key, of a call that writes another or that has as
    much to publish as before. -/
theorem Agrees.elsewhere (h : Agrees kd w γ key) (hl : γ t = some ⟨c, j, ()⟩)
    (hkd : kd'.get key = kd.get key) (hkeydir : w'.keydir.get key = w.keydir.get key)
    (hsame : ¬ c.Writes key ∨ j'.unpublished = j.unpublished) : Agrees kd' w' (γ.at t c j') key where
  unpublished := by
    intro u l x hu hw hx
    rw [hkd]
    by_cases hut : u = t
    · rw [hut, Writers.at, Function.update_self] at hu
      cases hu
      rcases hsame with hnot | hsame
      · exact absurd hw hnot
      · exact h.unpublished t ⟨c, j, ()⟩ x hl hw (hsame.symm.trans hx)
    · rw [Writers.at, Function.update_of_ne hut] at hu
      exact h.unpublished u l x hu hw hx
  published := by
    intro hall
    rw [hkeydir, hkd]
    apply h.published
    intro u l hu hw
    by_cases hut : u = t
    · rw [hut, hl] at hu
      cases hu
      rcases hsame with hnot | hsame
      · exact absurd hw hnot
      · exact hsame.symm.trans (hall t _ (Function.update_self ..) hw)
    · exact hall u l ((Function.update_of_ne hut ..).trans hu) hw

/-- The one writer of the key appends its record. -/
theorem Agrees.appends (hapart : ∀ u l, γ u = some l → l.call.Writes key → u = t)
    (hw : c.Writes key) (hx : j'.unpublished = some x) (hkd : kd'.get key = c.entry x) :
    Agrees kd' w' (γ.at t c j') key where
  unpublished := by
    intro u l x' hu hw' hx'
    by_cases hut : u = t
    · rw [hut, Writers.at, Function.update_self] at hu
      cases hu
      cases hx.symm.trans hx'
      exact hkd
    · rw [Writers.at, Function.update_of_ne hut] at hu
      exact absurd (hapart u l hu hw') hut
  published := by
    intro hall
    cases hx.symm.trans (hall t _ (Function.update_self ..) hw)

/-- The one writer of the key publishes what it has appended. -/
theorem Agrees.publishes (h : Agrees kd w γ key) (hl : γ t = some ⟨c, j, ()⟩)
    (hapart : ∀ u l, γ u = some l → l.call.Writes key → u = t) (hw : c.Writes key)
    (hx : j.unpublished = some x) (hx' : j'.unpublished = none)
    (hkeydir : w'.keydir.get key = c.entry x) : Agrees kd w' (γ.at t c j') key where
  unpublished := by
    intro u l y hu hw' hy
    by_cases hut : u = t
    · rw [hut, Writers.at, Function.update_self] at hu
      cases hu
      cases hx'.symm.trans hy
    · rw [Writers.at, Function.update_of_ne hut] at hu
      exact absurd (hapart u l hu hw') hut
  published := fun _ => hkeydir.trans (h.unpublished t _ x hl hw hx).symm

end

/-! ## The invariant -/

/-- After the history `es`: the files say what `m` says, as the keydir `kd` finds it, and
    where the calls of one key have kept apart, the keydir is up to date but for them. -/
structure Ordered (m₀ : KeyMap) (es : List Engine.killable.Event) (w : World) (γ : Writers)
    (m : KeyMap) (kd : Keydir) : Prop where
  logged : Logged m₀ es m
  ready : Ready False m (w.publish kd)
  keys : ∀ key entry, w.keydir.get key = some entry → key.length ≤ maxKeyLen
  calls : ∀ t, (System.inProgress es t).map Prod.snd = (γ t).map (·.call)
  under : ∀ t l, γ t = some l → Under es t l.call l.journal
  agrees : ∀ key, System.Apart (Call.Writes key) es → Agrees kd w γ key

section

variable {m₀ m : KeyMap} {es : List Engine.killable.Event} {w w' : World} {γ : Writers}
  {kd : Keydir} {t : Nat} {c : Call} {o : Op} {b : Op.Res o} {j : Journal} {r : Resp}

/-- Between calls. -/
theorem Ready.ordered (h : Ready False m w) (hlogged : Logged m₀ es m)
    (hidle : ∀ t, System.inProgress es t = none) :
    Ordered m₀ es w (fun _ => none) m w.keydir where
  logged := hlogged
  ready := h
  keys := fun _ _ hkd => h.fits_key hkd
  calls := fun t => by rw [hidle]; rfl
  under := fun _ _ hl => by cases hl
  agrees := fun _ _ => ⟨fun _ _ _ hl => (by cases hl), fun _ => rfl⟩

/-- Calls that keep apart are of one thread. -/
theorem Ordered.apart (h : Ordered m₀ es w γ m kd) {key : Bytes}
    (hapart : System.Apart (Call.Writes key) es) (hl : γ t = some ⟨c, j, ()⟩) (hw : c.Writes key)
    (u : Nat) (l : System.Local Engine.killable Unit) (hu : γ u = some l) (hw' : l.call.Writes key) :
    u = t := by
  have hin : ∀ u l, γ u = some l → ∃ i, System.inProgress es u = some (i, l.call) := by
    intro u l hu
    have hcall := h.calls u
    rw [hu] at hcall
    obtain ⟨⟨i, d⟩, hi, rfl⟩ := Option.map_eq_some_iff.mp hcall
    exact ⟨i, hi⟩
  obtain ⟨i, hi⟩ := hin u l hu
  obtain ⟨i', hi'⟩ := hin t _ hl
  exact hapart.now hi hi' hw' hw

theorem Ordered.called (h : Ordered m₀ es w γ m kd) (hl : γ t = none) (hc : c ≠ .merge)
    (hfits : Event.Fits (.call c (.unit (.ok ())))) :
    Ordered m₀ (es ++ [.call t c]) w (γ.at t c []) m kd where
  logged := h.logged.event (.call t c)
  ready := h.ready
  keys := h.keys
  calls := by
    intro u
    rw [System.inProgress_append, System.Event.progress]
    by_cases hu : u = t
    · rw [hu, Writers.at, Function.update_self, Function.update_self]
      rfl
    · rw [Writers.at, Function.update_of_ne hu, Function.update_of_ne hu]
      exact h.calls u
  under := by
    intro u l hu
    by_cases hut : u = t
    · rw [hut, Writers.at, Function.update_self] at hu
      cases hu
      exact hut ▸ under_called hc hfits
    · rw [Writers.at, Function.update_of_ne hut] at hu
      apply (h.under u l hu).other
      rw [pending_append]
      exact Function.update_of_ne hut ..
  agrees := by
    intro key hapart
    apply (h.agrees key (hapart.before fun _ heq => by cases heq)).threads
    · intro l hu
      cases hl.symm.trans hu
    · rintro l hl'
      cases hl'
      rfl

theorem Ordered.returned (h : Ordered m₀ es w γ m kd) (hl : γ t = some ⟨c, j, ()⟩)
    (hend : c.ends r j) : Ordered m₀ (es ++ [.ret t c r]) w (Function.update γ t none) m kd where
  logged := h.logged.event (.ret t c r)
  ready := h.ready
  keys := h.keys
  calls := by
    intro u
    rw [System.inProgress_append, System.Event.progress]
    by_cases hu : u = t
    · rw [hu, Function.update_self, Function.update_self]
      rfl
    · rw [Function.update_of_ne hu, Function.update_of_ne hu]
      exact h.calls u
  under := by
    intro u l hu
    by_cases hut : u = t
    · rw [hut, Function.update_self] at hu
      cases hu
    · rw [Function.update_of_ne hut] at hu
      apply (h.under u l hu).other
      rw [pending_append]
      exact Function.update_of_ne hut ..
  agrees := by
    intro key hapart
    apply (h.agrees key (hapart.before fun _ heq => by cases heq)).threads
    · intro l hu
      cases hl.symm.trans hu
      have hunder := h.under t _ hl
      -- a call that returns has published its record, has none, or has failed
      cases c with
      | put | delete =>
        rcases hend with ⟨-, hpublished, -⟩ | ⟨-, rfl | hfailed⟩
        · exact hpublished
        · rfl
        · exact hunder.clean hfailed
      | _ => exact hunder.reads rfl
    · intro l hl'
      cases hl'

end

/-! ## Steps -/

section

variable {m₀ m : KeyMap} {es : List Engine.killable.Event} {w w' : World} {γ : Writers}
  {kd : Keydir} {t : Nat} {c : Call} {o : Op} {b : Op.Res o} {j : Journal} {rec : Record}
  {cfg : Engine.killable.Config}

/-- The record a call appends is within the format's limits. -/
theorem Under.record_fits (h : Under es t c j) (rec : Record) (n : Nat) (encoded : EncodedEntry)
    (hrec : c.record? = some rec) (hrule : c.rule j (.locked (.append n encoded))) : rec.Fits :=
  fits_of_rule h.fits h.found hrule hrec

/-- What an operation of a call makes of what is stored. -/
theorem Ordered.stored (h : Ordered m₀ es w γ m kd) (hl : γ t = some ⟨c, j, ()⟩)
    (hrule : c.rule j o) (hO : Served o w b w') (hids : w'.allotted < 2 ^ 32) :
    Ready False (m.append c o b) (w'.publish (kd.append w c o b)) := by
  rcases hO with hO | ⟨hreads, f, hf⟩
  · have hready := h.ready.act hrule (fun rec n encoded hrec ho =>
      (h.under t _ hl).record_fits rec n encoded hrec (ho ▸ hrule)) (by rw [hO]; exact hids)
    rwa [hO] at hready
  · obtain rfl := fault_reads hreads hf
    have hpass : o.passes = true := by
      cases o with
      | locked | keydirInsert | keydirRemove => cases hreads
      | _ => rfl
    have hsame : m.append c o b = m ∧ kd.append w' c o b = kd := Op.passes.append hpass
    obtain ⟨hm, hkd⟩ := hsame
    rw [hm, hkd]
    exact h.ready

/-- An operation, for the agreement of keydir and log on one key. -/
theorem Ordered.agrees_act (h : Ordered m₀ es w γ m kd) (hl : γ t = some ⟨c, j, ()⟩)
    (hrule : c.rule j o) (hO : Served o w b w') {key : Bytes}
    (hapart : System.Apart (Call.Writes key) es) :
    Agrees (kd.append w c o b) w' (γ.at t c (j.log o b)) key := by
  have hagrees := h.agrees key hapart
  have hone := fun hw => h.apart hapart hl hw
  cases hpass : o.passes with
  | true =>
    have hkeydir : w'.keydir = w.keydir := by
      apply hO.outcome.keydir
      cases o with
      | keydirInsert | keydirRemove => cases hpass
      | keydirCasRepoint => cases rule_isCalls hrule
      | _ => rfl
    rw [(Op.passes.append (m := m) hpass).2]
    exact hagrees.elsewhere hl rfl (by rw [hkeydir]) (Or.inr (Op.passes.unpublished hpass))
  | false =>
    -- reads alone may fail
    have hperform : perform o w = (b, w') := by
      rcases hO with hO | ⟨hreads, -⟩
      · exact hO
      · cases o with
        | locked | keydirInsert | keydirRemove => cases hreads
        | _ => cases hpass
    by_cases happend : ∃ n encoded, o = .locked (.append n encoded)
    · obtain ⟨n, encoded, rfl⟩ := happend
      obtain ⟨rec, hrec, hbytes, -⟩ := rule_append hrule
      have hkeydir : w'.keydir = w.keydir := hO.outcome.keydir rfl
      cases hlong : World.tooLong w.disk.data w.active.fileId encoded.bytes with
      | true =>
        rw [perform_append_tooLong _ _ _ hlong] at hperform
        obtain ⟨rfl, -⟩ := Prod.mk.inj hperform
        exact hagrees.elsewhere hl rfl (by rw [hkeydir]) (Or.inr (unpublished_append_error ..))
      | false =>
        rw [perform_append _ _ _ hlong] at hperform
        obtain ⟨rfl, -⟩ := Prod.mk.inj hperform
        have hfit := (h.under t _ hl).record_fits rec n encoded hrec hrule
        have hkd : ∀ key', (kd.append w c (.locked (.append n encoded)) (.ok
            (w.active.fileId, w.active.offset + (encoded.bytes.length - encoded.valueLen),
              w.commit.pendingWrites + 1))).get key' = if key' = rec.key
                then rec.op w.active.fileId w.active.offset else kd.get key' := by
          intro key'
          simp only [Keydir.append, hrec, Option.elim_some]
          exact get_applyOp ..
        by_cases hkey : key = rec.key
        · have hw : c.Writes key := ⟨rec, hrec, hkey.symm⟩
          refine .appends (hone hw) hw (unpublished_append ..) ?_
          rw [hkd, if_pos hkey]
          exact (entry_appended hrec hfit hrule).symm
        · refine hagrees.elsewhere hl ?_ (by rw [hkeydir]) (Or.inl ?_)
          · rw [hkd, if_neg hkey]
          · rintro ⟨rec', hrec', rfl⟩
            cases hrec.symm.trans hrec'
            exact hkey rfl
    · obtain ⟨rec, x, hrec, hx, hkeydir, hx'⟩ := rule_publishes (b := b) (w := w) hrule hpass
        fun n encoded heq => happend ⟨n, encoded, heq⟩
      have hsame : kd.append w c o b = kd := by
        cases o with
        | locked s =>
          cases s with
          | append n encoded => exact absurd ⟨n, encoded, rfl⟩ happend
          | _ => rfl
        | _ => rfl
      rw [hperform] at hkeydir
      rw [hsame]
      by_cases hkey : key = rec.key
      · have hw : c.Writes key := ⟨rec, hrec, hkey.symm⟩
        refine hagrees.publishes hl (hone hw) hw hx hx' ?_
        rw [hkeydir, if_pos hkey]
      · refine hagrees.elsewhere hl rfl ?_ (Or.inl ?_)
        · rw [hkeydir, if_neg hkey]
        · rintro ⟨rec', hrec', rfl⟩
          cases hrec.symm.trans hrec'
          exact hkey rfl

/-- What the keydir names after an operation is a key it named, or one put. -/
theorem Ordered.keys_act (h : Ordered m₀ es w γ m kd) (hl : γ t = some ⟨c, j, ()⟩)
    (hrule : c.rule j o) (hO : Served o w b w') {key : Bytes} {entry : KeydirEntry}
    (hkd : w'.keydir.get key = some entry) : key.length ≤ maxKeyLen := by
  have hunder := h.under t _ hl
  cases o with
  | keydirInsert key' entry' =>
    rcases hO with hO | ⟨hreads, -⟩
    · obtain ⟨-, rfl⟩ := Prod.mk.inj hO
      have hget : (w.keydir.put key' entry').get key = some entry := hkd
      rw [Keydir.get_put] at hget
      split at hget
      · rename_i heq
        cases c with
        | put key'' value timestamp =>
          obtain ⟨rfl, -⟩ := hrule
          exact heq ▸ hunder.fits.1
        | get =>
          obtain ⟨_, -, hreads⟩ := hrule
          exact hreads.elim
        | fold =>
          obtain ⟨_, -, _, -, hreads⟩ := hrule
          exact hreads.elim
        | _ => exact hrule.elim
      · exact h.keys key entry hget
    · cases hreads
  | keydirRemove key' =>
    rcases hO with hO | ⟨hreads, -⟩
    · obtain ⟨-, rfl⟩ := Prod.mk.inj hO
      have hget : (w.keydir.remove key').get key = some entry := hkd
      rw [Keydir.get_remove] at hget
      split at hget
      · cases hget
      · exact h.keys key entry hget
    · cases hreads
  | keydirCasRepoint => cases rule_isCalls hrule
  | _ =>
    rw [hO.outcome.keydir rfl] at hkd
    exact h.keys key entry hkd

theorem Ordered.acted (h : Ordered m₀ es w γ m kd) (hl : γ t = some ⟨c, j, ()⟩)
    (hrule : c.rule j o) (hfailed : ¬ j.Failed) (hO : Served o w b w')
    (hids : w'.allotted < 2 ^ 32) :
    Ordered m₀ (es ++ [.act t c o b]) w' (γ.at t c (j.log o b)) (m.append c o b)
      (kd.append w c o b) where
  logged := h.logged.event (.act t c o b)
  ready := h.stored hl hrule hO hids
  keys := fun _ _ hkd => h.keys_act hl hrule hO hkd
  calls := by
    intro u
    rw [System.inProgress_append, System.Event.progress, h.calls u]
    by_cases hu : u = t
    · rw [hu, hl, Writers.at, Function.update_self]
      rfl
    · rw [Writers.at, Function.update_of_ne hu]
  under := by
    intro u l hu
    by_cases hut : u = t
    · rw [hut, Writers.at, Function.update_self] at hu
      cases hu
      exact hut ▸ (h.under t _ hl).act hrule hfailed hO h.keys
    · rw [Writers.at, Function.update_of_ne hut] at hu
      exact (h.under u l hu).other (pending_act hut)
  agrees := fun key hapart =>
    h.agrees_act hl hrule hO (hapart.before fun _ heq => by cases heq)

omit [Crc32Fast] in
theorem Call.Writes.record (hrec : c.record? = some rec) (m : KeyMap) : m.writeBy c = m.write rec := by
  rw [KeyMap.writeBy, hrec, Option.elim_some]

/-- Sessions open to writes. -/
theorem Resting.ready_of_readWrite (h : Resting False m w) (hrw : w.opts.isReadWrite = true) :
    Ready False m w := by
  cases h with
  | ready h => exact h
  | @readOnly disk n h opts hro allotted hn refused readers =>
    have hopts : (World.open disk opts allotted refused).opts = opts := opts_open
    cases hro.symm.trans (hopts ▸ hrw)

theorem restart_grows {r : Restart × Option Nat}
    (hkill : Engine.killable.restart r w ops = some w') :
    w.allotted ≤ w'.allotted ∧ w'.opts = r.1.opts := by
  have hkill' : Yabiir.restart r.1 w (r.2.bind (ops[·]?)).toList = some w' := hkill
  unfold Yabiir.restart at hkill'
  split at hkill'
  · obtain rfl := Option.some.inj hkill'
    exact ⟨allotted_open ▸ Nat.le_succ _, opts_open⟩
  · obtain rfl := Option.some.inj hkill'
    have hgrows := (w.interrupted_grows r.1.stage ‹Op›).1
    exact ⟨allotted_open ▸ hgrows.trans (Nat.le_succ _), opts_open⟩
  · cases hkill'

/-- The process is killed and started again. -/
theorem Ordered.restarted (h : Ordered m₀ cfg.history cfg.world γ m kd)
    (hkeeps : cfg.Keeps Engine.writingRules γ) {r : Restart × Option Nat}
    (hrw : r.1.opts.isReadWrite = true)
    (hkill : Engine.killable.restart r cfg.world cfg.inFlight = some w') (hids : w'.allotted < 2 ^ 32) :
    ∃ m', Ordered m₀ (cfg.history ++ [.restart r]) w' (fun _ => none) m' w'.keydir := by
  have hstored : cfg.world.Stored m := ⟨kd, h.ready⟩
  have hopts : w'.opts.isReadWrite = true := by
    rw [(restart_grows hkill).2]
    exact hrw
  have hidle : ∀ t, System.inProgress (cfg.history ++ [.restart r]) t = none := by
    intro t
    rw [System.inProgress_append]
    rfl
  have hresting : ∀ {m'}, Resting False m' w' → Logged m₀ (cfg.history ++ [.restart r]) m' →
      Ordered m₀ (cfg.history ++ [.restart r]) w' (fun _ => none) m' w'.keydir := by
    intro m' hrest hlogged
    exact (hrest.ready_of_readWrite hopts).ordered hlogged hidle
  have hsame := h.logged.event (.restart r)
  obtain ⟨r, n⟩ := r
  cases ho : n.bind (cfg.inFlight[·]?) with
  | none =>
    have hkill' : Yabiir.restart r cfg.world (n.bind (cfg.inFlight[·]?)).toList = some w' := hkill
    rw [ho] at hkill'
    exact ⟨m, hresting (hstored.resting hkill' hids) hsame⟩
  | some o =>
    have hkill' : Yabiir.restart r cfg.world (n.bind (cfg.inFlight[·]?)).toList = some w' := hkill
    rw [ho] at hkill'
    obtain ⟨i, hi, hget⟩ := Option.bind_eq_some_iff.mp ho
    have hin : o ∈ cfg.inFlight := List.mem_of_getElem? hget
    obtain ⟨t, l, g, hl, hrule⟩ := hkeeps.next hin (perform o cfg.world).1
    have hunder := h.under t l hl
    obtain ⟨hrule, -⟩ := hrule hunder.ne_merge
    rcases hstored.killed hrule (fun rec n encoded hrec ho =>
        hunder.record_fits rec n encoded hrec (ho ▸ hrule)) hkill' hids with
      hrest | ⟨⟨k, encoded, rfl⟩, hrest⟩
    · exact ⟨m, hresting hrest hsame⟩
    · obtain ⟨rec, hrec, -, hkey⟩ := rule_append hrule
      rw [Call.Writes.record hrec] at hrest
      have hpending := (hunder.pending (not_appended hrule).1).trans hrec
      exact ⟨_, hresting hrest (h.logged.whole hpending hkey (hi ▸ rfl))⟩

end

/-! ## Runs -/

/-- Calls other than merge, within the format's limits, on handles open to writes, where
    nothing but reads of values fails. -/
def Appending (cfg : Engine.killable.Config) : Engine.killable.Move → Prop
  | .call _ c => c ≠ .merge ∧ Event.Fits (.call c (.unit (.ok ())))
  | .step _ => True
  | .fault t _ => ∀ o, (cfg.threads.lookup t).bind (·.next?) = some o → o.isReads = true
  | .restart r => r.1.opts.isReadWrite = true

instance (e : Event) : Decidable e.Fits := match e with
  | .call (.put key value _) _ =>
    inferInstanceAs (Decidable (key.length ≤ maxKeyLen ∧ value.length < 2 ^ 32))
  | .call (.delete ..) _ | .call (.get _) _ | .call .listKeys _ | .call .fold _ | .call .merge _
  | .reopen _ | .killed _ => isTrue trivial

instance (cfg : Engine.killable.Config) : ∀ m : Engine.killable.Move, Decidable (Appending cfg m)
  | .call _ c => inferInstanceAs (Decidable (c ≠ .merge ∧ Event.Fits (.call c (.unit (.ok ())))))
  | .step _ => isTrue trivial
  | .fault t _ => match h : (cfg.threads.lookup t).bind (·.next?) with
    | none => isTrue fun o ho => by cases h.symm.trans ho
    | some o => decidable_of_iff (o.isReads = true)
      ⟨fun hs o' ho' => by cases h.symm.trans ho'; exact hs, fun hs => hs o h⟩
  | .restart r => inferInstanceAs (Decidable (r.1.opts.isReadWrite = true))

theorem ordered_reach (m₀ : KeyMap) {w : World} (hrw : w.opts.isReadWrite = true)
    {cfg : Engine.killable.Config} (h : System.Reach Appending ⟨w, ∅, []⟩ cfg) :
    w.allotted ≤ cfg.world.allotted ∧ (cfg.world.allotted < 2 ^ 32 → Resting False m₀ w →
      ∃ γ m kd, cfg.Keeps Engine.writingRules γ ∧ Ordered m₀ cfg.history cfg.world γ m kd) := by
  have halong : ∃ γ, cfg.Keeps Engine.writingRules γ ∧ w.allotted ≤ cfg.world.allotted ∧
      (cfg.world.allotted < 2 ^ 32 → Resting False m₀ w →
        ∃ m kd, Ordered m₀ cfg.history cfg.world γ m kd) := by
    refine h.along (J := fun es w' γ => w.allotted ≤ w'.allotted ∧ (w'.allotted < 2 ^ 32 →
      Resting False m₀ w → ∃ m kd, Ordered m₀ es w' γ m kd)) Engine.writingRules_sound rfl
        ⟨le_rfl, fun _ hw => ⟨m₀, w.keydir, (hw.ready_of_readWrite hrw).ordered .nil fun _ => rfl⟩⟩ ?_
    rintro cfg move e w' γ γ' - hkeeps ⟨hle, hJ⟩ hok hstepped
    cases hstepped with
    | @call t c hl =>
      refine ⟨hle, fun hids hw => ?_⟩
      obtain ⟨m, kd, hord⟩ := hJ hids hw
      exact ⟨m, kd, hord.called hl hok.1 hok.2⟩
    | @ret t l r hl hend =>
      refine ⟨hle, fun hids hw => ?_⟩
      obtain ⟨m, kd, hord⟩ := hJ hids hw
      exact ⟨m, kd, hord.returned hl (hend (hord.under t l hl).ne_merge)⟩
    | @act move t th l o b w' g hth hnext hl hout hR =>
      have hO : Served o cfg.world b w' := by
        rcases hout with ⟨-, hO⟩ | ⟨f, rfl, hf⟩
        · exact Or.inl hO
        · exact Or.inr ⟨hok o (by rw [hth]; exact hnext), f, hf⟩
      have hgrows : cfg.world.allotted ≤ w'.allotted := hO.outcome.allotted.2
      refine ⟨hle.trans hgrows, fun hids hw => ?_⟩
      obtain ⟨m, kd, hord⟩ := hJ (hgrows.trans_lt hids) hw
      obtain ⟨hrule, hfailed⟩ := hR (hord.under t l hl).ne_merge
      exact ⟨_, _, hord.acted hl hrule hfailed hO hids⟩
    | @restart r w' hkill =>
      have hgrows : cfg.world.allotted ≤ w'.allotted := (restart_grows hkill).1
      refine ⟨hle.trans hgrows, fun hids hw => ?_⟩
      obtain ⟨m, kd, hord⟩ := hJ (hgrows.trans_lt hids) hw
      obtain ⟨m', hord'⟩ := hord.restarted hkeeps hok hkill hids
      exact ⟨m', _, hord'⟩
  obtain ⟨γ, hkeeps, hle, hord⟩ := halong
  refine ⟨hle, fun hids hw => ?_⟩
  obtain ⟨m, kd, hord⟩ := hord hids hw
  exact ⟨γ, m, kd, hkeeps, hord⟩

end

/-- Two puts, killed while the second appends its record, of which all bytes get there,
    and a get whose read of the value failed. -/
def crossed [Crc32Fast] : List Engine.killable.Move :=
  [.call 0 (.put [5] [6] 9), .step 0, .call 1 (.put [7] [8] 9), .call 2 (.get [1]), .step 2,
    .fault 2 ⟨0, 0⟩, .step 2, .step 0, .step 0,
    .restart (⟨2, fun _ => 99, fun _ => 0, ⟨true, false, 1⟩⟩, some 0)]

end Yabiir
