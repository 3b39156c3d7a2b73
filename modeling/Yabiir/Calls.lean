/-
  Yabiir.Calls

  What the calls other than merge do, as rules on the journal of the calling
  thread: what may come after what, and what a call that ends has done.
-/

import Yabiir.Engine
import Yabiir.Merge.Follows

namespace Yabiir

open Format

variable [Crc32Fast]

/-! ## Journals -/

omit [Crc32Fast] in
/-- The error an operation ended in, where the code passes it on. -/
def Op.error? : (o : Op) → Op.Res o → Option IoError
  | .discover, .error e => some e
  | .createData _, .error e => some e
  | .createHint _, .error e => some e
  | .writeData .., .error e => some e
  | .writeHint .., .error e => some e
  | .flushData _, .error e => some e
  | .flushHint _, .error e => some e
  | .syncData _, .error e => some e
  | .readFile _, .error e => some e
  | .openReader _, .error e => some e
  | .pread .., .error e => some e
  | .locked (.append ..), .error e => some e
  | .locked (.restoreActive _), .error e => some e
  | .commit _, .error e => some e
  | _, _ => none

namespace Journal

/-- One of the operations ended in the error `e`. -/
def FailsWith (j : Journal) (e : IoError) : Prop := ∃ x ∈ j, x.1.error? x.2 = some e

/-- One of the operations failed. -/
def Failed (j : Journal) : Prop := ∃ x ∈ j, (x.1.error? x.2).isSome = true

instance (j : Journal) : Decidable j.Failed := inferInstanceAs (Decidable (∃ x ∈ j, _))

/-- Where the call has appended an entry it has not published in the keydir
    yet: the file, and the position of the value. -/
def unpublished (j : Journal) : Option (FileId × Nat) :=
  j.foldl (fun acc x =>
    match x with
    | ⟨.locked (.append ..), .ok (fileId, valuePos, _)⟩ => some (fileId, valuePos)
    | ⟨.keydirInsert .., _⟩ => none
    | ⟨.keydirRemove _, _⟩ => none
    | _ => acc) none

end Journal

/-! ## Rules -/

/-- The keydir entry a put publishes for what it appended at `x`. -/
def putEntry (value : Bytes) (timestamp : UInt32) (x : FileId × Nat) : KeydirEntry where
  fileId := x.1
  valueSize := value.length % 2 ^ 32
  valuePos := x.2
  timestamp := timestamp

/-- Reading the value of `entry`: the file's handle, then the bytes. -/
def readsValue (entry : KeydirEntry) : Op → Prop
  | .openReader fileId => fileId = entry.fileId
  | .pread fileId pos len => (fileId, pos, len) = (entry.fileId, entry.valuePos, entry.valueSize)
  | _ => False

/-- What a call other than merge may do after journal `j`. -/
def Call.rule : Call → Journal → Op → Prop
  | .put key value timestamp, j, .locked (.append _ encoded) =>
    j = [] ∧ key ≠ [] ∧ encoded = encodeEntry key value false timestamp
  | .put .., j, .commit _ => j.unpublished.isSome
  | .put key value timestamp, j, .keydirInsert key' entry =>
    key' = key ∧ ∃ x, j.unpublished = some x ∧ entry = putEntry value timestamp x
  | .delete key _, j, .keydirGet key' => j = [] ∧ key' = key
  | .delete key timestamp, j, .locked (.append _ encoded) =>
    key ≠ [] ∧ (∃ entry, j = [⟨.keydirGet key, some entry⟩]) ∧
      encoded = encodeEntry key [] true timestamp
  | .delete .., j, .commit _ => j.unpublished.isSome
  | .delete key _, j, .keydirRemove key' => key' = key ∧ j.unpublished.isSome
  | .get key, j, .keydirGet key' => j = [] ∧ key' = key
  | .get key, j, o => ∃ entry, ⟨.keydirGet key, some entry⟩ ∈ j ∧ readsValue entry o
  | .listKeys, j, .keydirSnapshot => j = []
  | .fold, j, .keydirSnapshot => j = []
  | .fold, j, o => ∃ pairs, ⟨.keydirSnapshot, pairs⟩ ∈ j ∧ ∃ p ∈ pairs, readsValue p.2 o
  | _, _, _ => False

/-- The event of reading `value` where `entry` says. -/
def readEvent (entry : KeydirEntry) (value : Bytes) : Σ o : Op, Op.Res o :=
  ⟨.pread entry.fileId entry.valuePos entry.valueSize, .ok value⟩

/-- What a call other than merge that returned `r` has done. -/
def Call.ends : Call → Resp → Journal → Prop
  | .put .., r, j =>
    (r = .unit (.ok ()) ∧ j.unpublished = none ∧ ∃ key entry, ⟨.keydirInsert key entry, ()⟩ ∈ j) ∨
      (∃ e, r = .unit (.error e)) ∧ (j = [] ∨ j.Failed)
  | .delete key _, r, j =>
    (r = .unit (.ok ()) ∧ j.unpublished = none ∧
        (j = [⟨.keydirGet key, none⟩] ∨ ⟨.keydirRemove key, ()⟩ ∈ j)) ∨
      (∃ e, r = .unit (.error e)) ∧ (j = [] ∨ j.Failed)
  | .get key, r, j =>
    (r = .value (.ok none) ∧ j = [⟨.keydirGet key, none⟩]) ∨
      (∃ entry value, r = .value (.ok (some value)) ∧ ⟨.keydirGet key, some entry⟩ ∈ j ∧
        readEvent entry value ∈ j) ∨
      ∃ e, r = .value (.error (.io e)) ∧ j.FailsWith e
  | .listKeys, r, j => ∃ pairs, r = .keys (.ok (pairs.map Prod.fst)) ∧ ⟨.keydirSnapshot, pairs⟩ ∈ j
  | .fold, r, j =>
    (∃ pairs kvs, r = .pairs (.ok kvs) ∧ ⟨.keydirSnapshot, pairs⟩ ∈ j ∧
        List.Forall₂ (fun p kv => kv.1 = p.1 ∧ readEvent p.2 kv.2 ∈ j) pairs kvs) ∨
      ∃ e, r = .pairs (.error (.io e)) ∧ j.FailsWith e
  | .merge, _, _ => False

/-! ## The code follows the rules -/

section Unpublished

variable (j : Journal)

omit [Crc32Fast] in
@[simp] theorem unpublished_nil : Journal.unpublished [] = none := rfl

omit [Crc32Fast] in
@[simp] theorem unpublished_append (maxFileSize : Nat) (encoded : EncodedEntry)
    (x : FileId × Nat × Nat) :
    Journal.unpublished (j ++ [⟨.locked (.append maxFileSize encoded), .ok x⟩])
      = some (x.1, x.2.1) := by
  simp [Journal.unpublished]

omit [Crc32Fast] in
@[simp] theorem unpublished_append_error (maxFileSize : Nat) (encoded : EncodedEntry)
    (e : IoError) :
    Journal.unpublished (j ++ [⟨.locked (.append maxFileSize encoded), .error e⟩])
      = Journal.unpublished j := by
  simp [Journal.unpublished]

omit [Crc32Fast] in
@[simp] theorem unpublished_commit (generation : Nat) (r : Except IoError Unit) :
    Journal.unpublished (j ++ [⟨.commit generation, r⟩]) = Journal.unpublished j := by
  simp [Journal.unpublished]

omit [Crc32Fast] in
@[simp] theorem unpublished_keydirGet (key : Bytes) (r : Option KeydirEntry) :
    Journal.unpublished (j ++ [⟨.keydirGet key, r⟩]) = Journal.unpublished j := by
  simp [Journal.unpublished]

omit [Crc32Fast] in
@[simp] theorem unpublished_keydirInsert (key : Bytes) (entry : KeydirEntry) (r : Unit) :
    Journal.unpublished (j ++ [⟨.keydirInsert key entry, r⟩]) = none := by
  simp [Journal.unpublished]

omit [Crc32Fast] in
@[simp] theorem unpublished_keydirRemove (key : Bytes) (r : Unit) :
    Journal.unpublished (j ++ [⟨.keydirRemove key, r⟩]) = none := by
  simp [Journal.unpublished]

end Unpublished

namespace Engine

omit [Crc32Fast] in
theorem spec_liftIo {G σ α : Type} {R : Prog.Protocol Op Op.Res G} {m : EngineM σ IoError α}
    {s : σ} {g : G} {Q : α → σ → G → Prop} {E : Error → σ → G → Prop}
    (h : Method.Spec R m s g Q fun e => E (.io e)) : Method.Spec R (liftIo m) s g Q E := by
  refine Prog.Follows.bind h ?_
  rintro ⟨r, s'⟩ g' hr
  cases r <;> exact hr

omit [Crc32Fast] in
theorem spec_requireWrite {G : Type} {R : Prog.Protocol Op Op.Res G} {opts : Options} {g : G}
    {Q : Unit → Unit → G → Prop} {E : Error → Unit → G → Prop}
    (hok : opts.isReadWrite = true → Q () () g) (herr : E .readOnly () g) :
    Method.Spec R (requireWrite opts) () g Q E := by
  unfold requireWrite
  split
  · rename_i hrw
    exact .pure (hok hrw)
  · exact .fail herr

/-- A method for a call, under the call's rule. -/
abbrev CallSpec {α : Type} (c : Call) (m : EngineM Unit Error α) (j : Journal)
    (Q : α → Journal → Prop) (E : Error → Journal → Prop) : Prop :=
  Method.Spec (Prog.Journal.protocol c.rule) m () j (fun a _ => Q a) fun e _ => E e

omit [Crc32Fast] in
theorem failed_append {j : Journal} {o : Op} {r : Op.Res o} (h : (o.error? r).isSome = true) :
    Journal.Failed (j ++ [⟨o, r⟩]) :=
  ⟨⟨o, r⟩, by simp, h⟩

/-- Appending, where the rule permits it. -/
theorem append_spec {c : Call} {opts : Options} {encoded : EncodedEntry} {j : Journal}
    (hrw : opts.isReadWrite = true)
    (happend : c.rule j (.locked (.append opts.maxFileSize encoded)))
    (hcommit : ∀ j g, (Journal.unpublished j).isSome → c.rule j (.commit g)) :
    CallSpec c (append opts encoded) j (fun x j' => Journal.unpublished j' = some x)
      (fun _ j' => j'.Failed) := by
  unfold append
  simp only [hrw, Bool.not_true, Bool.false_eq_true, if_false]
  refine .seq (spec_liftIo (spec_ioOp fun r => ⟨_, ⟨happend, rfl⟩, ?_⟩))
  cases r with
  | error e => exact failed_append rfl
  | ok x =>
    obtain ⟨fileId, valuePos, targetGen⟩ := x
    dsimp only [id]
    split
    · refine .seq (spec_liftIo (spec_ioOp fun r => ⟨_, ⟨hcommit _ _ (by simp), rfl⟩, ?_⟩))
      cases r with
      | error e => exact failed_append rfl
      | ok _ => exact .pure ((unpublished_commit _ _ _).trans (unpublished_append _ _ _ _))
    · exact .pure (unpublished_append _ _ _ _)

/-- A method as the program of a call. -/
theorem follows_toProg {α : Type} {c : Call} {m : EngineM Unit Error α} {resp : Except Error α → Resp}
    {Q : α → Journal → Prop} {E : Error → Journal → Prop} (h : CallSpec c m [] Q E)
    (hok : ∀ a j, Q a j → c.ends (resp (.ok a)) j)
    (herr : ∀ e j, E e j → c.ends (resp (.error e)) j) :
    (toProg m resp).Follows (Prog.Journal.protocol c.rule) c.ends [] := by
  refine Prog.Follows.bind h ?_
  rintro ⟨r, s⟩ j hr
  cases r with
  | ok a => exact hok a j hr
  | error e => exact herr e j hr

theorem put_spec (opts : Options) (key value : Bytes) (timestamp : UInt32) :
    CallSpec (.put key value timestamp) (put opts key value timestamp) []
      (fun _ j => Journal.unpublished j = none ∧ ∃ k e, ⟨.keydirInsert k e, ()⟩ ∈ j)
      (fun _ j => j = [] ∨ j.Failed) := by
  unfold put
  by_cases hkey : key.isEmpty
  · rw [if_pos hkey]
    exact .seq (.fail (Or.inl rfl))
  · rw [if_neg hkey]
    refine .seq (spec_requireWrite (fun hrw => ?_) (Or.inl rfl))
    refine .seq ((append_spec (c := .put key value timestamp) hrw
      ⟨rfl, by simpa using hkey, rfl⟩ fun _ _ h => h).mono ?_ fun _ _ _ h => Or.inr h)
    rintro ⟨fileId, valuePos⟩ _ j hj
    exact spec_readOp fun _ => ⟨_, ⟨⟨rfl, (fileId, valuePos), hj, rfl⟩, rfl⟩,
      unpublished_keydirInsert _ _ _ _, key, _, List.mem_append_right _ List.mem_cons_self⟩

theorem delete_spec (opts : Options) (key : Bytes) (timestamp : UInt32) :
    CallSpec (.delete key timestamp) (delete opts key timestamp) []
      (fun _ j => Journal.unpublished j = none ∧
        (j = [⟨.keydirGet key, none⟩] ∨ ⟨.keydirRemove key, ()⟩ ∈ j))
      (fun _ j => j = [] ∨ j.Failed) := by
  unfold delete
  by_cases hkey : key.isEmpty
  · rw [if_pos hkey]
    exact .seq (.fail (Or.inl rfl))
  · rw [if_neg hkey]
    refine .seq (spec_requireWrite (fun hrw => ?_) (Or.inl rfl))
    refine .seq (spec_readOp fun entry => ⟨_, ⟨⟨rfl, rfl⟩, rfl⟩, ?_⟩)
    dsimp only [id]
    cases entry with
    | none => exact .pure ⟨by simp [Journal.unpublished], Or.inl rfl⟩
    | some entry =>
      refine .seq ((append_spec (c := .delete key timestamp) hrw
        ⟨by simpa using hkey, ⟨entry, rfl⟩, rfl⟩ fun _ _ h => h).mono ?_ fun _ _ _ h => Or.inr h)
      rintro _ _ j hj
      exact spec_readOp fun _ => ⟨_, ⟨⟨rfl, by simp [hj]⟩, rfl⟩,
        unpublished_keydirRemove _ _ _, Or.inr (List.mem_append_right _ List.mem_cons_self)⟩

/-- Reading a value, where the rule permits it. -/
theorem readValue_spec {c : Call} {entry : KeydirEntry} {j : Journal}
    (hrule : ∀ k o, readsValue entry o → c.rule (j ++ k) o) :
    CallSpec c (readValue entry) j (fun value j' => readEvent entry value ∈ j' ∧ ∃ k, j' = j ++ k)
      (fun e j' => ∃ e', e = .io e' ∧ j'.FailsWith e') := by
  unfold readValue
  refine .seq (spec_liftIo (spec_ioOp fun r => ⟨_, ⟨?_, rfl⟩, ?_⟩))
  · simpa using hrule [] (.openReader entry.fileId) rfl
  cases r with
  | error e => exact ⟨e, rfl, ⟨_, List.mem_append_right _ List.mem_cons_self, rfl⟩⟩
  | ok _ =>
    refine spec_liftIo (spec_ioOp fun r => ⟨_, ⟨hrule [_] _ rfl, rfl⟩, ?_⟩)
    cases r with
    | error e => exact ⟨e, rfl, ⟨_, List.mem_append_right _ List.mem_cons_self, rfl⟩⟩
    | ok value => exact ⟨List.mem_append_right _ List.mem_cons_self, _, List.append_assoc ..⟩

theorem rule_get {key : Bytes} {entry : KeydirEntry} {j : Journal} {o : Op}
    (hj : ⟨.keydirGet key, some entry⟩ ∈ j) (ho : readsValue entry o) :
    (Call.get key).rule j o := by
  cases o <;> first | exact ⟨entry, hj, ho⟩ | exact ho.elim

theorem rule_fold {pairs : List (Bytes × KeydirEntry)} {p : Bytes × KeydirEntry} {j : Journal}
    {o : Op} (hj : ⟨.keydirSnapshot, pairs⟩ ∈ j) (hp : p ∈ pairs) (ho : readsValue p.2 o) :
    Call.fold.rule j o := by
  cases o <;> first | exact ⟨pairs, hj, p, hp, ho⟩ | exact ho.elim

theorem get_spec (key : Bytes) :
    CallSpec (.get key) (get key) []
      (fun r j => (r = none ∧ j = [⟨.keydirGet key, none⟩]) ∨
        ∃ entry value, r = some value ∧ ⟨.keydirGet key, some entry⟩ ∈ j ∧
          readEvent entry value ∈ j)
      (fun e j => ∃ e', e = .io e' ∧ j.FailsWith e') := by
  unfold get
  refine .seq (spec_readOp fun entry => ⟨_, ⟨⟨rfl, rfl⟩, rfl⟩, ?_⟩)
  dsimp only [id]
  cases entry with
  | none => exact .pure (Or.inl ⟨rfl, rfl⟩)
  | some entry =>
    refine .seq ((readValue_spec fun k o ho => rule_get (by simp) ho).mono ?_ fun _ _ _ h => h)
    rintro value _ j ⟨hread, k, rfl⟩
    exact .pure (Or.inr ⟨entry, value, rfl, by simp, hread⟩)

theorem listKeys_spec :
    CallSpec .listKeys listKeys []
      (fun r j => ∃ pairs, r = pairs.map Prod.fst ∧ ⟨.keydirSnapshot, pairs⟩ ∈ j)
      (fun _ _ => False) := by
  unfold listKeys
  exact .seq (spec_readOp fun pairs => ⟨_, ⟨rfl, rfl⟩, .pure ⟨pairs, rfl, by simp⟩⟩)

/-- The pairs a fold has seen, against the entries it has read. -/
def Seen (pairs : List (Bytes × KeydirEntry)) (kvs : List (Bytes × Bytes)) (j : Journal) : Prop :=
  List.Forall₂ (fun p kv => kv.1 = p.1 ∧ readEvent p.2 kv.2 ∈ j) pairs kvs

omit [Crc32Fast] in
theorem Seen.append {pairs : List (Bytes × KeydirEntry)} {kvs : List (Bytes × Bytes)}
    {j : Journal} (h : Seen pairs kvs j) (k : Journal) : Seen pairs kvs (j ++ k) :=
  h.imp fun _ _ hp => ⟨hp.1, List.mem_append_left k hp.2⟩

theorem foldLoop_spec {snapshot rest : List (Bytes × KeydirEntry)} {j : Journal}
    (hj : ⟨.keydirSnapshot, snapshot⟩ ∈ j) (hrest : ∀ p ∈ rest, p ∈ snapshot)
    {seen : List (Bytes × KeydirEntry)} {kvs : List (Bytes × Bytes)} (hseen : Seen seen kvs j) :
    CallSpec .fold (foldLoop (fun key value acc => acc ++ [(key, value)]) rest kvs) j
      (fun kvs' j' => Seen (seen ++ rest) kvs' j' ∧ ⟨.keydirSnapshot, snapshot⟩ ∈ j')
      (fun e j' => ∃ e', e = .io e' ∧ j'.FailsWith e') := by
  induction rest generalizing j seen kvs with
  | nil => exact .pure ⟨by simpa using hseen, hj⟩
  | cons p rest ih =>
    obtain ⟨key, entry⟩ := p
    have hp : (key, entry) ∈ snapshot := hrest _ List.mem_cons_self
    refine .seq ((readValue_spec fun k o ho =>
      rule_fold (List.mem_append_left k hj) hp ho).mono ?_ fun _ _ _ h => h)
    rintro value _ j' ⟨hread, k, rfl⟩
    have hseen' : Seen (seen ++ [(key, entry)]) (kvs ++ [(key, value)]) (j ++ k) :=
      List.rel_append (hseen.append k) (.cons ⟨rfl, hread⟩ .nil)
    have h := ih (List.mem_append_left k hj)
      (fun p hp => hrest p (List.mem_cons_of_mem _ hp)) hseen'
    rwa [List.append_assoc] at h

theorem fold_spec :
    CallSpec .fold (fold (fun key value acc => acc ++ [(key, value)]) []) []
      (fun kvs j => ∃ pairs, ⟨.keydirSnapshot, pairs⟩ ∈ j ∧ Seen pairs kvs j)
      (fun e j => ∃ e', e = .io e' ∧ j.FailsWith e') := by
  unfold fold
  refine .seq (spec_readOp fun pairs => ⟨_, ⟨rfl, rfl⟩, ?_⟩)
  have hmem : (⟨.keydirSnapshot, pairs⟩ : Σ o : Op, Op.Res o) ∈ Prog.Journal.log [] _ pairs :=
    List.mem_cons_self
  exact (foldLoop_spec hmem (fun _ h => h) .nil).mono
    (fun kvs _ j h => ⟨pairs, h.2, h.1⟩) fun _ _ _ h => h

/-- Every call other than merge follows its rule and ends as it should. -/
theorem code_follows (opts : Options) {c : Call} (hc : c ≠ .merge) :
    (code opts c).Follows (Prog.Journal.protocol c.rule) c.ends [] := by
  cases c with
  | put key value timestamp =>
    exact follows_toProg (put_spec opts key value timestamp)
      (fun _ _ h => Or.inl ⟨rfl, h⟩) fun e _ h => Or.inr ⟨⟨e, rfl⟩, h⟩
  | delete key timestamp =>
    exact follows_toProg (delete_spec opts key timestamp)
      (fun _ _ h => Or.inl ⟨rfl, h⟩) fun e _ h => Or.inr ⟨⟨e, rfl⟩, h⟩
  | get key =>
    refine follows_toProg (get_spec key) ?_ ?_
    · rintro r j (⟨rfl, hj⟩ | ⟨entry, value, rfl, hj⟩)
      · exact Or.inl ⟨rfl, hj⟩
      · exact Or.inr (Or.inl ⟨entry, value, rfl, hj⟩)
    · rintro _ j ⟨e, rfl, hj⟩
      exact Or.inr (Or.inr ⟨e, rfl, hj⟩)
  | listKeys =>
    refine follows_toProg listKeys_spec ?_ fun _ _ h => h.elim
    rintro _ j ⟨pairs, rfl, hj⟩
    exact ⟨pairs, rfl, hj⟩
  | fold =>
    refine follows_toProg fold_spec ?_ ?_
    · rintro kvs j ⟨pairs, hj, hseen⟩
      exact Or.inl ⟨pairs, kvs, rfl, hj, hseen⟩
    · rintro _ j ⟨e, rfl, hj⟩
      exact Or.inr ⟨e, rfl, hj⟩
  | merge => exact absurd rfl hc

/-- A merge follows the protocol and ends as it should. -/
theorem merge_follows (opts : Options) :
    (code opts .merge).Follows MergeLog.protocol
      (fun r g => (r = .unit (.ok ()) ∧ g.Succeeded) ∨ (∃ e, r = .unit (.error e)) ∧ g.Failed)
      .init := by
  have hmerge : Method.Spec MergeLog.protocol (merge opts) () .init (fun _ _ g => g.Succeeded)
      (fun _ _ g => g.Failed) := by
    have hreadOnly : MergeLog.init.Failed := ⟨Or.inl rfl, Or.inr (by simp [MergeLog.init])⟩
    unfold merge
    refine .seq (spec_requireWrite (fun hrw => ?_) hreadOnly)
    simp only [hrw, Bool.not_true, Bool.false_eq_true, if_false]
    exact spec_liftIo (merge_spec opts.maxFileSize)
  refine Prog.Follows.bind hmerge ?_
  rintro ⟨r, s⟩ g hr
  cases r with
  | ok _ => exact Or.inl ⟨rfl, hr⟩
  | error e => exact Or.inr ⟨⟨e, rfl⟩, hr⟩

/-! ## Errors end a call -/

omit [Crc32Fast] in
theorem not_failed_append {j : Journal} {o : Op} {r : Op.Res o} (hj : ¬ j.Failed)
    (h : o.error? r = none) : ¬ Journal.Failed (j ++ [⟨o, r⟩]) := by
  rintro ⟨x, hx, hfailed⟩
  rcases List.mem_append.mp hx with hx | hx
  · exact hj ⟨x, hx, hfailed⟩
  · cases List.mem_singleton.mp hx
    rw [h] at hfailed
    cases hfailed

/-- The method performs no operation after one that failed, and then fails itself. -/
def Stops {α : Type} (m : EngineM Unit Error α) : Prop :=
  ∀ j, ¬ Journal.Failed j → Method.Spec (Prog.Journal.protocol fun j _ => ¬ Journal.Failed j) m () j
    (fun _ _ j' => ¬ Journal.Failed j') fun _ _ _ => True

section Stops

variable {α β : Type}

omit [Crc32Fast]

theorem Stops.pure (a : α) : Stops (Pure.pure a) := fun _ hj => hj

theorem Stops.fail (e : Error) : Stops (Method.fail e : EngineM Unit Error α) :=
  fun _ _ => trivial

theorem Stops.bind {m : EngineM Unit Error α} {f : α → EngineM Unit Error β} (hm : Stops m)
    (hf : ∀ a, Stops (f a)) : Stops (m >>= f) :=
  fun j hj => Method.Spec.bind (hm j hj) fun a _ j' hj' => hf a j' hj'

/-- A check before the rest. -/
theorem Stops.guard {b : Bool} {e : Error} {m : EngineM Unit Error α} (h : Stops m) :
    Stops (if b = true then (Method.fail e : EngineM Unit Error PUnit) >>= fun _ => m else m) := by
  split
  · exact .bind (.fail e) fun _ => h
  · exact h

theorem stops_readOp {o : Op} (ho : ∀ r, o.error? r = none) {f : Op.Res o → α} :
    Stops (readOp o f) :=
  fun _ hj => spec_readOp fun r => ⟨_, ⟨hj, rfl⟩, not_failed_append hj (ho r)⟩

theorem stops_ioOp {o : Op} {f : Op.Res o → Except IoError α}
    (ho : ∀ r a, f r = .ok a → o.error? r = none) : Stops (liftIo (ioOp o f)) := by
  intro j hj
  refine spec_liftIo (spec_ioOp fun r => ⟨_, ⟨hj, rfl⟩, ?_⟩)
  cases hr : f r with
  | ok a => exact not_failed_append hj (ho r a hr)
  | error e => trivial

theorem stops_requireWrite (opts : Options) : Stops (requireWrite opts) := by
  unfold requireWrite
  split
  · exact .pure ()
  · exact .fail _

theorem stops_append (opts : Options) (encoded : EncodedEntry) : Stops (append opts encoded) := by
  unfold append
  apply Stops.guard
  refine .bind (stops_ioOp ?_) ?_
  · rintro _ _ rfl
    rfl
  rintro ⟨fileId, valuePos, targetGen⟩
  dsimp only
  split
  · refine .bind (stops_ioOp ?_) fun _ => .pure _
    rintro _ _ rfl
    rfl
  · exact .pure _

theorem stops_readValue (entry : KeydirEntry) : Stops (readValue entry) := by
  unfold readValue
  refine .bind (stops_ioOp ?_) fun _ => stops_ioOp ?_
  all_goals
    rintro _ _ rfl
    rfl

theorem stops_foldLoop {A : Type} (f : Bytes → Bytes → A → A)
    (pairs : List (Bytes × KeydirEntry)) (acc : A) : Stops (foldLoop f pairs acc) := by
  induction pairs generalizing acc with
  | nil => exact .pure acc
  | cons p pairs ih =>
    apply Stops.bind (stops_readValue p.2)
    exact fun value => ih (f p.1 value acc)

theorem stops_toProg {m : EngineM Unit Error α} (h : Stops m) (resp : Except Error α → Resp) :
    (toProg m resp).Follows (Prog.Journal.protocol fun j _ => ¬ Journal.Failed j) (fun _ _ => True)
      [] := by
  have hnil : ¬ Journal.Failed [] := by
    rintro ⟨x, hx, -⟩
    cases hx
  exact Prog.Follows.bind (h [] hnil) fun _ _ _ => trivial

end Stops

/-- Every call other than merge ends with its first error. -/
theorem code_stops (opts : Options) {c : Call} (hc : c ≠ .merge) :
    (code opts c).Follows (Prog.Journal.protocol fun j _ => ¬ Journal.Failed j) (fun _ _ => True)
      [] := by
  cases c with
  | put key value timestamp =>
    apply stops_toProg
    unfold put
    apply Stops.guard
    apply Stops.bind (stops_requireWrite opts)
    intro _
    apply Stops.bind (stops_append opts _)
    exact fun _ => stops_readOp fun _ => rfl
  | delete key timestamp =>
    apply stops_toProg
    unfold delete
    apply Stops.guard
    apply Stops.bind (stops_requireWrite opts)
    intro _
    apply Stops.bind (stops_readOp fun _ => rfl)
    intro entry
    split
    · exact .pure ()
    · apply Stops.bind (stops_append opts _)
      exact fun _ => stops_readOp fun _ => rfl
  | get key =>
    apply stops_toProg
    unfold get
    apply Stops.bind (stops_readOp fun _ => rfl)
    intro entry
    split
    · exact .bind (stops_readValue _) fun _ => .pure _
    · exact .pure none
  | listKeys =>
    apply stops_toProg
    exact .bind (stops_readOp fun _ => rfl) fun _ => .pure _
  | fold =>
    apply stops_toProg
    apply Stops.bind (stops_readOp fun _ => rfl)
    exact fun pairs => stops_foldLoop _ pairs []
  | merge => exact absurd rfl hc

end Engine

end Yabiir
