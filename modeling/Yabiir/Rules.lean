/-
  Yabiir.Rules

  The protocols of all calls on an engine together, as the rules of its pool of
  threads (`Engine.rules`): a merge follows the protocol of merges, the other
  calls their own rules, and on a read-only handle there are only reads.
-/

import Yabiir.Lib.Ghost
import Yabiir.Merge.Claims

namespace Yabiir

open Format

/-- The operations a read-only handle performs. -/
def Op.isReads : Op → Bool
  | .keydirGet _ | .keydirSnapshot | .openReader _ | .pread .. => true
  | _ => false

namespace Engine

variable [Crc32Fast]

/-! ## Read-only handles -/

omit [Crc32Fast] in
theorem only_liftIo {σ α : Type} {P : Op → Prop} {m : EngineM σ IoError α} {s : σ}
    (h : Method.Only P m s) : Method.Only P (liftIo m) s :=
  spec_liftIo (h.mono (fun _ _ _ _ => trivial) fun _ _ _ _ => trivial)

/-- A method that performs reads only. -/
abbrev ReadsOnly {α : Type} (m : EngineM Unit Error α) : Prop :=
  Method.Only (Op.isReads · = true) m ()

omit [Crc32Fast] in
theorem readsOnly_ioOp {α : Type} {o : Op} (ho : o.isReads = true) {f : Op.Res o → Except IoError α} :
    ReadsOnly (liftIo (ioOp o f)) :=
  only_liftIo (only_ioOp ho)

omit [Crc32Fast] in
theorem readsOnly_readOp {α : Type} {o : Op} (ho : o.isReads = true) {f : Op.Res o → α} :
    ReadsOnly (readOp o f) :=
  only_readOp ho

omit [Crc32Fast] in
theorem readsOnly_readValue (entry : KeydirEntry) : ReadsOnly (readValue entry) :=
  Method.Only.bind (readsOnly_ioOp rfl) fun _ _ => readsOnly_ioOp rfl

omit [Crc32Fast] in
theorem readsOnly_get (key : Bytes) : ReadsOnly (get key) := by
  apply Method.Only.bind (readsOnly_readOp rfl)
  intro entry s
  cases entry with
  | none => trivial
  | some entry =>
    apply Method.Only.bind (readsOnly_readValue entry)
    exact fun _ _ => trivial

omit [Crc32Fast] in
theorem readsOnly_foldLoop {A : Type} (f : Bytes → Bytes → A → A)
    (pairs : List (Bytes × KeydirEntry)) (acc : A) : ReadsOnly (foldLoop f pairs acc) := by
  induction pairs generalizing acc with
  | nil => trivial
  | cons p pairs ih =>
    apply Method.Only.bind (readsOnly_readValue p.2)
    exact fun value _ => ih (f p.1 value acc)

/-- On a read-only handle a call that writes stops before its first operation. -/
theorem readsOnly_code {opts : Options} (hro : opts.isReadWrite = false) (c : Call) :
    (code opts c).Follows (Prog.only (Op.isReads · = true)) (fun _ _ => True) () := by
  have hrequire : requireWrite opts = Method.fail .readOnly := by
    unfold requireWrite
    rw [hro]
    rfl
  have hprog : ∀ {α : Type} {m : EngineM Unit Error α} {resp : Except Error α → Resp},
      ReadsOnly m → (toProg m resp).Follows (Prog.only (Op.isReads · = true)) (fun _ _ => True) () :=
    fun h => Prog.Follows.bind h fun _ _ _ => trivial
  cases c with
  | put key value timestamp =>
    apply hprog
    unfold put
    rw [hrequire]
    split <;> trivial
  | delete key timestamp =>
    apply hprog
    unfold delete
    rw [hrequire]
    split <;> trivial
  | get key => exact hprog (readsOnly_get key)
  | listKeys =>
    apply hprog
    apply Method.Only.bind (readsOnly_readOp rfl)
    exact fun _ _ => trivial
  | fold =>
    apply hprog
    apply Method.Only.bind (readsOnly_readOp rfl)
    exact fun pairs _ => readsOnly_foldLoop _ pairs []
  | merge =>
    apply hprog
    unfold merge
    rw [hrequire]
    trivial

/-! ## The rules -/

/-- The ghost state of a thread: whether its handle may write, the record of the
    merge it is in, if it is in one, and the id it has drawn and not used yet. -/
structure Ghost where
  readWrite : Bool
  log : MergeLog
  claim : Option FileId

/-- What a call may do, with the record of a merge. -/
def callProtocol : Call → Journal → Prog.Protocol Op Op.Res MergeLog
  | .merge, _ => MergeLog.protocol
  | c, j => fun g o _ g' => c.rule j o ∧ g' = g

/-- How a call ends. -/
def callEnds : Call → Resp → Journal → MergeLog → Prop
  | .merge, r, _, g => (r = .unit (.ok ()) ∧ g.Succeeded) ∨ (∃ e, r = .unit (.error e)) ∧ g.Failed
  | c, r, j, _ => c.ends r j

/-- The rules of an engine's threads. -/
def rules : System.Rules system Ghost where
  start w _ := ⟨w.opts.isReadWrite, .init, none⟩
  step c j g o r g' := g'.readWrite = g.readWrite ∧ (g.readWrite = false → o.isReads = true) ∧
    callProtocol c j g.log o r g'.log ∧ claimProtocol g.claim o r g'.claim
  ends c r j g := callEnds c r j g.log ∧ g.claim = none

theorem callProtocol_of_ne {c : Call} (hc : c ≠ .merge) {j : Journal} {g g' : MergeLog} {o : Op}
    {r : Op.Res o} : callProtocol c j g o r g' ↔ c.rule j o ∧ g' = g := by
  cases c with
  | merge => exact absurd rfl hc
  | _ => exact Iff.rfl

omit [Crc32Fast] in
theorem callEnds_of_ne {c : Call} (hc : c ≠ .merge) {r : Resp} {j : Journal} {g : MergeLog} :
    callEnds c r j g ↔ c.ends r j := by
  cases c with
  | merge => exact absurd rfl hc
  | _ => exact Iff.rfl

/-- Every program follows the rules of its call. -/
theorem rules_sound : rules.Sound := by
  intro w c
  have hreads : (code w.opts c).Follows
      (Prog.only fun o => w.opts.isReadWrite = false → o.isReads = true) (fun _ _ => True) () := by
    cases hrw : w.opts.isReadWrite with
    | true => exact Prog.follows_only (fun _ h => by cases h) _
    | false =>
      apply (readsOnly_code hrw c).sim (fun _ _ => True) _ (fun _ _ _ _ _ => trivial) trivial
      exact fun _ _ _ _ _ _ ho => ⟨(), fun _ => ho, trivial⟩
  have hmode := hreads.both (code_usesIds w.opts c)
  by_cases hc : c = .merge
  · subst hc
    refine ((merge_follows w.opts).both ((Prog.follows_journal _ []).both hmode)).sim
      (fun p q => q = (p.2.1, ⟨w.opts.isReadWrite, p.1, p.2.2.2⟩)) ?_ ?_ rfl
    · rintro p o b p' _ rfl ⟨hmerge, ⟨-, hj⟩, hro, hclaim⟩
      exact ⟨(p'.2.1, ⟨w.opts.isReadWrite, p'.1, p'.2.2.2⟩), ⟨⟨rfl, hro, hmerge, hclaim⟩, hj⟩, rfl⟩
    · rintro r p _ rfl ⟨hend, -, -, hclaim⟩
      exact ⟨hend, hclaim⟩
  · refine ((code_follows w.opts hc).both hmode).sim
      (fun p q => q = (p.1, ⟨w.opts.isReadWrite, .init, p.2.2⟩)) ?_ ?_ rfl
    · rintro p o b p' _ rfl ⟨⟨hrule, hj⟩, hro, hclaim⟩
      exact ⟨(p'.1, ⟨w.opts.isReadWrite, .init, p'.2.2⟩),
        ⟨⟨rfl, hro, (callProtocol_of_ne hc).mpr ⟨hrule, rfl⟩, hclaim⟩, hj⟩, rfl⟩
    · rintro r p _ rfl ⟨hend, -, hclaim⟩
      exact ⟨(callEnds_of_ne hc).mpr hend, hclaim⟩

end Engine

end Yabiir
