/-
  Yabiir.Lib.Pool

  Threads that share a world.  Each thread runs the program of one call at a
  time; a move of the pool starts a call, lets one thread perform its next
  operation (or return), makes that operation fail, or replaces the process by
  a fresh one on what is left of the world.  A run is any list of moves: every
  interleaving of the operations of any number of calls is one.
-/

import Yabiir.Lib.Prog
import Mathlib.Data.List.AList

namespace Yabiir

/-- A program text with the meaning of its operations. -/
structure System where
  World : Type
  Op : Type
  Res : Op → Type
  Call : Type
  Resp : Type
  /-- The effect of an operation in which nothing goes wrong. -/
  perform : (o : Op) → World → Res o × World
  /-- The program of a call, started in the given world. -/
  code : World → Call → Prog Op Res Resp
  /-- The ways an operation may go wrong. -/
  Fault : Type
  fault : Fault → (o : Op) → World → Option (Res o × World)
  /-- The ways the process may end and be started again: what survives of the
      world, given the operations that were about to be performed. -/
  Restart : Type
  restart : Restart → World → List Op → Option World

namespace System

variable (S : System)

/-- A thread inside a call: the call, what it has done, what is left to do. -/
structure Thread where
  call : S.Call
  journal : Prog.Journal S.Op S.Res
  prog : Prog S.Op S.Res S.Resp

/-- What happened, for the record. -/
inductive Event where
  | call (t : Nat) (c : S.Call)
  | act (t : Nat) (c : S.Call) (o : S.Op) (r : S.Res o)
  | ret (t : Nat) (c : S.Call) (r : S.Resp)
  | restart (r : S.Restart)

structure Config where
  world : S.World
  threads : AList fun _ : Nat => S.Thread
  history : List S.Event

inductive Move where
  | call (t : Nat) (c : S.Call)
  | step (t : Nat)
  | fault (t : Nat) (f : S.Fault)
  | restart (r : S.Restart)

variable {S}

/-- The operation a thread is about to perform. -/
def Thread.next? (th : S.Thread) : Option S.Op :=
  match th.prog with
  | .ret _ => none
  | .act o _ => some o

/-- The operations the pool's threads are about to perform. -/
def Config.inFlight (cfg : S.Config) : List S.Op :=
  cfg.threads.entries.filterMap fun th => th.2.next?

/-- Thread `t` has performed `o` with result `r` and world `w`. -/
def Config.acted (cfg : S.Config) (t : Nat) (th : S.Thread) (o : S.Op) (r : S.Res o)
    (k : S.Res o → Prog S.Op S.Res S.Resp) (w : S.World) : S.Config where
  world := w
  threads := cfg.threads.insert t
    { th with journal := th.journal ++ [⟨o, r⟩], prog := k r }
  history := cfg.history ++ [.act t th.call o r]

/-- Thread `t` has started call `c`. -/
def Config.called (cfg : S.Config) (t : Nat) (c : S.Call) : S.Config :=
  { cfg with
    threads := cfg.threads.insert t ⟨c, [], S.code cfg.world c⟩
    history := cfg.history ++ [.call t c] }

/-- Thread `t` has returned `r` from call `c`. -/
def Config.returned (cfg : S.Config) (t : Nat) (c : S.Call) (r : S.Resp) : S.Config :=
  { cfg with
    threads := cfg.threads.erase t
    history := cfg.history ++ [.ret t c r] }

/-- The process has been replaced by one that starts in world `w`. -/
def Config.restarted (cfg : S.Config) (r : S.Restart) (w : S.World) : S.Config where
  world := w
  threads := ∅
  history := cfg.history ++ [.restart r]

/-- One move of the pool, where it is possible. -/
def Config.move (cfg : S.Config) : S.Move → Option S.Config
  | .call t c =>
    match cfg.threads.lookup t with
    | some _ => none
    | none => some (cfg.called t c)
  | .step t =>
    match cfg.threads.lookup t with
    | none => none
    | some th =>
      match th.prog with
      | .ret r => some (cfg.returned t th.call r)
      | .act o k =>
        let (r, w) := S.perform o cfg.world
        some (cfg.acted t th o r k w)
  | .fault t f =>
    match cfg.threads.lookup t with
    | none => none
    | some th =>
      match th.prog with
      | .ret _ => none
      | .act o k => (S.fault f o cfg.world).map fun (r, w) => cfg.acted t th o r k w
  | .restart r => (S.restart r cfg.world cfg.inFlight).map (cfg.restarted r)

/-- What a move does, by the kind of move. -/
inductive Config.Moved (cfg : S.Config) : S.Move → S.Config → Prop where
  | call {t : Nat} {c : S.Call} (h : cfg.threads.lookup t = none) :
      Moved cfg (.call t c) (cfg.called t c)
  | ret {t : Nat} {th : S.Thread} {r : S.Resp} (h : cfg.threads.lookup t = some th)
      (hp : th.prog = .ret r) : Moved cfg (.step t) (cfg.returned t th.call r)
  | act {t : Nat} {th : S.Thread} {o : S.Op} {k : S.Res o → Prog S.Op S.Res S.Resp}
      (h : cfg.threads.lookup t = some th) (hp : th.prog = .act o k) :
      Moved cfg (.step t)
        (cfg.acted t th o (S.perform o cfg.world).1 k (S.perform o cfg.world).2)
  | fault {t : Nat} {f : S.Fault} {th : S.Thread} {o : S.Op}
      {k : S.Res o → Prog S.Op S.Res S.Resp} {r : S.Res o} {w : S.World}
      (h : cfg.threads.lookup t = some th) (hp : th.prog = .act o k)
      (hf : S.fault f o cfg.world = some (r, w)) : Moved cfg (.fault t f) (cfg.acted t th o r k w)
  | restart {r : S.Restart} {w : S.World} (h : S.restart r cfg.world cfg.inFlight = some w) :
      Moved cfg (.restart r) (cfg.restarted r w)

theorem Config.moved {cfg cfg' : S.Config} {m : S.Move} (h : cfg.move m = some cfg') :
    cfg.Moved m cfg' := by
  cases m with
  | call t c =>
    simp only [move] at h
    split at h
    · cases h
    · cases h
      exact .call ‹_›
  | step t =>
    simp only [move] at h
    split at h
    · cases h
    · split at h <;> cases h
      · exact .ret ‹_› ‹_›
      · exact .act ‹_› ‹_›
  | fault t f =>
    simp only [move] at h
    split at h
    · cases h
    · split at h
      · cases h
      · obtain ⟨⟨r, w⟩, hf, rfl⟩ := Option.map_eq_some_iff.mp h
        exact .fault ‹_› ‹_› hf
  | restart r =>
    obtain ⟨w, hw, rfl⟩ := Option.map_eq_some_iff.mp h
    exact .restart hw

/-! ## The threads after a move -/

section Lookup

variable (cfg : S.Config) {t t' : Nat} {th : S.Thread}

theorem Config.lookup_called (c : S.Call) : (cfg.called t c).threads.lookup t'
    = if t' = t then some ⟨c, [], S.code cfg.world c⟩ else cfg.threads.lookup t' := by
  unfold called
  split
  · rename_i h
    rw [h, AList.lookup_insert]
  · rename_i h
    exact AList.lookup_insert_ne h

theorem Config.lookup_returned (c : S.Call) (r : S.Resp) :
    (cfg.returned t c r).threads.lookup t'
      = if t' = t then none else cfg.threads.lookup t' := by
  unfold returned
  split
  · rename_i h
    rw [h, AList.lookup_erase]
  · rename_i h
    exact AList.lookup_erase_ne h

theorem Config.lookup_acted (o : S.Op) (r : S.Res o) (k : S.Res o → Prog S.Op S.Res S.Resp)
    (w : S.World) : (cfg.acted t th o r k w).threads.lookup t'
      = if t' = t then some { th with journal := th.journal ++ [⟨o, r⟩], prog := k r }
        else cfg.threads.lookup t' := by
  unfold acted
  split
  · rename_i h
    rw [h, AList.lookup_insert]
  · rename_i h
    exact AList.lookup_insert_ne h

@[simp] theorem Config.world_called (c : S.Call) : (cfg.called t c).world = cfg.world := rfl

@[simp] theorem Config.world_returned (c : S.Call) (r : S.Resp) :
    (cfg.returned t c r).world = cfg.world := rfl

@[simp] theorem Config.world_acted (o : S.Op) (r : S.Res o)
    (k : S.Res o → Prog S.Op S.Res S.Resp) (w : S.World) : (cfg.acted t th o r k w).world = w :=
  rfl

@[simp] theorem Config.world_restarted (r : S.Restart) (w : S.World) :
    (cfg.restarted r w).world = w := rfl

end Lookup

/-! ## Runs -/

/-- Configurations reached from `cfg₀` by moves that each satisfy `ok` in the
    configuration they are made in. -/
inductive Reach (ok : S.Config → S.Move → Prop) (cfg₀ : S.Config) : S.Config → Prop where
  | refl : Reach ok cfg₀ cfg₀
  | move {cfg cfg' : S.Config} {m : S.Move} (hr : Reach ok cfg₀ cfg) (hok : ok cfg m)
      (hm : cfg.move m = some cfg') : Reach ok cfg₀ cfg'

/-- The invariant rule: what holds at the start and is kept by every admissible
    move from a reached configuration holds wherever such moves lead. -/
theorem Reach.invariant {ok : S.Config → S.Move → Prop} {cfg₀ cfg : S.Config}
    {Inv : S.Config → Prop} (h : Reach ok cfg₀ cfg) (h₀ : Inv cfg₀)
    (hstep : ∀ cfg m cfg', Reach ok cfg₀ cfg → Inv cfg → ok cfg m → cfg.move m = some cfg' →
      Inv cfg') : Inv cfg := by
  induction h with
  | refl => exact h₀
  | move hr hok hm ih => exact hstep _ _ _ hr ih hok hm

theorem Reach.trans {ok : S.Config → S.Move → Prop} {cfg₀ cfg₁ cfg₂ : S.Config}
    (h : Reach ok cfg₀ cfg₁) (h' : Reach ok cfg₁ cfg₂) : Reach ok cfg₀ cfg₂ := by
  induction h' with
  | refl => exact h
  | move _ hok hm ih => exact .move ih hok hm

theorem Reach.mono {ok ok' : S.Config → S.Move → Prop} {cfg₀ cfg : S.Config}
    (h : Reach ok cfg₀ cfg) (himp : ∀ cfg m, ok cfg m → ok' cfg m) : Reach ok' cfg₀ cfg := by
  induction h with
  | refl => exact .refl
  | move hr hok hm ih => exact .move ih (himp _ _ hok) hm

/-- Make the moves of a list, checking each with `ok`. -/
def Config.play (ok : S.Config → S.Move → Prop) [∀ cfg m, Decidable (ok cfg m)] :
    S.Config → List S.Move → Option S.Config
  | cfg, [] => some cfg
  | cfg, m :: ms =>
    if ok cfg m then
      match cfg.move m with
      | none => none
      | some cfg' => cfg'.play ok ms
    else none

/-- What can be played is reached. -/
theorem Reach.of_play {ok : S.Config → S.Move → Prop} [∀ cfg m, Decidable (ok cfg m)]
    {cfg₀ cfg cfg' : S.Config} {ms : List S.Move} (hr : Reach ok cfg₀ cfg)
    (h : cfg.play ok ms = some cfg') : Reach ok cfg₀ cfg' := by
  induction ms generalizing cfg with
  | nil =>
    cases h
    exact hr
  | cons m ms ih =>
    unfold Config.play at h
    split at h
    · rename_i hok
      split at h
      · cases h
      · rename_i cfg'' hm
        exact ih (hr.move hok hm) h
    · cases h

end System

end Yabiir
