/-
  Yabiir.Lib.Ghost

  Ghost states for the threads of a pool.  Where the program of every call
  follows a protocol, each thread in flight has a protocol state that its
  operations so far led to, and every move of the pool is a step of these states
  (`Config.ghosted`): an invariant of the pool is proved from the protocols'
  steps, and the programs are not looked at again.

  A trace is a run with the moves it made and where it made them.
-/

import Mathlib.Data.List.Induction
import Yabiir.Lib.Pool

namespace Yabiir

namespace System

variable {S : System} {G : Type}

/-- Protocols for the calls of a system, with states `G` besides the journal:
    where a call starts, what it may do, and how it ends. -/
structure Rules (S : System) (G : Type) where
  start : S.World → S.Call → G
  step : S.Call → Prog.Journal S.Op S.Res → Prog.Protocol S.Op S.Res G
  ends : S.Call → S.Resp → Prog.Journal S.Op S.Res → G → Prop

namespace Rules

variable (R : Rules S G)

/-- The protocol of a call, with its journal. -/
def protocol (c : S.Call) : Prog.Protocol S.Op S.Res (Prog.Journal S.Op S.Res × G) :=
  fun p o b p' => R.step c p.1 p.2 o b p'.2 ∧ p'.1 = p.1.log o b

/-- The programs of all calls follow their protocols. -/
def Sound : Prop :=
  ∀ w c, (S.code w c).Follows (R.protocol c) (fun r p => R.ends c r p.1 p.2) ([], R.start w c)

end Rules

/-- A thread inside a call, for its protocol. -/
structure Local (S : System) (G : Type) where
  call : S.Call
  journal : Prog.Journal S.Op S.Res
  ghost : G

/-- The ghost states of a pool: none where a thread is idle. -/
abbrev Ghosts (S : System) (G : Type) := Nat → Option (Local S G)

/-- What is left of the thread's program follows the protocol from its ghost state. -/
structure Thread.Keeps (R : Rules S G) (th : S.Thread) (l : Local S G) : Prop where
  call : th.call = l.call
  journal : th.journal = l.journal
  follows : th.prog.Follows (R.protocol l.call) (fun r p => R.ends l.call r p.1 p.2)
    (l.journal, l.ghost)

/-- The threads in flight keep to their protocols. -/
def Config.Keeps (R : Rules S G) (cfg : S.Config) (γ : Ghosts S G) : Prop :=
  ∀ t, match cfg.threads.lookup t, γ t with
    | none, none => True
    | some th, some l => th.Keeps R l
    | _, _ => False

/-- What a move does to the world and the ghost states. -/
inductive Config.Ghosted (R : Rules S G) (cfg : S.Config) (γ : Ghosts S G) :
    S.Move → S.World → Ghosts S G → Prop where
  | call {t : Nat} {c : S.Call} (h : γ t = none) :
      Ghosted R cfg γ (.call t c) cfg.world
        (Function.update γ t (some ⟨c, [], R.start cfg.world c⟩))
  | ret {t : Nat} {th : S.Thread} {l : Local S G} {r : S.Resp}
      (hth : cfg.threads.lookup t = some th) (hp : th.prog = .ret r) (h : γ t = some l)
      (hend : R.ends l.call r l.journal l.ghost) :
      Ghosted R cfg γ (.step t) cfg.world (Function.update γ t none)
  | act {t : Nat} {th : S.Thread} {l : Local S G} {o : S.Op} {k : S.Res o → Prog S.Op S.Res S.Resp}
      {g : G} (hth : cfg.threads.lookup t = some th) (hp : th.prog = .act o k) (h : γ t = some l)
      (hR : R.step l.call l.journal l.ghost o (S.perform o cfg.world).1 g) :
      Ghosted R cfg γ (.step t) (S.perform o cfg.world).2
        (Function.update γ t (some ⟨l.call, l.journal.log o (S.perform o cfg.world).1, g⟩))
  | fault {t : Nat} {f : S.Fault} {l : Local S G} {o : S.Op} {r : S.Res o} {w : S.World} {g : G}
      (h : γ t = some l) (hf : S.fault f o cfg.world = some (r, w))
      (hR : R.step l.call l.journal l.ghost o r g) :
      Ghosted R cfg γ (.fault t f) w
        (Function.update γ t (some ⟨l.call, l.journal.log o r, g⟩))
  | restart {r : S.Restart} {w : S.World} (h : S.restart r cfg.world cfg.inFlight = some w) :
      Ghosted R cfg γ (.restart r) w fun _ => none

section

variable {R : Rules S G} {cfg cfg' : S.Config} {γ γ' : Ghosts S G} {t : Nat} {th : S.Thread}
  {l : Local S G} {m : S.Move}

theorem Config.Keeps.local (h : cfg.Keeps R γ) (ht : cfg.threads.lookup t = some th) :
    ∃ l, γ t = some l ∧ th.Keeps R l := by
  have hkeeps := h t
  rw [ht] at hkeeps
  cases hl : γ t with
  | none =>
    rw [hl] at hkeeps
    exact hkeeps.elim
  | some l =>
    rw [hl] at hkeeps
    exact ⟨l, rfl, hkeeps⟩

theorem Config.Keeps.thread (h : cfg.Keeps R γ) (hl : γ t = some l) :
    ∃ th, cfg.threads.lookup t = some th ∧ th.Keeps R l := by
  have hkeeps := h t
  rw [hl] at hkeeps
  cases ht : cfg.threads.lookup t with
  | none =>
    rw [ht] at hkeeps
    exact hkeeps.elim
  | some th =>
    rw [ht] at hkeeps
    exact ⟨th, rfl, hkeeps⟩

/-- The operation a thread is about to perform is one its call permits. -/
theorem Config.Keeps.next (h : cfg.Keeps R γ) {o : S.Op} (ho : o ∈ cfg.inFlight) (b : S.Res o) :
    ∃ t l g, γ t = some l ∧ R.step l.call l.journal l.ghost o b g := by
  obtain ⟨⟨t, th⟩, hmem, hnext⟩ := List.mem_filterMap.mp ho
  obtain ⟨l, hl, hkeeps⟩ := h.local (AList.mem_lookup_iff.mpr hmem)
  have hfollows := hkeeps.follows
  cases hp : th.prog with
  | ret r =>
    rw [Thread.next?, hp] at hnext
    cases hnext
  | act o' k =>
    rw [Thread.next?, hp] at hnext
    cases hnext
    rw [hp] at hfollows
    obtain ⟨⟨j, g⟩, ⟨hR, -⟩, -⟩ := hfollows b
    exact ⟨t, l, g, hl, hR⟩

/-- Where no operation is in flight, every call has ended. -/
theorem Config.Keeps.ended (h : cfg.Keeps R γ) (hrest : cfg.inFlight = []) (hl : γ t = some l) :
    ∃ r, R.ends l.call r l.journal l.ghost := by
  obtain ⟨th, ht, hkeeps⟩ := h.thread hl
  have hnext : th.next? = none :=
    List.filterMap_eq_nil_iff.mp hrest ⟨t, th⟩ (AList.mem_lookup_iff.mp ht)
  have hfollows := hkeeps.follows
  cases hp : th.prog with
  | act o k =>
    rw [Thread.next?, hp] at hnext
    cases hnext
  | ret r =>
    rw [hp] at hfollows
    exact ⟨r, hfollows⟩

theorem Config.Keeps.idle (h : cfg.Keeps R γ) : γ t = none ↔ cfg.threads.lookup t = none := by
  have hkeeps := h t
  cases ht : cfg.threads.lookup t <;> cases hl : γ t <;> rw [ht, hl] at hkeeps <;> simp_all

/-- One thread's state changes. -/
theorem Config.Keeps.update (h : cfg.Keeps R γ) {l? : Option (Local S G)}
    (hother : ∀ u, u ≠ t → cfg'.threads.lookup u = cfg.threads.lookup u)
    (hself : match cfg'.threads.lookup t, l? with
      | none, none => True
      | some th, some l => th.Keeps R l
      | _, _ => False) : cfg'.Keeps R (Function.update γ t l?) := by
  intro u
  by_cases hu : u = t
  · subst hu
    rw [Function.update_self]
    exact hself
  · rw [Function.update_of_ne hu, hother u hu]
    exact h u

/-- After an operation the rest of the program keeps to the protocol. -/
theorem Thread.Keeps.acted (h : th.Keeps R l) {o : S.Op} {k : S.Res o → Prog S.Op S.Res S.Resp}
    (hp : th.prog = .act o k) (b : S.Res o) :
    ∃ g, R.step l.call l.journal l.ghost o b g ∧
      Thread.Keeps R { th with journal := th.journal ++ [⟨o, b⟩], prog := k b }
        ⟨l.call, l.journal.log o b, g⟩ := by
  have hfollows := h.follows
  rw [hp] at hfollows
  obtain ⟨⟨j, g⟩, ⟨hR, hj⟩, hk⟩ := hfollows b
  obtain rfl : j = l.journal.log o b := hj
  exact ⟨g, hR, h.call, congrArg (· ++ [⟨o, b⟩]) h.journal, hk⟩

/-- Every move is a step of the ghost states. -/
theorem Config.ghosted (hsound : R.Sound) (h : cfg.Keeps R γ) (hm : cfg.move m = some cfg') :
    ∃ γ', cfg'.Keeps R γ' ∧ cfg.Ghosted R γ m cfg'.world γ' := by
  cases Config.moved hm with
  | @call t c ht =>
    refine ⟨_, h.update (fun u hu => ?_) ?_, .call (h.idle.mpr ht)⟩
    · rw [Config.lookup_called, if_neg hu]
    · rw [Config.lookup_called, if_pos rfl]
      exact ⟨rfl, rfl, hsound cfg.world c⟩
  | @ret t th r ht hp =>
    obtain ⟨l, hl, hkeeps⟩ := h.local ht
    have hfollows := hkeeps.follows
    rw [hp] at hfollows
    refine ⟨_, h.update (fun u hu => ?_) ?_, .ret ht hp hl hfollows⟩
    · rw [Config.lookup_returned, if_neg hu]
    · rw [Config.lookup_returned, if_pos rfl]
      trivial
  | @act t th o k ht hp =>
    obtain ⟨l, hl, hkeeps⟩ := h.local ht
    obtain ⟨g, hR, hkeeps'⟩ := hkeeps.acted hp (S.perform o cfg.world).1
    refine ⟨_, h.update (fun u hu => ?_) ?_, .act ht hp hl hR⟩
    · rw [Config.lookup_acted, if_neg hu]
    · rw [Config.lookup_acted, if_pos rfl]
      exact hkeeps'
  | @fault t f th o k r w ht hp hf =>
    obtain ⟨l, hl, hkeeps⟩ := h.local ht
    obtain ⟨g, hR, hkeeps'⟩ := hkeeps.acted hp r
    refine ⟨_, h.update (fun u hu => ?_) ?_, .fault hl hf hR⟩
    · rw [Config.lookup_acted, if_neg hu]
    · rw [Config.lookup_acted, if_pos rfl]
      exact hkeeps'
  | restart hr => exact ⟨fun _ => none, fun _ => trivial, .restart hr⟩

end

/-! ## Steps with their events -/

/-- What a move records, and what it does to the world and the ghost states. -/
inductive Config.Stepped (R : Rules S G) (cfg : S.Config) (γ : Ghosts S G) :
    S.Move → S.Event → S.World → Ghosts S G → Prop where
  | call {t : Nat} {c : S.Call} (h : γ t = none) :
      Stepped R cfg γ (.call t c) (.call t c) cfg.world
        (Function.update γ t (some ⟨c, [], R.start cfg.world c⟩))
  | ret {t : Nat} {l : Local S G} {r : S.Resp} (h : γ t = some l)
      (hend : R.ends l.call r l.journal l.ghost) :
      Stepped R cfg γ (.step t) (.ret t l.call r) cfg.world (Function.update γ t none)
  | act {m : S.Move} {t : Nat} {th : S.Thread} {l : Local S G} {o : S.Op} {r : S.Res o}
      {w : S.World} {g : G} (hth : cfg.threads.lookup t = some th) (hnext : th.next? = some o)
      (h : γ t = some l)
      (hout : m = .step t ∧ S.perform o cfg.world = (r, w) ∨
        ∃ f, m = .fault t f ∧ S.fault f o cfg.world = some (r, w))
      (hR : R.step l.call l.journal l.ghost o r g) :
      Stepped R cfg γ m (.act t l.call o r) w
        (Function.update γ t (some ⟨l.call, l.journal.log o r, g⟩))
  | restart {r : S.Restart} {w : S.World} (h : S.restart r cfg.world cfg.inFlight = some w) :
      Stepped R cfg γ (.restart r) (.restart r) w fun _ => none

section

variable {R : Rules S G} {cfg cfg' : S.Config} {γ : Ghosts S G} {m : S.Move}

/-- Every move records one event, and is a step of the ghost states. -/
theorem Config.stepped (hsound : R.Sound) (h : cfg.Keeps R γ) (hm : cfg.move m = some cfg') :
    ∃ γ' e, cfg'.Keeps R γ' ∧ cfg'.history = cfg.history ++ [e] ∧
      cfg.Stepped R γ m e cfg'.world γ' := by
  cases Config.moved hm with
  | @call t c ht =>
    refine ⟨_, _, h.update (fun u hu => ?_) ?_, rfl, .call (h.idle.mpr ht)⟩
    · rw [Config.lookup_called, if_neg hu]
    · rw [Config.lookup_called, if_pos rfl]
      exact ⟨rfl, rfl, hsound cfg.world c⟩
  | @ret t th r ht hp =>
    obtain ⟨l, hl, hkeeps⟩ := h.local ht
    have hfollows := hkeeps.follows
    rw [hp] at hfollows
    refine ⟨_, _, h.update (fun u hu => ?_) ?_, by rw [← hkeeps.call]; rfl, .ret hl hfollows⟩
    · rw [Config.lookup_returned, if_neg hu]
    · rw [Config.lookup_returned, if_pos rfl]
      trivial
  | @act t th o k ht hp =>
    obtain ⟨l, hl, hkeeps⟩ := h.local ht
    obtain ⟨g, hR, hkeeps'⟩ := hkeeps.acted hp (S.perform o cfg.world).1
    have hnext : th.next? = some o := by rw [Thread.next?, hp]
    refine ⟨_, _, h.update (fun u hu => ?_) ?_, by rw [← hkeeps.call]; rfl,
      .act ht hnext hl (Or.inl ⟨rfl, rfl⟩) hR⟩
    · rw [Config.lookup_acted, if_neg hu]
    · rw [Config.lookup_acted, if_pos rfl]
      exact hkeeps'
  | @fault t f th o k r w ht hp hf =>
    obtain ⟨l, hl, hkeeps⟩ := h.local ht
    obtain ⟨g, hR, hkeeps'⟩ := hkeeps.acted hp r
    have hnext : th.next? = some o := by rw [Thread.next?, hp]
    refine ⟨_, _, h.update (fun u hu => ?_) ?_, by rw [← hkeeps.call]; rfl,
      .act ht hnext hl (Or.inr ⟨f, rfl, hf⟩) hR⟩
    · rw [Config.lookup_acted, if_neg hu]
    · rw [Config.lookup_acted, if_pos rfl]
      exact hkeeps'
  | restart hr => exact ⟨fun _ => none, _, fun _ => trivial, rfl, .restart hr⟩

/-- The invariant rule with the history: what holds at the start, with idle ghost
    states, and is kept by every step with its event holds wherever a run leads. -/
theorem Reach.along (hsound : R.Sound) {ok : S.Config → S.Move → Prop} {cfg₀ : S.Config}
    {J : List S.Event → S.World → Ghosts S G → Prop} (h : Reach ok cfg₀ cfg)
    (hidle : cfg₀.threads = ∅) (h₀ : J cfg₀.history cfg₀.world fun _ => none)
    (hstep : ∀ cfg m e w γ γ', Reach ok cfg₀ cfg → cfg.Keeps R γ → J cfg.history cfg.world γ →
      ok cfg m → cfg.Stepped R γ m e w γ' → J (cfg.history ++ [e]) w γ') :
    ∃ γ, cfg.Keeps R γ ∧ J cfg.history cfg.world γ := by
  induction h with
  | refl =>
    refine ⟨fun _ => none, fun t => ?_, h₀⟩
    rw [hidle, AList.lookup_empty]
    trivial
  | @move cfg cfg' m hr hok hm ih =>
    obtain ⟨γ, hkeeps, hJ⟩ := ih
    obtain ⟨γ', e, hkeeps', hhistory, hstepped⟩ := Config.stepped hsound hkeeps hm
    refine ⟨γ', hkeeps', ?_⟩
    rw [hhistory]
    exact hstep cfg m e cfg'.world γ γ' hr hkeeps hJ hok hstepped

end

/-! ## More rules for the same programs -/

namespace Rules

variable (R : Rules S G)

/-- The rules `R`, and a condition on each operation and the journal before it. -/
def also (allowed : S.Call → Prog.Journal S.Op S.Res → S.Op → Prop) : Rules S G :=
  { R with step := fun c j g o b g' => R.step c j g o b g' ∧ allowed c j o }

variable {R} in
theorem Sound.also (h : R.Sound) {allowed : S.Call → Prog.Journal S.Op S.Res → S.Op → Prop}
    (hallowed : ∀ w c, (S.code w c).Follows (Prog.Journal.protocol (allowed c))
      (fun _ _ => True) []) : (R.also allowed).Sound := by
  intro w c
  refine ((h w c).both (hallowed w c)).sim (fun p q => q = p.1 ∧ p.2 = p.1.1) ?_ ?_ ⟨rfl, rfl⟩
  · rintro p o b p' q ⟨rfl, hq⟩ ⟨⟨hR, hj⟩, ho, hj'⟩
    rw [hq] at ho hj'
    exact ⟨p'.1, ⟨⟨hR, ho⟩, hj⟩, rfl, hj'.trans hj.symm⟩
  · rintro r p q ⟨rfl, -⟩ ⟨hend, -⟩
    exact hend

end Rules

/-! ## Traces -/

/-- A run with its moves, each with the configuration it was made in. -/
inductive Trace (ok : S.Config → S.Move → Prop) (cfg₀ : S.Config) :
    List (S.Config × S.Move) → S.Config → Prop where
  | refl : Trace ok cfg₀ [] cfg₀
  | move {tr : List (S.Config × S.Move)} {cfg cfg' : S.Config} {m : S.Move}
      (h : Trace ok cfg₀ tr cfg) (hok : ok cfg m) (hm : cfg.move m = some cfg') :
      Trace ok cfg₀ (tr ++ [(cfg, m)]) cfg'

variable {ok : S.Config → S.Move → Prop} {cfg₀ cfg cfg' : S.Config}
  {tr tr' : List (S.Config × S.Move)}

theorem Trace.mono {ok' : S.Config → S.Move → Prop} (h : Trace ok cfg₀ tr cfg)
    (himp : ∀ cfg m, ok cfg m → ok' cfg m) : Trace ok' cfg₀ tr cfg := by
  induction h with
  | refl => exact .refl
  | move _ hok hm ih => exact ih.move (himp _ _ hok) hm

/-- What comes before a move is a trace. -/
theorem Trace.before {m : S.Move} (h : Trace ok cfg₀ (tr ++ (cfg, m) :: tr') cfg') :
    Trace ok cfg₀ tr cfg := by
  induction tr' using List.reverseRecOn generalizing cfg' with
  | nil =>
    generalize htr : tr ++ [(cfg, m)] = tr₀ at h
    cases h with
    | refl => simp at htr
    | move h hok hm =>
      obtain ⟨rfl, heq⟩ := List.append_inj' htr rfl
      cases heq
      exact h
  | append_singleton tr' x ih =>
    rw [← List.cons_append, ← List.append_assoc] at h
    generalize htr : tr ++ (cfg, m) :: tr' ++ [x] = tr₀ at h
    cases h with
    | refl => simp at htr
    | move h hok hm =>
      obtain ⟨rfl, -⟩ := List.append_inj' htr rfl
      exact ih h

/-- Make the moves of a list, checking each with `ok`, and keep the trace. -/
def Config.trace (ok : S.Config → S.Move → Prop) [∀ cfg m, Decidable (ok cfg m)] :
    S.Config → List S.Move → Option (List (S.Config × S.Move) × S.Config)
  | cfg, [] => some ([], cfg)
  | cfg, m :: ms =>
    if ok cfg m then
      match cfg.move m with
      | none => none
      | some cfg' => (cfg'.trace ok ms).map fun p => ((cfg, m) :: p.1, p.2)
    else none

theorem Trace.of_trace [∀ cfg m, Decidable (ok cfg m)] {ms : List S.Move}
    (h : Trace ok cfg₀ tr cfg) (hms : cfg.trace ok ms = some (tr', cfg')) :
    Trace ok cfg₀ (tr ++ tr') cfg' := by
  induction ms generalizing cfg tr tr' with
  | nil =>
    cases hms
    rwa [List.append_nil]
  | cons m ms ih =>
    unfold Config.trace at hms
    split at hms
    · rename_i hok
      split at hms
      · cases hms
      · rename_i cfg₁ hm
        obtain ⟨⟨tr₁, cfg₂⟩, hrest, heq⟩ := Option.map_eq_some_iff.mp hms
        cases heq
        rw [List.append_cons]
        exact ih (h.move hok hm) hrest
    · cases hms

/-- The invariant rule for traces: what holds at the start, with idle ghost
    states, and is kept by every step of them holds wherever the trace leads. -/
theorem Trace.ghost {R : Rules S G} (hsound : R.Sound)
    {J : List (S.Config × S.Move) → S.World → Ghosts S G → Prop} (h : Trace ok cfg₀ tr cfg)
    (hidle : cfg₀.threads = ∅) (h₀ : J [] cfg₀.world fun _ => none)
    (hstep : ∀ tr cfg m w γ γ', Trace ok cfg₀ tr cfg → cfg.Keeps R γ → J tr cfg.world γ →
      ok cfg m → cfg.Ghosted R γ m w γ' → J (tr ++ [(cfg, m)]) w γ') :
    ∃ γ, cfg.Keeps R γ ∧ J tr cfg.world γ := by
  induction h with
  | refl =>
    refine ⟨fun _ => none, fun t => ?_, h₀⟩
    rw [hidle, AList.lookup_empty]
    trivial
  | move htr hok hm ih =>
    obtain ⟨γ, hkeeps, hJ⟩ := ih
    obtain ⟨γ', hkeeps', hghosted⟩ := Config.ghosted hsound hkeeps hm
    exact ⟨γ', hkeeps', hstep _ _ _ _ _ _ htr hkeeps hJ hok hghosted⟩

end System

end Yabiir
