/-
  Yabiir.Lib.Prog

  Programs over a signature of atomic operations, as finite trees: a program
  is done, or performs one operation and goes on with its result.  One text of
  a program then has several meanings: `exec` runs it to completion, a pool of
  threads (`Yabiir.Lib.Pool`) interleaves it with others, and `Follows` checks it
  against a protocol that says what it may do next and where that leads.
-/

import Mathlib.Init

namespace Yabiir

/-- A program that performs operations `o : Op` with results in `Res o` and
    ends with an `α`. -/
inductive Prog (Op : Type) (Res : Op → Type) (α : Type) : Type where
  | ret (a : α)
  | act (o : Op) (k : Res o → Prog Op Res α)

namespace Prog

variable {Op : Type} {Res : Op → Type} {α β γ σ : Type}

/-- Sequencing: go on with `f` where the first program ends. -/
def bind : Prog Op Res α → (α → Prog Op Res β) → Prog Op Res β
  | ret a, f => f a
  | act o k, f => act o fun b => (k b).bind f

instance : Monad (Prog Op Res) where
  pure := ret
  bind := bind

/-- The program that performs one operation. -/
def op (o : Op) : Prog Op Res (Res o) := act o ret

@[simp] theorem pure_eq (a : α) : (pure a : Prog Op Res α) = ret a := rfl
@[simp] theorem ret_bind (a : α) (f : α → Prog Op Res β) : (ret a >>= f) = f a := rfl
@[simp] theorem act_bind (o : Op) (k : Res o → Prog Op Res α) (f : α → Prog Op Res β) :
    (act o k >>= f) = act o fun b => k b >>= f := rfl
@[simp] theorem op_bind (o : Op) (f : Res o → Prog Op Res β) : (op o >>= f) = act o f := rfl

theorem bind_ret (p : Prog Op Res α) : (p >>= ret) = p := by
  induction p with
  | ret a => rfl
  | act o k ih => simp only [act_bind, ih]

theorem bind_assoc (p : Prog Op Res α) (f : α → Prog Op Res β) (g : β → Prog Op Res γ) :
    (p >>= f >>= g) = p >>= fun a => f a >>= g := by
  induction p with
  | ret a => rfl
  | act o k ih => simp only [act_bind, ih]

instance : LawfulMonad (Prog Op Res) :=
  LawfulMonad.mk' _ (fun p => bind_ret p) (fun _ _ => rfl) bind_assoc

/-! ## Running alone -/

/-- Run a program to completion from state `s`, with nothing in between. -/
def exec (perform : (o : Op) → σ → Res o × σ) : Prog Op Res α → σ → α × σ
  | ret a, s => (a, s)
  | act o k, s => (k (perform o s).1).exec perform (perform o s).2

/-- The states such a run goes through, each with the operation about to be
    performed in it. -/
def visits (perform : (o : Op) → σ → Res o × σ) : Prog Op Res α → σ → List (σ × Op)
  | ret _, _ => []
  | act o k, s => (s, o) :: (k (perform o s).1).visits perform (perform o s).2

/-- What every operation keeps, a run keeps. -/
theorem exec_keeps {perform : (o : Op) → σ → Res o × σ} {P : σ → Prop}
    (hstep : ∀ o s, P s → P (perform o s).2) (p : Prog Op Res α) {s : σ} (h : P s) :
    P (p.exec perform s).2 := by
  induction p generalizing s with
  | ret a => exact h
  | act o k ih => exact ih _ (hstep o s h)

theorem exec_bind (perform : (o : Op) → σ → Res o × σ) (p : Prog Op Res α)
    (f : α → Prog Op Res β) (s : σ) :
    (p >>= f).exec perform s = (f (p.exec perform s).1).exec perform (p.exec perform s).2 := by
  induction p generalizing s with
  | ret a => rfl
  | act o k ih => simp only [act_bind, exec, ih]

theorem visits_bind (perform : (o : Op) → σ → Res o × σ) (p : Prog Op Res α)
    (f : α → Prog Op Res β) (s : σ) :
    (p >>= f).visits perform s
      = p.visits perform s ++ (f (p.exec perform s).1).visits perform (p.exec perform s).2 := by
  induction p generalizing s with
  | ret a => rfl
  | act o k ih => simp only [act_bind, visits, exec, ih, List.cons_append]

/-- Run a program whose operation number `i` goes wrong as `fault` says; `none`
    where it ends before that operation or the operation cannot go wrong so. -/
def execFault (perform : (o : Op) → σ → Res o × σ) (fault : (o : Op) → σ → Option (Res o × σ)) :
    Nat → Prog Op Res α → σ → Option (α × σ)
  | _, ret _, _ => none
  | 0, act o k, s => (fault o s).map fun (b, s') => (k b).exec perform s'
  | i + 1, act o k, s =>
    (k (perform o s).1).execFault perform fault i (perform o s).2

/-- The operations before the one that goes wrong. -/
theorem execFault_succ {perform : (o : Op) → σ → Res o × σ}
    {fault : (o : Op) → σ → Option (Res o × σ)} {o : Op} {k : Res o → Prog Op Res α} {s s' : σ}
    {b : Res o} {i : Nat} (h : perform o s = (b, s')) :
    (act o k).execFault perform fault (i + 1) s = (k b).execFault perform fault i s' := by
  rw [execFault, h]

/-! ## Following a protocol -/

/-- What a program has done: its operations with their results, in order. -/
abbrev Journal (Op : Type) (Res : Op → Type) := List (Σ o : Op, Res o)

/-- The journal after one more operation. -/
abbrev Journal.log (j : Journal Op Res) (o : Op) (b : Res o) : Journal Op Res := j ++ [⟨o, b⟩]

/-- A protocol with states `G`: which operations with which results lead from
    one state to which other. -/
abbrev Protocol (Op : Type) (Res : Op → Type) (G : Type) :=
  G → (o : Op) → Res o → G → Prop

/-- The protocol whose state is the journal, and which permits the operations
    that `allowed` permits after the journal so far. -/
def Journal.protocol (allowed : Journal Op Res → Op → Prop) : Protocol Op Res (Journal Op Res) :=
  fun j o b j' => allowed j o ∧ j' = j.log o b

variable {G : Type}

/-- From protocol state `g`, whatever the results of its operations, the program
    performs only operations the protocol permits, and ends with a value and in
    a protocol state that satisfy `Q`. -/
def Follows (R : Protocol Op Res G) : Prog Op Res α → (α → G → Prop) → G → Prop
  | ret a, Q, g => Q a g
  | act o k, Q, g => ∀ b, ∃ g', R g o b g' ∧ (k b).Follows R Q g'

variable {R : Protocol Op Res G}

theorem Follows.mono {p : Prog Op Res α} {Q Q' : α → G → Prop} {g : G} (h : p.Follows R Q g)
    (hQ : ∀ a g, Q a g → Q' a g) : p.Follows R Q' g := by
  induction p generalizing g with
  | ret a => exact hQ a g h
  | act o k ih =>
    intro b
    obtain ⟨g', hR, hk⟩ := h b
    exact ⟨g', hR, ih b hk⟩

/-- The sequencing rule: the second program starts where the first one's
    postcondition leaves the protocol. -/
theorem Follows.bind {p : Prog Op Res α} {f : α → Prog Op Res β} {P : α → G → Prop}
    {Q : β → G → Prop} {g : G} (hp : p.Follows R P g)
    (hf : ∀ a g, P a g → (f a).Follows R Q g) : (p >>= f).Follows R Q g := by
  induction p generalizing g with
  | ret a => exact hf a g hp
  | act o k ih =>
    intro b
    obtain ⟨g', hR, hk⟩ := hp b
    exact ⟨g', hR, ih b hk⟩

/-- The protocol that permits the operations of `P` only. -/
def only (P : Op → Prop) : Protocol Op Res Unit := fun _ o _ _ => P o

/-- What permits all operations of a program permits those a run comes to. -/
theorem Follows.visits {P : Op → Prop} {perform : (o : Op) → σ → Res o × σ} {p : Prog Op Res α}
    {Q : α → Unit → Prop} (h : p.Follows (only P) Q ()) {s : σ} :
    ∀ x ∈ p.visits perform s, P x.2 := by
  induction p generalizing s with
  | ret a => exact fun x hx => absurd hx List.not_mem_nil
  | act o k ih =>
    obtain ⟨_, ho, -⟩ := h (perform o s).1
    rintro x (_ | ⟨_, hx⟩)
    · exact ho
    · obtain ⟨_, -, hk⟩ := h (perform o s).1
      exact ih _ hk x hx

/-- The states of a run, the first apart. -/
theorem mem_visits_act {perform : (o : Op) → σ → Res o × σ} {o : Op} {k : Res o → Prog Op Res α}
    {s : σ} {x : σ × Op} : x ∈ (act o k).visits perform s ↔
      x = (s, o) ∨ x ∈ (k (perform o s).1).visits perform (perform o s).2 :=
  List.mem_cons

/-- What every operation keeps holds in each of them. -/
theorem visits_keeps {perform : (o : Op) → σ → Res o × σ} {P : σ → Prop}
    (hstep : ∀ o s, P s → P (perform o s).2) {p : Prog Op Res α} {s : σ} (h : P s) :
    ∀ x ∈ p.visits perform s, P x.1 := by
  induction p generalizing s with
  | ret a => exact fun x hx => absurd hx List.not_mem_nil
  | act o k ih =>
    intro x hx
    rcases mem_visits_act.mp hx with rfl | hx
    · exact h
    · exact ih _ (hstep o s h) x hx

/-- The rule for the states a run goes through: what every step keeps holds in each, and
    the operation about to be performed there is one the protocol permits. -/
theorem Follows.visits_along {perform : (o : Op) → σ → Res o × σ} {I : G → σ → Prop}
    (hstep : ∀ g o s g', R g o (perform o s).1 g' → I g s → I g' (perform o s).2)
    {p : Prog Op Res α} {Q : α → G → Prop} {g : G} {s : σ} (h : p.Follows R Q g) (hInv : I g s)
    {x : σ × Op} (hx : x ∈ p.visits perform s) :
    ∃ g₁ g₂, I g₁ x.1 ∧ R g₁ x.2 (perform x.2 x.1).1 g₂ := by
  induction p generalizing g s with
  | ret a => cases hx
  | act o k ih =>
    obtain ⟨g', hR, hk⟩ := h (perform o s).1
    rcases mem_visits_act.mp hx with rfl | hx
    · exact ⟨g, g', hInv, hR⟩
    · exact ih _ hk (hstep g o s g' hR hInv) hx

/-- Two protocols at once. -/
def Protocol.both {G' : Type} (R : Protocol Op Res G) (R' : Protocol Op Res G') :
    Protocol Op Res (G × G') :=
  fun g o b g' => R g.1 o b g'.1 ∧ R' g.2 o b g'.2

/-- What follows each of two protocols follows both at once. -/
theorem Follows.both {G' : Type} {R' : Protocol Op Res G'} {p : Prog Op Res α} {Q : α → G → Prop}
    {Q' : α → G' → Prop} {g : G} {g' : G'} (h : p.Follows R Q g) (h' : p.Follows R' Q' g') :
    p.Follows (R.both R') (fun a g => Q a g.1 ∧ Q' a g.2) (g, g') := by
  induction p generalizing g g' with
  | ret a => exact ⟨h, h'⟩
  | act o k ih =>
    intro b
    obtain ⟨g₁, hR, hk⟩ := h b
    obtain ⟨g₁', hR', hk'⟩ := h' b
    exact ⟨(g₁, g₁'), ⟨hR, hR'⟩, ih b hk hk'⟩

/-- A protocol that can do whatever another one does. -/
theorem Follows.sim {G' : Type} {R' : Protocol Op Res G'} (Rel : G → G' → Prop)
    (hstep : ∀ g o b g' k, Rel g k → R g o b g' → ∃ k', R' k o b k' ∧ Rel g' k')
    {p : Prog Op Res α} {Q : α → G → Prop} {Q' : α → G' → Prop} {g : G} {k : G'}
    (hQ : ∀ a g k, Rel g k → Q a g → Q' a k) (h : p.Follows R Q g) (hRel : Rel g k) :
    p.Follows R' Q' k := by
  induction p generalizing g k with
  | ret a => exact hQ a g k hRel h
  | act o f ih =>
    intro b
    obtain ⟨g', hR, hf⟩ := h b
    obtain ⟨k', hR', hRel'⟩ := hstep g o b g' k hRel hR
    exact ⟨k', hR', ih b hf hRel'⟩

/-- Every program performs only operations that are operations. -/
theorem follows_only {P : Op → Prop} (hP : ∀ o, P o) (p : Prog Op Res α) :
    p.Follows (only P) (fun _ _ => True) () := by
  induction p with
  | ret a => trivial
  | act o k ih => exact fun b => ⟨(), hP o, ih b⟩

/-- Every program keeps a journal. -/
theorem follows_journal (p : Prog Op Res α) (j : Journal Op Res) :
    p.Follows (Journal.protocol fun _ _ => True) (fun _ _ => True) j := by
  induction p generalizing j with
  | ret a => trivial
  | act o k ih => exact fun b => ⟨_, ⟨trivial, rfl⟩, ih b _⟩

/-- A run from state `s` that ends with `a` in state `s'`, where `Out` says what may
    come of each operation. -/
inductive Runs (Out : (o : Op) → σ → Res o → σ → Prop) : Prog Op Res α → σ → α → σ → Prop where
  | ret (a : α) (s : σ) : Runs Out (.ret a) s a s
  | act {o : Op} {k : Res o → Prog Op Res α} {s s₁ s' : σ} {b : Res o} {a : α}
      (ho : Out o s b s₁) (hk : Runs Out (k b) s₁ a s') : Runs Out (.act o k) s a s'

/-- What `exec` does is a run. -/
theorem runs_exec (perform : (o : Op) → σ → Res o × σ) (p : Prog Op Res α) (s : σ) :
    p.Runs (fun o s b s' => perform o s = (b, s')) s (p.exec perform s).1 (p.exec perform s).2 := by
  induction p generalizing s with
  | ret a => exact .ret a s
  | act o k ih => exact .act rfl (ih _ _)

theorem Runs.mono {Out Out' : (o : Op) → σ → Res o → σ → Prop} {p : Prog Op Res α} {s s' : σ} {a : α}
    (h : p.Runs Out s a s') (hOut : ∀ o s b s', Out o s b s' → Out' o s b s') :
    p.Runs Out' s a s' := by
  induction h with
  | ret a s => exact .ret a s
  | act ho _ ih => exact .act (hOut _ _ _ _ ho) ih

/-- The rule for runs: what every operation the protocol permits keeps holds at
    the end, together with the postcondition. -/
theorem Follows.runs {Out : (o : Op) → σ → Res o → σ → Prop} {Inv : G → σ → Prop}
    (hstep : ∀ g o s b s' g', Out o s b s' → R g o b g' → Inv g s → Inv g' s')
    {p : Prog Op Res α} {Q : α → G → Prop} {g : G} {s s' : σ} {a : α} (h : p.Follows R Q g)
    (hInv : Inv g s) (hrun : p.Runs Out s a s') : ∃ g', Q a g' ∧ Inv g' s' := by
  induction hrun generalizing g with
  | ret a s => exact ⟨g, h, hInv⟩
  | act ho _ ih =>
    obtain ⟨g', hR, hk⟩ := h _
    exact ih hk (hstep _ _ _ _ _ _ ho hR hInv)

/-- What every outcome of an operation keeps, a run keeps. -/
theorem Runs.keeps {Out : (o : Op) → σ → Res o → σ → Prop} {P : σ → Prop}
    (hstep : ∀ o s b s', Out o s b s' → P s → P s') {p : Prog Op Res α} {s s' : σ} {a : α}
    (h : p.Runs Out s a s') (hP : P s) : P s' := by
  induction h with
  | ret a s => exact hP
  | act ho _ ih => exact ih (hstep _ _ _ _ ho hP)

/-- Where the operations a protocol permits can only go one way, a run is what
    `exec` does. -/
theorem Follows.runs_eq {Out : (o : Op) → σ → Res o → σ → Prop}
    {perform : (o : Op) → σ → Res o × σ}
    (hdet : ∀ g o s b s' g', R g o b g' → Out o s b s' → perform o s = (b, s'))
    {p : Prog Op Res α} {Q : α → G → Prop} {g : G} {s s' : σ} {a : α} (h : p.Follows R Q g)
    (hrun : p.Runs Out s a s') : p.exec perform s = (a, s') := by
  induction hrun generalizing g with
  | ret a s => rfl
  | act ho _ ih =>
    obtain ⟨g', hR, hk⟩ := h _
    rw [exec, hdet _ _ _ _ _ _ hR ho]
    exact ih hk

/-- A run in which `Out` allows what `perform` does with the operations a protocol
    permits. -/
theorem Follows.runs_of {Out : (o : Op) → σ → Res o → σ → Prop}
    {perform : (o : Op) → σ → Res o × σ}
    (hOut : ∀ g o s g', R g o (perform o s).1 g' → Out o s (perform o s).1 (perform o s).2)
    {p : Prog Op Res α} {Q : α → G → Prop} {g : G} (h : p.Follows R Q g) (s : σ) :
    p.Runs Out s (p.exec perform s).1 (p.exec perform s).2 := by
  induction p generalizing g s with
  | ret a => exact .ret a s
  | act o k ih =>
    obtain ⟨g', hR, hk⟩ := h (perform o s).1
    exact .act (hOut g o s g' hR) (ih _ hk _)

/-- The rule for running alone. -/
theorem Follows.exec {perform : (o : Op) → σ → Res o × σ} {Inv : G → σ → Prop}
    (hstep : ∀ g o s g', R g o (perform o s).1 g' → Inv g s → Inv g' (perform o s).2)
    {p : Prog Op Res α} {Q : α → G → Prop} {g : G} {s : σ} (h : p.Follows R Q g) (hInv : Inv g s) :
    ∃ g', Q (p.exec perform s).1 g' ∧ Inv g' (p.exec perform s).2 := by
  refine Follows.runs (fun g o s b s' g' ho hR hInv => ?_) h hInv (runs_exec perform p s)
  have hs := hstep g o s g'
  rw [ho] at hs
  exact hs hR hInv

/-- The same where one of the operations goes wrong. -/
theorem Follows.execFault {perform : (o : Op) → σ → Res o × σ}
    {fault : (o : Op) → σ → Option (Res o × σ)} {Inv : G → σ → Prop}
    (hstep : ∀ g o s g', R g o (perform o s).1 g' → Inv g s → Inv g' (perform o s).2)
    (hfault : ∀ g o s b s' g', fault o s = some (b, s') → R g o b g' → Inv g s → Inv g' s')
    {p : Prog Op Res α} {Q : α → G → Prop} {g : G} {s : σ} {i : Nat} {a : α} {s' : σ}
    (h : p.Follows R Q g) (hInv : Inv g s) (hrun : p.execFault perform fault i s = some (a, s')) :
    ∃ g', Q a g' ∧ Inv g' s' := by
  induction i generalizing p g s with
  | zero =>
    cases p with
    | ret a => cases hrun
    | act o k =>
      obtain ⟨⟨b, s₁⟩, hf, hk⟩ := Option.map_eq_some_iff.mp hrun
      obtain ⟨g', hR, hfollows⟩ := h b
      have hend := Follows.exec hstep hfollows (hfault g o s b s₁ g' hf hR hInv)
      have hend' : (k b).exec perform s₁ = (a, s') := hk
      rw [hend'] at hend
      exact hend
  | succ i ih =>
    cases p with
    | ret a => cases hrun
    | act o k =>
      obtain ⟨g', hR, hfollows⟩ := h (perform o s).1
      exact ih hfollows (hstep g o s g' hR hInv) hrun

end Prog

end Yabiir
