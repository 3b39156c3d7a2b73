/-
  Yabiir.Lib.Method

  Methods: programs that also update a private state `σ` (Rust's `&mut self`)
  and may fail with an `ε`, in which case the caller still holds the state as
  the failing step left it.  `Method.Spec` is a triple for them: from a private
  state and a protocol state, the method follows the protocol and ends in `Q`
  or, when it fails, in `E`.
-/

import Yabiir.Lib.Prog

namespace Yabiir

variable {Op : Type} {Res : Op → Type} {σ ε α β : Type}

/-- A program over `Op` that updates a `σ` and ends with an `α` or an error. -/
def Method (Op : Type) (Res : Op → Type) (σ ε α : Type) : Type :=
  σ → Prog Op Res (Except ε α × σ)

namespace Method

def pure (a : α) : Method Op Res σ ε α := fun s => .ret (.ok a, s)

def bind (x : Method Op Res σ ε α) (f : α → Method Op Res σ ε β) : Method Op Res σ ε β :=
  fun s => x s >>= fun
    | (.ok a, s') => f a s'
    | (.error e, s') => .ret (.error e, s')

instance : Monad (Method Op Res σ ε) where
  pure := pure
  bind := bind

/-- Stop with an error. -/
def fail (e : ε) : Method Op Res σ ε α := fun s => .ret (.error e, s)

/-- The private state. -/
def get : Method Op Res σ ε σ := fun s => .ret (.ok s, s)

/-- Replace the private state. -/
def modify (f : σ → σ) : Method Op Res σ ε Unit := fun s => .ret (.ok (), f s)

/-- Perform one operation. -/
def op (o : Op) : Method Op Res σ ε (Res o) := fun s => .act o fun b => .ret (.ok b, s)

/-- Rust's `?`: go on with the value, or stop with the error. -/
def ofExcept : Except ε α → Method Op Res σ ε α
  | .ok a => pure a
  | .error e => fail e

/-- Run a method on a part of the state. -/
def onPart {τ : Type} (get : σ → τ) (set : τ → σ → σ) (x : Method Op Res τ ε α) :
    Method Op Res σ ε α :=
  fun s => x (get s) >>= fun (r, t) => .ret (r, set t s)

/-! ## Running alone -/

section Run

variable {ω : Type} (perform : (o : Op) → ω → Res o × ω)

/-- Run a method to completion from private state `s` in state `w`, with nothing
    in between. -/
def run (x : Method Op Res σ ε α) (s : σ) (w : ω) : (Except ε α × σ) × ω :=
  (x s).exec perform w

@[simp] theorem run_pure (a : α) (s : σ) (w : ω) :
    run perform (Pure.pure a : Method Op Res σ ε α) s w = ((.ok a, s), w) := rfl

@[simp] theorem run_fail (e : ε) (s : σ) (w : ω) :
    run perform (fail e : Method Op Res σ ε α) s w = ((.error e, s), w) := rfl

@[simp] theorem run_get (s : σ) (w : ω) :
    run perform (get : Method Op Res σ ε σ) s w = ((.ok s, s), w) := rfl

@[simp] theorem run_modify (f : σ → σ) (s : σ) (w : ω) :
    run perform (modify f : Method Op Res σ ε Unit) s w = ((.ok (), f s), w) := rfl

@[simp] theorem run_op (o : Op) (s : σ) (w : ω) :
    run perform (op o : Method Op Res σ ε (Res o)) s w
      = ((.ok (perform o w).1, s), (perform o w).2) := rfl

@[simp] theorem run_ofExcept (r : Except ε α) (s : σ) (w : ω) :
    run perform (ofExcept r : Method Op Res σ ε α) s w = ((r, s), w) := by
  cases r <;> rfl

theorem run_bind (x : Method Op Res σ ε α) (f : α → Method Op Res σ ε β) (s : σ) (w : ω) :
    run perform (x >>= f) s w
      = match run perform x s w with
        | ((.ok a, s'), w') => run perform (f a) s' w'
        | ((.error e, s'), w') => ((.error e, s'), w') := by
  have h := Prog.exec_bind perform (x s) (fun
    | (.ok a, s') => f a s'
    | (.error e, s') => .ret (.error e, s')) w
  refine h.trans ?_
  unfold run
  rcases (x s).exec perform w with ⟨⟨r, s'⟩, w'⟩
  cases r <;> rfl

/-- A step that succeeds hands its value on. -/
theorem run_bind_ok {x : Method Op Res σ ε α} {s s' : σ} {w w' : ω} {a : α}
    (h : run perform x s w = ((.ok a, s'), w')) (f : α → Method Op Res σ ε β) :
    run perform (x >>= f) s w = run perform (f a) s' w' := by
  rw [run_bind, h]

theorem visits_bind (x : Method Op Res σ ε α) (f : α → Method Op Res σ ε β) (s : σ) (w : ω) :
    ((x >>= f) s).visits perform w
      = (x s).visits perform w ++
        match run perform x s w with
        | ((.ok a, s'), w') => (f a s').visits perform w'
        | ((.error _, _), _) => [] := by
  have h := Prog.visits_bind perform (x s) (fun
    | (.ok a, s') => f a s'
    | (.error e, s') => .ret (.error e, s')) w
  refine h.trans (congrArg _ ?_)
  unfold run
  rcases (x s).exec perform w with ⟨⟨r, s'⟩, w'⟩
  cases r <;> rfl

end Run

/-! ## Triples -/

variable {G : Type} {R : Prog.Protocol Op Res G}

/-- The postcondition of a triple on an outcome. -/
def Post (Q : α → σ → G → Prop) (E : ε → σ → G → Prop) : Except ε α × σ → G → Prop
  | (.ok a, s), g => Q a s g
  | (.error e, s), g => E e s g

/-- From state `s` and protocol state `g`, the method follows the protocol, and
    ends in `Q` with a value or in `E` with an error. -/
def Spec (R : Prog.Protocol Op Res G) (x : Method Op Res σ ε α) (s : σ) (g : G)
    (Q : α → σ → G → Prop) (E : ε → σ → G → Prop) : Prop :=
  (x s).Follows R (Post Q E) g

variable {s : σ} {g : G} {Q : α → σ → G → Prop} {E : ε → σ → G → Prop}

theorem Spec.pure {a : α} (h : Q a s g) :
    Spec R (Pure.pure a : Method Op Res σ ε α) s g Q E := h

theorem Spec.fail {e : ε} (h : E e s g) : Spec R (fail e : Method Op Res σ ε α) s g Q E := h

theorem Spec.get {Q : σ → σ → G → Prop} (h : Q s s g) :
    Spec R (get : Method Op Res σ ε σ) s g Q E := h

theorem Spec.modify {f : σ → σ} {Q : Unit → σ → G → Prop} (h : Q () (f s) g) :
    Spec R (modify f : Method Op Res σ ε Unit) s g Q E := h

theorem Spec.op {o : Op} {Q : Res o → σ → G → Prop} (h : ∀ b, ∃ g', R g o b g' ∧ Q b s g') :
    Spec R (op o : Method Op Res σ ε (Res o)) s g Q E := h

theorem Spec.ofExcept {r : Except ε α} (hok : ∀ a, r = .ok a → Q a s g)
    (herr : ∀ e, r = .error e → E e s g) :
    Spec R (ofExcept r : Method Op Res σ ε α) s g Q E := by
  cases r with
  | ok a => exact hok a rfl
  | error e => exact herr e rfl

theorem Spec.bind {x : Method Op Res σ ε α} {f : α → Method Op Res σ ε β}
    {P : α → σ → G → Prop} {Q : β → σ → G → Prop} (hx : Spec R x s g P E)
    (hf : ∀ a s g, P a s g → Spec R (f a) s g Q E) : Spec R (x >>= f) s g Q E := by
  refine Prog.Follows.bind hx ?_
  rintro ⟨r, s'⟩ g' hr
  cases r with
  | ok a => exact hf a s' g' hr
  | error e => exact hr

/-- The sequencing rule in weakest-precondition form. -/
theorem Spec.seq {x : Method Op Res σ ε α} {f : α → Method Op Res σ ε β} {Q : β → σ → G → Prop}
    (h : Spec R x s g (fun a s g => Spec R (f a) s g Q E) E) : Spec R (x >>= f) s g Q E :=
  Spec.bind h fun _ _ _ h => h

theorem Spec.mono {x : Method Op Res σ ε α} {Q' : α → σ → G → Prop} {E' : ε → σ → G → Prop}
    (h : Spec R x s g Q E) (hQ : ∀ a s g, Q a s g → Q' a s g)
    (hE : ∀ e s g, E e s g → E' e s g) : Spec R x s g Q' E' := by
  refine Prog.Follows.mono h ?_
  rintro ⟨r, s'⟩ g' hr
  cases r with
  | ok a => exact hQ a s' g' hr
  | error e => exact hE e s' g' hr

theorem Spec.onPart {τ : Type} {get : σ → τ} {set : τ → σ → σ} {x : Method Op Res τ ε α}
    (h : Spec R x (get s) g (fun a t => Q a (set t s)) fun e t => E e (set t s)) :
    Spec R (onPart get set x) s g Q E := by
  refine Prog.Follows.bind h ?_
  rintro ⟨r, t⟩ g' hr
  cases r <;> exact hr

/-! ## Methods that perform certain operations only -/

/-- Whatever the results, the method performs operations of `P` only. -/
abbrev Only (P : Op → Prop) (x : Method Op Res σ ε α) (s : σ) : Prop :=
  Spec (Prog.only P) x s () (fun _ _ _ => True) fun _ _ _ => True

variable {P : Op → Prop}

theorem Only.bind {x : Method Op Res σ ε α} {f : α → Method Op Res σ ε β} (hx : Only P x s)
    (hf : ∀ a s, Only P (f a) s) : Only P (x >>= f) s :=
  Spec.bind hx fun a s _ _ => hf a s

theorem Only.get : Only P (get : Method Op Res σ ε σ) s := trivial

theorem Only.modify {f : σ → σ} : Only P (modify f : Method Op Res σ ε Unit) s := trivial

theorem Only.op {o : Op} (ho : P o) : Only P (op o : Method Op Res σ ε (Res o)) s :=
  fun _ => ⟨(), ho, trivial⟩

theorem Only.onPart {τ : Type} {get : σ → τ} {set : τ → σ → σ} {x : Method Op Res τ ε α}
    (h : Only P x (get s)) : Only P (onPart get set x) s :=
  Spec.onPart h

end Method

end Yabiir
