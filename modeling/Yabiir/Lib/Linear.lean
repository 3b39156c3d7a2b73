/-
  Yabiir.Lib.Linear

  Linearizability of the calls of a pool.  A history is linearizable when there
  is an order in which its calls take effect, one after the other: every call
  that returned is in it, with the answer it returned, and none comes before a
  call that had returned when it began (`Linearizes`).

  The order is built along a run.  An event in which a call takes effect adds it
  with the answer it is going to return (`Linearizes.takes`); where it returns
  something else after all, its place in the order is kept (`Linearizes.amend`).
-/

import Mathlib.Data.List.Induction
import Mathlib.Data.List.Nodup
import Yabiir.Lib.Pool

namespace Yabiir

namespace System

variable {S : System} {σ : Type}

/-! ## Calls in progress -/

/-- The calls in progress after event number `n`, where those of `calls` were. -/
def Event.progress (n : Nat) (calls : Nat → Option (Nat × S.Call)) :
    S.Event → Nat → Option (Nat × S.Call)
  | .call t c => Function.update calls t (some (n, c))
  | .ret t .. => Function.update calls t none
  | .restart _ => fun _ => none
  | .act .. => calls

/-- The call each thread is in after a history, with the number of the event that
    began it. -/
def inProgress (es : List S.Event) : Nat → Option (Nat × S.Call) :=
  es.zipIdx.foldl (fun calls e => e.1.progress e.2 calls) fun _ => none

/-- Event number `j` is the return, with answer `r`, from the call `c` of thread
    `t` that event number `i` began. -/
def Returned (es : List S.Event) (i j t : Nat) (c : S.Call) (r : S.Resp) : Prop :=
  es[j]? = some (.ret t c r) ∧ inProgress (es.take j) t = some (i, c)

section

variable {es : List S.Event} {e : S.Event} {i j t : Nat} {c : S.Call} {r : S.Resp}

theorem inProgress_append : inProgress (es ++ [e]) = e.progress es.length (inProgress es) := by
  simp [inProgress, List.zipIdx_append]

theorem getElem?_of_inProgress (h : inProgress es t = some (i, c)) : es[i]? = some (.call t c) := by
  induction es using List.reverseRecOn with
  | nil => cases h
  | append_singleton es e ih =>
    have hold : inProgress es t = some (i, c) → (es ++ [e])[i]? = some (.call t c) := fun h => by
      have hi := ih h
      rwa [List.getElem?_append_left (List.getElem?_eq_some_iff.mp hi).1]
    rw [inProgress_append] at h
    cases e with
    | call t' c' =>
      by_cases ht : t = t'
      · subst ht
        rw [Event.progress, Function.update_self] at h
        cases h
        simp
      · rw [Event.progress, Function.update_of_ne ht] at h
        exact hold h
    | act => exact hold h
    | ret t' =>
      by_cases ht : t = t'
      · subst ht
        rw [Event.progress, Function.update_self] at h
        cases h
      · rw [Event.progress, Function.update_of_ne ht] at h
        exact hold h
    | restart => cases h

theorem lt_of_inProgress (h : inProgress es t = some (i, c)) : i < es.length :=
  (List.getElem?_eq_some_iff.mp (getElem?_of_inProgress h)).1

/-- One more event is a return of one more call at most. -/
theorem returned_append : Returned (es ++ [e]) i j t c r ↔
    Returned es i j t c r ∨ j = es.length ∧ e = .ret t c r ∧ inProgress es t = some (i, c) := by
  unfold Returned
  rcases lt_trichotomy j es.length with hj | rfl | hj
  · rw [List.getElem?_append_left hj, List.take_append_of_le_length (Nat.le_of_lt hj)]
    simp [Nat.ne_of_lt hj]
  · simp
  · have hnone : (es ++ [e])[j]? = none ∧ es[j]? = none := by
      constructor
      · rw [List.getElem?_eq_none_iff, List.length_append, List.length_singleton]
        omega
      · rw [List.getElem?_eq_none_iff]
        omega
    simp [hnone, Nat.ne_of_gt hj]

theorem Returned.getElem? (h : Returned es i j t c r) : es[i]? = some (.call t c) := by
  have hi := getElem?_of_inProgress h.2
  rw [List.getElem?_take] at hi
  split at hi
  · exact hi
  · cases hi

theorem Returned.lt (h : Returned es i j t c r) : i < j ∧ j < es.length := by
  have hj := (List.getElem?_eq_some_iff.mp h.1).1
  have hi := lt_of_inProgress h.2
  rw [List.length_take] at hi
  omega

/-- A call in progress has not returned. -/
theorem not_returned (h : inProgress es t = some (i, c)) {t' : Nat} {c' : S.Call} :
    ¬ Returned es i j t' c' r := by
  induction es using List.reverseRecOn with
  | nil => cases h
  | append_singleton es e ih =>
    intro hret
    have hbegan := hret.getElem?.symm.trans (getElem?_of_inProgress h)
    cases hbegan
    rcases returned_append.mp hret with hold | ⟨rfl, rfl, -⟩
    · -- it had returned before, so it was begun before, and another call of the thread since
      have hlt := hold.lt
      rw [inProgress_append] at h
      cases e with
      | call u d =>
        by_cases ht : t = u
        · subst ht
          rw [Event.progress, Function.update_self] at h
          cases h
          omega
        · rw [Event.progress, Function.update_of_ne ht] at h
          exact ih h hold
      | act => exact ih h hold
      | ret u =>
        by_cases ht : t = u
        · subst ht
          rw [Event.progress, Function.update_self] at h
          cases h
        · rw [Event.progress, Function.update_of_ne ht] at h
          exact ih h hold
      | restart => cases h
    · rw [inProgress_append, Event.progress, Function.update_self] at h
      cases h

end

/-! ## Calls that do not overlap -/

/-- At no moment since the last restart have two threads been in calls with `P`. -/
def Apart (P : S.Call → Prop) (es : List S.Event) : Prop :=
  ∀ es₁ es₂, es = es₁ ++ es₂ → (∀ r, .restart r ∉ es₂) → ∀ t u i j c d,
    inProgress es₁ t = some (i, c) → inProgress es₁ u = some (j, d) → P c → P d → t = u

section

variable {P : S.Call → Prop} {es : List S.Event} {e : S.Event}

theorem Apart.before (h : Apart P (es ++ [e])) (he : ∀ r, e ≠ .restart r) : Apart P es := by
  rintro es₁ es₂ rfl hes₂
  apply h es₁ (es₂ ++ [e]) (List.append_assoc ..)
  intro r hr
  rcases List.mem_append.mp hr with hr | hr
  · exact hes₂ r hr
  · exact he r (List.mem_singleton.mp hr).symm

/-- Of the calls in progress one at most has `P`. -/
theorem Apart.now (h : Apart P es) {t u i j : Nat} {c d : S.Call}
    (hc : inProgress es t = some (i, c)) (hd : inProgress es u = some (j, d)) (hPc : P c)
    (hPd : P d) : t = u :=
  h es [] (List.append_nil es).symm (fun _ => List.not_mem_nil) t u i j c d hc hd hPc hPd

end

/-! ## Orders of effect -/

/-- A call that takes effect: the event that began it, its thread, what it asks
    and what it is answered. -/
structure Taken (S : System) where
  start : Nat
  thread : Nat
  call : S.Call
  resp : S.Resp

/-- What a call may answer, from one state of the data to another. -/
abbrev Spec (S : System) (σ : Type) := σ → S.Call → S.Resp → σ → Prop

/-- Calls, one after the other, lead from `s₀` to a state. -/
inductive Sequential (spec : Spec S σ) (s₀ : σ) : List (Taken S) → σ → Prop where
  | nil : Sequential spec s₀ [] s₀
  | snoc {l : List (Taken S)} {s s' : σ} {x : Taken S} (h : Sequential spec s₀ l s)
      (hspec : spec s x.call x.resp s') : Sequential spec s₀ (l ++ [x]) s'

/-- The calls of a history take effect in the order `l`, from `s₀` to `s`. -/
structure Linearizes (spec : Spec S σ) (s₀ : σ) (es : List S.Event) (l : List (Taken S)) (s : σ) :
    Prop where
  sequential : Sequential spec s₀ l s
  /-- Only calls of the history are in the order, each once. -/
  began : ∀ x ∈ l, es[x.start]? = some (.call x.thread x.call)
  nodup : (l.map Taken.start).Nodup
  /-- Every call that returned is in it, with its answer. -/
  answered : ∀ i j t c r, Returned es i j t c r → ⟨i, t, c, r⟩ ∈ l
  /-- None comes before a call that had returned when it began. -/
  realTime : l.Pairwise fun x y => ∀ j t c r, Returned es y.start j t c r → x.start < j

/-- Orders that agree on all calls but the one that event number `i` began. -/
structure SameBut (i : Nat) (l l' : List (Taken S)) : Prop where
  kept : ∀ x ∈ l, x.start ≠ i → x ∈ l'
  starts : ∀ x ∈ l', x.start ≠ i → ∃ y ∈ l, y.start = x.start

/-- The calls of the history take effect one after the other. -/
def Linearizable (spec : Spec S σ) (s₀ : σ) (es : List S.Event) : Prop :=
  ∃ l s, Linearizes spec s₀ es l s

section

variable {spec : Spec S σ} {s₀ s s' : σ} {es : List S.Event} {e : S.Event} {l : List (Taken S)}
  {i t : Nat} {c : S.Call} {r r' : S.Resp} {x y : Taken S}

theorem SameBut.refl (i : Nat) (l : List (Taken S)) : SameBut i l l where
  kept := fun _ hx _ => hx
  starts := fun x hx _ => ⟨x, hx, rfl⟩

theorem sameBut_snoc (l : List (Taken S)) (x : Taken S) : SameBut x.start l (l ++ [x]) where
  kept := fun _ hy _ => List.mem_append_left _ hy
  starts := by
    intro y hy hne
    rcases List.mem_append.mp hy with hy | hy
    · exact ⟨y, hy, rfl⟩
    · exact absurd (congrArg Taken.start (List.mem_singleton.mp hy)) hne

theorem linearizes_nil (spec : Spec S σ) (s₀ : σ) : Linearizes spec s₀ [] [] s₀ where
  sequential := .nil
  began := by simp
  nodup := by simp
  answered := fun i j t c r h => absurd h.lt.2 (by simp)
  realTime := .nil

/-- The calls in the order have begun. -/
theorem Linearizes.lt (h : Linearizes spec s₀ es l s) (hx : x ∈ l) : x.start < es.length :=
  (List.getElem?_eq_some_iff.mp (h.began x hx)).1

/-- One call is in the order once. -/
theorem Linearizes.unique (h : Linearizes spec s₀ es l s) (hx : x ∈ l) (hy : y ∈ l)
    (heq : x.start = y.start) : x = y :=
  List.inj_on_of_nodup_map h.nodup hx hy heq

/-- An event that is no return. -/
theorem Linearizes.quiet (h : Linearizes spec s₀ es l s) (he : ∀ t c r, e ≠ .ret t c r) :
    Linearizes spec s₀ (es ++ [e]) l s := by
  have hret : ∀ {i j t c r}, Returned (es ++ [e]) i j t c r → Returned es i j t c r := by
    intro i j t c r hret
    rcases returned_append.mp hret with hret | ⟨-, rfl, -⟩
    · exact hret
    · exact absurd rfl (he t c r)
  refine ⟨h.sequential, fun x hx => ?_, h.nodup, fun i j t c r hr => h.answered i j t c r (hret hr),
    h.realTime.imp fun hxy j t c r hr => hxy j t c r (hret hr)⟩
  rw [List.getElem?_append_left (h.lt hx)]
  exact h.began x hx

/-- A call in progress takes effect. -/
theorem Linearizes.takes (h : Linearizes spec s₀ es l s) (hc : inProgress es t = some (i, c))
    (hnew : ∀ x ∈ l, x.start ≠ i) (hspec : spec s c r s') :
    Linearizes spec s₀ es (l ++ [⟨i, t, c, r⟩]) s' := by
  refine ⟨h.sequential.snoc hspec, fun x hx => ?_, ?_,
    fun i j t c r hr => List.mem_append_left _ (h.answered i j t c r hr), ?_⟩
  · rcases List.mem_append.mp hx with hx | hx
    · exact h.began x hx
    · cases List.mem_singleton.mp hx
      exact getElem?_of_inProgress hc
  · rw [List.map_append, List.nodup_append]
    refine ⟨h.nodup, by simp, fun n hn m hm => ?_⟩
    obtain ⟨x, hx, rfl⟩ := List.mem_map.mp hn
    cases List.mem_singleton.mp hm
    exact hnew x hx
  · rw [List.pairwise_append]
    refine ⟨h.realTime, List.pairwise_singleton _ _, fun x _ y hy j t' c' r' hr => ?_⟩
    cases List.mem_singleton.mp hy
    exact absurd hr (not_returned hc)

/-- A call that has taken effect returns the answer it was to return. -/
theorem Linearizes.returned (h : Linearizes spec s₀ es l s) (hc : inProgress es t = some (i, c))
    (hmem : ⟨i, t, c, r⟩ ∈ l) : Linearizes spec s₀ (es ++ [.ret t c r]) l s := by
  refine ⟨h.sequential, fun x hx => ?_, h.nodup, fun i' j t' c' r' hr => ?_, ?_⟩
  · rw [List.getElem?_append_left (h.lt hx)]
    exact h.began x hx
  · rcases returned_append.mp hr with hr | ⟨-, heq, hc'⟩
    · exact h.answered i' j t' c' r' hr
    · cases heq
      cases hc.symm.trans hc'
      exact hmem
  · refine h.realTime.imp_of_mem fun {x y} hx _ hxy j t' c' r' hr => ?_
    rcases returned_append.mp hr with hr | ⟨rfl, -, -⟩
    · exact hxy j t' c' r' hr
    · exact h.lt hx

/-- Other answers, where the specification allows them. -/
theorem Sequential.amend (h : Sequential spec s₀ l s) {f : Taken S → Taken S}
    (hcall : ∀ x ∈ l, (f x).call = x.call)
    (hspec : ∀ x ∈ l, ∀ s s', spec s x.call x.resp s' → spec s x.call (f x).resp s') :
    Sequential spec s₀ (l.map f) s := by
  induction h with
  | nil => exact .nil
  | @snoc l s s' x h hx ih =>
    have hmem : x ∈ l ++ [x] := by simp
    rw [List.map_append]
    refine (ih (fun y hy => hcall y (List.mem_append_left _ hy)) fun y hy =>
      hspec y (List.mem_append_left _ hy)).snoc ?_
    rw [hcall x hmem]
    exact hspec x hmem s s' hx

/-- A call that has taken effect, and is still in progress, is going to return
    another answer. -/
theorem Linearizes.amend (h : Linearizes spec s₀ es l s) (hc : inProgress es t = some (i, c))
    (hmem : ⟨i, t, c, r⟩ ∈ l) (hspec : ∀ s s', spec s c r s' → spec s c r' s') :
    ∃ l', Linearizes spec s₀ es l' s ∧ ⟨i, t, c, r'⟩ ∈ l' ∧ SameBut i l l' := by
  let f : Taken S → Taken S := fun x => if x.start = i then { x with resp := r' } else x
  have hstart : ∀ x, (f x).start = x.start ∧ (f x).thread = x.thread ∧ (f x).call = x.call := by
    intro x
    simp only [f]
    split <;> exact ⟨rfl, rfl, rfl⟩
  have hstarts : (l.map f).map Taken.start = l.map Taken.start := by
    rw [List.map_map]
    exact List.map_congr_left fun x _ => (hstart x).1
  refine ⟨l.map f, ⟨?_, ?_, hstarts.symm ▸ h.nodup, ?_, ?_⟩, ?_, ⟨?_, ?_⟩⟩
  · refine h.sequential.amend (fun x _ => (hstart x).2.2) fun x hx s s' hs => ?_
    show spec s x.call (if x.start = i then { x with resp := r' } else x : Taken S).resp s'
    split
    · rename_i heq
      cases h.unique hx hmem heq
      exact hspec s s' hs
    · exact hs
  · intro y hy
    obtain ⟨x, hx, rfl⟩ := List.mem_map.mp hy
    obtain ⟨h₁, h₂, h₃⟩ := hstart x
    rw [h₁, h₂, h₃]
    exact h.began x hx
  · intro i' j t' c' r'' hr
    have hne : i' ≠ i := fun heq => not_returned hc (heq ▸ hr)
    exact List.mem_map.mpr ⟨_, h.answered i' j t' c' r'' hr, if_neg hne⟩
  · rw [List.pairwise_map]
    refine h.realTime.imp fun {x y} hxy j t' c' r'' hr => ?_
    rw [(hstart x).1]
    rw [(hstart y).1] at hr
    exact hxy j t' c' r'' hr
  · exact List.mem_map.mpr ⟨_, hmem, if_pos rfl⟩
  · exact fun x hx hne => List.mem_map.mpr ⟨x, hx, if_neg hne⟩
  · intro y hy _
    obtain ⟨x, hx, rfl⟩ := List.mem_map.mp hy
    exact ⟨x, hx, (hstart x).1.symm⟩

end

end System

end Yabiir
