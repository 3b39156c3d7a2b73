/-
  Yabiir.GroupCommit

  Group commit (`src/commit.rs`): threads that share one fsync.  The shared
  state is behind a mutex, which a thread holds from taking it to a `return`,
  to `drop` or to `Condvar::wait`; what it does meanwhile is one step here.  The
  fsync is made with the mutex released, so between the leader's two sections
  any number of other threads' steps may come.

  A parked thread is woken by `notify_all`, or for no reason at all, and then
  takes the mutex again like everyone else.
-/

import Yabiir.World

namespace Yabiir

namespace GroupCommit

/-- Where a thread is. -/
inductive Pc where
  | idle
  /-- In `commit`, about to take the mutex, for the first time or woken. -/
  | locking (targetGeneration : Nat)
  /-- In `cond_var.wait`. -/
  | parked (targetGeneration : Nat)
  /-- The leader, in `do_fsync`. -/
  | syncing (targetGeneration coversUpTo : Nat)
  /-- The leader with the fsync's result, about to take the mutex again. -/
  | reporting (targetGeneration coversUpTo : Nat) (result : Except IoError Unit)
  deriving DecidableEq

/-- The coordinator and the threads that call it. -/
structure Config where
  state : CommitState
  nFsyncCalls : Nat
  pcs : Nat → Pc

/-- `GroupCommit::new`. -/
def Config.new : Config := ⟨.new, 0, fun _ => .idle⟩

/-- What a thread does next: a call, or the next step of the `commit` it is in. -/
inductive Act where
  | recordPending
  | markAllDurable
  | commit (targetGeneration : Nat)
  /-- Take the mutex, and do what is done with it held. -/
  | lock
  /-- `do_fsync` returns. -/
  | fsync (result : Except IoError Unit)
  /-- Wake up though nobody notified. -/
  | wake
  deriving DecidableEq

/-- A thread's step, with the result of `commit` where it is its last. -/
structure Event where
  thread : Nat
  act : Act
  returned : Option (Except IoError Unit)

/-! ## The sections -/

/-- Where a turn of `commit`'s loop leaves the thread, and what it returns. -/
abbrev Turn := CommitState × Pc × Option (Except IoError Unit)

/-- A turn of the loop: return, become the leader, or wait. -/
def turn (state : CommitState) (targetGeneration : Nat) : Turn :=
  if state.maxDurableGeneration ≥ targetGeneration then (state, .idle, some (.ok ()))
  else if !state.isSyncing then
    ({ state with isSyncing := true }, .syncing targetGeneration state.pendingWrites, none)
  else (state, .parked targetGeneration, none)

/-- The state once the leader has entered its result. -/
def reported (state : CommitState) (coversUpTo : Nat) : Except IoError Unit → CommitState
  | .ok _ =>
    { state with
      isSyncing := false
      maxDurableGeneration := max state.maxDurableGeneration coversUpTo }
  | .error _ => { state with isSyncing := false }

/-- The leader's second section, its `notify_all` apart: `?` returns the error,
    and without one the loop goes on with the mutex held. -/
def report (state : CommitState) (targetGeneration coversUpTo : Nat)
    (result : Except IoError Unit) : Turn :=
  match result with
  | .ok _ => turn (reported state coversUpTo result) targetGeneration
  | .error e => (reported state coversUpTo result, .idle, some (.error e))

/-- `Condvar::notify_all`: whoever waits goes for the mutex. -/
def Pc.notified : Pc → Pc
  | .parked targetGeneration => .locking targetGeneration
  | pc => pc

namespace Config

variable (cfg : Config) (t : Nat)

def goto (pc : Pc) : Config := { cfg with pcs := Function.update cfg.pcs t pc }

def notifyAll : Config := { cfg with pcs := fun t => (cfg.pcs t).notified }

/-- Enter what a turn did. -/
def turned (r : Turn) : Config := { cfg.goto t r.2.1 with state := r.1 }

/-- The step of thread `t`, where it is one it can take.  (`pending_writes += 1`
    overflows with 2^64 writes, and panics where overflow is checked.) -/
def step : Act → Option (Config × Option (Except IoError Unit))
  | .recordPending =>
    match cfg.pcs t with
    | .idle =>
      if cfg.state.pendingWrites + 1 < 2 ^ 64 then
        some ({ cfg with state := cfg.state.recordPending.2 }, none)
      else none
    | _ => none
  | .markAllDurable =>
    match cfg.pcs t with
    | .idle => some ({ cfg.notifyAll with state := cfg.state.markAllDurable }, none)
    | _ => none
  | .commit targetGeneration =>
    match cfg.pcs t with
    | .idle => some (cfg.goto t (.locking targetGeneration), none)
    | _ => none
  | .lock =>
    match cfg.pcs t with
    | .locking targetGeneration =>
      let r := turn cfg.state targetGeneration
      some (cfg.turned t r, r.2.2)
    | .reporting targetGeneration coversUpTo result =>
      let r := report cfg.state targetGeneration coversUpTo result
      some (cfg.notifyAll.turned t r, r.2.2)
    | _ => none
  | .fsync result =>
    match cfg.pcs t with
    | .syncing targetGeneration coversUpTo =>
      some ({ cfg.goto t (.reporting targetGeneration coversUpTo result) with
        nFsyncCalls := cfg.nFsyncCalls + 1 }, none)
    | _ => none
  | .wake =>
    match cfg.pcs t with
    | .parked targetGeneration => some (cfg.goto t (.locking targetGeneration), none)
    | _ => none

end Config

/-- The steps of any number of threads, in any order, from `cfg₀`. -/
inductive Run (cfg₀ : Config) : List Event → Config → Prop where
  | refl : Run cfg₀ [] cfg₀
  | step {es : List Event} {cfg cfg' : Config} {t : Nat} {a : Act}
      {returned : Option (Except IoError Unit)} (h : Run cfg₀ es cfg)
      (hstep : cfg.step t a = some (cfg', returned)) : Run cfg₀ (es ++ [⟨t, a, returned⟩]) cfg'

/-! ## What a step does -/

/-- The thread is inside `do_fsync`, or about to report its result. -/
def Pc.leads : Pc → Bool
  | .syncing .. | .reporting .. => true
  | _ => false

def Pc.isParked : Pc → Bool
  | .parked _ => true
  | _ => false

/-- The generation the leader's fsync covers. -/
def Pc.covers : Pc → Nat
  | .syncing _ coversUpTo | .reporting _ coversUpTo _ => coversUpTo
  | _ => 0

@[simp] theorem Pc.leads_notified (pc : Pc) : pc.notified.leads = pc.leads := by
  cases pc <;> rfl

@[simp] theorem Pc.isParked_notified (pc : Pc) : pc.notified.isParked = false := by
  cases pc <;> rfl

@[simp] theorem Pc.covers_notified (pc : Pc) : pc.notified.covers = pc.covers := by
  cases pc <;> rfl

/-- What a step does, by the kind of step. -/
inductive Stepped (cfg : Config) (t : Nat) :
    Act → Config → Option (Except IoError Unit) → Prop where
  | recordPending (h : cfg.pcs t = .idle) :
      Stepped cfg t .recordPending { cfg with state := cfg.state.recordPending.2 } none
  | markAllDurable (h : cfg.pcs t = .idle) :
      Stepped cfg t .markAllDurable { cfg.notifyAll with state := cfg.state.markAllDurable } none
  | commit {target : Nat} (h : cfg.pcs t = .idle) :
      Stepped cfg t (.commit target) (cfg.goto t (.locking target)) none
  | turn {target : Nat} (h : cfg.pcs t = .locking target) :
      Stepped cfg t .lock (cfg.turned t (turn cfg.state target)) (turn cfg.state target).2.2
  | report {target covers : Nat} {result : Except IoError Unit}
      (h : cfg.pcs t = .reporting target covers result) :
      Stepped cfg t .lock (cfg.notifyAll.turned t (report cfg.state target covers result))
        (report cfg.state target covers result).2.2
  | fsync {target covers : Nat} {result : Except IoError Unit}
      (h : cfg.pcs t = .syncing target covers) :
      Stepped cfg t (.fsync result) { cfg.goto t (.reporting target covers result) with
        nFsyncCalls := cfg.nFsyncCalls + 1 } none
  | wake {target : Nat} (h : cfg.pcs t = .parked target) :
      Stepped cfg t .wake (cfg.goto t (.locking target)) none

variable {cfg cfg' : Config} {t : Nat} {a : Act} {returned : Option (Except IoError Unit)}

theorem stepped (h : cfg.step t a = some (cfg', returned)) : Stepped cfg t a cfg' returned := by
  cases a with
  | recordPending =>
    simp only [Config.step] at h
    split at h
    · split at h
      · cases h
        exact .recordPending ‹_›
      · cases h
    · cases h
  | markAllDurable =>
    simp only [Config.step] at h
    split at h
    · cases h
      exact .markAllDurable ‹_›
    · cases h
  | commit target =>
    simp only [Config.step] at h
    split at h
    · cases h
      exact .commit ‹_›
    · cases h
  | lock =>
    simp only [Config.step] at h
    split at h
    · cases h
      exact .turn ‹_›
    · cases h
      exact .report ‹_›
    · cases h
  | fsync result =>
    simp only [Config.step] at h
    split at h
    · cases h
      exact .fsync ‹_›
    · cases h
  | wake =>
    simp only [Config.step] at h
    split at h
    · cases h
      exact .wake ‹_›
    · cases h

namespace Config

@[simp] theorem state_goto (pc : Pc) : (cfg.goto t pc).state = cfg.state := rfl

@[simp] theorem state_notifyAll : cfg.notifyAll.state = cfg.state := rfl

theorem pcs_goto (pc : Pc) (u : Nat) :
    (cfg.goto t pc).pcs u = if u = t then pc else cfg.pcs u := by
  simp only [goto, Function.update_apply]

/-- Where a thread ends up does not depend on where it was before. -/
theorem turned_of_idle (state : CommitState) (r : Turn) :
    Config.turned { cfg.goto t .idle with state } t r = cfg.turned t r := by
  simp [turned, goto]

end Config

/-! ## The invariant -/

/-- One thread leads while an fsync is in flight, and none otherwise; who is
    parked waits for the leader. -/
structure Inv (cfg : Config) : Prop where
  syncing : cfg.state.isSyncing = true ↔ ∃ t, (cfg.pcs t).leads = true
  alone : ∀ t t', (cfg.pcs t).leads = true → (cfg.pcs t').leads = true → t = t'
  parked : ∀ t, (cfg.pcs t).isParked = true → cfg.state.isSyncing = true
  durable : cfg.state.maxDurableGeneration ≤ cfg.state.pendingWrites
  covers : ∀ t, (cfg.pcs t).covers ≤ cfg.state.pendingWrites

theorem inv_new : Inv .new where
  syncing := by simp [Config.new, CommitState.new, Pc.leads]
  alone := fun t t' h => by cases h
  parked := fun t h => by cases h
  durable := le_rfl
  covers := fun _ => le_rfl

/-- A thread that does not lead goes where it does not lead. -/
theorem Inv.goto (h : Inv cfg) {pc : Pc} (ht : (cfg.pcs t).leads = false) (hpc : pc.leads = false)
    (hparked : pc.isParked = true → cfg.state.isSyncing = true) : Inv (cfg.goto t pc) := by
  have hleads : ∀ u, ((cfg.goto t pc).pcs u).leads = (cfg.pcs u).leads := by
    intro u
    rw [Config.pcs_goto]
    split
    · rename_i heq
      rw [heq, hpc, ht]
    · rfl
  refine ⟨?_, ?_, fun u hu => ?_, h.durable, fun u => ?_⟩
  · simp only [hleads]
    exact h.syncing
  · simp only [hleads]
    exact h.alone
  · rw [Config.pcs_goto] at hu
    split at hu
    · exact hparked hu
    · exact h.parked u hu
  · rw [Config.pcs_goto]
    split
    · have hzero : pc.covers = 0 := by
        cases pc with
        | syncing target covers => cases hpc
        | reporting target covers result => cases hpc
        | _ => rfl
      rw [hzero]
      exact Nat.zero_le _
    · exact h.covers u

theorem Inv.notifyAll (h : Inv cfg) : Inv cfg.notifyAll where
  syncing := by
    simp only [Config.notifyAll, Pc.leads_notified]
    exact h.syncing
  alone := by
    simp only [Config.notifyAll, Pc.leads_notified]
    exact h.alone
  parked := fun u hu => by
    rw [Config.notifyAll, Pc.isParked_notified] at hu
    cases hu
  durable := h.durable
  covers := by
    simp only [Config.notifyAll, Pc.covers_notified]
    exact h.covers

/-- A turn of the loop by a thread that does not lead. -/
theorem Inv.turned (h : Inv cfg) (ht : (cfg.pcs t).leads = false) (target : Nat) :
    Inv (cfg.turned t (turn cfg.state target)) := by
  unfold turn
  split
  · exact h.goto ht rfl fun hp => by cases hp
  · split
    · -- nobody leads, so `t` is the only leader
      rename_i hidle
      have hnone : ∀ u, (cfg.pcs u).leads = false := by
        intro u
        apply Bool.eq_false_of_not_eq_true
        intro hu
        rw [h.syncing.mpr ⟨u, hu⟩] at hidle
        cases hidle
      have hleads : ∀ u, ((cfg.goto t (.syncing target cfg.state.pendingWrites)).pcs u).leads = true
          ↔ u = t := by
        intro u
        rw [Config.pcs_goto]
        split
        · rename_i heq
          exact iff_of_true rfl heq
        · rename_i hne
          rw [hnone u]
          exact iff_of_false Bool.false_ne_true hne
      refine ⟨iff_of_true rfl ⟨t, (hleads t).mpr rfl⟩, fun u u' hu hu' => ?_, fun _ _ => rfl,
        h.durable, fun u => ?_⟩
      · exact ((hleads u).mp hu).trans ((hleads u').mp hu').symm
      · show ((cfg.goto t _).pcs u).covers ≤ cfg.state.pendingWrites
        rw [Config.pcs_goto]
        split
        · exact le_rfl
        · exact h.covers u
    · rename_i hbusy
      exact h.goto ht rfl fun _ => by simpa using hbusy

/-- The leader enters its result and gives up the lead. -/
theorem Inv.unlead (h : Inv cfg) {target covers : Nat} {result : Except IoError Unit}
    (ht : cfg.pcs t = .reporting target covers result) :
    Inv { cfg.notifyAll.goto t .idle with state := reported cfg.state covers result } := by
  have hleads : ∀ u, ((cfg.notifyAll.goto t .idle).pcs u).leads = false := by
    intro u
    rw [Config.pcs_goto]
    split
    · rfl
    · rename_i hne
      apply Bool.eq_false_of_not_eq_true
      intro hu
      rw [Config.notifyAll, Pc.leads_notified] at hu
      exact hne (h.alone u t hu (by rw [ht]; rfl))
  have hstate : (reported cfg.state covers result).isSyncing = false ∧
      (reported cfg.state covers result).pendingWrites = cfg.state.pendingWrites ∧
      (reported cfg.state covers result).maxDurableGeneration ≤ cfg.state.pendingWrites := by
    have hcovers := h.covers t
    rw [ht] at hcovers
    cases result with
    | ok _ => exact ⟨rfl, rfl, max_le h.durable hcovers⟩
    | error e => exact ⟨rfl, rfl, h.durable⟩
  obtain ⟨hidle, hpending, hdurable⟩ := hstate
  refine ⟨?_, fun u u' hu => ?_, fun u hu => ?_, ?_, fun u => ?_⟩
  · rw [hidle]
    exact iff_of_false Bool.false_ne_true fun ⟨u, hu⟩ => by cases (hleads u).symm.trans hu
  · cases (hleads u).symm.trans hu
  · have hu' : ((cfg.notifyAll.goto t .idle).pcs u).isParked = true := hu
    rw [Config.pcs_goto] at hu'
    split at hu'
    · cases hu'
    · rw [Config.notifyAll, Pc.isParked_notified] at hu'
      cases hu'
  · rw [hpending]
    exact hdurable
  · rw [hpending]
    show ((cfg.notifyAll.goto t .idle).pcs u).covers ≤ _
    rw [Config.pcs_goto]
    split
    · exact Nat.zero_le _
    · rw [Config.notifyAll, Pc.covers_notified]
      exact h.covers u

/-- Whoever takes it, a step keeps the invariant. -/
theorem Inv.step (h : Inv cfg) (hs : Stepped cfg t a cfg' returned) : Inv cfg' := by
  cases hs with
  | recordPending ht =>
    refine ⟨h.syncing, h.alone, h.parked, ?_, fun u => ?_⟩
    · exact h.durable.trans (Nat.le_succ _)
    · exact (h.covers u).trans (Nat.le_succ _)
  | markAllDurable ht =>
    have hn := h.notifyAll
    exact ⟨hn.syncing, hn.alone, hn.parked, le_rfl, hn.covers⟩
  | commit ht => exact h.goto (by rw [ht]; rfl) rfl fun hp => by cases hp
  | turn ht => exact h.turned (by rw [ht]; rfl) _
  | @report target covers result ht =>
    have hreported := h.unlead ht
    cases result with
    | ok _ =>
      have hidle : (cfg.notifyAll.goto t .idle).pcs t = .idle := by
        rw [Config.pcs_goto, if_pos rfl]
      have hturned := Inv.turned hreported (congrArg Pc.leads hidle) target
      rw [Config.turned_of_idle] at hturned
      exact hturned
    | error e => exact hreported
  | @fsync target covers result ht =>
    have hleads : ∀ u, ((cfg.goto t (.reporting target covers result)).pcs u).leads
        = (cfg.pcs u).leads := by
      intro u
      rw [Config.pcs_goto]
      split
      · rename_i heq
        rw [heq, ht]
        rfl
      · rfl
    refine ⟨?_, ?_, fun u hu => ?_, h.durable, fun u => ?_⟩
    · simp only [hleads]
      exact h.syncing
    · simp only [hleads]
      exact h.alone
    · have hu' : ((cfg.goto t (.reporting target covers result)).pcs u).isParked = true := hu
      rw [Config.pcs_goto] at hu'
      split at hu'
      · cases hu'
      · exact h.parked u hu'
    · show ((cfg.goto t (.reporting target covers result)).pcs u).covers ≤ _
      rw [Config.pcs_goto]
      split
      · have hcovers := h.covers t
        rw [ht] at hcovers
        exact hcovers
      · exact h.covers u
  | wake ht => exact h.goto (by rw [ht]; rfl) rfl fun hp => by cases hp

theorem Run.inv {es : List Event} (h : Run .new es cfg) : Inv cfg := by
  induction h with
  | refl => exact inv_new
  | step _ hstep ih => exact ih.step (stepped hstep)

/-! ## Durable generations -/

theorem le_reported (state : CommitState) (covers : Nat) (result : Except IoError Unit) :
    state.maxDurableGeneration ≤ (reported state covers result).maxDurableGeneration := by
  cases result with
  | ok _ => exact le_max_left ..
  | error e => exact le_rfl

theorem turn_maxDurableGeneration (state : CommitState) (target : Nat) :
    (turn state target).1.maxDurableGeneration = state.maxDurableGeneration := by
  unfold turn
  split
  · rfl
  · split <;> rfl

/-- No step takes durability back. -/
theorem Inv.step_le (h : Inv cfg) (hs : Stepped cfg t a cfg' returned) :
    cfg.state.maxDurableGeneration ≤ cfg'.state.maxDurableGeneration := by
  cases hs with
  | recordPending ht => exact le_rfl
  | markAllDurable ht => exact h.durable
  | commit ht => exact le_rfl
  | turn ht => exact (turn_maxDurableGeneration ..).ge
  | @report target covers result ht =>
    apply (le_reported cfg.state covers result).trans
    cases result with
    | ok _ => exact (turn_maxDurableGeneration ..).ge
    | error e => exact le_rfl
  | fsync ht => exact le_rfl
  | wake ht => exact le_rfl

theorem Run.le {es es' : List Event} (h : Run .new es cfg) (h' : Run cfg es' cfg') :
    cfg.state.maxDurableGeneration ≤ cfg'.state.maxDurableGeneration := by
  suffices hboth : Inv cfg' ∧
      cfg.state.maxDurableGeneration ≤ cfg'.state.maxDurableGeneration from hboth.2
  induction h' with
  | refl => exact ⟨h.inv, le_rfl⟩
  | step _ hstep ih =>
    have hs := stepped hstep
    exact ⟨ih.1.step hs, ih.2.trans (ih.1.step_le hs)⟩

/-! ## Whose error it is -/

/-- The last thing thread `t` did is that its fsync returned `result`. -/
def LastSynced (es : List Event) (t : Nat) (result : Except IoError Unit) : Prop :=
  ∃ es₁ es₂, es = es₁ ++ ⟨t, .fsync result, none⟩ :: es₂ ∧ ∀ e ∈ es₂, e.thread ≠ t

theorem LastSynced.append {es : List Event} {result : Except IoError Unit}
    (h : LastSynced es t result) {e : Event} (he : e.thread ≠ t) :
    LastSynced (es ++ [e]) t result := by
  obtain ⟨es₁, es₂, rfl, hes₂⟩ := h
  refine ⟨es₁, es₂ ++ [e], by simp, fun e' he' => ?_⟩
  rcases List.mem_append.mp he' with h | h
  · exact hes₂ e' h
  · rw [List.mem_singleton.mp h]
    exact he

def Pc.isReporting : Pc → Bool
  | .reporting .. => true
  | _ => false

theorem notified_eq_reporting {pc : Pc} {target covers : Nat} {result : Except IoError Unit}
    (h : pc.notified = .reporting target covers result) : pc = .reporting target covers result := by
  cases pc with
  | parked target' => cases h
  | _ => exact h

theorem isReporting_turn (state : CommitState) (target : Nat) :
    (turn state target).2.1.isReporting = false := by
  unfold turn
  split
  · rfl
  · split <;> rfl

theorem isReporting_report (state : CommitState) (target covers : Nat)
    (result : Except IoError Unit) :
    (report state target covers result).2.1.isReporting = false := by
  cases result with
  | ok _ => exact isReporting_turn ..
  | error e => rfl

/-- Who has a result to report had it before the step, unless it is the thread
    whose fsync just returned it. -/
theorem Stepped.reporting {u target covers : Nat} {result : Except IoError Unit}
    (hs : Stepped cfg t a cfg' returned) (hu : cfg'.pcs u = .reporting target covers result) :
    (u = t ∧ a = .fsync result ∧ returned = none) ∨
      (u ≠ t ∧ cfg.pcs u = .reporting target covers result) := by
  -- a thread that goes elsewhere is not the one in question
  have hgoto : ∀ {cfg : Config} {pc : Pc}, pc.isReporting = false →
      (cfg.goto t pc).pcs u = .reporting target covers result →
        u ≠ t ∧ cfg.pcs u = .reporting target covers result := by
    intro cfg pc hpc h
    rw [Config.pcs_goto] at h
    split at h
    · rw [h] at hpc
      cases hpc
    · exact ⟨‹_›, h⟩
  have hidle : cfg.pcs t = .idle → cfg.pcs u = .reporting target covers result → u ≠ t := by
    rintro ht h rfl
    cases ht.symm.trans h
  cases hs with
  | recordPending ht => exact Or.inr ⟨hidle ht hu, hu⟩
  | markAllDurable ht =>
    have hu' := notified_eq_reporting hu
    exact Or.inr ⟨hidle ht hu', hu'⟩
  | commit ht => exact Or.inr (hgoto rfl hu)
  | turn ht => exact Or.inr (hgoto (isReporting_turn ..) hu)
  | report ht =>
    obtain ⟨hne, hu'⟩ := hgoto (isReporting_report ..) hu
    exact Or.inr ⟨hne, notified_eq_reporting hu'⟩
  | @fsync target' covers' result' ht =>
    have hu' : (cfg.goto t (.reporting target' covers' result')).pcs u
        = .reporting target covers result := hu
    rw [Config.pcs_goto] at hu'
    split at hu'
    · cases hu'
      exact Or.inl ⟨‹_›, rfl, rfl⟩
    · exact Or.inr ⟨‹_›, hu'⟩
  | wake ht => exact Or.inr (hgoto rfl hu)

theorem Run.lastSynced {es : List Event} (h : Run .new es cfg) {target covers : Nat}
    {result : Except IoError Unit} (ht : cfg.pcs t = .reporting target covers result) :
    LastSynced es t result := by
  induction h generalizing t target covers result with
  | refl => cases ht
  | step _ hstep ih =>
    rcases (stepped hstep).reporting ht with ⟨rfl, rfl, rfl⟩ | ⟨hne, hu⟩
    · exact ⟨_, [], rfl, fun e he => absurd he List.not_mem_nil⟩
    · exact (ih hu).append hne.symm

theorem returned_turn (state : CommitState) (target : Nat) (e : IoError) :
    (turn state target).2.2 ≠ some (.error e) := by
  unfold turn
  split
  · exact fun h => by cases h
  · split <;> exact fun h => by cases h

/-- An error is returned by a leader that reports one. -/
theorem Stepped.returned_error {e : IoError}
    (hs : Stepped cfg t a cfg' (some (.error e))) :
    ∃ target covers, cfg.pcs t = .reporting target covers (.error e) := by
  generalize hret : some (Except.error e) = returned at hs
  cases hs with
  | turn ht => exact (returned_turn _ _ _ hret.symm).elim
  | @report target covers result ht =>
    cases result with
    | ok _ => exact (returned_turn _ _ _ hret.symm).elim
    | error e' =>
      cases hret
      exact ⟨target, covers, ht⟩
  | _ => cases hret

/-! ## The parked threads -/

/-- Whatever its fsync returned, the leader's report wakes who is parked. -/
theorem unparked_of_report {leader target covers target' : Nat} {result : Except IoError Unit}
    (hleader : cfg.pcs leader = .reporting target covers result) (ht : cfg.pcs t = .parked target')
    (hstep : cfg.step leader .lock = some (cfg', returned)) : cfg'.pcs t = .locking target' := by
  have hne : t ≠ leader := by
    rintro rfl
    cases hleader.symm.trans ht
  rw [Config.step, hleader] at hstep
  cases hstep
  show ((cfg.notifyAll.goto leader _).pcs t) = _
  rw [Config.pcs_goto, if_neg hne]
  show (cfg.pcs t).notified = _
  rw [ht]
  rfl

/-- Group commit, after any steps of any number of threads: an fsync is in
    flight if and only if one thread leads, and never two; a parked thread has a
    leader, whose report wakes it; what is durable is among what was recorded,
    stays durable, and is not advanced by an fsync that failed; and an error is
    returned to the thread whose own fsync was the one that failed with it. -/
theorem groupCommit_safe {es : List Event} (h : Run .new es cfg) :
    (cfg.state.isSyncing = true ↔ ∃! t, (cfg.pcs t).leads = true) ∧
    (∀ t t', (cfg.pcs t).leads = true → (cfg.pcs t').leads = true → t = t') ∧
    (∀ t target, cfg.pcs t = .parked target → cfg.state.isSyncing = true ∧
      ∃ leader, (cfg.pcs leader).leads = true ∧
        ∀ target' covers result, cfg.pcs leader = .reporting target' covers result →
          ∀ cfg' returned, cfg.step leader .lock = some (cfg', returned) →
            cfg'.pcs t = .locking target) ∧
    cfg.state.maxDurableGeneration ≤ cfg.state.pendingWrites ∧
    (∀ es' cfg', Run cfg es' cfg' →
      cfg.state.maxDurableGeneration ≤ cfg'.state.maxDurableGeneration) ∧
    (∀ t e cfg' returned, cfg.step t (.fsync (.error e)) = some (cfg', returned) →
      cfg'.state = cfg.state) ∧
    (∀ t target covers e cfg' returned, cfg.pcs t = .reporting target covers (.error e) →
      cfg.step t .lock = some (cfg', returned) →
        cfg'.state.maxDurableGeneration = cfg.state.maxDurableGeneration) ∧
    (∀ t a cfg' e, cfg.step t a = some (cfg', some (.error e)) → LastSynced es t (.error e)) := by
  have hinv := h.inv
  refine ⟨?_, hinv.alone, ?_, hinv.durable, fun es' cfg' h' => h.le h', ?_, ?_, ?_⟩
  · rw [hinv.syncing]
    constructor
    · rintro ⟨t, ht⟩
      exact ⟨t, ht, fun t' ht' => hinv.alone t' t ht' ht⟩
    · rintro ⟨t, ht, -⟩
      exact ⟨t, ht⟩
  · intro t target ht
    have hbusy := hinv.parked t (by rw [ht]; rfl)
    obtain ⟨leader, hleads⟩ := hinv.syncing.mp hbusy
    refine ⟨hbusy, leader, hleads, fun target' covers result hleader cfg' returned hstep => ?_⟩
    exact unparked_of_report hleader ht hstep
  · intro t e cfg' returned hstep
    cases stepped hstep
    rfl
  · intro t target covers e cfg' returned ht hstep
    rw [Config.step, ht] at hstep
    cases hstep
    rfl
  · intro t a cfg' e hstep
    obtain ⟨target, covers, ht⟩ := (stepped hstep).returned_error
    exact h.lastSynced ht

/-! ## A failed fsync -/

/-- Make the steps of a list. -/
def Config.play (cfg : Config) (es : List Event) : List (Nat × Act) → Option (List Event × Config)
  | [] => some (es, cfg)
  | (t, a) :: rest =>
    match cfg.step t a with
    | none => none
    | some (cfg', returned) => cfg'.play (es ++ [⟨t, a, returned⟩]) rest

theorem Run.of_play {cfg₀ : Config} {es es' : List Event} {steps : List (Nat × Act)}
    (h : Run cfg₀ es cfg) (hplay : cfg.play es steps = some (es', cfg')) : Run cfg₀ es' cfg' := by
  induction steps generalizing cfg es with
  | nil =>
    cases hplay
    exact h
  | cons step rest ih =>
    obtain ⟨t, a⟩ := step
    unfold Config.play at hplay
    split at hplay
    · cases hplay
    · exact ih (h.step ‹_›) hplay

/-- Two threads record a write each; the first one leads, the second one waits,
    and the fsync fails. -/
def failedFsync : List (Nat × Act) :=
  [(0, .recordPending), (1, .recordPending), (0, .commit 1), (0, .lock), (1, .commit 2),
    (1, .lock), (0, .fsync (.error .injected))]

/-- The follower takes over where the leader returns the error. -/
example : (Config.new.play [] (failedFsync ++ [(0, .lock), (1, .lock)])).map
    (fun r => (r.1.map Event.returned, r.2.pcs 0, r.2.pcs 1))
      = some (List.replicate 7 none ++ [some (.error .injected), none], .idle, .syncing 2 2) := by
  decide

theorem groupCommit_safe_failed : ∃ es cfg, Config.new.play [] failedFsync = some (es, cfg) ∧
    (∀ t a cfg' e, cfg.step t a = some (cfg', some (.error e)) → LastSynced es t (.error e)) := by
  obtain ⟨es, cfg, h⟩ : ∃ es cfg, Config.new.play [] failedFsync = some (es, cfg) := ⟨_, _, rfl⟩
  exact ⟨es, cfg, h, (groupCommit_safe (Run.refl.of_play h)).2.2.2.2.2.2.2⟩

end GroupCommit

end Yabiir
