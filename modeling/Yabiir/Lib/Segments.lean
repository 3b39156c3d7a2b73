/-
  Yabiir.Lib.Segments

  A log cut into numbered segments, each a list of operations on keys.  Replayed
  in ascending order, the last operation on a key is the one that counts: it is
  in the highest segment that names the key (`lastOn_flatMap`), and most of what
  may happen to the segments leaves it what it is.
-/

import Mathlib.Data.List.Infix
import Mathlib.Logic.Function.Basic

namespace Yabiir

variable {κ ω : Type} [DecidableEq κ]

/-- The last operation on `key`. -/
def lastOn (key : κ) (ops : List (κ × ω)) : Option ω :=
  ((ops.filter fun op => op.1 = key).map Prod.snd).getLast?

variable {key : κ} {ops ops' : List (κ × ω)} {op : ω}

@[simp] theorem lastOn_nil (key : κ) : lastOn key ([] : List (κ × ω)) = none := rfl

/-- Of two lists the second counts, where it names the key. -/
theorem lastOn_append (key : κ) (ops ops' : List (κ × ω)) :
    lastOn key (ops ++ ops') = (lastOn key ops').or (lastOn key ops) := by
  unfold lastOn
  rw [List.filter_append, List.map_append, List.getLast?_append]

theorem lastOn_singleton (key key' : κ) (op : ω) :
    lastOn key [(key', op)] = if key' = key then some op else none := by
  unfold lastOn
  by_cases h : key' = key <;> simp [h]

theorem mem_of_lastOn (h : lastOn key ops = some op) : (key, op) ∈ ops := by
  obtain ⟨⟨key', op'⟩, hfilter, rfl⟩ := List.mem_map.mp (List.mem_of_getLast? h)
  obtain ⟨hmem, hkey⟩ := List.mem_filter.mp hfilter
  have hkey' : key' = key := by simpa using hkey
  exact hkey' ▸ hmem

/-- A key that is named has a last operation. -/
theorem lastOn_of_mem (h : (key, op) ∈ ops) : ∃ op', lastOn key ops = some op' := by
  have hmem : op ∈ (ops.filter fun op => op.1 = key).map Prod.snd :=
    List.mem_map.mpr ⟨(key, op), List.mem_filter.mpr ⟨h, by simp⟩, rfl⟩
  exact ⟨_, List.getLast?_eq_some_getLast (List.ne_nil_of_mem hmem)⟩

/-! ## Segments -/

/-- Segments by number. -/
abbrev Segments (κ ω : Type) := Nat → Option (List (κ × ω))

namespace Segments

/-- The last operation on `key` in segment `id` is `op`. -/
def LastIn (segs : Segments κ ω) (key : κ) (id : Nat) (op : ω) : Prop :=
  ∃ ops, segs id = some ops ∧ lastOn key ops = some op

/-- The last operation on `key` in all segments is `op`, in segment `id`. -/
def Newest (segs : Segments κ ω) (key : κ) (id : Nat) (op : ω) : Prop :=
  segs.LastIn key id op ∧ ∀ id', id < id' → ∀ op', ¬ segs.LastIn key id' op'

/-- The segments outside `X`. -/
noncomputable def off (segs : Segments κ ω) (X : Nat → Prop) : Segments κ ω := open Classical in
  fun id => if X id then none else segs id

variable {segs segs' : Segments κ ω} {X Y : Nat → Prop} {id id' : Nat} {op' : ω}

theorem LastIn.unique (h : segs.LastIn key id op) (h' : segs.LastIn key id op') : op = op' := by
  obtain ⟨ops, hops, hlast⟩ := h
  obtain ⟨ops', hops', hlast'⟩ := h'
  cases hops.symm.trans hops'
  exact Option.some.inj (hlast.symm.trans hlast')

/-- Only one segment has the newest operation. -/
theorem Newest.unique (h : segs.Newest key id op) (h' : segs.Newest key id' op') :
    id = id' ∧ op = op' := by
  have heq : id = id' := by
    rcases Nat.lt_trichotomy id id' with hlt | heq | hgt
    · exact absurd h'.1 (h.2 id' hlt op')
    · exact heq
    · exact absurd h.1 (h'.2 id hgt op)
  subst heq
  exact ⟨rfl, h.1.unique h'.1⟩

theorem Newest.le (h : segs.Newest key id op) (h' : segs.LastIn key id' op') : id' ≤ id := by
  by_contra hlt
  exact h.2 id' (Nat.lt_of_not_le hlt) op' h'

/-- Where a key is named in some segment up to a greatest one, one operation is
    the newest. -/
theorem exists_newest {n : Nat} (htop : ∀ id op, segs.LastIn key id op → id ≤ n)
    (h : segs.LastIn key id op) : ∃ id op, segs.Newest key id op := by
  induction n generalizing id op with
  | zero =>
    refine ⟨id, op, h, fun id' hlt op' h' => ?_⟩
    have := htop id' op' h'
    omega
  | succ n ih =>
    by_cases hn : ∃ op, segs.LastIn key (n + 1) op
    · obtain ⟨op, hn⟩ := hn
      refine ⟨n + 1, op, hn, fun id' hlt op' h' => ?_⟩
      have := htop id' op' h'
      omega
    · refine ih (fun id op h => ?_) h
      have hle := htop id op h
      have hne : id ≠ n + 1 := fun heq => hn ⟨op, heq ▸ h⟩
      omega

theorem LastIn.congr (h : segs.LastIn key id op) (heq : segs' id = segs id) :
    segs'.LastIn key id op := by
  obtain ⟨ops, hops, hlast⟩ := h
  exact ⟨ops, heq.trans hops, hlast⟩

theorem lastIn_off : (segs.off X).LastIn key id op ↔ segs.LastIn key id op ∧ ¬ X id := by
  unfold LastIn off
  by_cases hX : X id <;> simp [hX]

theorem Newest.off (h : segs.Newest key id op) (hX : ¬ X id) : (segs.off X).Newest key id op :=
  ⟨lastIn_off.mpr ⟨h.1, hX⟩, fun id' hlt op' h' => h.2 id' hlt op' (lastIn_off.mp h').1⟩

/-! ### Changing one segment -/

theorem lastIn_update {seg : Option (List (κ × ω))} :
    LastIn (Function.update segs id seg) key id' op ↔
      (id' = id ∧ ∃ ops, seg = some ops ∧ lastOn key ops = some op) ∨
        id' ≠ id ∧ segs.LastIn key id' op := by
  unfold LastIn
  by_cases h : id' = id
  · subst h
    simp
  · simp [h]

omit [DecidableEq κ] in
/-- A segment changed among those left. -/
theorem off_update {seg : Option (List (κ × ω))} (hX : ¬ X id) :
    Segments.off (Function.update segs id seg) X = Function.update (segs.off X) id seg := by
  funext id'
  unfold off
  by_cases h : id' = id
  · subst h
    simp [hX]
  · simp [h]

theorem newest_congr (h : ∀ id op, segs'.LastIn key id op ↔ segs.LastIn key id op) :
    segs'.Newest key id op ↔ segs.Newest key id op := by
  simp [Newest, h]

/-- A new segment without operations. -/
theorem lastIn_update_nil (hnone : segs id = none) :
    LastIn (Function.update segs id (some [])) key id' op ↔ segs.LastIn key id' op := by
  rw [lastIn_update]
  constructor
  · rintro (⟨-, ops, h, hlast⟩ | ⟨-, h⟩)
    · cases h
      cases hlast
    · exact h
  · intro h
    refine Or.inr ⟨?_, h⟩
    rintro rfl
    obtain ⟨ops, hops, -⟩ := h
    cases hnone.symm.trans hops

/-- An operation on another key. -/
theorem lastIn_append_of_ne (hops : segs id = some ops) {key' : κ} (hne : key' ≠ key) :
    LastIn (Function.update segs id (some (ops ++ [(key', op')]))) key id' op ↔
      segs.LastIn key id' op := by
  rw [lastIn_update]
  have hsame : lastOn key (ops ++ [(key', op')]) = lastOn key ops := by
    rw [lastOn_append, lastOn_singleton, if_neg hne]
    rfl
  constructor
  · rintro (⟨rfl, ops', h, hlast⟩ | ⟨-, h⟩)
    · cases h
      exact ⟨ops, hops, hsame.symm.trans hlast⟩
    · exact h
  · intro h
    by_cases heq : id' = id
    · subst heq
      obtain ⟨ops', hops', hlast⟩ := h
      cases hops.symm.trans hops'
      exact Or.inl ⟨rfl, _, rfl, hsame.trans hlast⟩
    · exact Or.inr ⟨heq, h⟩

/-- An operation appended where no higher segment names its key is the newest. -/
theorem newest_append (htop : ∀ id', id < id' → ∀ op, ¬ segs.LastIn key id' op) :
    Newest (Function.update segs id (some (ops ++ [(key, op)]))) key id op := by
  constructor
  · refine lastIn_update.mpr (Or.inl ⟨rfl, _, rfl, ?_⟩)
    rw [lastOn_append, lastOn_singleton, if_pos rfl]
    rfl
  · intro id' hlt op' h
    rcases lastIn_update.mp h with ⟨rfl, -⟩ | ⟨-, h⟩
    · exact Nat.lt_irrefl _ hlt
    · exact htop id' hlt op' h

/-- With a segment gone, what is newest was newest before, or comes next below
    it. -/
theorem newest_remove (h : Newest (Function.update segs id none) key id' op) :
    segs.Newest key id' op ∨ (∃ op', segs.Newest key id op') ∧ id' < id ∧
      segs.LastIn key id' op ∧ ∀ mid, id' < mid → mid < id → ∀ op, ¬ segs.LastIn key mid op := by
  obtain ⟨hlast, hnone⟩ := h
  rcases lastIn_update.mp hlast with ⟨-, ops, hops, -⟩ | ⟨hne, hlast⟩
  · cases hops
  have hothers : ∀ mid, id' < mid → mid ≠ id → ∀ op, ¬ segs.LastIn key mid op :=
    fun mid hlt hmid op h => hnone mid hlt op (lastIn_update.mpr (Or.inr ⟨hmid, h⟩))
  by_cases hgone : id' < id ∧ ∃ op', segs.LastIn key id op'
  · obtain ⟨hlt, op', hgone⟩ := hgone
    refine Or.inr ⟨⟨op', hgone, fun mid hgt => ?_⟩, hlt, hlast, fun mid hmid hmid' => ?_⟩
    · exact hothers mid (hlt.trans hgt) (Nat.ne_of_gt hgt)
    · exact hothers mid hmid (Nat.ne_of_lt hmid')
  · refine Or.inl ⟨hlast, fun mid hlt op h => ?_⟩
    by_cases hmid : mid = id
    · subst hmid
      exact hgone ⟨hlt, op, h⟩
    · exact hothers mid hlt hmid op h

/-! ### Replaying -/

/-- Replaying the segments of an ascending list, the last operation on a key is
    the newest one. -/
theorem lastOn_flatMap {ids : List Nat} (hsorted : ids.Pairwise (· < ·))
    (hids : ∀ id, id ∈ ids ↔ (segs id).isSome) :
    lastOn key (ids.flatMap fun id => (segs id).getD []) = some op ↔
      ∃ id, segs.Newest key id op := by
  -- the induction takes the highest segments off one by one
  have hlist : ∀ ids : List Nat, ids.Pairwise (· < ·) →
      (lastOn key (ids.flatMap fun id => (segs id).getD []) = some op ↔
        ∃ id ∈ ids, lastOn key ((segs id).getD []) = some op ∧
          ∀ id' ∈ ids, id < id' → lastOn key ((segs id').getD []) = none) := by
    intro ids
    induction ids using List.reverseRecOn with
    | nil => simp
    | append_singleton ids top ih =>
      intro hsorted
      obtain ⟨hsorted', -, hlt⟩ := List.pairwise_append.mp hsorted
      have hlt : ∀ id ∈ ids, id < top := fun id hid => hlt id hid top (by simp)
      rw [List.flatMap_append, lastOn_append, List.flatMap_singleton]
      cases htop : lastOn key ((segs top).getD []) with
      | some op' =>
        simp only [Option.some_or, Option.some.injEq]
        constructor
        · rintro rfl
          refine ⟨top, by simp, htop, fun id' hid' hgt => ?_⟩
          rcases List.mem_append.mp hid' with hid' | hid'
          · exact absurd (hlt id' hid') (Nat.lt_asymm hgt)
          · exact absurd (List.mem_singleton.mp hid') (Nat.ne_of_gt hgt)
        · rintro ⟨id, hid, hlast, hnone⟩
          rcases List.mem_append.mp hid with hid | hid
          · cases htop.symm.trans (hnone top (by simp) (hlt id hid))
          · rw [List.mem_singleton.mp hid, htop] at hlast
            exact Option.some.inj hlast
      | none =>
        rw [Option.none_or, ih hsorted']
        constructor
        · rintro ⟨id, hid, hlast, hnone⟩
          refine ⟨id, List.mem_append_left _ hid, hlast, fun id' hid' hgt => ?_⟩
          rcases List.mem_append.mp hid' with hid' | hid'
          · exact hnone id' hid' hgt
          · rw [List.mem_singleton.mp hid', htop]
        · rintro ⟨id, hid, hlast, hnone⟩
          rcases List.mem_append.mp hid with hid | hid
          · exact ⟨id, hid, hlast, fun id' hid' => hnone id' (List.mem_append_left _ hid')⟩
          · rw [List.mem_singleton.mp hid, htop] at hlast
            cases hlast
  have hlast : ∀ id op', segs.LastIn key id op' ↔
      id ∈ ids ∧ lastOn key ((segs id).getD []) = some op' := by
    intro id op'
    unfold LastIn
    rw [hids]
    cases segs id <;> simp
  rw [hlist ids hsorted]
  constructor
  · rintro ⟨id, hid, h, hnone⟩
    refine ⟨id, (hlast id op).mpr ⟨hid, h⟩, fun id' hlt op' h' => ?_⟩
    obtain ⟨hid', h'⟩ := (hlast id' op').mp h'
    cases (hnone id' hid' hlt).symm.trans h'
  · rintro ⟨id, h, hnone⟩
    obtain ⟨hid, h⟩ := (hlast id op).mp h
    refine ⟨id, hid, h, fun id' hid' hlt => ?_⟩
    cases h' : lastOn key ((segs id').getD []) with
    | none => rfl
    | some op' => exact absurd ((hlast id' op').mpr ⟨hid', h'⟩) (hnone id' hlt op')

end Segments

end Yabiir
