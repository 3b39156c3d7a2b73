/-
  Yabiir.Merge.Order

  The entries a merge finds live, in the order in which it finds them
  (`MergeLog.found`): each of them is copied before the next one is looked for,
  and the outputs hold the copies in that order.
-/

import Yabiir.Merge.Protocol

namespace Yabiir

open Format

variable [Crc32Fast]

/-- What a copy is a copy of. -/
def Copy.source (c : Copy) : FileId × Nat × Entry := (c.src, c.pos, c.entry)

namespace MergeLog

/-- All copies, the oldest first. -/
def copies (g : MergeLog) : List Copy := g.outs.reverse.flatMap Output.copies

/-- The entries found live so far. -/
def found (g : MergeLog) : List (FileId × Nat × Entry) :=
  g.copies.map Copy.source ++ g.checked.toList

variable {g g' : MergeLog}

omit [Crc32Fast] in
theorem copies_cons {o : Output} {outs : List Output} (h : g.outs = o :: outs) :
    g.copies = outs.reverse.flatMap Output.copies ++ o.copies := by
  rw [copies, h, List.reverse_cons, List.flatMap_append, List.flatMap_singleton]

omit [Crc32Fast] in
/-- What does not touch the copies of the current output leaves them all alone. -/
theorem copies_setCurrent {o o' : Output} {outs : List Output} (h : g.outs = o :: outs)
    (h' : g'.outs = o' :: outs) (hcopies : o'.copies = o.copies) : g'.copies = g.copies := by
  rw [copies_cons h, copies_cons h', hcopies]

omit [Crc32Fast] in
theorem copies_mapOuts {f : Output → Output} (h : g'.outs = g.outs.map f)
    (hcopies : ∀ o, (f o).copies = o.copies) : g'.copies = g.copies := by
  rw [copies, copies, h, ← List.map_reverse, List.flatMap_map]
  exact List.flatMap_congr fun o _ => hcopies o

/-- The copy of the entry just found is the last one. -/
theorem copies_copied {o : Output} {outs : List Output} (h : g.outs = o :: outs)
    (x : FileId × Nat × Entry) : (g.copied o outs x).copies = g.copies ++ [copyTo o x] := by
  have h' : (g.copied o outs x).outs = o.push (copyTo o x) :: outs := rfl
  rw [copies_cons h, copies_cons h', List.append_assoc]
  rfl

omit [Crc32Fast] in
theorem found_congr (hcopies : g'.copies = g.copies) (hchecked : g'.checked = g.checked) :
    g'.found = g.found := by
  rw [found, found, hcopies, hchecked]

omit [Crc32Fast] in
/-- With nothing left to be copied, what was found is what was copied. -/
theorem entries_of_found {found : List (FileId × Nat × Entry)} (h : g.found = found)
    (hchecked : g.checked = none) : g.copies.map Copy.entry = found.map fun x => x.2.2 := by
  rw [← h, MergeLog.found, hchecked, Option.toList_none, List.append_nil, List.map_map]
  rfl

/-- Only the writing of an entry makes a copy. -/
theorem copies_same {op : Op} {r : Op.Res op} (hR : protocol g op r g')
    (hop : ∀ id bytes, op ≠ .writeData id bytes) : g'.copies = g.copies := by
  cases op with
  | writeData id bytes => exact absurd rfl (hop id bytes)
  | locked s =>
    cases s with
    | append => exact hR.elim
    | activeFileId =>
      obtain ⟨rfl, rfl⟩ := hR
      rfl
    | restoreActive highest =>
      obtain ⟨-, -, -, rfl⟩ := hR
      cases r <;> rfl
  | discover =>
    obtain ⟨-, -, rfl⟩ := hR
    cases r <;> rfl
  | fetchAddFileId =>
    obtain ⟨-, -, -, rfl⟩ := hR
    rfl
  | createData id =>
    obtain ⟨-, -, rfl⟩ := hR
    cases r with
    | error e => rfl
    | ok base => exact (copies_cons rfl).trans (List.append_nil _)
  | createHint id =>
    obtain ⟨o, outs, houts, -, -, rfl⟩ := hR
    cases r with
    | error e => rfl
    | ok _ => exact copies_setCurrent houts rfl rfl
  | writeHint id bytes =>
    obtain ⟨o, outs, houts, -, -, o', ho', rfl⟩ := hR
    cases r with
    | error e => exact copies_setCurrent houts rfl rfl
    | ok _ =>
      rcases ho' with ⟨-, -, -, rfl⟩ | ⟨-, -, -, rfl⟩
      · exact copies_setCurrent houts rfl rfl
      · exact copies_setCurrent houts rfl rfl
  | flushData id | flushHint id =>
    obtain ⟨-, rfl⟩ := hR
    cases r with
    | error e => rfl
    | ok _ => exact copies_mapOuts rfl fun o => by split <;> rfl
  | syncData id =>
    obtain ⟨-, rfl⟩ := hR
    cases r <;> rfl
  | readFile f =>
    obtain ⟨rest, -, -, -, rfl⟩ := hR
    cases r <;> rfl
  | keydirIsLive key f pos =>
    obtain ⟨_, _, _, -, -, -, -, rfl⟩ := hR
    rfl
  | keydirCasRepoint key old new =>
    obtain ⟨c, rest, -, -, -, -, -, rfl⟩ := hR
    rfl
  | removeData f =>
    obtain ⟨-, rest, -, rfl⟩ := hR
    rfl
  | removeHint f | forget f =>
    obtain ⟨-, rfl⟩ := hR
    rfl
  | _ => exact hR.elim

/-- Writing the entry found makes it a copy; a failed write does not. -/
theorem copies_writeData {id : FileId} {bytes : Bytes} {r : Except IoError Unit}
    (hR : protocol g (.writeData id bytes) r g') :
    (g'.copies = g.copies ∧ g'.pending = g.pending ∧ g'.checked = g.checked) ∨
      ∃ o x, g.checked = some x ∧ g'.checked = none ∧ g'.copies = g.copies ++ [copyTo o x] ∧
        g'.pending = g.pending ++ [copyTo o x] := by
  obtain ⟨o, outs, x, houts, -, hx, -, -, -, rfl⟩ := hR
  cases r with
  | error e => exact Or.inl ⟨copies_setCurrent houts rfl rfl, rfl, rfl⟩
  | ok _ => exact Or.inr ⟨o, x, hx, rfl, copies_copied houts x, rfl⟩

/-- Apart from writing and from liveness checks, a merge stays with the entry it
    checked. -/
theorem checked_same {op : Op} {r : Op.Res op} (hR : protocol g op r g')
    (hwrite : ∀ id bytes, op ≠ .writeData id bytes)
    (hlive : ∀ key f pos, op ≠ .keydirIsLive key f pos) : g'.checked = g.checked := by
  cases op with
  | writeData id bytes => exact absurd rfl (hwrite id bytes)
  | keydirIsLive key f pos => exact absurd rfl (hlive key f pos)
  | locked s =>
    cases s with
    | append => exact hR.elim
    | activeFileId =>
      obtain ⟨rfl, rfl⟩ := hR
      rfl
    | restoreActive highest =>
      obtain ⟨-, -, -, rfl⟩ := hR
      cases r <;> rfl
  | discover | createData =>
    obtain ⟨-, -, rfl⟩ := hR
    cases r <;> rfl
  | fetchAddFileId =>
    obtain ⟨-, -, -, rfl⟩ := hR
    rfl
  | createHint id =>
    obtain ⟨_, _, -, -, -, rfl⟩ := hR
    cases r <;> rfl
  | writeHint id bytes =>
    obtain ⟨_, _, -, -, -, _, -, rfl⟩ := hR
    cases r <;> rfl
  | flushData | flushHint | syncData =>
    obtain ⟨-, rfl⟩ := hR
    cases r <;> rfl
  | readFile f =>
    obtain ⟨rest, -, -, -, rfl⟩ := hR
    cases r <;> rfl
  | keydirCasRepoint key old new =>
    obtain ⟨c, rest, -, -, -, -, -, rfl⟩ := hR
    rfl
  | removeData f =>
    obtain ⟨-, rest, -, rfl⟩ := hR
    rfl
  | removeHint f | forget f =>
    obtain ⟨-, rfl⟩ := hR
    rfl
  | _ => exact hR.elim

/-- Only a liveness check finds an entry. -/
theorem found_step {op : Op} {r : Op.Res op} (hR : protocol g op r g')
    (hop : ∀ key f pos, op ≠ .keydirIsLive key f pos) : g'.found = g.found := by
  by_cases hwrite : ∃ id bytes, op = .writeData id bytes
  · obtain ⟨id, bytes, rfl⟩ := hwrite
    rcases copies_writeData hR with ⟨hcopies, -, hchecked⟩ | ⟨o, x, hx, hchecked, hcopies, -⟩
    · exact found_congr hcopies hchecked
    · -- the entry found moves to the copies
      rw [found, hcopies, hchecked, found, hx, List.map_append, List.append_assoc]
      rfl
  · have hne : ∀ id bytes, op ≠ .writeData id bytes := fun id bytes heq => hwrite ⟨id, bytes, heq⟩
    exact found_congr (copies_same hR hne) (checked_same hR hne hop)

end MergeLog

end Yabiir
