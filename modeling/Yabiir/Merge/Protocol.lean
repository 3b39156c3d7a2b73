/-
  Yabiir.Merge.Protocol

  What a merge has done, as a record that each of its operations extends
  (`MergeLog`), and the protocol that says which operation may come next: an
  output is written only with an entry just found live, the keydir is repointed
  only at flushed copies, an input is removed only once every output is closed
  and every entry of every input is settled.  `Yabiir.Merge.Follows` shows that
  the code follows it; nothing else is used of the code afterwards.
-/

import Yabiir.Merge.Basic

namespace Yabiir

open Format

variable [Crc32Fast]

/-! ## The record -/

/-- One live entry copied: from which place of which input, and to which place
    of which output. -/
structure Copy where
  src : FileId
  pos : Nat
  entry : Entry
  dst : FileId
  dstPos : Nat
  deriving DecidableEq, Repr

namespace Copy

def record (c : Copy) : Record := ⟨c.entry.key, c.entry.value, false, c.entry.header.timestamp⟩

/-- The keydir entry of the original. -/
def old (c : Copy) : KeydirEntry := keydirEntryOf c.src c.pos c.entry

/-- The keydir entry of the copy. -/
def new (c : Copy) : KeydirEntry := keydirEntryOf c.dst c.dstPos c.entry

def hint (c : Copy) : Bytes := encodeHint c.entry.key c.entry.header (valuePosOf c.dstPos c.entry)

end Copy

def encodeHints (cs : List Copy) : Bytes := cs.flatMap Copy.hint

/-- The last four bytes of a complete hint file. -/
def hintTrailer (cs : List Copy) : Bytes := toLeBytes 4 (Crc32Fast.hash (encodeHints cs)).toNat

/-- An output of a merge: its data file's length at creation, the copies written
    to it, those whose hint record is written too, and how far the closing of
    the two files is.  `torn` and `hintTorn` hold what a failed write was to
    write, some of which may be in the file. -/
structure Output where
  id : FileId
  base : Nat
  copies : List Copy
  hinted : List Copy
  hintMade : Bool
  trailer : Bool
  dataFlushed : Bool
  hintFlushed : Bool
  torn : Bytes
  hintTorn : Bytes
  deriving DecidableEq, Repr

namespace Output

/-- An output whose data file was just opened. -/
def opened (id : FileId) (base : Nat) : Output where
  id := id
  base := base
  copies := []
  hinted := []
  hintMade := false
  trailer := false
  dataFlushed := true
  hintFlushed := true
  torn := []
  hintTorn := []

/-- The records of the copies. -/
def records (o : Output) : List Record := o.copies.map Copy.record

/-- The bytes written to the data file, a failed write apart. -/
def data (o : Output) : Bytes := encodeAll o.records

/-- The bytes written to the hint file, a failed write apart. -/
def hints (o : Output) : Bytes :=
  encodeHints o.hinted ++ if o.trailer then hintTrailer o.hinted else []

/-- With one more copy written, not yet flushed. -/
def push (o : Output) (c : Copy) : Output :=
  { o with copies := o.copies ++ [c], dataFlushed := false }

/-- With the hint record of the last copy written as well. -/
def pushHint (o : Output) : Output := { o with hinted := o.copies, hintFlushed := false }

/-- Nothing is left in the buffers. -/
def Drained (o : Output) : Prop := o.dataFlushed = true ∧ o.hintFlushed = true

/-- Both files are complete and flushed. -/
structure Closed (o : Output) : Prop where
  hinted : o.hinted = o.copies
  hintMade : o.hintMade = true
  trailer : o.trailer = true
  drained : o.Drained
  torn : o.torn = []
  hintTorn : o.hintTorn = []

/-- More records may be written. -/
structure Open (o : Output) : Prop where
  hintMade : o.hintMade = true
  trailer : o.trailer = false
  torn : o.torn = []
  hintTorn : o.hintTorn = []

end Output

/-- What a merge has done: the active id it read, its inputs and which of them
    it has yet to read, an id it claimed but has no file for, its outputs (the
    current one first), what it read, the live entries of the file being read it
    has yet to check, the entry just found live, the copies not yet repointed,
    the inputs left to remove, those removed and, of these, those whose removal
    failed; whether the active file was restored, an operation failed, and a flush failed on top of that. -/
structure MergeLog where
  activeAtStart : FileId
  inputs : List FileId
  unread : List FileId
  claimed : Option FileId
  outs : List Output
  reads : List (FileId × Bytes)
  todo : List (FileId × Nat × Entry)
  checked : Option (FileId × Nat × Entry)
  pending : List Copy
  toRemove : List FileId
  removed : List FileId
  kept : List FileId
  restored : Bool
  failed : Bool
  lost : Bool
  deriving DecidableEq, Repr

namespace MergeLog

/-- Before the first operation. -/
def init : MergeLog where
  activeAtStart := 0
  inputs := []
  unread := []
  claimed := none
  outs := []
  reads := []
  todo := []
  checked := none
  pending := []
  toRemove := []
  removed := []
  kept := []
  restored := false
  failed := false
  lost := false

/-- The ids the merge claimed. -/
def ids (g : MergeLog) : List FileId := g.claimed.toList ++ g.outs.map Output.id

/-- All copies made so far are in the kernel's hands, and have hint records. -/
def Flushed (g : MergeLog) : Prop := ∀ o ∈ g.outs, o.dataFlushed = true ∧ o.hinted = o.copies

/-- Every live entry of every input is copied and repointed, or was found dead. -/
structure Settled (g : MergeLog) : Prop where
  unread : g.unread = []
  todo : g.todo = []
  checked : g.checked = none
  pending : g.pending = []
  claimed : g.claimed = none
  closed : ∀ o ∈ g.outs, o.Closed

end MergeLog

/-- The live entries of an input, each with its file. -/
def liveEntries (fileId : FileId) (entries : List (Nat × Entry)) : List (FileId × Nat × Entry) :=
  (entries.filter fun p => !p.2.isTombstone).map fun p => (fileId, p.1, p.2)

/-! ## The protocol -/

namespace MergeLog

/-- After a failed operation. -/
def fail (g : MergeLog) : MergeLog := { g with failed := true }

/-- After the listing of the directory. -/
def list (g : MergeLog) (ids : List FileId) : MergeLog :=
  let inputs := ids.filter (· < g.activeAtStart)
  { g with inputs, unread := inputs, toRemove := inputs }

/-- After reading input `f`. -/
def read (g : MergeLog) (f : FileId) (rest : List FileId) (bytes : Bytes) : MergeLog :=
  { g with
    unread := rest
    reads := g.reads ++ [(f, bytes)]
    todo := liveEntries f (readAllEntries bytes) }

/-- The copy of `entry` that goes to output `o` next. -/
def copyTo (o : Output) (x : FileId × Nat × Entry) : Copy where
  src := x.1
  pos := x.2.1
  entry := x.2.2
  dst := o.id
  dstPos := o.base + o.data.length

/-- After writing the entry just checked to the current output. -/
def copied (g : MergeLog) (o : Output) (outs : List Output) (x : FileId × Nat × Entry) :
    MergeLog :=
  { g with
    checked := none
    pending := g.pending ++ [copyTo o x]
    outs := o.push (copyTo o x) :: outs }

/-- After flushing the data file of output `id`. -/
def flushedData (g : MergeLog) (id : FileId) : MergeLog :=
  { g with outs := g.outs.map fun o => if o.id = id then { o with dataFlushed := true } else o }

/-- After flushing the hint file of output `id`. -/
def flushedHint (g : MergeLog) (id : FileId) : MergeLog :=
  { g with outs := g.outs.map fun o => if o.id = id then { o with hintFlushed := true } else o }

section Ids

variable {g g' : MergeLog} {o o' : Output} {outs : List Output} {id : FileId}

omit [Crc32Fast]

theorem ids_mapOuts {f : Output → Output} (hf : ∀ o, (f o).id = o.id) :
    ({ g with outs := g.outs.map f } : MergeLog).ids = g.ids := by
  rw [ids, ids, List.map_map]
  exact congrArg _ (List.map_congr_left fun o _ => hf o)

theorem ids_flushedData : (g.flushedData id).ids = g.ids :=
  ids_mapOuts fun o => by split <;> rfl

theorem ids_flushedHint : (g.flushedHint id).ids = g.ids :=
  ids_mapOuts fun o => by split <;> rfl

theorem ids_setCurrent (houts : g.outs = o :: outs) (houts' : g'.outs = o' :: outs)
    (hid : o'.id = o.id) (hclaimed : g'.claimed = g.claimed) : g'.ids = g.ids := by
  rw [ids, ids, houts, houts', hclaimed, List.map_cons, List.map_cons, hid]

end Ids

/-- After a failed flush: bytes may be lost if it was the last attempt. -/
def failFlush (g : MergeLog) : MergeLog := { g with failed := true, lost := g.failed }

/-- The protocol of a merge. -/
def protocol : Prog.Protocol Op Op.Res MergeLog
  | g, .locked .activeFileId, a, g' => g = init ∧ g' = { g with activeAtStart := a }
  | g, .discover, r, g' =>
    g.inputs = [] ∧ g.ids = [] ∧
      g' = match r with
        | .ok ids => g.list ids
        | .error _ => g.fail
  | g, .fetchAddFileId, id, g' =>
    g.claimed = none ∧ g.restored = false ∧ (∀ o ∈ g.outs, o.Closed) ∧
      g' = { g with claimed := some id }
  | g, .createData id, r, g' =>
    g.claimed = some id ∧ g.failed = false ∧
      g' = match r with
        | .ok base => { g with claimed := none, outs := .opened id base :: g.outs }
        | .error _ => g.fail
  | g, .createHint id, r, g' =>
    ∃ o outs, g.outs = o :: outs ∧ o.id = id ∧ (∃ base, o = .opened id base) ∧
      g' = match r with
        | .ok _ => { g with outs := { o with hintMade := true } :: outs }
        | .error _ => g.fail
  | g, .writeData id bytes, r, g' =>
    ∃ o outs x, g.outs = o :: outs ∧ o.id = id ∧ g.checked = some x ∧ o.Open ∧
      o.hinted = o.copies ∧ bytes = (copyTo o x).record.encode ∧
      g' = match r with
        | .ok _ => g.copied o outs x
        | .error _ =>
          ({ g with outs := { o with torn := bytes, dataFlushed := false } :: outs } : MergeLog).fail
  | g, .writeHint id bytes, r, g' =>
    ∃ o outs, g.outs = o :: outs ∧ o.id = id ∧ o.Open ∧
      ∃ o', ((∃ c, o.copies = o.hinted ++ [c] ∧ bytes = c.hint ∧ o' = o.pushHint) ∨
          o.hinted = o.copies ∧ o.dataFlushed = true ∧ bytes = hintTrailer o.hinted ∧
            o' = { o with trailer := true, hintFlushed := false }) ∧
        g' = match r with
          | .ok _ => { g with outs := o' :: outs }
          | .error _ =>
            ({ g with outs := { o with hintTorn := bytes, hintFlushed := false } :: outs } :
              MergeLog).fail
  | g, .flushData id, r, g' =>
    id ∈ g.outs.map Output.id ∧
      g' = match r with
        | .ok _ => g.flushedData id
        | .error _ => g.failFlush
  | g, .flushHint id, r, g' =>
    id ∈ g.outs.map Output.id ∧
      g' = match r with
        | .ok _ => g.flushedHint id
        | .error _ => g.failFlush
  | g, .syncData id, r, g' =>
    id ∈ g.outs.map Output.id ∧
      g' = match r with
        | .ok _ => g
        | .error _ => g.fail
  | g, .readFile f, r, g' =>
    ∃ rest, g.unread = f :: rest ∧ g.todo = [] ∧ g.checked = none ∧
      g' = match r with
        | .ok bytes => g.read f rest bytes
        | .error _ => g.fail
  | g, .keydirIsLive key f valuePos, live, g' =>
    ∃ pos entry rest, g.todo = (f, pos, entry) :: rest ∧ key = entry.key ∧
      valuePos = valuePosOf pos entry ∧ g.checked = none ∧
      g' = { g with todo := rest, checked := if live then some (f, pos, entry) else none }
  | g, .keydirCasRepoint key old new, _, g' =>
    ∃ c rest, g.pending = c :: rest ∧ key = c.entry.key ∧ old = c.old ∧ new = c.new ∧ g.Flushed ∧
      g' = { g with pending := rest }
  | g, .removeData f, r, g' =>
    g.Settled ∧ ∃ rest, g.toRemove = f :: rest ∧
      g' = { g with
        toRemove := rest
        removed := f :: g.removed
        kept := match r with
          | .error .injected => f :: g.kept
          | _ => g.kept }
  | g, .removeHint f, _, g' => f ∈ g.removed ∧ g' = g
  | g, .forget f, _, g' => f ∈ g.removed ∧ g' = g
  | g, .locked (.restoreActive h), r, g' =>
    g.Settled ∧ g.toRemove = [] ∧ (∀ o ∈ g.outs, o.id ≤ h) ∧
      g' = match r with
        | .ok _ => { g with restored := true }
        | .error _ => g.fail
  | _, _, _, _ => False

/-- What a merge that ends with a value has done. -/
def Succeeded (g : MergeLog) : Prop :=
  g.Settled ∧ g.toRemove = [] ∧ (g.outs = [] ∨ g.restored = true)

/-- What a merge that ends with an error has done. -/
def Failed (g : MergeLog) : Prop :=
  (g = init ∨ g.failed = true) ∧ (g.lost = true ∨ ∀ o ∈ g.outs, o.Drained)

end MergeLog

end Yabiir
