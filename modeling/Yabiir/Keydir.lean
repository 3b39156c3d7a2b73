/-
  Yabiir.Keydir

  The in-memory index (`src/keydir.rs`): for each live key the file, the place
  and the size of its newest value.
-/

import Yabiir.Lib.LeBytes
import Mathlib.Data.List.AList

namespace Yabiir

/-- A data file's id, a `u32` in the source. -/
abbrev FileId := Nat

/-- Location of one key's newest value. -/
structure KeydirEntry where
  fileId : FileId
  valueSize : Nat
  /-- Position of the value bytes, past the entry header and the key. -/
  valuePos : Nat
  timestamp : UInt32
  deriving DecidableEq, Repr

/-- The index: a finite map without duplicate keys.  The order of its entries
    stands for the arbitrary order of the source's hash map. -/
abbrev Keydir := AList fun _ : Bytes => KeydirEntry

namespace Keydir

def get (kd : Keydir) (key : Bytes) : Option KeydirEntry := kd.lookup key

/-- Insert or overwrite unconditionally: last write wins. -/
def put (kd : Keydir) (key : Bytes) (entry : KeydirEntry) : Keydir := kd.insert key entry

def remove (kd : Keydir) (key : Bytes) : Keydir := kd.erase key

/-- Overwrite `key`'s entry only if it is still exactly `expectedOld`; whether
    that happened is the first component. -/
def casRepoint (kd : Keydir) (key : Bytes) (expectedOld new : KeydirEntry) : Bool × Keydir :=
  if kd.get key = some expectedOld then (true, kd.put key new) else (false, kd)

/-- Every pair of the index, once each. -/
def snapshot (kd : Keydir) : List (Bytes × KeydirEntry) :=
  kd.entries.map fun p => (p.1, p.2)

variable (kd : Keydir) (key key' : Bytes) (entry : KeydirEntry)

@[simp] theorem get_empty : get ∅ key = none := AList.lookup_empty key

@[simp] theorem get_put_self : (kd.put key entry).get key = some entry :=
  AList.lookup_insert kd

theorem get_put_of_ne {key key' : Bytes} (h : key' ≠ key) :
    (kd.put key entry).get key' = kd.get key' :=
  AList.lookup_insert_ne h

theorem get_put : (kd.put key entry).get key' = if key' = key then some entry else kd.get key' := by
  split
  · rename_i h
    rw [h, get_put_self]
  · rename_i h
    exact get_put_of_ne kd entry h

@[simp] theorem get_remove_self : (kd.remove key).get key = none := AList.lookup_erase key kd

theorem get_remove_of_ne {key key' : Bytes} (h : key' ≠ key) :
    (kd.remove key).get key' = kd.get key' :=
  AList.lookup_erase_ne h

theorem get_remove : (kd.remove key).get key' = if key' = key then none else kd.get key' := by
  split
  · rename_i h
    rw [h, get_remove_self]
  · rename_i h
    exact get_remove_of_ne kd h

/-- A repoint touches no other key. -/
theorem get_casRepoint_of_ne {key key' : Bytes} (old new : KeydirEntry) (h : key' ≠ key) :
    (kd.casRepoint key old new).2.get key' = kd.get key' := by
  unfold casRepoint
  split
  · exact get_put_of_ne kd new h
  · rfl

/-- After a repoint the key has the new entry where the old one stood, and what
    it had before elsewhere. -/
theorem get_casRepoint_self (old new : KeydirEntry) :
    (kd.casRepoint key old new).2.get key
      = if kd.get key = some old then some new else kd.get key := by
  unfold casRepoint
  split <;> simp

theorem mem_snapshot : (key, entry) ∈ kd.snapshot ↔ kd.get key = some entry := by
  constructor
  · intro h
    obtain ⟨p, hp, he⟩ := List.mem_map.mp h
    cases he
    exact AList.mem_lookup_iff.mpr hp
  · intro h
    exact List.mem_map.mpr ⟨⟨key, entry⟩, AList.mem_lookup_iff.mp h, rfl⟩

/-- No key occurs twice in a snapshot. -/
theorem nodup_snapshot : (kd.snapshot.map Prod.fst).Nodup := by
  have h : kd.snapshot.map Prod.fst = kd.keys := by
    simp [snapshot, AList.keys, List.keys, Function.comp_def]
  rw [h]
  exact kd.keys_nodup

end Keydir

end Yabiir
