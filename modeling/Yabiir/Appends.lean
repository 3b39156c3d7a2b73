/-
  Yabiir.Appends

  One active file under a sequence of appends, any of which may fail in a system
  call (`src/datafile.rs`).  The offset it tracks is the place where the next
  entry lands exactly as long as no entry was torn: no write of an entry that
  bypasses the buffer failed with some of its bytes in the file.
-/

import Yabiir.World

namespace Yabiir

open Format

variable [Crc32Fast]

/-! ## Calls -/

/-- The encoding of a record, with the length of its value. -/
def Record.encoded (r : Record) : EncodedEntry := encodeEntry r.key r.value r.tombstone r.timestamp

/-- The two ways to append an entry. -/
inductive AppendCall where
  | append (r : Record)
  | appendBuffered (r : Record)

namespace AppendCall

def record : AppendCall → Record
  | append r => r
  | appendBuffered r => r

def code : AppendCall → EngineM ActiveFile IoError (FileId × Nat × Nat)
  | append r => ActiveFile.append r.encoded
  | appendBuffered r => ActiveFile.appendBuffered r.encoded

/-- An active file and the world it is in. -/
abbrev State := ActiveFile × World

/-- One call, in which at most one system call fails (after it the call
    returns): its result and what it leaves. -/
def run (c : AppendCall) : Option Fault → State →
    (Except IoError (FileId × Nat × Nat) × ActiveFile) × World
  | none, (a, w) => c.code.run performBase a w
  | some f, (a, w) =>
    ((c.code a).execFault performBase (faultBase f) f.step w).getD (c.code.run performBase a w)

/-- A sequence of calls: the results, each with its record, and the last state. -/
def runAll : List (AppendCall × Option Fault) → State →
    List (Record × Except IoError (FileId × Nat × Nat)) × State
  | [], s => ([], s)
  | (c, fault?) :: rest, s =>
    let ((result, a), w) := c.run fault? s
    let (results, s') := runAll rest (a, w)
    ((c.record, result) :: results, s')

/-- A new or resumed active file. -/
def start (w : World) (fileId : FileId) : State :=
  (⟨fileId, (w.createData fileId).1⟩, (w.createData fileId).2)

end AppendCall

open AppendCall

/-! ## Offsets and places -/

/-- The file the active file writes, once its buffer is written out. -/
def fileBytes (s : AppendCall.State) : Bytes :=
  ((s.2.disk.data.lookup s.1.fileId).map FileState.logical).getD []

/-- The tracked offset is where the next entry will land. -/
def Tracks (s : AppendCall.State) : Prop := s.1.offset = (fileBytes s).length

/-- What a successful append returned is right: the value is where it says. -/
def Placed (bytes : Bytes) (fileId : FileId) :
    Record × Except IoError (FileId × Nat × Nat) → Prop
  | (r, .ok (id, valuePos, totalLen)) =>
    id = fileId ∧ totalLen = r.encode.length ∧ (bytes.drop valuePos).take r.value.length = r.value
  | (_, .error _) => True

/-- Writing `bytes` to the file fails after `n` bytes with some of `bytes`, not
    all, in the file: a write that bypasses the buffer got partly through. -/
def FileState.Tears (f : FileState) (bytes : Bytes) (n : Nat) : Prop :=
  bufCapacity ≤ bytes.length ∧ f.buffer.length < n ∧ n < f.buffer.length + bytes.length

/-- The call tears its entry. -/
def TearsEntry (c : AppendCall) (fault? : Option Fault) (s : AppendCall.State) : Prop :=
  ∃ f file, fault? = some f ∧ f.step = 0 ∧ s.2.disk.data.lookup s.1.fileId = some file ∧
    file.Tears c.record.encode f.wrote

/-- No call of the sequence tears its entry. -/
def NoneTears : List (AppendCall × Option Fault) → AppendCall.State → Prop
  | [], _ => True
  | (c, fault?) :: rest, s =>
    ¬ TearsEntry c fault? s ∧ NoneTears rest ((c.run fault? s).1.2, (c.run fault? s).2)

/-! ## One call -/

section

variable {f f' : FileState} {bytes : Bytes} {n : Nat}

omit [Crc32Fast] in
theorem tears_iff (h : f.writeAllFails bytes n = some f') :
    f.Tears bytes n ↔ n - f.buffer.length ≠ 0 := by
  have hlt := (FileState.logical_writeAllFails f bytes h).2.1
  constructor
  · rintro ⟨-, hn, -⟩
    omega
  · intro hn
    refine ⟨?_, by omega, by omega⟩
    unfold FileState.writeAllFails at h
    split at h
    · cases h
    · split at h
      · omega
      · dsimp only at h
        split at h
        · rename_i hcap
          exact hcap.1
        · cases h

omit [Crc32Fast] in
theorem writeAllFails_of_tears (h : f.Tears bytes n) :
    ∃ f', f.writeAllFails bytes n = some f' := by
  obtain ⟨hcap, hn, hlt⟩ := h
  unfold FileState.writeAllFails
  rw [if_neg (by omega), if_neg (by omega), if_pos ⟨hcap, by omega⟩]
  exact ⟨_, rfl⟩

end

/-- `append`, operation by operation. -/
theorem append_prog (r : Record) (a : ActiveFile) :
    ActiveFile.append r.encoded a = .act (.writeData a.fileId r.encode) fun
      | .error e => .ret (.error e, a)
      | .ok _ => .act (.flushData a.fileId) fun
        | .error e => .ret (.error e, { a with offset := a.offset + r.encode.length })
        | .ok _ => .ret (.ok (a.fileId, a.offset + (r.encode.length - r.value.length),
            r.encode.length), { a with offset := a.offset + r.encode.length }) := by
  refine congrArg (Prog.act _) (funext fun res => ?_)
  cases res with
  | error e => rfl
  | ok _ =>
    refine congrArg (Prog.act _) (funext fun res => ?_)
    cases res <;> rfl

theorem appendBuffered_prog (r : Record) (a : ActiveFile) :
    ActiveFile.appendBuffered r.encoded a = .act (.writeData a.fileId r.encode) fun
      | .error e => .ret (.error e, a)
      | .ok _ => .ret (.ok (a.fileId, a.offset + (r.encode.length - r.value.length),
          r.encode.length), { a with offset := a.offset + r.encode.length }) := by
  refine congrArg (Prog.act _) (funext fun res => ?_)
  cases res <;> rfl

/-- What a call does: it appends its entry, and returns where the value is or,
    when its flush fails, an error; or it fails in the write, and leaves the
    first `k` bytes of the entry. -/
inductive Appended (c : AppendCall) (fault? : Option Fault) (s : AppendCall.State) :
    (Except IoError (FileId × Nat × Nat) × ActiveFile) × World → Prop where
  | whole {result : Except IoError (FileId × Nat × Nat)} {a : ActiveFile} {w : World}
      (hresult : ∀ x, result = .ok x → x = (s.1.fileId,
        s.1.offset + (c.record.encode.length - c.record.value.length), c.record.encode.length))
      (hid : a.fileId = s.1.fileId) (hoffset : a.offset = s.1.offset + c.record.encode.length)
      (hbytes : fileBytes (a, w) = fileBytes s ++ c.record.encode)
      (hfile : ∃ file, w.disk.data.lookup s.1.fileId = some file) (htears : ¬ TearsEntry c fault? s) :
      Appended c fault? s ((result, a), w)
  | failed {e : IoError} {w : World} (k : Nat)
      (hbytes : fileBytes (s.1, w) = fileBytes s ++ c.record.encode.take k)
      (hlt : k < c.record.encode.length) (hfile : ∃ file, w.disk.data.lookup s.1.fileId = some file)
      (htears : TearsEntry c fault? s ↔ k ≠ 0) : Appended c fault? s ((.error e, s.1), w)

section

variable {c : AppendCall} {fault? : Option Fault} {s : AppendCall.State} {file : FileState}

omit [Crc32Fast] in
theorem fileBytes_of_lookup {s : AppendCall.State}
    (h : s.2.disk.data.lookup s.1.fileId = some file) : fileBytes s = file.logical := by
  simp [fileBytes, h]

/-- Without a failing system call the entry is appended, unless the kernel
    refuses the write. -/
theorem run_well (hfile : s.2.disk.data.lookup s.1.fileId = some file)
    (htears : ¬ TearsEntry c fault? s) :
    Appended c fault? s (c.code.run performBase s.1 s.2) := by
  obtain ⟨a, w⟩ := s
  have hlong : World.tooLong w.disk.data a.fileId c.record.encode = true ∨
      World.tooLong w.disk.data a.fileId c.record.encode = false := by
    cases World.tooLong w.disk.data a.fileId c.record.encode <;> simp
  rcases hlong with hlong | hlong
  · have hrun : c.code.run performBase a w = ((.error .fileTooLarge, a), { w with refused := true }) := by
      cases c with
      | append r =>
        simp only [AppendCall.code, Method.run, append_prog]
        simp only [AppendCall.record] at hlong
        simp [Prog.exec, performBase, hlong]
      | appendBuffered r =>
        simp only [AppendCall.code, Method.run, appendBuffered_prog]
        simp only [AppendCall.record] at hlong
        simp [Prog.exec, performBase, hlong]
    rw [hrun]
    have hpos : 0 < c.record.encode.length := by
      rw [Record.length_encode]
      simp only [headerSize]
      omega
    exact .failed 0 (by simp [fileBytes]) hpos ⟨file, hfile⟩ (by simp [htears])
  · have hwrote := lookup_modifyData (g := (·.writeAll c.record.encode)) hfile
    cases c with
    | append r =>
      have hflushed := lookup_modifyData (g := FileState.flushBuf) hwrote
      simp only [AppendCall.record] at hlong
      have hrun : (AppendCall.append r).code.run performBase a w
          = ((.ok (a.fileId, a.offset + (r.encode.length - r.value.length), r.encode.length),
              { a with offset := a.offset + r.encode.length }),
            (w.modifyData a.fileId (·.writeAll r.encode)).modifyData a.fileId .flushBuf) := by
        simp only [AppendCall.code, Method.run, append_prog]
        simp [Prog.exec, performBase, hlong]
      rw [hrun]
      refine .whole (by rintro _ ⟨⟩; rfl) rfl rfl ?_ ⟨_, hflushed⟩ htears
      rw [fileBytes_of_lookup hfile, fileBytes_of_lookup hflushed]
      simp [AppendCall.record]
    | appendBuffered r =>
      simp only [AppendCall.record] at hlong
      have hrun : (AppendCall.appendBuffered r).code.run performBase a w
          = ((.ok (a.fileId, a.offset + (r.encode.length - r.value.length), r.encode.length),
              { a with offset := a.offset + r.encode.length }),
            w.modifyData a.fileId (·.writeAll r.encode)) := by
        simp only [AppendCall.code, Method.run, appendBuffered_prog]
        simp [Prog.exec, performBase, hlong]
      rw [hrun]
      refine .whole (by rintro _ ⟨⟩; rfl) rfl rfl ?_ ⟨_, hwrote⟩ htears
      rw [fileBytes_of_lookup hfile, fileBytes_of_lookup hwrote]
      simp [AppendCall.record]

/-- A failing call, by what the failing run of its program gives. -/
theorem run_fault {f : Fault} {a : ActiveFile} {w : World}
    {x : Option ((Except IoError (FileId × Nat × Nat) × ActiveFile) × World)}
    (h : (c.code a).execFault performBase (faultBase f) f.step w = x) :
    c.run (some f) (a, w) = x.getD (c.code.run performBase a w) :=
  congrArg (fun o => o.getD (c.code.run performBase a w)) h

/-- The write of the entry fails. -/
theorem run_writeFails {f : Fault} (hfile : s.2.disk.data.lookup s.1.fileId = some file)
    (hstep : f.step = 0) : Appended c (some f) s (c.run (some f) s) := by
  obtain ⟨a, w⟩ := s
  have htears : TearsEntry c (some f) (a, w) ↔ file.Tears c.record.encode f.wrote := by
    constructor
    · rintro ⟨_, file', ⟨⟩, -, hl, ht⟩
      cases hl.symm.trans hfile
      exact ht
    · exact fun ht => ⟨f, file, rfl, hstep, hfile, ht⟩
  cases hfails : file.writeAllFails c.record.encode f.wrote with
  | none =>
    have hnone : (c.code a).execFault performBase (faultBase f) f.step w = none := by
      rw [hstep]
      cases c with
      | append r => simp_all [AppendCall.code, append_prog, Prog.execFault, faultBase,
          AppendCall.record]
      | appendBuffered r => simp_all [AppendCall.code, appendBuffered_prog, Prog.execFault,
          faultBase, AppendCall.record]
    rw [run_fault hnone]
    refine run_well hfile fun ht => ?_
    obtain ⟨file', hf⟩ := writeAllFails_of_tears (htears.mp ht)
    cases hfails.symm.trans hf
  | some file' =>
    have hsome : (c.code a).execFault performBase (faultBase f) f.step w
        = some ((.error .injected, a), w.modifyData a.fileId fun _ => file') := by
      rw [hstep]
      cases c with
      | append r => simp_all [AppendCall.code, append_prog, Prog.execFault, faultBase,
          AppendCall.record, Prog.exec]
      | appendBuffered r => simp_all [AppendCall.code, appendBuffered_prog, Prog.execFault,
          faultBase, AppendCall.record, Prog.exec]
    obtain ⟨-, hlt, hlogical⟩ := FileState.logical_writeAllFails file _ hfails
    have hlookup := lookup_modifyData (g := fun _ => file') hfile
    rw [run_fault hsome]
    refine .failed (f.wrote - file.buffer.length) ?_ hlt ⟨_, hlookup⟩
      (htears.trans (tears_iff hfails))
    rw [fileBytes_of_lookup hfile, ← hlogical]
    exact fileBytes_of_lookup hlookup

/-- A later system call fails: only `append` makes one, the flush. -/
theorem run_flushFails {f : Fault} (hfile : s.2.disk.data.lookup s.1.fileId = some file)
    (hstep : f.step ≠ 0) : Appended c (some f) s (c.run (some f) s) := by
  obtain ⟨a, w⟩ := s
  have htears : ¬ TearsEntry c (some f) (a, w) := by
    rintro ⟨_, -, ⟨⟩, hzero, -⟩
    exact hstep hzero
  obtain ⟨step, hstep⟩ : ∃ n, f.step = n + 1 := ⟨f.step - 1, by omega⟩
  cases hrun : (c.code a).execFault performBase (faultBase f) f.step w with
  | none =>
    rw [run_fault hrun]
    exact run_well hfile htears
  | some done =>
    rw [run_fault hrun]
    rw [hstep] at hrun
    cases c with
    | appendBuffered r =>
      simp only [AppendCall.code, appendBuffered_prog, Prog.execFault] at hrun
      split at hrun <;> simp [Prog.execFault] at hrun
    | append r =>
      simp only [AppendCall.code, append_prog, Prog.execFault] at hrun
      by_cases hlong : World.tooLong w.disk.data a.fileId r.encode = true
      · simp [performBase, hlong, Prog.execFault] at hrun
      · have hwrote := lookup_modifyData (g := (·.writeAll r.encode)) hfile
        simp only [performBase, hlong, Bool.false_eq_true, if_false] at hrun
        cases step with
        | succ step =>
          simp only [Prog.execFault] at hrun
          split at hrun <;> simp [Prog.execFault] at hrun
        | zero =>
          simp only [Prog.execFault, faultBase, Option.map_eq_some_iff] at hrun
          obtain ⟨⟨e, w'⟩, hfault, rfl⟩ := hrun
          rw [hwrote, Option.bind_some] at hfault
          obtain ⟨file', hfails, hw⟩ := Option.map_eq_some_iff.mp hfault
          cases hw
          have hlookup := lookup_modifyData (g := fun _ => file') hwrote
          obtain ⟨-, hlogical⟩ := FileState.logical_flushFails _ hfails
          refine .whole (a := { a with offset := a.offset + r.encode.length }) (by rintro _ ⟨⟩) rfl
            rfl ?_ ⟨_, hlookup⟩ htears
          rw [fileBytes_of_lookup hfile]
          exact (fileBytes_of_lookup hlookup).trans (by simp [hlogical, AppendCall.record])

theorem run_appended (c : AppendCall) (fault? : Option Fault)
    (hfile : s.2.disk.data.lookup s.1.fileId = some file) :
    Appended c fault? s (c.run fault? s) := by
  cases fault? with
  | none =>
    refine run_well hfile ?_
    rintro ⟨_, -, ⟨⟩, -⟩
  | some f =>
    by_cases hstep : f.step = 0
    · exact run_writeFails hfile hstep
    · exact run_flushFails hfile hstep

end

/-! ## Sequences of calls -/

/-- In every state the sequence goes through the next entry lands at the tracked
    offset, and every position returned on the way is right. -/
def Correct (calls : List (AppendCall × Option Fault)) (s : AppendCall.State) : Prop :=
  ∀ done, done <+: calls → Tracks (runAll done s).2 ∧
    ∀ x ∈ (runAll done s).1, Placed (fileBytes (runAll done s).2) s.1.fileId x

section

variable {s : AppendCall.State}

theorem Placed.append {bytes rest : Bytes} {fileId : FileId}
    {x : Record × Except IoError (FileId × Nat × Nat)} (h : Placed bytes fileId x)
    (hle : ∀ id pos len, x.2 = .ok (id, pos, len) → pos + x.1.value.length ≤ bytes.length) :
    Placed (bytes ++ rest) fileId x := by
  obtain ⟨r, result⟩ := x
  cases result with
  | error e => trivial
  | ok x =>
    obtain ⟨id, pos, len⟩ := x
    have hle := hle id pos len rfl
    dsimp only at hle
    refine ⟨h.1, h.2.1, ?_⟩
    rw [List.drop_append_of_le_length (by omega), List.take_append_of_le_length (by simp; omega)]
    exact h.2.2

/-- The value is at the end of its record. -/
theorem drop_encode (r : Record) :
    r.encode.drop (r.encode.length - r.value.length) = r.value := by
  have hlen : r.encode.length - r.value.length = headerSize + r.key.length := by
    rw [Record.length_encode]
    omega
  rw [hlen, Record.encode, encodeEntry_bytes, ← List.append_assoc]
  exact List.drop_left' (by simp)

/-- While nothing is torn the offset stays right, the file only grows, and every
    position returned is right. -/
theorem runAll_placed {calls : List (AppendCall × Option Fault)}
    (hfile : ∃ file, s.2.disk.data.lookup s.1.fileId = some file) (htracks : Tracks s)
    (hnone : NoneTears calls s) :
    Tracks (runAll calls s).2 ∧ fileBytes s <+: fileBytes (runAll calls s).2 ∧
      ∀ x ∈ (runAll calls s).1, Placed (fileBytes (runAll calls s).2) s.1.fileId x := by
  induction calls generalizing s with
  | nil => exact ⟨htracks, List.prefix_rfl, by simp [runAll]⟩
  | cons call rest ih =>
    obtain ⟨c, fault?⟩ := call
    obtain ⟨htears, hrest⟩ := hnone
    obtain ⟨file, hfile⟩ := hfile
    have hstep := run_appended c fault? hfile
    rw [runAll]
    generalize c.run fault? s = out at hstep hrest ⊢
    cases hstep with
    | whole hresult hid hoffset hbytes hfile htears =>
      rename_i result a w
      have htracks' : Tracks (a, w) := by
        unfold Tracks at htracks ⊢
        rw [hbytes, List.length_append, ← htracks]
        exact hoffset
      obtain ⟨htracks'', hgrows, hplaced⟩ := ih (s := (a, w)) (hid ▸ hfile) htracks' hrest
      have hhead : fileBytes s <+: fileBytes (a, w) := ⟨_, hbytes.symm⟩
      refine ⟨htracks'', hhead.trans hgrows, ?_⟩
      intro x hx
      rcases List.mem_cons.mp hx with rfl | hx
      · cases result with
        | error e => trivial
        | ok x =>
          cases hresult x rfl
          -- the value ends where the record ends, behind what was there before
          obtain ⟨more, hmore⟩ := hgrows
          have hlen : c.record.value.length ≤ c.record.encode.length := by
            rw [Record.length_encode]
            omega
          have hhere : Placed (fileBytes (a, w)) s.1.fileId (c.record, .ok (s.1.fileId,
              s.1.offset + (c.record.encode.length - c.record.value.length),
              c.record.encode.length)) := by
            refine ⟨rfl, rfl, ?_⟩
            unfold Tracks at htracks
            rw [hbytes, htracks, ← List.drop_drop, List.drop_left' rfl, drop_encode,
              List.take_length]
          rw [← hmore]
          refine hhere.append ?_
          rintro _ _ _ ⟨⟩
          unfold Tracks at htracks
          rw [hbytes, List.length_append, htracks]
          dsimp only
          omega
      · exact hid ▸ hplaced x hx
    | failed k hbytes hlt hfile hk =>
      rename_i e w
      have hzero : k = 0 := by
        by_contra hne
        exact htears (hk.mpr hne)
      have hsame : fileBytes (s.1, w) = fileBytes s := by
        rw [hbytes, hzero]
        simp
      have htracks' : Tracks (s.1, w) := by
        unfold Tracks at htracks ⊢
        rw [hsame]
        exact htracks
      obtain ⟨htracks'', hgrows, hplaced⟩ := ih (s := (s.1, w)) hfile htracks' hrest
      refine ⟨htracks'', hsame ▸ hgrows, fun x hx => ?_⟩
      rcases List.mem_cons.mp hx with rfl | hx
      · trivial
      · exact hplaced x hx

omit [Crc32Fast] in
theorem start_tracks (w : World) (fileId : FileId) :
    Tracks (AppendCall.start w fileId) ∧
      ∃ file, (AppendCall.start w fileId).2.disk.data.lookup fileId = some file := by
  have hcreated : ∃ file, (w.disk.data.create fileId).lookup fileId = some file ∧
      file.buffer = [] := by
    unfold FileTable.create
    split
    · split <;> exact ⟨_, AList.lookup_insert _, rfl⟩
    · exact ⟨_, AList.lookup_insert _, rfl⟩
  obtain ⟨file, hfile, hbuffer⟩ := hcreated
  refine ⟨?_, file, hfile⟩
  simp [Tracks, AppendCall.start, World.createData, fileBytes, hfile, FileState.logical, hbuffer]

theorem NoneTears.of_front {calls done : List (AppendCall × Option Fault)}
    (h : NoneTears calls s) (hpre : done <+: calls) : NoneTears done s := by
  induction done generalizing s calls with
  | nil => trivial
  | cons call done ih =>
    obtain ⟨rest, rfl⟩ := hpre
    exact ⟨h.1, ih h.2 (List.prefix_append ..)⟩

/-- From a state in which the offset is right, every later offset and position
    is right exactly if no call tears its entry. -/
theorem correct_iff {calls : List (AppendCall × Option Fault)}
    (hfile : ∃ file, s.2.disk.data.lookup s.1.fileId = some file) (htracks : Tracks s) :
    Correct calls s ↔ NoneTears calls s := by
  constructor
  · intro h
    induction calls generalizing s with
    | nil => trivial
    | cons call rest ih =>
      obtain ⟨c, fault?⟩ := call
      obtain ⟨file, hfile⟩ := hfile
      have hstep := run_appended c fault? hfile
      have hfirst := (h [(c, fault?)] (by simp)).1
      have hlater : ∀ done, done <+: rest → Tracks (runAll ((c, fault?) :: done) s).2 ∧
          ∀ x ∈ (runAll ((c, fault?) :: done) s).1,
            Placed (fileBytes (runAll ((c, fault?) :: done) s).2) s.1.fileId x :=
        fun done hdone => h _ ((List.prefix_cons_inj _).mpr hdone)
      rw [NoneTears]
      simp only [runAll] at hfirst hlater
      generalize c.run fault? s = out at hstep hfirst hlater ⊢
      cases hstep with
      | whole hresult hid hoffset hbytes hfile htears =>
        refine ⟨htears, ih (hid ▸ hfile) hfirst fun done hdone => ⟨(hlater done hdone).1, ?_⟩⟩
        intro x hx
        exact hid.symm ▸ (hlater done hdone).2 x (List.mem_cons_of_mem _ hx)
      | failed k hbytes hlt hfile hk =>
        have hzero : k = 0 := by
          unfold Tracks at htracks hfirst
          have hlen := hfirst.symm.trans htracks
          rw [hbytes, List.length_append, List.length_take] at hlen
          omega
        refine ⟨fun ht => hk.mp ht hzero, ih hfile hfirst fun done hdone =>
          ⟨(hlater done hdone).1, ?_⟩⟩
        exact fun x hx => (hlater done hdone).2 x (List.mem_cons_of_mem _ hx)
  · intro h done hdone
    obtain ⟨htracks', -, hplaced⟩ := runAll_placed hfile htracks (h.of_front hdone)
    exact ⟨htracks', hplaced⟩

/-- On a new or resumed active file the positions returned are right exactly if
    no call tears its entry. -/
theorem appends_correct_iff (w : World) (fileId : FileId)
    (calls : List (AppendCall × Option Fault)) :
    Correct calls (AppendCall.start w fileId) ↔ NoneTears calls (AppendCall.start w fileId) :=
  correct_iff (start_tracks w fileId).2 (start_tracks w fileId).1

/-- An entry of more than the buffer's capacity whose write fails after one byte,
    and a small one behind it. -/
def tornCalls : List (AppendCall × Option Fault) :=
  [(.append ⟨[1], List.replicate 8192 0, false, 0⟩, some ⟨0, 1⟩),
    (.append ⟨[1], [2], false, 0⟩, none)]

omit [Crc32Fast] in
/-- The small entry is said to have its value at offset 17, where the file has
    its key. -/
theorem tornCalls_misplaced :
    letI := ieee
    let s := AppendCall.start (.open ⟨∅, ∅⟩ ⟨true, false, 0⟩ 0 false) 7
    ((runAll tornCalls s).1.map fun x => x.2.toOption) = [none, some (7, 17, 18)] ∧
      ((fileBytes (runAll tornCalls s).2).drop 17).take 1 = [1] ∧ ¬ Correct tornCalls s := by
  let _ := ieee
  refine ⟨by decide +kernel, by decide +kernel, fun h => ?_⟩
  -- the first call tears its entry: the write fails behind the first byte
  have hnone := (correct_iff (start_tracks _ 7).2 (start_tracks _ 7).1).mp h
  refine hnone.1 ⟨⟨0, 1⟩, .fresh, rfl, rfl, by decide +kernel, ?_⟩
  refine ⟨?_, ?_, ?_⟩ <;> decide +kernel

end

end Yabiir
