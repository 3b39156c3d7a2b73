/-
  Yabiir.Engine

  The engine's calls (`src/engine.rs`, `impl Bitcask for Engine`), and the pool
  of threads that make them.
-/

import Yabiir.Merge.Basic

namespace Yabiir

open Format

/-- Errors of the public API that the modelled calls return. -/
inductive Error where
  | io (e : IoError)
  | emptyKey
  | readOnly
  deriving DecidableEq, Repr

/-- The public calls on an open engine. -/
inductive Call where
  | put (key value : Bytes) (timestamp : UInt32)
  | delete (key : Bytes) (timestamp : UInt32)
  | get (key : Bytes)
  | listKeys
  | fold
  | merge
  deriving DecidableEq, Repr

/-- What a call returns; `fold` with the pairs its function was applied to, in
    order. -/
inductive Resp where
  | unit (r : Except Error Unit)
  | value (r : Except Error (Option Bytes))
  | keys (r : Except Error (List Bytes))
  | pairs (r : Except Error (List (Bytes × Bytes)))
  deriving DecidableEq

namespace Engine

variable [Crc32Fast]

/-- `From<io::Error> for Error`, in `?`. -/
def liftIo {σ α : Type} (m : EngineM σ IoError α) : EngineM σ Error α :=
  fun s => m s >>= fun
    | (.ok a, s) => .ret (.ok a, s)
    | (.error e, s) => .ret (.error (.io e), s)

def requireWrite (opts : Options) : EngineM Unit Error Unit :=
  if opts.isReadWrite then pure () else Method.fail .readOnly

/-- Append an entry to the active file; the file and the position the keydir
    entry should point at.  A read-only handle has no active file. -/
def append (opts : Options) (encoded : EncodedEntry) : EngineM Unit Error (FileId × Nat) := do
  if !opts.isReadWrite then Method.fail .readOnly
  let (fileId, valuePos, targetGen) ← liftIo (ioOp (.locked (.append opts.maxFileSize encoded)) id)
  if opts.shouldSyncOnPut then liftIo (ioOp (.commit targetGen) id)
  return (fileId, valuePos)

/-- The value bytes a keydir entry points at (`DataFileSet::read_at`). -/
def readValue (entry : KeydirEntry) : EngineM Unit Error Bytes := do
  liftIo (ioOp (.openReader entry.fileId) id)
  liftIo (ioOp (.pread entry.fileId entry.valuePos entry.valueSize) id)

def get (key : Bytes) : EngineM Unit Error (Option Bytes) := do
  let entry : Option KeydirEntry ← readOp (.keydirGet key) id
  match entry with
  | some entry => do
    let value ← readValue entry
    return some value
  | none => return none

def put (opts : Options) (key value : Bytes) (timestamp : UInt32) : EngineM Unit Error Unit := do
  if key.isEmpty then Method.fail .emptyKey
  requireWrite opts
  let encoded := encodeEntry key value false timestamp
  let (fileId, valuePos) ← append opts encoded
  readOp (.keydirInsert key
    { fileId, valueSize := value.length % 2 ^ 32, valuePos, timestamp }) id

/-- Deleting a key that is not there is a no-op. -/
def delete (opts : Options) (key : Bytes) (timestamp : UInt32) : EngineM Unit Error Unit := do
  if key.isEmpty then Method.fail .emptyKey
  requireWrite opts
  let entry : Option KeydirEntry ← readOp (.keydirGet key) id
  if entry.isNone then return ()
  let encoded := encodeEntry key [] true timestamp
  let _ ← append opts encoded
  readOp (.keydirRemove key) id

def listKeys : EngineM Unit Error (List Bytes) := do
  let pairs : List (Bytes × KeydirEntry) ← readOp .keydirSnapshot id
  return pairs.map Prod.fst

/-- The loop of `fold`. -/
def foldLoop {A : Type} (f : Bytes → Bytes → A → A) :
    List (Bytes × KeydirEntry) → A → EngineM Unit Error A
  | [], acc => pure acc
  | (key, entry) :: rest, acc => do
    let value ← readValue entry
    foldLoop f rest (f key value acc)

def fold {A : Type} (f : Bytes → Bytes → A → A) (init : A) : EngineM Unit Error A := do
  let pairs : List (Bytes × KeydirEntry) ← readOp .keydirSnapshot id
  foldLoop f pairs init

def merge (opts : Options) : EngineM Unit Error Unit := do
  requireWrite opts
  if !opts.isReadWrite then Method.fail .readOnly
  liftIo (Yabiir.merge opts.maxFileSize)

/-- A method as the program of a call. -/
def toProg {α : Type} (m : EngineM Unit Error α) (resp : Except Error α → Resp) :
    Prog Op Op.Res Resp :=
  m () >>= fun (r, _) => .ret (resp r)

/-- The program of a call on an engine with options `opts`. -/
def code (opts : Options) : Call → Prog Op Op.Res Resp
  | .put key value timestamp => toProg (put opts key value timestamp) .unit
  | .delete key timestamp => toProg (delete opts key timestamp) .unit
  | .get key => toProg (get key) .value
  | .listKeys => toProg listKeys .keys
  | .fold => toProg (fold (fun key value acc => acc ++ [(key, value)]) []) .pairs
  | .merge => toProg (merge opts) .unit

/-- The engine as a pool of threads. -/
@[reducible] def system : System where
  World := World
  Op := Op
  Res := Op.Res
  Call := Call
  Resp := Resp
  perform := perform
  code w c := code w.opts c
  Fault := Fault
  fault := fault
  Restart := Restart
  restart := restart

/-- An engine just opened on an empty directory. -/
def start (opts : Options) : World := .open ⟨∅, ∅⟩ opts 0 false

end Engine

end Yabiir
