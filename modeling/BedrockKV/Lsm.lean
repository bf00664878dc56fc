/-
# `BedrockKV.Lsm` — the store as a state machine over its memory

Everything `mutex_` guards that decides what a read returns: the two
memtables, the current version, the counters, the snapshots, and where the
background thread is inside a flush or a compaction.  Each step below is one
hold of the mutex, or the work between two holds that nobody else can see:

    user thread          put, delete, rotateForFlush, getSnapshot, releaseSnapshot
    FlushImmMemTable     flushBuild, flushInstall, flushDone
    RunCompaction        pick, captureFloor, sealOutput, installCompaction

A step that the code cannot take in a state is `none`: a `Put` waits while a
memtable is pending, and the background thread does one thing at a time.
Files and their durability are not here; `BedrockKV.Db` adds them around the
same functions.  Nor are bytes: `BedrockKV.LsmBytes` runs the same steps over
skiplists and files of blocks, and says for which sizes nothing changes.
-/
import BedrockKV.Compaction
import BedrockKV.Lib.Run

namespace BedrockKV

open MultiVersion

/-- `Snapshot`: the handle the caller holds, and its read point. -/
structure Snapshot where
  handle : Nat
  sequence : Nat
  deriving DecidableEq, Repr

/-- Where `FlushImmMemTable` is. -/
inductive FlushStage where
  | idle
  | built (t : Table)
  | installed

/-- Where `RunCompaction` is; `todo` are the outputs without a file number yet. -/
inductive MergeStage where
  | picked
  | merging (floor : ReadSeq) (todo : List Table) (outputs : List TableRef)

structure Lsm where
  opt : Options
  mem : MemTable
  imm : Option MemTable
  immSstNumber : Nat
  current : Version
  nextSeq : Nat
  nextFileNumber : Nat
  snapshots : List Snapshot
  nextHandle : Nat
  flush : FlushStage
  compaction : Option (Compaction × MergeStage)
  compactionDisabled : Bool

namespace Lsm

/-- `Open` on an empty directory. -/
def fresh (opt : Options) : Lsm where
  opt := opt
  mem := MemTable.empty
  imm := none
  immSstNumber := 0
  current := Version.empty
  nextSeq := 1
  nextFileNumber := 2
  snapshots := []
  nextHandle := 0
  flush := .idle
  compaction := none
  compactionDisabled := false

/-! ## Writes -/

/-- The memory half of `WriteEntry`. -/
def writeEntry (s : Lsm) (type : ValueType) (key stored : Bytes) : Lsm :=
  { s with mem := s.mem.add ⟨key, s.nextSeq, type, stored⟩, nextSeq := s.nextSeq + 1 }

/-- The memory half of `RotateForFlush`.  The new log takes a file number
before the table does. -/
def rotateForFlush (s : Lsm) : Lsm :=
  { s with
    imm := some s.mem
    mem := MemTable.empty
    immSstNumber := s.nextFileNumber + 1
    nextFileNumber := s.nextFileNumber + 2 }

/-- `mem_->ApproximateSize() >= options_.write_buffer_size`. -/
def full (s : Lsm) : Bool := decide (s.opt.writeBufferSize ≤ s.mem.approximateSize)

/-- What `Put` and `Delete` share: wait for the pending memtable, make room, write. -/
def write (s : Lsm) (type : ValueType) (key stored : Bytes) : Option Lsm :=
  match s.imm with
  | some _ => none
  | none => some ((if s.full then s.rotateForFlush else s).writeEntry type key stored)

def put (s : Lsm) (key value : Bytes) : Option Lsm := s.write .value key value
def delete (s : Lsm) (key : Bytes) : Option Lsm := s.write .deletion key []

/-- `RotateForFlush` by itself, which its callers reach only without a pending memtable. -/
def rotate (s : Lsm) : Option Lsm :=
  match s.imm with
  | some _ => none
  | none => some s.rotateForFlush

/-! ## Flush -/

/-- `ForEach` into a builder. -/
def buildTable (es : List Entry) : Except Status Builder := es.foldlM Builder.add Builder.new

/-- The lock-free part of `FlushImmMemTable`.  A memtable that makes no table
is kept and tried again. -/
def flushBuild (s : Lsm) : Option Lsm :=
  match s.imm, s.flush, s.compaction with
  | some m, .idle, none =>
    match buildTable m.entries with
    | .error _ => some s
    | .ok b =>
      match b.finish with
      | none => some s
      | some t => some { s with flush := .built t }
  | _, _, _ => none

/-- The install: the new file goes to the front of L0. -/
def flushInstall (s : Lsm) : Option Lsm :=
  match s.flush with
  | .built t =>
    let ref : TableRef := ⟨t, t.fileMeta s.opt.size s.immSstNumber 0⟩
    some { s with current := { s.current with l0 := ref :: s.current.l0 }, flush := .installed }
  | _ => none

/-- `imm_ = nullptr`, in a later hold of the mutex than the install. -/
def flushDone (s : Lsm) : Option Lsm :=
  match s.flush with
  | .installed => some { s with imm := none, flush := .idle }
  | _ => none

/-! ## Compaction -/

def compactionNeeded (s : Lsm) : Bool :=
  BedrockKV.compactionNeeded s.opt s.compactionDisabled s.current

/-- The branch of `BackgroundLoop` behind `imm_ != nullptr`. -/
def pick (s : Lsm) : Option Lsm :=
  match s.imm, s.flush, s.compaction with
  | none, .idle, none =>
    if s.compactionNeeded then
      (pickCompaction s.opt s.current).map fun c => { s with compaction := some (c, .picked) }
    else none
  | _, _, _ => none

/-- `SmallestSnapshotSeq`. -/
def smallestSnapshotSeq (s : Lsm) : ReadSeq :=
  s.snapshots.foldl (fun m sn => min m (WithTop.some sn.sequence)) kMaxSeq

/-- The floor is read once, and the merge is decided by it.  A failed
compaction is not tried again. -/
def captureFloor (s : Lsm) : Option Lsm :=
  match s.compaction with
  | some (c, .picked) =>
    match mergeTables s.opt s.smallestSnapshotSeq c with
    | .ok ts => some { s with compaction := some (c, .merging s.smallestSnapshotSeq ts []) }
    | .error _ => some { s with compaction := none, compactionDisabled := true }
  | _ => none

/-- `seal()`: the next output takes a file number. -/
def sealOutput (s : Lsm) : Option Lsm :=
  match s.compaction with
  | some (c, .merging floor (t :: todo) outputs) =>
    let ref : TableRef :=
      ⟨t, t.fileMeta s.opt.size s.nextFileNumber (c.output.val + 1)⟩
    some { s with
      nextFileNumber := s.nextFileNumber + 1
      compaction := some (c, .merging floor todo (outputs ++ [ref])) }
  | _ => none

def installCompaction (s : Lsm) : Option Lsm :=
  match s.compaction with
  | some (c, .merging _ [] outputs) =>
    some { s with current := installVersion s.current c outputs, compaction := none }
  | _ => none

/-! ## Snapshots and reads -/

def getSnapshot (s : Lsm) : Lsm :=
  { s with
    snapshots := s.snapshots ++ [⟨s.nextHandle, s.nextSeq - 1⟩]
    nextHandle := s.nextHandle + 1 }

/-- A handle that is not in the list is ignored. -/
def releaseSnapshot (s : Lsm) (handle : Nat) : Lsm :=
  { s with snapshots := s.snapshots.eraseP fun sn => decide (sn.handle = handle) }

def lookup (s : Lsm) (key : Bytes) (S : ReadSeq) : Lookup :=
  lookupIn s.mem s.imm s.current key S

def notFoundDeleted (key : Bytes) : Status := ⟨.notFound, ascii "deleted: " ++ key⟩
def notFoundMissing (key : Bytes) : Status := ⟨.notFound, ascii "missing: " ++ key⟩

/-- `DB::Get` at the read point `S`; `resolve` is `MaybeResolvePointer`. -/
def getWith (resolve : Bytes → Except Status Bytes) (s : Lsm) (key : Bytes) (S : ReadSeq) :
    Except Status Bytes :=
  match s.lookup key S with
  | .found stored => resolve stored
  | .deleted => .error (notFoundDeleted key)
  | .missing => .error (notFoundMissing key)

/-- Without value separation a stored value is the value. -/
def get (s : Lsm) (key : Bytes) (S : ReadSeq) : Except Status Bytes := s.getWith .ok key S

/-! ## The machine -/

inductive Op where
  | put (key value : Bytes)
  | delete (key : Bytes)
  | rotate
  | flushBuild
  | flushInstall
  | flushDone
  | pick
  | captureFloor
  | sealOutput
  | installCompaction
  | getSnapshot
  | releaseSnapshot (handle : Nat)
  deriving DecidableEq, Repr

def step (s : Lsm) : Op → Option Lsm
  | .put key value => s.put key value
  | .delete key => s.delete key
  | .rotate => s.rotate
  | .flushBuild => s.flushBuild
  | .flushInstall => s.flushInstall
  | .flushDone => s.flushDone
  | .pick => s.pick
  | .captureFloor => s.captureFloor
  | .sealOutput => s.sealOutput
  | .installCompaction => s.installCompaction
  | .getSnapshot => some s.getSnapshot
  | .releaseSnapshot handle => some (s.releaseSnapshot handle)

end Lsm

end BedrockKV
