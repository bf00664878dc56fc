/-
# `BedrockKV.Db` — the database: memory, files, and the steps between them

A `DB` is the store of `BedrockKV.Lsm` with everything around it that has to
do with files: the log being written, the value-log generations, how far the
garbage collector is, and the directory.  A step is one hold of the mutex (or
the work between two holds), and its `effects` are the file-system calls it
makes, in order; a crash can fall between any two of them.

    writeEntry        WriteEntry and MaybeSync: value log, log, then the fsyncs
    rotateForFlush    a fresh log
    flush…            FlushImmMemTable: table, MANIFEST, unlink of the retired log
    …Compaction       RunCompaction: tables, MANIFEST, unlink of the inputs
    gc…               RunVlogGC: a fresh generation, one entry at a time, retirement
    openDb            DB::Open on whatever the directory holds

Every publication goes through `manifest`, which always names `logNumber`.
-/
import BedrockKV.Disk
import BedrockKV.Lsm
import BedrockKV.Scan
import BedrockKV.VLog
import BedrockKV.Wal

namespace BedrockKV

open Log

/-- An entry that the garbage collector has still to look at. -/
structure GcItem where
  gen : Nat
  entry : ScannedEntry
  deriving DecidableEq

/-- Where `RunVlogGC` is.  `triggered`: `BackgroundLoop` has decided to run it.
`drain`: an entry was rewritten and `drain_flush` is to run. -/
inductive GcStage where
  | idle
  | triggered
  | scanning (fresh : Nat) (retired : List Nat) (todo : List GcItem) (rewritten : Nat)
      (drain : Bool)
  | retiring (retired : List Nat)
  deriving DecidableEq

structure DB where
  core : Lsm
  logNumber : Nat
  immLogNumber : Nat
  unsyncedBytes : Nat
  vlogs : List Nat
  vlogCurrent : Nat
  vlogGcFloor : Nat
  gc : GcStage
  disk : Disk

def kSyncThresholdBytes : Nat := 2 ^ 20

namespace DB

abbrev opt (s : DB) : Options := s.core.opt

/-- `vsep_threshold_` and `vlog_gc_size_`, as `Open` clamps them. -/
def vsepThreshold (s : DB) : Nat := max s.opt.valueSeparationThreshold 64
def vlogGcSize (s : DB) : Nat := max s.opt.vlogGcSize (64 * 2 ^ 10)

def logFile (s : DB) : File := (Keyed.get? s.disk.logs s.logNumber).getD .empty
def vlogFile (s : DB) (number : Nat) : File := (Keyed.get? s.disk.vlogs number).getD .empty

/-- Carry out effects on the directory. -/
def perform (s : DB) (fx : List Effect) : DB := { s with disk := s.disk.applyAll fx }

def sortByNumber (refs : List TableRef) : List TableRef :=
  refs.insertionSort fun a b => a.number ≤ b.number

/-- What `WriteManifest` writes. -/
def manifest (s : DB) : Manifest :=
  ⟨(sortByNumber s.core.current.tables).map TableRef.fileMeta, s.vlogs, s.logNumber⟩

/-! ## Writes -/

/-- The value goes to the value log: it is long, or it could be taken for a pointer. -/
def separates (s : DB) (type : ValueType) (value : Bytes) : Bool :=
  decide (type = .value) && s.opt.enableValueSeparation &&
    (decide (s.vsepThreshold ≤ value.length) || pointerShaped value)

theorem separates_congr {s s' : DB} (h : s'.opt = s.opt) (type : ValueType) (value : Bytes) :
    s'.separates type value = s.separates type value := by
  unfold separates vsepThreshold
  rw [h]

/-- The pointer to what `Append` writes next. -/
def nextPointer (s : DB) (value : Bytes) : ValuePointer :=
  ⟨s.vlogCurrent, (s.vlogFile s.vlogCurrent).bytes.length, value.length % 2 ^ 32⟩

/-- `stored`: the value, or the pointer to it. -/
def slot (s : DB) (type : ValueType) (value : Bytes) : Bytes :=
  if s.separates type value then encodeValuePointer (s.nextPointer value) else value

/-- The version a write creates. -/
def record (s : DB) (type : ValueType) (key value : Bytes) : Entry :=
  ⟨key, s.core.nextSeq, type, s.slot type value⟩

def walBytes (s : DB) (type : ValueType) (key value : Bytes) : Bytes :=
  encodeRecord (encodePayload (s.record type key value)) s.logFile.bytes.length

def vlogBytes (s : DB) (type : ValueType) (key value : Bytes) : Bytes :=
  if s.separates type value then encodeEntry key value else []

/-- `unsynced_bytes_` when `MaybeSync` looks at it. -/
def unsyncedAfter (s : DB) (type : ValueType) (key value : Bytes) : Nat :=
  s.unsyncedBytes + (s.vlogBytes type key value).length + (s.walBytes type key value).length

/-- `need` in `MaybeSync`. -/
def syncNeeded (s : DB) (type : ValueType) (key value : Bytes) : Bool :=
  match s.opt.syncMode with
  | .kSyncAlways => true
  | .kSyncPeriodic => decide (kSyncThresholdBytes ≤ s.unsyncedAfter type key value)
  | .kSyncNever => false

/-- The appends of `WriteEntry`: the value log first. -/
def appendEffects (s : DB) (type : ValueType) (key value : Bytes) : List Effect :=
  (if s.separates type value then
    [.appendVlog s.vlogCurrent (s.vlogBytes type key value)] else []) ++
  [.appendLog s.logNumber (s.walBytes type key value)]

/-- The two fsyncs, the value log before the log. -/
def syncEffects (s : DB) : List Effect :=
  (if s.opt.enableValueSeparation then [.syncVlog s.vlogCurrent] else []) ++
  [.syncLog s.logNumber]

def writeEffects (s : DB) (type : ValueType) (key value : Bytes) : List Effect :=
  s.appendEffects type key value ++
    if s.syncNeeded type key value then s.syncEffects else []

/-- `WriteEntry`. -/
def writeEntry (s : DB) (type : ValueType) (key value : Bytes) : DB :=
  { s.perform (s.writeEffects type key value) with
    core := s.core.writeEntry type key (s.slot type value)
    unsyncedBytes :=
      if s.syncNeeded type key value then 0 else s.unsyncedAfter type key value }

def rotateEffects (s : DB) : List Effect :=
  [.createLog s.core.nextFileNumber, .syncLog s.core.nextFileNumber]

/-- `RotateForFlush`. -/
def rotateForFlush (s : DB) : DB :=
  { s.perform s.rotateEffects with
    core := s.core.rotateForFlush
    immLogNumber := s.logNumber
    logNumber := s.core.nextFileNumber
    unsyncedBytes := 0 }

/-- The memtable is full: `Put` and `Delete` rotate first. -/
def makeRoom (s : DB) : DB := if s.core.full then s.rotateForFlush else s

def makeRoomEffects (s : DB) : List Effect := if s.core.full then s.rotateEffects else []

/-- What `Put` and `Delete` share. -/
def write (s : DB) (type : ValueType) (key value : Bytes) : Option DB :=
  match s.core.imm with
  | some _ => none
  | none => some (s.makeRoom.writeEntry type key value)

def put (s : DB) (key value : Bytes) : Option DB := s.write .value key value
def delete (s : DB) (key : Bytes) : Option DB := s.write .deletion key []

def rotate (s : DB) : Option DB :=
  match s.core.imm with
  | some _ => none
  | none => some s.rotateForFlush

/-! ## Flush -/

/-- The background thread may flush: nothing else runs, or `drain_flush` does. -/
def flushEnabled (s : DB) : Bool :=
  match s.gc with
  | .idle => true
  | .scanning _ _ _ _ drain => drain
  | _ => false

def tableEffects (number : Nat) (t : Table) : List Effect :=
  [.writeSst number t, .syncSst number]

def flushBuildEffects (s : DB) : List Effect :=
  match s.core.flushBuild with
  | some c =>
    match c.flush with
    | .built t => tableEffects s.core.immSstNumber t
    | _ => []
  | none => []

/-- A flush that makes no table ends a garbage collection pass. -/
def flushBuild (s : DB) : Option DB :=
  if s.flushEnabled then
    s.core.flushBuild.map fun c =>
      { s.perform s.flushBuildEffects with
        core := c
        gc := match c.flush with
          | .built _ => s.gc
          | _ => .idle }
  else none

def installed (s : DB) (c : Lsm) : DB := { s with core := c }

def flushInstallEffects (s : DB) : List Effect :=
  match s.core.flushInstall with
  | some c => [.publish (s.installed c).manifest]
  | none => []

def flushInstall (s : DB) : Option DB :=
  s.core.flushInstall.map fun c => { s.perform s.flushInstallEffects with core := c }

/-- `drain_flush` is over. -/
def GcStage.drained : GcStage → GcStage
  | .scanning fresh retired todo rewritten _ => .scanning fresh retired todo rewritten false
  | g => g

/-- The unlink of the retired log, then `imm_ = nullptr`. -/
def flushDone (s : DB) : Option DB :=
  s.core.flushDone.map fun c =>
    { s.perform [.unlinkLog s.immLogNumber] with core := c, gc := GcStage.drained s.gc }

/-! ## Compaction -/

def pick (s : DB) : Option DB :=
  match s.gc with
  | .idle => s.core.pick.map fun c => { s with core := c }
  | _ => none

def captureFloor (s : DB) : Option DB := s.core.captureFloor.map fun c => { s with core := c }

def sealEffects (s : DB) : List Effect :=
  match s.core.compaction with
  | some (_, .merging _ (t :: _) _) => tableEffects s.core.nextFileNumber t
  | _ => []

def sealOutput (s : DB) : Option DB :=
  s.core.sealOutput.map fun c => { s.perform s.sealEffects with core := c }

/-- The MANIFEST, then the unlinks of the inputs. -/
def installCompactionEffects (s : DB) : List Effect :=
  match s.core.compaction, s.core.installCompaction with
  | some (c, _), some core =>
    .publish (s.installed core).manifest :: c.inputs.map fun r => .unlinkSst r.number
  | _, _ => []

def installCompaction (s : DB) : Option DB :=
  s.core.installCompaction.map fun c => { s.perform s.installCompactionEffects with core := c }

/-! ## Snapshots and reads -/

def getSnapshot (s : DB) : DB := { s with core := s.core.getSnapshot }

def releaseSnapshot (s : DB) (handle : Nat) : DB :=
  { s with core := s.core.releaseSnapshot handle }

def vlogGone (number : Nat) : Status :=
  ⟨.corruption, ascii "value log " ++ vlogFileName number ++
    ascii " is gone (separation disabled after use?)"⟩

/-- `MaybeResolvePointer`, reading the file (the cache only saves the read). -/
def resolve (s : DB) (stored : Bytes) : Except Status Bytes :=
  if s.opt.enableValueSeparation then
    match decodeValuePointer stored with
    | none => .ok stored
    | some p =>
      if p.vlogNumber ∈ s.vlogs then
        readValue p.vlogNumber (s.vlogFile p.vlogNumber).bytes p.offset p.valueSize
      else .error (vlogGone p.vlogNumber)
  else .ok stored

def get (s : DB) (key : Bytes) (S : ReadSeq) : Except Status Bytes :=
  s.core.getWith s.resolve key S

def scan (s : DB) (first last : Bytes) (S : ReadSeq) :
    List (Bytes × Bytes) × Except Status Unit :=
  s.core.scanWith s.resolve first last S

/-! ## Garbage collection -/

/-- `VlogGcNeeded`. -/
def vlogGcNeeded (s : DB) : Bool :=
  s.opt.enableValueSeparation && s.core.snapshots.isEmpty &&
    (decide (1 < s.vlogs.length) ||
      decide (max s.vlogGcSize s.vlogGcFloor ≤ (s.vlogFile s.vlogCurrent).bytes.length))

/-- The last branch of `BackgroundLoop`, reached when there is nothing to flush
or to compact. -/
def gcCheck (s : DB) : Option DB :=
  match s.gc, s.core.imm, s.core.flush, s.core.compaction with
  | .idle, none, .idle, none =>
    if !s.core.compactionNeeded && s.vlogGcNeeded then some { s with gc := .triggered } else none
  | _, _, _, _ => none

/-- The entries of the retired generations, in the order they are scanned. -/
def gcItems (s : DB) (retired : List Nat) : List GcItem :=
  retired.flatMap fun g => (scanEntries (s.vlogFile g).bytes).map fun e => ⟨g, e⟩

/-- The switch to a fresh generation, before the MANIFEST that names it. -/
def gcSwitch (s : DB) : DB :=
  { s with
    core := { s.core with nextFileNumber := s.core.nextFileNumber + 1 }
    vlogs := s.vlogs ++ [s.core.nextFileNumber]
    vlogCurrent := s.core.nextFileNumber
    gc := .scanning s.core.nextFileNumber s.vlogs (s.gcItems s.vlogs) 0 false }

def gcStartEffects (s : DB) : List Effect :=
  if s.core.snapshots = [] then
    [.createVlog s.core.nextFileNumber, .publish s.gcSwitch.manifest]
  else []

/-- Step 1 of `RunVlogGC`.  With a snapshot alive the pass is deferred. -/
def gcStart (s : DB) : Option DB :=
  match s.gc with
  | .triggered =>
    if s.core.snapshots = [] then some (s.gcSwitch.perform s.gcStartEffects)
    else some { s with gc := .idle }
  | _ => none

/-- The liveness check: the key's latest slot is the pointer to this entry. -/
def isLive (s : DB) (x : GcItem) : Bool :=
  match s.core.lookup x.entry.key kMaxSeq with
  | .found stored =>
    match decodeValuePointer stored with
    | some p => decide (p.vlogNumber = x.gen) && decide (p.offset = x.entry.offset)
    | none => false
  | _ => false

def gcEntryEffects (s : DB) : List Effect :=
  match s.gc with
  | .scanning _ _ (x :: _) _ false =>
    if s.isLive x then s.writeEffects .value x.entry.key x.entry.value else []
  | _ => []

/-- Step 2: one entry, check and rewrite under one hold of the mutex. -/
def gcEntry (s : DB) : Option DB :=
  match s.gc with
  | .scanning fresh retired (x :: todo) rewritten false =>
    if s.isLive x then
      some { s.writeEntry .value x.entry.key x.entry.value with
        gc := .scanning fresh retired todo (rewritten + x.entry.value.length) true }
    else some { s with gc := .scanning fresh retired todo rewritten false }
  | _ => none

/-- `drain_flush` without a pending memtable. -/
def gcDrain (s : DB) : Option DB :=
  match s.gc, s.core.imm with
  | .scanning fresh retired todo rewritten true, none =>
    some { s with gc := .scanning fresh retired todo rewritten false }
  | _, _ => none

/-- The state the retiring MANIFEST is written from. -/
def gcDropped (s : DB) (retired : List Nat) (rewritten : Nat) : DB :=
  { s with
    vlogs := s.vlogs.filter fun n => decide (n ∉ retired)
    vlogGcFloor := 2 * rewritten
    unsyncedBytes := 0
    gc := .retiring retired }

/-- `ForceDurabilityLocked`, then the MANIFEST. -/
def gcRetireEffects (s : DB) : List Effect :=
  match s.gc with
  | .scanning _ retired [] rewritten false =>
    if s.core.snapshots = [] then
      s.syncEffects ++ [.publish (s.gcDropped retired rewritten).manifest]
    else []
  | _ => []

/-- Step 3.  With a snapshot alive the retirement is given up. -/
def gcRetire (s : DB) : Option DB :=
  match s.gc with
  | .scanning _ retired [] rewritten false =>
    if s.core.snapshots = [] then
      some ((s.gcDropped retired rewritten).perform s.gcRetireEffects)
    else some { s with gc := .idle }
  | _ => none

def gcUnlinkEffects (s : DB) : List Effect :=
  match s.gc with
  | .retiring retired => retired.map .unlinkVlog
  | _ => []

def gcUnlink (s : DB) : Option DB :=
  match s.gc with
  | .retiring _ => some { s.perform s.gcUnlinkEffects with gc := .idle }
  | _ => none

/-! ## The machine -/

inductive Op where
  | put (key value : Bytes)
  | delete (key : Bytes)
  | rotate
  | flushBuild
  | flushInstall
  | flushDone
  | pick
  | captureFloor
  | sealOutput
  | installCompaction
  | getSnapshot
  | releaseSnapshot (handle : Nat)
  | gcCheck
  | gcStart
  | gcEntry
  | gcDrain
  | gcRetire
  | gcUnlink
  deriving DecidableEq, Repr

def step (s : DB) : Op → Option DB
  | .put key value => s.put key value
  | .delete key => s.delete key
  | .rotate => s.rotate
  | .flushBuild => s.flushBuild
  | .flushInstall => s.flushInstall
  | .flushDone => s.flushDone
  | .pick => s.pick
  | .captureFloor => s.captureFloor
  | .sealOutput => s.sealOutput
  | .installCompaction => s.installCompaction
  | .getSnapshot => some s.getSnapshot
  | .releaseSnapshot handle => some (s.releaseSnapshot handle)
  | .gcCheck => s.gcCheck
  | .gcStart => s.gcStart
  | .gcEntry => s.gcEntry
  | .gcDrain => s.gcDrain
  | .gcRetire => s.gcRetire
  | .gcUnlink => s.gcUnlink

/-- The file-system calls of a step, in order. -/
def effects (s : DB) : Op → List Effect
  | .put key value => s.makeRoomEffects ++ s.makeRoom.writeEffects .value key value
  | .delete key => s.makeRoomEffects ++ s.makeRoom.writeEffects .deletion key []
  | .rotate => s.rotateEffects
  | .flushBuild => s.flushBuildEffects
  | .flushInstall => s.flushInstallEffects
  | .flushDone => [.unlinkLog s.immLogNumber]
  | .sealOutput => s.sealEffects
  | .installCompaction => s.installCompactionEffects
  | .gcStart => s.gcStartEffects
  | .gcEntry => s.gcEntryEffects
  | .gcRetire => s.gcRetireEffects
  | .gcUnlink => s.gcUnlinkEffects
  | _ => []

end DB

end BedrockKV
