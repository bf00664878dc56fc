/-
# `BedrockKV.Compaction` — picking, merging, installing

The three parts of a compaction, each a function of what it reads:

    pickCompaction   the inputs, by the range-expansion fixpoint
    mergeTables      the merge loop of `RunCompaction`: which versions are kept
                     and where the output files are split
    installVersion   the new version, inputs removed by file number

How they interleave with the rest of the store is the business of
`BedrockKV.Lsm`; the facts proved about each are in `BedrockKV.Picked` and
`BedrockKV.Retention`.
-/
import BedrockKV.Iterator
import BedrockKV.Version

namespace BedrockKV

open MultiVersion

inductive SyncMode where
  | kSyncAlways
  | kSyncPeriodic
  | kSyncNever
  deriving DecidableEq, Repr

/-- `Options`, without the io_uring switch: the synchronous write path is the
one modelled.  `size` stands for the byte layout of tables. -/
structure Options where
  syncMode : SyncMode := .kSyncAlways
  writeBufferSize : Nat := 4 * 2 ^ 20
  l0CompactionTrigger : Nat := 4
  levelBaseSize : Nat := 10 * 2 ^ 20
  maxSstSize : Nat := 4 * 2 ^ 20
  enableValueSeparation : Bool := false
  valueSeparationThreshold : Nat := 1024
  vlogGcSize : Nat := 64 * 2 ^ 20
  size : TableSize

/-- `PickCompaction`'s outputs.  A missing source is `kL0Source`. -/
structure Compaction where
  inputsA : List TableRef
  inputsB : List TableRef
  source : Option LevelIndex
  output : LevelIndex

def Compaction.inputs (c : Compaction) : List TableRef := c.inputsA ++ c.inputsB

/-! ## Picking -/

/-- `LevelSize`, a 64-bit sum. -/
def levelSize (v : Version) (i : LevelIndex) : Nat :=
  ((v.levels i).map fun r => r.fileMeta.fileSize).sum % 2 ^ 64

/-- `limit *= 10`, `i` times, in 64 bits. -/
def levelLimit (opt : Options) (i : LevelIndex) : Nat :=
  opt.levelBaseSize * 10 ^ i.val % 2 ^ 64

/-- The first level, the last excepted, that is over its limit. -/
def overfullLevel (opt : Options) (v : Version) : Option LevelIndex :=
  levelIndices.find? fun i =>
    decide (i.val + 1 < kMaxLevels - 1) && decide (levelLimit opt i < levelSize v i)

/-- The size half of `CompactionNeeded`. -/
def compactionDue (opt : Options) (v : Version) : Bool :=
  decide (opt.l0CompactionTrigger ≤ v.l0.length) || (overfullLevel opt v).isSome

/-- `CompactionNeeded`. -/
def compactionNeeded (opt : Options) (disabled : Bool) (v : Version) : Bool :=
  !disabled && compactionDue opt v

/-- The state of the range-expansion loop. -/
structure Expansion where
  picked : List TableRef
  lo : Bytes
  hi : Bytes
  changed : Bool

def Expansion.has (x : Expansion) (r : TableRef) : Prop := r.number ∈ x.picked.map TableRef.number

instance (x : Expansion) (r : TableRef) : Decidable (x.has r) :=
  inferInstanceAs (Decidable (_ ∈ _))

def Expansion.overlaps (x : Expansion) (r : TableRef) : Prop :=
  x.lo ≤ r.largest ∧ r.smallest ≤ x.hi

instance (x : Expansion) (r : TableRef) : Decidable (x.overlaps r) :=
  inferInstanceAs (Decidable (_ ∧ _))

def Expansion.add (x : Expansion) (r : TableRef) : Expansion where
  picked := x.picked ++ [r]
  lo := min x.lo r.smallest
  hi := max x.hi r.largest
  changed := true

def expandStep (x : Expansion) (r : TableRef) : Expansion :=
  if x.has r then x else if x.overlaps r then x.add r else x

/-- One round of `while (changed)`. -/
def expandPass (target : List TableRef) (x : Expansion) : Expansion :=
  target.foldl expandStep { x with changed := false }

/-- The loop.  A round that changes something picks a file, so `fuel` above
the number of files is enough. -/
def expand (target : List TableRef) : Nat → Expansion → Expansion
  | 0, x => x
  | fuel + 1, x =>
    let x' := expandPass target x
    if x'.changed then expand target fuel x' else x'

/-- `lo` and `hi` over `inputs_a`; both empty strings when there are none. -/
def inputRange : List TableRef → Bytes × Bytes
  | [] => ([], [])
  | r :: rs => rs.foldl (fun p t => (min p.1 t.smallest, max p.2 t.largest))
      (r.smallest, r.largest)

def expandInputs (inputsA target : List TableRef) : Expansion :=
  let range := inputRange inputsA
  expand target (target.length + 1) ⟨[], range.1, range.2, true⟩

/-- `PickCompaction`, called only when one is due. -/
def pickCompaction (opt : Options) (v : Version) : Option Compaction :=
  if opt.l0CompactionTrigger ≤ v.l0.length then
    some
      { inputsA := v.l0
        inputsB := (expandInputs v.l0 (v.levels level1)).picked
        source := none
        output := level1 }
  else
    match overfullLevel opt v with
    | none => none
    | some i =>
      if h : i.val + 1 < kMaxLevels - 1 then
        let out : LevelIndex := ⟨i.val + 1, h⟩
        let victim := (v.levels i).head?.toList
        some
          { inputsA := victim
            inputsB := (expandInputs victim (v.levels out)).picked
            source := some i
            output := out }
      else none

/-! ## Merging -/

/-- The variables of the merge loop.  `builder_used` is "the builder has entries". -/
structure MergeState where
  outputs : List Table
  builder : Builder
  currentUser : Option Bytes
  floorVersionSeen : Bool

def MergeState.start : MergeState := ⟨[], Builder.new, none, false⟩

/-- `seal()`, but for the file number, which is taken when the file is written. -/
def MergeState.seal (st : MergeState) : MergeState :=
  match st.builder.finish with
  | none => st
  | some t => { st with outputs := st.outputs ++ [t], builder := Builder.new }

/-- The part of the loop body guarded by `!has_user || user != current_user`. -/
def MergeState.enterUser (opt : Options) (st : MergeState) (user : Bytes) : MergeState :=
  if st.currentUser = some user then st
  else
    let st' :=
      if st.currentUser.isSome ∧
          opt.maxSstSize ≤ opt.size.approximateFileSize st.builder.entries then st.seal
      else st
    { st' with currentUser := some user, floorVersionSeen := false }

/-- `keep`, from the floor, `floor_version_seen` and whether the output is the bottom level. -/
def keepVersion (floor : ReadSeq) (bottom seen : Bool) (e : Entry) : Bool :=
  if floor < WithTop.some e.seq then true
  else if seen then false
  else !(decide (e.type = .deletion) && bottom)

def mergeStep (opt : Options) (floor : ReadSeq) (bottom : Bool) (st : MergeState) (e : Entry) :
    Except Status MergeState :=
  let st := st.enterUser opt e.user
  let keep := keepVersion floor bottom st.floorVersionSeen e
  let st := { st with
    floorVersionSeen := st.floorVersionSeen || decide (¬ floor < WithTop.some e.seq) }
  if keep then
    match st.builder.add e with
    | .ok b => .ok { st with builder := b }
    | .error s => .error s
  else .ok st

def mergeLoop (opt : Options) (floor : ReadSeq) (bottom : Bool) :
    MergeState → List Entry → Except Status MergeState
  | st, [] => .ok st.seal
  | st, e :: es =>
    match mergeStep opt floor bottom st e with
    | .ok st' => mergeLoop opt floor bottom st' es
    | .error s => .error s

/-- `bottom = output_level_index + 1 == kMaxLevels - 1`. -/
def Compaction.bottom (c : Compaction) : Bool := decide (c.output.val + 1 = kMaxLevels - 1)

/-- The output tables of `RunCompaction`, in order. -/
def mergeTables (opt : Options) (floor : ReadSeq) (c : Compaction) :
    Except Status (List Table) :=
  (mergeLoop opt floor c.bottom MergeState.start
    (merge (c.inputs.map TableRef.entries))).map MergeState.outputs

/-! ## Installing -/

def removeNumbers (level removed : List TableRef) : List TableRef :=
  level.filter fun r => decide (r.number ∉ removed.map TableRef.number)

def sortBySmallest (level : List TableRef) : List TableRef :=
  level.insertionSort fun a b => a.smallest ≤ b.smallest

/-- The version `RunCompaction` publishes. -/
def installVersion (v : Version) (c : Compaction) (outputs : List TableRef) : Version :=
  let v' : Version :=
    match c.source with
    | none => { v with l0 := removeNumbers v.l0 c.inputsA }
    | some i =>
      { v with levels := Function.update v.levels i (removeNumbers (v.levels i) c.inputsA) }
  let level := sortBySmallest (removeNumbers (v'.levels c.output) c.inputsB ++ outputs)
  { v' with levels := Function.update v'.levels c.output level }

end BedrockKV
