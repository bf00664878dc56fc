/-
# `BedrockKV.Open` — `DB::Open`, and what it makes of a directory

`openDb` follows the numbered steps of `DB::Open`: the MANIFEST, the tables it
names, the value logs, the logs at or above the replay floor, the removal of
everything else, the replay, and the counters.  It takes any directory, whole
or torn, and fails where the code does.
-/
import BedrockKV.Db

namespace BedrockKV

open Log MultiVersion

/-- The checks of `ParseManifest`: numbers strictly ascending from one, levels in range. -/
def Manifest.Valid (m : Manifest) : Prop :=
  (0 :: m.files.map FileMeta.fileNumber).Pairwise (· < ·) ∧
  (∀ f ∈ m.files, f.level < kMaxLevels) ∧
  (0 :: m.vlogs).Pairwise (· < ·)

instance (m : Manifest) : Decidable m.Valid := inferInstanceAs (Decidable (_ ∧ _ ∧ _))

/-- The MANIFEST's state; without a file, that of a fresh database. -/
def Disk.manifestState (d : Disk) : Manifest := d.manifest.getD ⟨[], [], 1⟩

namespace DB

def manifestCorrupt : Status := ⟨.corruption, ascii "MANIFEST is corrupt"⟩

/-- The reason that follows the colon in the source is that of `Table::Open`. -/
def cannotOpenSst (number : Nat) : Status :=
  ⟨.corruption, ascii "cannot open SST " ++ numberedFile number ".sst" ++ ascii ": "⟩

def vlogOnDisk : Status :=
  ⟨.ioError, ascii ("directory contains value logs but enable_value_separation " ++
    "is off; reopen with the switch on to avoid orphaning them")⟩

def vlogInManifest : Status :=
  ⟨.ioError, ascii ("MANIFEST names value logs but enable_value_separation is " ++
    "off; reopen with the switch on to avoid orphaning them")⟩

/-- Step 2 for one table. -/
def openTable (d : Disk) (m : FileMeta) : Except Status TableRef :=
  match Keyed.get? d.ssts m.fileNumber with
  | some ⟨some t, _⟩ => .ok ⟨t, m⟩
  | _ => .error (cannotOpenSst m.fileNumber)

def openTables (d : Disk) : List FileMeta → Except Status (List TableRef)
  | [] => .ok []
  | m :: ms =>
    match openTable d m with
    | .error e => .error e
    | .ok r =>
      match openTables d ms with
      | .error e => .error e
      | .ok rs => .ok (r :: rs)

/-- L0 newest file first, the levels in key order. -/
def assembleVersion (refs : List TableRef) : Version where
  l0 := (refs.filter fun r => decide (r.fileMeta.level = 0)).insertionSort
    fun a b => b.number ≤ a.number
  levels i := sortBySmallest (refs.filter fun r => decide (r.fileMeta.level = i.val + 1))

/-- Step 2b: `VLog::Open` creates a generation that is not there. -/
def openVlog (vlogs : List (Nat × File)) (number : Nat) : List (Nat × File) :=
  match Keyed.get? vlogs number with
  | some _ => vlogs
  | none => Keyed.set vlogs number .empty

def liveVlogs (opt : Options) (ms : Manifest) : List Nat :=
  if opt.enableValueSeparation then
    if ms.vlogs = [] then [1] else ms.vlogs
  else []

/-- Step 3: the logs to replay, oldest first. -/
def logsToReplay (d : Disk) (floor : Nat) : List (Nat × File) :=
  match (d.logs.filter fun p => decide (floor ≤ p.1)).insertionSort fun a b => a.1 ≤ b.1 with
  | [] => [(floor, .empty)]
  | logs => logs

/-- The log file after its replay: cut, and synced, if it had to be. -/
def replayedFile (f : File) : File :=
  match (replayLog f.bytes).truncatedAt with
  | none => f
  | some n => ⟨f.bytes.take n, (f.bytes.take n).length⟩

def replayedEntries (logs : List (Nat × File)) : List Entry :=
  logs.flatMap fun p => (replayLog p.2.bytes).records.map Prod.snd

def replayInto (es : List Entry) : MemTable := es.foldl MemTable.add MemTable.empty

def maxOf (ns : List Nat) (n : Nat) : Nat := ns.foldl max n

/-- The store in memory when `Open` returns. -/
def openedCore (opt : Options) (v : Version) (es : List Entry) (seen : Nat) : Lsm where
  opt := opt
  mem := replayInto es
  imm := none
  immSstNumber := 0
  current := v
  nextSeq := maxOf (es.map Entry.seq ++ v.tables.map fun r => r.fileMeta.largestSeq) 0 + 1
  nextFileNumber := seen + 1
  snapshots := []
  nextHandle := 0
  flush := .idle
  compaction := none
  compactionDisabled := false

/-- The database `Open` returns, from the tables and the logs it has read.
Step 4 keeps what is named or at the floor and above. -/
def opened (opt : Options) (d : Disk) (refs : List TableRef) : DB :=
  let ms := d.manifestState
  let vlogs := liveVlogs opt ms
  let logs := logsToReplay d ms.logNumber
  let logNumber := ((Keyed.keys logs).getLast?).getD ms.logNumber
  { core := openedCore opt (assembleVersion refs) (replayedEntries logs)
      (max (maxOf (ms.files.map FileMeta.fileNumber ++ vlogs) ms.logNumber) logNumber)
    logNumber := logNumber
    immLogNumber := 0
    unsyncedBytes := 0
    vlogs := vlogs
    vlogCurrent := vlogs.getLast?.getD 0
    vlogGcFloor := 0
    gc := .idle
    disk :=
      { logs := logs.map fun p => (p.1, replayedFile p.2)
        ssts := d.ssts.filter fun p => decide (p.1 ∈ ms.files.map FileMeta.fileNumber)
        vlogs := (vlogs.foldl openVlog d.vlogs).filter fun p => decide (p.1 ∈ vlogs)
        manifest := d.manifest } }

/-- `DB::Open`. -/
def openDb (opt : Options) (d : Disk) : Except Status DB :=
  if ¬ d.manifestState.Valid then .error manifestCorrupt
  else
    match openTables d d.manifestState.files with
    | .error e => .error e
    | .ok refs =>
      if d.vlogs ≠ [] ∧ opt.enableValueSeparation = false then .error vlogOnDisk
      else if d.manifestState.vlogs ≠ [] ∧ opt.enableValueSeparation = false then
        .error vlogInManifest
      else .ok (opened opt d refs)

theorem openVlog_of_present {vlogs : List (Nat × File)} {ns : List Nat}
    (h : ∀ n ∈ ns, n ∈ Keyed.keys vlogs) : ns.foldl openVlog vlogs = vlogs := by
  induction ns with
  | nil => rfl
  | cons n ns ih =>
    obtain ⟨hn, hns⟩ := List.forall_mem_cons.mp h
    obtain ⟨f, hf⟩ := Keyed.exists_get? hn
    have hopen : openVlog vlogs n = vlogs := by simp [openVlog, hf]
    rw [List.foldl_cons, hopen, ih hns]

theorem eq_ok_of_toOption {ε α : Type} {x : Except ε α} {a : α} (h : x.toOption = some a) :
    x = .ok a := by
  cases x with
  | error e => cases h
  | ok b => exact congrArg Except.ok (Option.some.inj h)

theorem openDb_eq_ok {opt : Options} {d : Disk} {s : DB} :
    openDb opt d = .ok s ↔ ∃ refs, d.manifestState.Valid ∧
      openTables d d.manifestState.files = .ok refs ∧
      (opt.enableValueSeparation = false → d.vlogs = [] ∧ d.manifestState.vlogs = []) ∧
      s = opened opt d refs := by
  constructor
  · intro h
    unfold openDb at h
    split at h
    · cases h
    · next hvalid =>
      split at h
      · cases h
      · next refs hrefs =>
        split at h
        · cases h
        · next hdisk =>
          split at h
          · cases h
          · next hman =>
            cases h
            refine ⟨refs, not_not.mp hvalid, hrefs, fun hoff => ⟨?_, ?_⟩, rfl⟩
            · exact by_contra fun hne => hdisk ⟨hne, hoff⟩
            · exact by_contra fun hne => hman ⟨hne, hoff⟩
  · rintro ⟨refs, hvalid, hrefs, hoff, rfl⟩
    rw [openDb, if_neg (not_not.mpr hvalid), hrefs]
    dsimp only
    rw [if_neg fun h => h.1 (hoff h.2).1, if_neg fun h => h.1 (hoff h.2).2]

/-- A database in a fresh directory. -/
def fresh (opt : Options) : DB where
  core := Lsm.fresh opt
  logNumber := 1
  immLogNumber := 0
  unsyncedBytes := 0
  vlogs := if opt.enableValueSeparation then [1] else []
  vlogCurrent := if opt.enableValueSeparation then 1 else 0
  vlogGcFloor := 0
  gc := .idle
  disk :=
    { logs := [(1, .empty)]
      ssts := []
      vlogs := if opt.enableValueSeparation then [(1, .empty)] else []
      manifest := none }

theorem openDb_empty (opt : Options) : openDb opt Disk.empty = .ok (fresh opt) := by
  have hvalid : Disk.empty.manifestState.Valid := by decide
  rw [openDb, if_neg (not_not.mpr hvalid)]
  obtain ⟨_, _, _, _, _, separation, _, _, _⟩ := opt
  cases separation <;> rfl

end DB

end BedrockKV
