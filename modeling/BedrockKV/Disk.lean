/-
# `BedrockKV.Disk` — the directory, its effects, and what a power cut leaves

A log or value log is its bytes and how many of them an `fsync` has covered;
a table file is taken at the level of its entries, whole or not; the MANIFEST
is the list of its records.  An `Effect` is one file-system call that can be
seen after a restart.  Directory operations (create, rename, unlink) are
atomic and durable when they return: every caller follows them by `SyncDir`
or, for an unlink, does not depend on it.

A power cut keeps, of every file, some prefix that contains the synced bytes;
`Loss` is the choice of prefixes.  The MANIFEST is synced before its rename,
so it is never torn.
-/
import BedrockKV.Compaction
import BedrockKV.Lib.Keyed

namespace BedrockKV

/-- A log or a value log. -/
structure File where
  bytes : Bytes
  synced : Nat
  deriving DecidableEq

def File.empty : File := ⟨[], 0⟩

def File.append (f : File) (bytes : Bytes) : File := { f with bytes := f.bytes ++ bytes }

def File.sync (f : File) : File := { f with synced := f.bytes.length }

/-- A table file: the table it opens as, if it is whole. -/
structure SstFile where
  table : Option Table
  synced : Bool

/-- The records of a MANIFEST: one for each table and each value log, and the
log number. -/
structure Manifest where
  files : List FileMeta
  vlogs : List Nat
  logNumber : Nat

structure Disk where
  logs : List (Nat × File)
  ssts : List (Nat × SstFile)
  vlogs : List (Nat × File)
  manifest : Option Manifest

def Disk.empty : Disk := ⟨[], [], [], none⟩

inductive Effect where
  | createLog (number : Nat)
  | appendLog (number : Nat) (bytes : Bytes)
  | syncLog (number : Nat)
  | unlinkLog (number : Nat)
  | writeSst (number : Nat) (table : Table)
  | syncSst (number : Nat)
  | unlinkSst (number : Nat)
  | createVlog (number : Nat)
  | appendVlog (number : Nat) (bytes : Bytes)
  | syncVlog (number : Nat)
  | unlinkVlog (number : Nat)
  | publish (manifest : Manifest)

namespace Disk

def apply (d : Disk) : Effect → Disk
  | .createLog n => { d with logs := Keyed.set d.logs n .empty }
  | .appendLog n bytes => { d with logs := Keyed.modify d.logs n fun f => f.append bytes }
  | .syncLog n => { d with logs := Keyed.modify d.logs n File.sync }
  | .unlinkLog n => { d with logs := Keyed.erase d.logs n }
  | .writeSst n t => { d with ssts := Keyed.set d.ssts n ⟨some t, false⟩ }
  | .syncSst n => { d with ssts := Keyed.modify d.ssts n fun f => { f with synced := true } }
  | .unlinkSst n => { d with ssts := Keyed.erase d.ssts n }
  | .createVlog n => { d with vlogs := Keyed.set d.vlogs n .empty }
  | .appendVlog n bytes => { d with vlogs := Keyed.modify d.vlogs n fun f => f.append bytes }
  | .syncVlog n => { d with vlogs := Keyed.modify d.vlogs n File.sync }
  | .unlinkVlog n => { d with vlogs := Keyed.erase d.vlogs n }
  | .publish m => { d with manifest := some m }

def applyAll (d : Disk) (fx : List Effect) : Disk := fx.foldl apply d

@[simp] theorem applyAll_nil (d : Disk) : d.applyAll [] = d := rfl

@[simp] theorem applyAll_cons (d : Disk) (e : Effect) (fx : List Effect) :
    d.applyAll (e :: fx) = (d.apply e).applyAll fx := rfl

theorem applyAll_append (d : Disk) (fx gx : List Effect) :
    d.applyAll (fx ++ gx) = (d.applyAll fx).applyAll gx := List.foldl_append

end Disk

/-! ## Power cuts -/

/-- How much of each file outlives a power cut beyond what was synced. -/
structure Loss where
  log : Nat → Nat
  vlog : Nat → Nat
  sst : Nat → Bool

/-- The first `n` bytes, or as many as were synced if those are more. -/
def File.cut (f : File) (n : Nat) : File :=
  let bytes := f.bytes.take (max f.synced n)
  ⟨bytes, bytes.length⟩

def SstFile.cut (f : SstFile) (torn : Bool) : SstFile :=
  ⟨if f.synced || !torn then f.table else none, true⟩

def Disk.crash (d : Disk) (loss : Loss) : Disk where
  logs := d.logs.map fun p => (p.1, p.2.cut (loss.log p.1))
  ssts := d.ssts.map fun p => (p.1, p.2.cut (loss.sst p.1))
  vlogs := d.vlogs.map fun p => (p.1, p.2.cut (loss.vlog p.1))
  manifest := d.manifest

end BedrockKV
