/-
# `BedrockKV.SstFile` — the sorted-table file: builder, table, iterator

`sstable.h` and `sstable.cpp`, down to the bytes:

    [data block 0] … [data block N] [filter block] [index block] [footer]

A data block holds internal keys with their values, the filter block a Bloom
filter for each data block over its user keys, the index block the last key of
each data block with its place, and the footer the places of the two, the
number of entries and a CRC over everything before it.

`Table::Open` reads the whole file, so that a table is the file's bytes with
what `Open` has parsed of them.  That writing the file and reading it back
gives the same bytes is the file system's part and not modelled.  The table
of `BedrockKV.Sources`, a list of entries, is what this file is for; the two
meet in `BedrockKV.SstRead`.
-/
import BedrockKV.Block
import BedrockKV.Bloom
import BedrockKV.Lib.Chunks
import BedrockKV.Lib.Loop
import BedrockKV.Sources

namespace BedrockKV.Sst

open Chunks Loop

def kMagic : Bytes := ascii "BRKVSST1"

def kFooterSize : Nat := 8 + 4 + 8 + 4 + 8 + 4 + 8

def kTagSize : Nat := 8

/-- `EncodeInternalKey`; the tag is the `uint64_t` `(seq << 8) | type`. -/
def encodeInternalKey (userKey : Bytes) (seq : Nat) (type : ValueType) : Bytes :=
  userKey ++ putFixed64 (seq * 256 + type.code)

def userKeyOf (internalKey : Bytes) : Bytes :=
  if kTagSize ≤ internalKey.length then internalKey.take (internalKey.length - kTagSize)
  else internalKey

structure TableOptions where
  blockSize : Nat
  restartInterval : Nat
  bloomBitsPerKey : Nat
  deriving DecidableEq

/-! ## Builder -/

structure Builder where
  options : TableOptions
  dataBlock : BlockBuilder
  indexBlock : BlockBuilder
  blockUserKeys : List Bytes
  filters : Bytes
  filterOffsets : List Nat
  file : Bytes
  crc : UInt32
  lastInternalKey : Bytes
  hasLastKey : Bool
  numEntries : Nat
  smallestSeq : Nat
  largestSeq : Nat
  smallestUserKey : Bytes
  largestUserKey : Bytes
  deriving DecidableEq

namespace Builder

def new (options : TableOptions) : Builder where
  options := options
  dataBlock := BlockBuilder.new options.restartInterval
  indexBlock := BlockBuilder.new options.restartInterval
  blockUserKeys := []
  filters := []
  filterOffsets := []
  file := []
  crc := 0
  lastInternalKey := []
  hasLastKey := false
  numEntries := 0
  smallestSeq := 0
  largestSeq := 0
  smallestUserKey := []
  largestUserKey := []

/-- The place of a block, as the index has it. -/
def handle (offset size : Nat) : Bytes := putFixed64 offset ++ putFixed32 size

section Wild

-- what the platform makes of a number of probes that is no `int`; see `Bloom.probes`
variable (wild : Int)

def flushDataBlock (b : Builder) : Builder :=
  if b.dataBlock.empty then b
  else
    let block := b.dataBlock.finish
    { b with
      crc := crc32 block b.crc
      file := b.file ++ block
      filterOffsets := b.filterOffsets ++ [b.filters.length % 2 ^ 32]
      filters := b.filters ++ Bloom.buildFilter wild b.blockUserKeys b.options.bloomBitsPerKey
      blockUserKeys := []
      indexBlock := b.indexBlock.add b.lastInternalKey (handle b.file.length block.length)
      dataBlock := b.dataBlock.reset }

/-- `Add` without its check and without the flush. -/
def append (b : Builder) (e : Entry) : Builder :=
  let ik := encodeInternalKey e.user e.seq e.type
  let b :=
    if b.hasLastKey then b
    else { b with smallestUserKey := e.user, smallestSeq := e.seq, largestSeq := e.seq }
  { b with
    smallestSeq := min b.smallestSeq e.seq
    largestSeq := max b.largestSeq e.seq
    largestUserKey := e.user
    lastInternalKey := ik
    hasLastKey := true
    dataBlock := b.dataBlock.add ik e.value
    blockUserKeys := b.blockUserKeys ++ [e.user]
    numEntries := b.numEntries + 1 }

def add (b : Builder) (e : Entry) : Except Status Builder :=
  if b.hasLastKey && !internalKeyLess b.lastInternalKey (encodeInternalKey e.user e.seq e.type) then
    .error ⟨.invalidArgument, ascii "sstable entries must be strictly increasing"⟩
  else
    let b := b.append e
    if b.options.blockSize ≤ b.dataBlock.currentSizeEstimate then .ok (b.flushDataBlock wild)
    else .ok b

/-- One `Add` after another, up to the first that is refused. -/
def addAll : Builder → List Entry → Except Status Builder
  | b, [] => .ok b
  | b, e :: es =>
    match b.add wild e with
    | .error status => .error status
    | .ok b' => addAll b' es

/-- The filters, where each of them begins, and where this array does. -/
def filterBlock (b : Builder) : Bytes :=
  b.filters ++ b.filterOffsets.flatMap putFixed32 ++ putFixed32 b.filters.length

def footer (filterOffset filterSize indexOffset indexSize numEntries : Nat)
    (crc : UInt32) : Bytes :=
  putFixed64 filterOffset ++ putFixed32 filterSize ++ putFixed64 indexOffset ++
    putFixed32 indexSize ++ putFixed64 numEntries ++ putFixed32 crc.toNat ++ kMagic

/-- `Finish`: the file, and what it fills in of the caller's `FileMeta`. -/
def finish (b : Builder) (m : FileMeta) : Bytes × FileMeta :=
  let b := b.flushDataBlock wild
  let filterOffset := b.file.length
  let crc := crc32 b.filterBlock b.crc
  let file := b.file ++ b.filterBlock
  let indexBlock := b.indexBlock.finish
  let indexOffset := file.length
  let crc := crc32 indexBlock crc
  let file := file ++ indexBlock
  let file := file ++ footer filterOffset b.filterBlock.length indexOffset indexBlock.length
    b.numEntries crc
  (file,
    { m with
      smallestSeq := b.smallestSeq
      largestSeq := b.largestSeq
      entryCount := b.numEntries
      fileSize := file.length
      smallestKey := b.smallestUserKey
      largestKey := b.largestUserKey })

end Wild

end Builder

/-! ## Table -/

structure IndexEntry where
  key : Bytes
  offset : Nat
  size : Nat

structure Table where
  fileNumber : Nat
  fileData : Bytes
  index : List IndexEntry
  filterBlock : Bytes
  smallestUserKey : Bytes
  largestUserKey : Bytes
  numEntries : Nat

namespace Table

/-- `substr`. -/
def slice (data : Bytes) (offset size : Nat) : Bytes := (data.drop offset).take size

/-- The `fail` of `Open`. -/
def fail (path : Bytes) (msg : String) : Status :=
  ⟨.corruption, ascii "sstable " ++ path ++ ascii ": " ++ ascii msg⟩

/-- The loop over the index block.  `Next` moves by more than a header, so that the
block's bytes bound the rounds. -/
def readIndex (path : Bytes) (footerStart : Nat) :
    Nat → Block → List IndexEntry → Except Status (List IndexEntry × Block)
  | 0, b, index => .ok (index, b)
  | fuel + 1, b, index =>
    if b.valid then
      if b.curValue.length ≠ 12 then .error (fail path "index handle has wrong size")
      else
        let entry : IndexEntry :=
          ⟨b.keyScratch, getFixed64 b.curValue, getFixed32 (b.curValue.drop 8)⟩
        if footerStart < entry.offset ∨ footerStart < (entry.offset + entry.size) % 2 ^ 64 then
          .error (fail path "data block handle out of range")
        else readIndex path footerStart fuel b.next (index ++ [entry])
    else .ok (index, b)

/-- `Open`, once the index is read: the first key is in the first data block. -/
def openBlocks (fileNumber : Nat) (path data filterBlock : Bytes) (numEntries : Nat) :
    List IndexEntry → Except Status Table
  | [] => .error (fail path "no data blocks")
  | first :: rest =>
    let firstBlock := Block.new (slice data first.offset first.size)
    if firstBlock.corrupted then .error (fail path "first data block corrupt")
    else
      let firstBlock := firstBlock.seekToFirst
      if !firstBlock.valid then .error (fail path "first data block empty")
      else .ok
        { fileNumber := fileNumber
          fileData := data
          index := first :: rest
          filterBlock := filterBlock
          smallestUserKey := userKeyOf firstBlock.keyScratch
          largestUserKey := userKeyOf ((first :: rest).getLast (List.cons_ne_nil _ _)).key
          numEntries := numEntries }

def openFile (fileNumber : Nat) (path data : Bytes) : Except Status Table :=
  if data.length < kFooterSize then .error (fail path "file smaller than a footer")
  else
    let footerStart := data.length - kFooterSize
    let f := data.drop footerStart
    if slice f 36 kMagic.length ≠ kMagic then .error (fail path "bad magic")
    else
      let filterOffset := getFixed64 f
      let filterSize := getFixed32 (f.drop 8)
      let indexOffset := getFixed64 (f.drop 12)
      let indexSize := getFixed32 (f.drop 20)
      let numEntries := getFixed64 (f.drop 24)
      let storedCrc := getFixed32 (f.drop 32)
      if footerStart < filterOffset ∨ footerStart < (filterOffset + filterSize) % 2 ^ 64 ∨
          footerStart < indexOffset ∨ footerStart < (indexOffset + indexSize) % 2 ^ 64 then
        .error (fail path "block handle out of range")
      else if (crc32 (data.take footerStart) 0).toNat ≠ storedCrc then
        .error (fail path "whole-file CRC mismatch")
      else
        let indexBlock := Block.new (slice data indexOffset indexSize)
        if indexBlock.corrupted then .error (fail path "index block corrupt")
        else
          match readIndex path footerStart (indexSize + 1) indexBlock.seekToFirst [] with
          | .error status => .error status
          | .ok (index, indexBlock) =>
            if indexBlock.corrupted then .error (fail path "index block corrupt mid-scan")
            else openBlocks fileNumber path data
              (slice data filterOffset filterSize) numEntries index

/-- `KeyMayMatchInBlock`: yes, unless the block's filter says no.  `array_start + 4` is a
sum of 32-bit integers, and the sizes are `size_t`. -/
def keyMayMatchInBlock (t : Table) (blockIndex : Nat) (userKey : Bytes) : Bool :=
  let size := t.filterBlock.length
  if size < 4 then true
  else
    let arrayStart := getFixed32 (t.filterBlock.drop (size - 4))
    if size < (arrayStart + 4) % 2 ^ 32 then true
    else
      let n := (size - 4 + 2 ^ 64 - arrayStart) % 2 ^ 64 / 4
      if n ≤ blockIndex then true
      else
        let start := getFixed32 (t.filterBlock.drop (arrayStart + blockIndex * 4))
        let stop :=
          if blockIndex + 1 < n then
            getFixed32 (t.filterBlock.drop (arrayStart + (blockIndex + 1) * 4))
          else arrayStart
        if stop < start ∨ arrayStart < stop then true
        else Bloom.keyMayMatch (slice t.filterBlock start (stop - start)) userKey

/-- The `uint64_t` tag of the search key; `kMaxSeq` is `2 ^ 64 - 1`. -/
def targetTag (maxSeq : Nat) : Nat :=
  if 2 ^ 64 - 1 ≤ maxSeq then 2 ^ 64 - 1 else maxSeq * 256 % 2 ^ 64 + 0xff

/-- `std::lower_bound` over the index: the first block whose last key is not less. -/
def findBlock (t : Table) (target : Bytes) : Nat :=
  lowerBound (fun e : IndexEntry => internalKeyLess e.key target) t.index

/-- The `corrupt` of `Get`. -/
def corrupt (t : Table) (what : String) : Status :=
  ⟨.corruption, ascii "sstable " ++ ascii (toString t.fileNumber) ++ ascii ": " ++ ascii what⟩

/-- What the entry that a search ends at says about the key. -/
def decode (found value userKey : Bytes) : Lookup :=
  if kTagSize ≤ found.length ∧ found.take (found.length - kTagSize) = userKey then
    if getFixed64 (found.drop (found.length - kTagSize)) % 256 = ValueType.value.code then
      .found value
    else .deleted
  else .missing

/-- `Get`; a damaged block is `kMissing` with a status. -/
def get (t : Table) (userKey : Bytes) (maxSeq : Nat) : Lookup × Option Status :=
  let target := userKey ++ putFixed64 (targetTag maxSeq)
  let blockIndex := t.findBlock target
  match t.index[blockIndex]? with
  | none => (.missing, none)
  | some entry =>
    if !t.keyMayMatchInBlock blockIndex userKey then (.missing, none)
    else
      let block := Block.new (slice t.fileData entry.offset entry.size)
      if block.corrupted then (.missing, some (t.corrupt "data block corrupt"))
      else
        let block := block.seek target
        if block.corrupted then (.missing, some (t.corrupt "data block corrupt at seek"))
        else if !block.valid then (.missing, none)
        else (decode block.keyScratch block.curValue userKey, none)

end Table

/-! ## TableIterator -/

structure TableIterator where
  table : Table
  blockIndex : Nat
  block : Block
  valid : Bool
  corrupted : Bool

namespace TableIterator

def new (t : Table) : TableIterator := ⟨t, 0, Block.new [], false, false⟩

def enterBlock (it : TableIterator) (index : Nat) (entry : IndexEntry) (seekFirst : Bool) :
    TableIterator :=
  let block := Block.new (Table.slice it.table.fileData entry.offset entry.size)
  let it := { it with blockIndex := index, block := block }
  if block.corrupted then { it with corrupted := true, valid := false }
  else
    let block := if seekFirst then block.seekToFirst else block
    { it with block := block, valid := block.valid }

def seekToFirst (it : TableIterator) : TableIterator :=
  let it := { it with corrupted := false }
  match it.table.index with
  | [] => { it with valid := false }
  | entry :: _ => it.enterBlock 0 entry true

def seek (it : TableIterator) (target : Bytes) : TableIterator :=
  let it := { it with corrupted := false }
  let i := it.table.findBlock target
  match it.table.index[i]? with
  | none => { it with valid := false }
  | some entry =>
    let it := it.enterBlock i entry false
    if it.corrupted then it
    else { it with block := it.block.seek target, valid := (it.block.seek target).valid }

def next (it : TableIterator) : TableIterator :=
  if !it.valid then it
  else
    let it := { it with block := it.block.next }
    if it.block.corrupted then { it with corrupted := true, valid := false }
    else if it.block.valid then it
    else
      match it.table.index[it.blockIndex + 1]? with
      | none => { it with valid := false }
      | some entry => it.enterBlock (it.blockIndex + 1) entry true

/-- `key()` and `value()`. -/
def pair (it : TableIterator) : Bytes × Bytes := (it.block.keyScratch, it.block.curValue)

/-- A walk from here to the end shows these pairs. -/
def Yields : TableIterator → List (Bytes × Bytes) → Prop := Walks TableIterator.valid pair next

end TableIterator

/-- What a walk shows, from the first entry or from a target on.  Every entry takes more than a
header, so that the blocks' bytes bound its steps. -/
def Table.shown (t : Table) (target : Option Bytes) : List (Bytes × Bytes) :=
  let it := TableIterator.new t
  walk TableIterator.valid TableIterator.pair TableIterator.next
    (t.index.map IndexEntry.size).sum (target.elim it.seekToFirst it.seek)

end BedrockKV.Sst
