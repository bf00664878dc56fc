/-
# `BedrockKV.Log` — the record log: CRC, writer, reader

The code of `log.cpp` and `crc32.cpp`.  A file is a list of bytes, cut into
blocks of 32768; a logical record is one or more fragments, none of which
crosses a block boundary, each behind a header of length, CRC and type; a
block tail too short for a header is zero.

The reader is kept as it is written: one block in `buffer_`, a position in
it, an end-of-file flag that a short read sets, and the end of the last whole
record.  What a reader returns for a whole file, without that machinery, is
in `BedrockKV.LogStream`.
-/
import BedrockKV.Encoding

namespace BedrockKV

/-! ## CRC-32 -/

/-- One entry of the table for the reflected polynomial: eight shifts. -/
def crcBit (c : UInt32) : UInt32 :=
  if c &&& 1 = 1 then (0xEDB88320 : UInt32) ^^^ (c >>> 1) else c >>> 1

def crcTable (i : UInt32) : UInt32 :=
  crcBit (crcBit (crcBit (crcBit (crcBit (crcBit (crcBit (crcBit i)))))))

def crcByte (c : UInt32) (b : UInt8) : UInt32 :=
  crcTable ((c ^^^ b.toUInt32) &&& 0xFF) ^^^ (c >>> 8)

/-- `Crc32(data, n, crc)`, inverted before and after. -/
def crc32 (data : Bytes) (crc : UInt32) : UInt32 :=
  data.foldl crcByte (crc ^^^ 0xFFFFFFFF) ^^^ 0xFFFFFFFF

namespace Log

def kBlockSize : Nat := 32768
def kHeaderSize : Nat := 9

def kZeroType : UInt8 := 0
def kFullType : UInt8 := 1
def kFirstType : UInt8 := 2
def kMiddleType : UInt8 := 3
def kLastType : UInt8 := 4

/-- The CRC of a fragment covers its type byte and its payload. -/
def fragmentCrc (type : UInt8) (fragment : Bytes) : Nat :=
  (crc32 fragment (crc32 [type] 0)).toNat

/-! ## Writer -/

def encodeHeader (type : UInt8) (fragment : Bytes) : Bytes :=
  putFixed32 fragment.length ++ putFixed32 (fragmentCrc type fragment) ++ [type]

/-- The type of a fragment, from `begin` and whether it takes all that is left. -/
def fragmentType (first last : Bool) : UInt8 :=
  match first, last with
  | true, true => kFullType
  | true, false => kFirstType
  | false, true => kLastType
  | false, false => kMiddleType

/-- The loop of `EncodeRecord`: `off` is the position in the block. -/
def encodeFrom : Nat → Nat → Bool → Bytes → Bytes
  | 0, _, _, _ => []
  | fuel + 1, off, first, payload =>
    let leftover := kBlockSize - off
    let pad := if leftover < kHeaderSize then List.replicate leftover 0 else []
    let start := if leftover < kHeaderSize then 0 else off
    let avail := kBlockSize - start - kHeaderSize
    let fragment := payload.take avail
    let rest := payload.drop avail
    let type := fragmentType first (decide (rest = []))
    pad ++ encodeHeader type fragment ++ fragment ++
      if rest = [] then []
      else encodeFrom fuel (start + kHeaderSize + fragment.length) false rest

/-- `Writer::EncodeRecord`.  Only the first fragment can be empty with bytes
left to write, so the payload's length bounds the rounds. -/
def encodeRecord (payload : Bytes) (offset : Nat) : Bytes :=
  encodeFrom (payload.length + 2) (offset % kBlockSize) true payload

/-- A `Writer` at `offset` appending one record after another. -/
def encodeRecords (offset : Nat) : List Bytes → Bytes
  | [] => []
  | p :: ps =>
    let bytes := encodeRecord p offset
    bytes ++ encodeRecords (offset + bytes.length) ps

/-! ## Reader -/

/-- `rest` is what the file descriptor has still to give. -/
structure Reader where
  rest : Bytes
  buffer : Bytes
  pos : Nat
  eof : Bool
  bytesRead : Nat
  lastGoodEnd : Nat

def Reader.new (file : Bytes) : Reader := ⟨file, [], 0, false, 0, 0⟩

structure Header where
  length : Nat
  crc : Nat
  type : UInt8
  deriving DecidableEq

def headerAt (bs : Bytes) (pos : Nat) : Header :=
  ⟨getFixed32 (bs.drop pos), getFixed32 (bs.drop (pos + 4)), (bs.drop (pos + 8)).headD 0⟩

def zeroHeader : Header := ⟨0, 0, kZeroType⟩

inductive PhysResult where
  | ok (type : UInt8) (fragment : Bytes) (endOffset : Nat)
  | eof
  | corruption
  deriving DecidableEq

/-- The loop of `ReadPhysicalRecord`. -/
def Reader.readPhysical : Nat → Reader → PhysResult × Reader
  | 0, r => (.eof, r)
  | fuel + 1, r =>
    if r.buffer.length < r.pos + kHeaderSize then
      if r.eof then (.eof, r)
      else
        let block := r.rest.take kBlockSize
        let eof := decide (block.length < kBlockSize)
        if block = [] then (.eof, { r with pos := r.buffer.length, eof := eof })
        else readPhysical fuel
          { r with
            rest := r.rest.drop kBlockSize
            buffer := block
            pos := 0
            eof := eof
            bytesRead := r.bytesRead + block.length }
    else
      let header := headerAt r.buffer r.pos
      let pos := r.pos + kHeaderSize
      if header = zeroHeader then readPhysical fuel { r with pos := r.buffer.length }
      else if kBlockSize - kHeaderSize < header.length ∨
          r.buffer.length < pos + header.length then
        (.corruption, { r with pos := pos })
      else
        let fragment := (r.buffer.drop pos).take header.length
        let r' := { r with pos := pos + header.length }
        if fragmentCrc header.type fragment = header.crc then
          (.ok header.type fragment (r.bytesRead - r.buffer.length + (pos + header.length)), r')
        else (.corruption, r')

/-- Two rounds for each byte left are more than the loop can make. -/
def Reader.readPhysicalRecord (r : Reader) : PhysResult × Reader :=
  r.readPhysical (2 * r.rest.length + 2)

inductive ReadResult where
  | ok (payload : Bytes)
  | eof
  | corruption (offset : Nat)
  deriving DecidableEq

/-- What a fragment does to the record being assembled. -/
inductive Assembly where
  | record (payload : Bytes)
  | more (scratch : Bytes)
  | fail

/-- The `switch (type)` of `ReadRecord`; `scratch` is present while `in_fragmented`. -/
def assembleFragment (scratch : Option Bytes) (type : UInt8) (fragment : Bytes) : Assembly :=
  if type = kFullType then
    match scratch with
    | none => .record fragment
    | some _ => .fail
  else if type = kFirstType then
    match scratch with
    | none => .more fragment
    | some _ => .fail
  else if type = kMiddleType then
    match scratch with
    | none => .fail
    | some bytes => .more (bytes ++ fragment)
  else if type = kLastType then
    match scratch with
    | none => .fail
    | some bytes => .record (bytes ++ fragment)
  else .fail

/-- The loop of `ReadRecord`. -/
def Reader.readFragments : Nat → Reader → Option Bytes → ReadResult × Reader
  | 0, r, _ => (.eof, r)
  | fuel + 1, r, scratch =>
    match r.readPhysicalRecord with
    | (.eof, r') =>
      match scratch with
      | some _ => (.corruption r'.lastGoodEnd, r')
      | none => (.eof, r')
    | (.corruption, r') => (.corruption r'.lastGoodEnd, r')
    | (.ok type fragment endOffset, r') =>
      match assembleFragment scratch type fragment with
      | .record payload => (.ok payload, { r' with lastGoodEnd := endOffset })
      | .more bytes => readFragments fuel r' (some bytes)
      | .fail => (.corruption r'.lastGoodEnd, r')

/-- `Reader::ReadRecord`. -/
def Reader.readRecord (r : Reader) : ReadResult × Reader :=
  r.readFragments (r.rest.length + r.buffer.length + 1) none

end Log

end BedrockKV
