/-
# `BedrockKV.Block` — prefix-compressed blocks: builder and reader

`block.h` and `block.cpp`.  A block is a run of entries, each with the part of
its key that the previous one does not have, then the offsets of the restart
points, where the whole key stands, then their number.

The reader checks every length against the block before it uses it.  `Seek`
looks for a restart point with a smaller key by bisection and scans from
there; `key_scratch_` is the key of the last entry parsed, and `cur_key_` a
view of it, so that one field stands for both.

What a block that a builder has finished shows is in `BedrockKV.BlockRead`.
-/
import BedrockKV.InternalKey

namespace BedrockKV

/-! ## Internal keys as bytes -/

def extractUserKey (internalKey : Bytes) : Bytes :=
  if 8 ≤ internalKey.length then internalKey.take (internalKey.length - 8) else internalKey

def extractTag (internalKey : Bytes) : Nat :=
  if 8 ≤ internalKey.length then getFixed64 (internalKey.drop (internalKey.length - 8)) else 0

/-- `InternalKeyComparator`, on bytes: a key shorter than a tag is a bare user key. -/
def internalKeyLess (a b : Bytes) : Bool :=
  if extractUserKey a ≠ extractUserKey b then decide (extractUserKey a < extractUserKey b)
  else decide (extractTag b < extractTag a)

/-! ## BlockBuilder -/

structure BlockBuilder where
  restartInterval : Nat
  buffer : Bytes
  restarts : List Nat
  lastKey : Bytes
  counter : Nat
  deriving DecidableEq

/-- How far two keys agree. -/
def sharedPrefix : Bytes → Bytes → Nat
  | a :: as, b :: bs => if a = b then sharedPrefix as bs + 1 else 0
  | _, _ => 0

namespace BlockBuilder

def new (restartInterval : Nat) : BlockBuilder := ⟨restartInterval, [], [0], [], 0⟩

def reset (b : BlockBuilder) : BlockBuilder := new b.restartInterval

/-- The entry of `key` after a key of which it shares the first `shared` bytes. -/
def encode (shared : Nat) (key value : Bytes) : Bytes :=
  putFixed32 shared ++ putFixed32 (key.length - shared) ++ putFixed32 value.length ++
    key.drop shared ++ value

def append (b : BlockBuilder) (shared : Nat) (key value : Bytes) : BlockBuilder :=
  { b with
    buffer := b.buffer ++ encode shared key value
    lastKey := key
    counter := b.counter + 1 }

def add (b : BlockBuilder) (key value : Bytes) : BlockBuilder :=
  if b.counter < b.restartInterval then b.append (sharedPrefix b.lastKey key) key value
  else
    { b with restarts := b.restarts ++ [b.buffer.length % 2 ^ 32], counter := 0 }.append 0 key value

def currentSizeEstimate (b : BlockBuilder) : Nat := b.buffer.length + (b.restarts.length + 1) * 4

def empty (b : BlockBuilder) : Bool := b.counter == 0

/-- The finished block; the builder that is left is reset or thrown away. -/
def finish (b : BlockBuilder) : Bytes :=
  b.buffer ++ b.restarts.flatMap putFixed32 ++ putFixed32 b.restarts.length

end BlockBuilder

/-! ## Block -/

structure Block where
  data : Bytes
  restartArrayOffset : Nat
  numRestarts : Nat
  valid : Bool
  corrupted : Bool
  keyScratch : Bytes
  curValue : Bytes
  entryEnd : Nat

namespace Block

def kHeaderSize : Nat := 12

/-- The constructor: the trailer fits and every restart offset lies before it.  The
product `i * 4` is one of 32-bit integers. -/
def new (contents : Bytes) : Block :=
  let b : Block := ⟨contents, 0, 0, false, false, [], [], 0⟩
  if contents.length < 4 then { b with corrupted := true }
  else
    let numRestarts := getFixed32 (contents.drop (contents.length - 4))
    let trailer := (numRestarts + 1) * 4
    if contents.length < trailer ∨ numRestarts = 0 then
      { b with numRestarts := numRestarts, corrupted := true }
    else
      let offset := contents.length - trailer
      { b with
        numRestarts := numRestarts
        restartArrayOffset := offset
        corrupted := (List.range numRestarts).any fun i =>
          decide (offset ≤ getFixed32 (contents.drop (offset + i * 4 % 2 ^ 32))) }

def restartAt (b : Block) (i : Nat) : Nat :=
  getFixed32 (b.data.drop (b.restartArrayOffset + i * 4))

/-- Restart entries share nothing, so that the key stands in the entry. -/
def keyAtRestart (b : Block) (i : Nat) : Bytes :=
  let off := b.restartAt i
  if b.restartArrayOffset < off + kHeaderSize then []
  else (b.data.drop (off + kHeaderSize)).take (getFixed32 (b.data.drop (off + 4)))

/-- `ParseEntry`: whether there is an entry at `offset`, and the block at it. -/
def parseEntry (b : Block) (offset : Nat) : Bool × Block :=
  let b := { b with valid := false }
  if offset = b.restartArrayOffset then (false, b)
  else if b.restartArrayOffset < offset ∨ b.restartArrayOffset < offset + kHeaderSize then
    (false, { b with corrupted := true })
  else
    let shared := getFixed32 (b.data.drop offset)
    let nonShared := getFixed32 (b.data.drop (offset + 4))
    let valueLen := getFixed32 (b.data.drop (offset + 8))
    if b.keyScratch.length < shared then (false, { b with corrupted := true })
    else if b.restartArrayOffset - offset - kHeaderSize < nonShared + valueLen then
      (false, { b with corrupted := true })
    else
      (true,
        { b with
          keyScratch :=
            b.keyScratch.take shared ++ (b.data.drop (offset + kHeaderSize)).take nonShared
          curValue := (b.data.drop (offset + kHeaderSize + nonShared)).take valueLen
          entryEnd := offset + kHeaderSize + nonShared + valueLen })

/-- `valid_ = ParseEntry(offset)`. -/
def moveTo (b : Block) (offset : Nat) : Block :=
  { (b.parseEntry offset).2 with valid := (b.parseEntry offset).1 }

def seekToFirst (b : Block) : Block :=
  if b.corrupted then { b with valid := false } else b.moveTo 0

def next (b : Block) : Block :=
  if b.corrupted || !b.valid then { b with valid := false } else b.moveTo b.entryEnd

/-- The bisection of `Seek`; it halves `right - left`, which bounds its rounds. -/
def findRestart (b : Block) (target : Bytes) : Nat → Nat → Nat → Nat
  | 0, left, _ => left
  | fuel + 1, left, right =>
    if left < right then
      let mid := (left + right + 1) / 2
      if internalKeyLess (b.keyAtRestart mid) target then findRestart b target fuel mid right
      else findRestart b target fuel left (mid - 1)
    else left

/-- The scan of `Seek`; an entry is longer than its header, so that the bytes of the
block bound its rounds. -/
def scan (target : Bytes) : Nat → Block → Nat → Block
  | 0, b, _ => b
  | fuel + 1, b, offset =>
    if offset < b.restartArrayOffset then
      match b.parseEntry offset with
      | (false, b') => b'
      | (true, b') =>
        let b' := { b' with valid := true }
        if internalKeyLess b'.keyScratch target then scan target fuel b' b'.entryEnd else b'
    else { b with valid := false }

def seek (b : Block) (target : Bytes) : Block :=
  if b.corrupted then { b with valid := false }
  else
    let left := b.findRestart target b.numRestarts 0 (b.numRestarts - 1)
    scan target (b.data.length + 1) { b with valid := false } (b.restartAt left)

end Block

end BedrockKV
