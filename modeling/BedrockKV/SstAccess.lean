/-
# `BedrockKV.SstAccess` — what the reader of a table touches

`BedrockKV.SstFile` reads a byte that is not there as zero and takes the
clamped part of a view.  The C++ does not: here every access of `Block`,
`bloom::KeyMayMatch`, `Table::Get` and `TableIterator` is made where its bytes
are or the call fails, as `none`.  So does a `substr` from behind the end,
which throws, a division by zero, and a loop that does not come to its end.

    `GetFixed32(view.data() + pos)`      `fixed32? view pos`
    `view.substr(pos, n)`                `substr? view pos n`
    `view[i]`                            `view[i]?`

A position is in the view that the access goes through: the file, the block or
the filter block.  The sums of `size_t` and of 32-bit integers are written as
such.

A block that is not corrupted has room for its trailer (`Framed`), and that is
enough: whatever its entries say, `Seek` and `Next` stay inside and come to an
end, with the result that `BedrockKV.Block` has (`Framed.seek`, `Framed.next`).
For the filter block it is not.  `array_start + 4` is a sum of 32-bit integers,
so that an `array_start` in the last four of them passes for a small one.
Without it all is well, and with it there is a `Get` that fails
(`accesses_inside_iff`).
-/
import BedrockKV.FilterBlock

namespace BedrockKV

open List

/-! ## Accesses -/

def fixed32? (view : Bytes) (pos : Nat) : Option Nat :=
  if pos + 4 ≤ view.length then some (getFixed32 (view.drop pos)) else none

def substr? (view : Bytes) (pos n : Nat) : Option Bytes :=
  if pos ≤ view.length then some ((view.drop pos).take n) else none

def fixed64? (view : Bytes) (pos : Nat) : Option Nat :=
  if pos + 8 ≤ view.length then some (getFixed64 (view.drop pos)) else none

theorem fixed32?_eq {view : Bytes} {pos : Nat} (h : pos + 4 ≤ view.length) :
    fixed32? view pos = some (getFixed32 (view.drop pos)) := if_pos h

theorem substr?_eq {view : Bytes} {pos : Nat} (h : pos ≤ view.length) (n : Nat) :
    substr? view pos n = some ((view.drop pos).take n) := if_pos h

theorem some_bind {α β : Type} (a : α) (f : α → Option β) : (some a >>= f) = f a := rfl

/-! ## Block -/

namespace Block

/-- The loop of the constructor, which returns at the first restart offset that is not
before the array. -/
def anyRestart? (contents : Bytes) (offset : Nat) : List Nat → Option Bool
  | [] => some false
  | i :: is => do
      let off ← fixed32? contents (offset + i * 4 % 2 ^ 32)
      if offset ≤ off then some true else anyRestart? contents offset is

def new? (contents : Bytes) : Option Block :=
  let b : Block := ⟨contents, 0, 0, false, false, [], [], 0⟩
  if contents.length < 4 then some { b with corrupted := true }
  else do
    let numRestarts ← fixed32? contents (contents.length - 4)
    let trailer := (numRestarts + 1) * 4
    if contents.length < trailer ∨ numRestarts = 0 then
      some { b with numRestarts := numRestarts, corrupted := true }
    else do
      let offset := contents.length - trailer
      let corrupted ← anyRestart? contents offset (List.range numRestarts)
      some { b with
        numRestarts := numRestarts
        restartArrayOffset := offset
        corrupted := corrupted }

def restartAt? (b : Block) (i : Nat) : Option Nat :=
  fixed32? b.data (b.restartArrayOffset + i * 4 % 2 ^ 64)

def keyAtRestart? (b : Block) (i : Nat) : Option Bytes := do
  let off ← b.restartAt? i
  if b.restartArrayOffset < (off + kHeaderSize) % 2 ^ 64 then some []
  else do
    let nonShared ← fixed32? b.data (off + 4)
    substr? b.data ((off + kHeaderSize) % 2 ^ 64) nonShared

def parseEntry? (b : Block) (offset : Nat) : Option (Bool × Block) :=
  let b := { b with valid := false }
  if offset = b.restartArrayOffset then some (false, b)
  else if b.restartArrayOffset < offset ∨
      b.restartArrayOffset < (offset + kHeaderSize) % 2 ^ 64 then
    some (false, { b with corrupted := true })
  else do
    let shared ← fixed32? b.data offset
    let nonShared ← fixed32? b.data (offset + 4)
    let valueLen ← fixed32? b.data (offset + 8)
    if b.keyScratch.length < shared then some (false, { b with corrupted := true })
    else if b.restartArrayOffset - offset - kHeaderSize < nonShared + valueLen then
      some (false, { b with corrupted := true })
    else do
      let keyDelta ← substr? b.data ((offset + kHeaderSize) % 2 ^ 64) nonShared
      let value ← substr? b.data ((offset + kHeaderSize + nonShared) % 2 ^ 64) valueLen
      some (true,
        { b with
          keyScratch := b.keyScratch.take shared ++ keyDelta
          curValue := value
          entryEnd := (offset + kHeaderSize + nonShared + valueLen) % 2 ^ 64 })

def moveTo? (b : Block) (offset : Nat) : Option Block := do
  let (valid, b) ← b.parseEntry? offset
  some { b with valid := valid }

def seekToFirst? (b : Block) : Option Block :=
  if b.corrupted then some { b with valid := false } else b.moveTo? 0

def next? (b : Block) : Option Block :=
  if b.corrupted || !b.valid then some { b with valid := false } else b.moveTo? b.entryEnd

/-- The bisection of `Seek`; `none` also where the rounds do not suffice. -/
def findRestart? (b : Block) (target : Bytes) : Nat → Nat → Nat → Option Nat
  | 0, _, _ => none
  | fuel + 1, left, right =>
    if left < right then do
      let mid := (left + right + 1) / 2
      let key ← b.keyAtRestart? mid
      if internalKeyLess key target then findRestart? b target fuel mid right
      else findRestart? b target fuel left (mid - 1)
    else some left

/-- The scan of `Seek`; `none` also where the rounds do not suffice. -/
def scan? (target : Bytes) : Nat → Block → Nat → Option Block
  | 0, _, _ => none
  | fuel + 1, b, offset =>
    if offset < b.restartArrayOffset then do
      match ← b.parseEntry? offset with
      | (false, b') => some b'
      | (true, b') =>
        let b' := { b' with valid := true }
        if internalKeyLess b'.keyScratch target then scan? target fuel b' b'.entryEnd
        else some b'
    else some { b with valid := false }

def seek? (b : Block) (target : Bytes) : Option Block :=
  if b.corrupted then some { b with valid := false }
  else do
    let left ← b.findRestart? target b.numRestarts 0 (b.numRestarts - 1)
    let offset ← b.restartAt? left
    scan? target (b.data.length + 1) { b with valid := false } offset

/-- A block of a size that 32 bits hold, which has room for its trailer unless it is corrupted. -/
structure Framed (b : Block) : Prop where
  size : b.data.length < 2 ^ 32
  restarts : b.corrupted = false → 0 < b.numRestarts
  frame : b.corrupted = false →
    b.restartArrayOffset + (b.numRestarts + 1) * 4 = b.data.length

theorem anyRestart?_eq {contents : Bytes} {offset : Nat} {is : List Nat}
    (h : ∀ i ∈ is, offset + i * 4 % 2 ^ 32 + 4 ≤ contents.length) :
    anyRestart? contents offset is = some (is.any fun i =>
      decide (offset ≤ getFixed32 (contents.drop (offset + i * 4 % 2 ^ 32)))) := by
  induction is with
  | nil => rfl
  | cons i is ih =>
    obtain ⟨hi, his⟩ := forall_mem_cons.mp h
    rw [anyRestart?, fixed32?_eq hi, any_cons, ih his, some_bind]
    split_ifs with hle
    · rw [decide_eq_true hle, Bool.true_or]
    · rw [decide_eq_false hle, Bool.false_or]

/-- **The constructor** checks what it reads before it does. -/
theorem new?_eq {contents : Bytes} (hsize : contents.length < 2 ^ 32) :
    new? contents = some (new contents) ∧ (new contents).Framed := by
  unfold new? new
  dsimp only
  by_cases hshort : contents.length < 4
  · rw [if_pos hshort, if_pos hshort]
    exact ⟨rfl, hsize, nofun, nofun⟩
  · rw [if_neg hshort, if_neg hshort, fixed32?_eq (by omega), some_bind]
    generalize getFixed32 (contents.drop (contents.length - 4)) = n
    by_cases htrailer : contents.length < (n + 1) * 4 ∨ n = 0
    · rw [if_pos htrailer, if_pos htrailer]
      exact ⟨rfl, hsize, nofun, nofun⟩
    · rw [if_neg htrailer, if_neg htrailer, anyRestart?_eq]
      · refine ⟨rfl, hsize, fun _ => ?_, fun _ => ?_⟩ <;> dsimp only <;> omega
      · intro i hi
        have := mem_range.mp hi
        rw [Nat.mod_eq_of_lt (by omega)]
        omega

section Framed

variable {b : Block}

section

variable (h : b.Framed)
include h

section

variable (hc : b.corrupted = false)
include hc

theorem Framed.restartAt {i : Nat}
    (hi : i < b.numRestarts) : b.restartAt? i = some (b.restartAt i) := by
  have hframe := h.frame hc
  have hsize := h.size
  have hmod : i * 4 % 2 ^ 64 = i * 4 := Nat.mod_eq_of_lt (by omega)
  rw [restartAt?, hmod, fixed32?_eq (by omega)]
  rfl

theorem Framed.keyAtRestart {i : Nat}
    (hi : i < b.numRestarts) : b.keyAtRestart? i = some (b.keyAtRestart i) := by
  have hframe := h.frame hc
  have hsize := h.size
  have hoff : b.restartAt i < 2 ^ 32 := getFixed_lt 4 _
  have hmod : (b.restartAt i + kHeaderSize) % 2 ^ 64 = b.restartAt i + kHeaderSize :=
    Nat.mod_eq_of_lt (by rw [kHeaderSize]; omega)
  rw [keyAtRestart?, h.restartAt hc hi, some_bind]
  rw [hmod, Block.keyAtRestart]
  split_ifs with hfar
  · rfl
  · rw [kHeaderSize] at hfar ⊢
    rw [fixed32?_eq (by omega)]
    exact substr?_eq (by omega) _

/-- `ParseEntry` reads inside the block, whatever the offset; what it leaves is framed, and an
entry is longer than its header and ends before the restart offsets. -/
theorem Framed.parseEntry (offset : Nat) :
    b.parseEntry? offset = some (b.parseEntry offset) ∧ (b.parseEntry offset).2.Framed ∧
      ((b.parseEntry offset).1 = true → (b.parseEntry offset).2.corrupted = false ∧
        (b.parseEntry offset).2.data = b.data ∧
        offset + kHeaderSize ≤ (b.parseEntry offset).2.entryEnd ∧
        (b.parseEntry offset).2.entryEnd ≤ b.data.length) := by
  have hframe := h.frame hc
  have hsize := h.size
  unfold parseEntry? Block.parseEntry
  dsimp only
  by_cases hend : offset = b.restartArrayOffset
  · rw [if_pos hend, if_pos hend]
    exact ⟨rfl, ⟨h.size, h.restarts, h.frame⟩, nofun⟩
  rw [if_neg hend, if_neg hend]
  by_cases hbehind : b.restartArrayOffset < offset
  · rw [if_pos (.inl hbehind), if_pos (.inl hbehind)]
    exact ⟨rfl, ⟨h.size, nofun, nofun⟩, nofun⟩
  have hmod : (offset + kHeaderSize) % 2 ^ 64 = offset + kHeaderSize :=
    Nat.mod_eq_of_lt (by rw [kHeaderSize]; omega)
  rw [hmod]
  by_cases hheader : b.restartArrayOffset < offset + kHeaderSize
  · rw [if_pos (.inr hheader), if_pos (.inr hheader)]
    exact ⟨rfl, ⟨h.size, nofun, nofun⟩, nofun⟩
  have hroom : offset + 12 ≤ b.restartArrayOffset := not_lt.mp hheader
  rw [if_neg (not_or.mpr ⟨hbehind, hheader⟩), if_neg (not_or.mpr ⟨hbehind, hheader⟩),
    fixed32?_eq (by omega), fixed32?_eq (by omega), fixed32?_eq (by omega),
    some_bind, some_bind, some_bind]
  generalize getFixed32 (b.data.drop offset) = shared
  generalize getFixed32 (b.data.drop (offset + 4)) = nonShared
  generalize getFixed32 (b.data.drop (offset + 8)) = valueLen
  by_cases hshared : b.keyScratch.length < shared
  · rw [if_pos hshared, if_pos hshared]
    exact ⟨rfl, ⟨h.size, nofun, nofun⟩, nofun⟩
  rw [if_neg hshared, if_neg hshared]
  by_cases hpayload : b.restartArrayOffset - offset - kHeaderSize < nonShared + valueLen
  · rw [if_pos hpayload, if_pos hpayload]
    exact ⟨rfl, ⟨h.size, nofun, nofun⟩, nofun⟩
  have hfits : offset + kHeaderSize + nonShared + valueLen ≤ b.restartArrayOffset := by
    rw [kHeaderSize] at hpayload ⊢
    omega
  rw [if_neg hpayload, if_neg hpayload, Nat.mod_eq_of_lt (by omega), Nat.mod_eq_of_lt (by omega),
    substr?_eq (by omega), substr?_eq (by omega)]
  refine ⟨rfl, ⟨h.size, h.restarts, h.frame⟩, fun _ => ⟨hc, rfl, ?_, ?_⟩⟩ <;> dsimp only <;> omega

theorem Framed.moveTo (offset : Nat) :
    b.moveTo? offset = some (b.moveTo offset) ∧ (b.moveTo offset).Framed := by
  obtain ⟨heq, hframed, -⟩ := h.parseEntry hc offset
  rw [moveTo?, heq]
  exact ⟨rfl, hframed.size, hframed.restarts, hframed.frame⟩

end

theorem Framed.unplaced : ({ b with valid := false } : Block).Framed :=
  ⟨h.size, h.restarts, h.frame⟩

theorem Framed.seekToFirst :
    b.seekToFirst? = some b.seekToFirst ∧ b.seekToFirst.Framed := by
  unfold seekToFirst? Block.seekToFirst
  by_cases hc : b.corrupted = true
  · rw [if_pos hc, if_pos hc]
    exact ⟨rfl, h.unplaced⟩
  · rw [if_neg hc, if_neg hc]
    exact h.moveTo ((Bool.not_eq_true _).mp hc) 0

theorem Framed.next : b.next? = some b.next ∧ b.next.Framed := by
  unfold next? Block.next
  by_cases hstop : (b.corrupted || !b.valid) = true
  · rw [if_pos hstop, if_pos hstop]
    exact ⟨rfl, h.unplaced⟩
  · rw [if_neg hstop, if_neg hstop]
    rw [Bool.not_eq_true, Bool.or_eq_false_iff] at hstop
    exact h.moveTo hstop.1 b.entryEnd

theorem Framed.findRestart (hc : b.corrupted = false) (target : Bytes) :
    ∀ {fuel left right : Nat}, left ≤ right → right < b.numRestarts → right - left < fuel →
      b.findRestart? target fuel left right = some (b.findRestart target fuel left right) ∧
        b.findRestart target fuel left right < b.numRestarts := by
  intro fuel
  induction fuel with
  | zero =>
    intro left right _ _ hfuel
    cases hfuel
  | succ fuel ih =>
    intro left right hle hright hfuel
    rw [findRestart?, Block.findRestart]
    by_cases hlt : left < right
    · rw [if_pos hlt, if_pos hlt]
      dsimp only
      rw [h.keyAtRestart hc (by omega), some_bind]
      split_ifs
      · exact ih (by omega) hright (by omega)
      · exact ih (by omega) (by omega) (by omega)
    · rw [if_neg hlt, if_neg hlt]
      exact ⟨rfl, by omega⟩

end

/-- The scan ends: each entry takes more bytes than its header. -/
theorem Framed.scan (target : Bytes) : ∀ {fuel : Nat} {b : Block} {offset : Nat}, b.Framed →
    b.corrupted = false → b.data.length - offset < fuel →
      scan? target fuel b offset = some (scan target fuel b offset) ∧
        (scan target fuel b offset).Framed := by
  intro fuel
  induction fuel with
  | zero =>
    intro b offset _ _ hfuel
    cases hfuel
  | succ fuel ih =>
    intro b offset h hc hfuel
    have hframe := h.frame hc
    rw [scan?, Block.scan]
    by_cases hlt : offset < b.restartArrayOffset
    · rw [if_pos hlt, if_pos hlt]
      obtain ⟨heq, hframed, hentry⟩ := h.parseEntry hc offset
      rw [heq, some_bind]
      generalize b.parseEntry offset = r at hframed hentry
      obtain ⟨valid, b'⟩ := r
      cases valid with
      | false => exact ⟨rfl, hframed⟩
      | true =>
        obtain ⟨hc', hdata, hstart, hstop⟩ := hentry rfl
        have hframed' : ({ b' with valid := true } : Block).Framed :=
          ⟨hframed.size, hframed.restarts, hframed.frame⟩
        dsimp only at hstart hstop hdata ⊢
        split_ifs
        · refine ih hframed' hc' ?_
          dsimp only
          rw [hdata]
          rw [kHeaderSize] at hstart
          omega
        · exact ⟨rfl, hframed'⟩
    · rw [if_neg hlt, if_neg hlt]
      exact ⟨rfl, h.unplaced⟩

/-- **`Seek` ends, inside the block.** -/
theorem Framed.seek (h : b.Framed) (target : Bytes) :
    b.seek? target = some (b.seek target) ∧ (b.seek target).Framed := by
  unfold seek? Block.seek
  by_cases hc : b.corrupted = true
  · rw [if_pos hc, if_pos hc]
    exact ⟨rfl, h.unplaced⟩
  · have hsound := (Bool.not_eq_true _).mp hc
    have hpos := h.restarts hsound
    obtain ⟨hfind, hlt⟩ := @Framed.findRestart b h hsound target b.numRestarts 0
      (b.numRestarts - 1) (Nat.zero_le _) (by omega) (by omega)
    rw [if_neg hc, if_neg hc, hfind, some_bind]
    rw [h.restartAt hsound hlt]
    exact h.unplaced.scan target hsound (Nat.lt_succ_of_le (Nat.sub_le _ _))

end Framed

end Block

/-! ## Filters -/

namespace Bloom

def testProbes? (filter : Bytes) (bits : Nat) (step : UInt32) : Nat → UInt32 → Option Bool
  | 0, _ => some true
  | k + 1, h =>
    if bits = 0 then none
    else do
      let byte ← filter[h.toNat % bits / 8]?
      if byte &&& bitMask (h.toNat % bits) ≠ 0 then testProbes? filter bits step k (h + step)
      else some false

def keyMayMatch? (filter key : Bytes) : Option Bool :=
  if filter.length < 2 then some true
  else do
    let k ← filter.getLast?
    testProbes? filter ((filter.length - 1) * 8 % 2 ^ 64) (delta (hash key)) k.toNat (hash key)

theorem testProbes?_eq {filter : Bytes} {bits : Nat} {step : UInt32} (hpos : 0 < bits)
    (hbits : bits ≤ filter.length * 8) (k : Nat) :
    ∀ h : UInt32, testProbes? filter bits step k h = some (testProbes filter bits step k h) := by
  induction k with
  | zero => exact fun _ => rfl
  | succ k ih =>
    intro h
    have hlt : h.toNat % bits / 8 < filter.length := by
      have := Nat.mod_lt h.toNat hpos
      omega
    rw [testProbes?, testProbes, if_neg (by omega), getElem?_eq_getElem hlt, testBit,
      getD_eq_getElem _ _ hlt, ih, some_bind]
    split_ifs with hbit hset hset
    · rfl
    · exact absurd (decide_eq_true hbit) hset
    · exact absurd (of_decide_eq_true hset) hbit
    · rfl

theorem keyMayMatch?_eq {filter : Bytes} (hsize : filter.length < 2 ^ 32) (key : Bytes) :
    keyMayMatch? filter key = some (keyMayMatch filter key) := by
  unfold keyMayMatch? keyMayMatch
  by_cases hshort : filter.length < 2
  · rw [if_pos hshort, if_pos hshort]
  · have hlast : filter.getLast? = some (filter.getLastD 0) := by
      have hne : filter ≠ [] := by
        rintro rfl
        exact hshort (by decide)
      rw [getLastD_eq_getLast?, getLast?_eq_some_getLast hne, Option.getD_some]
    rw [if_neg hshort, if_neg hshort, hlast, Nat.mod_eq_of_lt (by omega)]
    exact testProbes?_eq (by omega) (by omega) _ _

end Bloom

namespace Sst

/-- `std::lower_bound`: a position in the range or its end, and the first one without the
property if those with it come first. -/
structure LowerBound where
  search : (IndexEntry → Bool) → List IndexEntry → Nat
  search_le : ∀ p xs, search p xs ≤ xs.length
  search_eq : ∀ p xs, Chunks.Upto p xs → search p xs = Chunks.lowerBound p xs

/-- The first position without the property, on any list. -/
def firstWithout : LowerBound where
  search := Chunks.lowerBound
  search_le _ _ := List.findIdx_le_length
  search_eq _ _ _ := rfl

namespace Table

/-- Where the filter ends: the next one begins, or the array does. -/
def filterStop? (t : Table) (arrayStart n blockIndex : Nat) : Option Nat :=
  if blockIndex + 1 < n then fixed32? t.filterBlock (arrayStart + (blockIndex + 1) * 4)
  else some arrayStart

def keyMayMatchInBlock? (t : Table) (blockIndex : Nat) (userKey : Bytes) : Option Bool :=
  let size := t.filterBlock.length
  if size < 4 then some true
  else do
    let arrayStart ← fixed32? t.filterBlock (size - 4)
    if size < (arrayStart + 4) % 2 ^ 32 then some true
    else
      let n := (size - 4 + 2 ^ 64 - arrayStart) % 2 ^ 64 / 4
      if n ≤ blockIndex then some true
      else do
        let start ← fixed32? t.filterBlock (arrayStart + blockIndex * 4)
        let stop ← t.filterStop? arrayStart n blockIndex
        if stop < start ∨ arrayStart < stop then some true
        else do
          let filter ← substr? t.filterBlock start (stop - start)
          Bloom.keyMayMatch? filter userKey

def decode? (found value userKey : Bytes) : Option Lookup :=
  if kTagSize ≤ found.length then do
    let user ← substr? found 0 (found.length - kTagSize)
    if user = userKey then do
      let tag ← fixed64? found (found.length - kTagSize)
      if tag % 256 = ValueType.value.code then some (.found value) else some .deleted
    else some .missing
  else some .missing

def get? (S : LowerBound) (t : Table) (userKey : Bytes) (maxSeq : Nat) :
    Option (Lookup × Option Status) :=
  let target := userKey ++ putFixed64 (targetTag maxSeq)
  let blockIndex := S.search (fun e => internalKeyLess e.key target) t.index
  if blockIndex = t.index.length then some (.missing, none)
  else do
    let entry ← t.index[blockIndex]?
    if !(← t.keyMayMatchInBlock? blockIndex userKey) then some (.missing, none)
    else do
      let block ← Block.new? (← substr? t.fileData entry.offset entry.size)
      if block.corrupted then some (.missing, some (t.corrupt "data block corrupt"))
      else do
        let block ← block.seek? target
        if block.corrupted then some (.missing, some (t.corrupt "data block corrupt at seek"))
        else if !block.valid then some (.missing, none)
        else do
          let lookup ← decode? block.keyScratch block.curValue userKey
          some (lookup, none)

/-- `Get`, from where the search in the index has ended. -/
def getAt (t : Table) (blockIndex : Nat) (userKey : Bytes) (maxSeq : Nat) :
    Lookup × Option Status :=
  match t.index[blockIndex]? with
  | none => (.missing, none)
  | some entry =>
    if !t.keyMayMatchInBlock blockIndex userKey then (.missing, none)
    else
      let block := Block.new (slice t.fileData entry.offset entry.size)
      if block.corrupted then (.missing, some (t.corrupt "data block corrupt"))
      else
        let block := block.seek (userKey ++ putFixed64 (targetTag maxSeq))
        if block.corrupted then (.missing, some (t.corrupt "data block corrupt at seek"))
        else if !block.valid then (.missing, none)
        else (decode block.keyScratch block.curValue userKey, none)

/-- The blocks of a table begin in its file, and their sizes and that of the filter block are
32-bit numbers. -/
structure Placed (t : Table) : Prop where
  index : ∀ e ∈ t.index, e.offset ≤ t.fileData.length ∧ e.size < 2 ^ 32
  filterBlock : t.filterBlock.length < 2 ^ 32

/-- Where the filter block has the start of its offset array, it is not one of the last four
32-bit numbers. -/
def ArrayBelow (t : Table) : Prop :=
  4 ≤ t.filterBlock.length →
    getFixed32 (t.filterBlock.drop (t.filterBlock.length - 4)) + 4 < 2 ^ 32

instance (t : Table) : Decidable t.ArrayBelow := by
  unfold ArrayBelow
  infer_instance

theorem decode?_eq (found value userKey : Bytes) :
    decode? found value userKey = some (decode found value userKey) := by
  unfold decode? decode
  by_cases hlen : kTagSize ≤ found.length
  · rw [if_pos hlen, substr?_eq (Nat.zero_le _), drop_zero, some_bind]
    by_cases huser : found.take (found.length - kTagSize) = userKey
    · rw [if_pos huser, if_pos ⟨hlen, huser⟩, fixed64?,
        if_pos (by rw [kTagSize] at hlen ⊢; omega), some_bind]
      split_ifs <;> rfl
    · rw [if_neg huser, if_neg (fun h => huser h.2)]
  · rw [if_neg hlen, if_neg (fun h => hlen h.1)]

section Placed

variable {t : Table}

/-- **The filter block is read inside**, where its array does not start at one of the last
32-bit numbers. -/
theorem Placed.keyMayMatchInBlock (h : t.Placed) (harray : t.ArrayBelow) (blockIndex : Nat)
    (userKey : Bytes) :
    t.keyMayMatchInBlock? blockIndex userKey = some (t.keyMayMatchInBlock blockIndex userKey) := by
  have hsize := h.filterBlock
  unfold keyMayMatchInBlock? Table.keyMayMatchInBlock
  dsimp only
  by_cases hshort : t.filterBlock.length < 4
  · rw [if_pos hshort, if_pos hshort]
  · have hbelow := harray (not_lt.mp hshort)
    rw [if_neg hshort, if_neg hshort, fixed32?_eq (by omega), some_bind]
    generalize getFixed32 (t.filterBlock.drop (t.filterBlock.length - 4)) = arrayStart at hbelow ⊢
    rw [Nat.mod_eq_of_lt hbelow]
    by_cases hout : t.filterBlock.length < arrayStart + 4
    · rw [if_pos hout, if_pos hout]
    · rw [if_neg hout, if_neg hout]
      have hn : (t.filterBlock.length - 4 + 2 ^ 64 - arrayStart) % 2 ^ 64 / 4 * 4 + arrayStart + 4 ≤
          t.filterBlock.length := by omega
      generalize (t.filterBlock.length - 4 + 2 ^ 64 - arrayStart) % 2 ^ 64 / 4 = n at hn ⊢
      by_cases hindex : n ≤ blockIndex
      · rw [if_pos hindex, if_pos hindex]
      · have hstop : t.filterStop? arrayStart n blockIndex = some (if blockIndex + 1 < n then
              getFixed32 (t.filterBlock.drop (arrayStart + (blockIndex + 1) * 4))
              else arrayStart) := by
          unfold filterStop?
          split_ifs
          · exact fixed32?_eq (by omega)
          · rfl
        rw [if_neg hindex, if_neg hindex, fixed32?_eq (by omega), some_bind, hstop,
          some_bind]
        generalize getFixed32 (t.filterBlock.drop (arrayStart + blockIndex * 4)) = start
        generalize (if blockIndex + 1 < n then
          getFixed32 (t.filterBlock.drop (arrayStart + (blockIndex + 1) * 4))
          else arrayStart) = stop
        by_cases hrange : stop < start ∨ arrayStart < stop
        · rw [if_pos hrange, if_pos hrange]
        · have hlen : ((t.filterBlock.drop start).take (stop - start)).length < 2 ^ 32 := by
            rw [length_take, length_drop]
            omega
          rw [if_neg hrange, if_neg hrange, substr?_eq (by omega), some_bind, slice,
            Bloom.keyMayMatch?_eq hlen]

theorem Placed.block (h : t.Placed) {e : IndexEntry} (he : e ∈ t.index) :
    substr? t.fileData e.offset e.size = some (slice t.fileData e.offset e.size) ∧
      Block.new? (slice t.fileData e.offset e.size) =
        some (Block.new (slice t.fileData e.offset e.size)) ∧
      (Block.new (slice t.fileData e.offset e.size)).Framed := by
  obtain ⟨hoffset, hsize⟩ := h.index e he
  refine ⟨substr?_eq hoffset _, Block.new?_eq ?_⟩
  rw [slice, length_take]
  omega

theorem Placed.get (h : t.Placed) (harray : t.ArrayBelow) (S : LowerBound) (userKey : Bytes)
    (maxSeq : Nat) :
    t.get? S userKey maxSeq = some (t.getAt (S.search (fun e => internalKeyLess e.key
      (userKey ++ putFixed64 (targetTag maxSeq))) t.index) userKey maxSeq) := by
  have hle := S.search_le (fun e => internalKeyLess e.key
    (userKey ++ putFixed64 (targetTag maxSeq))) t.index
  unfold get? getAt
  dsimp only
  generalize S.search _ t.index = i at hle ⊢
  by_cases hend : i = t.index.length
  · rw [if_pos hend, hend, getElem?_eq_none le_rfl]
  · have hlt : i < t.index.length := by omega
    rw [if_neg hend, getElem?_eq_getElem hlt, some_bind, h.keyMayMatchInBlock harray, some_bind]
    dsimp only
    by_cases hfilter : (!t.keyMayMatchInBlock i userKey) = true
    · rw [if_pos hfilter, if_pos hfilter]
    · obtain ⟨hview, hblock, hframed⟩ := h.block (getElem_mem hlt)
      rw [if_neg hfilter, if_neg hfilter, hview, some_bind, hblock, some_bind]
      obtain ⟨hseek, -⟩ := hframed.seek (userKey ++ putFixed64 (targetTag maxSeq))
      rw [hseek, some_bind, decode?_eq]
      split_ifs <;> rfl

end Placed

end Table

/-! ## TableIterator -/

inductive Move where
  | seekToFirst
  | seek (target : Bytes)
  | next
  deriving DecidableEq, Repr

namespace TableIterator

def enterBlock? (it : TableIterator) (index : Nat) (seekFirst : Bool) : Option TableIterator := do
  let entry ← it.table.index[index]?
  let block ← Block.new? (← substr? it.table.fileData entry.offset entry.size)
  let it := { it with blockIndex := index, block := block }
  if block.corrupted then some { it with corrupted := true, valid := false }
  else if seekFirst then do
    let block ← block.seekToFirst?
    some { it with block := block, valid := block.valid }
  else some { it with valid := block.valid }

def seekToFirst? (it : TableIterator) : Option TableIterator :=
  let it := { it with corrupted := false }
  if it.table.index.isEmpty then some { it with valid := false } else it.enterBlock? 0 true

def seek? (S : LowerBound) (it : TableIterator) (target : Bytes) : Option TableIterator :=
  let it := { it with corrupted := false }
  let i := S.search (fun e => internalKeyLess e.key target) it.table.index
  if i = it.table.index.length then some { it with valid := false }
  else do
    let it ← it.enterBlock? i false
    if it.corrupted then some it
    else do
      let block ← it.block.seek? target
      some { it with block := block, valid := block.valid }

def next? (it : TableIterator) : Option TableIterator :=
  if !it.valid then some it
  else do
    let block ← it.block.next?
    let it := { it with block := block }
    if it.block.corrupted then some { it with corrupted := true, valid := false }
    else if it.block.valid then some it
    else if it.table.index.length ≤ it.blockIndex + 1 then some { it with valid := false }
    else it.enterBlock? (it.blockIndex + 1) true

def move? (S : LowerBound) (it : TableIterator) : Move → Option TableIterator
  | .seekToFirst => it.seekToFirst?
  | .seek target => it.seek? S target
  | .next => it.next?

def run? (S : LowerBound) : TableIterator → List Move → Option TableIterator
  | it, [] => some it
  | it, m :: ms => do
      let it ← it.move? S m
      run? S it ms

/-- `Seek`, from where the search in the index has ended. -/
def seekAt (it : TableIterator) (i : Nat) (target : Bytes) : TableIterator :=
  let it := { it with corrupted := false }
  match it.table.index[i]? with
  | none => { it with valid := false }
  | some entry =>
    let it := it.enterBlock i entry false
    if it.corrupted then it
    else { it with block := it.block.seek target, valid := (it.block.seek target).valid }

def move (S : LowerBound) (it : TableIterator) : Move → TableIterator
  | .seekToFirst => it.seekToFirst
  | .seek target =>
    it.seekAt (S.search (fun e => internalKeyLess e.key target) it.table.index) target
  | .next => it.next

/-- An iterator over a table whose blocks are in its file, in one of them. -/
structure Placed (it : TableIterator) : Prop where
  table : it.table.Placed
  block : it.block.Framed

section Placed

variable {it : TableIterator}

theorem placed_new {t : Table} (h : t.Placed) : (new t).Placed :=
  ⟨h, (@Block.new?_eq [] (by decide)).2⟩

theorem Placed.enterBlock (h : it.Placed) {index : Nat} {entry : IndexEntry}
    (hentry : it.table.index[index]? = some entry) (seekFirst : Bool) :
    it.enterBlock? index seekFirst = some (it.enterBlock index entry seekFirst) ∧
      (it.enterBlock index entry seekFirst).Placed := by
  obtain ⟨hview, hblock, hframed⟩ := h.table.block (mem_of_getElem? hentry)
  unfold enterBlock? TableIterator.enterBlock
  rw [hentry, some_bind]
  rw [hview, some_bind]
  rw [hblock, some_bind]
  generalize Block.new (Table.slice it.table.fileData entry.offset entry.size) = b at hframed ⊢
  by_cases hc : b.corrupted = true
  · rw [if_pos hc, if_pos hc]
    exact ⟨rfl, h.table, hframed⟩
  · rw [if_neg hc, if_neg hc]
    cases seekFirst with
    | false => exact ⟨rfl, h.table, hframed⟩
    | true =>
      obtain ⟨hseek, hframed'⟩ := hframed.seekToFirst
      rw [if_pos rfl, if_pos rfl, hseek]
      exact ⟨rfl, h.table, hframed'⟩

theorem Placed.seekToFirst (h : it.Placed) :
    it.seekToFirst? = some it.seekToFirst ∧ it.seekToFirst.Placed := by
  have h' : ({ it with corrupted := false } : TableIterator).Placed := ⟨h.table, h.block⟩
  unfold seekToFirst? TableIterator.seekToFirst
  dsimp only
  cases hindex : it.table.index with
  | nil => exact ⟨rfl, h.table, h.block⟩
  | cons entry rest =>
    have hentry : it.table.index[0]? = some entry := by rw [hindex]; rfl
    exact h'.enterBlock hentry true

theorem Placed.seekAt (h : it.Placed) (S : LowerBound) (target : Bytes) :
    it.seek? S target = some (it.move S (.seek target)) ∧ (it.move S (.seek target)).Placed := by
  have h' : ({ it with corrupted := false } : TableIterator).Placed := ⟨h.table, h.block⟩
  have hle := S.search_le (fun e => internalKeyLess e.key target) it.table.index
  unfold seek? move TableIterator.seekAt
  dsimp only
  generalize S.search _ it.table.index = i at hle ⊢
  by_cases hend : i = it.table.index.length
  · rw [if_pos hend, hend, getElem?_eq_none le_rfl]
    exact ⟨rfl, h.table, h.block⟩
  · have hentry := getElem?_eq_getElem (show i < it.table.index.length by omega)
    obtain ⟨heq, hplaced⟩ := h'.enterBlock hentry false
    rw [if_neg hend, hentry, heq, some_bind]
    dsimp only
    generalize TableIterator.enterBlock _ i _ false = it' at hplaced ⊢
    by_cases hc : it'.corrupted = true
    · rw [if_pos hc, if_pos hc]
      exact ⟨rfl, hplaced⟩
    · obtain ⟨hseek, hframed⟩ := hplaced.block.seek target
      rw [if_neg hc, if_neg hc, hseek]
      exact ⟨rfl, hplaced.table, hframed⟩

theorem Placed.next (h : it.Placed) : it.next? = some it.next ∧ it.next.Placed := by
  obtain ⟨hnext, hframed⟩ := h.block.next
  have h' : ({ it with block := it.block.next } : TableIterator).Placed := ⟨h.table, hframed⟩
  unfold next? TableIterator.next
  by_cases hvalid : (!it.valid) = true
  · rw [if_pos hvalid, if_pos hvalid]
    exact ⟨rfl, h⟩
  · rw [if_neg hvalid, if_neg hvalid, hnext, some_bind]
    by_cases hc : it.block.next.corrupted = true
    · rw [if_pos hc, if_pos hc]
      exact ⟨rfl, h.table, hframed⟩
    · rw [if_neg hc, if_neg hc]
      by_cases hv : it.block.next.valid = true
      · rw [if_pos hv, if_pos hv]
        exact ⟨rfl, h'⟩
      · rw [if_neg hv, if_neg hv]
        by_cases hlast : it.table.index.length ≤ it.blockIndex + 1
        · rw [if_pos hlast, getElem?_eq_none hlast]
          exact ⟨rfl, h.table, hframed⟩
        · have hentry := getElem?_eq_getElem (not_le.mp hlast)
          rw [if_neg hlast, hentry]
          exact h'.enterBlock hentry true

theorem Placed.move (h : it.Placed) (S : LowerBound) (m : Move) :
    it.move? S m = some (it.move S m) ∧ (it.move S m).Placed := by
  cases m with
  | seekToFirst => exact h.seekToFirst
  | seek target => exact h.seekAt S target
  | next => exact h.next

/-- **Whatever is asked of an iterator**, it stays in the file. -/
theorem Placed.run (S : LowerBound) (ms : List Move) : ∀ {it : TableIterator}, it.Placed →
    it.run? S ms = some (ms.foldl (TableIterator.move S) it) := by
  induction ms with
  | nil => exact fun _ => rfl
  | cons m ms ih =>
    intro it h
    obtain ⟨heq, h'⟩ := h.move S m
    rw [run?, heq]
    exact ih h'

end Placed

end TableIterator

/-! ## Any file that opens -/

/-- Every `Get`, and every walk of an iterator, ends without an access outside. -/
def Table.Inside (S : LowerBound) (t : Table) : Prop :=
  (∀ userKey maxSeq, (t.get? S userKey maxSeq).isSome) ∧
    ∀ ms : List Move, ((TableIterator.new t).run? S ms).isSome

theorem Opened.placed {F : Bytes} {t : Table} (h : Opened F t) : t.Placed := by
  refine ⟨fun e he => ?_, ?_⟩
  · obtain ⟨hrange, hsize⟩ := h.index e he
    rw [h.fileData]
    exact ⟨hrange.1.trans (Nat.sub_le _ _), hsize⟩
  · have hsize : (filterHandle F).2 < 2 ^ 32 := getFixed_lt 4 _
    rw [h.filterBlock, Table.slice, length_take]
    omega

theorem not_less_least (key : Bytes) :
    internalKeyLess key ([] ++ putFixed64 (Table.targetTag (2 ^ 64 - 1))) = false := by
  have htag : Table.targetTag (2 ^ 64 - 1) = 2 ^ 64 - 1 := by decide
  rw [htag, Bool.eq_false_iff, ne_eq, internalKeyLess_iff, parsedKey_tagged [] (by decide)]
  unfold InternalKey.less parsedKey
  dsimp only
  split
  · exact not_lt_nil _
  · have hlt : extractTag key < 2 ^ 64 := by
      unfold extractTag
      split
      · exact getFixed_lt 8 _
      · decide
    rw [WithTop.coe_lt_coe]
    omega

/-- **A wrapped sum**: with its array at one of the last four 32-bit numbers, the filter block
is read outside. -/
theorem Table.Placed.keyMayMatchInBlock_none {t : Table} (h : t.Placed) (harray : ¬ t.ArrayBelow)
    (userKey : Bytes) : t.keyMayMatchInBlock? 0 userKey = none := by
  have hsize := h.filterBlock
  unfold Table.ArrayBelow at harray
  obtain ⟨hlen, harray⟩ := Classical.not_imp.mp harray
  have hstart : getFixed32 (t.filterBlock.drop (t.filterBlock.length - 4)) < 2 ^ 32 :=
    getFixed_lt 4 _
  unfold Table.keyMayMatchInBlock?
  dsimp only
  rw [if_neg (by omega), fixed32?_eq (by omega), some_bind]
  generalize getFixed32 (t.filterBlock.drop (t.filterBlock.length - 4)) =
    arrayStart at harray hstart ⊢
  rw [if_neg (by omega), if_neg (by omega), fixed32?, if_neg (by omega)]
  rfl

theorem Table.Placed.get_none {t : Table} (h : t.Placed) (hne : t.index ≠ [])
    (harray : ¬ t.ArrayBelow) (S : LowerBound) : t.get? S [] (2 ^ 64 - 1) = none := by
  obtain ⟨e, es, hes⟩ := exists_cons_of_ne_nil hne
  have hsearch : S.search (fun e => internalKeyLess e.key
      ([] ++ putFixed64 (Table.targetTag (2 ^ 64 - 1)))) t.index = 0 := by
    have hupto : Chunks.Upto (fun _ : IndexEntry => false) t.index :=
      pairwise_of_forall_mem_list fun _ _ _ _ h => nomatch h
    simp only [not_less_least]
    rw [S.search_eq _ _ hupto, Chunks.lowerBound_eq, hes]
    rfl
  have hends : ¬ 0 = t.index.length := by
    rw [hes]
    exact (Nat.succ_ne_zero _).symm
  have hentry : t.index[0]? = some e := by
    rw [hes]
    rfl
  unfold Table.get?
  dsimp only
  rw [hsearch, if_neg hends, hentry, Option.bind_eq_bind, Option.bind_some,
    h.keyMayMatchInBlock_none harray]
  rfl

theorem arrayBelow_filterBlock {t : Table} {b : Builder} (hblock : t.filterBlock = b.filterBlock)
    (hsize : b.filterBlock.length < 2 ^ 32) : t.ArrayBelow := by
  intro _
  have hlen : b.filterBlock.length =
      (b.filters ++ b.filterOffsets.flatMap putFixed32).length + 4 := by
    rw [Builder.filterBlock, length_append, length_putFixed32]
  have hle : b.filters.length ≤ (b.filters ++ b.filterOffsets.flatMap putFixed32).length := by
    rw [length_append]
    omega
  rw [hblock, hlen, Nat.add_sub_cancel,
    getFixed32_at [] (by rw [Builder.filterBlock, append_nil]) (by omega)]
  omega

/-- **Which tables are read inside**: of the files that `Open` accepts, those whose filter block
does not claim to have its array at one of the last four 32-bit numbers. -/
theorem accesses_inside_iff {fileNumber : Nat} {path F : Bytes} {t : Table}
    (hopen : Table.openFile fileNumber path F = .ok t) (S : LowerBound) :
    t.Inside S ↔ t.ArrayBelow := by
  have hopened := opened_openFile hopen
  have hplaced := hopened.placed
  constructor
  · rintro ⟨hget, -⟩
    by_contra harray
    have hsome := hget [] (2 ^ 64 - 1)
    rw [hplaced.get_none hopened.index_ne harray S] at hsome
    cases hsome
  · intro harray
    refine ⟨fun userKey maxSeq => ?_, fun ms => ?_⟩
    · rw [hplaced.get harray S]
      rfl
    · rw [(TableIterator.placed_new hplaced).run S ms]
      rfl

theorem accesses_inside_sampleEntries :
    ∃ b t, (Builder.new sampleOptions).addAll 0 sampleEntries = .ok b ∧
      Table.openFile 7 [] (b.finish 0 ⟨0, 0, 0, 0, 0, 0, [], []⟩).1 = .ok t ∧
      t.Inside firstWithout := by
  obtain ⟨b, hadd, hfile⟩ := table_shows ⟨sampleEntries, by decide, increasing_sampleEntries⟩
    small_sampleEntries fits_sampleEntries
  obtain ⟨-, t, hopen, -⟩ := hfile ⟨0, 0, 0, 0, 0, 0, [], []⟩ 7 []
  refine ⟨b, t, hadd, hopen, (accesses_inside_iff hopen firstWithout).mpr ?_⟩
  have hlen : (b.finish 0 ⟨0, 0, 0, 0, 0, 0, [], []⟩).1.length < 2 ^ 64 := by
    rw [finish_sampleEntries hadd, length_sampleFile]
    decide
  have hsize : (b.flushDataBlock 0).filterBlock.length < 2 ^ 32 := by
    rw [← addEach_eq hadd]
    decide +kernel
  exact arrayBelow_filterBlock (filterBlock_finish (opened_openFile hopen) hlen hsize) hsize

/-- The same file with four bytes of ones for its filters. -/
def strayFile : Bytes :=
  match (Builder.new sampleOptions).addAll 0 sampleEntries with
  | .ok b => (b.flushDataBlock 0).fileWith [255, 255, 255, 255]
  | .error _ => []

/-- `Open` accepts it, and a `Get` reads almost 4 GiB behind the filter block. -/
theorem accesses_stray :
    ∃ t, Table.openFile 7 [] strayFile = .ok t ∧
      ∀ S : LowerBound, t.get? S [] (2 ^ 64 - 1) = none := by
  obtain ⟨b, pieces, hadd, hholds, hentries, ⟨-, hindex⟩, -⟩ :=
    @addAll_holds 0 sampleEntries (Builder.new sampleOptions) [] [] (holds_new _)
      increasing_sampleEntries small_sampleEntries fits_sampleEntries
  have hne : pieces ≠ [] := by
    rintro rfl
    cases hentries
  have hfile : strayFile = (b.flushDataBlock 0).fileWith [255, 255, 255, 255] := by
    rw [strayFile, hadd]
  obtain ⟨t, hopen, hfb, -⟩ :=
    @openFile_fileWith 0 _ pieces hholds hne [255, 255, 255, 255] (by decide) hindex 7 []
  have hopened := opened_openFile hopen
  have harray : ¬ t.ArrayBelow := by
    unfold Table.ArrayBelow
    rw [hfb]
    decide
  rw [hfile]
  exact ⟨t, hopen, hopened.placed.get_none hopened.index_ne harray⟩

end Sst

end BedrockKV
