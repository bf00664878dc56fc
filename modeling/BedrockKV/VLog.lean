/-
# `BedrockKV.VLog` — the value log: pointers, entries, reading and scanning

The code of `vlog.cpp`, over the bytes of one generation.  `ReadValue` reaches
an entry by its offset; `ScanEntries` only by walking from the start, and it
stops at the first entry that is not whole.

    EntryAt.readValue    an entry is read back at its offset, whatever surrounds it
    EntryAt.scanEntryAt  and the walk reports it, if it gets there
    scanEntries_entries  a file of whole entries is walked to its end

Both read the key and the value of an entry with one `pread`, which returns no
more than `kPreadMax` bytes whatever is asked for, and both take a short read
for the torn end of the file: an entry is only read back when its key and value
together stay within that (`EntryFits`).  `ScanEntries` adds the two lengths in
`uint32_t`, `ReadValue` in 64 bits.
-/
import BedrockKV.Crc

namespace BedrockKV

open List

/-! ## Value pointers -/

structure ValuePointer where
  vlogNumber : Nat
  offset : Nat
  valueSize : Nat
  deriving DecidableEq, Repr

def kValuePointerSize : Nat := 1 + 8 + 8 + 4
def kValuePointerTag : UInt8 := 0xFF

def encodeValuePointer (p : ValuePointer) : Bytes :=
  kValuePointerTag :: (putFixed64 p.vlogNumber ++ (putFixed64 p.offset ++ putFixed32 p.valueSize))

/-- The 21 bytes, tagged, that only a pointer may have. -/
def pointerShaped (stored : Bytes) : Bool :=
  decide (stored.length = kValuePointerSize) && decide (stored.head? = some kValuePointerTag)

def decodeValuePointer (stored : Bytes) : Option ValuePointer :=
  if pointerShaped stored then
    let d := stored.drop 1
    some ⟨getFixed64 d, getFixed64 (d.drop 8), getFixed32 (d.drop 16)⟩
  else none

/-- The numbers a pointer can hold. -/
structure ValuePointer.Fits (p : ValuePointer) : Prop where
  vlogNumber : p.vlogNumber < 2 ^ 64
  offset : p.offset < 2 ^ 64
  valueSize : p.valueSize < 2 ^ 32

theorem pointerShaped_encode (p : ValuePointer) : pointerShaped (encodeValuePointer p) = true := by
  simp [pointerShaped, encodeValuePointer, kValuePointerSize]

theorem decode_encodeValuePointer {p : ValuePointer} (h : p.Fits) :
    decodeValuePointer (encodeValuePointer p) = some p := by
  rw [decodeValuePointer, if_pos (pointerShaped_encode p)]
  have h₁ : (encodeValuePointer p).drop 1 =
      putFixed64 p.vlogNumber ++ (putFixed64 p.offset ++ putFixed32 p.valueSize) := rfl
  have h₂ : ((encodeValuePointer p).drop 1).drop 8 =
      putFixed64 p.offset ++ putFixed32 p.valueSize := by
    rw [h₁, drop_left' (length_putFixed64 _)]
  have h₃ : ((encodeValuePointer p).drop 1).drop 16 = putFixed32 p.valueSize ++ [] := by
    rw [show 16 = 8 + 8 from rfl, ← drop_drop, h₂, drop_left' (length_putFixed64 _), append_nil]
  simp only [h₃, h₂]
  rw [h₁, getFixed64_putFixed64 h.vlogNumber, getFixed64_putFixed64 h.offset,
    getFixed32_putFixed32 h.valueSize]

/-! ## Entries -/

def kEntryHeaderSize : Nat := 12

/-- Everything behind the CRC field. -/
def entryBody (key value : Bytes) : Bytes :=
  putFixed32 key.length ++ (putFixed32 value.length ++ (key ++ value))

/-- The bytes `VLog::Append` writes. -/
def encodeEntry (key value : Bytes) : Bytes :=
  putFixed32 (crc32 (entryBody key value) 0).toNat ++ entryBody key value

/-- `%06llu` and a suffix. -/
def numberedFile (number : Nat) (suffix : String) : Bytes :=
  let digits := toString number
  ascii (String.ofList (List.replicate (6 - digits.length) '0') ++ digits ++ suffix)

def vlogFileName (number : Nat) : Bytes := numberedFile number ".vlog"

/-- The most that one `pread` transfers, on Linux. -/
def kPreadMax : Nat := 0x7ffff000

/-- `pread`, when it does not fail: it may return fewer bytes than `count`. -/
def pread (file : Bytes) (count offset : Nat) : Bytes :=
  (file.drop offset).take (min count kPreadMax)

/-- `VLog::ReadValue` on generation `number` with the contents `file`; `end_`
is the length of the file. -/
def readValue (number : Nat) (file : Bytes) (offset expectedSize : Nat) : Except Status Bytes :=
  if file.length < offset ∨ file.length - offset < kEntryHeaderSize then
    .error ⟨.notFound, ascii "value pointer past end of vlog " ++ vlogFileName number⟩
  else
    let klen := getFixed32 (file.drop (offset + 4))
    let vsize := getFixed32 (file.drop (offset + 8))
    let payloadSize := klen + vsize
    if file.length < klen ∨ file.length < vsize ∨
        file.length - offset - kEntryHeaderSize < payloadSize then
      .error ⟨.notFound, ascii "torn vlog tail in " ++ vlogFileName number⟩
    else if vsize ≠ expectedSize then
      .error ⟨.corruption, ascii ("vlog entry size " ++ toString vsize ++ " != pointer size " ++
        toString expectedSize)⟩
    else
      let payload := pread file payloadSize (offset + kEntryHeaderSize)
      if payload.length < payloadSize then
        .error ⟨.notFound, ascii "torn vlog tail in " ++ vlogFileName number⟩
      else if (crc32 payload (crc32 ((file.drop (offset + 4)).take 8) 0)).toNat =
          getFixed32 (file.drop offset) then
        .ok ((payload.drop klen).take vsize)
      else .error ⟨.corruption, ascii "vlog entry CRC mismatch in " ++ vlogFileName number⟩

/-- What `fn` is called with. -/
structure ScannedEntry where
  key : Bytes
  value : Bytes
  offset : Nat
  deriving DecidableEq, Repr

/-- One round of `ScanEntries` at `off`: the entry there and the next offset.
The payload buffer has `klen + vsize` bytes in `uint32_t`; `total` is 64 bits.
A short `pread` ends the scan. -/
def scanEntryAt (file : Bytes) (off : Nat) : Option (ScannedEntry × Nat) :=
  if file.length < off + kEntryHeaderSize then none
  else
    let klen := getFixed32 (file.drop (off + 4))
    let vsize := getFixed32 (file.drop (off + 8))
    let total := kEntryHeaderSize + klen + vsize
    if file.length < off + total then none
    else
      let payload := pread file ((klen + vsize) % 2 ^ 32) (off + kEntryHeaderSize)
      if payload.length < (klen + vsize) % 2 ^ 32 then none
      else if (crc32 payload (crc32 ((file.drop (off + 4)).take 8) 0)).toNat =
          getFixed32 (file.drop off) then
        some (⟨payload.take klen, (payload.drop klen).take vsize, off⟩, off + total)
      else none

/-- The loop of `ScanEntries`. -/
def scanFrom (file : Bytes) : Nat → Nat → List ScannedEntry
  | 0, _ => []
  | fuel + 1, off =>
    match scanEntryAt file off with
    | none => []
    | some (e, next) => e :: scanFrom file fuel next

/-- `ScanEntries` up to the end of the file; an entry takes at least a header. -/
def scanEntries (file : Bytes) : List ScannedEntry := scanFrom file (file.length + 1) 0

/-! ## Reading an entry back -/

theorem pread_eq {count : Nat} (h : count ≤ kPreadMax) (file : Bytes) (offset : Nat) :
    pread file count offset = (file.drop offset).take count := by
  rw [pread, min_eq_left h]

theorem le_kPreadMax {file : Bytes} {count offset : Nat}
    (h : ¬ (pread file count offset).length < count) : count ≤ kPreadMax := by
  have hlen := length_take_le (min count kPreadMax) (file.drop offset)
  rw [← pread] at hlen
  omega

section Entry

variable {F X key value : Bytes} {o : Nat}

theorem length_entryBody (key value : Bytes) :
    (entryBody key value).length = 8 + key.length + value.length := by
  simp [entryBody]
  omega

theorem length_encodeEntry (key value : Bytes) :
    (encodeEntry key value).length = kEntryHeaderSize + key.length + value.length := by
  rw [encodeEntry, length_append, length_entryBody, length_putFixed32]
  simp only [kEntryHeaderSize]
  omega

/-- The fields of an entry that stands at `o`. -/
structure EntryAt (F : Bytes) (o : Nat) (key value : Bytes) : Prop where
  length : o + kEntryHeaderSize + key.length + value.length ≤ F.length
  crc : getFixed32 (F.drop o) = (crc32 (entryBody key value) 0).toNat
  klen : getFixed32 (F.drop (o + 4)) = key.length
  vsize : getFixed32 (F.drop (o + 8)) = value.length
  sizes : (F.drop (o + 4)).take 8 = putFixed32 key.length ++ putFixed32 value.length
  payload : (F.drop (o + kEntryHeaderSize)).take (key.length + value.length) = key ++ value

theorem entryAt_of_drop (hk : key.length < 2 ^ 32) (hv : value.length < 2 ^ 32)
    (hF : F.drop o = encodeEntry key value ++ X) : EntryAt F o key value := by
  have hcrc : (crc32 (entryBody key value) 0).toNat < 2 ^ 32 := UInt32.toNat_lt _
  have h₄ : F.drop (o + 4) =
      putFixed32 key.length ++ (putFixed32 value.length ++ (key ++ (value ++ X))) := by
    rw [← drop_drop, hF, encodeEntry, append_assoc, drop_left' (length_putFixed32 _), entryBody]
    simp only [append_assoc]
  have h₈ : F.drop (o + 8) = putFixed32 value.length ++ (key ++ (value ++ X)) := by
    rw [show o + 8 = o + 4 + 4 from rfl, ← drop_drop, h₄, drop_left' (length_putFixed32 _)]
  have h₁₂ : F.drop (o + kEntryHeaderSize) = key ++ value ++ X := by
    rw [show o + kEntryHeaderSize = o + 8 + 4 from rfl, ← drop_drop, h₈,
      drop_left' (length_putFixed32 _), append_assoc]
  refine ⟨?_, ?_, ?_, ?_, ?_, ?_⟩
  · have hlen := congrArg List.length hF
    rw [length_drop, length_append, length_encodeEntry] at hlen
    simp only [kEntryHeaderSize] at *
    omega
  · rw [hF, encodeEntry, append_assoc, getFixed32_putFixed32 hcrc]
  · rw [h₄, getFixed32_putFixed32 hk]
  · rw [h₈, getFixed32_putFixed32 hv]
  · rw [h₄, ← append_assoc, take_left' (by simp)]
  · rw [h₁₂, take_left' (by simp)]

theorem EntryAt.crc_ok (h : EntryAt F o key value) :
    (crc32 (key ++ value) (crc32 ((F.drop (o + 4)).take 8) 0)).toNat = getFixed32 (F.drop o) := by
  rw [h.sizes, ← crc32_append, h.crc, entryBody]
  simp only [append_assoc]

theorem EntryAt.pread (h : EntryAt F o key value)
    (hfit : key.length + value.length ≤ kPreadMax) :
    pread F (key.length + value.length) (o + kEntryHeaderSize) = key ++ value := by
  rw [pread_eq hfit, h.payload]

theorem EntryAt.readValue (h : EntryAt F o key value)
    (hfit : key.length + value.length ≤ kPreadMax) (number : Nat) :
    readValue number F o value.length = .ok value := by
  have hlen := h.length
  rw [BedrockKV.readValue, h.klen, h.vsize]
  dsimp only
  rw [if_neg (by omega), if_neg (by omega), if_neg (not_not.mpr rfl), h.pread hfit,
    if_neg (by rw [length_append]; exact lt_irrefl _), if_pos h.crc_ok, drop_left' rfl, take_length]

theorem EntryAt.scanEntryAt (h : EntryAt F o key value)
    (hfit : key.length + value.length ≤ kPreadMax) :
    scanEntryAt F o =
      some (⟨key, value, o⟩, o + (kEntryHeaderSize + key.length + value.length)) := by
  have hlen := h.length
  have hmod : (key.length + value.length) % 2 ^ 32 = key.length + value.length :=
    Nat.mod_eq_of_lt (lt_of_le_of_lt hfit (by decide))
  rw [BedrockKV.scanEntryAt, h.klen, h.vsize]
  dsimp only
  rw [hmod, h.pread hfit, if_neg (by omega), if_neg (by omega),
    if_neg (by rw [length_append]; exact lt_irrefl _), if_pos h.crc_ok,
    take_left' rfl, drop_left' rfl, take_length]

end Entry

theorem length_readValue {number offset size : Nat} {file value : Bytes}
    (h : readValue number file offset size = .ok value) : value.length < 2 ^ 32 := by
  have hlt : getFixed32 (file.drop (offset + 8)) < 2 ^ 32 := getFixed_lt 4 _
  unfold readValue at h
  dsimp only at h
  repeat' split at h
  all_goals cases h
  exact lt_of_le_of_lt (length_take_le _ _) hlt

/-! ## A file of whole entries -/

/-- What a generation that only `Append` has written holds. -/
def encodeEntries : List (Bytes × Bytes) → Bytes
  | [] => []
  | (key, value) :: rest => encodeEntry key value ++ encodeEntries rest

/-- The scan's view of them, from offset `o` on. -/
def scannedAt (o : Nat) : List (Bytes × Bytes) → List ScannedEntry
  | [] => []
  | (key, value) :: rest =>
    ⟨key, value, o⟩ :: scannedAt (o + (encodeEntry key value).length) rest

def EntryFits (e : Bytes × Bytes) : Prop := e.1.length + e.2.length ≤ kPreadMax

theorem encodeEntries_append (a b : List (Bytes × Bytes)) :
    encodeEntries (a ++ b) = encodeEntries a ++ encodeEntries b := by
  induction a with
  | nil => rfl
  | cons e a ih => simp [encodeEntries, ih]

theorem scannedAt_append (o : Nat) (a b : List (Bytes × Bytes)) :
    scannedAt o (a ++ b) = scannedAt o a ++ scannedAt (o + (encodeEntries a).length) b := by
  induction a generalizing o with
  | nil => rfl
  | cons e a ih => simp [scannedAt, encodeEntries, ih, Nat.add_assoc]

theorem entryAt_of_mem_scannedAt {F : Bytes} {es : List (Bytes × Bytes)} {x : ScannedEntry}
    (hfit : ∀ e ∈ es, EntryFits e) : ∀ {o : Nat}, F.drop o = encodeEntries es →
      x ∈ scannedAt o es → EntryAt F x.offset x.key x.value := by
  induction es with
  | nil => exact nofun
  | cons e es ih =>
    intro o hF hx
    obtain ⟨he, hes⟩ := forall_mem_cons.mp hfit
    simp only [EntryFits, kPreadMax] at he
    rcases mem_cons.mp hx with rfl | hx
    · refine entryAt_of_drop ?_ ?_ hF <;> dsimp only <;> omega
    · refine ih hes ?_ hx
      rw [← drop_drop, hF, encodeEntries, drop_left' rfl]

theorem scanFrom_entries {F : Bytes} {es : List (Bytes × Bytes)} (hfit : ∀ e ∈ es, EntryFits e) :
    ∀ {o fuel : Nat}, F.drop o = encodeEntries es → F.length < o + fuel → o ≤ F.length →
      scanFrom F fuel o = scannedAt o es := by
  induction es with
  | nil =>
    intro o fuel hF hfuel ho
    have hend : F.length ≤ o := drop_eq_nil_iff.mp hF
    cases fuel with
    | zero => rfl
    | succ fuel =>
      have hnone : scanEntryAt F o = none := by
        rw [scanEntryAt, if_pos (by simp only [kEntryHeaderSize]; omega)]
      simp only [scanFrom, hnone, scannedAt]
  | cons e es ih =>
    intro o fuel hF hfuel ho
    obtain ⟨he, hes⟩ := forall_mem_cons.mp hfit
    simp only [EntryFits, kPreadMax] at he
    have hat : EntryAt F o e.1 e.2 := entryAt_of_drop (by omega) (by omega) hF
    have hlen := hat.length
    obtain ⟨fuel, rfl⟩ : ∃ n, fuel = n + 1 := ⟨fuel - 1, by omega⟩
    have hnext : F.drop (o + (encodeEntry e.1 e.2).length) = encodeEntries es := by
      rw [← drop_drop, hF, encodeEntries, drop_left' rfl]
    rw [length_encodeEntry] at hnext
    simp only [scanFrom, hat.scanEntryAt he, scannedAt, length_encodeEntry]
    rw [ih hes hnext (by simp only [kEntryHeaderSize] at *; omega)
      (by simp only [kEntryHeaderSize] at *; omega)]

/-- **A file of whole entries is walked to its end.** -/
theorem scanEntries_entries {es : List (Bytes × Bytes)} (hfit : ∀ e ∈ es, EntryFits e) :
    scanEntries (encodeEntries es) = scannedAt 0 es :=
  scanFrom_entries hfit rfl (by omega) (Nat.zero_le _)

/-- The file is a concatenation of whole entries that the scan can take in. -/
def WholeEntries (file : Bytes) : Prop := ∃ es, file = encodeEntries es ∧ ∀ e ∈ es, EntryFits e

section WholeEntries

variable {file : Bytes} {x y : ScannedEntry}

theorem wholeEntries_nil : WholeEntries [] := ⟨[], rfl, nofun⟩

theorem WholeEntries.append (h : WholeEntries file) {new : List (Bytes × Bytes)}
    (hnew : ∀ e ∈ new, EntryFits e) : WholeEntries (file ++ encodeEntries new) := by
  obtain ⟨es, rfl, hes⟩ := h
  refine ⟨es ++ new, (encodeEntries_append es new).symm, fun e he => ?_⟩
  exact (mem_append.mp he).elim (hes e) (hnew e)

/-- **An append is seen by the scan** behind everything it saw before. -/
theorem WholeEntries.scan_append (h : WholeEntries file) {new : List (Bytes × Bytes)}
    (hnew : ∀ e ∈ new, EntryFits e) :
    scanEntries (file ++ encodeEntries new) = scanEntries file ++ scannedAt file.length new := by
  obtain ⟨es, rfl, hes⟩ := h
  have hall : ∀ e ∈ es ++ new, EntryFits e := fun e he =>
    (mem_append.mp he).elim (hes e) (hnew e)
  rw [← encodeEntries_append, scanEntries_entries hall, scanEntries_entries hes, scannedAt_append,
    Nat.zero_add]

theorem WholeEntries.entryAt (h : WholeEntries file) (hx : x ∈ scanEntries file) :
    EntryAt file x.offset x.key x.value := by
  obtain ⟨es, rfl, hes⟩ := h
  rw [scanEntries_entries hes] at hx
  exact entryAt_of_mem_scannedAt hes rfl hx

theorem mem_of_mem_scannedAt {es : List (Bytes × Bytes)} : ∀ {o : Nat}, x ∈ scannedAt o es →
    (x.key, x.value) ∈ es := by
  induction es with
  | nil => exact nofun
  | cons e es ih =>
    intro o hx
    rcases mem_cons.mp hx with rfl | hx
    · exact mem_cons_self
    · exact mem_cons_of_mem _ (ih hx)

theorem WholeEntries.fits (h : WholeEntries file) (hx : x ∈ scanEntries file) :
    EntryFits (x.key, x.value) := by
  obtain ⟨es, rfl, hes⟩ := h
  rw [scanEntries_entries hes] at hx
  exact hes _ (mem_of_mem_scannedAt hx)

theorem EntryAt.unique {F key value key' value' : Bytes} {o : Nat} (h : EntryAt F o key value)
    (h' : EntryAt F o key' value') : key = key' ∧ value = value' := by
  have hk : key.length = key'.length := h.klen.symm.trans h'.klen
  have hv : value.length = value'.length := h.vsize.symm.trans h'.vsize
  have hpay := h.payload
  rw [hk, hv, h'.payload] at hpay
  obtain ⟨hkey, hvalue⟩ := append_inj hpay hk.symm
  exact ⟨hkey.symm, hvalue.symm⟩

end WholeEntries

end BedrockKV
