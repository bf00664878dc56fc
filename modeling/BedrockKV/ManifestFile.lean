/-
# `BedrockKV.ManifestFile` — the bytes of the MANIFEST

`BedrockKV.Disk` takes the MANIFEST as the list of its records.  Here it is a
file in the log format: `WriteManifest` adds one record for each table, in the
order of the file numbers, one for each value log, and the log number last;
`ParseManifest` reads them back and checks that the numbers ascend.

    readManifest_bytes   what `Open` makes of the file is the check of `openDb` on the records
    parseManifest_cut    a file that lost its end has lost the log number
    manifest_written     the two together, for any version

The log number is the last record and ends where the file does.  So whatever
is cut off, the reader stops before it, in the middle of a record or at a clean
end; in the second case the parser succeeds, and `Open` still refuses the file,
for the number it has not seen.
-/
import BedrockKV.LogSession
import BedrockKV.Recovery

namespace BedrockKV

open List Log

def kManifestTagSstFile : UInt8 := 1
def kManifestTagLogNumber : UInt8 := 2
def kManifestTagVlogFile : UInt8 := 3

/-! ## Writing -/

/-- The record of a table. -/
def encodeFileMeta (m : FileMeta) : Bytes :=
  kManifestTagSstFile :: (putFixed64 m.fileNumber ++ (putFixed32 m.level ++
    (putFixed64 m.smallestSeq ++ (putFixed64 m.largestSeq ++ (putFixed64 m.entryCount ++
    (putFixed64 m.fileSize ++ (putFixed32 m.smallestKey.length ++ (m.smallestKey ++
    (putFixed32 m.largestKey.length ++ m.largestKey)))))))))

/-- The record of a value log, or of the log number. -/
def encodeNumber (tag : UInt8) (n : Nat) : Bytes := tag :: putFixed64 n

/-- The records in front of the log number. -/
def Manifest.fileRecords (m : Manifest) : List Bytes :=
  m.files.map encodeFileMeta ++ m.vlogs.map (encodeNumber kManifestTagVlogFile)

/-- What `AddRecord` is called with. -/
def Manifest.records (m : Manifest) : List Bytes :=
  m.fileRecords ++ [encodeNumber kManifestTagLogNumber m.logNumber]

def Manifest.bytes (m : Manifest) : Bytes := encodeRecords 0 m.records

/-- `WriteManifest`, up to the rename: the file for a version, the value logs (a `std::map`, which
iterates in order) and the log number. -/
def writeManifest (v : Version) (vlogs : Finset Nat) (logNumber : Nat) : Bytes :=
  Manifest.bytes ⟨(DB.sortByNumber v.tables).map TableRef.fileMeta, vlogs.sort (· ≤ ·), logNumber⟩

/-! ## Parsing -/

/-- `ParseFileMetaRecord`; the sums are of 64 bits. -/
def parseFileMetaRecord (r : Bytes) : Option FileMeta :=
  if r.length < 49 + 4 then none
  else
    let slen := getFixed32 (r.drop 45)
    if r.length < 49 + slen + 4 then none
    else
      let llen := getFixed32 (r.drop (49 + slen))
      if 49 + slen + 4 + llen ≠ r.length then none
      else some
        { fileNumber := getFixed64 (r.drop 1)
          level := getFixed32 (r.drop 9)
          smallestSeq := getFixed64 (r.drop 13)
          largestSeq := getFixed64 (r.drop 21)
          entryCount := getFixed64 (r.drop 29)
          fileSize := getFixed64 (r.drop 37)
          smallestKey := (r.drop 49).take slen
          largestKey := (r.drop (49 + slen + 4)).take llen }

structure ManifestState where
  files : List FileMeta
  vlogs : List Nat
  logNumber : Nat
  hasLogNumber : Bool
  deriving DecidableEq

/-- The variables of the loop of `ParseManifest`. -/
structure ManifestParser where
  state : ManifestState
  lastFileNumber : Nat
  lastVlogNumber : Nat

def ManifestParser.new : ManifestParser := ⟨⟨[], [], 0, false⟩, 0, 0⟩

namespace ManifestParser

def addFile (p : ManifestParser) (m : FileMeta) : ManifestParser :=
  { p with
    state := { p.state with files := p.state.files ++ [m] }
    lastFileNumber := m.fileNumber }

def addVlog (p : ManifestParser) (n : Nat) : ManifestParser :=
  { p with state := { p.state with vlogs := p.state.vlogs ++ [n] }, lastVlogNumber := n }

def setLogNumber (p : ManifestParser) (n : Nat) : ManifestParser :=
  { p with state := { p.state with logNumber := n, hasLogNumber := true } }

/-- One record. -/
def read (p : ManifestParser) (record : Bytes) : Option ManifestParser :=
  match record with
  | [] => none
  | tag :: rest =>
    if tag = kManifestTagSstFile then
      match parseFileMetaRecord (tag :: rest) with
      | none => none
      | some m =>
        if m.fileNumber ≤ p.lastFileNumber ∨ kMaxLevels ≤ m.level then none
        else some (p.addFile m)
    else if tag = kManifestTagLogNumber then
      if (tag :: rest).length ≠ 9 then none else some (p.setLogNumber (getFixed64 rest))
    else if tag = kManifestTagVlogFile then
      if (tag :: rest).length ≠ 9 then none
      else if getFixed64 rest ≤ p.lastVlogNumber then none
      else some (p.addVlog (getFixed64 rest))
    else none

end ManifestParser

/-- The loop of `ParseManifest`. -/
def parseLoop : Nat → Reader → ManifestParser → Option ManifestParser
  | 0, _, _ => none
  | fuel + 1, reader, p =>
    match reader.readRecord with
    | (.eof, _) => some p
    | (.corruption _, _) => none
    | (.ok record, reader') =>
      match p.read record with
      | none => none
      | some p' => parseLoop fuel reader' p'

/-- `ParseManifest`; a record takes at least a byte. -/
def parseManifest (file : Bytes) : Option ManifestState :=
  (parseLoop (file.length + 1) (Reader.new file) .new).map ManifestParser.state

/-- Step 1 of `DB::Open`, for a MANIFEST that exists. -/
def readManifest (file : Bytes) : Option Manifest :=
  (parseManifest file).bind fun ms =>
    if ms.hasLogNumber then some ⟨ms.files, ms.vlogs, ms.logNumber⟩ else none

/-! ## The loop, over the contents of the file -/

/-- The records, then how the file ends. -/
def parseContents (p : ManifestParser) (c : Contents) : Option ManifestParser :=
  ((c.records.map Prod.fst).foldlM ManifestParser.read p).bind fun p' =>
    match c.stop with
    | .eof _ => some p'
    | .corruption => none

theorem parseLoop_eq {F : Bytes} (fuel : Nat) : ∀ {o : Nat} {r : Reader} (p : ManifestParser),
    At F o r → F.length < o + fuel → parseLoop fuel r p = parseContents p (contentsFrom F o) := by
  induction fuel with
  | zero =>
    intro o r p h hfuel
    have := h.le
    omega
  | succ fuel ih =>
    intro o r p h hfuel
    have hret := readRecord_returned h
    rw [parseLoop]
    generalize hres : r.readRecord = res at hret
    obtain ⟨res, r'⟩ := res
    generalize hc : contentsFrom F o = c at hret
    obtain ⟨records, stop⟩ := c
    cases records with
    | nil =>
      cases stop with
      | eof q =>
        obtain rfl : res = .eof := hret
        rfl
      | corruption =>
        obtain rfl : res = .corruption _ := hret
        rfl
    | cons record records =>
      obtain ⟨payload, e⟩ := record
      obtain ⟨rfl, hat, hgood, hnext⟩ := hret
      have hlt := (contentsFrom_cons hc).1
      dsimp only at hat ⊢
      rw [parseContents, map_cons, foldlM_cons]
      cases hread : p.read payload with
      | none => rfl
      | some p' =>
        dsimp only
        rw [ih p' hat (by omega), hnext]
        rfl

/-- **The parser reads the contents of the file.** -/
theorem parseManifest_eq (F : Bytes) :
    parseManifest F = (parseContents .new (contents F)).map ManifestParser.state :=
  congrArg _ (parseLoop_eq (F.length + 1) .new (at_new F) (by omega))

/-! ## One record -/

/-- The fields are of the sizes the source gives them. -/
structure FileMeta.Fits (m : FileMeta) : Prop where
  fileNumber : m.fileNumber < 2 ^ 64
  level : m.level < 2 ^ 32
  smallestSeq : m.smallestSeq < 2 ^ 64
  largestSeq : m.largestSeq < 2 ^ 64
  entryCount : m.entryCount < 2 ^ 64
  fileSize : m.fileSize < 2 ^ 64
  smallestKey : m.smallestKey.length < 2 ^ 32
  largestKey : m.largestKey.length < 2 ^ 32

theorem drop_of_drop {r x y : Bytes} {k n : Nat} (h : r.drop k = x ++ y) (hx : x.length = n) :
    r.drop (k + n) = y := by
  rw [← drop_drop, h, drop_left' hx]

theorem parseFileMetaRecord_encode {m : FileMeta} (h : m.Fits) :
    parseFileMetaRecord (encodeFileMeta m) = some m := by
  have hsk := h.smallestKey
  have hlk := h.largestKey
  have hlen : (encodeFileMeta m).length = 53 + m.smallestKey.length + m.largestKey.length := by
    simp only [encodeFileMeta, length_cons, length_append, length_putFixed64, length_putFixed32]
    omega
  -- the fields, one behind the other
  have h₁ : (encodeFileMeta m).drop 1 = putFixed64 m.fileNumber ++ _ := rfl
  have h₉ : (encodeFileMeta m).drop 9 = _ := drop_of_drop (n := 8) h₁ (length_putFixed64 _)
  have h₁₃ : (encodeFileMeta m).drop 13 = _ := drop_of_drop (n := 4) h₉ (length_putFixed32 _)
  have h₂₁ : (encodeFileMeta m).drop 21 = _ := drop_of_drop (n := 8) h₁₃ (length_putFixed64 _)
  have h₂₉ : (encodeFileMeta m).drop 29 = _ := drop_of_drop (n := 8) h₂₁ (length_putFixed64 _)
  have h₃₇ : (encodeFileMeta m).drop 37 = _ := drop_of_drop (n := 8) h₂₉ (length_putFixed64 _)
  have h₄₅ : (encodeFileMeta m).drop 45 = _ := drop_of_drop (n := 8) h₃₇ (length_putFixed64 _)
  have h₄₉ : (encodeFileMeta m).drop 49 = _ := drop_of_drop (n := 4) h₄₅ (length_putFixed32 _)
  have hkey := drop_of_drop h₄₉ rfl
  have hlast := drop_of_drop hkey (length_putFixed32 _)
  have hslen : getFixed32 ((encodeFileMeta m).drop 45) = m.smallestKey.length := by
    rw [h₄₅, getFixed32_putFixed32 hsk]
  have hllen : getFixed32 ((encodeFileMeta m).drop (49 + m.smallestKey.length)) =
      m.largestKey.length := by
    rw [hkey, getFixed32_putFixed32 hlk]
  unfold parseFileMetaRecord
  rw [if_neg (by omega)]
  dsimp only
  rw [hslen, if_neg (by omega), hllen, if_neg (by omega)]
  simp only [h₁, h₉, h₁₃, h₂₁, h₂₉, h₃₇, h₄₉, hlast, getFixed64_putFixed64 h.fileNumber,
    getFixed32_putFixed32 h.level, getFixed64_putFixed64 h.smallestSeq,
    getFixed64_putFixed64 h.largestSeq, getFixed64_putFixed64 h.entryCount,
    getFixed64_putFixed64 h.fileSize, take_left' rfl, take_length]

namespace ManifestParser

variable {p p' : ManifestParser}

theorem read_file {m : FileMeta} (h : m.Fits) :
    p.read (encodeFileMeta m) = some p' ↔
      p.lastFileNumber < m.fileNumber ∧ m.level < kMaxLevels ∧ p' = p.addFile m := by
  have hparse := parseFileMetaRecord_encode h
  unfold encodeFileMeta at hparse ⊢
  rw [read, if_pos rfl, hparse]
  dsimp only
  split
  · next hbad =>
    refine iff_of_false (by simp) ?_
    rintro ⟨hlt, hlevel, -⟩
    omega
  · next hok =>
    rw [not_or, not_le, not_le] at hok
    rw [Option.some.injEq, eq_comm]
    exact ⟨fun heq => ⟨hok.1, hok.2, heq⟩, fun hc => hc.2.2⟩

theorem read_vlog {n : Nat} (h : n < 2 ^ 64) :
    p.read (encodeNumber kManifestTagVlogFile n) = some p' ↔
      p.lastVlogNumber < n ∧ p' = p.addVlog n := by
  have hget : getFixed64 (putFixed64 n) = n := by
    have := getFixed64_putFixed64 h []
    rwa [append_nil] at this
  rw [encodeNumber, read, if_neg (by decide), if_neg (by decide), if_pos rfl, if_neg (by simp),
    hget]
  split
  · next hbad => exact iff_of_false (by simp) fun hc => absurd hc.1 (not_lt.mpr hbad)
  · next hok =>
    rw [Option.some.injEq, eq_comm]
    exact ⟨fun heq => ⟨not_le.mp hok, heq⟩, fun hc => hc.2⟩

theorem read_logNumber {n : Nat} (h : n < 2 ^ 64) :
    p.read (encodeNumber kManifestTagLogNumber n) = some (p.setLogNumber n) := by
  have hget : getFixed64 (putFixed64 n) = n := by
    have := getFixed64_putFixed64 h []
    rwa [append_nil] at this
  rw [encodeNumber, read, if_neg (by decide), if_pos rfl, if_neg (by simp), hget]

theorem read_hasLogNumber {record : Bytes} (htag : record.head? ≠ some kManifestTagLogNumber)
    (h : p.read record = some p') : p'.state.hasLogNumber = p.state.hasLogNumber := by
  cases record with
  | nil => cases h
  | cons tag rest =>
    have htag : tag ≠ kManifestTagLogNumber := fun heq => htag (by rw [heq]; rfl)
    rw [read] at h
    split_ifs at h
    · split at h
      · cases h
      · split at h
        · cases h
        · cases h
          rfl
    · cases h
      rfl

theorem foldlM_hasLogNumber {records : List Bytes} : ∀ {p p' : ManifestParser},
    (∀ r ∈ records, r.head? ≠ some kManifestTagLogNumber) →
    records.foldlM read p = some p' → p'.state.hasLogNumber = p.state.hasLogNumber := by
  induction records with
  | nil =>
    intro p p' _ h
    cases h
    rfl
  | cons r records ih =>
    intro p p' htags h
    obtain ⟨htag, htags⟩ := forall_mem_cons.mp htags
    rw [foldlM_cons] at h
    obtain ⟨q, hq, hrest⟩ := Option.bind_eq_some_iff.mp h
    rw [ih htags hrest, read_hasLogNumber htag hq]

/-! ## All records -/

theorem foldlM_files {fs : List FileMeta} (hfits : ∀ f ∈ fs, f.Fits) : ∀ {p p' : ManifestParser},
    (fs.map encodeFileMeta).foldlM read p = some p' ↔
      (p.lastFileNumber :: fs.map FileMeta.fileNumber).IsChain (· < ·) ∧
        (∀ f ∈ fs, f.level < kMaxLevels) ∧ p' = fs.foldl addFile p := by
  induction fs with
  | nil =>
    intro p p'
    simp only [map_nil, foldlM_nil, isChain_singleton, foldl_nil, true_and]
    exact ⟨fun h => ⟨by simp, (Option.some.inj h).symm⟩, fun h => congrArg some h.2.symm⟩
  | cons f fs ih =>
    intro p p'
    obtain ⟨hf, hfs⟩ := forall_mem_cons.mp hfits
    simp only [map_cons, foldlM_cons, Option.bind_eq_bind, Option.bind_eq_some_iff,
      read_file hf, ih hfs, isChain_cons_cons, forall_mem_cons, foldl_cons]
    constructor
    · rintro ⟨q, ⟨hlt, hlevel, rfl⟩, hchain, hlevels, rfl⟩
      exact ⟨⟨hlt, hchain⟩, ⟨hlevel, hlevels⟩, rfl⟩
    · rintro ⟨⟨hlt, hchain⟩, ⟨hlevel, hlevels⟩, rfl⟩
      exact ⟨p.addFile f, ⟨hlt, hlevel, rfl⟩, hchain, hlevels, rfl⟩

theorem foldlM_vlogs {ns : List Nat} (hfits : ∀ n ∈ ns, n < 2 ^ 64) : ∀ {p p' : ManifestParser},
    (ns.map (encodeNumber kManifestTagVlogFile)).foldlM read p = some p' ↔
      (p.lastVlogNumber :: ns).IsChain (· < ·) ∧ p' = ns.foldl addVlog p := by
  induction ns with
  | nil =>
    intro p p'
    simp only [map_nil, foldlM_nil, isChain_singleton, foldl_nil, true_and]
    exact ⟨fun h => (Option.some.inj h).symm, fun h => congrArg some h.symm⟩
  | cons n ns ih =>
    intro p p'
    obtain ⟨hn, hns⟩ := forall_mem_cons.mp hfits
    simp only [map_cons, foldlM_cons, Option.bind_eq_bind, Option.bind_eq_some_iff,
      read_vlog hn, ih hns, isChain_cons_cons, foldl_cons]
    constructor
    · rintro ⟨q, ⟨hlt, rfl⟩, hchain, rfl⟩
      exact ⟨⟨hlt, hchain⟩, rfl⟩
    · rintro ⟨⟨hlt, hchain⟩, rfl⟩
      exact ⟨p.addVlog n, ⟨hlt, rfl⟩, hchain, rfl⟩

theorem foldl_addFile (fs : List FileMeta) : ∀ p : ManifestParser,
    (fs.foldl addFile p).state = { p.state with files := p.state.files ++ fs } ∧
      (fs.foldl addFile p).lastVlogNumber = p.lastVlogNumber := by
  induction fs with
  | nil => exact fun p => ⟨by rw [append_nil]; rfl, rfl⟩
  | cons f fs ih =>
    intro p
    obtain ⟨hstate, hlast⟩ := ih (p.addFile f)
    refine ⟨?_, hlast⟩
    rw [foldl_cons, hstate, addFile]
    simp only [append_assoc, singleton_append]

theorem foldl_addVlog (ns : List Nat) : ∀ p : ManifestParser,
    (ns.foldl addVlog p).state = { p.state with vlogs := p.state.vlogs ++ ns } := by
  induction ns with
  | nil =>
    intro p
    rw [append_nil]
    rfl
  | cons n ns ih =>
    intro p
    rw [foldl_cons, ih, addVlog]
    simp only [append_assoc, singleton_append]

end ManifestParser

/-- The numbers and keys of a MANIFEST are of the sizes the source gives them. -/
structure Manifest.Fits (m : Manifest) : Prop where
  files : ∀ f ∈ m.files, f.Fits
  vlogs : ∀ n ∈ m.vlogs, n < 2 ^ 64
  logNumber : m.logNumber < 2 ^ 64

/-- **A MANIFEST that was written** parses to its records if they are valid, and not at all if
they are not. -/
theorem parseManifest_bytes {m : Manifest} (h : m.Fits) {ms : ManifestState} :
    parseManifest m.bytes = some ms ↔ m.Valid ∧ ms = ⟨m.files, m.vlogs, m.logNumber, true⟩ := by
  have hlast := (ManifestParser.foldl_addFile m.files .new).2
  have hstate : (m.vlogs.foldl ManifestParser.addVlog
      (m.files.foldl ManifestParser.addFile .new)).state = ⟨m.files, m.vlogs, 0, false⟩ := by
    rw [ManifestParser.foldl_addVlog, (ManifestParser.foldl_addFile m.files .new).1]
    rfl
  rw [parseManifest_eq, Manifest.bytes, contents_encodeRecords, parseContents, map_fst_placed,
    Manifest.records, Manifest.fileRecords, foldlM_append, foldlM_append, Manifest.Valid,
    ← isChain_iff_pairwise, ← isChain_iff_pairwise]
  simp only [Option.bind_eq_bind, Option.map_eq_some_iff, Option.bind_eq_some_iff, foldlM_cons,
    foldlM_nil, ManifestParser.foldlM_files h.files, ManifestParser.foldlM_vlogs h.vlogs,
    ManifestParser.read_logNumber h.logNumber]
  constructor
  · rintro ⟨p, ⟨p₃, ⟨p₂, ⟨p₁, ⟨hfiles, hlevels, rfl⟩, hvlogs, rfl⟩, q, hq, hset⟩, hp⟩, rfl⟩
    cases hq
    cases hset
    cases hp
    rw [hlast] at hvlogs
    refine ⟨⟨hfiles, hlevels, hvlogs⟩, ?_⟩
    rw [ManifestParser.setLogNumber, hstate]
  · rintro ⟨⟨hfiles, hlevels, hvlogs⟩, rfl⟩
    refine ⟨_, ⟨_, ⟨_, ⟨_, ⟨hfiles, hlevels, rfl⟩, hlast.symm ▸ hvlogs, rfl⟩, _, rfl, rfl⟩,
      rfl⟩, ?_⟩
    rw [ManifestParser.setLogNumber, hstate]

/-- **The check of `Open`** on the bytes is the one on the records. -/
theorem readManifest_bytes {m m' : Manifest} (h : m.Fits) :
    readManifest m.bytes = some m' ↔ m.Valid ∧ m' = m := by
  simp only [readManifest, Option.bind_eq_some_iff, parseManifest_bytes h]
  constructor
  · rintro ⟨ms, ⟨hvalid, rfl⟩, hm⟩
    exact ⟨hvalid, (Option.some.inj hm).symm⟩
  · rintro ⟨hvalid, rfl⟩
    exact ⟨_, ⟨hvalid, rfl⟩, rfl⟩

theorem readManifest_bytes_twoVlogs :
    readManifest (⟨[⟨3, 1, 4, 7, 2, 100, [97], [98]⟩], [2, 5], 6⟩ : Manifest).bytes =
      some ⟨[⟨3, 1, 4, 7, 2, 100, [97], [98]⟩], [2, 5], 6⟩ := by
  refine (readManifest_bytes ⟨fun f hf => ?_, by decide, by decide⟩).mpr ⟨by decide, rfl⟩
  obtain rfl := mem_singleton.mp hf
  constructor <;> decide

/-! ## Cut files -/

theorem head?_fileRecords {m : Manifest} {r : Bytes} (h : r ∈ m.fileRecords) :
    r.head? ≠ some kManifestTagLogNumber := by
  rcases mem_append.mp h with h | h
  · obtain ⟨f, -, rfl⟩ := mem_map.mp h
    rw [encodeFileMeta, head?_cons]
    decide
  · obtain ⟨n, -, rfl⟩ := mem_map.mp h
    rw [encodeNumber, head?_cons]
    decide

/-- **A file that lost its end** shows no log number. -/
theorem parseManifest_cut {m : Manifest} {F : Bytes} (hpre : F <+: m.bytes) (hne : F ≠ m.bytes)
    {ms : ManifestState} (hms : parseManifest F = some ms) : ms.hasLogNumber = false := by
  rw [parseManifest_eq] at hms
  obtain ⟨p, hp, rfl⟩ := Option.map_eq_some_iff.mp hms
  obtain ⟨p', hfold, hstop⟩ := Option.bind_eq_some_iff.mp hp
  have hsame : p' = p := by
    split at hstop
    · exact Option.some.inj hstop
    · cases hstop
  subst hsame
  refine ManifestParser.foldlM_hasLogNumber (fun r hr => ?_) hfold
  -- what the reader returns are records in front of the last
  have hlt : F.length < m.bytes.length :=
    lt_of_le_of_ne hpre.length_le fun heq => hne (hpre.eq_of_length heq)
  have hagree : Agree F.length m.bytes F := by
    refine ⟨?_, hpre.length_le, le_rfl⟩
    rw [take_length]
    exact (prefix_iff_eq_take.mp hpre).symm
  have hwhole : (contents m.bytes).records = placed 0 m.records :=
    congrArg Contents.records (contents_encodeRecords m.records)
  have hrecords : (contents F).records =
      (placed 0 m.records).takeWhile fun r => decide (r.2 ≤ F.length) :=
    records_of_agree hagree hwhole
  rw [hrecords] at hr
  obtain ⟨⟨payload, e⟩, hmem, rfl⟩ := mem_map.mp hr
  have hle : decide (e ≤ F.length) = true :=
    mem_takeWhile_imp (p := fun r : Bytes × Nat => decide (r.2 ≤ F.length)) hmem
  have hplaced := takeWhile_subset _ hmem
  rw [Manifest.records, placed_append] at hplaced
  rcases mem_append.mp hplaced with hin | hlast
  · have hpay := mem_map_of_mem (f := Prod.fst) hin
    rw [map_fst_placed] at hpay
    exact head?_fileRecords hpay
  · -- the record of the log number ends where the file ends
    obtain ⟨rfl, rfl⟩ := Prod.mk.inj (mem_singleton.mp hlast)
    rw [Manifest.bytes, Manifest.records, encodeRecords_append] at hlt
    simp only [length_append, encodeRecords, append_nil] at hlt
    have hle := of_decide_eq_true hle
    omega

/-- **The MANIFEST of a version.**  Whatever the version, its value logs and the log number are,
the file that `WriteManifest` makes parses to them, and `Open` refuses every file that is a
strict prefix of it. -/
theorem manifest_written (v : Version) (vlogs : Finset Nat) (logNumber : Nat)
    (hdistinct : v.numbers.Nodup) (hpos : ∀ r ∈ v.tables, 0 < r.number)
    (hlevel : ∀ r ∈ v.tables, r.fileMeta.level < kMaxLevels)
    (hfits : ∀ r ∈ v.tables, r.fileMeta.Fits) (hvlogs : ∀ n ∈ vlogs, 0 < n ∧ n < 2 ^ 64)
    (hlog : logNumber < 2 ^ 64) :
    parseManifest (writeManifest v vlogs logNumber) =
        some ⟨(DB.sortByNumber v.tables).map TableRef.fileMeta, vlogs.sort (· ≤ ·), logNumber,
          true⟩ ∧
      ∀ F, F <+: writeManifest v vlogs logNumber → F ≠ writeManifest v vlogs logNumber →
        readManifest F = none := by
  have hmem : ∀ r ∈ DB.sortByNumber v.tables, r ∈ v.tables := fun r hr =>
    (perm_sortByNumber v.tables).mem_iff.mp hr
  refine ⟨?_, fun F hpre hne => ?_⟩
  · have hm : Manifest.Fits ⟨(DB.sortByNumber v.tables).map TableRef.fileMeta,
        vlogs.sort (· ≤ ·), logNumber⟩ := by
      refine ⟨fun f hf => ?_, fun n hn => (hvlogs n ((Finset.mem_sort _).mp hn)).2, hlog⟩
      obtain ⟨r, hr, rfl⟩ := List.mem_map.mp hf
      exact hfits r (hmem r hr)
    refine (parseManifest_bytes hm).mpr ⟨⟨?_, fun f hf => ?_, ?_⟩, rfl⟩
    · rw [List.map_map]
      refine List.pairwise_cons.mpr ⟨fun n hn => ?_, sortByNumber_ascending hdistinct⟩
      obtain ⟨r, hr, rfl⟩ := List.mem_map.mp hn
      exact hpos r (hmem r hr)
    · obtain ⟨r, hr, rfl⟩ := List.mem_map.mp hf
      exact hlevel r (hmem r hr)
    · refine List.pairwise_cons.mpr ⟨fun n hn => (hvlogs n ((Finset.mem_sort _).mp hn)).1, ?_⟩
      exact vlogs.sortedLT_sort.pairwise
  · cases hparse : parseManifest F with
    | none => rw [readManifest, hparse]; rfl
    | some ms =>
        have hno := parseManifest_cut hpre hne hparse
        simp [readManifest, hparse, hno]

/-- A table on L0 and, with a smaller number, one on L2. -/
def sampleTables : Version where
  l0 := [⟨⟨[⟨[98], 3, .value, []⟩], by decide, by decide⟩, ⟨7, 0, 3, 3, 1, 90, [98], [98]⟩⟩]
  levels i :=
    if i.val = 1 then
      [⟨⟨[⟨[97], 1, .value, []⟩], by decide, by decide⟩, ⟨4, 2, 1, 1, 1, 90, [97], [97]⟩⟩]
    else []

theorem manifest_written_sampleTables :
    sampleTables.numbers.Nodup ∧
    parseManifest (writeManifest sampleTables {2, 5} 6) =
        some ⟨(DB.sortByNumber sampleTables.tables).map TableRef.fileMeta,
          ({2, 5} : Finset Nat).sort (· ≤ ·), 6, true⟩ ∧
      ∀ F, F <+: writeManifest sampleTables {2, 5} 6 → F ≠ writeManifest sampleTables {2, 5} 6 →
        readManifest F = none := by
  have hdistinct : sampleTables.numbers.Nodup := by decide
  refine ⟨hdistinct, manifest_written sampleTables {2, 5} 6 hdistinct (by decide) (by decide) ?_
    (by decide) (by decide)⟩
  have hfits : ∀ f ∈ sampleTables.tables.map TableRef.fileMeta, f.Fits := by
    rw [show sampleTables.tables.map TableRef.fileMeta =
      [⟨7, 0, 3, 3, 1, 90, [98], [98]⟩, ⟨4, 2, 1, 1, 1, 90, [97], [97]⟩] by decide]
    rintro f hf
    simp only [List.mem_cons, List.not_mem_nil, or_false] at hf
    rcases hf with rfl | rfl <;>
      exact ⟨by decide, by decide, by decide, by decide, by decide, by decide, by decide, by decide⟩
  exact fun r hr => hfits _ (List.mem_map_of_mem hr)

end BedrockKV
