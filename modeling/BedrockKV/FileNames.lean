/-
# `BedrockKV.FileNames` — the names of the database's files

`RemoveOrphanFiles` knows a file by its name alone, and what it does not take
for a live one it unlinks.  The names are those of `SstFileName`,
`LogFileName` and `VLog::FileName`, a number in at least six digits and a
suffix, and `ParseNumberedFile` reads them back.  Its loop looks before each
step whether the number stays below `2 ^ 64`, with a division.

    parseNumberedFile name suffix = some v   iff  name is a run of digits and the
        suffix, of value v < 2 ^ 64                    (`parseNumberedFile_iff`)

No suffix is the tail of another's name: the last byte before a suffix is a
digit, and the three suffixes begin with a dot.  Hence each name is read under
its own suffix only, and the sweep does to a file what the number and the kind
in its name call for (`removes_fileName`), as `BedrockKV.Restart` has it with
the numbers (`mem_orphanFiles_iff_removes`).
-/
import BedrockKV.Resp
import BedrockKV.Restart

namespace BedrockKV

open List

open Resp (isDigit digitsValue toDecimal)

/-! ## Definitions -/

inductive FileKind where
  | sst
  | log
  | vlog
  deriving DecidableEq, Repr

def FileKind.suffix : FileKind → Bytes
  | .sst => ascii ".sst"
  | .log => ascii ".log"
  | .vlog => ascii ".vlog"

def sstFileName (number : Nat) : Bytes := numberedFile number ".sst"

def logFileName (number : Nat) : Bytes := numberedFile number ".log"

def FileKind.fileName : FileKind → Nat → Bytes
  | .sst => sstFileName
  | .log => logFileName
  | .vlog => vlogFileName

/-- The loop of `ParseNumberedFile`; the sums are of `uint64_t`. -/
def parseNumber : Bytes → Nat → Option Nat
  | [], n => some n
  | c :: cs, n =>
    if c < 48 ∨ 57 < c then none
    else if (2 ^ 64 - 1 - (c.toNat - 48)) / 10 < n then none
    else parseNumber cs ((n * 10 + (c.toNat - 48)) % 2 ^ 64)

def parseNumberedFile (name suffix : Bytes) : Option Nat :=
  if name.length ≤ suffix.length ∨
      name.drop (name.length - suffix.length) ≠ suffix then none
  else parseNumber (name.take (name.length - suffix.length)) 0

def kManifestTmpFileName : Bytes := ascii "MANIFEST.tmp"

/-- What `RemoveOrphanFiles` does to the file of this name: whether it is unlinked. -/
def removesFile (live : List Nat) (logFloor : Nat) (liveVlogs : List Nat) (name : Bytes) : Bool :=
  if name = kManifestTmpFileName then true
  else if (parseNumberedFile name (ascii ".sst")).any fun n => decide (n ∉ live) then true
  else if (parseNumberedFile name (ascii ".log")).any fun n => decide (n < logFloor) then true
  else (parseNumberedFile name (ascii ".vlog")).any fun n => decide (n ∉ liveVlogs)

/-! ## Reading -/

/-- The bytes before the suffix: digits, at least one, of a value that `uint64_t` holds. -/
def IsNumber (ds : Bytes) (v : Nat) : Prop :=
  ds ≠ [] ∧ (∀ c ∈ ds, isDigit c = true) ∧ digitsValue ds = v ∧ v < 2 ^ 64

theorem le_foldl_digits (ds : Bytes) : ∀ n : Nat,
    n ≤ ds.foldl (fun n c => 10 * n + (c.toNat - 48)) n := by
  induction ds with
  | nil => exact Nat.le_refl
  | cons c ds ih =>
    intro n
    refine le_trans ?_ (ih _)
    dsimp only
    omega

/-- The loop, from any number it may have come to: a digit is taken exactly where the number
stays below `2 ^ 64`, and later digits do not make it smaller. -/
theorem parseNumber_iff (ds : Bytes) (v : Nat) : ∀ {n : Nat}, n < 2 ^ 64 →
    (parseNumber ds n = some v ↔ (∀ c ∈ ds, isDigit c = true) ∧
      ds.foldl (fun n c => 10 * n + (c.toNat - 48)) n = v ∧ v < 2 ^ 64) := by
  induction ds with
  | nil =>
    intro n hn
    rw [parseNumber, foldl_nil, Option.some.injEq]
    constructor
    · rintro rfl
      exact ⟨fun _ hx => absurd hx not_mem_nil, rfl, hn⟩
    · exact fun h => h.2.1
  | cons c ds ih =>
    intro n hn
    rw [parseNumber, foldl_cons, forall_mem_cons]
    have hdigit : isDigit c = true ↔ ¬ (c < 48 ∨ 57 < c) := by
      rw [isDigit, Bool.and_eq_true, decide_eq_true_eq, decide_eq_true_eq, not_or, not_lt, not_lt]
    by_cases hc : c < 48 ∨ 57 < c
    · rw [if_pos hc]
      constructor
      · exact fun h => (by cases h)
      · exact fun h => absurd hc (hdigit.mp h.1.1)
    · rw [if_neg hc]
      have hle : c.toNat ≤ 57 := by
        rw [not_or, not_lt, not_lt, UInt8.le_iff_toNat_le, UInt8.le_iff_toNat_le] at hc
        exact hc.2
      by_cases hover : (2 ^ 64 - 1 - (c.toNat - 48)) / 10 < n
      · rw [if_pos hover]
        have hge := le_foldl_digits ds (10 * n + (c.toNat - 48))
        constructor
        · exact fun h => (by cases h)
        · rintro ⟨-, hfold, hv⟩
          omega
      · rw [if_neg hover]
        have hfits : n * 10 + (c.toNat - 48) < 2 ^ 64 := by omega
        rw [Nat.mod_eq_of_lt hfits, ih hfits, Nat.mul_comm n 10]
        exact ⟨fun h => ⟨⟨hdigit.mpr hc, h.1⟩, h.2⟩, fun h => ⟨h.1.2, h.2⟩⟩

/-- **What is read as a numbered file.** -/
theorem parseNumberedFile_iff (name suffix : Bytes) (v : Nat) :
    parseNumberedFile name suffix = some v ↔ ∃ ds, name = ds ++ suffix ∧ IsNumber ds v := by
  unfold parseNumberedFile
  by_cases hno : name.length ≤ suffix.length ∨ name.drop (name.length - suffix.length) ≠ suffix
  · rw [if_pos hno]
    constructor
    · exact fun h => nomatch h
    · rintro ⟨ds, rfl, hne, -⟩
      have hpos := length_pos_iff.mpr hne
      rw [length_append, Nat.add_sub_cancel, drop_left] at hno
      rcases hno with hno | hno
      · omega
      · exact absurd rfl hno
  · rw [if_neg hno]
    obtain ⟨hlen, htail⟩ := not_or.mp hno
    rw [not_le] at hlen
    rw [not_not] at htail
    have hsplit : name = name.take (name.length - suffix.length) ++ suffix := by
      nth_rewrite 1 [← take_append_drop (name.length - suffix.length) name]
      rw [htail]
    rw [parseNumber_iff _ _ (by decide)]
    constructor
    · rintro ⟨hdigits, hvalue, hv⟩
      refine ⟨_, hsplit, ?_, hdigits, hvalue, hv⟩
      rw [← length_pos_iff, length_take]
      omega
    · rintro ⟨ds, hname, -, hdigits, hvalue, hv⟩
      have hds : name.take (name.length - suffix.length) = ds := by
        rw [hname, length_append, Nat.add_sub_cancel, take_left]
      rw [hds]
      exact ⟨hdigits, hvalue, hv⟩

/-! ## Writing -/

theorem ascii_append (a b : String) : ascii (a ++ b) = ascii a ++ ascii b := by
  rw [ascii, String.toList_append, map_append]
  rfl

theorem ascii_toString (n : Nat) : ascii (toString n) = toDecimal n := by
  rw [ascii, Nat.toString_eq_repr, Nat.toList_repr]
  rfl

theorem numberedFile_eq (n : Nat) (suffix : String) :
    numberedFile n suffix =
      List.replicate (6 - (toDecimal n).length) 48 ++ toDecimal n ++ ascii suffix := by
  have hlen : (toString n).length = (toDecimal n).length := by
    rw [← ascii_toString, ascii, length_map, String.length_toList]
  unfold numberedFile
  dsimp only
  rw [ascii_append, ascii_append, ascii_toString, hlen]
  congr 2
  rw [ascii, String.toList_ofList, map_replicate]
  rfl

theorem digitsValue_replicate (k : Nat) (ds : Bytes) :
    digitsValue (List.replicate k 48 ++ ds) = digitsValue ds := by
  induction k with
  | zero => rfl
  | succ k ih => exact ih

theorem exists_digits (k : FileKind) {n : Nat} (hn : n < 2 ^ 64) :
    ∃ ds, k.fileName n = ds ++ k.suffix ∧ IsNumber ds n := by
  refine ⟨List.replicate (6 - (toDecimal n).length) 48 ++ toDecimal n, ?_, ?_, ?_, ?_, hn⟩
  · cases k with
    | sst => exact numberedFile_eq n ".sst"
    | log => exact numberedFile_eq n ".log"
    | vlog => exact numberedFile_eq n ".vlog"
  · simp [toDecimal, Nat.toDigits_ne_nil]
  · intro c hc
    rcases mem_append.mp hc with hc | hc
    · rw [eq_of_mem_replicate hc]
      decide
    · exact (Resp.isDigit_toDecimal hc).1
  · rw [digitsValue_replicate, Resp.digitsValue_toDecimal]

theorem length_fileName (k : FileKind) {n : Nat} (hn : n < 2 ^ 64) :
    (k.fileName n).length < 32 := by
  have hdigits : (toDecimal n).length ≤ 20 := by
    rw [toDecimal, length_map]
    exact (Nat.length_toDigits_le_iff (by decide) (by decide)).mpr (lt_trans hn (by decide))
  have hlen : ∀ s : String, (numberedFile n s).length =
      6 - (toDecimal n).length + (toDecimal n).length + (ascii s).length := by
    intro s
    rw [numberedFile_eq, length_append, length_append, length_replicate]
  have hsuffix : (ascii ".sst").length = 4 ∧ (ascii ".log").length = 4 ∧
      (ascii ".vlog").length = 5 := by decide
  cases k <;> simp only [FileKind.fileName, sstFileName, logFileName, vlogFileName, hlen] <;> omega

/-! ## Kinds -/

theorem dropWhile_digits {ds : Bytes} (k : FileKind) (h : ∀ c ∈ ds, isDigit c = true) :
    (ds ++ k.suffix).dropWhile isDigit = k.suffix := by
  rw [dropWhile_append_of_pos h]
  cases k <;> decide

theorem suffix_inj {k k' : FileKind} (h : k.suffix = k'.suffix) : k = k' := by
  revert h
  cases k <;> cases k' <;> decide

theorem split_unique {k k' : FileKind} {ds ds' : Bytes} {v v' : Nat} (h : IsNumber ds v)
    (h' : IsNumber ds' v') (heq : ds ++ k.suffix = ds' ++ k'.suffix) : k = k' ∧ v = v' := by
  have hkind : k = k' := by
    refine suffix_inj ?_
    rw [← dropWhile_digits k h.2.1, heq, dropWhile_digits k' h'.2.1]
  subst hkind
  refine ⟨rfl, ?_⟩
  rw [← h.2.2.1, ← h'.2.2.1, append_cancel_right heq]

theorem parse_fileName (k k' : FileKind) {n : Nat} (hn : n < 2 ^ 64) :
    parseNumberedFile (k.fileName n) k'.suffix = if k' = k then some n else none := by
  obtain ⟨ds, hname, hds⟩ := exists_digits k hn
  split_ifs with hk
  · subst hk
    exact (parseNumberedFile_iff _ _ _).mpr ⟨ds, hname, hds⟩
  · refine Option.eq_none_iff_forall_ne_some.mpr fun v hv => hk ?_
    obtain ⟨ds', hname', hds'⟩ := (parseNumberedFile_iff _ _ _).mp hv
    exact (split_unique hds' hds (hname'.symm.trans hname)).1

/-! ## The sweep -/

/-- A file of this kind and number is of no use: a table that the MANIFEST does not list, a log
below its floor, a generation that is not live. -/
def Orphaned (live : List Nat) (logFloor : Nat) (liveVlogs : List Nat) : FileKind → Nat → Prop
  | .sst, n => n ∉ live
  | .log, n => n < logFloor
  | .vlog, n => n ∉ liveVlogs

section Sweep

variable {live : List Nat} {logFloor : Nat} {liveVlogs : List Nat}

/-- **What the sweep unlinks**: the temporary MANIFEST, and names of an orphan's kind and number. -/
theorem removesFile_iff (name : Bytes) :
    removesFile live logFloor liveVlogs name = true ↔ name = kManifestTmpFileName ∨
      ∃ k v, parseNumberedFile name (FileKind.suffix k) = some v ∧
        Orphaned live logFloor liveVlogs k v := by
  have hany : ∀ (o : Option Nat) (p : Nat → Prop) [DecidablePred p],
      (o.any fun n => decide (p n)) = true ↔ ∃ v, o = some v ∧ p v := by
    intro o p _
    cases o <;> simp
  have hkinds : (∃ k v, parseNumberedFile name (FileKind.suffix k) = some v ∧
      Orphaned live logFloor liveVlogs k v) ↔
      (∃ v, parseNumberedFile name (ascii ".sst") = some v ∧ v ∉ live) ∨
      (∃ v, parseNumberedFile name (ascii ".log") = some v ∧ v < logFloor) ∨
      ∃ v, parseNumberedFile name (ascii ".vlog") = some v ∧ v ∉ liveVlogs := by
    constructor
    · rintro ⟨k, v, hv, ho⟩
      cases k with
      | sst => exact .inl ⟨v, hv, ho⟩
      | log => exact .inr (.inl ⟨v, hv, ho⟩)
      | vlog => exact .inr (.inr ⟨v, hv, ho⟩)
    · rintro (⟨v, hv, ho⟩ | ⟨v, hv, ho⟩ | ⟨v, hv, ho⟩)
      · exact ⟨.sst, v, hv, ho⟩
      · exact ⟨.log, v, hv, ho⟩
      · exact ⟨.vlog, v, hv, ho⟩
  rw [hkinds, ← hany _ (· ∉ live), ← hany _ (· < logFloor), ← hany _ (· ∉ liveVlogs), removesFile]
  split_ifs <;> simp_all

theorem fileName_ne_manifestTmp (k : FileKind) {n : Nat} (hn : n < 2 ^ 64) :
    k.fileName n ≠ kManifestTmpFileName := by
  obtain ⟨ds, hname, hds⟩ := exists_digits k hn
  intro heq
  have hdrop := dropWhile_digits k hds.2.1
  rw [← hname, heq] at hdrop
  revert hdrop
  cases k <;> decide

/-- **The sweep goes by kind and number.** -/
theorem removes_fileName (k : FileKind) {n : Nat} (hn : n < 2 ^ 64) :
    removesFile live logFloor liveVlogs (k.fileName n) = true ↔
      Orphaned live logFloor liveVlogs k n := by
  rw [removesFile_iff]
  constructor
  · rintro (htmp | ⟨k', v, hv, ho⟩)
    · exact absurd htmp (fileName_ne_manifestTmp k hn)
    · rw [parse_fileName k k' hn] at hv
      split_ifs at hv with hk
      cases hv
      exact hk ▸ ho
  · intro ho
    exact .inr ⟨k, n, by rw [parse_fileName k k hn, if_pos rfl], ho⟩

end Sweep

/-- **Names and numbers**: the name that is formatted from a 64-bit number fits its buffer and is
read as that number under its own suffix and under no other; any string is read as a number
exactly where it is digits and the suffix, of a value below `2 ^ 64`; and the sweep unlinks a file
of the database exactly where its kind and number make it an orphan. -/
theorem fileNames_read (k : FileKind) :
    (∀ n : UInt64, (k.fileName n.toNat).length < 32 ∧
      ∀ k', parseNumberedFile (k.fileName n.toNat) (FileKind.suffix k') =
        if k' = k then some n.toNat else none) ∧
    (∀ name v, parseNumberedFile name k.suffix = some v ↔
      ∃ ds, name = ds ++ k.suffix ∧ IsNumber ds v) ∧
    ∀ (live : List Nat) (logFloor : Nat) (liveVlogs : List Nat) (n : UInt64),
      removesFile live logFloor liveVlogs (k.fileName n.toNat) = true ↔
        Orphaned live logFloor liveVlogs k n.toNat := by
  refine ⟨fun n => ⟨length_fileName k n.toNat_lt, fun k' => parse_fileName k k' n.toNat_lt⟩,
    fun name v => parseNumberedFile_iff name k.suffix v, fun live logFloor liveVlogs n =>
      removes_fileName k n.toNat_lt⟩

/-- Leading zeros do not matter, and `2 ^ 64` is no number. -/
example : parseNumberedFile (ascii "00018446744073709551615.sst") (ascii ".sst") =
      some (2 ^ 64 - 1) ∧
    parseNumberedFile (ascii "18446744073709551616.sst") (ascii ".sst") = none ∧
    parseNumberedFile (ascii ".log") (ascii ".log") = none := by decide +kernel

/-! ## The sweep of a directory -/

namespace DB

def Orphan.kind : Orphan → FileKind
  | .sst _ => .sst
  | .log _ => .log
  | .vlog _ => .vlog

def Orphan.number : Orphan → Nat
  | .sst n | .log n | .vlog n => n

/-- Whether the directory has this file. -/
def Orphan.In (d : Disk) : Orphan → Prop
  | .sst n => n ∈ Keyed.keys d.ssts
  | .log n => n ∈ Keyed.keys d.logs
  | .vlog n => n ∈ Keyed.keys d.vlogs

theorem mem_orphanFiles_iff_removes {opt : Options} {d : Disk} {o : Orphan} (hin : o.In d)
    (hnumber : o.number < 2 ^ 64) :
    o ∈ orphanFiles opt d ↔
      removesFile (d.manifestState.files.map FileMeta.fileNumber) d.manifestState.logNumber
        (liveVlogs opt d.manifestState) (o.kind.fileName o.number) = true := by
  rw [removes_fileName o.kind hnumber, mem_orphanFiles]
  cases o with
  | sst n | log n | vlog n => exact and_iff_right hin

end DB

end BedrockKV
