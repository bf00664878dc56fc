/-
# `BedrockKV.SstTable` — the file of a table is the table

Above the file a sorted table is a list of entries (`BedrockKV.Sources`).  Here
the two meet.  The file that a builder makes of the entries of such a table
opens, and what is then read of it is what the list says (`Shows`, `table_shows`),
with one exception.  `Table::Get` shifts `max_seq` by eight bits in a
`uint64_t`, and only `kMaxSeq` itself is kept from it, so that a bound of
`2 ^ 56` or more is read modulo `2 ^ 56` (`seen`).

A builder without entries makes a file that does not open (`openFile_empty`).
-/
import BedrockKV.SstRead

namespace BedrockKV.Sst

open List Chunks Loop Piece MultiVersion

/-! ## The newest version -/

/-- The newest version of `key` that a read at `S` may see: the first in internal-key order. -/
def newest (es : List Entry) (key : Bytes) (S : ReadSeq) : Option Entry :=
  es.find? fun e => decide (entryView.Visible key S e)

/-- What a read reports of it. -/
def answer : Option Entry → Lookup
  | none => .missing
  | some e =>
    match e.type with
    | .value => .found e.value
    | .deletion => .deleted

theorem lookupEntries_eq_answer {es : List Entry} (hinc : Increasing es) (key : Bytes)
    (S : ReadSeq) : lookupEntries es key S = answer (newest es key S) := by
  induction es with
  | nil => rfl
  | cons e es ih =>
    obtain ⟨hhead, htail⟩ := pairwise_cons.mp hinc
    by_cases hless : e.internalKey.less ⟨key, targetTag S⟩
    · -- the seek passes `e`, which the read cannot see
      have hv : ¬ entryView.Visible key S e := fun hv =>
        (not_less_target_iff hv.1).mpr hv hless
      have hskip : lookupEntries (e :: es) key S = lookupEntries es key S := by
        simp [lookupEntries, seek, hless]
      rw [hskip, ih htail, newest, newest, find?_cons_of_neg (by simpa using hv)]
    · have hland : lookupEntries (e :: es) key S = decodeFound key (some e) := by
        simp [lookupEntries, seek, hless]
      rw [hland]
      by_cases huser : e.user = key
      · have hv := (not_less_target_iff huser).mp hless
        rw [newest, find?_cons_of_pos (by simpa using hv), decodeFound, if_pos huser]
        rfl
      · -- the seek landed beyond every version of the key
        have hgt : key < e.user := by
          rcases lt_trichotomy e.user key with h | h | h
          · exact absurd (InternalKey.less_of_user_lt (by exact h)) hless
          · exact absurd h huser
          · exact h
        have hnone : newest (e :: es) key S = none := by
          refine find?_eq_none.mpr fun x hx hv => ?_
          have hkey : x.user = key := (of_decide_eq_true hv).1
          rcases mem_cons.mp hx with rfl | hx
          · exact huser hkey
          · have hle := InternalKey.less_user_le (hhead x hx)
            exact absurd (hkey ▸ hle) (not_le.mpr hgt)
        rw [hnone, decodeFound, if_neg huser]
        rfl

/-! ## The bound of a read -/

/-- The bound that `Table::Get` looks under. -/
def seen (maxSeq : Nat) : ReadSeq :=
  if 2 ^ 64 - 1 ≤ maxSeq then kMaxSeq else WithTop.some (maxSeq % 2 ^ 56)

theorem less_target {e : Entry} (he : e.seq < 2 ^ 56) (userKey : Bytes) (maxSeq : Nat) :
    internalKeyLess (keyOf e) (userKey ++ putFixed64 (Table.targetTag maxSeq)) =
      decide (e.internalKey.less ⟨userKey, BedrockKV.targetTag (seen maxSeq)⟩) := by
  have htag : Table.targetTag maxSeq < 2 ^ 64 := by
    unfold Table.targetTag
    split <;> omega
  rw [Bool.eq_iff_iff, internalKeyLess_iff, parsedKey_keyOf he, parsedKey_tagged _ htag,
    decide_eq_true_iff]
  unfold Table.targetTag seen
  split
  · -- no tag is beyond the largest
    have hlt := tag_lt he
    unfold InternalKey.less
    by_cases hu : e.user = userKey
    · rw [if_neg (by exact not_not.mpr hu), if_neg (by exact not_not.mpr hu)]
      refine ⟨fun h => ?_, fun h => absurd h not_top_lt⟩
      have : 2 ^ 64 - 1 < e.tag := WithTop.coe_lt_coe.mp h
      omega
    · rw [if_pos (by exact hu), if_pos (by exact hu)]
  · have hmod : maxSeq * 256 % 2 ^ 64 + 0xff = maxSeq % 2 ^ 56 * 256 + 0xff := by omega
    rw [hmod]
    exact Iff.rfl

theorem newest_kMaxSeq {es : List Entry} (hsmall : Small es) (key : Bytes) :
    newest es key kMaxSeq = newest es key (WithTop.some (2 ^ 64 - 1)) := by
  refine find?_congr fun e he => ?_
  have hle : WithTop.some e.seq ≤ WithTop.some (2 ^ 64 - 1) :=
    WithTop.coe_le_coe.mpr (by have := hsmall e he; omega)
  exact decide_eq_decide.mpr ⟨fun hv => ⟨hv.1, hle⟩, fun hv => ⟨hv.1, le_top⟩⟩

/-! ## The table in the file -/

/-- `t`, opened from a file, shows the entries of the table `T`. -/
structure Shows (t : Table) (T : BedrockKV.Table) : Prop where
  numEntries : t.numEntries = T.entries.length
  smallestUserKey : t.smallestUserKey = T.smallestUserKey
  largestUserKey : t.largestUserKey = T.largestUserKey
  walk : ∀ it : TableIterator, it.table = t → it.seekToFirst.Yields (pairs T.entries)
  walkFrom : ∀ it : TableIterator, it.table = t → ∀ target, (it.seek target).Yields
    ((pairs T.entries).filter fun kv => !internalKeyLess kv.1 target)
  length_le : T.entries.length ≤ (t.index.map IndexEntry.size).sum
  get : ∀ userKey maxSeq, t.get userKey maxSeq = (T.get userKey (seen maxSeq), none)

theorem Table.Holds.shows {t : Table} {pieces : List Piece} {T : BedrockKV.Table}
    (h : t.Holds pieces) (hall : entriesOf pieces = T.entries) (hsmall : Small T.entries)
    (hnum : t.numEntries = T.entries.length)
    (hfirst : ∀ e ∈ T.entries.head?, t.smallestUserKey = e.user)
    (hlast : ∀ e ∈ T.entries.getLast?, t.largestUserKey = e.user) : Shows t T where
  numEntries := hnum
  smallestUserKey := hfirst _ (head?_eq_some_head T.ne)
  largestUserKey := hlast _ (getLast?_eq_some_getLast T.ne)
  walk it hit := by
    rw [← hall]
    exact h.yields _ (h.seekToFirst hit)
  walkFrom it hit target := by
    have hupto : Upto (fun kv : Bytes × Bytes => internalKeyLess kv.1 target) (pairs T.entries) :=
      pairwise_map.mpr (upto_less T.increasing hsmall target)
    have hstands := h.seek (hall ▸ T.increasing) (hall ▸ hsmall) hit target
    rw [hall] at hstands
    rw [← hupto.dropWhile_eq_filter]
    exact h.yields _ hstands
  length_le := hall ▸ h.length_le
  get userKey maxSeq := by
    rw [h.get (hall ▸ T.increasing) (hall ▸ hsmall), hall,
      dropWhile_congr fun e he => less_target (hsmall e he) userKey maxSeq]
    rfl

section File

variable (wild : Int) (options : TableOptions)

/-- The sizes that the layout gives to a table. -/
def tableSize : TableSize where
  approximateFileSize es :=
    ((Builder.new options).addAll wild es).toOption.elim 0 fun b =>
      b.file.length + b.dataBlock.currentSizeEstimate
  fileSize es :=
    ((Builder.new options).addAll wild es).toOption.elim 0 fun b =>
      (b.finish wild ⟨0, 0, 0, 0, 0, 0, [], []⟩).1.length

variable {wild options}

/-- **The file of a table shows the table**: every entry is accepted, the file opens, and
what `Finish` reports of it is the metadata of the table. -/
theorem table_shows (T : BedrockKV.Table) (hsmall : Small T.entries)
    (hfits : Fits wild (Builder.new options) T.entries) :
    ∃ b, (Builder.new options).addAll wild T.entries = .ok b ∧
      ∀ (m : FileMeta) (fileNumber : Nat) (path : Bytes),
        (b.finish wild m).2 = T.fileMeta (tableSize wild options) m.fileNumber m.level ∧
        ∃ t, Table.openFile fileNumber path (b.finish wild m).1 = .ok t ∧ Shows t T := by
  obtain ⟨b, pieces, hadd, hb, hall, hfits', -⟩ :=
    addAll_holds (holds_new options) T.increasing hsmall hfits
  change (Builder.new options).addAll wild T.entries = .ok b at hadd
  change entriesOf pieces = T.entries at hall
  have hne : pieces ≠ [] := by
    rintro rfl
    exact T.ne hall.symm
  refine ⟨b, hadd, fun m fileNumber path => ⟨?_, ?_⟩⟩
  · have hcounts := hb.counts
    rw [append_nil, hall] at hcounts
    have hhead := head?_eq_some_head T.ne
    have hlast := getLast?_eq_some_getLast T.ne
    have hsize : (tableSize wild options).fileSize T.entries = (b.finish wild m).1.length := by
      dsimp only [tableSize]
      rw [hadd]
      rfl
    unfold BedrockKV.Table.fileMeta
    rw [hsize, ← hcounts.smallestSeq _ hhead, ← hcounts.largestSeq _ hhead, ← hcounts.numEntries,
      BedrockKV.Table.smallestUserKey, BedrockKV.Table.largestUserKey,
      ← hcounts.smallestUserKey _ hhead, ← hcounts.largestUserKey _ hlast]
    rfl
  · obtain ⟨t, ht, hholds, -, hnum, hfirst, hlast⟩ :=
      openFile_finish hb hne hfits'.1 hfits'.2 m fileNumber path
    rw [hall] at hnum hfirst hlast
    exact ⟨t, ht, hholds.shows hall hsmall hnum hfirst hlast⟩

/-- **Nothing is not a table**: the index block of a file without entries has its restart
point at its end. -/
theorem openFile_empty (m : FileMeta) (fileNumber : Nat) (path : Bytes) :
    Table.openFile fileNumber path ((Builder.new options).finish wild m).1 =
      .error (Table.fail path "index block corrupt") := by
  have hfile : ((Builder.new options).finish wild m).1 =
      ((Builder.new ⟨0, 0, 0⟩).finish 0 ⟨0, 0, 0, 0, 0, 0, [], []⟩).1 := rfl
  rw [hfile]
  unfold Table.openFile
  rw [if_neg (by decide +kernel)]
  dsimp only
  rw [if_neg (by decide +kernel), if_neg (by decide +kernel), if_neg (by decide +kernel),
    if_pos (by decide +kernel)]

end File

/-! ## Writing and reading back -/

/-- What a builder reports of the entries. -/
structure Reports (m : FileMeta) (es : List Entry) : Prop where
  smallestSeq : (es.map Entry.seq).min? = some m.smallestSeq
  largestSeq : (es.map Entry.seq).max? = some m.largestSeq
  entryCount : m.entryCount = es.length
  smallestKey : (es.head?).map Entry.user = some m.smallestKey
  largestKey : (es.getLast?).map Entry.user = some m.largestKey

/-- The entries are accepted, the file opens, and it shows them: all of them in order, those
from a target on, and to a `Get` of `key` the newest version that `maxSeq` allows. -/
def RoundTrips (wild : Int) (options : TableOptions) (es : List Entry) (key : Bytes)
    (maxSeq : Nat) : Prop :=
  ∃ b, (Builder.new options).addAll wild es = .ok b ∧
    ∀ (m : FileMeta) (fileNumber : Nat) (path : Bytes), ∃ t,
      Table.openFile fileNumber path (b.finish wild m).1 = .ok t ∧
      Reports (b.finish wild m).2 es ∧
      (b.finish wild m).2.fileSize = (b.finish wild m).1.length ∧
      t.numEntries = es.length ∧
      (es.head?).map Entry.user = some t.smallestUserKey ∧
      (es.getLast?).map Entry.user = some t.largestUserKey ∧
      (∀ it : TableIterator, it.table = t → it.seekToFirst.Yields (pairs es)) ∧
      (∀ it : TableIterator, it.table = t → ∀ target, (it.seek target).Yields
        ((pairs es).filter fun kv => !internalKeyLess kv.1 target)) ∧
      t.get key maxSeq = (answer (newest es key (WithTop.some maxSeq)), none)

theorem reports_fileMeta (sz : TableSize) (T : BedrockKV.Table) (number level : Nat) :
    Reports (T.fileMeta sz number level) T.entries := by
  obtain ⟨es, hne, hinc⟩ := T
  obtain ⟨e, es, rfl⟩ := exists_cons_of_ne_nil hne
  refine ⟨?_, ?_, rfl, rfl, ?_⟩
  · rw [map_cons, min?_cons']
    simp [BedrockKV.Table.fileMeta]
  · rw [map_cons, max?_cons']
    simp [BedrockKV.Table.fileMeta]
  · rw [getLast?_eq_some_getLast hne]
    rfl

section RoundTrip

variable {wild : Int} {options : TableOptions} {es : List Entry}

theorem Shows.get_eq {t : Table} {T : BedrockKV.Table} (h : Shows t T) (hsmall : Small T.entries)
    (key : Bytes) {maxSeq : Nat} (hmax : maxSeq < 2 ^ 64) :
    t.get key maxSeq = (answer (newest T.entries key (WithTop.some
      (if maxSeq = 2 ^ 64 - 1 then maxSeq else maxSeq % 2 ^ 56))), none) := by
  rw [h.get, BedrockKV.Table.get, lookupEntries_eq_answer T.increasing, seen]
  by_cases hlast : maxSeq = 2 ^ 64 - 1
  · rw [if_pos (by omega), if_pos hlast, hlast, newest_kMaxSeq hsmall]
  · rw [if_neg (by omega), if_neg hlast]

/-- **A table reads back as the list it was made of**, exactly when there is something to
write and the bound of the read is `kMaxSeq` or admits what it does modulo `2 ^ 56`. -/
theorem roundTrips_iff (hinc : Increasing es) (hsmall : Small es)
    (hfits : Fits wild (Builder.new options) es) (key : Bytes) {maxSeq : Nat}
    (hmax : maxSeq < 2 ^ 64) :
    RoundTrips wild options es key maxSeq ↔
      es ≠ [] ∧ (maxSeq = 2 ^ 64 - 1 ∨ answer (newest es key (WithTop.some maxSeq)) =
        answer (newest es key (WithTop.some (maxSeq % 2 ^ 56)))) := by
  constructor
  · rintro ⟨b, hadd, hfile⟩
    obtain ⟨t, hopen, -, -, -, -, -, -, -, hget⟩ := hfile ⟨0, 0, 0, 0, 0, 0, [], []⟩ 0 []
    have hne : es ≠ [] := by
      rintro rfl
      obtain rfl := Except.ok.inj hadd
      rw [openFile_empty] at hopen
      cases hopen
    refine ⟨hne, ?_⟩
    obtain ⟨b', hadd', hfile'⟩ := table_shows ⟨es, hne, hinc⟩ hsmall hfits
    obtain rfl : b = b' := Except.ok.inj (hadd.symm.trans hadd')
    obtain ⟨-, t', hopen', hshows⟩ := hfile' ⟨0, 0, 0, 0, 0, 0, [], []⟩ 0 []
    obtain rfl : t = t' := Except.ok.inj (hopen.symm.trans hopen')
    rw [hshows.get_eq hsmall key hmax] at hget
    by_cases hlast : maxSeq = 2 ^ 64 - 1
    · exact Or.inl hlast
    · rw [if_neg hlast] at hget
      exact Or.inr (congrArg Prod.fst hget).symm
  · rintro ⟨hne, hseen⟩
    obtain ⟨b, hadd, hfile⟩ := table_shows ⟨es, hne, hinc⟩ hsmall hfits
    refine ⟨b, hadd, fun m fileNumber path => ?_⟩
    obtain ⟨hmeta, t, hopen, hshows⟩ := hfile m fileNumber path
    refine ⟨t, hopen, hmeta ▸ reports_fileMeta _ _ _ _, rfl, hshows.numEntries, ?_, ?_,
      hshows.walk, hshows.walkFrom, ?_⟩
    · rw [hshows.smallestUserKey, List.head?_eq_some_head hne]
      rfl
    · rw [hshows.largestUserKey, List.getLast?_eq_some_getLast hne]
      rfl
    · rw [hshows.get_eq hsmall key hmax]
      by_cases hlast : maxSeq = 2 ^ 64 - 1
      · rw [if_pos hlast]
      · rw [if_neg hlast, hseen.resolve_left hlast]

/-- Two versions of one key, in one block. -/
def sampleEntries : List Entry :=
  [⟨ascii "k", 2, .value, ascii "w"⟩, ⟨ascii "k", 1, .value, ascii "v"⟩]

def sampleOptions : TableOptions := ⟨4096, 16, 10⟩

theorem small_sampleEntries : Small sampleEntries := by
  show ∀ e ∈ sampleEntries, e.seq < 2 ^ 56
  decide +kernel

theorem increasing_sampleEntries : Increasing sampleEntries := by decide +kernel

theorem fits_sampleEntries : Fits 0 (Builder.new sampleOptions) sampleEntries := by
  refine ⟨by decide +kernel, by decide +kernel, fun b hb => ?_⟩
  obtain rfl := Except.ok.inj hb
  refine ⟨by decide +kernel, by decide +kernel, fun b hb => ?_⟩
  obtain rfl := Except.ok.inj hb
  exact ⟨by decide +kernel, by decide +kernel⟩

theorem roundTrips_sampleEntries :
    (Increasing sampleEntries ∧ Small sampleEntries ∧
      Fits 0 (Builder.new sampleOptions) sampleEntries) ∧
    RoundTrips 0 sampleOptions sampleEntries (ascii "k") 1 :=
  ⟨⟨increasing_sampleEntries, small_sampleEntries, fits_sampleEntries⟩,
    (roundTrips_iff increasing_sampleEntries small_sampleEntries fits_sampleEntries (ascii "k")
      (by decide)).mpr ⟨by decide, Or.inr rfl⟩⟩

/-- A read bounded by `2 ^ 56` may see both versions, and finds none: its tag is `0xff`. -/
theorem get_wraps :
    (Increasing sampleEntries ∧ Small sampleEntries ∧
      Fits 0 (Builder.new sampleOptions) sampleEntries) ∧
    newest sampleEntries (ascii "k") (WithTop.some (2 ^ 56)) =
      some ⟨ascii "k", 2, .value, ascii "w"⟩ ∧
    ∃ b, (Builder.new sampleOptions).addAll 0 sampleEntries = .ok b ∧
      ∀ (m : FileMeta) (fileNumber : Nat) (path : Bytes), ∃ t,
        Table.openFile fileNumber path (b.finish 0 m).1 = .ok t ∧
        t.get (ascii "k") (2 ^ 56) = (.missing, none) := by
  refine ⟨⟨increasing_sampleEntries, small_sampleEntries, fits_sampleEntries⟩,
    by decide +kernel, ?_⟩
  obtain ⟨b, hadd, hfile⟩ := table_shows ⟨sampleEntries, by decide, increasing_sampleEntries⟩
    small_sampleEntries fits_sampleEntries
  refine ⟨b, hadd, fun m fileNumber path => ?_⟩
  obtain ⟨-, t, hopen, hshows⟩ := hfile m fileNumber path
  refine ⟨t, hopen, ?_⟩
  rw [hshows.get_eq small_sampleEntries _ (by decide)]
  decide +kernel

end RoundTrip

end BedrockKV.Sst
