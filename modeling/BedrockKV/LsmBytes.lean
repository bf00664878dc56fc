/-
# `BedrockKV.LsmBytes` — the store over the bytes of its sources

In `BedrockKV.Lsm` a memtable and a table are the versions they hold.  The code
has a skiplist of encoded entries and a file of blocks, and in both of them
lengths of 32 bits: in front of a key, in the header of an entry, in the handle
of a block.  Here every source is made of its versions as the code makes it, and
is read as the code reads it.

    image, opened                  the skiplist of a memtable, the open file of a table
    lookupBytes, scanWithBytes     `LookupIn` and `Scan` over them
    stepBytes                      the steps of the machine; those that read a source
                                   back (a flush, a merge, the self-check) read its bytes

`Fits` is the one condition on sizes.  Where it holds, each source shows its
versions (`Fits.mem_lists`, `Fits.shows`), so that the reads and the steps are
those of `BedrockKV.Lsm` (`lookupBytes_eq`, `scanWithBytes_eq`, `stepBytes_eq`).
-/
import BedrockKV.MemTable
import BedrockKV.Scan

namespace BedrockKV

open List MultiVersion Sst

/-- What the bytes depend on beside the versions: the height of each skiplist node, and what the
platform makes of a number of probes that is no `int`. -/
structure Platform where
  height : Nat → SkipList.Height
  wild : Int

/-- The defaults of `Builder`, with which every table is built. -/
def tableOptions : TableOptions := ⟨4096, 16, 10⟩

/-! ## The bytes of a source -/

/-- The skiplist, filled in the order of the sequence numbers. -/
def MemTable.image (pl : Platform) (m : MemTable) : Mem.MemTable :=
  .insertAll ((m.entries.insertionSort fun a b => a.seq ≤ b.seq).map fun e =>
    (e, pl.height e.seq, e.user.length + e.value.length + entryOverhead))

/-- A walk over the memtable, from its first entry or from a target on.  `ForEach` passes on the
same user keys, tags and values. -/
def MemTable.shown (pl : Platform) (m : MemTable) (target : Option Bytes) : List (Bytes × Bytes) :=
  let it := Mem.MemTableIterator.new (m.image pl)
  Loop.walk Mem.MemTableIterator.valid Mem.MemTableIterator.pair Mem.MemTableIterator.next
    m.entries.length (target.elim it.seekToFirst it.seek)

/-- `Finish` then `Open`. -/
def Table.image (pl : Platform) (t : Table) (number : Nat) : Except Status Sst.Table :=
  match (Sst.Builder.new tableOptions).addAll pl.wild t.entries with
  | .error status => .error status
  | .ok b =>
    Sst.Table.openFile number [] (b.finish pl.wild ⟨number, 0, 0, 0, 0, 0, [], []⟩).1

/-- The table of a version.  Only a file that opens gets there. -/
def TableRef.opened (pl : Platform) (r : TableRef) : Sst.Table :=
  (r.table.image pl r.number).toOption.getD ⟨r.number, [], [], [], [], [], 0⟩

/-- The version that an iterator shows. -/
def entryOf (kv : Bytes × Bytes) : Entry where
  user := extractUserKey kv.1
  seq := extractTag kv.1 / 256
  type := if extractTag kv.1 % 256 = ValueType.value.code then .value else .deletion
  value := kv.2

/-- The versions that a memtable shows. -/
def MemTable.versions (pl : Platform) (m : MemTable) : List Entry := (m.shown pl none).map entryOf

/-- The versions that a table shows. -/
def TableRef.versions (pl : Platform) (r : TableRef) : List Entry :=
  ((r.opened pl).shown none).map entryOf

/-- The type is one of the two. -/
def Typed (kv : Bytes × Bytes) : Prop := extractTag kv.1 % 256 ≤ ValueType.value.code

instance (kv : Bytes × Bytes) : Decidable (Typed kv) := inferInstanceAs (Decidable (_ ≤ _))

/-- `max_seq` as the `uint64_t` it is. -/
def ReadSeq.word (S : ReadSeq) : Nat := S.untopD (2 ^ 64 - 1)

/-! ## Reads -/

/-- `Table::Get` with its status. -/
def TableRef.lookup (pl : Platform) (r : TableRef) (key : Bytes) (S : ReadSeq) :
    Except Status Lookup :=
  match (r.opened pl).get key S.word with
  | (_, some status) => .error status
  | (a, none) => .ok a

/-- The first answer that is not `kMissing`, or the first error. -/
def firstResult : List (Except Status Lookup) → Except Status Lookup
  | [] => .ok .missing
  | .ok .missing :: rest => firstResult rest
  | a :: _ => a

namespace Lsm

section Read

variable (pl : Platform) (s : Lsm) (key : Bytes) (S : ReadSeq)

def smallestKey (r : TableRef) : Bytes := (r.opened pl).smallestUserKey
def largestKey (r : TableRef) : Bytes := (r.opened pl).largestUserKey

def levelLookup (level : List TableRef) : Except Status Lookup :=
  match rangeCandidate (smallestKey pl) (largestKey pl) level key with
  | none => .ok .missing
  | some r => r.lookup pl key S

/-- `DB::LookupIn`; an error ends the search. -/
def lookupBytes : Except Status Lookup :=
  firstResult (.ok ((s.mem.image pl).get key S.word) ::
    (s.imm.toList.map fun m => .ok ((m.image pl).get key S.word)) ++
    (s.current.l0.map fun r => r.lookup pl key S) ++
    levelIndices.map fun i => levelLookup pl key S (s.current.levels i))

/-- `LookupIn` meets no damage, and this is what it finds. -/
def Finds (x : Option Bytes) : Prop := ∃ a, s.lookupBytes pl key S = .ok a ∧ a.toOption = x

/-- `DB::Get`. -/
def getWithBytes (resolve : Bytes → Except Status Bytes) : Except Status Bytes :=
  match s.lookupBytes pl key S with
  | .error status => .error status
  | .ok (.found stored) => resolve stored
  | .ok .deleted => .error (notFoundDeleted key)
  | .ok .missing => .error (notFoundMissing key)

def getBytes : Except Status Bytes := s.getWithBytes pl key S .ok

/-- `DB::Scan`.  That an iterator has met a damaged block is not asked. -/
def scanWithBytes (resolve : Bytes → Except Status Bytes) (first last : Bytes) :
    List (Bytes × Bytes) × Except Status Unit :=
  let target := some (first ++ putFixed64 (Sst.Table.targetTag S.word))
  let children := (s.mem :: s.imm.toList).map (fun m => m.shown pl target) ++
    (s.current.l0 ++ levelIndices.flatMap fun i =>
      filesInRange (smallestKey pl) (largestKey pl) first last (s.current.levels i)).map
      fun r => (r.opened pl).shown target
  scanLoop resolve last S none false
    (((Merge.merge pairLess children).map Prod.snd).map entryOf)

end Read

/-! ## Steps -/

section Step

variable (pl : Platform) (s : Lsm)

/-- `FlushImmMemTable` up to its self-check.  A version of a third type is not followed. -/
def flushBuildBytes : Option Lsm :=
  match s.imm, s.flush, s.compaction with
  | some m, .idle, none =>
    if ∀ kv ∈ m.shown pl none, Typed kv then
      match buildTable (m.versions pl) with
      | .error _ => some s
      | .ok b =>
        match b.finish with
        | none => some s
        | some t =>
          if (t.image pl s.immSstNumber).isOk then some { s with flush := .built t } else some s
    else none
  | _, _, _ => none

/-- What the merge of `RunCompaction` walks over. -/
def mergePairs (c : Compaction) : List (Bytes × Bytes) :=
  (Merge.merge pairLess (c.inputs.map fun r => (r.opened pl).shown none)).map Prod.snd

/-- The merge.  That an iterator has met a damaged block is not asked. -/
def captureFloorBytes : Option Lsm :=
  match s.compaction with
  | some (c, .picked) =>
    if ∀ kv ∈ mergePairs pl c, Typed kv then
      match mergeLoop s.opt s.smallestSnapshotSeq c.bottom .start
          ((mergePairs pl c).map entryOf) with
      | .ok st =>
        some { s with compaction := some (c, .merging s.smallestSnapshotSeq st.outputs []) }
      | .error _ => some { s with compaction := none, compactionDisabled := true }
    else none
  | _ => none

/-- `seal()`: an output that does not open ends the compaction. -/
def sealOutputBytes : Option Lsm :=
  match s.compaction with
  | some (_, .merging _ (t :: _) _) =>
    if (t.image pl s.nextFileNumber).isOk then s.sealOutput
    else some { s with
      nextFileNumber := s.nextFileNumber + 1
      compaction := none
      compactionDisabled := true }
  | _ => none

def stepBytes : Op → Option Lsm
  | .flushBuild => s.flushBuildBytes pl
  | .captureFloor => s.captureFloorBytes pl
  | .sealOutput => s.sealOutputBytes pl
  | op => s.step op

end Step

/-! ## Sizes -/

/-- The files of the version, and those that a merge is writing. -/
def files (s : Lsm) : List Table :=
  s.current.tables.map TableRef.table ++
    match s.compaction with
    | some (_, .merging _ todo outputs) => outputs.map TableRef.table ++ todo
    | _ => []

/-- No length needs more than its 32 bits: no key of a memtable, and no entry, block or filter of
a file (`Sst.Fits`), the one that the pending memtable is to become included.  Sequence numbers
leave a byte of the tag to the type. -/
structure Fits (pl : Platform) (s : Lsm) : Prop where
  small : Small s.stored
  snapshots : ∀ sn ∈ s.snapshots, sn.sequence < 2 ^ 56
  mem : Mem.Short s.mem.entries
  imm : ∀ m ∈ s.imm.toList,
    Mem.Short m.entries ∧ Sst.Fits pl.wild (Sst.Builder.new tableOptions) m.entries
  files : ∀ t ∈ s.files, Sst.Fits pl.wild (Sst.Builder.new tableOptions) t.entries

instance (pl : Platform) (s : Lsm) : Decidable (s.Fits pl) :=
  have : ∀ es, Decidable (Sst.Small es) := fun es => inferInstanceAs (Decidable (∀ e ∈ es, _))
  have : ∀ es, Decidable (Mem.Short es) := fun es => inferInstanceAs (Decidable (∀ e ∈ es, _))
  decidable_of_iff (Small s.stored ∧ (∀ sn ∈ s.snapshots, sn.sequence < 2 ^ 56) ∧
      Mem.Short s.mem.entries ∧
      (∀ m ∈ s.imm.toList,
        Mem.Short m.entries ∧ Sst.Fits pl.wild (Sst.Builder.new tableOptions) m.entries) ∧
      ∀ t ∈ s.files, Sst.Fits pl.wild (Sst.Builder.new tableOptions) t.entries)
    ⟨fun ⟨hsmall, hsn, hmem, himm, hfiles⟩ => ⟨hsmall, hsn, hmem, himm, hfiles⟩,
      fun ⟨hsmall, hsn, hmem, himm, hfiles⟩ => ⟨hsmall, hsn, hmem, himm, hfiles⟩⟩

end Lsm

/-! ## What a source shows -/

section Sources

variable {pl : Platform} {m : MemTable} {r : TableRef} {e : Entry} {es : List Entry} {S : ReadSeq}

theorem entryOf_pair (he : e.seq < 2 ^ 56) :
    entryOf (keyOf e, e.value) = e ∧ Typed (keyOf e, e.value) := by
  have hparsed := parsedKey_keyOf he
  rw [parsedKey, Entry.internalKey, InternalKey.mk.injEq, WithTop.coe_inj] at hparsed
  obtain ⟨user, seq, type, value⟩ := e
  rw [entryOf, Typed, hparsed.1, hparsed.2, Entry.tag]
  cases type <;> constructor <;> simp [ValueType.code]
  all_goals omega

theorem map_entryOf (hsmall : Small es) : (pairs es).map entryOf = es := by
  rw [pairs, map_map]
  exact (map_congr_left fun e he => (entryOf_pair (hsmall e he)).1).trans (map_id _)

theorem typed_pairs (hsmall : Small es) : ∀ kv ∈ pairs es, Typed kv := by
  intro kv hkv
  obtain ⟨e, he, rfl⟩ := mem_map.mp hkv
  exact (entryOf_pair (hsmall e he)).2

/-- The merge of the bytes is the merge of the versions. -/
theorem merge_pairs {lists : List (List Entry)} (hsmall : ∀ es ∈ lists, Small es) :
    (Merge.merge pairLess (lists.map pairs)).map Prod.snd = pairs (merge lists) := by
  have hless : ∀ a b : Entry, a.seq < 2 ^ 56 → b.seq < 2 ^ 56 →
      pairLess (keyOf a, a.value) (keyOf b, b.value) = entryLess a b := by
    intro a b ha hb
    rw [pairLess, entryLess, Bool.eq_iff_iff, less_keyOf ha hb, decide_eq_true_iff]
  have hmap := Merge.merge_map (f := fun e : Entry => (keyOf e, e.value)) hless hsmall
  have hpairs : lists.map pairs = lists.map (List.map fun e : Entry => (keyOf e, e.value)) := rfl
  rw [hpairs, hmap, map_map, merge, pairs, map_map]
  rfl

/-- The bound is `kMaxSeq`, or one that a sequence number can be. -/
theorem seen_word (hS : ∀ q : Nat, S = WithTop.some q → q < 2 ^ 56) : seen S.word = S := by
  cases S with
  | none => rfl
  | some q =>
    have hq := hS q rfl
    change seen q = WithTop.some q
    rw [seen, if_neg (by omega), Nat.mod_eq_of_lt hq]

theorem kMaxSeq_bound (q : Nat) (hq : kMaxSeq = WithTop.some q) : q < 2 ^ 56 := by cases hq

theorem MemTable.image_lists (hshort : Mem.Short m.entries) (hsmall : Small m.entries) :
    ∃ chain, (m.image pl).Lists chain m.entries := by
  have hperm := perm_insertionSort (fun a b : Entry => a.seq ≤ b.seq) m.entries
  have hne : m.entries.Pairwise fun a b => a.internalKey ≠ b.internalKey := by
    refine m.increasing.imp fun {a b} hab heq => ?_
    rw [heq] at hab
    exact InternalKey.less_irrefl _ hab
  have hholds := @Mem.insertAll_holds
    ((m.entries.insertionSort fun a b => a.seq ≤ b.seq).map fun e =>
      (e, pl.height e.seq, e.user.length + e.value.length + MemTable.entryOverhead))
  rw [map_map, show (Prod.fst ∘ fun e : Entry => (e, pl.height e.seq,
    e.user.length + e.value.length + MemTable.entryOverhead)) = id from rfl, map_id] at hholds
  have hrev := (reverse_perm _).trans hperm
  obtain ⟨chain, sorted, hlists, hsorted⟩ := (hholds (fun e he => hshort e (hperm.subset he))
    (fun e he => hsmall e (hperm.subset he)) (hperm.symm.pairwise hne fun h => h.symm)).lists
      (fun e he => hshort e (hrev.subset he)) (fun e he => hsmall e (hrev.subset he))
  have heq : sorted = m.entries :=
    (hsorted.trans hrev).eq_of_pairwise (fun a b _ _ hab hba =>
      absurd hba (InternalKey.less_asymm hab)) hlists.increasing m.increasing
  exact ⟨chain, heq ▸ hlists⟩

theorem MemTable.image_get (hshort : Mem.Short m.entries) (hsmall : Small m.entries)
    (hS : ∀ q : Nat, S = WithTop.some q → q < 2 ^ 56) (key : Bytes) :
    (m.image pl).get key S.word = m.get key S := by
  obtain ⟨chain, hlists⟩ := @MemTable.image_lists pl m hshort hsmall
  rw [hlists.get_lookup, seen_word hS]
  rfl

theorem MemTable.shown_none (hshort : Mem.Short m.entries) (hsmall : Small m.entries) :
    m.shown pl none = pairs m.entries := by
  obtain ⟨chain, hlists⟩ := @MemTable.image_lists pl m hshort hsmall
  exact (hlists.walk rfl).walk_eq (length_map _).le

/-- The versions from a seek on, as the list has them. -/
theorem filter_pairs (hinc : Increasing es) (hsmall : Small es)
    (hS : ∀ q : Nat, S = WithTop.some q → q < 2 ^ 56) (first : Bytes) :
    (pairs es).filter (fun kv =>
      !internalKeyLess kv.1 (first ++ putFixed64 (Sst.Table.targetTag S.word))) =
        pairs (seek es ⟨first, targetTag S⟩) := by
  have hseek := Chunks.dropWhile_congr fun e he => less_target (hsmall e he) first S.word
  rw [seen_word hS] at hseek
  rw [seek, ← hseek, (upto_less hinc hsmall _).dropWhile_eq_filter, pairs, pairs, filter_map]
  rfl

theorem MemTable.shown_seek (hshort : Mem.Short m.entries) (hsmall : Small m.entries)
    {target : Bytes} (htarget : 8 ≤ target.length) : m.shown pl (some target) =
      (pairs m.entries).filter fun kv => !internalKeyLess kv.1 (Mem.seekKey target) := by
  obtain ⟨chain, hlists⟩ := @MemTable.image_lists pl m hshort hsmall
  have hit : (Mem.MemTableIterator.new (m.image pl)).mem = m.image pl := rfl
  refine (hlists.walkFrom hit htarget).walk_eq ?_
  exact (length_filter_le _ _).trans (length_map _).le

theorem MemTable.shown_some (hshort : Mem.Short m.entries) (hsmall : Small m.entries)
    (hS : ∀ q : Nat, S = WithTop.some q → q < 2 ^ 56) {first : Bytes}
    (hfirst : first.length < 2 ^ 32) :
    m.shown pl (some (first ++ putFixed64 (Sst.Table.targetTag S.word))) =
      pairs (seek m.entries ⟨first, targetTag S⟩) := by
  have hlen : (first ++ putFixed64 (Sst.Table.targetTag S.word)).length = first.length + 8 := by
    simp
  rw [MemTable.shown_seek hshort hsmall (by omega), Mem.seekKey_of_short (by omega) (by omega),
    filter_pairs m.increasing hsmall hS]

/-- **The file of a table opens and shows it.** -/
theorem Table.image_shows {T : Table} (hsmall : Small T.entries)
    (hfits : Sst.Fits pl.wild (Sst.Builder.new tableOptions) T.entries) (number : Nat) :
    ∃ t, T.image pl number = .ok t ∧ Sst.Shows t T := by
  obtain ⟨b, hadd, hfile⟩ := table_shows T hsmall hfits
  obtain ⟨-, t, hopen, hshows⟩ := hfile ⟨number, 0, 0, 0, 0, 0, [], []⟩ number []
  exact ⟨t, by rw [Table.image, hadd]; exact hopen, hshows⟩

theorem TableRef.opened_shows (hsmall : Small r.entries)
    (hfits : Sst.Fits pl.wild (Sst.Builder.new tableOptions) r.entries) :
    Sst.Shows (r.opened pl) r.table := by
  obtain ⟨t, himage, hshows⟩ := Table.image_shows hsmall hfits r.number
  rw [TableRef.opened, himage]
  exact hshows

theorem shown_none {t : Sst.Table} {T : Table} (h : Sst.Shows t T) :
    t.shown none = pairs T.entries :=
  (h.walk (.new t) rfl).walk_eq ((length_map _).trans_le h.length_le)

theorem shown_some {t : Sst.Table} {T : Table} (h : Sst.Shows t T) (hsmall : Small T.entries)
    (hS : ∀ q : Nat, S = WithTop.some q → q < 2 ^ 56) (first : Bytes) :
    t.shown (some (first ++ putFixed64 (Sst.Table.targetTag S.word))) =
      pairs (seek T.entries ⟨first, targetTag S⟩) := by
  rw [← filter_pairs T.increasing hsmall hS]
  refine (h.walkFrom (.new t) rfl _).walk_eq ((length_filter_le _ _).trans ?_)
  exact (length_map _).trans_le h.length_le

end Sources

/-! ## The two levels agree -/

theorem firstResult_map (as : List Lookup) : firstResult (as.map .ok) = .ok (firstAnswer as) := by
  induction as with
  | nil => rfl
  | cons a as ih => cases a <;> first | rfl | exact ih

namespace Lsm

variable {pl : Platform} {h : List Entry} {s : Lsm} {S : ReadSeq}

theorem fresh_fits (pl : Platform) (opt : Options) : (fresh opt).Fits pl :=
  ⟨nofun, nofun, nofun, nofun, nofun⟩

section Fits

variable (hf : s.Fits pl)
include hf

theorem Fits.mem_small : Small s.mem.entries := fun e he => hf.small e (mem_append_left _ he)

theorem Fits.table_small {r : TableRef} (hr : r ∈ s.current.tables) : Small r.entries :=
  fun e he => hf.small e (mem_append_right _ (mem_append_right _
    (Version.mem_entries.mpr ⟨r, hr, he⟩)))

/-- **Every file of the version shows its versions.** -/
theorem Fits.shows {r : TableRef} (hr : r ∈ s.current.tables) : Sst.Shows (r.opened pl) r.table :=
  TableRef.opened_shows (hf.table_small hr) (hf.files _ (mem_append_left _ (mem_map_of_mem hr)))

theorem Fits.ranges {level : List TableRef} (hlevel : ∀ r ∈ level, r ∈ s.current.tables) :
    ∀ r ∈ level, smallestKey pl r = r.smallest ∧ largestKey pl r = r.largest := fun r hr =>
  ⟨(hf.shows (hlevel r hr)).smallestUserKey, (hf.shows (hlevel r hr)).largestUserKey⟩

theorem Fits.versions {r : TableRef} (hr : r ∈ s.current.tables) : r.versions pl = r.entries := by
  rw [TableRef.versions, shown_none (hf.shows hr)]
  exact map_entryOf (hf.table_small hr)

theorem Fits.lookup (hS : ∀ q : Nat, S = WithTop.some q → q < 2 ^ 56) {r : TableRef}
    (hr : r ∈ s.current.tables) (key : Bytes) : r.lookup pl key S = .ok (r.table.get key S) := by
  rw [TableRef.lookup, (hf.shows hr).get, seen_word hS]

/-- A store that has only the same files, and in memory what the other has. -/
theorem Fits.recovered {r : Lsm} (hcur : r.current = s.current) (himm : r.imm = none)
    (hcomp : r.compaction = none) (hsn : r.snapshots = [])
    (hmem : ∀ e ∈ r.mem.entries, e ∈ s.mem.entries ++ s.pending) : r.Fits pl := by
  have hpend : ∀ e ∈ s.pending, ∃ m ∈ s.imm.toList, e ∈ m.entries := by
    intro e he
    unfold pending at he
    split at he
    · cases he
    · next m him _ => exact ⟨m, by rw [him]; exact mem_cons_self, he⟩
    · cases he
  refine ⟨fun e he => ?_, fun sn hx => ?_, fun e he => ?_, fun m hm => ?_, fun t ht => ?_⟩
  · rw [stored, pending_of_none himm, nil_append, hcur] at he
    refine hf.small e ?_
    rw [stored, ← append_assoc]
    exact mem_append.mpr ((mem_append.mp he).imp_left (hmem e))
  · rw [hsn] at hx
    cases hx
  · rcases mem_append.mp (hmem e he) with he | he
    · exact hf.mem e he
    · obtain ⟨m, hm, he⟩ := hpend e he
      exact (hf.imm m hm).1 e he
  · rw [himm] at hm
    cases hm
  · rw [Lsm.files, hcomp, append_nil, hcur] at ht
    exact hf.files t (mem_append_left _ ht)

end Fits

variable (hi : s.Inv h) (hf : s.Fits pl)
include hi hf

theorem Fits.writeEntry (hseq : s.nextSeq < 2 ^ 56) {key : Bytes} (hkey : key.length < 2 ^ 32)
    (type : ValueType) (stored : Bytes) : (s.writeEntry type key stored).Fits pl := by
  refine ⟨fun e he => ?_, hf.snapshots, fun e he => ?_, hf.imm, hf.files⟩
  · rcases (mem_stored_writeEntry hi e).mp he with rfl | he
    · exact hseq
    · exact hf.small e he
  · rcases (mem_writeEntry hi e).mp he with rfl | he
    · exact hkey
    · exact hf.mem e he

theorem Fits.imm_small : ∀ m ∈ s.imm.toList, Small m.entries := fun m hm e he =>
  hf.small e (mem_append_right _ ((mem_imm_or_version hi).mp
    (.inl ⟨m, Option.mem_toList.mp hm, he⟩)))

variable (hS : ∀ q : Nat, S = WithTop.some q → q < 2 ^ 56)
include hS

/-- **`LookupIn` finds no damage**, and what the versions say. -/
theorem lookupBytes_eq (key : Bytes) : s.lookupBytes pl key S = .ok (s.lookup key S) := by
  have himm : (s.imm.toList.map fun m => Except.ok ((m.image pl).get key S.word)) =
      (s.imm.toList.map fun m => m.get key S).map (Except.ok (ε := Status)) := by
    rw [map_map]
    refine map_congr_left fun m hm => congrArg _ ?_
    exact MemTable.image_get (hf.imm m hm).1 (hf.imm_small hi m hm) hS key
  have hl0 : (s.current.l0.map fun r => r.lookup pl key S) =
      (s.current.l0.map fun r => r.table.get key S).map .ok := by
    rw [map_map]
    exact map_congr_left fun r hr => hf.lookup hS (Version.mem_tables.mpr (.inl hr)) key
  have hlevels : (levelIndices.map fun i => levelLookup pl key S (s.current.levels i)) =
      (levelIndices.map fun i => levelGet (s.current.levels i) key S).map .ok := by
    rw [map_map]
    refine map_congr_left fun i _ => ?_
    have hlevel : ∀ r ∈ s.current.levels i, r ∈ s.current.tables := fun r hr =>
      Version.mem_tables_of_level hr
    rw [levelLookup, rangeCandidate_congr (hf.ranges hlevel), Function.comp_apply, levelGet]
    cases hcand : levelCandidate (s.current.levels i) key with
    | none => rfl
    | some r => exact hf.lookup hS (hlevel r (rangeCandidate_mem hcand)) key
  rw [lookupBytes, MemTable.image_get hf.mem (hf.mem_small) hS, himm, hl0, hlevels, ← map_cons,
    ← map_append, ← map_append, firstResult_map]
  rfl

theorem getWithBytes_eq (key : Bytes) (resolve : Bytes → Except Status Bytes) :
    s.getWithBytes pl key S resolve = s.getWith resolve key S := by
  rw [getWithBytes, lookupBytes_eq hi hf hS, getWith]
  cases s.lookup key S <;> rfl

/-- **`Scan` walks over the versions.** -/
theorem scanWithBytes_eq (resolve : Bytes → Except Status Bytes) {first : Bytes}
    (hfirst : first.length < 2 ^ 32) (last : Bytes) :
    s.scanWithBytes pl S resolve first last = s.scanWith resolve first last S := by
  have hmem : ∀ m ∈ s.mem :: s.imm.toList, m.shown pl
      (some (first ++ putFixed64 (Sst.Table.targetTag S.word))) =
        pairs (seek m.entries ⟨first, targetTag S⟩) := by
    refine forall_mem_cons.mpr ⟨?_, fun m hm => ?_⟩
    · exact MemTable.shown_some hf.mem (hf.mem_small) hS hfirst
    · exact MemTable.shown_some (hf.imm m hm).1 (hf.imm_small hi m hm) hS hfirst
  have hlevel : ∀ i, ∀ r ∈ s.current.levels i, r ∈ s.current.tables := fun i r hr =>
    Version.mem_tables_of_level hr
  have hfiles : ∀ r ∈ s.current.l0 ++ levelIndices.flatMap (fun i =>
      filesInRange TableRef.smallest TableRef.largest first last (s.current.levels i)),
      r ∈ s.current.tables := by
    intro r hr
    rcases mem_append.mp hr with hr | hr
    · exact Version.mem_tables.mpr (.inl hr)
    · obtain ⟨i, -, hr⟩ := mem_flatMap.mp hr
      exact hlevel i r (filesInRange_subset _ hr)
  have hchildren : (s.mem :: s.imm.toList).map (fun m => m.shown pl
      (some (first ++ putFixed64 (Sst.Table.targetTag S.word)))) ++
      (s.current.l0 ++ levelIndices.flatMap fun i => filesInRange (smallestKey pl) (largestKey pl)
        first last (s.current.levels i)).map (fun r => (r.opened pl).shown
          (some (first ++ putFixed64 (Sst.Table.targetTag S.word)))) =
      ((s.scanChildren first last).map fun es => seek es ⟨first, targetTag S⟩).map pairs := by
    rw [flatMap_congr fun i _ => filesInRange_congr (hf.ranges (hlevel i)) first last,
      map_congr_left hmem, map_congr_left fun r hr =>
        shown_some (hf.shows (hfiles r hr)) (hf.table_small (hfiles r hr)) hS first]
    simp only [scanChildren, scanLevel, map_append, map_cons, map_map, map_flatMap,
      Function.comp_def, append_assoc, cons_append, TableRef.entries]
  have hsmall : ∀ es ∈ (s.scanChildren first last).map fun es => seek es ⟨first, targetTag S⟩,
      Small es := fun es hes e he =>
    hf.small e (mem_stored_of_scan hi (mem_merge.mpr ⟨es, hes, he⟩))
  have hmerge := merge_pairs hsmall
  have hwalk : Small (merge ((s.scanChildren first last).map fun es =>
      seek es ⟨first, targetTag S⟩)) := fun e he => hf.small e (mem_stored_of_scan hi he)
  rw [scanWithBytes, scanWith, hchildren, ← map_entryOf hwalk, ← hmerge]

omit hS

omit hi hf in
theorem flushBuildBytes_of_opens (himm : ∀ m ∈ s.imm.toList, Mem.Short m.entries ∧
    Small m.entries ∧ ∀ t : Table, t.entries = m.entries → (t.image pl s.immSstNumber).isOk) :
    s.flushBuildBytes pl = s.flushBuild := by
  unfold flushBuildBytes flushBuild
  cases him : s.imm with
  | none => rfl
  | some m =>
    cases s.flush with
    | built t | installed => rfl
    | idle =>
      cases s.compaction with
      | some c => rfl
      | none =>
        obtain ⟨hshort, hsmall, hopens⟩ := himm m (Option.mem_toList.mpr him)
        obtain ⟨b, hb, hbe⟩ := buildTable_ok m.increasing
        dsimp only
        rw [MemTable.versions, MemTable.shown_none hshort hsmall, if_pos (typed_pairs hsmall),
          map_entryOf hsmall, hb]
        dsimp only
        cases hfin : b.finish with
        | none => rfl
        | some t =>
          have hte : t.entries = m.entries := by
            unfold Builder.finish at hfin
            split at hfin
            · rw [← Option.some.inj hfin]
              exact hbe
            · cases hfin
          exact if_pos (hopens t hte)

theorem flushBuildBytes_eq : s.flushBuildBytes pl = s.flushBuild := by
  refine flushBuildBytes_of_opens fun m hm => ?_
  obtain ⟨hshort, hfits⟩ := hf.imm m hm
  have hsmall := hf.imm_small hi m hm
  refine ⟨hshort, hsmall, fun t hte => ?_⟩
  rw [← hte] at hsmall hfits
  obtain ⟨t', himage, -⟩ := Table.image_shows hsmall hfits s.immSstNumber
  rw [himage]
  rfl

omit hi hf in
theorem mergePairs_eq {c : Compaction} {lists : List (List Entry)}
    (hshown : (c.inputs.map fun r => (r.opened pl).shown none) = lists.map pairs)
    (hsmall : ∀ es ∈ lists, Small es) :
    mergePairs pl c = pairs (merge lists) ∧ Small (merge lists) := by
  refine ⟨by rw [mergePairs, hshown, merge_pairs hsmall], fun e he => ?_⟩
  obtain ⟨es, hes, he⟩ := mem_merge.mp he
  exact hsmall es hes e he

theorem captureFloorBytes_eq : s.captureFloorBytes pl = s.captureFloor := by
  unfold captureFloorBytes captureFloor
  cases hc : s.compaction with
  | none => rfl
  | some x =>
    obtain ⟨c, _ | _⟩ := x
    · have hp : Picked s.current c := by
        have hcomp := hi.compact
        simpa only [CompactOk, hc] using hcomp
      have hshown : (c.inputs.map fun r => (r.opened pl).shown none) =
          (c.inputs.map TableRef.entries).map pairs := by
        rw [map_map]
        exact map_congr_left fun r hr => shown_none (hf.shows (hp.mem_tables hr))
      obtain ⟨hpairs, hwalk⟩ := mergePairs_eq hshown fun es hes => by
        obtain ⟨r, hr, rfl⟩ := mem_map.mp hes
        exact hf.table_small (hp.mem_tables hr)
      dsimp only
      rw [hpairs, if_pos (typed_pairs hwalk), map_entryOf hwalk, mergeTables]
      cases mergeLoop s.opt s.smallestSnapshotSeq c.bottom .start
        (merge (c.inputs.map TableRef.entries)) <;> rfl
    · rfl

theorem sealOutputBytes_eq : s.sealOutputBytes pl = s.sealOutput := by
  unfold sealOutputBytes
  split
  · next c floor t todo outputs hc =>
    obtain ⟨hp, hm⟩ := hi.merging hc
    have ht : t ∈ outputs.map TableRef.table ++ t :: todo := mem_append_right _ mem_cons_self
    have hsmall : Small t.entries := by
      intro e he
      obtain ⟨hin, -⟩ := (hm.written e).mp (mem_flatMap.mpr ⟨t, ht, he⟩)
      obtain ⟨r, hr, her⟩ := mem_flatMap.mp hin
      exact hf.table_small (hp.mem_tables hr) e her
    have hfits := hf.files t (mem_append_right _ (by rw [hc]; exact ht))
    obtain ⟨t', himage, -⟩ := Table.image_shows hsmall hfits s.nextFileNumber
    rw [himage]
    rfl
  · next hne =>
    unfold sealOutput
    split
    · next c floor t todo outputs hc => exact absurd hc (hne c floor t todo outputs)
    · rfl

/-- **The steps over the bytes are the steps over the versions.** -/
theorem stepBytes_eq (op : Op) : s.stepBytes pl op = s.step op := by
  cases op with
  | flushBuild => exact flushBuildBytes_eq hi hf
  | captureFloor => exact captureFloorBytes_eq hi hf
  | sealOutput => exact sealOutputBytes_eq hi hf
  | _ => rfl

end Lsm

end BedrockKV
