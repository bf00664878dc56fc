/-
# `BedrockKV.Sources` — memtables and sorted tables, as lists of versions

Both kinds of source hold versions in strict internal-key order, and both
carry that order as a field: a `MemTable` is built only by `add`, which
inserts in place and leaves the list alone when an equivalent key is already
there (`SkipListT::Insert`), and a `Table` only by a `Builder`, whose `add`
refuses an entry that does not increase.

A table is taken here at the level its iterator shows it.  Its block layout
enters in two places only, both sizes: `ApproximateFileSize` decides where a
compaction splits its outputs, and the finished file size which level is
over its limit.  They are the two functions of a `TableSize`, and nothing
below depends on what they are.  The skiplist and the blocks themselves, with
their 32-bit lengths, are in `BedrockKV.LsmBytes`: it is there that these
lists are tied to what the code reads, and under which sizes.
-/
import BedrockKV.InternalKey

namespace BedrockKV

open List MultiVersion

/-! ## The memtable -/

/-- `SkipListT::Insert`: find the first entry that is not less; an equivalent
one leaves the list untouched. -/
def insertEntry (e : Entry) : List Entry → List Entry
  | [] => [e]
  | x :: xs =>
    if x.internalKey.less e.internalKey then x :: insertEntry e xs
    else if e.internalKey.less x.internalKey then e :: x :: xs
    else x :: xs

variable {e x : Entry} {es : List Entry}

theorem mem_of_mem_insertEntry (h : x ∈ insertEntry e es) : x = e ∨ x ∈ es := by
  induction es with
  | nil => exact .inl (mem_singleton.mp h)
  | cons y ys ih =>
    simp only [insertEntry] at h
    split at h
    · rcases mem_cons.mp h with rfl | h
      · exact .inr mem_cons_self
      · exact (ih h).imp_right (mem_cons_of_mem _)
    · split at h
      · exact mem_cons.mp h
      · exact .inr h

theorem mem_insertEntry_of_mem (h : x ∈ es) : x ∈ insertEntry e es := by
  induction es with
  | nil => cases h
  | cons y ys ih =>
    simp only [insertEntry]
    split
    · rcases mem_cons.mp h with rfl | h
      · exact mem_cons_self
      · exact mem_cons_of_mem _ (ih h)
    · split
      · exact mem_cons_of_mem _ h
      · exact h

theorem mem_insertEntry_self (h : ∀ x ∈ es, x.internalKey ≠ e.internalKey) :
    e ∈ insertEntry e es := by
  induction es with
  | nil => exact mem_cons_self
  | cons y ys ih =>
    simp only [insertEntry]
    split
    · exact mem_cons_of_mem _ (ih fun x hx => h x (mem_cons_of_mem _ hx))
    · next hye =>
      split
      · exact mem_cons_self
      · next hey => exact absurd (InternalKey.eq_of_not_less hye hey) (h y mem_cons_self)

theorem mem_insertEntry (h : ∀ x ∈ es, x.internalKey ≠ e.internalKey) :
    x ∈ insertEntry e es ↔ x = e ∨ x ∈ es := by
  constructor
  · exact mem_of_mem_insertEntry
  · rintro (rfl | hx)
    · exact mem_insertEntry_self h
    · exact mem_insertEntry_of_mem hx

theorem increasing_insertEntry (h : Increasing es) : Increasing (insertEntry e es) := by
  induction es with
  | nil => exact pairwise_singleton _ _
  | cons y ys ih =>
    obtain ⟨hhead, htail⟩ := pairwise_cons.mp h
    simp only [insertEntry]
    split
    · next hye =>
      refine pairwise_cons.mpr ⟨?_, ih htail⟩
      intro x hx
      rcases mem_of_mem_insertEntry hx with rfl | hx
      · exact hye
      · exact hhead x hx
    · split
      · next hey =>
        refine pairwise_cons.mpr ⟨?_, h⟩
        intro x hx
        rcases mem_cons.mp hx with rfl | hx
        · exact hey
        · exact InternalKey.less_trans hey (hhead x hx)
      · exact h

/-- `MemTable`: the skiplist's level 0 and the size estimate. -/
structure MemTable where
  entries : List Entry
  approximateSize : Nat
  increasing : Increasing entries

namespace MemTable

def empty : MemTable := ⟨[], 0, List.Pairwise.nil⟩

/-- `kTagSize + kLenPrefixSize + 24`, charged to every entry. -/
def entryOverhead : Nat := 8 + 4 + 24

/-- `Put` and `Delete`; a tombstone has no value bytes. -/
def add (m : MemTable) (e : Entry) : MemTable where
  entries := insertEntry e m.entries
  approximateSize := m.approximateSize + e.user.length + e.value.length + entryOverhead
  increasing := increasing_insertEntry m.increasing

def put (m : MemTable) (seq : Nat) (key value : Bytes) : MemTable :=
  m.add ⟨key, seq, .value, value⟩

def delete (m : MemTable) (seq : Nat) (key : Bytes) : MemTable :=
  m.add ⟨key, seq, .deletion, []⟩

def get (m : MemTable) (key : Bytes) (maxSeq : ReadSeq) : Lookup :=
  lookupEntries m.entries key maxSeq

theorem get_answers (m : MemTable) (key : Bytes) (S : ReadSeq) :
    Answers m.entries key S (m.get key S) :=
  lookupEntries_answers m.increasing key S

theorem mem_add {m : MemTable} {e x : Entry} (h : ∀ x ∈ m.entries, x.seq < e.seq) :
    x ∈ (m.add e).entries ↔ x = e ∨ x ∈ m.entries := by
  refine mem_insertEntry ?_
  intro y hy heq
  have htag : WithTop.some y.tag = WithTop.some e.tag := congrArg InternalKey.tag heq
  have hlt := Entry.tag_lt_of_seq_lt (h y hy)
  exact absurd (WithTop.coe_inj.mp htag) (Nat.ne_of_lt hlt)

end MemTable

/-! ## Sorted tables -/

/-- The two sizes of a table that its byte layout decides. -/
structure TableSize where
  approximateFileSize : List Entry → Nat
  fileSize : List Entry → Nat

/-- `sst::FileMeta`. -/
structure FileMeta where
  fileNumber : Nat
  level : Nat
  smallestSeq : Nat
  largestSeq : Nat
  entryCount : Nat
  fileSize : Nat
  smallestKey : Bytes
  largestKey : Bytes
  deriving DecidableEq, Repr

/-- `sst::Builder`: the entries added so far. -/
structure Builder where
  entries : List Entry
  increasing : Increasing entries

namespace Builder

def new : Builder := ⟨[], List.Pairwise.nil⟩

/-- `has_last_key_ && !less(last_internal_key_, ik)`, negated. -/
def Accepts (b : Builder) (e : Entry) : Prop :=
  ∀ x ∈ b.entries.getLast?, x.internalKey.less e.internalKey

instance (b : Builder) (e : Entry) : Decidable (b.Accepts e) :=
  inferInstanceAs (Decidable (∀ x ∈ b.entries.getLast?, x.internalKey.less e.internalKey))

theorem increasing_concat {es : List Entry} {e : Entry} (h : Increasing es)
    (hlast : ∀ x ∈ es.getLast?, x.internalKey.less e.internalKey) : Increasing (es ++ [e]) := by
  refine pairwise_append.mpr ⟨h, pairwise_singleton _ _, ?_⟩
  intro x hx y hy
  rw [mem_singleton.mp hy]
  have hne : es ≠ [] := ne_nil_of_mem hx
  have hl := hlast (es.getLast hne) (by rw [getLast?_eq_some_getLast hne]; rfl)
  rcases mem_iff_append.mp hx with ⟨l, r, rfl⟩
  rcases eq_nil_or_concat' r with rfl | ⟨r, z, rfl⟩
  · simpa using hl
  · have hxz := (pairwise_cons.mp (pairwise_append.mp h).2.1).1 z (by simp)
    refine InternalKey.less_trans hxz ?_
    simpa using hl

def add (b : Builder) (e : Entry) : Except Status Builder :=
  if h : b.Accepts e then .ok ⟨b.entries ++ [e], increasing_concat b.increasing h⟩
  else .error ⟨.invalidArgument, ascii "sstable entries must be strictly increasing"⟩

theorem add_eq_ok {b : Builder} {e : Entry} (h : b.Accepts e) :
    ∃ b', b.add e = .ok b' ∧ b'.entries = b.entries ++ [e] := by
  unfold add
  rw [dif_pos h]
  exact ⟨_, rfl, rfl⟩

end Builder

/-- `sst::Table`.  A file without entries does not open. -/
structure Table where
  entries : List Entry
  ne : entries ≠ []
  increasing : Increasing entries

namespace Table

def smallestUserKey (t : Table) : Bytes := (t.entries.head t.ne).user
def largestUserKey (t : Table) : Bytes := (t.entries.getLast t.ne).user

def get (t : Table) (key : Bytes) (maxSeq : ReadSeq) : Lookup :=
  lookupEntries t.entries key maxSeq

theorem get_answers (t : Table) (key : Bytes) (S : ReadSeq) :
    Answers t.entries key S (t.get key S) :=
  lookupEntries_answers t.increasing key S

theorem smallest_le {t : Table} {e : Entry} (h : e ∈ t.entries) :
    t.smallestUserKey ≤ e.user := by
  obtain ⟨es, hne, hinc⟩ := t
  cases es with
  | nil => exact absurd rfl hne
  | cons x xs =>
    rcases mem_cons.mp h with rfl | h
    · exact le_refl _
    · exact InternalKey.less_user_le ((pairwise_cons.mp hinc).1 e h)

theorem le_largest {t : Table} {e : Entry} (h : e ∈ t.entries) :
    e.user ≤ t.largestUserKey := by
  obtain ⟨es, hne, hinc⟩ := t
  rcases eq_nil_or_concat' es with rfl | ⟨xs, x, rfl⟩
  · exact absurd rfl hne
  · change e.user ≤ ((xs ++ [x]).getLast hne).user
    rw [getLast_append_singleton]
    rcases mem_append.mp h with h | h
    · exact InternalKey.less_user_le ((pairwise_append.mp hinc).2.2 e h x mem_cons_self)
    · rw [mem_singleton.mp h]

theorem smallest_le_largest (t : Table) : t.smallestUserKey ≤ t.largestUserKey :=
  le_largest (head_mem t.ne)

theorem exists_smallest (t : Table) : ∃ e ∈ t.entries, e.user = t.smallestUserKey :=
  ⟨_, head_mem t.ne, rfl⟩

theorem exists_largest (t : Table) : ∃ e ∈ t.entries, e.user = t.largestUserKey :=
  ⟨_, getLast_mem t.ne, rfl⟩

end Table

/-- `Builder::Finish` then `Table::Open`, the self-check after every write. -/
def Builder.finish (b : Builder) : Option Table :=
  if h : b.entries ≠ [] then some ⟨b.entries, h, b.increasing⟩ else none

/-- What `Finish` records about the file; the caller sets number and level. -/
def Table.fileMeta (sz : TableSize) (t : Table) (number level : Nat) : FileMeta where
  fileNumber := number
  level := level
  smallestSeq := (t.entries.map Entry.seq).foldl min (t.entries.head t.ne).seq
  largestSeq := (t.entries.map Entry.seq).foldl max (t.entries.head t.ne).seq
  entryCount := t.entries.length
  fileSize := sz.fileSize t.entries
  smallestKey := t.smallestUserKey
  largestKey := t.largestUserKey

/-- `TableRef`: the opened table and its MANIFEST metadata. -/
structure TableRef where
  table : Table
  fileMeta : FileMeta

namespace TableRef

abbrev entries (r : TableRef) : List Entry := r.table.entries
abbrev number (r : TableRef) : Nat := r.fileMeta.fileNumber
abbrev smallest (r : TableRef) : Bytes := r.table.smallestUserKey
abbrev largest (r : TableRef) : Bytes := r.table.largestUserKey

end TableRef

end BedrockKV
