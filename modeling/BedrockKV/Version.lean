/-
# `BedrockKV.Version` — the levels, and the read traversal over them

A `Version` is the L0 files, newest first, and the key-sorted files of
`levels[0] = L1 … levels[5] = L6`.  `LookupIn` asks the memtable, the
immutable memtable, every L0 file and at most one file of each level, and
stops at the first that has a visible version.

What makes that right is `Version.Ok`: the sources, listed in the order they
are asked, are newest first key by key, and the files of one level do not
overlap.  Then the first source with an answer has the answer of all of them
(`firstAnswer_answers`, and `Version.answers` for the sources of a version).
-/
import BedrockKV.Sources

namespace BedrockKV

open List MultiVersion

abbrev kMaxLevels : Nat := 7

/-- An index into `levels`: `i` stands for level `i + 1`. -/
abbrev LevelIndex := Fin (kMaxLevels - 1)

def level1 : LevelIndex := ⟨0, by decide⟩

def levelIndices : List LevelIndex := List.finRange (kMaxLevels - 1)

structure Version where
  l0 : List TableRef
  levels : LevelIndex → List TableRef

namespace Version

def empty : Version := ⟨[], fun _ => []⟩

/-- Every file, level by level. -/
def tables (v : Version) : List TableRef := v.l0 ++ levelIndices.flatMap v.levels

def numbers (v : Version) : List Nat := v.tables.map TableRef.number

end Version

/-! ## The read traversal -/

/-- The first answer that is not `kMissing`. -/
def firstAnswer : List Lookup → Lookup
  | [] => .missing
  | .missing :: rest => firstAnswer rest
  | a :: _ => a

/-- `--std::upper_bound(…)` and the range check: the last file that starts at
or left of `key`, unless `key` falls into the gap after it. -/
def rangeCandidate (smallest largest : TableRef → Bytes) (level : List TableRef) (key : Bytes) :
    Option TableRef :=
  match (level.takeWhile fun r => decide (¬ key < smallest r)).getLast? with
  | none => none
  | some r => if largest r < key then none else some r

def levelCandidate : List TableRef → Bytes → Option TableRef :=
  rangeCandidate TableRef.smallest TableRef.largest

def levelGet (level : List TableRef) (key : Bytes) (S : ReadSeq) : Lookup :=
  match levelCandidate level key with
  | none => .missing
  | some r => r.table.get key S

/-- `DB::LookupIn`. -/
def lookupIn (mem : MemTable) (imm : Option MemTable) (v : Version) (key : Bytes)
    (maxSeq : ReadSeq) : Lookup :=
  firstAnswer (mem.get key maxSeq :: (imm.toList.map fun m => m.get key maxSeq) ++
    (v.l0.map fun r => r.table.get key maxSeq) ++
    levelIndices.map fun i => levelGet (v.levels i) key maxSeq)

/-! ## When it is right -/

def levelEntries (level : List TableRef) : List Entry := level.flatMap TableRef.entries

theorem mem_levelEntries {level : List TableRef} {e : Entry} :
    e ∈ levelEntries level ↔ ∃ r ∈ level, e ∈ r.entries := mem_flatMap

/-- Key-sorted and disjoint, with no user key in two files. -/
abbrev LevelOk (level : List TableRef) : Prop :=
  level.Pairwise fun a b => a.largest < b.smallest

namespace Version

/-- The sources of a version in the order `LookupIn` asks them. -/
def sources (v : Version) : List (List Entry) :=
  v.l0.map TableRef.entries ++ levelIndices.map fun i => levelEntries (v.levels i)

/-- Every source is newer, key by key, than the sources asked after it, and
the files of a level do not overlap. -/
structure Ok (v : Version) : Prop where
  l0_ordered : v.l0.Pairwise fun a b => entryView.Newer a.entries b.entries
  l0_newer : ∀ r ∈ v.l0, ∀ i, ∀ t ∈ v.levels i, entryView.Newer r.entries t.entries
  level_newer : ∀ i j, i < j → ∀ r ∈ v.levels i, ∀ t ∈ v.levels j,
    entryView.Newer r.entries t.entries
  level_ok : ∀ i, LevelOk (v.levels i)

theorem Ok.ordered {v : Version} (h : v.Ok) : v.sources.Pairwise entryView.Newer := by
  refine pairwise_append.mpr ⟨pairwise_map.mpr h.l0_ordered, ?_, ?_⟩
  · refine pairwise_map.mpr ((pairwise_lt_finRange _).imp ?_)
    intro i j hij x hx y hy
    obtain ⟨r, hr, hxr⟩ := mem_levelEntries.mp hx
    obtain ⟨t, ht, hyt⟩ := mem_levelEntries.mp hy
    exact h.level_newer i j hij r hr t ht x hxr y hyt
  · intro a ha b hb x hx y hy
    obtain ⟨r, hr, rfl⟩ := mem_map.mp ha
    obtain ⟨i, -, rfl⟩ := mem_map.mp hb
    obtain ⟨t, ht, hyt⟩ := mem_levelEntries.mp hy
    exact h.l0_newer r hr i t ht x hx y hyt

theorem mem_sources_flatten {v : Version} {e : Entry} :
    e ∈ v.sources.flatten ↔ ∃ r ∈ v.tables, e ∈ r.entries := by
  simp only [sources, tables, flatten_append, mem_append, mem_flatten,
    mem_map, mem_flatMap, or_and_right, exists_or]
  refine or_congr ?_ ?_
  · constructor
    · rintro ⟨_, ⟨r, hr, rfl⟩, he⟩
      exact ⟨r, hr, he⟩
    · rintro ⟨r, hr, he⟩
      exact ⟨_, ⟨r, hr, rfl⟩, he⟩
  · constructor
    · rintro ⟨_, ⟨i, hi, rfl⟩, he⟩
      obtain ⟨r, hr, he⟩ := mem_levelEntries.mp he
      exact ⟨r, ⟨i, hi, hr⟩, he⟩
    · rintro ⟨r, ⟨i, hi, hr⟩, he⟩
      exact ⟨_, ⟨i, hi, rfl⟩, mem_levelEntries.mpr ⟨r, hr, he⟩⟩

end Version

/-- **First source wins**: over sources listed newest first, the first answer
is the answer of all of them together. -/
theorem firstAnswer_answers {key : Bytes} {S : ReadSeq} {ss : List (List Entry)}
    {as : List Lookup} (h : List.Forall₂ (fun es a => Answers es key S a) ss as)
    (hord : ss.Pairwise entryView.Newer) : Answers ss.flatten key S (firstAnswer as) := by
  induction h with
  | nil => exact nofun
  | @cons es a ss as ha _ ih =>
    obtain ⟨hhead, htail⟩ := pairwise_cons.mp hord
    have hnewer : entryView.Newer es ss.flatten := by
      intro x hx y hy hk
      obtain ⟨t, ht, hyt⟩ := mem_flatten.mp hy
      exact hhead t ht x hx y hyt hk
    cases a with
    | found v | deleted =>
      obtain ⟨e, he, hrest⟩ := ha
      exact ⟨e, he.append_newer hnewer, hrest⟩
    | missing =>
      refine (ih htail).congr ?_
      intro x hv
      rw [flatten_cons, mem_append]
      exact ⟨.inr, fun hx => hx.resolve_left fun hxe => ha x hxe hv⟩

theorem levelCandidate_of_mem {level : List TableRef} {r : TableRef} {key : Bytes}
    (hok : LevelOk level) (hr : r ∈ level) (hlo : r.smallest ≤ key) (hhi : key ≤ r.largest) :
    levelCandidate level key = some r := by
  obtain ⟨left, right, rfl⟩ := mem_iff_append.mp hr
  obtain ⟨-, hright, hleft⟩ := pairwise_append.mp hok
  have htake : (left ++ r :: right).takeWhile (fun x => decide (¬ key < x.smallest)) =
      left ++ [r] := by
    rw [takeWhile_append_of_pos, takeWhile_cons_of_pos]
    · cases right with
      | nil => rfl
      | cons y ys =>
        have hy : key < y.smallest :=
          lt_of_le_of_lt hhi ((pairwise_cons.mp hright).1 y mem_cons_self)
        rw [takeWhile_cons_of_neg (by simpa using hy)]
    · simpa using hlo
    · intro x hx
      have hlt : x.largest < r.smallest := hleft x hx r mem_cons_self
      have hle : x.smallest ≤ key := (x.table.smallest_le_largest.trans (le_of_lt hlt)).trans hlo
      simpa using hle
  simp only [levelCandidate, rangeCandidate, htake, getLast?_append, getLast?_singleton,
    Option.some_or, if_neg (not_lt.mpr hhi)]

theorem rangeCandidate_mem {smallest largest : TableRef → Bytes} {level : List TableRef}
    {r : TableRef} {key : Bytes} (h : rangeCandidate smallest largest level key = some r) :
    r ∈ level := by
  unfold rangeCandidate at h
  split at h
  · cases h
  · next x hx =>
    split at h
    · cases h
    · obtain rfl : x = r := Option.some.inj h
      exact takeWhile_subset _ (mem_of_getLast? hx)

theorem rangeCandidate_congr {smallest largest : TableRef → Bytes} {level : List TableRef}
    (h : ∀ r ∈ level, smallest r = r.smallest ∧ largest r = r.largest) (key : Bytes) :
    rangeCandidate smallest largest level key = levelCandidate level key := by
  have htake : level.takeWhile (fun r => decide (¬ key < smallest r)) =
      level.takeWhile fun r => decide (¬ key < r.smallest) := by
    induction level with
    | nil => rfl
    | cons r rs ih =>
      obtain ⟨hr, hrs⟩ := forall_mem_cons.mp h
      rw [takeWhile_cons, takeWhile_cons, hr.1, ih hrs]
  rw [levelCandidate, rangeCandidate, rangeCandidate, htake]
  cases hlast : (level.takeWhile fun r => decide (¬ key < r.smallest)).getLast? with
  | none => rfl
  | some r =>
    dsimp only
    rw [(h r (takeWhile_subset _ (mem_of_getLast? hlast))).2]

/-- One file per level is enough. -/
theorem levelGet_answers {level : List TableRef} (hok : LevelOk level) (key : Bytes)
    (S : ReadSeq) : Answers (levelEntries level) key S (levelGet level key S) := by
  -- a file that holds a version of `key` is the candidate
  have hcand : ∀ r ∈ level, ∀ x ∈ r.entries, x.user = key → levelCandidate level key = some r := by
    intro r hr x hx hk
    exact levelCandidate_of_mem hok hr (hk ▸ Table.smallest_le hx) (hk ▸ Table.le_largest hx)
  unfold levelGet
  split
  · next hnone =>
    intro x hx hv
    obtain ⟨r, hr, hxr⟩ := mem_levelEntries.mp hx
    rw [hcand r hr x hxr hv.1] at hnone
    cases hnone
  · next r hsome =>
    refine (r.table.get_answers key S).congr ?_
    intro x hv
    rw [mem_levelEntries]
    refine ⟨fun hx => ⟨r, rangeCandidate_mem hsome, hx⟩, ?_⟩
    rintro ⟨t, ht, hxt⟩
    rw [hcand t ht x hxt hv.1] at hsome
    exact Option.some.inj hsome ▸ hxt

theorem Version.answers {v : Version} (hok : v.Ok) (key : Bytes) (S : ReadSeq) :
    List.Forall₂ (fun es a => Answers es key S a) v.sources
      ((v.l0.map fun r => r.table.get key S) ++
        levelIndices.map fun i => levelGet (v.levels i) key S) := by
  refine rel_append ?_ ?_
  · rw [forall₂_map_left_iff, forall₂_map_right_iff, forall₂_same]
    exact fun r _ => r.table.get_answers key S
  · rw [forall₂_map_left_iff, forall₂_map_right_iff, forall₂_same]
    exact fun i _ => levelGet_answers (hok.level_ok i) key S

end BedrockKV
