/-
# `BedrockKV.LongValue` — a block that is read back shorter than it was written

The size of a block has 32 bits in its handle, and the length of a value has 32
bits in the header of its entry.  A value of `2 ^ 32` bytes at the end of a
block is empty in the block that is read back, and where the restart points
stood are the first 20 bytes of the value.  They can be

    the header of one more entry, which is all shared with the key before it
    a trailer of one restart point

With the key `m` followed by the eight bytes of a tag, that entry is a version
of `m`, behind a larger key.  The file opens (`image_burst`), a merge of it
meets the two keys in this order, and the two files that it writes overlap
(`captureFloor_burst`).
-/
import BedrockKV.LsmRun

namespace BedrockKV

open List MultiVersion Sst

namespace Lsm

/-! ## The block -/

/-- Versions enough for three restart points. -/
def burst : List Entry := (List.range 48).map fun i => ⟨[97], 48 - i, .value, []⟩

def forged (value : Bytes) : Entry := ⟨[109, 1, 0, 0, 0, 0, 0, 0, 0], 49, .value, value⟩

/-- What the value begins with. -/
def forgedTail : Bytes := [9, 0, 0, 0, 0, 0, 0, 0, 0, 0, 0, 0, 0, 0, 0, 0, 1, 0, 0, 0]

def burstBuilder : Sst.Builder := burst.foldl Sst.Builder.append (.new tableOptions)

theorem addAll_burst : (Sst.Builder.new tableOptions).addAll 0 burst = .ok burstBuilder := by
  decide +kernel

/-- What is read back of the block. -/
def forgedBlock : Bytes :=
  burstBuilder.dataBlock.buffer ++ (putFixed32 0 ++ putFixed32 17 ++ putFixed32 0 ++
    keyOf (forged [])) ++ forgedTail

/-- The versions that are found in it. -/
def forgedEntries : List Entry := burst ++ [forged [], ⟨[109], 0, .value, []⟩]

theorem shown_forgedBlock :
    Sst.Table.shown ⟨0, forgedBlock, [⟨[], 0, forgedBlock.length⟩], [], [], [], 0⟩ none =
      pairs forgedEntries := by
  decide +kernel

section Block

variable {value : Bytes} (hlen : value.length = 2 ^ 32) (htail : value.take 20 = forgedTail)
include hlen htail

theorem finish_burst : ∃ rest,
    (burstBuilder.append (forged value)).dataBlock.finish = forgedBlock ++ rest ∧
      (forgedBlock ++ rest).length = forgedBlock.length + 2 ^ 32 := by
  obtain ⟨hcounter, hinterval, hrestarts⟩ : burstBuilder.dataBlock.counter = 16 ∧
      burstBuilder.dataBlock.restartInterval = 16 ∧
      burstBuilder.dataBlock.restarts.length = 3 := by
    decide +kernel
  generalize hend : (burstBuilder.dataBlock.restarts ++
    [burstBuilder.dataBlock.buffer.length % 2 ^ 32]).flatMap putFixed32 ++ putFixed32 4 = trailer
  have htrailer : trailer.length = 20 := by
    rw [← hend, length_append, length_restarts, length_append, hrestarts, length_putFixed32]
    rfl
  refine ⟨value.drop 20 ++ trailer, ?_, ?_⟩
  · rw [(append_frame _ _).2.1, BlockBuilder.add, if_neg (by omega), BlockBuilder.append,
      BlockBuilder.finish, BlockBuilder.encode, forgedBlock, ← htail, ← hend]
    dsimp only [forged]
    rw [length_append, hrestarts, hlen]
    simp only [append_assoc, drop_zero]
    rw [← append_assoc (value.take 20), take_append_drop]
    rfl
  · rw [length_append, length_append, length_drop, hlen, htrailer,
      Nat.sub_add_cancel (by decide)]

/-- **The file of such a table opens**, and so much of the block is read as the handle says. -/
theorem image_burst {T : Table} (hT : T.entries = burst ++ [forged value]) (number : Nat) :
    ∃ t x, T.image flat number = .ok t ∧ t.index = [x] ∧
      Sst.Table.slice t.fileData x.offset x.size = forgedBlock ∧ x.size = forgedBlock.length := by
  obtain ⟨rest, hblock, hsize⟩ := finish_burst hlen htail
  have hopt : (burstBuilder.append (forged value)).options = tableOptions := rfl
  have hadd : (Sst.Builder.new tableOptions).addAll 0 T.entries =
      .ok ((burstBuilder.append (forged value)).flushDataBlock 0) := by
    have haccept : ¬ (burstBuilder.hasLastKey && !internalKeyLess burstBuilder.lastInternalKey
        (keyOf (forged []))) = true := by
      decide +kernel
    have hfull : tableOptions.blockSize ≤
        (burstBuilder.append (forged value)).dataBlock.currentSizeEstimate := by
      rw [← BlockBuilder.length_finish, hblock, hsize]
      exact (show 4096 ≤ 2 ^ 32 by decide).trans (Nat.le_add_left _ _)
    rw [hT, addAll_append _ addAll_burst, Sst.Builder.addAll, Sst.Builder.add,
      if_neg (by exact haccept)]
    dsimp only
    rw [hopt, if_pos hfull]
    rfl
  have hindex : ((burstBuilder.append (forged value)).flushDataBlock 0).indexBlock.finish.length <
      2 ^ 32 := by
    have hnew : burstBuilder.indexBlock.currentSizeEstimate = 8 := by decide +kernel
    have hkey : (keyOf (forged value)).length = 17 := rfl
    have hle := burstBuilder.indexBlock.currentSizeEstimate_add (keyOf (forged value))
      (Builder.handle burstBuilder.file.length (forgedBlock ++ rest).length)
    rw [hnew, hkey, length_handle] at hle
    rw [indexBlock_flushDataBlock, hblock, BlockBuilder.length_finish]
    omega
  have hbits : ((burstBuilder.append (forged value)).flushDataBlock 0).options = tableOptions := by
    rw [options_flushDataBlock, hopt]
  have hfills := (((@fills_new 0 tableOptions).foldl burst).append (forged value)).flushDataBlock
    (append_ne_nil_of_right_ne_nil _ (cons_ne_nil _ _))
  change ((burstBuilder.append (forged value)).flushDataBlock 0).Fills 0
    [⟨burst ++ [forged value], (burstBuilder.append (forged value)).dataBlock.finish⟩] [] at hfills
  rw [hblock] at hfills
  generalize (burstBuilder.append (forged value)).flushDataBlock 0 = b at hadd hindex hbits hfills
  have hfilter : b.filterBlock.length < 2 ^ 32 := by
    have hkeys : (burst ++ [forged value]).map Entry.user =
        burst.map Entry.user ++ [(forged []).user] := map_append
    have hfilters : b.filters.length = 63 := by
      rw [hfills.filters, hbits, map_singleton, flatten_singleton, filterOf, hkeys,
        Bloom.length_buildFilter (append_ne_nil_of_right_ne_nil _ (cons_ne_nil _ _))]
      decide
    rw [Builder.filterBlock, length_append, length_append, length_restarts, hfilters,
      hfills.filterOffsets, length_map, length_range, length_putFixed32, length_singleton]
    decide
  have hfile : b.file = forgedBlock ++ rest := by
    rw [hfills.file, Piece.bytes, flatMap_singleton]
  have hshort : forgedBlock.length < 2 ^ 12 := by decide +kernel
  have himage : T.image flat number = Sst.Table.openFile number [] (b.fileWith b.filterBlock) := by
    have hflush := hfills.flush_nil
    have hfinish := finish_eq_fileWith (hflush.symm ▸ hfills) ⟨number, 0, 0, 0, 0, 0, [], []⟩
    rw [hflush] at hfinish
    unfold Table.image
    rw [show flat.wild = 0 from rfl, hadd, ← hfinish]
  have hslice : Sst.Table.slice (b.fileWith b.filterBlock) 0 forgedBlock.length = forgedBlock := by
    rw [Sst.Table.slice, Builder.fileWith, hfile, drop_zero, append_assoc]
    exact take_left
  have hwrap : (forgedBlock ++ rest).length % 2 ^ 32 = forgedBlock.length := by omega
  have hsound : (Block.new forgedBlock).corrupted = false ∧
      (Block.new forgedBlock).seekToFirst.valid = true := by
    decide +kernel
  rw [himage, hfills.openFile (cons_ne_nil _ _) hfilter hindex (by rw [hfile]; omega)]
  generalize forgedBlock = block at hslice hwrap hsound ⊢
  simp only [Piece.handles, map_cons, map_nil, IndexEntry.wrapped, hwrap, Sst.Table.openBlocks,
    hslice, hsound, Bool.not_true, Bool.false_eq_true, if_false]
  exact ⟨_, _, rfl, rfl, hslice, rfl⟩

theorem shown_burst {r : TableRef} (hr : r.entries = burst ++ [forged value]) :
    (r.opened flat).shown none = pairs forgedEntries := by
  obtain ⟨t, x, himage, hindex, hslice, hsize⟩ := image_burst hlen htail hr r.number
  rw [TableRef.opened, himage, ← shown_forgedBlock, ← hsize, ← hslice]
  exact Sst.Table.shown_single hindex

end Block

/-! ## The steps of the store -/

/-- Two entries take 58 bytes. -/
def burstOptions : Options where
  writeBufferSize := 2 ^ 20
  l0CompactionTrigger := 1
  maxSstSize := 58
  size := Sst.tableSize 0 tableOptions

/-- The store, once its 49 versions are in a memtable of their own. -/
def filled (imm : Option MemTable) (l0 : List TableRef) (flush : FlushStage)
    (compaction : Option (Compaction × MergeStage)) (nextFileNumber : Nat) : Lsm :=
  ⟨burstOptions, .empty, imm, 3, ⟨l0, fun _ => []⟩, 50, nextFileNumber, [], 0, flush, compaction,
    false⟩

def burstMerge (r : TableRef) (stage : MergeStage) (nextFileNumber : Nat) : Lsm :=
  filled none [r] .idle (some (⟨[r], [], none, level1⟩, stage)) nextFileNumber

def lowFile : Table := ⟨[⟨[97], 48, .value, []⟩, forged []], by decide, by decide +kernel⟩
def highFile : Table := ⟨[⟨[109], 0, .value, []⟩], by decide, by decide⟩

theorem merge_burst : ∃ st, st.outputs = [lowFile, highFile] ∧
    mergeLoop burstOptions kMaxSeq false .start (merge [forgedEntries]) = .ok st := by
  have hentries : (mergeLoop burstOptions kMaxSeq false .start
      (merge [forgedEntries])).toOption.map (fun st => st.outputs.map Table.entries) =
        some ([lowFile, highFile].map Table.entries) := by
    decide +kernel
  have hinj : Function.Injective Table.entries := fun ⟨_, _, _⟩ ⟨_, _, _⟩ h => by cases h; rfl
  cases hloop : mergeLoop burstOptions kMaxSeq false .start (merge [forgedEntries]) with
  | error status =>
    rw [hloop] at hentries
    cases hentries
  | ok st =>
    rw [hloop] at hentries
    exact ⟨st, map_injective_iff.mpr hinj (Option.some.inj hentries), rfl⟩

theorem fits_burst : ∀ t ∈ [lowFile, highFile], (∀ e ∈ t.entries, e.seq < 2 ^ 56) ∧
    Sst.Fits flat.wild (Sst.Builder.new tableOptions) t.entries := by
  decide +kernel

theorem sealOutput_burst {t : Table} (ht : t ∈ [lowFile, highFile]) (r : TableRef)
    (todo : List Table) (outputs : List TableRef) (n : Nat) :
    stepBytes flat (burstMerge r (.merging kMaxSeq (t :: todo) outputs) n) .sealOutput =
      some (burstMerge r (.merging kMaxSeq todo
        (outputs ++ [⟨t, t.fileMeta burstOptions.size n 1⟩])) (n + 1)) := by
  obtain ⟨hsmall, hfits⟩ := fits_burst t ht
  obtain ⟨t', himage, -⟩ := Table.image_shows hsmall hfits n
  have hok : (t.image flat n).isOk = true := by
    rw [himage]
    rfl
  exact if_pos hok

section Steps

variable {value : Bytes} (hlen : value.length = 2 ^ 32) (htail : value.take 20 = forgedTail)
include hlen htail

theorem flushBuild_burst {m : MemTable} (hm : m.entries = burst ++ [forged value]) :
    ∃ T : Table, T.entries = burst ++ [forged value] ∧
      stepBytes flat (filled (some m) [] .idle none 4) .flushBuild =
        some (filled (some m) [] (.built T) none 4) := by
  obtain ⟨b, hb, hbe⟩ := buildTable_ok m.increasing
  have hne : b.entries ≠ [] := by
    rw [hbe, hm]
    exact append_ne_nil_of_right_ne_nil _ (cons_ne_nil _ _)
  have hopens : ∀ m' ∈ (some m).toList, Mem.Short m'.entries ∧ Small m'.entries ∧
      ∀ t : Table, t.entries = m'.entries → (t.image flat 3).isOk := by
    intro m' hm'
    rw [mem_singleton.mp hm', hm]
    refine ⟨forall_mem_append.mpr ⟨by decide +kernel, by simp [forged]⟩,
      forall_mem_append.mpr ⟨by decide +kernel, by simp [forged]⟩, fun t ht => ?_⟩
    obtain ⟨t', x, himage, -⟩ := image_burst hlen htail ht 3
    rw [himage]
    rfl
  refine ⟨⟨b.entries, hne, b.increasing⟩, hbe.trans hm, ?_⟩
  refine (@flushBuildBytes_of_opens flat (filled (some m) [] .idle none 4) hopens).trans ?_
  dsimp only [flushBuild, filled]
  rw [hb]
  dsimp only
  rw [Builder.finish, dif_pos hne]

/-- **The merge goes back to a smaller key.** -/
theorem captureFloor_burst {r : TableRef} (hr : r.entries = burst ++ [forged value]) :
    stepBytes flat (burstMerge r .picked 4) .captureFloor =
      some (burstMerge r (.merging kMaxSeq [lowFile, highFile] []) 4) := by
  have hsmall : Small forgedEntries := by
    show ∀ e ∈ forgedEntries, e.seq < 2 ^ 56
    decide +kernel
  obtain ⟨hpairs, hwalk⟩ := @mergePairs_eq flat ⟨[r], [], none, level1⟩ [forgedEntries]
    (congrArg (fun x => [x]) (shown_burst hlen htail hr)) (forall_mem_singleton.mpr hsmall)
  obtain ⟨st, hout, hst⟩ := merge_burst
  have hloop : mergeLoop (burstMerge r .picked 4).opt (burstMerge r .picked 4).smallestSnapshotSeq
      (Compaction.bottom ⟨[r], [], none, level1⟩) .start (merge [forgedEntries]) = .ok st := hst
  change captureFloorBytes flat (burstMerge r .picked 4) = _
  rw [captureFloorBytes, show (burstMerge r .picked 4).compaction =
    some (⟨[r], [], none, level1⟩, .picked) from rfl]
  dsimp only
  rw [hpairs, if_pos (typed_pairs hwalk), map_entryOf hwalk, hloop]
  dsimp only
  rw [hout]
  rfl

end Steps

end Lsm

end BedrockKV
