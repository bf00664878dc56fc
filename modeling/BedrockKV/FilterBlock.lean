/-
# `BedrockKV.FilterBlock` — no filter hides a key of its block

The filter block of a table's file is written by number: the `i`-th filter is
that of the `i`-th data block, and an array at the end says where each begins.

    [filter 0] … [filter N] [offset 0] … [offset N] [where the offsets begin]

A filter has no length of its own and no count of bits.  The reader takes the
one from the next offset and the other from the length, and the number of
probes from the filter's last byte.

The data blocks are those that a run of `Add` calls seals, in the order in
which it does (`dataBlocks`); entries that `Add` refuses are in none of them.
However long they are, the builder then has written these blocks with their
filters (`Fills.addEach`), and the reader finds the filter of each
(`keyMayMatchInBlock_eq`), in which no key of the block is denied
(`Bloom.keyMayMatch_buildFilter`).
-/
import BedrockKV.SstFlip

namespace BedrockKV.Sst

open List Piece BedrockKV.Sst.Table

/-! ## What a run of `Add` writes -/

section Run

variable (wild : Int)

/-- One `Add` after another; one that is refused leaves the builder as it was. -/
def Builder.addEach : Builder → List Entry → Builder
  | b, [] => b
  | b, e :: es =>
    match b.add wild e with
    | .error _ => addEach b es
    | .ok b' => addEach b' es

/-- The data blocks of the file that `Finish` makes, once these entries are given to a builder
with the entries `cur` in its open block.  That block is empty after an `Add` that sealed it. -/
def dataBlocks : Builder → List Entry → List Entry → List Piece
  | b, cur, [] => if b.dataBlock.empty then [] else [⟨cur, b.dataBlock.finish⟩]
  | b, cur, e :: es =>
    match b.add wild e with
    | .error _ => dataBlocks b cur es
    | .ok b' =>
      if b'.dataBlock.empty then
        ⟨cur ++ [e], (b.append e).dataBlock.finish⟩ :: dataBlocks b' [] es
      else dataBlocks b' (cur ++ [e]) es

variable {wild} {b : Builder} {pieces : List Piece} {cur : List Entry}

theorem Builder.Fills.add {b' : Builder} {e : Entry} (h : b.Fills wild pieces cur)
    (hadd : b.add wild e = .ok b') :
    (b'.dataBlock.empty = true ∧
      b'.Fills wild (pieces ++ [⟨cur ++ [e], (b.append e).dataBlock.finish⟩]) []) ∨
    (b'.dataBlock.empty ≠ true ∧ b'.Fills wild pieces (cur ++ [e])) := by
  have happend := h.append e
  have hne : cur ++ [e] ≠ [] := by simp
  unfold Builder.add at hadd
  dsimp only at hadd
  split_ifs at hadd with hless hfull
  · obtain rfl := Except.ok.inj hadd
    have hflush := happend.flushDataBlock hne
    exact .inl ⟨hflush.empty_iff.mpr rfl, hflush⟩
  · obtain rfl := Except.ok.inj hadd
    exact .inr ⟨mt happend.empty_iff.mp hne, happend⟩

/-- **Whatever a builder is given**, it has written the data blocks with their filters once the
last block is sealed. -/
theorem Builder.Fills.addEach {es : List Entry} :
    ∀ {b : Builder} {pieces : List Piece} {cur : List Entry}, b.Fills wild pieces cur →
      ((b.addEach wild es).flushDataBlock wild).Fills wild
        (pieces ++ dataBlocks wild b cur es) [] := by
  induction es with
  | nil =>
    intro b pieces cur h
    rw [Builder.addEach, dataBlocks]
    by_cases hcur : cur = []
    · subst hcur
      rw [if_pos (h.empty_iff.mpr rfl), append_nil, h.flush_nil]
      exact h
    · rw [if_neg (mt h.empty_iff.mp hcur)]
      exact h.flushDataBlock hcur
  | cons e es ih =>
    intro b pieces cur h
    rw [Builder.addEach, dataBlocks]
    cases hadd : b.add wild e with
    | error status => exact ih h
    | ok b' =>
      dsimp only
      rcases h.add hadd with ⟨hempty, h'⟩ | ⟨hempty, h'⟩
      · rw [if_pos hempty, append_cons]
        exact ih h'
      · rw [if_neg hempty]
        exact ih h'

theorem addEach_eq {es : List Entry} :
    ∀ {b b' : Builder}, b.addAll wild es = .ok b' → b.addEach wild es = b' := by
  induction es with
  | nil => exact fun h => Except.ok.inj h
  | cons e es ih =>
    intro b b' h
    rw [Builder.addAll] at h
    rw [Builder.addEach]
    cases hadd : b.add wild e with
    | error status =>
      rw [hadd] at h
      cases h
    | ok b₁ =>
      rw [hadd] at h
      exact ih h

theorem options_add {b' : Builder} {e : Entry} (hadd : b.add wild e = .ok b') :
    b'.options = b.options := by
  have hopt := (append_frame b e).1
  unfold Builder.add at hadd
  dsimp only at hadd
  split_ifs at hadd
  · rw [← Except.ok.inj hadd, options_flushDataBlock, hopt]
  · rw [← Except.ok.inj hadd, hopt]

theorem options_addEach (es : List Entry) :
    ∀ b : Builder, (b.addEach wild es).options = b.options := by
  induction es with
  | nil => exact fun _ => rfl
  | cons e es ih =>
    intro b
    rw [Builder.addEach]
    cases hadd : b.add wild e with
    | error status => exact ih b
    | ok b' => exact (ih b').trans (options_add hadd)

end Run

/-! ## What the reader finds -/

theorem filterBlock_finish {wild : Int} {b : Builder} {m : FileMeta} {t : Sst.Table}
    (hopened : Opened (b.finish wild m).1 t) (hlen : (b.finish wild m).1.length < 2 ^ 64)
    (hfilter : (b.flushDataBlock wild).filterBlock.length < 2 ^ 32) :
    t.filterBlock = (b.flushDataBlock wild).filterBlock := by
  have hslice := hopened.filterBlock
  unfold Builder.finish at hlen hslice
  dsimp only at hlen hslice
  generalize b.flushDataBlock wild = b₁ at hfilter hlen hslice ⊢
  have hfile : b₁.file.length < 2 ^ 64 := by
    simp only [length_append] at hlen
    omega
  rw [filterHandle_append (length_footer ..) (isFooter_mod ..), Nat.mod_eq_of_lt hfile,
    Nat.mod_eq_of_lt hfilter] at hslice
  rw [hslice, slice, append_assoc, append_assoc, drop_left, take_left]

/-- **No filter hides a key of its block**: for any entries and options, and whatever number the
platform makes of the probes, the finished file begins with its data blocks, the table that is
opened from it asks for block `i` the filter that was built from the keys of that block, and so
says of each of them that it may be there. -/
theorem filters_admit (wild : Int) (options : TableOptions) (es : List Entry) (m : FileMeta)
    (fileNumber : Nat) (path : Bytes) {t : Sst.Table}
    (hsize : (((Builder.new options).addEach wild es).flushDataBlock wild).filterBlock.length <
      2 ^ 32)
    (hfile : (((Builder.new options).addEach wild es).finish wild m).1.length < 2 ^ 64)
    (hopen : openFile fileNumber path
      (((Builder.new options).addEach wild es).finish wild m).1 = .ok t) :
    bytes (dataBlocks wild (Builder.new options) [] es) <+: t.fileData ∧
      ∀ i p, (dataBlocks wild (Builder.new options) [] es)[i]? = some p →
        Sealed (pairs p.entries) p.block ∧
        (∀ userKey, t.keyMayMatchInBlock i userKey =
          Bloom.keyMayMatch (filterOf wild options.bloomBitsPerKey p) userKey) ∧
        ∀ e ∈ p.entries, t.keyMayMatchInBlock i e.user = true := by
  have hopened := opened_openFile hopen
  have hfills : (((Builder.new options).addEach wild es).flushDataBlock wild).Fills wild
      (dataBlocks wild (Builder.new options) [] es) [] := (fills_new options).addEach
  have hblock := filterBlock_finish hopened hfile hsize
  have hoptions : (((Builder.new options).addEach wild es).flushDataBlock wild).options =
      options := by
    rw [options_flushDataBlock, options_addEach]
    rfl
  refine ⟨?_, fun i p hp => ?_⟩
  · rw [hopened.fileData, ← hfills.file]
    unfold Builder.finish
    simp only [List.append_assoc]
    exact List.prefix_append _ _
  · have hmatch := hfills.keyMayMatch hblock hsize hp
    rw [hoptions] at hmatch
    refine ⟨hfills.sealed p (List.mem_of_getElem? hp), hmatch, fun e he => ?_⟩
    rw [hmatch]
    exact Bloom.keyMayMatch_buildFilter (List.mem_map_of_mem he)

theorem filters_admit_sampleEntries :
    ∃ b t, (Builder.new sampleOptions).addEach 0 sampleEntries = b ∧
      (b.flushDataBlock 0).filterBlock.length < 2 ^ 32 ∧
      openFile 7 [] (b.finish 0 ⟨0, 0, 0, 0, 0, 0, [], []⟩).1 = .ok t ∧
      t.keyMayMatchInBlock 0 (ascii "k") = true := by
  obtain ⟨b, hadd, hfile⟩ := table_shows ⟨sampleEntries, by decide, increasing_sampleEntries⟩
    small_sampleEntries fits_sampleEntries
  obtain ⟨-, t, hopen, -⟩ := hfile ⟨0, 0, 0, 0, 0, 0, [], []⟩ 7 []
  have hb := addEach_eq hadd
  have hsize : (b.flushDataBlock 0).filterBlock.length < 2 ^ 32 := by
    rw [← hb]
    decide +kernel
  have hlen : (b.finish 0 ⟨0, 0, 0, 0, 0, 0, [], []⟩).1.length < 2 ^ 64 := by
    rw [finish_sampleEntries hadd, length_sampleFile]
    decide
  have hblock :
    ((dataBlocks 0 (Builder.new sampleOptions) [] sampleEntries)[0]?).map Piece.entries =
      some sampleEntries := by decide +kernel
  obtain ⟨p, hp, hentries⟩ := Option.map_eq_some_iff.mp hblock
  refine ⟨b, t, hb, hsize, hopen, ?_⟩
  rw [← hb] at hsize hlen hopen
  obtain ⟨-, -, hkeys⟩ := ( filters_admit 0 _ _ _ 7 [] hsize hlen hopen).2 0 p hp
  exact hkeys ⟨ascii "k", 2, .value, ascii "w"⟩ (by rw [hentries]; exact List.mem_cons_self)

/-- With blocks of one entry, and an entry that is refused: two blocks. -/
example : (dataBlocks 0 (Builder.new ⟨1, 16, 10⟩) []
    [⟨ascii "k", 1, .value, []⟩, ⟨ascii "k", 2, .value, []⟩, ⟨ascii "l", 3, .deletion, []⟩]).map
      Piece.entries = [[⟨ascii "k", 1, .value, []⟩], [⟨ascii "l", 3, .deletion, []⟩]] := by
  decide +kernel

end BedrockKV.Sst
