/-
# `BedrockKV.SstFlip` — one flipped bit in a table's file

The comment in `Builder::Finish` says that one bit flipped anywhere in the file
fails `Open`.  The CRC is over everything before the footer, and by
`BedrockKV.Crc` no single flip there leaves it as it was; nor does one in the
stored CRC or in the magic.  The other fields of the footer are not under the
CRC:

    [filter handle 12] [index handle 12] [num_entries 8] [crc 4] [magic 8]

Nothing looks at the number of entries, the filter handle has only to stay in
the file, and the index handle has to lead to bytes that parse as an index.
`openFile_isOk` says what `Open` asks of a file, and `flipped_refused_iff` which
flips it refuses.
-/
import BedrockKV.SstTable

namespace BedrockKV.Sst

open List BedrockKV.Sst.Table

/-! ## Flipping a bit -/

def flipBit (F : Bytes) (pos : Nat) (bit : Fin 8) : Bytes :=
  F.modify pos fun b => b ^^^ ((1 : UInt8) <<< UInt8.ofNat bit)

section Flip

variable {F : Bytes} {pos : Nat} {bit : Fin 8}

@[simp] theorem length_flipBit : (flipBit F pos bit).length = F.length := length_modify ..

theorem xor_mask_ne (b : UInt8) (bit : Fin 8) : b ^^^ ((1 : UInt8) <<< UInt8.ofNat bit) ≠ b := by
  intro h
  have hmask : ∀ bit : Fin 8, (1 : UInt8) <<< UInt8.ofNat bit ≠ 0 := by decide
  exact hmask bit ((UInt8.xor_right_inj b).mp (h.trans UInt8.xor_zero.symm))

theorem slice_flipBit {k n : Nat} (h : pos < k ∨ k + n ≤ pos) :
    slice (flipBit F pos bit) k n = slice F k n := by
  unfold slice flipBit
  refine ext_getElem? fun i => ?_
  rw [getElem?_take, getElem?_take, getElem?_drop, getElem?_drop, getElem?_modify]
  by_cases hi : i < n
  · have hne : ¬ pos = k + i := by omega
    simp only [hne, if_false, Option.map_eq_map, Option.map_id']
  · rw [if_neg hi, if_neg hi]

theorem slice_flipBit_ne {k n : Nat} (hpos : pos < F.length) (hk : k ≤ pos) (hn : pos < k + n) :
    slice (flipBit F pos bit) k n ≠ slice F k n := by
  intro h
  have hi := congrArg (fun l : Bytes => l[pos - k]?) h
  simp only [slice, flipBit, getElem?_take, getElem?_drop, getElem?_modify] at hi
  rw [if_pos (by omega), if_pos (by omega), Nat.add_sub_cancel' hk, getElem?_eq_getElem hpos] at hi
  simp only [if_true, Option.map_eq_map, Option.map_some] at hi
  exact xor_mask_ne F[pos] bit (Option.some.inj hi)

theorem getFixed_eq_slice (n k : Nat) (F : Bytes) :
    getFixed n (F.drop k) = getFixed n (slice F k n) := by
  rw [slice, getFixed_take (Nat.le_refl n)]

theorem getFixed_flipBit {k n : Nat} (h : pos < k ∨ k + n ≤ pos) :
    getFixed n ((flipBit F pos bit).drop k) = getFixed n (F.drop k) := by
  rw [getFixed_eq_slice, slice_flipBit h, ← getFixed_eq_slice]

theorem getFixed_flipBit_ne {k n : Nat} (hlen : k + n ≤ F.length) (hk : k ≤ pos)
    (hn : pos < k + n) : getFixed n ((flipBit F pos bit).drop k) ≠ getFixed n (F.drop k) := by
  rw [getFixed_eq_slice, getFixed_eq_slice n k F]
  intro h
  refine (slice_flipBit_ne (by omega) hk hn : slice (flipBit F pos bit) k n ≠ _)
    (getFixed_injective ?_ ?_ h)
  · rw [slice, length_take, length_drop, length_flipBit]
    omega
  · rw [slice, length_take, length_drop]
    omega

theorem crc32_flipBit_ne (hpos : pos < F.length) :
    crc32 (flipBit F pos bit) 0 ≠ crc32 F 0 := by
  have hF : F = F.take pos ++ F[pos] :: F.drop (pos + 1) := by
    rw [cons_getElem_drop_succ, take_append_drop]
  rw [flipBit, modify_eq_take_cons_drop hpos]
  nth_rewrite 4 [hF]
  exact crc32_ne (xor_mask_ne _ bit) _ _ 0

end Flip

/-! ## What `Open` asks of a file -/

def footerStart (F : Bytes) : Nat := F.length - kFooterSize

/-- The offset and size in the footer, of the filter block and of the index. -/
def filterHandle (F : Bytes) : Nat × Nat :=
  (getFixed64 (F.drop (footerStart F)), getFixed32 (F.drop (footerStart F + 8)))

def indexHandle (F : Bytes) : Nat × Nat :=
  (getFixed64 (F.drop (footerStart F + 12)), getFixed32 (F.drop (footerStart F + 20)))

/-- A handle stays below the footer, its end as a `uint64_t`. -/
def InRange (F : Bytes) (h : Nat × Nat) : Prop :=
  h.1 ≤ footerStart F ∧ (h.1 + h.2) % 2 ^ 64 ≤ footerStart F

/-- There is a first entry at this place. -/
def HasEntry (F : Bytes) (e : IndexEntry) : Prop :=
  (Block.new (slice F e.offset e.size)).corrupted = false ∧
    (Block.new (slice F e.offset e.size)).seekToFirst.valid = true

/-- The index handle is in range, and leads to a block that is read to its end as a list of
handles in range, the first of them that of a block with an entry. -/
def Indexed (F : Bytes) : Prop :=
  InRange F (indexHandle F) ∧
    (Block.new (slice F (indexHandle F).1 (indexHandle F).2)).corrupted = false ∧
    ∃ first rest b,
      readIndex [] (footerStart F) ((indexHandle F).2 + 1)
          (Block.new (slice F (indexHandle F).1 (indexHandle F).2)).seekToFirst [] =
        .ok (first :: rest, b) ∧
      b.corrupted = false ∧ HasEntry F first

theorem readIndex_path (path path' : Bytes) (start : Nat) (r : List IndexEntry × Block) :
    ∀ (fuel : Nat) (b : Block) (index : List IndexEntry),
      readIndex path start fuel b index = .ok r → readIndex path' start fuel b index = .ok r := by
  intro fuel
  induction fuel with
  | zero => exact fun b index h => h
  | succ fuel ih =>
    intro b index h
    unfold readIndex at h ⊢
    dsimp only at h ⊢
    by_cases hvalid : b.valid = true
    · rw [if_pos hvalid] at h ⊢
      by_cases hsize : b.curValue.length ≠ 12
      · rw [if_pos hsize] at h
        cases h
      · rw [if_neg hsize] at h ⊢
        split_ifs at h ⊢ with hrange
        exact ih _ _ h
    · rw [if_neg hvalid] at h ⊢
      exact h

theorem ite_error_isOk {ε α : Type} {c : Prop} [Decidable c] {e : ε} {x : Except ε α} :
    (∃ t, (if c then .error e else x) = .ok t) ↔ ¬ c ∧ ∃ t, x = .ok t := by
  by_cases hc : c
  · simp [hc]
  · simp [hc]

theorem openBlocks_isOk {fileNumber numEntries : Nat} {path data filterBlock : Bytes}
    {index : List IndexEntry} :
    (∃ t, openBlocks fileNumber path data filterBlock numEntries index = .ok t) ↔
      ∃ first rest, index = first :: rest ∧ HasEntry data first := by
  cases index with
  | nil =>
    constructor
    · rintro ⟨t, ht⟩
      cases ht
    · rintro ⟨first, rest, h, -⟩
      cases h
  | cons first rest =>
    unfold openBlocks
    dsimp only
    rw [ite_error_isOk, ite_error_isOk, Bool.not_eq_true, Bool.not_eq_true, Bool.not_eq_false']
    constructor
    · rintro ⟨hc, hv, -⟩
      exact ⟨first, rest, rfl, hc, hv⟩
    · rintro ⟨first, rest, h, hc, hv⟩
      cases h
      exact ⟨hc, hv, _, rfl⟩

/-- **`Open` accepts** a file with the magic, handles in range, the CRC of what is before the
footer, and an index. -/
theorem openFile_isOk {fileNumber : Nat} {path F : Bytes} (hlen : kFooterSize ≤ F.length) :
    (∃ t, openFile fileNumber path F = .ok t) ↔
      slice F (footerStart F + 36) kMagic.length = kMagic ∧ InRange F (filterHandle F) ∧
        (crc32 (slice F 0 (footerStart F)) 0).toNat = getFixed32 (F.drop (footerStart F + 32)) ∧
        Indexed F := by
  unfold openFile
  dsimp only
  rw [ite_error_isOk, ite_error_isOk, ite_error_isOk, ite_error_isOk, ite_error_isOk]
  generalize hs : F.length - kFooterSize = start
  have hstart : footerStart F = start := hs
  have hfilter : filterHandle F = (getFixed64 (F.drop start), getFixed32 (F.drop (start + 8))) := by
    rw [← hstart, filterHandle]
  have hindex : indexHandle F =
      (getFixed64 (F.drop (start + 12)), getFixed32 (F.drop (start + 20))) := by
    rw [← hstart, indexHandle]
  rw [Indexed, InRange, InRange, hstart, hfilter, hindex]
  simp only [slice, drop_drop, drop_zero, not_lt, hlen, true_and, ne_eq, not_not, not_or,
    Bool.not_eq_true]
  generalize getFixed64 (F.drop (start + 12)) = io
  generalize getFixed32 (F.drop (start + 20)) = is
  constructor
  · rintro ⟨hmagic, ⟨hfo, hfe, hio, hie⟩, hcrc, hblock, t, ht⟩
    refine ⟨hmagic, ⟨hfo, hfe⟩, hcrc, ⟨hio, hie⟩, hblock, ?_⟩
    cases hread : readIndex path start (is + 1)
        (Block.new ((F.drop io).take is)).seekToFirst [] with
    | error status =>
      rw [hread] at ht
      cases ht
    | ok r =>
      rw [hread] at ht
      obtain ⟨hc, hopen⟩ := ite_error_isOk.mp ⟨t, ht⟩
      obtain ⟨first, rest, hr, hfirst⟩ := openBlocks_isOk.mp hopen
      refine ⟨first, rest, r.2, ?_, (Bool.not_eq_true _).mp hc, hfirst⟩
      rw [readIndex_path path [] start r _ _ _ hread, ← hr]
  · rintro ⟨hmagic, ⟨hfo, hfe⟩, hcrc, ⟨hio, hie⟩, hblock, first, rest, b, hread, hc, hfirst⟩
    refine ⟨hmagic, ⟨hfo, hfe, hio, hie⟩, hcrc, hblock, ?_⟩
    rw [readIndex_path [] path start _ _ _ _ hread]
    exact ite_error_isOk.mpr ⟨(Bool.not_eq_true _).mpr hc,
      openBlocks_isOk.mpr ⟨first, rest, rfl, hfirst⟩⟩

theorem readIndex_range {path : Bytes} {start : Nat} {r : List IndexEntry × Block} :
    ∀ (fuel : Nat) (b : Block) (index : List IndexEntry),
      readIndex path start fuel b index = .ok r → ∀ e ∈ r.1,
        e ∈ index ∨ e.offset ≤ start ∧ (e.offset + e.size) % 2 ^ 64 ≤ start ∧ e.size < 2 ^ 32 := by
  intro fuel
  induction fuel with
  | zero =>
    intro b index h e he
    obtain rfl := Except.ok.inj h
    exact .inl he
  | succ fuel ih =>
    intro b index h e he
    unfold readIndex at h
    dsimp only at h
    split_ifs at h with hvalid hsize hrange
    · rcases ih _ _ h e he with hmem | hin
      · rcases mem_append.mp hmem with hmem | hmem
        · exact .inl hmem
        · rw [mem_singleton] at hmem
          subst hmem
          rw [not_or, not_lt, not_lt] at hrange
          exact .inr ⟨hrange.1, hrange.2, getFixed_lt 4 _⟩
      · exact .inr hin
    · obtain rfl := Except.ok.inj h
      exact .inl he

/-- What an opened table has of its file. -/
structure Opened (F : Bytes) (t : Sst.Table) : Prop where
  length : kFooterSize ≤ F.length
  filter : InRange F (filterHandle F)
  fileData : t.fileData = F
  filterBlock : t.filterBlock = slice F (filterHandle F).1 (filterHandle F).2
  index : ∀ e ∈ t.index, InRange F (e.offset, e.size) ∧ e.size < 2 ^ 32
  index_ne : t.index ≠ []
  numEntries : t.numEntries = getFixed64 (F.drop (footerStart F + 24))

theorem openBlocks_eq_ok {fileNumber numEntries : Nat} {path data filterBlock : Bytes}
    {index : List IndexEntry} {t : Sst.Table}
    (h : openBlocks fileNumber path data filterBlock numEntries index = .ok t) :
    t.fileData = data ∧ t.filterBlock = filterBlock ∧ t.index = index ∧ index ≠ [] ∧
      t.numEntries = numEntries := by
  cases index with
  | nil => cases h
  | cons first rest =>
    unfold openBlocks at h
    dsimp only at h
    split_ifs at h
    rw [← Except.ok.inj h]
    exact ⟨rfl, rfl, rfl, cons_ne_nil _ _, rfl⟩

theorem opened_openFile {fileNumber : Nat} {path F : Bytes} {t : Sst.Table}
    (h : openFile fileNumber path F = .ok t) : Opened F t := by
  unfold openFile at h
  dsimp only at h
  split_ifs at h with hlen hmagic hrange hcrc hblock
  cases hread : readIndex path (F.length - kFooterSize) _ _ [] with
  | error status =>
    rw [hread] at h
    cases h
  | ok r =>
    rw [hread] at h
    dsimp only at h
    split_ifs at h
    obtain ⟨hdata, hfilter, hindex, hne, hnum⟩ := openBlocks_eq_ok h
    rw [drop_drop] at hfilter hnum hrange
    simp only [not_or, not_lt] at hrange hlen
    refine ⟨hlen, ⟨hrange.1, hrange.2.1⟩, hdata, hfilter, fun e he => ?_, hindex ▸ hne, hnum⟩
    rw [hindex] at he
    rcases readIndex_range _ _ _ hread e he with hmem | ⟨ho, hend, hsize⟩
    · cases hmem
    · exact ⟨⟨ho, hend⟩, hsize⟩

/-! ## What `Finish` leaves -/

/-- A file with the magic, the filter in range and the CRC of what is before the footer. -/
structure Whole (F : Bytes) : Prop where
  length : kFooterSize ≤ F.length
  magic : slice F (footerStart F + 36) kMagic.length = kMagic
  filter : InRange F (filterHandle F)
  crc : (crc32 (slice F 0 (footerStart F)) 0).toNat = getFixed32 (F.drop (footerStart F + 32))

section Finish

variable {wild : Int} {options : TableOptions} {b : Builder} {es : List Entry}

theorem crc_new : (Builder.new options).crc = crc32 (Builder.new options).file 0 := by
  change (0 : UInt32) = crc32 [] 0
  decide

section

variable (h : b.crc = crc32 b.file 0)
include h

theorem flushDataBlock_crc :
    (b.flushDataBlock wild).crc = crc32 (b.flushDataBlock wild).file 0 := by
  unfold Builder.flushDataBlock
  split_ifs
  · exact h
  · dsimp only
    rw [crc32_append, h]

theorem append_crc (e : Entry) :
    (b.append e).crc = crc32 (b.append e).file 0 := by
  unfold Builder.append
  cases b.hasLastKey <;> exact h

theorem add_crc {b' : Builder} {e : Entry}
    (hadd : b.add wild e = .ok b') : b'.crc = crc32 b'.file 0 := by
  unfold Builder.add at hadd
  dsimp only at hadd
  split_ifs at hadd with hless hfull
  · obtain rfl := Except.ok.inj hadd
    exact flushDataBlock_crc (append_crc h e)
  · obtain rfl := Except.ok.inj hadd
    exact append_crc h e

theorem addAll_crc {b' : Builder}
    (hadd : b.addAll wild es = .ok b') : b'.crc = crc32 b'.file 0 := by
  induction es generalizing b with
  | nil =>
    obtain rfl := Except.ok.inj hadd
    exact h
  | cons e es ih =>
    rw [Builder.addAll] at hadd
    cases he : b.add wild e with
    | error status =>
      rw [he] at hadd
      cases hadd
    | ok b₁ =>
      rw [he] at hadd
      exact ih (add_crc h he) hadd

end

/-- A footer, whatever its numbers are: each field is written modulo its width. -/
theorem isFooter_mod (fo fs io is n : Nat) (crc : UInt32) :
    IsFooter (Builder.footer fo fs io is n crc) (fo % 2 ^ 64) (fs % 2 ^ 32) (io % 2 ^ 64)
      (is % 2 ^ 32) (n % 2 ^ 64) crc := by
  have h64 : ∀ v, putFixed64 (v % 2 ^ 64) = putFixed64 v := putFixed_mod 8
  have h32 : ∀ v, putFixed32 (v % 2 ^ 32) = putFixed32 v := putFixed_mod 4
  have heq : Builder.footer fo fs io is n crc = Builder.footer (fo % 2 ^ 64) (fs % 2 ^ 32)
      (io % 2 ^ 64) (is % 2 ^ 32) (n % 2 ^ 64) crc := by
    unfold Builder.footer
    rw [h64, h32, h64, h32, h64]
  rw [heq]
  exact isFooter_footer crc (Nat.mod_lt _ (by decide)) (Nat.mod_lt _ (by decide))
    (Nat.mod_lt _ (by decide)) (Nat.mod_lt _ (by decide)) (Nat.mod_lt _ (by decide))

theorem footerStart_append {body f : Bytes} (hlen : f.length = kFooterSize) :
    footerStart (body ++ f) = body.length := by
  rw [footerStart, length_append, hlen, Nat.add_sub_cancel]

theorem filterHandle_append {body f : Bytes} {fo fs io is n : Nat} {crc : UInt32}
    (hlen : f.length = kFooterSize) (h : IsFooter f fo fs io is n crc) :
    filterHandle (body ++ f) = (fo, fs) := by
  have hdrop : ∀ k, (body ++ f).drop (body.length + k) = f.drop k := drop_length_add_append
  have h₀ := hdrop 0
  rw [Nat.add_zero, drop_zero] at h₀
  rw [filterHandle, footerStart_append hlen, hdrop, h₀, h.filterOffset, h.filterSize]

theorem whole_footer {body f : Bytes} {fo fs io is n : Nat} (hlen : f.length = kFooterSize)
    (h : IsFooter f fo fs io is n (crc32 body 0)) (hfo : fo ≤ body.length)
    (hend : fo + fs ≤ body.length) : Whole (body ++ f) := by
  have hstart : footerStart (body ++ f) = body.length := footerStart_append hlen
  have hdrop : ∀ k, (body ++ f).drop (body.length + k) = f.drop k := drop_length_add_append
  have hfilter : filterHandle (body ++ f) = (fo, fs) := filterHandle_append hlen h
  refine ⟨?_, ?_, ?_, ?_⟩
  · rw [length_append]
    omega
  · rw [hstart, slice, hdrop]
    exact h.magic
  · rw [hfilter]
    refine ⟨hstart ▸ hfo, hstart ▸ ?_⟩
    exact (Nat.mod_le _ _).trans hend
  · rw [hstart, hdrop, h.crc, slice, drop_zero, take_left' rfl]

/-- **`Finish` leaves a whole file.** -/
theorem whole_finish (h : b.crc = crc32 b.file 0) (m : FileMeta) : Whole (b.finish wild m).1 := by
  have hb := @flushDataBlock_crc wild b h
  unfold Builder.finish
  dsimp only
  generalize b.flushDataBlock wild = b₁ at hb ⊢
  have hcrc : crc32 b₁.indexBlock.finish (crc32 b₁.filterBlock b₁.crc) =
      crc32 (b₁.file ++ b₁.filterBlock ++ b₁.indexBlock.finish) 0 := by
    rw [crc32_append, crc32_append, hb]
  rw [hcrc]
  have hfo := Nat.mod_le b₁.file.length (2 ^ 64)
  have hfs := Nat.mod_le b₁.filterBlock.length (2 ^ 32)
  refine whole_footer (length_footer ..) (isFooter_mod ..) ?_ ?_ <;>
    simp only [length_append] <;> omega

end Finish

/-! ## Which flips are noticed -/

inductive Field where
  | body
  | filter
  | index
  | count
  | crc
  | magic
  deriving DecidableEq, Repr

def fieldAt (F : Bytes) (pos : Nat) : Field :=
  if pos < footerStart F then .body
  else if pos < footerStart F + 12 then .filter
  else if pos < footerStart F + 24 then .index
  else if pos < footerStart F + 32 then .count
  else if pos < footerStart F + 36 then .crc
  else .magic

def Noticed (F : Bytes) (pos : Nat) (bit : Fin 8) : Prop :=
  match fieldAt F pos with
  | .body | .crc | .magic => True
  | .filter =>
    ¬ InRange (flipBit F pos bit) (filterHandle (flipBit F pos bit)) ∨
      ¬ Indexed (flipBit F pos bit)
  | .index | .count => ¬ Indexed (flipBit F pos bit)

section Noticed

variable {F : Bytes} {pos : Nat} {bit : Fin 8}

@[simp] theorem footerStart_flipBit : footerStart (flipBit F pos bit) = footerStart F := by
  rw [footerStart, length_flipBit, footerStart]

theorem filterHandle_flipBit (h : footerStart F + 12 ≤ pos) :
    filterHandle (flipBit F pos bit) = filterHandle F := by
  rw [filterHandle, filterHandle, footerStart_flipBit, getFixed64, getFixed64, getFixed32,
    getFixed32, getFixed_flipBit (by omega), getFixed_flipBit (by omega)]

theorem isError_iff {ε α : Type} {x : Except ε α} :
    (∃ e, x = .error e) ↔ ¬ ∃ t, x = .ok t := by
  cases x <;> simp

theorem Whole.length_eq (h : Whole F) : F.length = footerStart F + kFooterSize := by
  have hlen := h.length
  rw [footerStart]
  omega

theorem Whole.flip_body (h : Whole F) (hpos : pos < footerStart F) :
    (crc32 (slice (flipBit F pos bit) 0 (footerStart F)) 0).toNat ≠
      getFixed32 ((flipBit F pos bit).drop (footerStart F + 32)) := by
  have hslice : slice (flipBit F pos bit) 0 (footerStart F) =
      flipBit (slice F 0 (footerStart F)) pos bit := by
    simp only [slice, flipBit, drop_zero, take_modify]
  rw [getFixed32, getFixed_flipBit (by omega), ← getFixed32, ← h.crc, hslice]
  intro heq
  refine crc32_flipBit_ne ?_ (UInt32.toNat_inj.mp heq)
  rw [slice, drop_zero, length_take, footerStart] at *
  omega

theorem Whole.flip_crc (h : Whole F) (hle : footerStart F + 32 ≤ pos)
    (hlt : pos < footerStart F + 36) :
    (crc32 (slice (flipBit F pos bit) 0 (footerStart F)) 0).toNat ≠
      getFixed32 ((flipBit F pos bit).drop (footerStart F + 32)) := by
  have hsize := h.length_eq
  have hne : getFixed 4 ((flipBit F pos bit).drop (footerStart F + 32)) ≠
      getFixed 4 (F.drop (footerStart F + 32)) :=
    getFixed_flipBit_ne (by rw [hsize, kFooterSize]; omega) hle (by omega)
  rw [slice_flipBit (.inr (by omega)), h.crc]
  exact hne.symm

/-- **What `Open` makes of a flip.** -/
theorem Whole.refused_iff (h : Whole F) (hpos : pos < F.length) (fileNumber : Nat) (path : Bytes) :
    (∃ status, openFile fileNumber path (flipBit F pos bit) = .error status) ↔
      Noticed F pos bit := by
  have hsize := h.length_eq
  rw [kFooterSize] at hsize
  have hmagic : pos < footerStart F + 36 →
      slice (flipBit F pos bit) (footerStart F + 36) kMagic.length = kMagic := by
    intro hlt
    rw [slice_flipBit (.inl hlt), h.magic]
  have hfilter : footerStart F + 12 ≤ pos →
      InRange (flipBit F pos bit) (filterHandle (flipBit F pos bit)) := by
    intro hle
    rw [filterHandle_flipBit hle, InRange, footerStart_flipBit]
    exact h.filter
  have hcrc : footerStart F ≤ pos → pos < footerStart F + 32 →
      (crc32 (slice (flipBit F pos bit) 0 (footerStart F)) 0).toNat =
        getFixed32 ((flipBit F pos bit).drop (footerStart F + 32)) := by
    intro hle hlt
    rw [slice_flipBit (by omega), getFixed32, getFixed_flipBit (by omega), ← getFixed32, h.crc]
  have hlen : kFooterSize ≤ (flipBit F pos bit).length := by
    rw [length_flipBit]
    exact h.length
  rw [isError_iff, openFile_isOk hlen, footerStart_flipBit]
  unfold Noticed fieldAt
  split_ifs with h₁ h₂ h₃ h₄ h₅
  · -- before the footer
    exact iff_of_true (fun hok => h.flip_body h₁ hok.2.2.1) trivial
  · -- the filter handle
    simp only [hmagic (by omega), hcrc (by omega) (by omega), true_and, not_and_or]
  · -- the index handle
    simp only [hmagic (by omega), hcrc (by omega) (by omega), hfilter (by omega), true_and]
  · -- the number of entries
    simp only [hmagic (by omega), hcrc (by omega) (by omega), hfilter (by omega), true_and]
  · -- the stored CRC
    exact iff_of_true (fun hok => h.flip_crc (by omega) h₅ hok.2.2.1) trivial
  · -- the magic
    refine iff_of_true (fun hok => ?_) trivial
    have hlen : kMagic.length = 8 := by decide +kernel
    have hsame := hok.1.trans h.magic.symm
    rw [hlen] at hsame
    exact slice_flipBit_ne hpos (by omega) (by omega) hsame

end Noticed

/-! ## A flip that is not noticed -/

section Count

variable {F : Bytes} {pos : Nat} {bit : Fin 8}

theorem slice_flipBit_of_range {o n : Nat} (hF : F.length < 2 ^ 63) (hpos : footerStart F ≤ pos)
    (hrange : o ≤ footerStart F ∧ (o + n) % 2 ^ 64 ≤ footerStart F) (hn : n < 2 ^ 32) :
    slice (flipBit F pos bit) o n = slice F o n := by
  refine slice_flipBit (.inr ?_)
  have hle : footerStart F ≤ F.length := Nat.sub_le ..
  rw [Nat.mod_eq_of_lt (by omega)] at hrange
  omega

theorem Indexed.flip (h : Indexed F) (hF : F.length < 2 ^ 63) (hpos : footerStart F + 24 ≤ pos) :
    Indexed (flipBit F pos bit) := by
  obtain ⟨hrange, hblock, first, rest, b, hread, hc, hfirst⟩ := h
  have hhandle : indexHandle (flipBit F pos bit) = indexHandle F := by
    rw [indexHandle, indexHandle, footerStart_flipBit, getFixed64, getFixed64, getFixed32,
      getFixed32, getFixed_flipBit (by omega), getFixed_flipBit (by omega)]
  have hslice : slice (flipBit F pos bit) (indexHandle F).1 (indexHandle F).2 =
      slice F (indexHandle F).1 (indexHandle F).2 :=
    slice_flipBit_of_range hF (by omega) hrange (getFixed_lt 4 _)
  have hentry : slice (flipBit F pos bit) first.offset first.size =
      slice F first.offset first.size := by
    rcases readIndex_range _ _ _ hread first (mem_cons_self ..) with hmem | hin
    · cases hmem
    · exact slice_flipBit_of_range hF (by omega) ⟨hin.1, hin.2.1⟩ hin.2.2
  rw [Indexed, hhandle, hslice, InRange, footerStart_flipBit]
  refine ⟨hrange, hblock, first, rest, b, hread, hc, ?_⟩
  rw [HasEntry, hentry]
  exact hfirst

/-- **Any flip in the number of entries is accepted**, and the table has another number. -/
theorem openFile_flip_count {fileNumber : Nat} {path : Bytes} {t : Sst.Table}
    (h : openFile fileNumber path F = .ok t) (hF : F.length < 2 ^ 63)
    (hle : footerStart F + 24 ≤ pos) (hlt : pos < footerStart F + 32) :
    ∃ t', openFile fileNumber path (flipBit F pos bit) = .ok t' ∧
      t'.numEntries ≠ t.numEntries := by
  have hopened := opened_openFile h
  have hlen := hopened.length
  obtain ⟨hmagic, hfilter, hcrc, hindexed⟩ := openFile_isOk hlen |>.mp ⟨t, h⟩
  have hwhole : Whole F := ⟨hlen, hmagic, hfilter, hcrc⟩
  have hsize := hwhole.length_eq
  rw [kFooterSize] at hsize
  have hfield : fieldAt F pos = .count := by
    rw [fieldAt, if_neg (by omega), if_neg (by omega), if_neg (by omega), if_pos hlt]
  have hnot : ¬ Noticed F pos bit := by
    unfold Noticed
    rw [hfield]
    exact not_not.mpr (hindexed.flip hF hle)
  rw [← hwhole.refused_iff (by omega) fileNumber path, isError_iff, not_not] at hnot
  obtain ⟨t', ht'⟩ := hnot
  refine ⟨t', ht', ?_⟩
  rw [hopened.numEntries, (opened_openFile ht').numEntries, footerStart_flipBit]
  exact getFixed_flipBit_ne (by omega) hle (by omega)

end Count

/-! ## The file of a builder -/

section Built

variable {wild : Int} {options : TableOptions} {b : Builder} {es : List Entry} {pos : Nat}

/-- **Which flips `Open` refuses**: those before the footer, in the stored CRC and in the magic;
in the filter handle those that lead out of the file; in the index handle those that lead to no
index; and in the number of entries none, unless the file has no index to begin with. -/
theorem flipped_refused_iff (hadd : (Builder.new options).addAll wild es = .ok b) (m : FileMeta)
    (hpos : pos < (b.finish wild m).1.length) (bit : Fin 8) (fileNumber : Nat) (path : Bytes) :
    (∃ status, openFile fileNumber path (flipBit (b.finish wild m).1 pos bit) = .error status) ↔
      Noticed (b.finish wild m).1 pos bit :=
  (whole_finish (addAll_crc crc_new hadd) m).refused_iff hpos fileNumber path

end Built

/-- The file of `sampleEntries`: a data block of 50 bytes, filters of 17 and an index of 41, and
the footer from byte 108 on. -/
def sampleFile : Bytes :=
  match (Builder.new sampleOptions).addAll 0 sampleEntries with
  | .ok b => (b.finish 0 ⟨0, 0, 0, 0, 0, 0, [], []⟩).1
  | .error _ => []

theorem finish_sampleEntries {b : Builder}
    (h : (Builder.new sampleOptions).addAll 0 sampleEntries = .ok b) (m : FileMeta) :
    (b.finish 0 m).1 = sampleFile := by
  obtain rfl := Except.ok.inj h
  rfl

theorem length_sampleFile : sampleFile.length = 152 := by decide +kernel

/-- A flip in the index offset, which is 67: with 195 it points behind the footer. -/
theorem flipped_refused_sampleFile :
    ∃ b, (Builder.new sampleOptions).addAll 0 sampleEntries = .ok b ∧
      ∀ m : FileMeta, 120 < (b.finish 0 m).1.length ∧
        ∀ (fileNumber : Nat) (path : Bytes), ∃ status,
          openFile fileNumber path (flipBit (b.finish 0 m).1 120 7) = .error status := by
  obtain ⟨b, hadd, -⟩ := table_shows ⟨sampleEntries, by decide, increasing_sampleEntries⟩
    small_sampleEntries fits_sampleEntries
  refine ⟨b, hadd, fun m => ?_⟩
  have hpos : 120 < (b.finish 0 m).1.length := by
    rw [finish_sampleEntries hadd, length_sampleFile]
    decide
  refine ⟨hpos, fun fileNumber path => ?_⟩
  refine (flipped_refused_iff hadd m hpos 7 fileNumber path).mpr ?_
  have hfield : fieldAt sampleFile 120 = .index := by decide +kernel
  rw [finish_sampleEntries hadd]
  unfold Noticed
  rw [hfield]
  rintro ⟨⟨hoffset, -⟩, -⟩
  exact absurd hoffset (by decide +kernel)

/-- A flip in the number of entries, anywhere in its eight bytes: the table opens and is wrong
about the number of its entries. -/
theorem flipped_accepted :
    ∃ b, (Builder.new sampleOptions).addAll 0 sampleEntries = .ok b ∧
      ∀ (m : FileMeta) (pos : Nat) (bit : Fin 8), 132 ≤ pos → pos < 140 →
        pos < (b.finish 0 m).1.length ∧
        ∀ (fileNumber : Nat) (path : Bytes), ∃ t,
          openFile fileNumber path (flipBit (b.finish 0 m).1 pos bit) = .ok t ∧
            t.numEntries ≠ sampleEntries.length := by
  obtain ⟨b, hadd, hfile⟩ := table_shows ⟨sampleEntries, by decide, increasing_sampleEntries⟩
    small_sampleEntries fits_sampleEntries
  refine ⟨b, hadd, fun m pos bit hle hlt => ?_⟩
  have hlen : (b.finish 0 m).1.length = 152 := by
    rw [finish_sampleEntries hadd, length_sampleFile]
  have hstart : footerStart (b.finish 0 m).1 = 108 := by
    rw [footerStart, hlen, kFooterSize]
  refine ⟨by omega, fun fileNumber path => ?_⟩
  obtain ⟨-, t, hopen, hshows⟩ := hfile m fileNumber path
  obtain ⟨t', hopen', hne⟩ :=
    openFile_flip_count hopen (by omega) (show _ ≤ pos by omega) (by omega)
  exact ⟨t', hopen', hshows.numEntries ▸ hne⟩

end BedrockKV.Sst
