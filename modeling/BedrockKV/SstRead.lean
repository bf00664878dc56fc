/-
# `BedrockKV.SstRead` — a finished table reads back as its entries

`Table.Holds t pieces`: the index of `t` lists these data blocks, they are where
it says, and no filter denies a key of its block.  A file that a builder has
finished opens as such a table (`openFile_finish`), and then

    a walk from the first entry, or from a target, shows what is left of the
    list there                                            (`Holds.seekToFirst`, `Holds.seek`)
    `Get` answers as a lookup in the list does             (`Holds.get`)
-/
import BedrockKV.SstBuild

namespace BedrockKV.Sst

open List Chunks Loop Piece

/-- A table with these data blocks. -/
structure Table.Holds (t : Table) (pieces : List Piece) : Prop where
  index : List.Forall₂ (Found t.fileData) t.index pieces
  sealed : ∀ p ∈ pieces, Sealed (pairs p.entries) p.block ∧ p.block.length < 2 ^ 32
  filter : ∀ i p, pieces[i]? = some p → ∀ e ∈ p.entries, t.keyMayMatchInBlock i e.user = true

/-! ## Filters -/

theorem slice_flatten {fs : List Bytes} {f rest : Bytes} {i : Nat} (h : fs[i]? = some f) :
    Table.slice (fs.flatten ++ rest) (fs.take i).flatten.length
      ((fs.take (i + 1)).flatten.length - (fs.take i).flatten.length) = f := by
  obtain ⟨hlt, rfl⟩ := List.getElem?_eq_some_iff.mp h
  have hsplit : fs.flatten = (fs.take i).flatten ++ (fs[i] ++ (fs.drop (i + 1)).flatten) := by
    rw [← flatten_cons, cons_getElem_drop_succ, ← flatten_append, take_append_drop]
  have hlen : (fs.take (i + 1)).flatten.length = (fs.take i).flatten.length + fs[i].length := by
    rw [take_succ_eq_append_getElem hlt, flatten_append, length_append]
    simp
  rw [Table.slice, hlen, Nat.add_sub_cancel_left, hsplit, append_assoc, drop_left,
    append_assoc, take_left]

theorem length_flatten_take_le (fs : List Bytes) (i : Nat) :
    (fs.take i).flatten.length ≤ fs.flatten.length := by
  have h : fs.flatten = (fs.take i).flatten ++ (fs.drop i).flatten := by
    rw [← flatten_append, take_append_drop]
  rw [h, length_append]
  omega

theorem keyMayMatchInBlock_eq {t : Table} {fs : List Bytes} {f : Bytes} {i : Nat}
    (hblock : t.filterBlock = fs.flatten ++
      ((List.range fs.length).map fun i => (fs.take i).flatten.length % 2 ^ 32).flatMap
        putFixed32 ++
      putFixed32 fs.flatten.length)
    (hsize : t.filterBlock.length < 2 ^ 32) (hf : fs[i]? = some f) (userKey : Bytes) :
    t.keyMayMatchInBlock i userKey = Bloom.keyMayMatch f userKey := by
  have hlt : i < fs.length := (List.getElem?_eq_some_iff.mp hf).1
  have hlen : t.filterBlock.length = fs.flatten.length + fs.length * 4 + 4 := by
    rw [hblock, length_append, length_append, length_restarts, length_map,
      length_range, length_putFixed32]
  have harray : getFixed32 (t.filterBlock.drop (t.filterBlock.length - 4)) = fs.flatten.length := by
    have hat : t.filterBlock.length - 4 = (fs.flatten ++ ((List.range fs.length).map fun i =>
        (fs.take i).flatten.length % 2 ^ 32).flatMap putFixed32).length := by
      rw [hlen, length_append, length_restarts, length_map, length_range]
      omega
    rw [hat]
    exact getFixed32_at [] (by rw [hblock, append_nil]) (by omega)
  have hat : ∀ j < fs.length, getFixed32 (t.filterBlock.drop (fs.flatten.length + j * 4)) =
      (fs.take j).flatten.length := by
    intro j hj
    have hle := length_flatten_take_le fs j
    refine getFixed32_restart (putFixed32 fs.flatten.length)
      (by rw [hblock, append_assoc]) ?_ (by omega)
    rw [getElem?_map, getElem?_range hj, Option.map_some,
      Nat.mod_eq_of_lt (by omega : (fs.take j).flatten.length < 2 ^ 32)]
  have hn : (t.filterBlock.length - 4 + 2 ^ 64 - fs.flatten.length) % 2 ^ 64 / 4 = fs.length := by
    omega
  have hstop : (if i + 1 < fs.length then
      getFixed32 (t.filterBlock.drop (fs.flatten.length + (i + 1) * 4)) else fs.flatten.length) =
      (fs.take (i + 1)).flatten.length := by
    split
    · next hlt' => exact hat (i + 1) hlt'
    · rw [take_of_length_le (by omega)]
  have hmono : (fs.take i).flatten.length ≤ (fs.take (i + 1)).flatten.length := by
    rw [take_succ_eq_append_getElem hlt, flatten_append, length_append]
    omega
  have hle := length_flatten_take_le fs (i + 1)
  unfold Table.keyMayMatchInBlock
  simp only [harray, hn, hat i hlt, hstop]
  rw [if_neg (by omega), if_neg (by omega), if_neg (by omega), if_neg (by omega), hblock,
    append_assoc, slice_flatten hf]

/-- **The filter that is asked is the one that was built.** -/
theorem Builder.Fills.keyMayMatch {wild : Int} {t : Table} {b : Builder} {pieces : List Piece}
    {i : Nat} {p : Piece}
    (h : b.Fills wild pieces []) (hblock : t.filterBlock = b.filterBlock)
    (hsize : b.filterBlock.length < 2 ^ 32) (hp : pieces[i]? = some p) (userKey : Bytes) :
    t.keyMayMatchInBlock i userKey =
      Bloom.keyMayMatch (filterOf wild b.options.bloomBitsPerKey p) userKey := by
  refine @keyMayMatchInBlock_eq t (pieces.map (filterOf wild b.options.bloomBitsPerKey)) _ i ?_
    (hblock ▸ hsize) (by rw [getElem?_map, hp]; rfl) userKey
  rw [hblock, Builder.filterBlock, h.filters, h.filterOffsets, length_map]

/-! ## Opening -/

theorem length_handle (offset size : Nat) : (Builder.handle offset size).length = 12 := by
  simp [Builder.handle]

theorem decode_handle {offset size : Nat} (ho : offset < 2 ^ 64) (hs : size < 2 ^ 32) :
    getFixed64 (Builder.handle offset size) = offset ∧
    getFixed32 ((Builder.handle offset size).drop 8) = size := by
  refine ⟨getFixed64_putFixed64 ho _, ?_⟩
  rw [Builder.handle, drop_left' (length_putFixed64 _), ← append_nil (putFixed32 size),
    getFixed32_putFixed32 hs]

theorem readIndex_eq {path : Bytes} {footerStart : Nat} (hfoot : footerStart < 2 ^ 64)
    (hs : List IndexEntry) :
    ∀ {fuel : Nat} {b : Block} {index : List IndexEntry}, b.Shows (indexPairs hs) →
      hs.length < fuel → (∀ h ∈ hs, h.offset + h.size ≤ footerStart ∧ h.size < 2 ^ 32) →
      ∃ b', Table.readIndex path footerStart fuel b index = .ok (index ++ hs, b') ∧
        b'.corrupted = false := by
  induction hs with
  | nil =>
    intro fuel b index hshows hfuel _
    obtain ⟨fuel, rfl⟩ : ∃ k, fuel = k + 1 := ⟨fuel - 1, by omega⟩
    have hvalid : b.valid = false := hshows.valid
    refine ⟨b, ?_, hshows.corrupted⟩
    rw [Table.readIndex, hvalid, append_nil]
    rfl
  | cons h hs ih =>
    intro fuel b index hshows hfuel hrange
    obtain ⟨fuel, rfl⟩ : ∃ k, fuel = k + 1 := ⟨fuel - 1, by omega⟩
    obtain ⟨⟨hin, hsize⟩, hrange⟩ := forall_mem_cons.mp hrange
    have hvalid : b.valid = true := hshows.valid
    obtain ⟨hkey, hvalue⟩ := hshows.entry
    dsimp only at hkey hvalue
    obtain ⟨hoffset, hsize'⟩ := decode_handle (show h.offset < 2 ^ 64 by omega) hsize
    obtain ⟨b', hread, hsound⟩ := @ih fuel b.next (index ++ [h]) hshows.next
      (Nat.lt_of_succ_lt_succ hfuel) hrange
    refine ⟨b', ?_, hsound⟩
    rw [Table.readIndex, hvalid, hvalue, hkey, hoffset, hsize', if_pos rfl,
      if_neg (not_not.mpr (length_handle _ _))]
    dsimp only
    rw [Nat.mod_eq_of_lt (by omega : h.offset + h.size < 2 ^ 64), if_neg (by omega), hread,
      append_assoc]
    rfl

/-- The fields of a footer. -/
structure IsFooter (f : Bytes) (filterOffset filterSize indexOffset indexSize numEntries : Nat)
    (crc : UInt32) : Prop where
  filterOffset : getFixed64 f = filterOffset
  filterSize : getFixed32 (f.drop 8) = filterSize
  indexOffset : getFixed64 (f.drop 12) = indexOffset
  indexSize : getFixed32 (f.drop 20) = indexSize
  numEntries : getFixed64 (f.drop 24) = numEntries
  crc : getFixed32 (f.drop 32) = crc.toNat
  magic : Table.slice f 36 kMagic.length = kMagic

theorem isFooter_footer {fo fs io is n : Nat} (crc : UInt32) (hfo : fo < 2 ^ 64) (hfs : fs < 2 ^ 32)
    (hio : io < 2 ^ 64) (his : is < 2 ^ 32) (hn : n < 2 ^ 64) :
    IsFooter (Builder.footer fo fs io is n crc) fo fs io is n crc := by
  have h₀ : Builder.footer fo fs io is n crc = putFixed64 fo ++ (putFixed32 fs ++ (putFixed64 io ++
      (putFixed32 is ++ (putFixed64 n ++ (putFixed32 crc.toNat ++ kMagic))))) := by
    simp only [Builder.footer, append_assoc]
  generalize Builder.footer fo fs io is n crc = f at h₀ ⊢
  have h₈ : f.drop 8 = putFixed32 fs ++ (putFixed64 io ++
      (putFixed32 is ++ (putFixed64 n ++ (putFixed32 crc.toNat ++ kMagic)))) := by
    rw [h₀, drop_left' (length_putFixed64 _)]
  have h₁₂ : f.drop 12 = putFixed64 io ++
      (putFixed32 is ++ (putFixed64 n ++ (putFixed32 crc.toNat ++ kMagic))) := by
    rw [show 12 = 8 + 4 from rfl, ← drop_drop, h₈, drop_left' (length_putFixed32 _)]
  have h₂₀ : f.drop 20 = putFixed32 is ++ (putFixed64 n ++ (putFixed32 crc.toNat ++ kMagic)) := by
    rw [show 20 = 12 + 8 from rfl, ← drop_drop, h₁₂, drop_left' (length_putFixed64 _)]
  have h₂₄ : f.drop 24 = putFixed64 n ++ (putFixed32 crc.toNat ++ kMagic) := by
    rw [show 24 = 20 + 4 from rfl, ← drop_drop, h₂₀, drop_left' (length_putFixed32 _)]
  have h₃₂ : f.drop 32 = putFixed32 crc.toNat ++ kMagic := by
    rw [show 32 = 24 + 8 from rfl, ← drop_drop, h₂₄, drop_left' (length_putFixed64 _)]
  have h₃₆ : f.drop 36 = kMagic := by
    rw [show 36 = 32 + 4 from rfl, ← drop_drop, h₃₂, drop_left' (length_putFixed32 _)]
  refine ⟨?_, ?_, ?_, ?_, ?_, ?_, ?_⟩
  · rw [h₀, getFixed64_putFixed64 hfo]
  · rw [h₈, getFixed32_putFixed32 hfs]
  · rw [h₁₂, getFixed64_putFixed64 hio]
  · rw [h₂₀, getFixed32_putFixed32 his]
  · rw [h₂₄, getFixed64_putFixed64 hn]
  · rw [h₃₂, getFixed32_putFixed32 crc.toNat_lt]
  · rw [Table.slice, h₃₆, take_length]

theorem length_footer (fo fs io is n : Nat) (crc : UInt32) :
    (Builder.footer fo fs io is n crc).length = kFooterSize := by
  simp only [Builder.footer, length_append, length_putFixed32, length_putFixed64]
  rfl

theorem userKeyOf_keyOf (e : Entry) : userKeyOf (keyOf e) = e.user := by
  have hlen : (keyOf e).length = e.user.length + 8 := by simp [keyOf, encodeInternalKey]
  rw [userKeyOf, if_pos (by rw [hlen]; exact Nat.le_add_left _ _), hlen]
  exact take_left' rfl

theorem Piece.lastKey_eq {p : Piece} {e : Entry} (h : p.entries.getLast? = some e) :
    p.lastKey = keyOf e := by
  rw [Piece.lastKey, h]
  rfl

theorem map_key_eq {data : Bytes} {index : List IndexEntry} {pieces : List Piece}
    (h : List.Forall₂ (Found data) index pieces) :
    index.map IndexEntry.key = pieces.map Piece.lastKey := by
  induction h with
  | nil => rfl
  | cons hfound _ ih => rw [map_cons, map_cons, hfound.1, ih]

theorem lastKey_entriesOf {pieces : List Piece} {e : Entry} (hne : ∀ p ∈ pieces, p.entries ≠ [])
    (he : (entriesOf pieces).getLast? = some e) :
    (pieces.map Piece.lastKey).getLast? = some (keyOf e) := by
  rcases eq_nil_or_concat' pieces with rfl | ⟨init, q, rfl⟩
  · cases he
  · have hq : q.entries ≠ [] := hne q (by simp)
    rw [entriesOf, flatMap_append, flatMap_singleton, getLast?_append_of_ne_nil _ hq] at he
    rw [map_append, map_singleton, getLast?_concat, Piece.lastKey_eq he]

/-- Once the index is read, the table opens. -/
theorem openBlocks_eq {fileNumber numEntries : Nat} {path data filterBlock : Bytes}
    {index : List IndexEntry} {pieces : List Piece}
    (hindex : List.Forall₂ (Found data) index pieces)
    (hsealed : ∀ p ∈ pieces, Sealed (pairs p.entries) p.block ∧ p.block.length < 2 ^ 32)
    (hne : pieces ≠ []) :
    ∃ t, Table.openBlocks fileNumber path data filterBlock numEntries index = .ok t ∧
      t.fileNumber = fileNumber ∧ t.fileData = data ∧ t.index = index ∧
      t.filterBlock = filterBlock ∧
      t.numEntries = numEntries ∧
      (∀ e ∈ (entriesOf pieces).head?, t.smallestUserKey = e.user) ∧
      ∀ e ∈ (entriesOf pieces).getLast?, t.largestUserKey = e.user := by
  have hkeys := map_key_eq hindex
  have hentries : ∀ p ∈ pieces, p.entries ≠ [] := fun p hp hnil =>
    (hsealed p hp).1.ne_nil (pairs_eq_nil.mpr hnil)
  cases hindex with
  | nil => exact absurd rfl hne
  | @cons h p hs ps hfound hrest =>
    obtain ⟨hseal, hlen⟩ := hsealed p mem_cons_self
    obtain ⟨-, -, hslice⟩ := hfound
    obtain ⟨e, es, hes⟩ := exists_cons_of_ne_nil (hentries p mem_cons_self)
    have hshows := hseal.seekToFirst hlen
    have hvalid := hshows.valid
    rw [hes] at hshows hvalid
    have hkey := hshows.entry.1
    have hvalid' : ¬ (!(Block.new (Table.slice data h.offset h.size)).seekToFirst.valid) =
        true := by
      rw [hslice, hvalid]
      exact Bool.false_ne_true
    have hsound : ¬ (Block.new (Table.slice data h.offset h.size)).corrupted = true := by
      rw [hslice, hseal.corrupted hlen]
      exact Bool.false_ne_true
    unfold Table.openBlocks
    dsimp only
    rw [if_neg hsound, if_neg hvalid']
    refine ⟨_, rfl, rfl, rfl, rfl, rfl, rfl, ?_, ?_⟩
    · rw [entriesOf, flatMap_cons, hes]
      rintro x ⟨⟩
      dsimp only
      rw [hslice, hkey, userKeyOf_keyOf]
    · intro x hx
      have hlast := lastKey_entriesOf hentries hx
      rw [← hkeys, getLast?_map, getLast?_eq_some_getLast (cons_ne_nil h hs)] at hlast
      dsimp only
      rw [Option.some.inj hlast, userKeyOf_keyOf]

theorem length_bytes_lt {pieces : List Piece} (h : ∀ p ∈ pieces, p.block.length < 2 ^ 32) :
    (bytes pieces).length ≤ pieces.length * 2 ^ 32 := by
  induction pieces with
  | nil => exact Nat.zero_le _
  | cons p ps ih =>
    obtain ⟨hp, hps⟩ := forall_mem_cons.mp h
    have := ih hps
    rw [bytes, flatMap_cons, length_append, length_cons, Nat.add_mul]
    rw [bytes] at this
    omega

theorem length_entriesOf_le {pieces : List Piece}
    (h : ∀ p ∈ pieces, Sealed (pairs p.entries) p.block) :
    (entriesOf pieces).length ≤ (bytes pieces).length := by
  induction pieces with
  | nil => exact le_rfl
  | cons p ps ih =>
    obtain ⟨hp, hps⟩ := forall_mem_cons.mp h
    have h₁ := ih hps
    have h₂ := hp.length_le
    rw [pairs, length_map] at h₂
    rw [entriesOf, bytes] at h₁ ⊢
    rw [flatMap_cons, flatMap_cons, length_append, length_append]
    omega

theorem mem_handles {h : IndexEntry} (pieces : List Piece) : ∀ {offset : Nat},
    h ∈ handles offset pieces → h.offset + h.size ≤ offset + (bytes pieces).length ∧
      ∃ p ∈ pieces, h.size = p.block.length := by
  induction pieces with
  | nil => exact fun hh => nomatch hh
  | cons p ps ih =>
    intro offset hh
    rw [bytes, flatMap_cons, length_append]
    rcases mem_cons.mp hh with rfl | hh
    · exact ⟨by dsimp only; omega, p, mem_cons_self, rfl⟩
    · obtain ⟨hle, q, hq, hsize⟩ := ih hh
      rw [bytes] at hle
      exact ⟨by omega, q, mem_cons_of_mem _ hq, hsize⟩

/-- **`Open`, up to the index**: the footer leads to the filter block and to the index. -/
theorem openFile_eq {D FB IB f : Bytes} {hs : List IndexEntry} {n : Nat} {crc : UInt32}
    (hfooter : IsFooter f D.length FB.length (D.length + FB.length) IB.length n crc)
    (hflen : f.length = kFooterSize) (hcrc : crc = crc32 (D ++ (FB ++ IB)) 0)
    (hseal : Sealed (indexPairs hs) IB) (hIB : IB.length < 2 ^ 32)
    (hlen : (D ++ (FB ++ (IB ++ f))).length < 2 ^ 64)
    (hrange : ∀ h ∈ hs, h.offset + h.size ≤ D.length ∧ h.size < 2 ^ 32) (fileNumber : Nat)
    (path : Bytes) :
    Table.openFile fileNumber path (D ++ (FB ++ (IB ++ f))) =
      Table.openBlocks fileNumber path (D ++ (FB ++ (IB ++ f))) FB n hs := by
  have hsize : (D ++ (FB ++ (IB ++ f))).length =
      D.length + FB.length + IB.length + kFooterSize := by
    simp only [length_append, hflen]
    omega
  have hstart : (D ++ (FB ++ (IB ++ f))).length - kFooterSize =
      D.length + FB.length + IB.length := by
    omega
  have hdrop : (D ++ (FB ++ (IB ++ f))).drop (D.length + FB.length + IB.length) = f := by
    rw [← append_assoc, ← append_assoc]
    refine drop_left' ?_
    simp only [length_append]
  have htake : (D ++ (FB ++ (IB ++ f))).take (D.length + FB.length + IB.length) =
      D ++ (FB ++ IB) := by
    rw [← append_assoc, ← append_assoc, ← append_assoc]
    refine take_left' ?_
    simp only [length_append]
  have hfilter : Table.slice (D ++ (FB ++ (IB ++ f))) D.length FB.length = FB := by
    rw [Table.slice, drop_left, take_left]
  have hindex : Table.slice (D ++ (FB ++ (IB ++ f))) (D.length + FB.length) IB.length = IB := by
    rw [Table.slice, ← drop_drop, drop_left, drop_left, take_left]
  have hfuel : hs.length < IB.length + 1 := by
    have := hseal.length_le
    rw [indexPairs, length_map] at this
    omega
  obtain ⟨ib, hread, hsound⟩ := @readIndex_eq path (D.length + FB.length + IB.length) (by omega) hs
    (IB.length + 1) (Block.new IB).seekToFirst [] (hseal.seekToFirst hIB) hfuel fun h hh => by
      have := hrange h hh
      omega
  unfold Table.openFile
  rw [if_neg (by omega), hstart]
  dsimp only
  rw [hdrop, hfooter.magic, hfooter.filterOffset, hfooter.filterSize, hfooter.indexOffset,
    hfooter.indexSize, hfooter.numEntries, hfooter.crc, htake, hfilter, hindex, ← hcrc,
    if_neg (not_not.mpr rfl), if_neg (by omega), if_neg (not_not.mpr rfl),
    if_neg (by rw [hseal.corrupted hIB]; exact Bool.false_ne_true), hread]
  dsimp only
  rw [if_neg (by rw [hsound]; exact Bool.false_ne_true), nil_append]

section Open

variable {wild : Int} {b : Builder} {pieces : List Piece}

/-- The file of a builder that has sealed its last block, with any bytes for the filters. -/
def Builder.fileWith (b : Builder) (filterBlock : Bytes) : Bytes :=
  b.file ++ (filterBlock ++ (b.indexBlock.finish ++ Builder.footer b.file.length filterBlock.length
    (b.file.length + filterBlock.length) b.indexBlock.finish.length b.numEntries
    (crc32 (b.file ++ (filterBlock ++ b.indexBlock.finish)) 0)))

theorem finish_eq_fileWith (h : (b.flushDataBlock wild).Fills wild pieces []) (m : FileMeta) :
    (b.finish wild m).1 =
      (b.flushDataBlock wild).fileWith (b.flushDataBlock wild).filterBlock := by
  unfold Builder.finish Builder.fileWith
  dsimp only
  rw [crc32_append, crc32_append, h.crc]
  simp only [append_assoc, length_append]

/-- A handle as it is read back. -/
def IndexEntry.wrapped (h : IndexEntry) : IndexEntry := { h with size := h.size % 2 ^ 32 }

theorem indexPairs_wrapped (hs : List IndexEntry) :
    indexPairs (hs.map IndexEntry.wrapped) = indexPairs hs := by
  rw [indexPairs, indexPairs, map_map]
  refine map_congr_left fun h _ => ?_
  rw [Function.comp_apply, IndexEntry.wrapped, Builder.handle, Builder.handle]
  exact congrArg (fun size => (h.key, putFixed64 h.offset ++ size)) (putFixed_mod 4 h.size)

theorem Builder.Fills.index_sealed (h : b.Fills wild pieces []) (hne : pieces ≠ []) :
    Sealed (indexPairs (handles 0 pieces)) b.indexBlock.finish := by
  refine h.indexBlock.sealed fun hnil => hne ?_
  rw [indexPairs, map_eq_nil_iff] at hnil
  rw [← length_eq_zero_iff, ← length_handles pieces 0, hnil]
  rfl

/-- Whatever the lengths of the blocks, the footer leads to their handles. -/
theorem Builder.Fills.openFile (h : b.Fills wild pieces []) (hne : pieces ≠ [])
    {filterBlock : Bytes} (hfilter : filterBlock.length < 2 ^ 32)
    (hindex : b.indexBlock.finish.length < 2 ^ 32) (hlen : b.file.length < 2 ^ 64 - 2 ^ 34)
    (fileNumber : Nat) (path : Bytes) :
    Table.openFile fileNumber path (b.fileWith filterBlock) =
      Table.openBlocks fileNumber path (b.fileWith filterBlock) filterBlock b.numEntries
        ((handles 0 pieces).map IndexEntry.wrapped) := by
  have hseal : Sealed (indexPairs ((handles 0 pieces).map IndexEntry.wrapped))
      b.indexBlock.finish := by
    rw [indexPairs_wrapped]
    exact h.index_sealed hne
  have hcount := h.counts.numEntries
  have hentries := length_entriesOf_le h.sealed
  rw [append_nil] at hcount
  rw [← h.file, ← hcount] at hentries
  have hrange : ∀ x ∈ (handles 0 pieces).map IndexEntry.wrapped,
      x.offset + x.size ≤ b.file.length ∧ x.size < 2 ^ 32 := by
    intro x hx
    obtain ⟨y, hy, rfl⟩ := mem_map.mp hx
    obtain ⟨hle, -⟩ := mem_handles pieces hy
    rw [Nat.zero_add, ← h.file] at hle
    dsimp only [IndexEntry.wrapped]
    omega
  have hfooter := isFooter_footer (crc32 (b.file ++ (filterBlock ++ b.indexBlock.finish)) 0)
    (show b.file.length < 2 ^ 64 by omega) hfilter
    (show b.file.length + filterBlock.length < 2 ^ 64 by omega) hindex
    (show b.numEntries < 2 ^ 64 by omega)
  have hflen := length_footer b.file.length filterBlock.length (b.file.length + filterBlock.length)
    b.indexBlock.finish.length b.numEntries
    (crc32 (b.file ++ (filterBlock ++ b.indexBlock.finish)) 0)
  unfold Builder.fileWith
  generalize Builder.footer _ _ _ _ _ _ = f at hfooter hflen ⊢
  refine openFile_eq hfooter hflen rfl hseal hindex ?_ hrange fileNumber path
  simp only [length_append, hflen, kFooterSize]
  omega

/-- **Such a file opens**, as a table with the pieces that were sealed, whatever the filters. -/
theorem openFile_fileWith (h : b.Holds wild pieces []) (hne : pieces ≠ []) {filterBlock : Bytes}
    (hfilter : filterBlock.length < 2 ^ 32) (hindex : b.indexBlock.finish.length < 2 ^ 32)
    (fileNumber : Nat) (path : Bytes) :
    ∃ t, Table.openFile fileNumber path (b.fileWith filterBlock) = .ok t ∧
      t.filterBlock = filterBlock ∧ List.Forall₂ (Found t.fileData) t.index pieces ∧
      t.fileNumber = fileNumber ∧ t.numEntries = (entriesOf pieces).length ∧
      (∀ e ∈ (entriesOf pieces).head?, t.smallestUserKey = e.user) ∧
      ∀ e ∈ (entriesOf pieces).getLast?, t.largestUserKey = e.user := by
  have hblocks : ∀ p ∈ pieces, p.block.length < 2 ^ 32 := fun p hp => (h.blocks p hp).1
  have hcount := h.counts.numEntries
  rw [append_nil] at hcount
  -- the file stays under 2 ^ 64 bytes: the index has an entry for each block
  have hpieces := (h.index_sealed hne).length_le
  rw [indexPairs, length_map, length_handles] at hpieces
  have hdata := length_bytes_lt hblocks
  rw [← h.file] at hdata
  have hopen := h.openFile hne hfilter hindex (by omega) fileNumber path
  have hwrapped : (handles 0 pieces).map IndexEntry.wrapped = handles 0 pieces := by
    refine (map_congr_left fun x hx => ?_).trans (map_id _)
    obtain ⟨-, p, hp, hsize⟩ := mem_handles pieces hx
    rw [IndexEntry.wrapped, Nat.mod_eq_of_lt (hsize ▸ hblocks p hp)]
    rfl
  have hfound := @found_handles (b.fileWith filterBlock) _ pieces [] (by
    rw [Builder.fileWith, nil_append, ← h.file])
  rw [hwrapped] at hopen
  obtain ⟨t, ht, hnumber, hbytes, hidx, hfb, hnum, hsmallest, hlargest⟩ :=
    @openBlocks_eq fileNumber b.numEntries path _ filterBlock _ _ hfound
      (fun p hp => ⟨h.sealed p hp, hblocks p hp⟩) hne
  exact ⟨t, hopen.trans ht, hfb, by rwa [hidx, hbytes], hnumber, hnum.trans hcount, hsmallest,
    hlargest⟩

/-- **A finished file opens**, and no filter denies a key of its block. -/
theorem openFile_finish (h : (b.flushDataBlock wild).Holds wild pieces []) (hne : pieces ≠ [])
    (hfilter : (b.flushDataBlock wild).filterBlock.length < 2 ^ 32)
    (hindex : (b.flushDataBlock wild).indexBlock.finish.length < 2 ^ 32) (m : FileMeta)
    (fileNumber : Nat) (path : Bytes) :
    ∃ t, Table.openFile fileNumber path (b.finish wild m).1 = .ok t ∧ t.Holds pieces ∧
      t.fileNumber = fileNumber ∧ t.numEntries = (entriesOf pieces).length ∧
      (∀ e ∈ (entriesOf pieces).head?, t.smallestUserKey = e.user) ∧
      ∀ e ∈ (entriesOf pieces).getLast?, t.largestUserKey = e.user := by
  rw [finish_eq_fileWith h.toFills]
  obtain ⟨t, ht, hfb, hidx, hrest⟩ := openFile_fileWith h hne hfilter hindex fileNumber path
  refine ⟨t, ht, ⟨hidx, fun p hp => ?_, fun i p hp e he => ?_⟩, hrest⟩
  · exact ⟨h.sealed p hp, (h.blocks p hp).1⟩
  · rw [h.keyMayMatch hfb hfilter hp]
    exact Bloom.keyMayMatch_buildFilter (mem_map_of_mem he)

end Open

/-! ## Looking up -/

section Read

variable {t : Table} {pieces : List Piece}

theorem Table.Holds.entries_ne (h : t.Holds pieces) : ∀ p ∈ pieces, p.entries ≠ [] :=
  fun p hp hnil => (h.sealed p hp).1.ne_nil (pairs_eq_nil.mpr hnil)

theorem dropWhile_pairs (es : List Entry) (target : Bytes) :
    (pairs es).dropWhile (fun kv => internalKeyLess kv.1 target) =
      pairs (es.dropWhile fun e => internalKeyLess (keyOf e) target) := by
  rw [pairs, pairs, dropWhile_map]
  rfl

/-- **The index leads to the block** in which the first entry not less than the target is. -/
theorem Table.Holds.findBlock (h : t.Holds pieces) (hinc : Increasing (entriesOf pieces))
    (hsmall : Small (entriesOf pieces)) (target : Bytes) :
    (t.index[t.findBlock target]? = none ∧
      (entriesOf pieces).dropWhile (fun e => internalKeyLess (keyOf e) target) = []) ∨
    ∃ x p, t.index[t.findBlock target]? = some x ∧ pieces[t.findBlock target]? = some p ∧
      Found t.fileData x p ∧
      (entriesOf pieces).dropWhile (fun e => internalKeyLess (keyOf e) target) =
        p.entries.dropWhile (fun e => internalKeyLess (keyOf e) target) ++
          entriesOf (pieces.drop (t.findBlock target + 1)) ∧
      p.entries.dropWhile (fun e => internalKeyLess (keyOf e) target) ≠ [] := by
  have hi : t.findBlock target =
      (pieces.takeWhile fun p => internalKeyLess p.lastKey target).length := by
    rw [← lowerBound_map (fun k => internalKeyLess k target) Piece.lastKey, ← map_key_eq h.index,
      lowerBound_map, Table.findBlock, lowerBound_eq]
  have hlast : ∀ p ∈ pieces, ∃ e, p.entries.getLast? = some e ∧
      internalKeyLess p.lastKey target = internalKeyLess (keyOf e) target := by
    intro p hp
    have he := getLast?_eq_some_getLast (h.entries_ne p hp)
    exact ⟨_, he, by rw [Piece.lastKey_eq he]⟩
  have hupto := upto_less hinc hsmall target
  have hget := getElem?_takeWhile (fun p : Piece => internalKeyLess p.lastKey target) pieces
  rw [← hi] at hget
  rcases getElem?_of_forall₂ h.index (t.findBlock target) with ⟨hx, hp⟩ | ⟨x, p, hx, hp, hfound⟩
  · rw [hget, head?_eq_none_iff] at hp
    exact .inl ⟨hx, dropWhile_flatMap_of_all hlast hupto hp⟩
  · have hdrop := drop_length_takeWhile (fun p : Piece => internalKeyLess p.lastKey target) pieces
    rw [← hi] at hdrop
    have hcons : pieces.dropWhile (fun p : Piece => internalKeyLess p.lastKey target) =
        p :: pieces.drop (t.findBlock target + 1) := by
      rw [← hdrop]
      obtain ⟨hlt, rfl⟩ := List.getElem?_eq_some_iff.mp hp
      exact drop_eq_getElem_cons hlt
    exact .inr ⟨x, p, hx, hp, hfound, dropWhile_flatMap hlast hupto hcons⟩

theorem decode_keyOf {e : Entry} (he : e.seq < 2 ^ 56) (userKey : Bytes) :
    Table.decode (keyOf e) e.value userKey = decodeFound userKey (some e) := by
  have hlen : (keyOf e).length = e.user.length + 8 := by simp [keyOf, encodeInternalKey]
  have huser : (keyOf e).take ((keyOf e).length - kTagSize) = e.user := by
    rw [hlen]
    exact take_left' rfl
  have htag : getFixed64 ((keyOf e).drop ((keyOf e).length - kTagSize)) = e.tag := by
    have hcut : (keyOf e).drop ((keyOf e).length - kTagSize) = putFixed64 e.tag ++ [] := by
      rw [hlen, append_nil]
      exact drop_left' rfl
    rw [hcut, getFixed64_putFixed64 (tag_lt he)]
  have hroom : kTagSize ≤ (keyOf e).length := by
    rw [hlen]
    exact Nat.le_add_left _ _
  rw [Table.decode, huser, htag, decodeFound]
  by_cases hkey : e.user = userKey
  · rw [if_pos ⟨hroom, hkey⟩, if_pos hkey, Entry.tag]
    cases e.type with
    | value => rw [if_pos (by simp only [ValueType.code]; omega)]
    | deletion => rw [if_neg (by simp only [ValueType.code]; omega)]
  · rw [if_neg fun hand => hkey hand.2, if_neg hkey]

/-- **`Get` is a lookup in the list**: the first entry not less than the search key. -/
theorem Table.Holds.get (h : t.Holds pieces) (hinc : Increasing (entriesOf pieces))
    (hsmall : Small (entriesOf pieces)) (userKey : Bytes) (maxSeq : Nat) :
    t.get userKey maxSeq = (decodeFound userKey ((entriesOf pieces).dropWhile fun e =>
      internalKeyLess (keyOf e) (userKey ++ putFixed64 (Table.targetTag maxSeq))).head?, none) := by
  unfold Table.get
  dsimp only
  rcases h.findBlock hinc hsmall (userKey ++ putFixed64 (Table.targetTag maxSeq)) with
    ⟨hx, hnil⟩ | ⟨x, p, hx, hp, ⟨-, -, hslice⟩, hdrop, hne⟩
  · rw [hx, hnil]
    rfl
  · rw [hx, hdrop]
    have hmem := mem_of_getElem? hp
    obtain ⟨hseal, hlen⟩ := h.sealed p hmem
    obtain ⟨e, es, hes⟩ := exists_cons_of_ne_nil hne
    have he : e ∈ p.entries := (dropWhile_sublist _).subset (hes ▸ mem_cons_self)
    have hall : e ∈ entriesOf pieces := mem_flatMap.mpr ⟨p, hmem, he⟩
    rw [hes]
    dsimp only [cons_append, head?_cons]
    cases hbloom : t.keyMayMatchInBlock
        (t.findBlock (userKey ++ putFixed64 (Table.targetTag maxSeq))) userKey with
    | false =>
      -- the filter denies the key, so that the entry found has another
      have hother : e.user ≠ userKey := by
        rintro rfl
        rw [h.filter _ p hp e he] at hbloom
        cases hbloom
      rw [decodeFound, if_neg hother]
      rfl
    | true =>
      have hupto : Upto (fun kv : Bytes × Bytes =>
          internalKeyLess kv.1 (userKey ++ putFixed64 (Table.targetTag maxSeq)))
            (pairs p.entries) := by
        have hall := upto_less hinc hsmall (userKey ++ putFixed64 (Table.targetTag maxSeq))
        have hsub : p.entries.Sublist (entriesOf pieces) :=
          sublist_flatten_of_mem (mem_map_of_mem hmem)
        exact pairwise_map.mpr (hall.sublist hsub)
      have hshows := hseal.seek hlen hupto
      rw [dropWhile_pairs, hes] at hshows
      have hvalid : ((Block.new p.block).seek
          (userKey ++ putFixed64 (Table.targetTag maxSeq))).valid = true := hshows.valid
      obtain ⟨hkey, hvalue⟩ := hshows.entry
      dsimp only at hkey hvalue
      rw [hslice, hseal.corrupted hlen, hshows.corrupted, hvalid, hkey, hvalue,
        decode_keyOf (hsmall e hall)]
      rfl

/-! ## Walking -/

/-- The iterator stands where these pairs are still to come: some in its block, then all of
the blocks behind it. -/
structure TableIterator.Stands (it : TableIterator) (t : Table) (pieces : List Piece)
    (rest : List (Bytes × Bytes)) : Prop where
  table : it.table = t
  valid : it.valid = !rest.isEmpty
  block : rest ≠ [] → ∃ shown, it.block.Shows shown ∧ shown ≠ [] ∧
    rest = shown ++ pairs (entriesOf (pieces.drop (it.blockIndex + 1)))

variable {it : TableIterator}

theorem pairs_append (es fs : List Entry) : pairs (es ++ fs) = pairs es ++ pairs fs :=
  map_append

theorem enterBlock_eq {i : Nat} {x : IndexEntry} {block : Bytes} (seekFirst : Bool)
    (hslice : Table.slice it.table.fileData x.offset x.size = block)
    (hsound : (Block.new block).corrupted = false) :
    it.enterBlock i x seekFirst =
      { it with
        blockIndex := i
        block := if seekFirst then (Block.new block).seekToFirst else Block.new block
        valid :=
          (if seekFirst then (Block.new block).seekToFirst else Block.new block).valid } := by
  unfold TableIterator.enterBlock
  rw [hslice, if_neg (Bool.eq_false_iff.mp hsound)]

variable (h : t.Holds pieces)
include h

theorem Table.Holds.enterBlock (hit : it.table = t) {i : Nat} {x : IndexEntry}
    {p : Piece} (hp : pieces[i]? = some p) (hfound : Found t.fileData x p) :
    (it.enterBlock i x true).Stands t pieces (pairs (entriesOf (pieces.drop i))) := by
  obtain ⟨-, -, hslice⟩ := hfound
  have hmem := mem_of_getElem? hp
  obtain ⟨hseal, hlen⟩ := h.sealed p hmem
  have hne := hseal.ne_nil
  have hrest : pairs (entriesOf (pieces.drop i)) =
      pairs p.entries ++ pairs (entriesOf (pieces.drop (i + 1))) := by
    obtain ⟨hlt, rfl⟩ := List.getElem?_eq_some_iff.mp hp
    rw [drop_eq_getElem_cons hlt, entriesOf, flatMap_cons, pairs_append]
    rfl
  have hshows := hseal.seekToFirst hlen
  have hvalid := hshows.valid
  obtain ⟨kv, kvs, hkvs⟩ := exists_cons_of_ne_nil hne
  subst hit
  rw [enterBlock_eq true hslice (hseal.corrupted hlen), if_pos rfl]
  refine ⟨rfl, ?_, fun _ => ⟨pairs p.entries, hshows, hne, hrest⟩⟩
  rw [hrest, hkvs]
  rw [hkvs] at hvalid
  exact hvalid

theorem Table.Holds.seekToFirst (hit : it.table = t) :
    it.seekToFirst.Stands t pieces (pairs (entriesOf pieces)) := by
  subst hit
  unfold TableIterator.seekToFirst
  dsimp only
  rcases getElem?_of_forall₂ h.index 0 with ⟨hx, hp⟩ | ⟨x, p, hx, hp, hfound⟩
  · rw [← head?_eq_getElem?, head?_eq_none_iff] at hx hp
    rw [hx, hp]
    exact ⟨rfl, rfl, fun hne => absurd rfl hne⟩
  · rw [← head?_eq_getElem?] at hx
    obtain ⟨rest, hrest⟩ := head?_eq_some_iff.mp hx
    rw [hrest]
    exact @Table.Holds.enterBlock it.table pieces { it with corrupted := false } h rfl 0 x p hp
      hfound

/-- **`Seek` stands where what is left is not less than the target.** -/
theorem Table.Holds.seek (hinc : Increasing (entriesOf pieces))
    (hsmall : Small (entriesOf pieces)) (hit : it.table = t) (target : Bytes) :
    (it.seek target).Stands t pieces
      ((pairs (entriesOf pieces)).dropWhile fun kv => internalKeyLess kv.1 target) := by
  subst hit
  rw [dropWhile_pairs]
  unfold TableIterator.seek
  dsimp only
  rcases h.findBlock hinc hsmall target with ⟨hx, hnil⟩ | ⟨x, p, hx, hp, ⟨-, -, hslice⟩, hdrop, hne⟩
  · rw [hx, hnil]
    exact ⟨rfl, rfl, fun hne => absurd rfl hne⟩
  · rw [hx, hdrop, pairs_append]
    have hmem := mem_of_getElem? hp
    obtain ⟨hseal, hlen⟩ := h.sealed p hmem
    have hupto : Upto (fun kv : Bytes × Bytes => internalKeyLess kv.1 target)
        (pairs p.entries) := by
      have hsub : p.entries.Sublist (entriesOf pieces) :=
        sublist_flatten_of_mem (mem_map_of_mem hmem)
      exact pairwise_map.mpr ((upto_less hinc hsmall target).sublist hsub)
    have hshows := hseal.seek hlen hupto
    rw [dropWhile_pairs] at hshows
    have hvalid := hshows.valid
    obtain ⟨e, es, hes⟩ := exists_cons_of_ne_nil hne
    dsimp only
    rw [@enterBlock_eq { it with corrupted := false } _ x p.block false hslice
      (hseal.corrupted hlen)]
    dsimp only
    rw [if_neg Bool.false_ne_true, if_neg Bool.false_ne_true]
    refine ⟨rfl, ?_, fun _ => ⟨_, hshows, fun hnil => hne (pairs_eq_nil.mp hnil), rfl⟩⟩
    rw [hes] at hvalid ⊢
    exact hvalid

/-- **`Next` leaves out one pair.** -/
theorem Table.Holds.next {kv : Bytes × Bytes} {rest : List (Bytes × Bytes)}
    (hstands : it.Stands t pieces (kv :: rest)) :
    it.next.Stands t pieces rest ∧ (it.block.keyScratch, it.block.curValue) = kv := by
  obtain ⟨rfl, hitvalid, hblock⟩ := hstands
  obtain ⟨shown, hshows, hne, hrest⟩ := hblock (cons_ne_nil _ _)
  obtain ⟨kv', shown, rfl⟩ := exists_cons_of_ne_nil hne
  rw [cons_append] at hrest
  obtain ⟨rfl, rfl⟩ := List.cons.inj hrest
  obtain ⟨hkey, hvalue⟩ := hshows.entry
  refine ⟨?_, Prod.ext hkey hvalue⟩
  have hnext := hshows.next
  have hvalid := hnext.valid
  have hgo : ¬ (!it.valid) = true := by
    rw [hitvalid]
    exact Bool.false_ne_true
  unfold TableIterator.next
  dsimp only
  rw [if_neg hgo, if_neg (Bool.eq_false_iff.mp hnext.corrupted)]
  cases shown with
  | cons kv shown =>
    have hstay : it.block.next.valid = true := hvalid
    rw [if_pos hstay]
    exact ⟨rfl, hitvalid, fun _ => ⟨_, hnext, cons_ne_nil _ _, rfl⟩⟩
  | nil =>
    have hleave : ¬ it.block.next.valid = true := by
      rw [hvalid]
      exact Bool.false_ne_true
    rw [if_neg hleave, nil_append]
    rcases getElem?_of_forall₂ h.index (it.blockIndex + 1) with ⟨hx, hp⟩ | ⟨x, p, hx, hp, hfound⟩
    · rw [hx, drop_eq_nil_of_le (List.getElem?_eq_none_iff.mp hp)]
      exact ⟨rfl, rfl, fun hne => absurd rfl hne⟩
    · rw [hx]
      exact @Table.Holds.enterBlock it.table pieces { it with block := it.block.next } h rfl _ x p
        hp
        hfound

/-- **A walk shows what is still to come**, and ends. -/
theorem Table.Holds.yields (rest : List (Bytes × Bytes)) :
    ∀ {it : TableIterator}, it.Stands t pieces rest → it.Yields rest := by
  induction rest with
  | nil => exact fun hstands => Loop.walks_nil hstands.valid
  | cons kv rest ih =>
    intro it hstands
    obtain ⟨hnext, rfl⟩ := h.next hstands
    exact Loop.walks_cons hstands.valid (ih hnext)

/-- The blocks' sizes bound what a walk shows. -/
theorem Table.Holds.length_le :
    (entriesOf pieces).length ≤ (t.index.map IndexEntry.size).sum := by
  obtain ⟨hindex, hsealed, -⟩ := h
  have hlen := length_entriesOf_le fun p hp => (hsealed p hp).1
  have hsizes : t.index.map IndexEntry.size = pieces.map fun p => p.block.length := by
    refine forall₂_eq_eq_eq ▸ (forall₂_map_left_iff.mpr (forall₂_map_right_iff.mpr ?_))
    refine hindex.imp fun x p ⟨_, hle, hslice⟩ => ?_
    rw [← hslice, Table.slice, length_take, length_drop]
    omega
  rwa [hsizes, ← length_flatMap]

end Read

/-! ## A table of one block -/

theorem walk_single {t t' : Table} {x x' : IndexEntry} (ht : t.index = [x]) (ht' : t'.index = [x'])
    (n : Nat) : ∀ (b : Block) (valid corrupted : Bool),
    Loop.walk TableIterator.valid TableIterator.pair TableIterator.next n
        ⟨t, 0, b, valid, corrupted⟩ =
      Loop.walk TableIterator.valid TableIterator.pair TableIterator.next n
        ⟨t', 0, b, valid, corrupted⟩ := by
  induction n with
  | zero => exact fun _ _ _ => rfl
  | succ n ih =>
    intro b valid corrupted
    cases valid with
    | false => rfl
    | true =>
      have hnext : ∀ {t : Table} {x : IndexEntry}, t.index = [x] →
          TableIterator.next ⟨t, 0, b, true, corrupted⟩ =
            ⟨t, 0, b.next, !b.next.corrupted && b.next.valid, b.next.corrupted || corrupted⟩ := by
        intro t x ht
        simp only [TableIterator.next, ht]
        cases b.next.corrupted <;> cases b.next.valid <;> simp
      simp only [Loop.walk, if_true, hnext ht, hnext ht', ih]
      rfl

/-- A walk reads no more of the file than the block. -/
theorem Table.shown_single {t : Table} {x : IndexEntry} (ht : t.index = [x]) :
    t.shown none = Table.shown ⟨0, Table.slice t.fileData x.offset x.size, [⟨[], 0, x.size⟩], [],
      [], [], 0⟩ none := by
  have hslice : Table.slice (Table.slice t.fileData x.offset x.size) 0 x.size =
      Table.slice t.fileData x.offset x.size := by
    rw [Table.slice, Table.slice, drop_zero, take_take, Nat.min_self]
  simp only [Table.shown, TableIterator.seekToFirst, TableIterator.new, TableIterator.enterBlock,
    Option.elim, ht, hslice, map_cons, map_nil]
  split <;> exact walk_single ht rfl _ _ _ _

end BedrockKV.Sst
