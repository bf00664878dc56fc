/-
# `BedrockKV.SstBuild` — what a builder has written after a list of entries

`Builder.Holds b pieces cur`: the entries that `b` was given are those of the
data blocks it has sealed, `pieces`, and those of the one it is filling,
`cur`.  With the blocks go their index entries and their filters.  `Add` keeps
it (`Holds.add`), so a whole run of accepted entries does (`addAll_holds`), and
every entry of a strictly increasing list is accepted.

Lengths are written into 32 bits.  `Fits b es` says that they do not need more
when the entries `es` are added to `b`: every data block, every filter that is
asked for, the filter block and the index block stay under `2 ^ 32` bytes.
-/
import BedrockKV.BlockRead
import BedrockKV.Crc
import BedrockKV.SstFile

namespace BedrockKV.Sst

open List Chunks

/-! ## Internal keys -/

/-- The key under which an entry is stored. -/
def keyOf (e : Entry) : Bytes := encodeInternalKey e.user e.seq e.type

def pairs (es : List Entry) : List (Bytes × Bytes) := es.map fun e => (keyOf e, e.value)

/-- An internal key, from its bytes. -/
def parsedKey (key : Bytes) : InternalKey := ⟨extractUserKey key, WithTop.some (extractTag key)⟩

theorem internalKeyLess_iff {a b : Bytes} :
    internalKeyLess a b = true ↔ (parsedKey a).less (parsedKey b) := by
  unfold internalKeyLess InternalKey.less parsedKey
  dsimp only
  split
  · exact decide_eq_true_iff
  · rw [decide_eq_true_iff, WithTop.coe_lt_coe]

theorem parsedKey_tagged (user : Bytes) {tag : Nat} (h : tag < 2 ^ 64) :
    parsedKey (user ++ putFixed64 tag) = ⟨user, WithTop.some tag⟩ := by
  have hlen : (user ++ putFixed64 tag).length = user.length + 8 := by simp
  have huser : extractUserKey (user ++ putFixed64 tag) = user := by
    rw [extractUserKey, if_pos (by omega), hlen, Nat.add_sub_cancel, take_left]
  have htag : extractTag (user ++ putFixed64 tag) = tag := by
    rw [extractTag, if_pos (by omega), hlen, Nat.add_sub_cancel, drop_left,
      ← append_nil (putFixed64 tag), getFixed64_putFixed64 h]
  rw [parsedKey, huser, htag]

/-- Sequence numbers that leave a byte for the type. -/
def Small (es : List Entry) : Prop := ∀ e ∈ es, e.seq < 2 ^ 56

theorem tag_lt {e : Entry} (h : e.seq < 2 ^ 56) : e.tag < 2 ^ 64 := by
  have := e.type.code_le
  rw [Entry.tag]
  omega

theorem parsedKey_keyOf {e : Entry} (h : e.seq < 2 ^ 56) : parsedKey (keyOf e) = e.internalKey :=
  parsedKey_tagged e.user (tag_lt h)

theorem less_keyOf {a b : Entry} (ha : a.seq < 2 ^ 56) (hb : b.seq < 2 ^ 56) :
    internalKeyLess (keyOf a) (keyOf b) = true ↔ a.internalKey.less b.internalKey := by
  rw [internalKeyLess_iff, parsedKey_keyOf ha, parsedKey_keyOf hb]

theorem upto_less {es : List Entry} (hinc : Increasing es) (hsmall : Small es) (target : Bytes) :
    Upto (fun e => internalKeyLess (keyOf e) target) es := by
  refine hinc.imp_of_mem fun {a b} ha hb hless => ?_
  intro hb'
  rw [internalKeyLess_iff] at hb' ⊢
  rw [parsedKey_keyOf (hsmall b hb)] at hb'
  rw [parsedKey_keyOf (hsmall a ha)]
  exact InternalKey.less_trans hless hb'

/-! ## Pieces -/

/-- A data block that was sealed: its entries and its bytes. -/
structure Piece where
  entries : List Entry
  block : Bytes

namespace Piece

def lastKey (p : Piece) : Bytes := ((p.entries.getLast?).map keyOf).getD []

/-- Where the blocks of a file lie, the first of them at `offset`. -/
def handles : Nat → List Piece → List IndexEntry
  | _, [] => []
  | offset, p :: ps => ⟨p.lastKey, offset, p.block.length⟩ :: handles (offset + p.block.length) ps

def indexPairs (hs : List IndexEntry) : List (Bytes × Bytes) :=
  hs.map fun h => (h.key, Builder.handle h.offset h.size)

def bytes (ps : List Piece) : Bytes := ps.flatMap Piece.block

def entriesOf (ps : List Piece) : List Entry := ps.flatMap Piece.entries

theorem handles_concat (ps : List Piece) (p : Piece) : ∀ offset : Nat,
    handles offset (ps ++ [p]) =
      handles offset ps ++ [⟨p.lastKey, offset + (bytes ps).length, p.block.length⟩] := by
  induction ps with
  | nil => exact fun _ => rfl
  | cons q ps ih =>
    intro offset
    simp only [cons_append, handles, ih, bytes, flatMap_cons, length_append, Nat.add_assoc]

/-- Index entries of a block, as they are found in the file. -/
def Found (data : Bytes) (h : IndexEntry) (p : Piece) : Prop :=
  h.key = p.lastKey ∧ h.offset + h.size ≤ data.length ∧ Table.slice data h.offset h.size = p.block

theorem found_handles {data after : Bytes} (ps : List Piece) : ∀ {before : Bytes},
    data = before ++ (bytes ps ++ after) →
      List.Forall₂ (Found data) (handles before.length ps) ps := by
  induction ps with
  | nil => exact fun _ => .nil
  | cons p ps ih =>
    intro before hdata
    rw [bytes, flatMap_cons, append_assoc] at hdata
    refine .cons ⟨rfl, ?_, ?_⟩ ?_
    · rw [hdata]
      simp only [length_append]
      omega
    · rw [Table.slice, hdata, drop_left, take_left]
    · rw [← length_append]
      exact ih (by rw [hdata, append_assoc]; rfl)

theorem length_handles (ps : List Piece) : ∀ offset, (handles offset ps).length = ps.length := by
  induction ps with
  | nil => exact fun _ => rfl
  | cons p ps ih => exact fun _ => congrArg (· + 1) (ih _)

end Piece

open Piece

/-! ## The builder -/

section Build

variable (wild : Int)

/-- Every block and every filter stays under `2 ^ 32` bytes while the entries are added,
and the filter and index blocks do when the file is finished. -/
def Fits : Builder → List Entry → Prop
  | b, [] =>
    (b.flushDataBlock wild).filterBlock.length < 2 ^ 32 ∧
    (b.flushDataBlock wild).indexBlock.finish.length < 2 ^ 32
  | b, e :: es =>
    (b.append e).dataBlock.currentSizeEstimate < 2 ^ 32 ∧
    (b.append e).blockUserKeys.length * b.options.bloomBitsPerKey < 8 * 2 ^ 32 ∧
    ∀ b', b.add wild e = .ok b' → Fits b' es

instance decidableFits : ∀ (b : Builder) (es : List Entry), Decidable (Fits wild b es)
  | _, [] => inferInstanceAs (Decidable (_ ∧ _))
  | b, e :: es =>
    have : Decidable (∀ b', b.add wild e = .ok b' → Fits wild b' es) :=
      match b.add wild e with
      | .error _ => isTrue nofun
      | .ok b' =>
        have := decidableFits b' es
        decidable_of_iff (Fits wild b' es)
          ⟨fun hfits _ hb => Except.ok.inj hb ▸ hfits, fun hall => hall b' rfl⟩
    inferInstanceAs (Decidable (_ ∧ _ ∧ _))

def filterOf (bits : Nat) (p : Piece) : Bytes :=
  Bloom.buildFilter wild (p.entries.map Entry.user) bits

/-- What the builder counts and remembers of the entries. -/
structure Builder.Counts (b : Builder) (es : List Entry) : Prop where
  hasLastKey : b.hasLastKey = !es.isEmpty
  lastInternalKey : ∀ e ∈ es.getLast?, b.lastInternalKey = keyOf e
  numEntries : b.numEntries = es.length
  smallestSeq : ∀ e ∈ es.head?, b.smallestSeq = (es.map Entry.seq).foldl min e.seq
  largestSeq : ∀ e ∈ es.head?, b.largestSeq = (es.map Entry.seq).foldl max e.seq
  smallestUserKey : ∀ e ∈ es.head?, b.smallestUserKey = e.user
  largestUserKey : ∀ e ∈ es.getLast?, b.largestUserKey = e.user

/-- What the builder has written, and what it is filling, whatever the lengths are. -/
structure Builder.Fills (b : Builder) (pieces : List Piece) (cur : List Entry) : Prop where
  dataBlock : b.dataBlock.Holds (pairs cur)
  indexBlock : b.indexBlock.Holds (indexPairs (handles 0 pieces))
  blockUserKeys : b.blockUserKeys = cur.map Entry.user
  filters : b.filters = (pieces.map (filterOf wild b.options.bloomBitsPerKey)).flatten
  filterOffsets : b.filterOffsets = (List.range pieces.length).map fun i =>
    ((pieces.map (filterOf wild b.options.bloomBitsPerKey)).take i).flatten.length % 2 ^ 32
  file : b.file = bytes pieces
  crc : b.crc = crc32 b.file 0
  sealed : ∀ p ∈ pieces, Sealed (pairs p.entries) p.block
  counts : b.Counts (entriesOf pieces ++ cur)

/-- The same, with lengths that fit. -/
structure Builder.Holds (b : Builder) (pieces : List Piece) (cur : List Entry) : Prop
    extends b.Fills wild pieces cur where
  blocks : ∀ p ∈ pieces, p.block.length < 2 ^ 32 ∧
    p.entries.length * b.options.bloomBitsPerKey < 8 * 2 ^ 32
  small : cur ≠ [] → b.dataBlock.currentSizeEstimate < 2 ^ 32 ∧
    cur.length * b.options.bloomBitsPerKey < 8 * 2 ^ 32

variable {wild} {b : Builder} {pieces : List Piece} {cur : List Entry} {es : List Entry}

theorem counts_new (options : TableOptions) : (Builder.new options).Counts [] :=
  ⟨rfl, nofun, rfl, nofun, nofun, nofun, nofun⟩

theorem fills_new (options : TableOptions) : (Builder.new options).Fills wild [] [] where
  dataBlock := BlockBuilder.holds_new _
  indexBlock := BlockBuilder.holds_new _
  blockUserKeys := rfl
  filters := rfl
  filterOffsets := rfl
  file := rfl
  crc := by
    show (0 : UInt32) = crc32 [] 0
    decide
  sealed := nofun
  counts := counts_new options

theorem holds_new (options : TableOptions) : (Builder.new options).Holds wild [] [] :=
  ⟨fills_new options, nofun, absurd rfl⟩

theorem Builder.Counts.append (h : b.Counts es) (e : Entry) : (b.append e).Counts (es ++ [e]) := by
  have hlast : (es ++ [e]).getLast? = some e := getLast?_concat
  cases es with
  | nil =>
    have hkey : b.hasLastKey = false := h.hasLastKey
    unfold Builder.append
    rw [hkey]
    refine ⟨rfl, ?_, congrArg (· + 1) h.numEntries, ?_, ?_, ?_, ?_⟩ <;> rintro x ⟨⟩ <;> rfl
  | cons x xs =>
    have hkey : b.hasLastKey = true := h.hasLastKey
    have hmin := h.smallestSeq x rfl
    have hmax := h.largestSeq x rfl
    have hsmallest := h.smallestUserKey x rfl
    unfold Builder.append
    rw [hkey]
    refine ⟨rfl, ?_, ?_, ?_, ?_, ?_, ?_⟩
    · rw [hlast]
      rintro y ⟨⟩
      rfl
    · rw [length_append]
      exact congrArg (· + 1) h.numEntries
    · rintro y ⟨⟩
      rw [map_append, foldl_append]
      exact congrArg (min · e.seq) hmin
    · rintro y ⟨⟩
      rw [map_append, foldl_append]
      exact congrArg (max · e.seq) hmax
    · rintro y ⟨⟩
      exact hsmallest
    · rw [hlast]
      rintro y ⟨⟩
      rfl

theorem Builder.Counts.flushDataBlock (h : b.Counts es) : (b.flushDataBlock wild).Counts es := by
  unfold Builder.flushDataBlock
  split
  · exact h
  · exact ⟨h.hasLastKey, h.lastInternalKey, h.numEntries, h.smallestSeq, h.largestSeq,
      h.smallestUserKey, h.largestUserKey⟩

theorem append_frame (b : Builder) (e : Entry) :
    (b.append e).options = b.options ∧ (b.append e).dataBlock = b.dataBlock.add (keyOf e) e.value ∧
    (b.append e).blockUserKeys = b.blockUserKeys ++ [e.user] ∧
    (b.append e).indexBlock = b.indexBlock ∧ (b.append e).filters = b.filters ∧
    (b.append e).filterOffsets = b.filterOffsets ∧ (b.append e).file = b.file ∧
    (b.append e).crc = b.crc := by
  unfold Builder.append
  cases b.hasLastKey <;> exact ⟨rfl, rfl, rfl, rfl, rfl, rfl, rfl, rfl⟩

theorem Builder.Fills.append (h : b.Fills wild pieces cur) (e : Entry) :
    (b.append e).Fills wild pieces (cur ++ [e]) := by
  have hcounts := h.counts.append e
  rw [append_assoc] at hcounts
  obtain ⟨hopt, hdata, hkeys, hindex, hfilters, hoffsets, hfile, hcrc⟩ := append_frame b e
  have hpairs : pairs cur ++ [(keyOf e, e.value)] = pairs (cur ++ [e]) := by simp [pairs]
  refine ⟨?_, ?_, ?_, ?_, ?_, ?_, ?_, h.sealed, hcounts⟩
  · rw [hdata, ← hpairs]
    exact h.dataBlock.add _ _
  · rw [hindex]
    exact h.indexBlock
  · rw [hkeys, h.blockUserKeys, map_append]
    rfl
  · rw [hfilters, hopt]
    exact h.filters
  · rw [hoffsets, hopt]
    exact h.filterOffsets
  · rw [hfile]
    exact h.file
  · rw [hcrc, hfile]
    exact h.crc

theorem Builder.Fills.foldl (es : List Entry) (h : b.Fills wild [] cur) :
    (es.foldl Builder.append b).Fills wild [] (cur ++ es) := by
  induction es generalizing b cur with
  | nil => rwa [append_nil]
  | cons e es ih =>
    rw [append_cons]
    exact ih (h.append e)

theorem Builder.Holds.append (h : b.Holds wild pieces cur) (e : Entry)
    (hsize : (b.append e).dataBlock.currentSizeEstimate < 2 ^ 32)
    (hbits : (b.append e).blockUserKeys.length * b.options.bloomBitsPerKey < 8 * 2 ^ 32) :
    (b.append e).Holds wild pieces (cur ++ [e]) := by
  have happend := h.toFills.append e
  have hopt := (append_frame b e).1
  rw [happend.blockUserKeys, length_map] at hbits
  refine ⟨happend, ?_, fun _ => ⟨hsize, hopt ▸ hbits⟩⟩
  rw [hopt]
  exact h.blocks

theorem pairs_eq_nil {es : List Entry} : pairs es = [] ↔ es = [] := map_eq_nil_iff

theorem Builder.Fills.empty_iff (h : b.Fills wild pieces cur) :
    b.dataBlock.empty = true ↔ cur = [] := by
  rw [h.dataBlock.empty_iff, pairs_eq_nil]

theorem options_flushDataBlock (b : Builder) : (b.flushDataBlock wild).options = b.options := by
  unfold Builder.flushDataBlock
  split <;> rfl

/-- **Sealing a block** moves what was being filled to the pieces. -/
theorem Builder.Fills.flushDataBlock (h : b.Fills wild pieces cur) (hcur : cur ≠ []) :
    (b.flushDataBlock wild).Fills wild (pieces ++ [⟨cur, b.dataBlock.finish⟩]) [] := by
  have hcounts : (b.flushDataBlock wild).Counts (entriesOf pieces ++ cur) := h.counts.flushDataBlock
  have hsealed := h.dataBlock.sealed (fun hnil => hcur (pairs_eq_nil.mp hnil))
  have hlast : b.lastInternalKey = Piece.lastKey ⟨cur, b.dataBlock.finish⟩ := by
    have hmem : cur.getLast? = some (cur.getLast hcur) := getLast?_eq_some_getLast hcur
    rw [Piece.lastKey, hmem]
    refine h.counts.lastInternalKey _ ?_
    rw [getLast?_append, hmem]
    rfl
  unfold Builder.flushDataBlock at hcounts ⊢
  rw [if_neg (mt h.empty_iff.mp hcur)] at hcounts ⊢
  refine ⟨BlockBuilder.holds_new _, ?_, rfl, ?_, ?_, ?_, ?_, ?_, ?_⟩
  · have hindex := h.indexBlock.add b.lastInternalKey
      (Builder.handle b.file.length b.dataBlock.finish.length)
    rw [handles_concat, indexPairs, map_append, Nat.zero_add, ← h.file, ← hlast]
    exact hindex
  · rw [h.filters, h.blockUserKeys]
    simp [filterOf]
  · dsimp only
    rw [h.filterOffsets, h.filters, length_append, length_singleton, range_succ,
      map_append, map_append]
    refine congrArg₂ (· ++ ·) (map_congr_left fun i hi => ?_) ?_
    · have hlt : i < pieces.length := mem_range.mp hi
      rw [take_append_of_le_length (by rw [length_map]; omega)]
    · have hall : (pieces.map (filterOf wild b.options.bloomBitsPerKey) ++
          [⟨cur, b.dataBlock.finish⟩].map (filterOf wild b.options.bloomBitsPerKey)).take
            pieces.length = pieces.map (filterOf wild b.options.bloomBitsPerKey) :=
        take_left' (length_map _)
      rw [map_singleton, hall]
  · dsimp only
    rw [h.file]
    simp [bytes]
  · dsimp only
    rw [crc32_append, h.crc]
  · intro p hp
    rcases mem_append.mp hp with hp | hp
    · exact h.sealed p hp
    · rw [mem_singleton.mp hp]
      exact hsealed
  · have hall : entriesOf (pieces ++ [⟨cur, b.dataBlock.finish⟩]) ++ [] =
        entriesOf pieces ++ cur := by simp [entriesOf]
    rw [hall]
    exact hcounts

theorem indexBlock_flushDataBlock (b : Builder) (e : Entry) :
    ((b.append e).flushDataBlock wild).indexBlock = b.indexBlock.add (keyOf e)
      (Builder.handle b.file.length (b.append e).dataBlock.finish.length) := by
  have hne : ¬ (b.append e).dataBlock.empty = true := by
    rw [(append_frame b e).2.1, BlockBuilder.add, BlockBuilder.empty]
    split <;> exact Bool.false_ne_true
  rw [Builder.flushDataBlock, if_neg hne]
  unfold Builder.append
  cases b.hasLastKey <;> rfl

theorem Builder.Fills.flush_nil (h : b.Fills wild pieces []) : b.flushDataBlock wild = b := by
  rw [Builder.flushDataBlock, if_pos (h.empty_iff.mpr rfl)]

theorem Builder.Holds.flushDataBlock (h : b.Holds wild pieces cur) :
    ∃ pieces', (b.flushDataBlock wild).Holds wild pieces' [] ∧
      entriesOf pieces' = entriesOf pieces ++ cur := by
  by_cases hcur : cur = []
  · subst hcur
    exact ⟨pieces, by rwa [h.flush_nil], (append_nil _).symm⟩
  · obtain ⟨hsize, hbits⟩ := h.small hcur
    refine ⟨pieces ++ [⟨cur, b.dataBlock.finish⟩],
      ⟨h.toFills.flushDataBlock hcur, ?_, absurd rfl⟩, by simp [entriesOf]⟩
    rw [options_flushDataBlock]
    intro p hp
    rcases mem_append.mp hp with hp | hp
    · exact h.blocks p hp
    · rw [mem_singleton.mp hp]
      exact ⟨by rw [BlockBuilder.length_finish]; exact hsize, hbits⟩

theorem Builder.Counts.accepts {e : Entry} (h : b.Counts es) (hinc : Increasing (es ++ [e]))
    (hsmall : Small (es ++ [e])) : ¬ (b.hasLastKey && !internalKeyLess b.lastInternalKey
      (encodeInternalKey e.user e.seq e.type)) = true := by
  rw [← keyOf, Bool.and_eq_true, h.hasLastKey]
  rintro ⟨hne, hless⟩
  obtain ⟨x, hx⟩ : ∃ x, es.getLast? = some x := by
    cases hlast : es.getLast? with
    | none =>
      rw [getLast?_eq_none_iff.mp hlast] at hne
      cases hne
    | some x => exact ⟨x, rfl⟩
  have hmem := mem_of_getLast? hx
  have hxe : x.internalKey.less e.internalKey :=
    (pairwise_append.mp hinc).2.2 x hmem e mem_cons_self
  rw [h.lastInternalKey x hx, (less_keyOf (hsmall x (mem_append_left _ hmem))
    (hsmall e (by simp))).mpr hxe] at hless
  cases hless

theorem addAll_append {b' : Builder} (fs : List Entry) (h : b.addAll wild es = .ok b') :
    b.addAll wild (es ++ fs) = b'.addAll wild fs := by
  induction es generalizing b with
  | nil => rw [← Except.ok.inj h, nil_append]
  | cons e es ih =>
    rw [Builder.addAll] at h
    rw [cons_append, Builder.addAll]
    cases hadd : b.add wild e with
    | error status =>
      rw [hadd] at h
      cases h
    | ok b₁ =>
      rw [hadd] at h
      exact ih h

/-- Whatever the lengths, every entry of an increasing list is accepted. -/
theorem Builder.Counts.addAll {rest : List Entry} : ∀ {b : Builder} {es : List Entry},
    b.Counts es → Increasing (es ++ rest) → Small (es ++ rest) →
      ∃ b', b.addAll wild rest = .ok b' := by
  induction rest with
  | nil =>
    intro b es _ _ _
    exact ⟨b, rfl⟩
  | cons e rest ih =>
    intro b es h hinc hsmall
    rw [append_cons] at hinc hsmall
    have haccept := h.accepts (pairwise_append.mp hinc).1
      (fun x hx => hsmall x (mem_append_left _ hx))
    have happend := h.append e
    rw [Builder.addAll, Builder.add, if_neg haccept]
    dsimp only
    by_cases hfull : (b.append e).options.blockSize ≤ (b.append e).dataBlock.currentSizeEstimate
    · rw [if_pos hfull]
      exact ih happend.flushDataBlock hinc hsmall
    · rw [if_neg hfull]
      exact ih happend hinc hsmall

/-- **Every entry of a strictly increasing list is accepted**, and the builder then holds
them all. -/
theorem addAll_holds {rest : List Entry} : ∀ {b : Builder} {pieces : List Piece} {cur : List Entry},
    b.Holds wild pieces cur → Increasing (entriesOf pieces ++ cur ++ rest) →
    Small (entriesOf pieces ++ cur ++ rest) → Fits wild b rest →
    ∃ b' pieces', b.addAll wild rest = .ok b' ∧ (b'.flushDataBlock wild).Holds wild pieces' [] ∧
      entriesOf pieces' = entriesOf pieces ++ cur ++ rest ∧ Fits wild b' [] ∧
      b'.options = b.options := by
  induction rest with
  | nil =>
    intro b pieces cur h _ _ hfits
    obtain ⟨pieces', h', hall⟩ := h.flushDataBlock
    exact ⟨b, pieces', rfl, h', by rw [hall, append_nil], hfits, rfl⟩
  | cons e rest ih =>
    intro b pieces cur h hinc hsmall hfits
    obtain ⟨hsize, hbits, hrest⟩ := hfits
    have hmove : entriesOf pieces ++ cur ++ e :: rest =
        entriesOf pieces ++ cur ++ [e] ++ rest := by simp
    rw [hmove] at hinc hsmall ⊢
    have haccept := h.counts.accepts (pairwise_append.mp hinc).1
      (fun x hx => hsmall x (mem_append_left _ hx))
    have happend := h.append e hsize hbits
    obtain ⟨b', pieces', cur', hadd, h', hall, hopt⟩ : ∃ b' pieces' cur', b.add wild e = .ok b' ∧
        b'.Holds wild pieces' cur' ∧ entriesOf pieces' ++ cur' = entriesOf pieces ++ cur ++ [e] ∧
        b'.options = b.options := by
      unfold Builder.add
      rw [if_neg haccept]
      dsimp only
      have hopt := (append_frame b e).1
      split
      · obtain ⟨pieces', h', hall⟩ := happend.flushDataBlock
        refine ⟨_, pieces', [], rfl, h', by rw [append_nil, hall, append_assoc], ?_⟩
        rw [options_flushDataBlock, hopt]
      · exact ⟨_, pieces, cur ++ [e], rfl, happend, (append_assoc _ _ _).symm, hopt⟩
    rw [← hall] at hinc hsmall ⊢
    obtain ⟨b'', pieces'', hall', hlast, hents, hfits', hopt'⟩ := ih h' hinc hsmall (hrest b' hadd)
    refine ⟨b'', pieces'', ?_, hlast, hents, hfits', hopt'.trans hopt⟩
    rw [Builder.addAll, hadd]
    exact hall'

end Build

end BedrockKV.Sst
