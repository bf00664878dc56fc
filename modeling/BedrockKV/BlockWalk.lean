/-
# `BedrockKV.BlockWalk` — any block, read from any position

`BlockRead` reads a block of under `2 ^ 32` bytes from its beginning.  Here the
list and the restart interval are arbitrary, and so is what the reader has done
before.  `pack` says how the builder compresses a list, and `starts` where the
restart points are, both without machine words:

    the block is `pack` with the offsets `starts`, cut to 32 bits   (`build_eq`)
    a walk from the beginning shows the list iff the lengths fit
                                          (`fits_of_yields`, `Stands.yields`)
    if the offsets fit too, every seek does, from every position    (`reads_of_fits`)

A length that does not fit is noticed at its entry: with a shorter key or value
the walk has left the list there.  A number of restart points that does not fit
makes the reader take the rest of them for an entry.
-/
import BedrockKV.Lib.Loop
import BedrockKV.Merging

namespace BedrockKV

open List Chunks Loop

/-! ## The block of a list -/

/-- The entries of a list, and whether a restart point is noted for them: `counter` entries after
the last one, and after the key `last`. -/
def packFrom (interval : Nat) : Nat → Bytes → List (Bytes × Bytes) → List (Bool × Packed)
  | _, _, [] => []
  | counter, last, (key, value) :: kvs =>
    if counter < interval then
      (false, ⟨sharedPrefix last key, key, value⟩) :: packFrom interval (counter + 1) key kvs
    else (true, ⟨0, key, value⟩) :: packFrom interval 1 key kvs

def pack (interval : Nat) (kvs : List (Bytes × Bytes)) : List Packed :=
  (packFrom interval 0 [] kvs).map Prod.snd

/-- The offsets of the restart points that are noted, the first entry being at `offset`. -/
def startsFrom : Nat → List (Bool × Packed) → List Nat
  | _, [] => []
  | offset, (noted, p) :: ps =>
    if noted then offset :: startsFrom (offset + p.bytes.length) ps
    else startsFrom (offset + p.bytes.length) ps

/-- The first offset is always there. -/
def starts (interval : Nat) (kvs : List (Bytes × Bytes)) : List Nat :=
  0 :: startsFrom 0 (packFrom interval 0 [] kvs)

def BlockBuilder.addAll (b : BlockBuilder) (kvs : List (Bytes × Bytes)) : BlockBuilder :=
  kvs.foldl (fun b kv => b.add kv.1 kv.2) b

/-- What a builder makes of a list. -/
def BlockBuilder.build (interval : Nat) (kvs : List (Bytes × Bytes)) : Bytes :=
  ((BlockBuilder.new interval).addAll kvs).finish

theorem BlockBuilder.addAll_spec (kvs : List (Bytes × Bytes)) : ∀ b : BlockBuilder,
    (b.addAll kvs).buffer = b.buffer ++
      packedBytes ((packFrom b.restartInterval b.counter b.lastKey kvs).map Prod.snd) ∧
    (b.addAll kvs).restarts = b.restarts ++ (startsFrom b.buffer.length
      (packFrom b.restartInterval b.counter b.lastKey kvs)).map (· % 2 ^ 32) := by
  induction kvs with
  | nil =>
    intro b
    exact ⟨(append_nil _).symm, (append_nil _).symm⟩
  | cons kv kvs ih =>
    intro b
    obtain ⟨key, value⟩ := kv
    obtain ⟨hbuffer, hrestarts⟩ := ih (b.add key value)
    have hfold : b.addAll ((key, value) :: kvs) = (b.add key value).addAll kvs := rfl
    rw [hfold, hbuffer, hrestarts, packFrom]
    by_cases hroom : b.counter < b.restartInterval
    · rw [BlockBuilder.add, if_pos hroom, if_pos hroom]
      simp [BlockBuilder.append, packedBytes_cons, startsFrom, Packed.bytes]
    · rw [BlockBuilder.add, if_neg hroom, if_neg hroom]
      simp [BlockBuilder.append, packedBytes_cons, startsFrom, Packed.bytes]

theorem build_eq (interval : Nat) (kvs : List (Bytes × Bytes)) :
    BlockBuilder.build interval kvs =
      blockBytes (pack interval kvs) ((starts interval kvs).map (· % 2 ^ 32)) := by
  obtain ⟨hbuffer, hrestarts⟩ := BlockBuilder.addAll_spec kvs (BlockBuilder.new interval)
  rw [BlockBuilder.build, BlockBuilder.finish, hbuffer, hrestarts]
  rfl

theorem packFrom_pairs (interval : Nat) (kvs : List (Bytes × Bytes)) : ∀ counter last,
    ((packFrom interval counter last kvs).map Prod.snd).map Packed.pair = kvs := by
  induction kvs with
  | nil => exact fun _ _ => rfl
  | cons kv kvs ih =>
    intro counter last
    rw [packFrom]
    split <;> exact congrArg (_ :: ·) (ih _ _)

theorem pack_pairs (interval : Nat) (kvs : List (Bytes × Bytes)) :
    (pack interval kvs).map Packed.pair = kvs := packFrom_pairs interval kvs 0 []

theorem packFrom_follows (interval : Nat) (kvs : List (Bytes × Bytes)) : ∀ counter last,
    Follows last ((packFrom interval counter last kvs).map Prod.snd) := by
  induction kvs with
  | nil => exact fun _ _ => trivial
  | cons kv kvs ih =>
    intro counter last
    rw [packFrom]
    split
    · exact ⟨sharedPrefix_spec _ _, ih _ _⟩
    · exact ⟨⟨Nat.zero_le _, rfl⟩, ih _ _⟩

theorem packFrom_noted (interval : Nat) (kvs : List (Bytes × Bytes)) : ∀ counter last,
    ∀ x ∈ packFrom interval counter last kvs, x.1 = true → x.2.shared = 0 := by
  induction kvs with
  | nil => exact nofun
  | cons kv kvs ih =>
    intro counter last x hx hnoted
    rw [packFrom] at hx
    split at hx
    · rcases mem_cons.mp hx with rfl | hx
      · cases hnoted
      · exact ih _ _ x hx hnoted
    · rcases mem_cons.mp hx with rfl | hx
      · rfl
      · exact ih _ _ x hx hnoted

theorem mem_startsFrom {ps : List (Bool × Packed)}
    (hnoted : ∀ x ∈ ps, x.1 = true → x.2.shared = 0) :
    ∀ {offset r : Nat}, r ∈ startsFrom offset ps → ∃ before p after,
      ps.map Prod.snd = before ++ p :: after ∧ p.shared = 0 ∧
        r = offset + (packedBytes before).length := by
  induction ps with
  | nil => exact nofun
  | cons x ps ih =>
    obtain ⟨noted, p⟩ := x
    intro offset r hr
    have hlater : r ∈ startsFrom (offset + p.bytes.length) ps → ∃ before q after,
        ((noted, p) :: ps).map Prod.snd = before ++ q :: after ∧ q.shared = 0 ∧
          r = offset + (packedBytes before).length := by
      intro hr
      obtain ⟨before, q, after, heq, hq, rfl⟩ := ih (fun x hx => hnoted x (mem_cons_of_mem _ hx)) hr
      refine ⟨p :: before, q, after, congrArg (p :: ·) heq, hq, ?_⟩
      rw [packedBytes_cons, length_append, Nat.add_assoc]
    rw [startsFrom] at hr
    split at hr
    · next hn =>
      rcases mem_cons.mp hr with rfl | hr
      · exact ⟨[], p, ps.map Prod.snd, rfl, hnoted _ mem_cons_self hn, rfl⟩
      · exact hlater hr
    · exact hlater hr

section Starts

variable {interval : Nat} {kvs : List (Bytes × Bytes)}

theorem mem_starts (hne : kvs ≠ []) {r : Nat} (hr : r ∈ starts interval kvs) : ∃ before p after,
    pack interval kvs = before ++ p :: after ∧ p.shared = 0 ∧ r = (packedBytes before).length := by
  rcases mem_cons.mp hr with rfl | hr
  · obtain ⟨kv, kvs, rfl⟩ := exists_cons_of_ne_nil hne
    rw [pack, packFrom]
    split
    · exact ⟨[], _, _, rfl, rfl, rfl⟩
    · exact ⟨[], _, _, rfl, rfl, rfl⟩
  · obtain ⟨before, p, after, heq, hp, hr⟩ := mem_startsFrom (packFrom_noted interval kvs 0 []) hr
    exact ⟨before, p, after, heq, hp, by rw [hr, Nat.zero_add]⟩

theorem layout_block (interval : Nat) (hne : kvs ≠ []) :
    Layout (pack interval kvs) ((starts interval kvs).map (· % 2 ^ 32)) := by
  refine ⟨packFrom_follows interval kvs 0 [], rfl, fun r hr => ?_⟩
  obtain ⟨s, hs, rfl⟩ := mem_map.mp hr
  obtain ⟨before, p, after, heq, hp, rfl⟩ := mem_starts hne hs
  exact ⟨before, p, after, heq, hp, rfl⟩

theorem placed_block (hne : kvs ≠ []) (hstarts : ∀ r ∈ starts interval kvs, r < 2 ^ 32) :
    BlockPlaced (pack interval kvs) ((starts interval kvs).map (· % 2 ^ 32)) := by
  intro r hr
  obtain ⟨s, hs, rfl⟩ := mem_map.mp hr
  obtain ⟨before, p, after, heq, hp, rfl⟩ := mem_starts hne hs
  rw [Nat.mod_eq_of_lt (hstarts _ hs)]
  exact ⟨hstarts _ hs, before, p, after, heq, hp, rfl⟩

end Starts

/-! ## The reader, after any moves -/

namespace Block

/-- A walk from here to the end shows these pairs. -/
def Yields : Block → List (Bytes × Bytes) → Prop :=
  Walks Block.valid (fun b => (b.keyScratch, b.curValue)) Block.next

inductive Move where
  | seekToFirst
  | seek (target : Bytes)
  | next

def move (b : Block) : Move → Block
  | .seekToFirst => b.seekToFirst
  | .seek target => b.seek target
  | .next => b.next

/-- A reader of a block, after some moves. -/
def position (contents : Bytes) (moves : List Move) : Block := moves.foldl move (Block.new contents)

end Block

section Moves

variable {ps : List Packed} {restarts : List Nat} {b : Block}

theorem Block.Stands.yields (hfollows : Follows [] ps) (hfits : ∀ p ∈ ps, p.Fits)
    {rest : List Packed} : ∀ {b : Block} {before : List Packed}, b.Stands ps restarts before rest →
      b.Yields (rest.map Packed.pair) := by
  induction rest with
  | nil =>
    intro b before h
    exact walks_nil h.valid
  | cons p rest ih =>
    intro b before h
    obtain ⟨hkey, hvalue, -⟩ := h.entry p rfl
    have hwalk : b.Yields ((b.keyScratch, b.curValue) :: rest.map Packed.pair) :=
      walks_cons h.valid (ih (h.next hfollows hfits))
    rwa [hkey, hvalue] at hwalk

/-- The reader of an intact block is at an entry, or invalid. -/
def Block.Somewhere (b : Block) (ps : List Packed) (restarts : List Nat) : Prop :=
  b.Over ps restarts ∧ (b.valid = true → ∃ before rest, b.Stands ps restarts before rest)

theorem Block.Stands.somewhere {before rest : List Packed} (h : b.Stands ps restarts before rest) :
    b.Somewhere ps restarts := ⟨h.toOver, fun _ => ⟨before, rest, h⟩⟩

theorem Block.Somewhere.move (h : b.Somewhere ps restarts) (hlayout : Layout ps restarts)
    (hfits : ∀ p ∈ ps, p.Fits) (hplaced : BlockPlaced ps restarts)
    (horder : ∀ target, Upto (fun p : Packed => internalKeyLess p.key target) ps)
    (m : Block.Move) : (b.move m).Somewhere ps restarts := by
  cases m with
  | seekToFirst => exact (h.1.seekToFirst hlayout.follows hfits).somewhere
  | seek target =>
    obtain ⟨before, hstands⟩ := h.1.seek hlayout hfits hplaced (horder target)
    exact hstands.somewhere
  | next =>
    cases hvalid : b.valid with
    | false =>
      have hnext : b.next = { b with valid := false } := by
        rw [Block.next, hvalid, Bool.not_false, Bool.or_true]
        rfl
      rw [Block.move, hnext]
      exact ⟨⟨h.1.data, h.1.restartArrayOffset, h.1.numRestarts, h.1.corrupted⟩,
        fun hv => (by cases hv)⟩
    | true =>
      obtain ⟨before, rest, hstands⟩ := h.2 hvalid
      cases rest with
      | nil =>
        have hnot := hstands.valid
        rw [hvalid] at hnot
        cases hnot
      | cons p rest => exact (hstands.next hlayout.follows hfits).somewhere

theorem Block.new_valid (contents : Bytes) : (Block.new contents).valid = false := by
  unfold Block.new
  dsimp only
  split
  · rfl
  · split <;> rfl

theorem position_somewhere (hlayout : Layout ps restarts) (hfits : BlockFits ps restarts)
    (hplaced : BlockPlaced ps restarts)
    (horder : ∀ target, Upto (fun p : Packed => internalKeyLess p.key target) ps)
    (moves : List Block.Move) :
    (Block.position (blockBytes ps restarts) moves).Somewhere ps restarts := by
  induction moves using List.reverseRecOn with
  | nil =>
    refine ⟨hlayout.new_over hfits.count, fun hv => ?_⟩
    rw [Block.position, foldl_nil, Block.new_valid] at hv
    cases hv
  | append_singleton moves m ih =>
    rw [Block.position, foldl_append]
    exact ih.move hlayout hfits.entries hplaced horder m

theorem position_corrupted {contents : Bytes} (h : (Block.new contents).corrupted = true)
    (moves : List Block.Move) : (Block.position contents moves).corrupted = true := by
  induction moves using List.reverseRecOn with
  | nil => exact h
  | append_singleton moves m ih =>
    rw [Block.position, foldl_append]
    change ((Block.position contents moves).move m).corrupted = true
    cases m with
    | seekToFirst => simp [Block.move, Block.seekToFirst, ih]
    | seek target => simp [Block.move, Block.seek, ih]
    | next => simp [Block.move, Block.next, ih]

end Moves

section Reads

variable {interval : Nat} {kvs : List (Bytes × Bytes)}

/-- From any position, `SeekToFirst` and a walk show the list, and `Seek` and a walk the part of it
from the target on. -/
def Block.Reads (contents : Bytes) (kvs : List (Bytes × Bytes)) : Prop :=
  ∀ moves, (Block.position contents moves).seekToFirst.Yields kvs ∧
    ∀ target, ((Block.position contents moves).seek target).Yields
      (kvs.dropWhile fun kv => internalKeyLess kv.1 target)

theorem reads_nil (interval : Nat) : Block.Reads (BlockBuilder.build interval []) [] := by
  -- its only restart point is not before the end of its entries
  have hnew : (Block.new (BlockBuilder.build interval [])).corrupted = true := by
    change (Block.new (BlockBuilder.build 0 [])).corrupted = true
    decide +kernel
  intro moves
  have hcorrupted := position_corrupted hnew moves
  refine ⟨walks_nil ?_, fun target => walks_nil ?_⟩
  · rw [Block.seekToFirst, if_pos hcorrupted]
  · rw [Block.seek, if_pos hcorrupted]

/-- **Every move finds its place**, if the lengths and the offsets fit. -/
theorem reads_of_fits (hinc : kvs.Pairwise fun a b => pairLess a b = true)
    (hfits : BlockFits (pack interval kvs) (starts interval kvs))
    (hstarts : ∀ r ∈ starts interval kvs, r < 2 ^ 32) :
    Block.Reads (BlockBuilder.build interval kvs) kvs := by
  by_cases hne : kvs = []
  · subst hne
    exact reads_nil interval
  · have hlayout := layout_block interval hne
    have hplaced := placed_block hne hstarts
    have horder : ∀ target, Upto (fun p : Packed => internalKeyLess p.key target)
        (pack interval kvs) := by
      intro target
      have hupto : Upto (fun kv : Bytes × Bytes => internalKeyLess kv.1 target) kvs :=
        hinc.imp fun hab hb => internalKeyLess_weakOrder.trans hab hb
      rw [← pack_pairs interval kvs] at hupto
      exact pairwise_map.mp hupto
    have hfits' : BlockFits (pack interval kvs) ((starts interval kvs).map (· % 2 ^ 32)) :=
      ⟨hfits.entries, by rw [length_map]; exact hfits.count⟩
    intro moves
    have hsomewhere := position_somewhere hlayout hfits' hplaced horder moves
    rw [← build_eq] at hsomewhere
    refine ⟨?_, fun target => ?_⟩
    · have hwalk := (hsomewhere.1.seekToFirst hlayout.follows hfits.entries).yields hlayout.follows
        hfits.entries
      rwa [pack_pairs] at hwalk
    · obtain ⟨before, hstands⟩ := hsomewhere.1.seek hlayout hfits.entries hplaced (horder target)
      have hwalk := hstands.yields hlayout.follows hfits.entries
      nth_rewrite 2 [← pack_pairs interval kvs]
      rwa [dropWhile_map]

/-! ## A walk that shows the list -/

theorem Block.parseEntry_eq {b : Block} {n : Nat} (h : (b.parseEntry n).1 = true) :
    b.parseEntry n = (true, { b with
      valid := false
      keyScratch := b.keyScratch.take (getFixed32 (b.data.drop n)) ++
        (b.data.drop (n + kHeaderSize)).take (getFixed32 (b.data.drop (n + 4)))
      curValue := (b.data.drop (n + kHeaderSize + getFixed32 (b.data.drop (n + 4)))).take
        (getFixed32 (b.data.drop (n + 8)))
      entryEnd := n + kHeaderSize + getFixed32 (b.data.drop (n + 4)) +
        getFixed32 (b.data.drop (n + 8)) }) := by
  unfold Block.parseEntry at h ⊢
  dsimp only at h ⊢
  by_cases hend : n = b.restartArrayOffset
  · rw [if_pos hend] at h
    cases h
  rw [if_neg hend] at h ⊢
  by_cases hheader : b.restartArrayOffset < n ∨ b.restartArrayOffset < n + kHeaderSize
  · rw [if_pos hheader] at h
    cases h
  rw [if_neg hheader] at h ⊢
  by_cases hshared : b.keyScratch.length < getFixed32 (b.data.drop n)
  · rw [if_pos hshared] at h
    cases h
  rw [if_neg hshared] at h ⊢
  by_cases hpayload : b.restartArrayOffset - n - kHeaderSize <
      getFixed32 (b.data.drop (n + 4)) + getFixed32 (b.data.drop (n + 8))
  · rw [if_pos hpayload] at h
    cases h
  rw [if_neg hpayload]

/-- An entry that is shown as it was packed fits its fields: a length that is cut is too short. -/
theorem fits_of_shown {b : Block} {ps before rest : List Packed} {p : Packed} {tail : Bytes}
    (hfollows : Follows [] ps) (hdata : b.data = packedBytes ps ++ tail)
    (hps : ps = before ++ p :: rest) (hparse : (b.parseEntry (packedBytes before).length).1 = true)
    (hshown : ((b.parseEntry (packedBytes before).length).2.keyScratch,
      (b.parseEntry (packedBytes before).length).2.curValue) = p.pair) :
    p.Fits ∧ (b.parseEntry (packedBytes before).length).2.entryEnd =
      (packedBytes (before ++ [p])).length := by
  obtain ⟨X, h₀, h₄, h₈, -⟩ := drop_packed hdata hps
  have hle := hfollows.shared_le hps
  have hshared : getFixed32 (b.data.drop (packedBytes before).length) = p.shared % 2 ^ 32 := by
    rw [h₀]
    exact getFixed_putFixed 4 _ _
  have hnonShared : getFixed32 (b.data.drop ((packedBytes before).length + 4)) =
      (p.key.length - p.shared) % 2 ^ 32 := by
    rw [h₄]
    exact getFixed_putFixed 4 _ _
  have hvalue : getFixed32 (b.data.drop ((packedBytes before).length + 8)) =
      p.value.length % 2 ^ 32 := by
    rw [Nat.add_assoc] at h₈
    rw [h₈]
    exact getFixed_putFixed 4 _ _
  rw [Block.parseEntry_eq hparse, hshared, hnonShared, hvalue] at hshown ⊢
  obtain ⟨hkey, hval⟩ := Prod.mk.inj hshown
  have hkeyLen := congrArg List.length hkey
  have hvalLen := congrArg List.length hval
  simp only [length_append, length_take] at hkeyLen hvalLen
  have hfits : p.Fits := ⟨by omega, by omega, by omega⟩
  refine ⟨hfits, ?_⟩
  rw [length_packedBytes_concat]
  dsimp only
  rw [Nat.mod_eq_of_lt hfits.nonShared, Nat.mod_eq_of_lt hfits.value]

/-- A walk that shows the entries from here on reads them where they were packed. -/
theorem fits_of_walk {ps : List Packed} {tail : Bytes} (hfollows : Follows [] ps)
    {rest : List Packed} :
    ∀ {b : Block} {before : List Packed}, b.data = packedBytes ps ++ tail → b.corrupted = false →
      ps = before ++ rest → (b.moveTo (packedBytes before).length).Yields (rest.map Packed.pair) →
      (∀ p ∈ rest, p.Fits) ∧ ∃ b' : Block, b'.data = b.data ∧
        b'.restartArrayOffset = b.restartArrayOffset ∧
        (b'.moveTo (packedBytes ps).length).Yields [] := by
  induction rest with
  | nil =>
    intro b before _ _ hps hwalk
    rw [append_nil] at hps
    subst hps
    exact ⟨nofun, b, rfl, rfl, hwalk⟩
  | cons p rest ih =>
    intro b before hdata hsound hps hwalk
    cases hvalid : (b.parseEntry (packedBytes before).length).1 with
    | false =>
      have hnil := hwalk.eq_nil hvalid
      cases hnil
    | true =>
      obtain ⟨ys, hcons, hnext⟩ := hwalk.eq_cons hvalid
      obtain ⟨hhead, rfl⟩ := List.cons.inj hcons
      obtain ⟨hfits, hend⟩ := fits_of_shown hfollows hdata hps hvalid hhead.symm
      have heq := Block.parseEntry_eq hvalid
      have hmove : (b.moveTo (packedBytes before).length).next =
          (b.moveTo (packedBytes before).length).moveTo (packedBytes (before ++ [p])).length := by
        rw [← hend, Block.next, Block.moveTo, hvalid, heq]
        simp [hsound]
      rw [hmove] at hnext
      have hdata' : (b.moveTo (packedBytes before).length).data = b.data := by
        rw [Block.moveTo, heq]
      have hoff' : (b.moveTo (packedBytes before).length).restartArrayOffset =
          b.restartArrayOffset := by
        rw [Block.moveTo, heq]
      have hsound' : (b.moveTo (packedBytes before).length).corrupted = false := by
        rw [Block.moveTo, heq]
        exact hsound
      obtain ⟨hrest, b', hb', hoff, hlast⟩ := ih (hdata'.trans hdata) hsound'
        (by rw [hps, append_assoc]; rfl) hnext
      refine ⟨?_, b', hb'.trans hdata', hoff.trans hoff', hlast⟩
      intro q hq
      rcases mem_cons.mp hq with rfl | hq
      · exact hfits
      · exact hrest q hq

theorem Block.new_fields {contents : Bytes} (h : (Block.new contents).corrupted = false) :
    (Block.new contents).data = contents ∧ (Block.new contents).restartArrayOffset =
      contents.length - (getFixed32 (contents.drop (contents.length - 4)) + 1) * 4 := by
  unfold Block.new at h ⊢
  dsimp only at h ⊢
  by_cases hshort : contents.length < 4
  · rw [if_pos hshort] at h
    cases h
  rw [if_neg hshort] at h ⊢
  by_cases htrailer : contents.length < (getFixed32 (contents.drop (contents.length - 4)) + 1) * 4 ∨
      getFixed32 (contents.drop (contents.length - 4)) = 0
  · rw [if_pos htrailer] at h
    cases h
  rw [if_neg htrailer]
  exact ⟨rfl, rfl⟩

/-- A number of restart points that is cut leaves some of them before the reader's end, and they
parse. -/
theorem parses_restarts {b : Block} {n : Nat} {rest : Bytes}
    (hdata : b.data.drop n = putFixed32 0 ++ rest) (hoff : n + 2 ^ 34 ≤ b.restartArrayOffset) :
    (b.parseEntry n).1 = true := by
  have hshared : getFixed32 (b.data.drop n) = 0 := by
    rw [hdata, getFixed32_putFixed32 (by decide)]
  have hnonShared : getFixed32 (b.data.drop (n + 4)) < 2 ^ 32 := getFixed_lt 4 _
  have hvalue : getFixed32 (b.data.drop (n + 8)) < 2 ^ 32 := getFixed_lt 4 _
  unfold Block.parseEntry
  simp only [hshared, Block.kHeaderSize]
  rw [if_neg (by omega), if_neg (by omega), if_neg (by omega), if_neg (by omega)]

/-- **A walk from the beginning shows the list only if the lengths fit.** -/
theorem fits_of_yields (h : (Block.new (BlockBuilder.build interval kvs)).seekToFirst.Yields kvs) :
    BlockFits (pack interval kvs) (starts interval kvs) := by
  by_cases hne : kvs = []
  · subst hne
    exact ⟨nofun, (by decide : 1 < 2 ^ 32)⟩
  have hsound : (Block.new (BlockBuilder.build interval kvs)).corrupted = false := by
    by_contra hcorrupted
    refine hne (h.eq_nil ?_)
    rw [Block.seekToFirst, if_pos ((Bool.not_eq_false _).mp hcorrupted)]
  obtain ⟨hdata, hoff⟩ := Block.new_fields hsound
  rw [Block.seekToFirst, hsound] at h
  have hsize := length_blockBytes (pack interval kvs) ((starts interval kvs).map (· % 2 ^ 32))
  have hnum : getFixed32 ((BlockBuilder.build interval kvs).drop
    ((BlockBuilder.build interval kvs).length - 4)) =
      (starts interval kvs).length % 2 ^ 32 := by
    have hat : (BlockBuilder.build interval kvs).length - 4 = (packedBytes (pack interval kvs) ++
        ((starts interval kvs).map (· % 2 ^ 32)).flatMap putFixed32).length := by
      rw [build_eq, length_append, length_restarts]
      omega
    rw [hat, build_eq, blockBytes, drop_left, length_map]
    exact append_nil (putFixed32 _) ▸ getFixed_putFixed 4 _ []
  rw [hnum, build_eq, hsize, length_map] at hoff
  have htail : (Block.new (BlockBuilder.build interval kvs)).data =
    packedBytes (pack interval kvs) ++
      (((starts interval kvs).map (· % 2 ^ 32)).flatMap putFixed32 ++
        putFixed32 ((starts interval kvs).map (· % 2 ^ 32)).length) := by
    rw [hdata, build_eq, blockBytes, append_assoc]
  have hwalk : ((Block.new (BlockBuilder.build interval kvs)).moveTo (packedBytes []).length).Yields
      ((pack interval kvs).map Packed.pair) := by
    rw [pack_pairs]
    exact h
  obtain ⟨hentries, b', hb', hoff', hlast⟩ :=
    fits_of_walk (packFrom_follows interval kvs 0 []) htail
    hsound rfl hwalk
  refine ⟨hentries, ?_⟩
  by_contra hcount
  have hrest : b'.data.drop (packedBytes (pack interval kvs)).length = putFixed32 0 ++
      (((startsFrom 0 (packFrom interval 0 [] kvs)).map (· % 2 ^ 32)).flatMap putFixed32 ++
        putFixed32 ((starts interval kvs).map (· % 2 ^ 32)).length) := by
    rw [hb', htail, drop_left, starts, map_cons, flatMap_cons, append_assoc]
    rfl
  have hparses := parses_restarts hrest (by rw [hoff', build_eq, hoff]; omega)
  obtain ⟨ys, hcons, -⟩ := hlast.eq_cons hparses
  cases hcons

theorem yields_of_fits (hfits : BlockFits (pack interval kvs) (starts interval kvs)) :
    (Block.new (BlockBuilder.build interval kvs)).seekToFirst.Yields kvs := by
  by_cases hne : kvs = []
  · subst hne
    exact (reads_nil interval []).1
  · have hlayout := layout_block interval hne
    have hover := hlayout.new_over (by rw [length_map]; exact hfits.count)
    have hwalk :=
      (hover.seekToFirst hlayout.follows hfits.entries).yields hlayout.follows hfits.entries
    rwa [pack_pairs, ← build_eq] at hwalk

/-- **A block reads back as its list.**  A walk from the beginning shows the list exactly when the
lengths of the entries and the number of restart points fit 32 bits; if the offsets of the restart
points do as well, `SeekToFirst` and `Seek` find their place after any moves, and the walk from
there shows the rest of the list. -/
theorem block_reads (hinc : kvs.Pairwise fun a b => pairLess a b = true) (interval : Nat) :
    ((Block.new (BlockBuilder.build interval kvs)).seekToFirst.Yields kvs ↔
      BlockFits (pack interval kvs) (starts interval kvs)) ∧
    (BlockFits (pack interval kvs) (starts interval kvs) → (∀ r ∈ starts interval kvs, r < 2 ^ 32) →
      Block.Reads (BlockBuilder.build interval kvs) kvs) :=
  ⟨⟨fits_of_yields, yields_of_fits⟩, reads_of_fits hinc⟩

/-- Three keys with a restart point at the third. -/
def sampleBlock : List (Bytes × Bytes) :=
  [(ascii "key-a", ascii "1"), (ascii "key-b", ascii "2"), (ascii "kez", ascii "3")]

theorem block_reads_sampleBlock : Block.Reads (BlockBuilder.build 2 sampleBlock) sampleBlock := by
  have hinc : sampleBlock.Pairwise fun a b => pairLess a b = true := by decide +kernel
  have hfits : BlockFits (pack 2 sampleBlock) (starts 2 sampleBlock) := by
    refine ⟨?_, by decide +kernel⟩
    have hall : ∀ p ∈ pack 2 sampleBlock, p.shared < 2 ^ 32 ∧ p.key.length - p.shared < 2 ^ 32 ∧
        p.value.length < 2 ^ 32 := by decide +kernel
    exact fun p hp => ⟨(hall p hp).1, (hall p hp).2.1, (hall p hp).2.2⟩
  exact (block_reads hinc 2).2 hfits (by decide +kernel)

/-- **A value of `2 ^ 32` bytes** is lost: its length is written as zero. -/
theorem block_loses_longValue :
    ([(ascii "k", List.replicate (2 ^ 32) 0)] : List (Bytes × Bytes)).Pairwise
      (fun a b => pairLess a b = true) ∧
    ¬ (Block.new
      (BlockBuilder.build 16 [(ascii "k", List.replicate (2 ^ 32) 0)])).seekToFirst.Yields
      [(ascii "k", List.replicate (2 ^ 32) 0)] := by
  refine ⟨List.pairwise_singleton _ _, fun h => ?_⟩
  have hvalue := ((fits_of_yields h).entries _ List.mem_cons_self).value
  change (List.replicate (2 ^ 32) (0 : UInt8)).length < 2 ^ 32 at hvalue
  rw [List.length_replicate] at hvalue
  exact Nat.lt_irrefl _ hvalue

end Reads

end BedrockKV
