/-
# `BedrockKV.BlockRead` — a finished block shows what was added to it

`Sealed kvs block`: the bytes `block` are those of a builder that was given the
pairs `kvs` and finished.  `Shows block b rest`: the reader `b` of that block
stands where the pairs `rest` are still to come.

    a builder that was given `kvs` finishes a block that is `Sealed kvs`  (`Holds.sealed`)
    the first entry, the next one               (`Sealed.seekToFirst`, `Shows.next`)
    the first entry that is not less than a target                        (`Sealed.seek`)

The last needs the keys in order.  That bisection finds the last restart point
below the target is not needed for it: any restart point below it, or the
first one, will do.
-/
import BedrockKV.Block
import BedrockKV.Lib.Chunks

namespace BedrockKV

open List Chunks

/-! ## The bytes of a block -/

/-- An entry as it is stored: the key, and how much of it the previous one has. -/
structure Packed where
  shared : Nat
  key : Bytes
  value : Bytes

namespace Packed

def pair (p : Packed) : Bytes × Bytes := (p.key, p.value)

def bytes (p : Packed) : Bytes := BlockBuilder.encode p.shared p.key p.value

theorem length_bytes (p : Packed) :
    p.bytes.length = 12 + (p.key.length - p.shared) + p.value.length := by
  simp only [bytes, BlockBuilder.encode, length_append, length_putFixed32, length_drop]

end Packed

def packedBytes (ps : List Packed) : Bytes := ps.flatMap Packed.bytes

theorem packedBytes_append (ps qs : List Packed) :
    packedBytes (ps ++ qs) = packedBytes ps ++ packedBytes qs := flatMap_append

theorem packedBytes_cons (p : Packed) (ps : List Packed) :
    packedBytes (p :: ps) = p.bytes ++ packedBytes ps := flatMap_cons

theorem length_le_packedBytes (ps : List Packed) : 12 * ps.length ≤ (packedBytes ps).length := by
  induction ps with
  | nil => exact Nat.le_refl 0
  | cons p ps ih =>
    have := p.length_bytes
    rw [packedBytes_cons, length_append, length_cons]
    omega

/-- Each key shares with the one before it what it says. -/
def Follows : Bytes → List Packed → Prop
  | _, [] => True
  | last, p :: ps =>
    (p.shared ≤ last.length ∧ last.take p.shared = p.key.take p.shared) ∧ Follows p.key ps

def lastKeyOf : Bytes → List Packed → Bytes
  | last, [] => last
  | _, p :: ps => lastKeyOf p.key ps

theorem lastKeyOf_concat (ps : List Packed) (p : Packed) :
    ∀ last, lastKeyOf last (ps ++ [p]) = p.key := by
  induction ps with
  | nil => exact fun _ => rfl
  | cons q ps ih => exact fun _ => ih q.key

variable {ps : List Packed} {p : Packed}

theorem follows_append {qs : List Packed} : ∀ {last : Bytes},
    Follows last (ps ++ qs) ↔ Follows last ps ∧ Follows (lastKeyOf last ps) qs := by
  induction ps with
  | nil =>
    intro last
    exact (and_iff_right trivial).symm
  | cons p ps ih =>
    intro last
    simp only [cons_append, Follows, ih, lastKeyOf, and_assoc]

theorem Follows.length_key {qs : List Packed} : ∀ {last : Bytes},
    Follows last (ps ++ p :: qs) →
      p.key.length ≤ last.length + (packedBytes (ps ++ [p])).length := by
  induction ps with
  | nil =>
    rintro last ⟨⟨hle, -⟩, -⟩
    have := p.length_bytes
    simp only [nil_append, packedBytes, flatMap_singleton]
    omega
  | cons r ps ih =>
    rintro last ⟨⟨hle, -⟩, hrest⟩
    have := r.length_bytes
    have := ih hrest
    rw [cons_append, packedBytes_cons, length_append]
    omega

/-- A restart point: an entry with its whole key. -/
def RestartAt (ps : List Packed) (r : Nat) : Prop :=
  ∃ before p after, ps = before ++ p :: after ∧ p.shared = 0 ∧
    r = (packedBytes before).length % 2 ^ 32

theorem RestartAt.append {r : Nat} {q : Packed} (h : RestartAt ps r) : RestartAt (ps ++ [q]) r := by
  obtain ⟨before, p, after, rfl, hp, hr⟩ := h
  exact ⟨before, p, after ++ [q], by simp, hp, hr⟩

theorem restartAt_concat (hp : p.shared = 0) :
    RestartAt (ps ++ [p]) ((packedBytes ps).length % 2 ^ 32) := ⟨ps, p, [], rfl, hp, rfl⟩

/-- Entries and restart points of a block. -/
structure Layout (ps : List Packed) (restarts : List Nat) : Prop where
  follows : Follows [] ps
  first : restarts.head? = some 0
  restartAt : ∀ r ∈ restarts, RestartAt ps r

def blockBytes (ps : List Packed) (restarts : List Nat) : Bytes :=
  packedBytes ps ++ restarts.flatMap putFixed32 ++ putFixed32 restarts.length

theorem length_restarts (restarts : List Nat) :
    (restarts.flatMap putFixed32).length = restarts.length * 4 := by
  induction restarts with
  | nil => rfl
  | cons r rs ih => simp [ih, Nat.add_mul, Nat.add_comm]

theorem length_blockBytes (ps : List Packed) (restarts : List Nat) :
    (blockBytes ps restarts).length = (packedBytes ps).length + (restarts.length + 1) * 4 := by
  rw [blockBytes, length_append, length_append, length_restarts, length_putFixed32]
  omega

/-- The lengths of an entry fit their fields of 32 bits. -/
structure Packed.Fits (p : Packed) : Prop where
  shared : p.shared < 2 ^ 32
  nonShared : p.key.length - p.shared < 2 ^ 32
  value : p.value.length < 2 ^ 32

/-- So do those of a block, and the number of its restart points. -/
structure BlockFits (ps : List Packed) (restarts : List Nat) : Prop where
  entries : ∀ p ∈ ps, p.Fits
  count : restarts.length < 2 ^ 32

/-- The restart points are where they say. -/
def BlockPlaced (ps : List Packed) (restarts : List Nat) : Prop :=
  ∀ r ∈ restarts, r < 2 ^ 32 ∧ ∃ before p after, ps = before ++ p :: after ∧ p.shared = 0 ∧
    r = (packedBytes before).length

theorem Follows.shared_le {before rest : List Packed} (hfollows : Follows [] ps)
    (hps : ps = before ++ p :: rest) : p.shared ≤ p.key.length := by
  obtain ⟨⟨hle, htake⟩, -⟩ := (follows_append.mp (hps ▸ hfollows)).2
  have := congrArg List.length htake
  rw [length_take, length_take] at this
  omega

theorem length_packedBytes_le {before after : List Packed} (hps : ps = before ++ p :: after) :
    (packedBytes before).length + p.bytes.length ≤
      (packedBytes ps).length := by
  rw [hps, packedBytes_append, packedBytes_cons, length_append, length_append]
  omega

theorem Layout.fits {restarts : List Nat} (h : Layout ps restarts)
    (hlen : (blockBytes ps restarts).length < 2 ^ 32) :
    BlockFits ps restarts ∧ BlockPlaced ps restarts := by
  have hsize := length_blockBytes ps restarts
  refine ⟨⟨fun p hp => ?_, by omega⟩, fun r hr => ?_⟩
  · obtain ⟨before, after, hps⟩ := append_of_mem hp
    have hkey := (hps ▸ h.follows).length_key
    have hle := h.follows.shared_le hps
    have hbytes := p.length_bytes
    have hpart := length_packedBytes_le hps
    rw [packedBytes_append, packedBytes_cons, length_append, length_append, length_nil] at hkey
    simp only [packedBytes, flatMap_nil, length_nil] at hkey hpart hsize
    exact ⟨by omega, by omega, by omega⟩
  · obtain ⟨before, p, after, hps, hp, rfl⟩ := h.restartAt r hr
    have hpart := length_packedBytes_le hps
    have hmod : (packedBytes before).length % 2 ^ 32 = (packedBytes before).length :=
      Nat.mod_eq_of_lt (by omega)
    rw [hmod]
    exact ⟨by omega, before, p, after, hps, hp, rfl⟩

/-- The bytes are those of a finished block with these pairs. -/
def Sealed (kvs : List (Bytes × Bytes)) (block : Bytes) : Prop :=
  ∃ ps restarts, Layout ps restarts ∧ ps.map Packed.pair = kvs ∧ block = blockBytes ps restarts

/-! ## The builder -/

theorem sharedPrefix_spec (a b : Bytes) :
    sharedPrefix a b ≤ a.length ∧ a.take (sharedPrefix a b) = b.take (sharedPrefix a b) := by
  induction a generalizing b with
  | nil => simp [sharedPrefix]
  | cons x xs ih =>
    cases b with
    | nil => simp [sharedPrefix]
    | cons y ys =>
      rw [sharedPrefix]
      split
      · next hxy =>
        obtain ⟨hle, htake⟩ := ih ys
        refine ⟨Nat.succ_le_succ hle, ?_⟩
        rw [take_succ_cons, take_succ_cons, hxy, htake]
      · exact ⟨Nat.zero_le _, rfl⟩

/-- The builder was given these pairs. -/
structure BlockBuilder.Packs (b : BlockBuilder) (ps : List Packed) : Prop where
  buffer : b.buffer = packedBytes ps
  lastKey : b.lastKey = lastKeyOf [] ps
  follows : Follows [] ps
  first : b.restarts.head? = some 0
  restartAt : ps ≠ [] → ∀ r ∈ b.restarts, RestartAt ps r
  fresh : ps = [] → ∀ r ∈ b.restarts, r = 0
  counter : b.counter = 0 ↔ ps = []

def BlockBuilder.Holds (b : BlockBuilder) (kvs : List (Bytes × Bytes)) : Prop :=
  ∃ ps, b.Packs ps ∧ ps.map Packed.pair = kvs

namespace BlockBuilder

variable {b : BlockBuilder} {kvs : List (Bytes × Bytes)} {ps : List Packed}

theorem packs_new (n : Nat) : (new n).Packs [] where
  buffer := rfl
  lastKey := rfl
  follows := trivial
  first := rfl
  restartAt h := absurd rfl h
  fresh _ r hr := mem_singleton.mp hr
  counter := by simp [new]

theorem holds_new (n : Nat) : (new n).Holds [] := ⟨[], packs_new n, rfl⟩

/-- Appending an entry that shares what it says; with no entry before it, it is a
restart point. -/
theorem Packs.append {shared : Nat} {key value : Bytes} (h : b.Packs ps)
    (hshared : shared ≤ b.lastKey.length ∧ b.lastKey.take shared = key.take shared)
    {restarts : List Nat} {counter : Nat} (hfirst : restarts.head? = some 0)
    (hmore : ∀ r ∈ restarts, r ∈ b.restarts ∨ (shared = 0 ∧ r = (packedBytes ps).length % 2 ^ 32)) :
    ({ b with restarts := restarts, counter := counter }.append shared key value).Packs
      (ps ++ [Packed.mk shared key value]) where
  buffer := by
    simp only [BlockBuilder.append, packedBytes_append, h.buffer]
    simp [packedBytes, Packed.bytes]
  lastKey := (lastKeyOf_concat ps (Packed.mk shared key value) []).symm
  follows := follows_append.mpr ⟨h.follows, h.lastKey ▸ hshared, trivial⟩
  first := hfirst
  restartAt _ r hr := by
    rcases hmore r hr with hr | ⟨hzero, rfl⟩
    · by_cases hps : ps = []
      · obtain rfl := h.fresh hps r hr
        rw [h.lastKey, hps] at hshared
        have hzero : shared = 0 := Nat.le_zero.mp hshared.1
        exact ⟨[], _, [], by rw [hps], hzero, rfl⟩
      · exact RestartAt.append (h.restartAt hps r hr)
    · exact restartAt_concat hzero
  fresh hnil := absurd hnil (by simp)
  counter := by simp [BlockBuilder.append]

theorem Packs.add (h : b.Packs ps) (key value : Bytes) :
    ∃ shared, (b.add key value).Packs (ps ++ [Packed.mk shared key value]) := by
  unfold BlockBuilder.add
  split
  · exact ⟨_, h.append (sharedPrefix_spec _ _) h.first fun r hr => .inl hr⟩
  · have hshared : 0 ≤ b.lastKey.length ∧ b.lastKey.take 0 = key.take 0 := ⟨Nat.zero_le _, rfl⟩
    refine ⟨0, h.append hshared ?_ fun r hr => ?_⟩
    · rw [head?_append, h.first]
      rfl
    · rcases mem_append.mp hr with hr | hr
      · exact .inl hr
      · rw [mem_singleton.mp hr, h.buffer]
        exact .inr ⟨rfl, rfl⟩

theorem Holds.add (h : b.Holds kvs) (key value : Bytes) :
    (b.add key value).Holds (kvs ++ [(key, value)]) := by
  obtain ⟨ps, hps, rfl⟩ := h
  obtain ⟨shared, hadd⟩ := hps.add key value
  exact ⟨_, hadd, by simp [Packed.pair]⟩

/-- **What is finished is sealed.** -/
theorem Holds.sealed (h : b.Holds kvs) (hne : kvs ≠ []) : Sealed kvs b.finish := by
  obtain ⟨ps, hps, rfl⟩ := h
  have hne' : ps ≠ [] := by
    rintro rfl
    exact hne rfl
  exact ⟨ps, b.restarts, ⟨hps.follows, hps.first, hps.restartAt hne'⟩, rfl, by
    rw [finish, hps.buffer, blockBytes]⟩

theorem Holds.empty_iff (h : b.Holds kvs) : b.empty = true ↔ kvs = [] := by
  obtain ⟨ps, hps, rfl⟩ := h
  rw [empty, beq_iff_eq, hps.counter, map_eq_nil_iff]

theorem length_finish (b : BlockBuilder) : b.finish.length = b.currentSizeEstimate := by
  rw [finish, currentSizeEstimate, length_append, length_append, length_restarts, length_putFixed32]
  omega

theorem currentSizeEstimate_add (b : BlockBuilder) (key value : Bytes) :
    (b.add key value).currentSizeEstimate ≤
      b.currentSizeEstimate + (16 + key.length + value.length) := by
  unfold add
  split <;> simp [append, currentSizeEstimate, encode] <;> omega

end BlockBuilder

/-! ## The reader -/

section Read

variable {ps : List Packed} {restarts : List Nat}

variable {data : Bytes} {r : Nat} {p : Packed}

theorem getFixed32_at {before : Bytes} {v : Nat} (rest : Bytes)
    (h : data = before ++ (putFixed32 v ++ rest)) (hv : v < 2 ^ 32) :
    getFixed32 (data.drop before.length) = v := by
  rw [h, drop_left, getFixed32_putFixed32 hv]

theorem getFixed32_restart {before : Bytes} {i : Nat} (rest : Bytes)
    (h : data = before ++ (restarts.flatMap putFixed32 ++ rest)) (hi : restarts[i]? = some r)
    (hr : r < 2 ^ 32) : getFixed32 (data.drop (before.length + i * 4)) = r := by
  have hsplit : restarts = restarts.take i ++ (r :: restarts.drop (i + 1)) := by
    obtain ⟨hlt, rfl⟩ := List.getElem?_eq_some_iff.mp hi
    rw [cons_getElem_drop_succ, take_append_drop]
  have hlen : (before ++ (restarts.take i).flatMap putFixed32).length = before.length + i * 4 := by
    have hlt : i < restarts.length := (List.getElem?_eq_some_iff.mp hi).1
    rw [length_append, length_restarts, length_take, min_eq_left (by omega)]
  rw [← hlen]
  refine getFixed32_at ((restarts.drop (i + 1)).flatMap putFixed32 ++ rest) ?_ hr
  rw [h]
  nth_rewrite 1 [hsplit]
  simp only [flatMap_append, flatMap_cons, append_assoc]

theorem RestartAt.lt (h : RestartAt ps r) : r < (packedBytes ps).length := by
  obtain ⟨before, p, after, hps, -, rfl⟩ := h
  have hbytes := p.length_bytes
  have hpart := length_packedBytes_le hps
  have hmod := Nat.mod_le (packedBytes before).length (2 ^ 32)
  omega

theorem RestartAt.lt_word (h : RestartAt ps r) : r < 2 ^ 32 := by
  obtain ⟨before, p, after, -, -, rfl⟩ := h
  exact Nat.mod_lt _ (by decide)

/-- The reader of a sealed block, as far as it does not move. -/
structure Block.Over (b : Block) (ps : List Packed) (restarts : List Nat) : Prop where
  data : b.data = blockBytes ps restarts
  restartArrayOffset : b.restartArrayOffset = (packedBytes ps).length
  numRestarts : b.numRestarts = restarts.length
  corrupted : b.corrupted = false

theorem Layout.new_over (h : Layout ps restarts) (hcount : restarts.length < 2 ^ 32) :
    (Block.new (blockBytes ps restarts)).Over ps restarts := by
  have hsize := length_blockBytes ps restarts
  have hnum : getFixed32 ((blockBytes ps restarts).drop ((blockBytes ps restarts).length - 4)) =
      restarts.length := by
    have hat : (blockBytes ps restarts).length - 4 =
        (packedBytes ps ++ restarts.flatMap putFixed32).length := by
      rw [length_append, length_restarts]
      omega
    rw [hat]
    exact getFixed32_at [] (by rw [append_nil]; rfl) hcount
  have hpos : restarts.length ≠ 0 := by
    intro hzero
    have hfirst := h.first
    rw [length_eq_zero_iff.mp hzero] at hfirst
    cases hfirst
  have hoff : (blockBytes ps restarts).length - (restarts.length + 1) * 4 =
      (packedBytes ps).length := by
    omega
  have hsound : ((List.range restarts.length).any fun i => decide ((packedBytes ps).length ≤
      getFixed32 ((blockBytes ps restarts).drop ((packedBytes ps).length + i * 4 % 2 ^ 32)))) =
      false := by
    rw [any_eq_false]
    intro i hi
    -- the product is cut, and an earlier restart point is looked at again
    have hlt : i % 2 ^ 30 < restarts.length := lt_of_le_of_lt (Nat.mod_le _ _) (mem_range.mp hi)
    have hr := h.restartAt restarts[i % 2 ^ 30] (getElem_mem hlt)
    rw [(by omega : i * 4 % 2 ^ 32 = i % 2 ^ 30 * 4),
      getFixed32_restart (putFixed32 restarts.length)
        (by rw [blockBytes, append_assoc]) (getElem?_eq_getElem hlt) hr.lt_word]
    simpa using hr.lt
  unfold Block.new
  dsimp only
  rw [if_neg (by omega), hnum, if_neg (by omega), hoff]
  exact ⟨rfl, rfl, rfl, hsound⟩

/-- The reader stands before these entries; at the first of them, if there is one. -/
structure Block.Stands (b : Block) (ps : List Packed) (restarts : List Nat)
    (before rest : List Packed) :
    Prop extends b.Over ps restarts where
  split : ps = before ++ rest
  valid : b.valid = !rest.isEmpty
  entry : ∀ p ∈ rest.head?, b.keyScratch = p.key ∧ b.curValue = p.value ∧
    b.entryEnd = (packedBytes (before ++ [p])).length

variable {b : Block} {before rest : List Packed}

/-- What the reader finds where an entry was packed. -/
structure Block.Finds (b : Block) (n : Nat) (p : Packed) : Prop where
  shared : getFixed32 (b.data.drop n) = p.shared
  nonShared : getFixed32 (b.data.drop (n + 4)) = p.key.length - p.shared
  valueLen : getFixed32 (b.data.drop (n + 8)) = p.value.length
  key : (b.data.drop (n + Block.kHeaderSize)).take (p.key.length - p.shared) = p.key.drop p.shared
  value : (b.data.drop (n + Block.kHeaderSize + (p.key.length - p.shared))).take p.value.length =
    p.value
  fits : n + Block.kHeaderSize + (p.key.length - p.shared) + p.value.length ≤ b.restartArrayOffset

theorem length_packedBytes_concat (before : List Packed) (p : Packed) :
    (packedBytes (before ++ [p])).length = (packedBytes before).length + Block.kHeaderSize +
      (p.key.length - p.shared) + p.value.length := by
  have hbytes := p.length_bytes
  rw [packedBytes_append, length_append, packedBytes_cons, length_append, hbytes]
  simp only [packedBytes, flatMap_nil, length_nil, Block.kHeaderSize]
  omega

theorem drop_packed {tail : Bytes} (hdata : data = packedBytes ps ++ tail)
    (hps : ps = before ++ p :: rest) : ∃ X,
    data.drop (packedBytes before).length = putFixed32 p.shared ++
      (putFixed32 (p.key.length - p.shared) ++ (putFixed32 p.value.length ++
        (p.key.drop p.shared ++ (p.value ++ X)))) ∧
    data.drop ((packedBytes before).length + 4) = putFixed32 (p.key.length - p.shared) ++
      (putFixed32 p.value.length ++ (p.key.drop p.shared ++ (p.value ++ X))) ∧
    data.drop ((packedBytes before).length + 4 + 4) = putFixed32 p.value.length ++
      (p.key.drop p.shared ++ (p.value ++ X)) ∧
    data.drop ((packedBytes before).length + 4 + 4 + 4) =
      p.key.drop p.shared ++ (p.value ++ X) := by
  have h₀ : data.drop (packedBytes before).length = putFixed32 p.shared ++
      (putFixed32 (p.key.length - p.shared) ++ (putFixed32 p.value.length ++
        (p.key.drop p.shared ++ (p.value ++ (packedBytes rest ++ tail))))) := by
    rw [hdata, hps, packedBytes_append, packedBytes_cons, Packed.bytes, BlockBuilder.encode]
    simp only [append_assoc]
    exact drop_left
  have h₄ := congrArg (List.drop 4) h₀
  rw [drop_drop, drop_left' (length_putFixed32 _)] at h₄
  have h₈ := congrArg (List.drop 4) h₄
  rw [drop_drop, drop_left' (length_putFixed32 _)] at h₈
  have h₁₂ := congrArg (List.drop 4) h₈
  rw [drop_drop, drop_left' (length_putFixed32 _)] at h₁₂
  exact ⟨_, h₀, h₄, h₈, h₁₂⟩

theorem Block.Over.finds (h : b.Over ps restarts) (hfits : p.Fits)
    (hps : ps = before ++ p :: rest) :
    b.Finds (packedBytes before).length p := by
  have hend := length_packedBytes_concat before p
  have htotal : (packedBytes ps).length = (packedBytes (before ++ [p])).length +
      (packedBytes rest).length := by
    rw [← length_append, ← packedBytes_append, hps, append_assoc]
    rfl
  obtain ⟨X, h₀, h₄, h₈, h₁₂⟩ := drop_packed
    (show b.data = packedBytes ps ++ (restarts.flatMap putFixed32 ++ putFixed32 restarts.length) by
      rw [h.data, blockBytes, append_assoc]) hps
  have hdelta : (p.key.drop p.shared).length = p.key.length - p.shared := length_drop
  constructor
  · rw [h₀, getFixed32_putFixed32 hfits.shared]
  · rw [h₄, getFixed32_putFixed32 hfits.nonShared]
  · exact (congrArg getFixed32 h₈).trans (getFixed32_putFixed32 hfits.value _)
  · exact (congrArg (List.take _) h₁₂).trans (take_left' hdelta)
  · have hvalue :
      b.data.drop ((packedBytes before).length + 4 + 4 + 4 + (p.key.length - p.shared)) =
        p.value ++ X := by
      rw [← drop_drop, h₁₂, drop_left' hdelta]
    exact (congrArg (List.take _) hvalue).trans take_left
  · rw [h.restartArrayOffset, htotal, hend]
    omega

/-- The bytes that an entry shares are in a key. -/
def Packed.SharesWith (p : Packed) (key : Bytes) : Prop :=
  p.shared ≤ key.length ∧ key.take p.shared = p.key.take p.shared

/-- **An entry is parsed as it was packed**, from any state that has the bytes it shares. -/
theorem Block.Finds.parseEntry {n : Nat} (h : b.Finds n p) (hshared : p.SharesWith b.keyScratch) :
    b.parseEntry n =
      (true, { b with
        valid := false
        keyScratch := p.key
        curValue := p.value
        entryEnd := n + Block.kHeaderSize + (p.key.length - p.shared) + p.value.length }) := by
  have hfits := h.fits
  obtain ⟨hle, htake⟩ := hshared
  unfold Block.parseEntry
  simp only [h.shared, h.nonShared, h.valueLen, h.key, h.value, htake, take_append_drop]
  rw [if_neg (by simp only [Block.kHeaderSize] at hfits; omega), if_neg (by omega),
    if_neg (by omega),
    if_neg (by omega)]

/-- `ParseEntry` at the end of some entries stands at the next one, or at the end. -/
theorem Block.Over.moveTo (h : b.Over ps restarts) (hfits : ∀ p ∈ ps, p.Fits)
    (hps : ps = before ++ rest) (hshared : ∀ p ∈ rest.head?, p.SharesWith b.keyScratch) :
    (b.moveTo (packedBytes before).length).Stands ps restarts before rest := by
  cases rest with
  | nil =>
    have hend : (packedBytes before).length = b.restartArrayOffset := by
      rw [h.restartArrayOffset, hps, append_nil]
    have hparse : b.parseEntry (packedBytes before).length =
        (false, { b with valid := false }) := by
      unfold Block.parseEntry
      exact if_pos hend
    unfold Block.moveTo
    rw [hparse]
    exact ⟨⟨h.data, h.restartArrayOffset, h.numRestarts, h.corrupted⟩, hps, rfl, nofun⟩
  | cons p rest =>
    have hfinds := h.finds (hfits p (hps ▸ mem_append_right _ mem_cons_self)) hps
    unfold Block.moveTo
    rw [hfinds.parseEntry (hshared p rfl)]
    refine ⟨⟨h.data, h.restartArrayOffset, h.numRestarts, h.corrupted⟩, hps, rfl, ?_⟩
    rintro p' ⟨⟩
    exact ⟨rfl, rfl, (length_packedBytes_concat before p).symm⟩

theorem Follows.sharesWith {q : Packed} (hfollows : Follows [] ps)
    (hps : ps = before ++ q :: p :: rest) : p.SharesWith q.key := by
  rw [hps] at hfollows
  obtain ⟨-, -, h, -⟩ := follows_append.mp hfollows
  exact h

theorem Packed.sharesWith_of_zero (h : p.shared = 0) (key : Bytes) : p.SharesWith key := by
  rw [Packed.SharesWith, h]
  exact ⟨Nat.zero_le _, rfl⟩

theorem Block.Over.seekToFirst (h : b.Over ps restarts) (hfollows : Follows [] ps)
    (hfits : ∀ p ∈ ps, p.Fits) : b.seekToFirst.Stands ps restarts [] ps := by
  rw [Block.seekToFirst, h.corrupted]
  refine @Block.Over.moveTo ps restarts b [] ps h hfits rfl fun p hp => ?_
  cases ps with
  | nil => cases hp
  | cons q ps =>
    cases hp
    exact Packed.sharesWith_of_zero (Nat.le_zero.mp hfollows.1.1) _

theorem Block.Stands.next (h : b.Stands ps restarts before (p :: rest)) (hfollows : Follows [] ps)
    (hfits : ∀ p ∈ ps, p.Fits) : b.next.Stands ps restarts (before ++ [p]) rest := by
  obtain ⟨hkey, -, hend⟩ := h.entry p rfl
  rw [Block.next, h.corrupted, h.valid, hend]
  refine h.toOver.moveTo hfits (by rw [h.split, append_assoc]; rfl) fun q hq => ?_
  cases rest with
  | nil => cases hq
  | cons r rest =>
    cases hq
    rw [hkey]
    exact hfollows.sharesWith h.split

/-- The scan stops at the first entry that is not less. -/
theorem Block.Over.scan (target : Bytes) (hfollows : Follows [] ps)
    (hfits : ∀ p ∈ ps, p.Fits) (rest : List Packed) :
    ∀ {fuel : Nat} {b : Block} {before : List Packed}, b.Over ps restarts → rest.length < fuel →
      ps = before ++ rest → (∀ p ∈ rest.head?, p.SharesWith b.keyScratch) →
      ∃ before', (Block.scan target fuel b (packedBytes before).length).Stands ps restarts before'
        (rest.dropWhile fun p => internalKeyLess p.key target) := by
  induction rest with
  | nil =>
    intro fuel b before h hfuel hps _
    obtain ⟨fuel, rfl⟩ : ∃ k, fuel = k + 1 := ⟨fuel - 1, by omega⟩
    have hend : ¬ (packedBytes before).length < b.restartArrayOffset := by
      rw [h.restartArrayOffset, hps, append_nil]
      omega
    rw [Block.scan, if_neg hend]
    exact ⟨before, ⟨h.data, h.restartArrayOffset, h.numRestarts, h.corrupted⟩, hps, rfl, nofun⟩
  | cons p rest ih =>
    intro fuel b before h hfuel hps hshared
    obtain ⟨fuel, rfl⟩ : ∃ k, fuel = k + 1 := ⟨fuel - 1, by omega⟩
    have hfinds := h.finds (hfits p (hps ▸ mem_append_right _ mem_cons_self)) hps
    have hlt : (packedBytes before).length < b.restartArrayOffset := by
      have := hfinds.fits
      simp only [Block.kHeaderSize] at this
      omega
    rw [Block.scan, if_pos hlt, hfinds.parseEntry (hshared p rfl)]
    dsimp only
    rw [← length_packedBytes_concat]
    have hps' : ps = before ++ [p] ++ rest := by
      rw [hps, append_assoc]
      rfl
    cases hless : internalKeyLess p.key target with
    | true =>
      rw [if_pos rfl, dropWhile_cons, if_pos hless]
      refine ih ⟨h.data, h.restartArrayOffset, h.numRestarts, h.corrupted⟩
        (Nat.lt_of_succ_lt_succ hfuel) hps' fun q hq => ?_
      cases rest with
      | nil => cases hq
      | cons r rest =>
        cases hq
        exact hfollows.sharesWith hps
    | false =>
      rw [if_neg Bool.false_ne_true, dropWhile_cons, if_neg (Bool.eq_false_iff.mp hless)]
      refine ⟨before, ⟨h.data, h.restartArrayOffset, h.numRestarts, h.corrupted⟩, hps, rfl, ?_⟩
      rintro p' ⟨⟩
      exact ⟨rfl, rfl, rfl⟩

theorem Block.findRestart_spec (b : Block) (target : Bytes) (fuel : Nat) :
    ∀ left right : Nat, left ≤ right →
      b.findRestart target fuel left right ≤ right ∧
      (b.findRestart target fuel left right = left ∨
        internalKeyLess (b.keyAtRestart (b.findRestart target fuel left right)) target = true) := by
  induction fuel with
  | zero => exact fun left right h => ⟨h, .inl rfl⟩
  | succ fuel ih =>
    intro left right h
    rw [Block.findRestart]
    split
    · next hlt =>
      dsimp only
      split
      · next hless =>
        obtain ⟨hle, hor⟩ := ih ((left + right + 1) / 2) right (by omega)
        refine ⟨hle, .inr ?_⟩
        rcases hor with heq | hor
        · rw [heq]
          exact hless
        · exact hor
      · obtain ⟨hle, hor⟩ := ih left ((left + right + 1) / 2 - 1) (by omega)
        exact ⟨by omega, hor⟩
    · exact ⟨h, .inl rfl⟩

theorem packedBytes_eq_nil {ps : List Packed} (h : (packedBytes ps).length = 0) : ps = [] := by
  have := length_le_packedBytes ps
  exact length_eq_zero_iff.mp (by omega)

/-- **`Seek` finds the first entry that is not less than the target.** -/
theorem Block.Over.seek (h : b.Over ps restarts) (hlayout : Layout ps restarts)
    (hfits : ∀ p ∈ ps, p.Fits) (hplaced : BlockPlaced ps restarts) {target : Bytes}
    (horder : Upto (fun p : Packed => internalKeyLess p.key target) ps) :
    ∃ before, (b.seek target).Stands ps restarts before
      (ps.dropWhile fun p => internalKeyLess p.key target) := by
  have hsize := length_blockBytes ps restarts
  have hpos : 0 < restarts.length := by
    cases restarts with
    | nil => exact nomatch hlayout.first
    | cons r rs => exact Nat.succ_pos _
  obtain ⟨hle, hor⟩ := b.findRestart_spec target b.numRestarts 0 (b.numRestarts - 1) (Nat.zero_le _)
  rw [Block.seek, if_neg (Bool.eq_false_iff.mp h.corrupted)]
  dsimp only
  generalize b.findRestart target b.numRestarts 0 (b.numRestarts - 1) = left at hle hor ⊢
  have hlt : left < restarts.length := by
    rw [h.numRestarts] at hle
    omega
  obtain ⟨hword, before, p, after, hps, hp, hr⟩ := hplaced restarts[left] (getElem_mem hlt)
  have hat : b.restartAt left = restarts[left] := by
    rw [Block.restartAt, h.restartArrayOffset]
    exact getFixed32_restart (putFixed32 restarts.length)
      (by rw [h.data, blockBytes, append_assoc]) (getElem?_eq_getElem hlt) hword
  have hfinds := h.finds (hfits p (hps ▸ mem_append_right _ mem_cons_self)) hps
  -- what comes before the restart point is less than the target
  have hbefore : ∀ q ∈ before, internalKeyLess q.key target = true := by
    rcases hor with rfl | hless
    · have hzero : restarts[0] = 0 := by
        have hfirst := hlayout.first
        rw [head?_eq_getElem?, getElem?_eq_getElem hlt] at hfirst
        exact Option.some.inj hfirst
      rw [packedBytes_eq_nil (hr.symm.trans hzero)]
      simp
    · have hkey : b.keyAtRestart left = p.key := by
        have hfits := hfinds.fits
        rw [Block.keyAtRestart, hat, hr, if_neg (by omega), hfinds.nonShared, hfinds.key, hp,
          drop_zero]
      intro q hq
      rw [hkey] at hless
      rw [hps] at horder
      exact (pairwise_append.mp horder).2.2 q hq p mem_cons_self hless
  have hdrop : ps.dropWhile (fun p => internalKeyLess p.key target) =
      (p :: after).dropWhile fun p => internalKeyLess p.key target := by
    rw [hps, dropWhile_append_of_all hbefore]
  have hfuel : (p :: after).length < b.data.length + 1 := by
    have h₁ := length_le_packedBytes ps
    have h₂ := congrArg List.length hps
    rw [length_append] at h₂
    rw [h.data]
    omega
  rw [hat, hr, hdrop]
  refine Block.Over.scan target hlayout.follows hfits (p :: after)
    (b := { b with valid := false }) ⟨h.data, h.restartArrayOffset, h.numRestarts, h.corrupted⟩
    hfuel hps fun q hq => ?_
  cases hq
  exact Packed.sharesWith_of_zero hp _

end Read

/-! ## What a sealed block shows -/

/-- The reader stands in a sealed block where these pairs are still to come. -/
def Block.Shows (b : Block) (rest : List (Bytes × Bytes)) : Prop :=
  ∃ ps restarts before after, Layout ps restarts ∧ (blockBytes ps restarts).length < 2 ^ 32 ∧
    b.Stands ps restarts before after ∧ after.map Packed.pair = rest

section Shows

variable {kvs rest : List (Bytes × Bytes)} {block : Bytes} {b : Block}

section

variable (h : Sealed kvs block)
include h

theorem Sealed.ne_nil : kvs ≠ [] := by
  obtain ⟨ps, restarts, hlayout, rfl, -⟩ := h
  obtain ⟨before, p, after, rfl, -, -⟩ := hlayout.restartAt 0 (mem_of_head? hlayout.first)
  simp

theorem Sealed.length_le : 12 * kvs.length ≤ block.length := by
  obtain ⟨ps, restarts, -, rfl, rfl⟩ := h
  have h₁ := length_le_packedBytes ps
  have h₂ := length_blockBytes ps restarts
  rw [length_map]
  omega

theorem Sealed.corrupted (hlen : block.length < 2 ^ 32) :
    (Block.new block).corrupted = false := by
  obtain ⟨ps, restarts, hlayout, rfl, rfl⟩ := h
  exact (hlayout.new_over (hlayout.fits hlen).1.count).corrupted

theorem Sealed.seekToFirst (hlen : block.length < 2 ^ 32) :
    (Block.new block).seekToFirst.Shows kvs := by
  obtain ⟨ps, restarts, hlayout, rfl, rfl⟩ := h
  have hfits := (hlayout.fits hlen).1
  exact ⟨ps, restarts, [], ps, hlayout, hlen,
    (hlayout.new_over hfits.count).seekToFirst hlayout.follows hfits.entries, rfl⟩

/-- **The first pair that is not less**, in a block whose keys are in order. -/
theorem Sealed.seek (hlen : block.length < 2 ^ 32) {target : Bytes}
    (horder : Upto (fun kv : Bytes × Bytes => internalKeyLess kv.1 target) kvs) :
    ((Block.new block).seek target).Shows
      (kvs.dropWhile fun kv => internalKeyLess kv.1 target) := by
  obtain ⟨ps, restarts, hlayout, rfl, rfl⟩ := h
  obtain ⟨hfits, hplaced⟩ := hlayout.fits hlen
  obtain ⟨before, hstands⟩ := (hlayout.new_over hfits.count).seek hlayout hfits.entries hplaced
    (pairwise_map.mp horder)
  exact ⟨ps, restarts, before, _, hlayout, hlen, hstands, by rw [dropWhile_map]; rfl⟩

end

theorem Block.Shows.next {kv : Bytes × Bytes} (h : b.Shows (kv :: rest)) : b.next.Shows rest := by
  obtain ⟨ps, restarts, before, after, hlayout, hlen, hstands, hrest⟩ := h
  cases after with
  | nil => cases hrest
  | cons p after =>
    obtain ⟨-, rfl⟩ := List.cons.inj hrest
    exact ⟨ps, restarts, _, after, hlayout, hlen,
      hstands.next hlayout.follows (hlayout.fits hlen).1.entries, rfl⟩

theorem Block.Shows.valid (h : b.Shows rest) : b.valid = !rest.isEmpty := by
  obtain ⟨ps, restarts, before, after, -, -, hstands, rfl⟩ := h
  rw [hstands.valid, isEmpty_map]

theorem Block.Shows.corrupted (h : b.Shows rest) : b.corrupted = false := by
  obtain ⟨ps, restarts, before, after, -, -, hstands, -⟩ := h
  exact hstands.corrupted

theorem Block.Shows.entry {kv : Bytes × Bytes} (h : b.Shows (kv :: rest)) :
    b.keyScratch = kv.1 ∧ b.curValue = kv.2 := by
  obtain ⟨ps, restarts, before, after, -, -, hstands, hrest⟩ := h
  cases after with
  | nil => cases hrest
  | cons p after =>
    obtain ⟨rfl, -⟩ := List.cons.inj hrest
    obtain ⟨hkey, hvalue, -⟩ := hstands.entry p rfl
    exact ⟨hkey, hvalue⟩

end Shows

end BedrockKV
