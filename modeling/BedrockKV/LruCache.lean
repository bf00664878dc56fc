/-
# `BedrockKV.LruCache` — the sharded LRU cache

`lru_cache.h`, for any keys and values.  A shard is its list, most recently
used first; the map beside it in the source finds a key's place in the list,
which is `Keyed.get?` here.  The hash picks the shard and is a parameter, as
is the weight of a value.

What a user of the cache can rely on is that it invents nothing: what `get`
answers was put there under that key (`mem_get`), and after a `put` there is
nothing but that entry and older ones (`mem_put`).

A shard that is `Sound` has each key once, its weight is that of its entries,
and its share is kept.  The map, the machine words and whole runs of the cache
are in `BedrockKV.CacheMap`.
-/
import BedrockKV.Lib.Keyed

namespace BedrockKV

open List Keyed

structure Shard (κ α : Type) where
  lru : List (κ × α)
  weight : Nat

/-- The shards, the budget of the whole cache, and one shard's share of it. -/
structure ShardedLruCache (κ α : Type) where
  shard : List (Shard κ α)
  maxTotalWeight : Nat
  shardWeightCap : Nat

section Cache

variable {κ α : Type} [DecidableEq κ]

namespace Shard

def empty : Shard κ α := ⟨[], 0⟩

/-- A hit moves the entry to the front. -/
def get (s : Shard κ α) (key : κ) : Option α × Shard κ α :=
  match Keyed.get? s.lru key with
  | none => (none, s)
  | some value => (some value, { s with lru := (key, value) :: Keyed.erase s.lru key })

/-- Drop entries, oldest first, until the share is kept. -/
def evict (weight : α → Nat) (cap : Nat) : List (κ × α) → Nat → Shard κ α
  | [], w => ⟨[], w⟩
  | victim :: rest, w =>
    if cap < w then evict weight cap rest (w - weight victim.2)
    else ⟨(victim :: rest).reverse, w⟩

/-- Insert or overwrite, at the front. -/
def insert (weight : α → Nat) (s : Shard κ α) (key : κ) (value : α) : Shard κ α :=
  match Keyed.get? s.lru key with
  | some old => ⟨(key, value) :: Keyed.erase s.lru key, s.weight - weight old + weight value⟩
  | none => ⟨(key, value) :: s.lru, s.weight + weight value⟩

def put (weight : α → Nat) (cap : Nat) (s : Shard κ α) (key : κ) (value : α) : Shard κ α :=
  let s' := s.insert weight key value
  evict weight cap s'.lru.reverse s'.weight

variable {s : Shard κ α} {key : κ} {p : κ × α}

theorem mem_get {value : α} (h : (s.get key).1 = some value) : (key, value) ∈ s.lru := by
  unfold get at h
  split at h
  · cases h
  · next hget =>
    cases h
    exact mem_of_get? hget

theorem get_sub (h : p ∈ (s.get key).2.lru) : p ∈ s.lru := by
  unfold get at h
  split at h
  · exact h
  · next hget =>
    rcases mem_cons.mp h with rfl | h
    · exact mem_of_get? hget
    · exact (mem_erase.mp h).1

omit [DecidableEq κ] in
theorem evict_sub {weight : α → Nat} {cap : Nat} {l : List (κ × α)} :
    ∀ {w : Nat}, p ∈ (evict weight cap l w).lru → p ∈ l := by
  induction l with
  | nil => exact nofun
  | cons victim rest ih =>
    intro w h
    simp only [evict] at h
    split at h
    · exact mem_cons_of_mem _ (ih h)
    · exact mem_reverse.mp h

theorem insert_sub {weight : α → Nat} {value : α} (h : p ∈ (s.insert weight key value).lru) :
    p = (key, value) ∨ p ∈ s.lru := by
  unfold insert at h
  split at h
  · exact (mem_cons.mp h).imp_right fun h => (mem_erase.mp h).1
  · exact mem_cons.mp h

theorem put_sub {weight : α → Nat} {cap : Nat} {value : α}
    (h : p ∈ (s.put weight cap key value).lru) : p = (key, value) ∨ p ∈ s.lru :=
  insert_sub (mem_reverse.mp (evict_sub h))

/-! ### Weights -/

/-- The weight of the entries of a list. -/
def total (weight : α → Nat) (l : List (κ × α)) : Nat := (l.map fun p => weight p.2).sum

/-- Each key once, the weight is that of the entries, and the share is kept. -/
structure Sound (weight : α → Nat) (cap : Nat) (s : Shard κ α) : Prop where
  keys : (Keyed.keys s.lru).Nodup
  weight_eq : s.weight = total weight s.lru
  cap : s.weight ≤ cap

variable {weight : α → Nat} {cap : Nat}

omit [DecidableEq κ] in
theorem sound_empty : (empty : Shard κ α).Sound weight cap :=
  ⟨nodup_nil, rfl, Nat.zero_le _⟩

omit [DecidableEq κ] in
theorem total_perm {l l' : List (κ × α)} (h : l.Perm l') : total weight l = total weight l' :=
  (h.map _).sum_eq

theorem get_miss (h : Keyed.get? s.lru key = none) : s.get key = (none, s) := by
  rw [get, h]

theorem get_hit {value : α} (h : Keyed.get? s.lru key = some value) :
    s.get key = (some value, { s with lru := (key, value) :: Keyed.erase s.lru key }) := by
  rw [get, h]

theorem insert_lru (weight : α → Nat) (s : Shard κ α) (key : κ) (value : α) :
    (s.insert weight key value).lru = (key, value) :: Keyed.erase s.lru key := by
  unfold insert
  split
  · rfl
  · next hget => rw [erase_of_notMem (get?_eq_none.mp hget)]

theorem nodup_front {l : List (κ × α)} (h : (Keyed.keys l).Nodup) (key : κ) (value : α) :
    (Keyed.keys ((key, value) :: Keyed.erase l key)).Nodup := by
  have hrest : (Keyed.keys (Keyed.erase l key)).Nodup := by
    rw [keys_erase]
    exact h.filter _
  refine nodup_cons.mpr ⟨fun hmem => ?_, hrest⟩
  obtain ⟨a, ha⟩ := mem_keys.mp hmem
  exact (mem_erase.mp ha).2 rfl

theorem Sound.get (h : s.Sound weight cap) (key : κ) : (s.get key).2.Sound weight cap := by
  cases hget : Keyed.get? s.lru key with
  | none =>
    rw [get_miss hget]
    exact h
  | some value =>
    rw [get_hit hget]
    exact ⟨nodup_front h.keys key value,
      h.weight_eq.trans (total_perm (cons_erase_perm h.keys hget)).symm, h.cap⟩

theorem Sound.insert_weight (h : s.Sound weight cap) (key : κ) (value : α) :
    (s.insert weight key value).weight =
      total weight ((key, value) :: Keyed.erase s.lru key) := by
  have htotal := h.weight_eq
  rw [insert]
  cases hget : Keyed.get? s.lru key with
  | none =>
    rw [erase_of_notMem (get?_eq_none.mp hget)]
    simp only [htotal, total, map_cons, sum_cons]
    omega
  | some old =>
    rw [← total_perm (cons_erase_perm h.keys hget)] at htotal
    simp only [htotal, total, map_cons, sum_cons]
    omega

omit [DecidableEq κ] in
theorem evict_spec (weight : α → Nat) (cap : Nat) (l : List (κ × α)) : ∃ dropped kept,
    l = dropped ++ kept ∧
    evict weight cap l (total weight l) = ⟨kept.reverse, total weight kept⟩ ∧
    total weight kept ≤ cap := by
  induction l with
  | nil => exact ⟨[], [], rfl, rfl, Nat.zero_le _⟩
  | cons victim rest ih =>
    by_cases hfull : cap < total weight (victim :: rest)
    · obtain ⟨dropped, kept, rfl, hevict, hcap⟩ := ih
      refine ⟨victim :: dropped, kept, rfl, ?_, hcap⟩
      have hweight : total weight (victim :: (dropped ++ kept)) - weight victim.2 =
          total weight (dropped ++ kept) := by
        simp only [total, map_cons, sum_cons]
        omega
      rw [evict, if_pos hfull, hweight, hevict]
    · refine ⟨[], victim :: rest, rfl, ?_, Nat.le_of_not_lt hfull⟩
      rw [evict, if_neg hfull]

/-- **An insertion keeps the shard sound**, and drops the end of its list. -/
theorem Sound.put (h : s.Sound weight cap) (key : κ) (value : α) :
    (s.put weight cap key value).Sound weight cap ∧
      ∃ dropped, (key, value) :: Keyed.erase s.lru key =
        (s.put weight cap key value).lru ++ dropped := by
  obtain ⟨dropped, kept, hl, hevict, hcap⟩ :=
    evict_spec weight cap ((key, value) :: Keyed.erase s.lru key).reverse
  have hput : s.put weight cap key value = ⟨kept.reverse, total weight kept⟩ := by
    rw [Shard.put, h.insert_weight, insert_lru, ← hevict, total_perm (reverse_perm _)]
  have hfront : (key, value) :: Keyed.erase s.lru key = kept.reverse ++ dropped.reverse := by
    rw [← reverse_append, ← hl, reverse_reverse]
  have hnodup := nodup_front h.keys key value
  rw [hput]
  refine ⟨⟨?_, (total_perm (reverse_perm _)).symm, hcap⟩, dropped.reverse, hfront⟩
  rw [hfront, Keyed.keys_append] at hnodup
  exact (nodup_append.mp hnodup).1

end Shard

namespace ShardedLruCache

/-- Every shard has at least weight one to spend. -/
def new (shards maxTotalWeight : Nat) : ShardedLruCache κ α where
  shard := List.replicate shards .empty
  maxTotalWeight := maxTotalWeight
  shardWeightCap := if maxTotalWeight / shards = 0 then 1 else maxTotalWeight / shards

def shardOf (hash : κ → Nat) (c : ShardedLruCache κ α) (key : κ) : Nat := hash key % c.shard.length

def get (hash : κ → Nat) (c : ShardedLruCache κ α) (key : κ) : Option α × ShardedLruCache κ α :=
  let i := c.shardOf hash key
  let r := (c.shard.getD i .empty).get key
  (r.1, { c with shard := c.shard.set i r.2 })

/-- A value heavier than the whole budget is not taken. -/
def put (hash : κ → Nat) (weight : α → Nat) (c : ShardedLruCache κ α) (key : κ) (value : α) :
    ShardedLruCache κ α :=
  if c.maxTotalWeight < weight value then c
  else
    let i := c.shardOf hash key
    { c with
      shard := c.shard.set i ((c.shard.getD i .empty).put weight c.shardWeightCap key value) }

def clear (c : ShardedLruCache κ α) : ShardedLruCache κ α :=
  { c with shard := c.shard.map fun _ => .empty }

/-- What the cache holds. -/
def entries (c : ShardedLruCache κ α) : List (κ × α) := c.shard.flatMap Shard.lru

variable {hash : κ → Nat} {weight : α → Nat} {c : ShardedLruCache κ α} {key : κ} {p : κ × α}

omit [DecidableEq κ] in
theorem mem_getD {i : Nat} (h : p ∈ (c.shard.getD i .empty).lru) : p ∈ c.entries := by
  rw [getD_eq_getElem?_getD] at h
  cases hi : c.shard[i]? with
  | none =>
    rw [hi] at h
    cases h
  | some s =>
    rw [hi] at h
    exact mem_flatMap.mpr ⟨s, mem_of_getElem? hi, h⟩

omit [DecidableEq κ] in
theorem mem_set {i : Nat} {s : Shard κ α} (h : p ∈ (c.shard.set i s).flatMap Shard.lru) :
    p ∈ s.lru ∨ p ∈ c.entries := by
  obtain ⟨t, ht, hp⟩ := mem_flatMap.mp h
  rcases mem_or_eq_of_mem_set ht with ht | rfl
  · exact .inr (mem_flatMap.mpr ⟨t, ht, hp⟩)
  · exact .inl hp

omit [DecidableEq κ] in
theorem entries_new (shards maxTotalWeight : Nat) :
    (new shards maxTotalWeight : ShardedLruCache κ α).entries = [] := by
  simp [entries, new, Shard.empty]

/-- **A hit is an entry** of the cache. -/
theorem mem_get {value : α} (h : (c.get hash key).1 = some value) : (key, value) ∈ c.entries :=
  mem_getD (Shard.mem_get h)

theorem get_sub (h : p ∈ (c.get hash key).2.entries) : p ∈ c.entries :=
  (mem_set h).elim (fun h => mem_getD (Shard.get_sub h)) id

/-- **An insertion adds what is inserted**, and nothing else. -/
theorem mem_put {value : α} (h : p ∈ (c.put hash weight key value).entries) :
    p = (key, value) ∨ p ∈ c.entries := by
  unfold put at h
  split at h
  · exact .inr h
  · exact (mem_set h).elim (fun h => (Shard.put_sub h).imp_right mem_getD) .inr

end ShardedLruCache

end Cache

/-- Two entries of weight 6 do not fit into one share of 10. -/
example : (((ShardedLruCache.new 1 10).put (fun _ => 0) id 1 6).put (fun _ => 0) id 2 6).entries =
    [(2, 6)] := by
  decide

end BedrockKV
