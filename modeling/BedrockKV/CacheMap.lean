/-
# `BedrockKV.CacheMap` — the cache with its map, over whole runs

`lru_cache.h` once more, with what `BedrockKV.LruCache` leaves out.  A shard
has a list of nodes, a map from keys to nodes, and a weight, each of which an
operation updates by itself; an iterator is the number of a node, and to follow
one whose node is gone is undefined (`none`).  Weights are machine words.

`Linked` says that the map leads to the nodes of the list, each key once.  A
linked shard does what the shard of `LruCache` does (`Linked.get`,
`Linked.put`), as long as no sum of weights leaves the word, and so does the
cache (`Inv.get`, `Inv.put`).  `Tracks` follows the entries of a list along a
run: whose `Put` they come from, and when they were last used.

One thing goes wrong.  A value heavier than the whole budget is not taken, and
the value that the key had before stays: `run_stale`.
-/
import BedrockKV.LruCache

namespace BedrockKV.LruMap

open List Keyed

/-- The nodes of `lru`, each with a number that stands for its address; `fresh` numbers the next. -/
structure Shard (κ α : Type) where
  lru : List (Nat × (κ × α))
  map : List (κ × Nat)
  weight : UInt64
  fresh : Nat

structure ShardedLruCache (κ α : Type) where
  shard : List (Shard κ α)
  shards : UInt64
  maxTotalWeight : UInt64
  shardWeightCap : UInt64

section Defs

variable {κ α : Type} [DecidableEq κ]

namespace Shard

def empty : Shard κ α := ⟨[], [], 0, 0⟩

/-- What an iterator points at. -/
def deref (s : Shard κ α) (id : Nat) : Option (κ × α) := Keyed.get? s.lru id

def get (s : Shard κ α) (key : κ) : Option (Option α × Shard κ α) :=
  match Keyed.get? s.map key with
  | none => some (none, s)
  | some id => (s.deref id).map fun p =>
    (some p.2, { s with lru := (id, p) :: Keyed.erase s.lru id })

/-- `Put` up to its loop. -/
def insert (weight : α → UInt64) (s : Shard κ α) (key : κ) (value : α) : Option (Shard κ α) :=
  match Keyed.get? s.map key with
  | some id => (s.deref id).map fun p =>
    { s with
      lru := (id, (p.1, value)) :: Keyed.erase s.lru id
      weight := s.weight - weight p.2 + weight value }
  | none => some
      { lru := (s.fresh, (key, value)) :: s.lru
        map := Keyed.set s.map key s.fresh
        weight := s.weight + weight value
        fresh := s.fresh + 1 }

/-- The loop, on the list from its end. -/
def evict (weight : α → UInt64) (cap : UInt64) : Shard κ α → List (Nat × (κ × α)) → Shard κ α
  | s, [] => { s with lru := [] }
  | s, victim :: rest =>
    if cap < s.weight then
      evict weight cap { s with
        weight := s.weight - weight victim.2.2
        map := Keyed.erase s.map victim.2.1 } rest
    else { s with lru := (victim :: rest).reverse }

def put (weight : α → UInt64) (cap : UInt64) (s : Shard κ α) (key : κ) (value : α) :
    Option (Shard κ α) :=
  (s.insert weight key value).map fun s' => s'.evict weight cap s'.lru.reverse

end Shard

inductive Op (κ α : Type) where
  | put (key : κ) (value : α)
  | get (key : κ)
  | clear

namespace ShardedLruCache

def new (shards maxTotalWeight : UInt64) : ShardedLruCache κ α where
  shard := List.replicate shards.toNat .empty
  shards := shards
  maxTotalWeight := maxTotalWeight
  shardWeightCap := if maxTotalWeight / shards = 0 then 1 else maxTotalWeight / shards

variable (hash : κ → UInt64) (weight : α → UInt64)

def shardOf (c : ShardedLruCache κ α) (key : κ) : Nat := (hash key % c.shards).toNat

def get (c : ShardedLruCache κ α) (key : κ) : Option (Option α × ShardedLruCache κ α) := do
  let s ← c.shard[c.shardOf hash key]?
  let r ← s.get key
  return (r.1, { c with shard := c.shard.set (c.shardOf hash key) r.2 })

def put (c : ShardedLruCache κ α) (key : κ) (value : α) : Option (ShardedLruCache κ α) :=
  if c.maxTotalWeight < weight value then some c
  else do
    let s ← c.shard[c.shardOf hash key]?
    let s' ← s.put weight c.shardWeightCap key value
    return { c with shard := c.shard.set (c.shardOf hash key) s' }

def clear (c : ShardedLruCache κ α) : ShardedLruCache κ α :=
  { c with shard := c.shard.map fun s => { s with lru := [], map := [], weight := 0 } }

def step (c : ShardedLruCache κ α) : Op κ α → Option (ShardedLruCache κ α)
  | .put key value => c.put hash weight key value
  | .get key => (c.get hash key).map Prod.snd
  | .clear => some c.clear

/-- A run of a new cache, the last operation first. -/
def run (shards maxTotalWeight : UInt64) : List (Op κ α) → Option (ShardedLruCache κ α)
  | [] => some (new shards maxTotalWeight)
  | op :: ops => (run shards maxTotalWeight ops).bind fun c => c.step hash weight op

end ShardedLruCache

end Defs

/-! ## The map leads to the list -/

section Shards

variable {κ α : Type} [DecidableEq κ] {weight : α → UInt64} {cap : UInt64}

/-- The keys of the list with their nodes, as the map has them. -/
def Shard.names (s : Shard κ α) : List (κ × Nat) := s.lru.map fun n => (n.2.1, n.1)

/-- The map has the keys of the list, each once, with their nodes. -/
structure Shard.Linked (s : Shard κ α) : Prop where
  ids : (s.names.map Prod.snd).Nodup
  keys : (Keyed.keys s.names).Nodup
  map : s.map.Perm s.names
  fresh : ∀ p ∈ s.names, p.2 < s.fresh

/-- The shard without its map. -/
def Shard.abs (s : Shard κ α) : BedrockKV.Shard κ α := ⟨s.lru.map Prod.snd, s.weight.toNat⟩

variable {s s' : Shard κ α} {key : κ}

omit [DecidableEq κ] in
theorem Shard.keys_names (s : Shard κ α) : Keyed.keys s.names = Keyed.keys s.abs.lru := by
  rw [Keyed.keys, Keyed.keys, Shard.names, Shard.abs, map_map, map_map]
  rfl

omit [DecidableEq κ] in
theorem Shard.ids_names (s : Shard κ α) : s.names.map Prod.snd = Keyed.keys s.lru := by
  rw [Keyed.keys, Shard.names, map_map]
  rfl

omit [DecidableEq κ] in
theorem Shard.Linked.of_perm (h : s.Linked) (hnames : s'.names.Perm s.names) (hmap : s'.map = s.map)
    (hfresh : s'.fresh = s.fresh) : s'.Linked where
  ids := (hnames.map _).nodup_iff.mpr h.ids
  keys := (hnames.map _).nodup_iff.mpr h.keys
  map := by
    rw [hmap]
    exact h.map.trans hnames.symm
  fresh p hp := by
    rw [hfresh]
    exact h.fresh p (hnames.subset hp)

omit [DecidableEq κ] in
theorem Shard.Linked.keys_perm (h : s.Linked) : (Keyed.keys s.map).Perm (Keyed.keys s.abs.lru) :=
  s.keys_names ▸ h.map.map Prod.fst

theorem Shard.Linked.miss (h : s.Linked) (hget : Keyed.get? s.map key = none) :
    Keyed.get? s.abs.lru key = none := by
  rw [get?_eq_none] at hget ⊢
  exact fun hmem => hget (h.keys_perm.mem_iff.mpr hmem)

theorem Shard.Linked.hit (h : s.Linked) {id : Nat} (hget : Keyed.get? s.map key = some id) :
    ∃ value, s.deref id = some (key, value) ∧ Keyed.get? s.abs.lru key = some value ∧
      (Keyed.erase s.lru id).map Prod.snd = Keyed.erase s.abs.lru key := by
  obtain ⟨⟨i, k, value⟩, hn, heq⟩ := mem_map.mp (h.map.subset (mem_of_get? hget))
  obtain ⟨rfl, rfl⟩ := Prod.mk.inj heq
  dsimp only at hn ⊢
  have hids := h.ids
  rw [s.ids_names] at hids
  have hkeys := h.keys
  rw [s.keys_names] at hkeys
  refine ⟨value, get?_of_mem hids hn, get?_of_mem hkeys ?_, ?_⟩
  · exact mem_map.mpr ⟨_, hn, rfl⟩
  · rw [Keyed.erase, Keyed.erase, Shard.abs, filter_map]
    refine congrArg _ (filter_congr fun m hm => decide_eq_decide.mpr (not_congr ?_))
    have hid : m.1 = i → m = (i, k, value) := fun heq =>
      inj_on_of_nodup_map hids hm hn heq
    have hnodup : (s.lru.map fun n => n.2.1).Nodup := by
      rwa [Keyed.keys, Shard.abs, map_map] at hkeys
    have hkey : m.2.1 = k → m = (i, k, value) := fun heq =>
      inj_on_of_nodup_map hnodup hm hn heq
    exact ⟨fun heq => by rw [hid heq], fun heq => by rw [hkey heq]⟩

/-- **`Get`** follows its iterator, and does what the shard without a map does. -/
theorem Shard.Linked.get (h : s.Linked) (key : κ) : ∃ s', s.get key = some ((s.abs.get key).1, s') ∧
    s'.Linked ∧ s'.abs = (s.abs.get key).2 := by
  cases hget : Keyed.get? s.map key with
  | none =>
    rw [Shard.get, hget, BedrockKV.Shard.get_miss (h.miss hget)]
    exact ⟨s, rfl, h, rfl⟩
  | some id =>
    obtain ⟨value, hderef, habs, hrest⟩ := h.hit hget
    have hids := h.ids
    rw [s.ids_names] at hids
    have hperm := cons_erase_perm hids hderef
    rw [Shard.get, hget, BedrockKV.Shard.get_hit habs]
    dsimp only
    rw [hderef]
    refine ⟨_, rfl, h.of_perm (hperm.map _) rfl rfl, ?_⟩
    rw [Shard.abs, map_cons, hrest]
    rfl

/-- Weights as numbers. -/
def nat (weight : α → UInt64) (value : α) : Nat := (weight value).toNat

omit [DecidableEq κ] in
theorem total_cons (weight : α → Nat) (p : κ × α) (l : List (κ × α)) :
    BedrockKV.Shard.total weight (p :: l) = weight p.2 + BedrockKV.Shard.total weight l :=
  sum_cons

/-- **`Put` up to its loop**, if the sum of the weights fits the word. -/
theorem Shard.Linked.insert (h : s.Linked) {cap : Nat} (hs : s.abs.Sound (nat weight) cap)
    {value : α}
    (hword : nat weight value + BedrockKV.Shard.total (nat weight) (Keyed.erase s.abs.lru key) <
      2 ^ 64) :
    ∃ s', s.insert weight key value = some s' ∧ s'.Linked ∧
      s'.abs = s.abs.insert (nat weight) key value := by
  have habs : ∀ s' : Shard κ α, s'.abs.lru = (key, value) :: Keyed.erase s.abs.lru key →
      s'.weight.toNat = nat weight value +
        BedrockKV.Shard.total (nat weight) (Keyed.erase s.abs.lru key) →
      s'.abs = s.abs.insert (nat weight) key value := by
    intro s' hlru hweight
    have hlru' := hlru.trans (BedrockKV.Shard.insert_lru (nat weight) s.abs key value).symm
    have hweight' := (hs.insert_weight key value).trans (total_cons _ _ _)
    calc s'.abs = ⟨s'.abs.lru, s'.weight.toNat⟩ := rfl
      _ = ⟨(s.abs.insert (nat weight) key value).lru,
        (s.abs.insert (nat weight) key value).weight⟩ := by
          rw [hlru', hweight, hweight']
  have htotal : s.weight.toNat = _ := hs.weight_eq
  cases hget : Keyed.get? s.map key with
  | none =>
    have hmiss := get?_eq_none.mp (h.miss hget)
    have herase := erase_of_notMem hmiss
    rw [herase] at hword
    rw [Shard.insert, hget]
    refine ⟨_, rfl, ⟨?_, ?_, ?_, ?_⟩, habs _ ?_ ?_⟩
    · refine nodup_cons.mpr ⟨fun hmem => ?_, h.ids⟩
      obtain ⟨p, hp, heq⟩ := mem_map.mp hmem
      exact lt_irrefl _ (heq ▸ h.fresh p hp)
    · refine nodup_cons.mpr ⟨fun hmem => hmiss ?_, h.keys⟩
      exact s.keys_names ▸ hmem
    · rw [set_of_notMem (get?_eq_none.mp hget)]
      exact (perm_append_singleton _ _).trans (h.map.cons _)
    · intro p hp
      rcases mem_cons.mp hp with rfl | hp
      · exact Nat.lt_succ_self _
      · exact Nat.lt_succ_of_lt (h.fresh p hp)
    · rw [herase]
      rfl
    · rw [UInt64.toNat_add, htotal, herase]
      simp only [nat] at hword ⊢
      omega
  | some id =>
    obtain ⟨old, hderef, hold, hrest⟩ := h.hit hget
    have hids := h.ids
    rw [s.ids_names] at hids
    have hnames := (cons_erase_perm hids hderef).map fun n => (n.2.1, n.1)
    have hparts : BedrockKV.Shard.total (nat weight) _ = _ :=
      BedrockKV.Shard.total_perm (cons_erase_perm hs.keys hold)
    rw [total_cons] at hparts
    rw [Shard.insert, hget]
    dsimp only
    rw [hderef]
    refine ⟨_, rfl, h.of_perm hnames rfl rfl, habs _ ?_ ?_⟩
    · exact congrArg _ hrest
    · have hle : weight old ≤ s.weight := by
        rw [UInt64.le_iff_toNat_le, htotal, ← hparts]
        exact Nat.le_add_right _ _
      rw [UInt64.toNat_add, UInt64.toNat_sub_of_le _ _ hle, htotal, ← hparts]
      simp only [nat] at hword ⊢
      omega

omit [DecidableEq κ] in
theorem Shard.names_concat (s : Shard κ α) (l : List (Nat × (κ × α))) (n : Nat × (κ × α)) :
    ({ s with lru := l ++ [n] } : Shard κ α).names =
      ({ s with lru := l } : Shard κ α).names ++ [(n.2.1, n.1)] := map_append

theorem Shard.Linked.evict (cap : UInt64) {l : List (Nat × (κ × α))} : ∀ {s : Shard κ α},
    ({ s with lru := l.reverse } : Shard κ α).Linked →
    s.weight.toNat = BedrockKV.Shard.total (nat weight) (l.map Prod.snd) →
    (s.evict weight cap l).Linked ∧ (s.evict weight cap l).abs =
      BedrockKV.Shard.evict (nat weight) cap.toNat (l.map Prod.snd) s.weight.toNat := by
  induction l with
  | nil =>
    intro s h _
    exact ⟨h, rfl⟩
  | cons victim rest ih =>
    intro s h htotal
    rw [Shard.evict, map_cons, BedrockKV.Shard.evict]
    by_cases hfull : cap < s.weight
    · rw [map_cons, total_cons] at htotal
      have hle : weight victim.2.2 ≤ s.weight := by
        rw [UInt64.le_iff_toNat_le, htotal]
        exact Nat.le_add_right _ _
      have hsub : (s.weight - weight victim.2.2).toNat = s.weight.toNat - nat weight victim.2.2 :=
        UInt64.toNat_sub_of_le _ _ hle
      rw [if_pos hfull, if_pos (UInt64.lt_iff_toNat_lt.mp hfull), ← hsub]
      -- the victim is the last of the list, and its key is in no other node
      rw [reverse_cons] at h
      obtain ⟨hids, hkeys, hmap, hfresh⟩ := h
      rw [Shard.names_concat] at hids hkeys hmap hfresh
      rw [map_append] at hids
      rw [Keyed.keys_append, nodup_append] at hkeys
      refine ih ⟨(nodup_append.mp hids).1, hkeys.1, ?_, ?_⟩ ?_
      · have hnot : victim.2.1 ∉ Keyed.keys ({ s with lru := rest.reverse } : Shard κ α).names :=
          fun hmem => hkeys.2.2 _ hmem _ mem_cons_self rfl
        have herase := hmap.filter fun p => decide (p.1 ≠ victim.2.1)
        rwa [← Keyed.erase, ← Keyed.erase, Keyed.erase_concat hnot] at herase
      · exact fun p hp => hfresh p (mem_append_left _ hp)
      · rw [hsub, htotal]
        exact Nat.add_sub_cancel_left _ _
    · rw [if_neg hfull, if_neg (fun hlt => hfull (UInt64.lt_iff_toNat_lt.mpr hlt))]
      refine ⟨h, ?_⟩
      rw [Shard.abs, map_reverse]
      rfl

/-- **`Put`**, if the sum of the weights fits the word. -/
theorem Shard.Linked.put (h : s.Linked) (hs : s.abs.Sound (nat weight) cap.toNat) {value : α}
    (hword : nat weight value + BedrockKV.Shard.total (nat weight) (Keyed.erase s.abs.lru key) <
      2 ^ 64) :
    ∃ s', s.put weight cap key value = some s' ∧ s'.Linked ∧
      s'.abs = s.abs.put (nat weight) cap.toNat key value := by
  obtain ⟨t, hinsert, ht, habs⟩ := h.insert hs hword
  have htotal : t.weight.toNat = BedrockKV.Shard.total (nat weight)
      (t.lru.reverse.map Prod.snd) := by
    rw [map_reverse, BedrockKV.Shard.total_perm (reverse_perm _)]
    change t.abs.weight = BedrockKV.Shard.total (nat weight) t.abs.lru
    rw [habs, hs.insert_weight, BedrockKV.Shard.insert_lru]
  obtain ⟨hlinked, hevict⟩ := Shard.Linked.evict cap (s := t) (by rwa [reverse_reverse]) htotal
  rw [Shard.put, hinsert]
  refine ⟨_, rfl, hlinked, ?_⟩
  rw [hevict, BedrockKV.Shard.put, ← habs, map_reverse]
  rfl

end Shards

/-! ## What an entry is followed by -/

section Runs

variable {κ α : Type} [DecidableEq κ]

/-- The key that an operation uses. -/
def Op.key? : Op κ α → Option κ
  | .put key _ => some key
  | .get key => some key
  | .clear => none

/-- The value of the most recent `Put` of a key. -/
def lastPut : List (Op κ α) → κ → Option α
  | [], _ => none
  | .put key value :: ops, k => if key = k then some value else lastPut ops k
  | _ :: ops, k => lastPut ops k

/-- When a key was used for the last time, counted from 1. -/
def lastUse : List (Op κ α) → κ → Nat
  | [], _ => 0
  | op :: ops, k => if op.key? = some k then ops.length + 1 else lastUse ops k

theorem lastUse_le (ops : List (Op κ α)) (k : κ) : lastUse ops k ≤ ops.length := by
  induction ops with
  | nil => exact le_rfl
  | cons op ops ih =>
    rw [lastUse]
    split
    · exact le_rfl
    · exact Nat.le_succ_of_le ih

/-- The entries of a list have the values of the last `Put`s, and are in the order of their last
use. -/
structure Tracks (ops : List (Op κ α)) (l : List (κ × α)) : Prop where
  last : ∀ p ∈ l, lastPut ops p.1 = some p.2
  recent : l.Pairwise fun a b => lastUse ops b.1 < lastUse ops a.1

variable {ops : List (Op κ α)} {l l' : List (κ × α)} {op : Op κ α}

theorem tracks_nil (ops : List (Op κ α)) : Tracks ops ([] : List (κ × α)) := ⟨nofun, .nil⟩

theorem Tracks.sublist (h : Tracks ops l) (hsub : l'.Sublist l) : Tracks ops l' :=
  ⟨fun p hp => h.last p (hsub.subset hp), h.recent.sublist hsub⟩

theorem lastPut_of_ne {k : κ} (h : op.key? ≠ some k) : lastPut (op :: ops) k = lastPut ops k := by
  cases op with
  | put key value => exact if_neg fun heq => h (congrArg some heq)
  | get key | clear => rfl

theorem Tracks.other (h : Tracks ops l) (hne : ∀ p ∈ l, op.key? ≠ some p.1) :
    Tracks (op :: ops) l := by
  have huse : ∀ p ∈ l, lastUse (op :: ops) p.1 = lastUse ops p.1 := fun p hp => if_neg (hne p hp)
  refine ⟨fun p hp => ?_, h.recent.imp_of_mem fun {a b} ha hb hab => ?_⟩
  · rw [lastPut_of_ne (hne p hp)]
    exact h.last p hp
  · rwa [huse a ha, huse b hb]

theorem Tracks.front (h : Tracks ops l) {key : κ} {value : α} (hop : op.key? = some key)
    (hlast : lastPut (op :: ops) key = some value) :
    Tracks (op :: ops) ((key, value) :: Keyed.erase l key) := by
  have hne : ∀ p ∈ Keyed.erase l key, op.key? ≠ some p.1 := by
    intro p hp heq
    rw [hop] at heq
    exact (mem_erase.mp hp).2 (Option.some.inj heq).symm
  have hrest := (h.sublist (filter_sublist (l := l))).other hne
  refine ⟨?_, pairwise_cons.mpr ⟨fun p hp => ?_, hrest.recent⟩⟩
  · intro p hp
    rcases mem_cons.mp hp with rfl | hp
    · exact hlast
    · exact hrest.last p hp
  · have hle := lastUse_le ops p.1
    rw [lastUse, if_neg (hne p hp), lastUse, if_pos hop]
    omega

/-! ## The cache -/

variable (hash : κ → UInt64) (weight : α → UInt64)

/-- What a `Put` has to keep to: a value that is too heavy for the cache is put under a key that is
not in it, and any other value has a place in the word beside the other entries of its shard. -/
def Allowed (c : ShardedLruCache κ α) : Op κ α → Prop
  | .put key value => ∀ s ∈ c.shard[c.shardOf hash key]?,
      if c.maxTotalWeight < weight value then key ∉ Keyed.keys s.map
      else nat weight value + BedrockKV.Shard.total (nat weight)
        (Keyed.erase (s.lru.map Prod.snd) key) < 2 ^ 64
  | _ => True

instance (c : ShardedLruCache κ α) : ∀ op, Decidable (Allowed hash weight c op)
  | .put _ _ => inferInstanceAs (Decidable (∀ _ ∈ _, _))
  | .get _ => inferInstanceAs (Decidable True)
  | .clear => inferInstanceAs (Decidable True)

/-- **The invariant** of a run. -/
structure Inv (ops : List (Op κ α)) (c : ShardedLruCache κ α) : Prop where
  pos : 0 < c.shards.toNat
  length : c.shard.length = c.shards.toNat
  linked : ∀ s ∈ c.shard, s.Linked
  sound : ∀ s ∈ c.shard, s.abs.Sound (nat weight) c.shardWeightCap.toNat
  home : ∀ i s, c.shard[i]? = some s → ∀ p ∈ s.abs.lru, c.shardOf hash p.1 = i
  tracks : ∀ s ∈ c.shard, Tracks ops s.abs.lru

variable {hash weight} {c : ShardedLruCache κ α} {key : κ}

theorem inv_new {shards : UInt64} (hpos : 0 < shards) (maxTotalWeight : UInt64) :
    Inv hash weight ([] : List (Op κ α)) (ShardedLruCache.new shards maxTotalWeight) := by
  have hempty : ∀ s ∈ (ShardedLruCache.new shards maxTotalWeight : ShardedLruCache κ α).shard,
      s = .empty := fun s hs => eq_of_mem_replicate hs
  refine ⟨UInt64.lt_iff_toNat_lt.mp hpos, length_replicate, fun s hs => ?_, fun s hs => ?_,
    fun i s hs p hp => ?_, fun s hs => ?_⟩
  · rw [hempty s hs]
    exact ⟨.nil, .nil, .nil, nofun⟩
  · rw [hempty s hs]
    exact BedrockKV.Shard.sound_empty
  · rw [hempty s (mem_of_getElem? hs)] at hp
    cases hp
  · rw [hempty s hs]
    exact tracks_nil _

section

variable (h : Inv hash weight ops c)
include h

theorem Inv.clear : Inv hash weight (.clear :: ops) c.clear := by
  have hempty : ∀ s ∈ c.clear.shard, s.abs = .empty ∧ s.Linked := by
    intro s hs
    obtain ⟨t, -, rfl⟩ := mem_map.mp hs
    exact ⟨rfl, .nil, .nil, .nil, nofun⟩
  refine ⟨h.pos, (length_map _).trans h.length, fun s hs => (hempty s hs).2, fun s hs => ?_,
    fun i s hs p hp => ?_, fun s hs => ?_⟩
  · rw [(hempty s hs).1]
    exact BedrockKV.Shard.sound_empty
  · rw [(hempty s (mem_of_getElem? hs)).1] at hp
    cases hp
  · rw [(hempty s hs).1]
    exact tracks_nil _

theorem Inv.exists_shard (key : κ) :
    ∃ s, c.shard[c.shardOf hash key]? = some s := by
  refine ⟨_, getElem?_eq_getElem ?_⟩
  rw [h.length, ShardedLruCache.shardOf, UInt64.toNat_mod]
  exact Nat.mod_lt _ h.pos

theorem Inv.unused
    (hne : ∀ s ∈ c.shard, ∀ p ∈ s.abs.lru, op.key? ≠ some p.1) : Inv hash weight (op :: ops) c :=
  { h with tracks := fun s hs => (h.tracks s hs).other (hne s hs) }

theorem Inv.set (hop : op.key? = some key) {s' : Shard κ α}
    (hlinked : s'.Linked) (hsound : s'.abs.Sound (nat weight) c.shardWeightCap.toNat)
    (hhome : ∀ p ∈ s'.abs.lru, c.shardOf hash p.1 = c.shardOf hash key)
    (htracks : Tracks (op :: ops) s'.abs.lru) :
    Inv hash weight (op :: ops) { c with shard := c.shard.set (c.shardOf hash key) s' } := by
  have hmem : ∀ s ∈ c.shard.set (c.shardOf hash key) s', s ∈ c.shard ∨ s = s' :=
    fun s hs => mem_or_eq_of_mem_set hs
  refine ⟨h.pos, (length_set ..).trans h.length, fun s hs => ?_, fun s hs => ?_,
    fun i s hs p hp => ?_, fun s hs => ?_⟩
  · rcases hmem s hs with hs | rfl
    · exact h.linked s hs
    · exact hlinked
  · rcases hmem s hs with hs | rfl
    · exact h.sound s hs
    · exact hsound
  · rw [getElem?_set] at hs
    split at hs
    · next hi =>
      split at hs
      · rw [← Option.some.inj hs] at hp
        exact (hhome p hp).trans hi
      · cases hs
    · exact h.home i s hs p hp
  · -- a shard that is not the key's does not have the key
    obtain ⟨i, hi⟩ := mem_iff_getElem?.mp hs
    rw [getElem?_set] at hi
    split at hi
    · split at hi
      · rwa [← Option.some.inj hi]
      · cases hi
    · next hne =>
      refine (h.tracks s (mem_of_getElem? hi)).other fun p hp heq => hne ?_
      rw [hop] at heq
      rw [Option.some.inj heq]
      exact h.home i s hi p hp

/-- The cache without its maps. -/
def ShardedLruCache.abs (c : ShardedLruCache κ α) : BedrockKV.ShardedLruCache κ α :=
  ⟨c.shard.map Shard.abs, c.maxTotalWeight.toNat, c.shardWeightCap.toNat⟩

theorem Inv.shardOf_abs (key : κ) :
    c.abs.shardOf (fun k => (hash k).toNat) key = c.shardOf hash key := by
  rw [BedrockKV.ShardedLruCache.shardOf, ShardedLruCache.abs, length_map, h.length,
    ShardedLruCache.shardOf, UInt64.toNat_mod]

end

omit [DecidableEq κ] in
theorem ShardedLruCache.getD_abs {i : Nat} {s : Shard κ α} (hs : c.shard[i]? = some s) :
    c.abs.shard.getD i .empty = s.abs := by
  rw [getD_eq_getElem?_getD, ShardedLruCache.abs, getElem?_map, hs]
  rfl

theorem Inv.home_front (h : Inv hash weight ops c) {s : Shard κ α}
    (hs : c.shard[c.shardOf hash key]? = some s) (value : α) {p : κ × α}
    (hp : p ∈ (key, value) :: Keyed.erase s.abs.lru key) :
    c.shardOf hash p.1 = c.shardOf hash key := by
  rcases mem_cons.mp hp with rfl | hp
  · rfl
  · exact h.home _ s hs p (mem_erase.mp hp).1

/-- **`Get`**: a hit is the value of the last `Put`. -/
theorem Inv.get (h : Inv hash weight ops c) (key : κ) : ∃ v c', c.get hash key = some (v, c') ∧
    Inv hash weight (.get key :: ops) c' ∧ (∀ value ∈ v, lastPut ops key = some value) ∧
    c.abs.get (fun k => (hash k).toNat) key = (v, c'.abs) := by
  obtain ⟨s, hs⟩ := h.exists_shard key
  have hmem := mem_of_getElem? hs
  obtain ⟨s', hget, hlinked, habs⟩ := (h.linked s hmem).get key
  have hsound := (h.sound s hmem).get key
  rw [← habs] at hsound
  have hrun : c.get hash key = some ((s.abs.get key).1,
      { c with shard := c.shard.set (c.shardOf hash key) s' }) := by
    simp [ShardedLruCache.get, hs, hget]
  have hsim : c.abs.get (fun k => (hash k).toNat) key = ((s.abs.get key).1,
      ShardedLruCache.abs { c with shard := c.shard.set (c.shardOf hash key) s' }) := by
    rw [BedrockKV.ShardedLruCache.get, h.shardOf_abs, ShardedLruCache.getD_abs hs, ← habs]
    simp [ShardedLruCache.abs, map_set]
  refine ⟨_, _, hrun, ?_, ?_, hsim⟩
  · cases hlookup : Keyed.get? s.abs.lru key with
    | none =>
      rw [BedrockKV.Shard.get_miss hlookup] at habs
      have hnot := get?_eq_none.mp hlookup
      refine h.set rfl hlinked hsound (fun p hp => ?_) ?_
      · rw [habs] at hp
        exact h.home _ s hs p hp
      · rw [habs]
        refine (h.tracks s hmem).other fun p hp heq => hnot ?_
        rw [Option.some.inj heq]
        exact mem_map_of_mem hp
    | some value =>
      rw [BedrockKV.Shard.get_hit hlookup] at habs
      refine h.set rfl hlinked hsound (fun p hp => ?_) ?_
      · rw [habs] at hp
        exact h.home_front hs value hp
      · rw [habs]
        exact (h.tracks s hmem).front rfl ((h.tracks s hmem).last _ (mem_of_get? hlookup))
  · intro value hvalue
    exact (h.tracks s hmem).last _ (BedrockKV.Shard.mem_get hvalue)

/-- What a shard loses has not been used since anything it keeps was. -/
def Evicts (ops : List (Op κ α)) (c c' : ShardedLruCache κ α) : Prop :=
  ∀ (i : Nat) (s s' : Shard κ α), c.shard[i]? = some s → c'.shard[i]? = some s' →
    ∀ k ∈ Keyed.keys s.map, k ∉ Keyed.keys s'.map →
      ∀ k' ∈ Keyed.keys s'.map, lastUse ops k < lastUse ops k'

theorem evicted {value : α} {kept dropped : List (κ × α)}
    (hfront : (key, value) :: Keyed.erase l key = kept ++ dropped)
    (htracks : Tracks ops ((key, value) :: Keyed.erase l key)) {k k' : κ} (hk : k ∈ Keyed.keys l)
    (hnot : k ∉ Keyed.keys kept) (hk' : k' ∈ Keyed.keys kept) : lastUse ops k < lastUse ops k' := by
  have hin : k ∈ Keyed.keys ((key, value) :: Keyed.erase l key) := by
    by_cases heq : k = key
    · exact heq ▸ mem_cons_self
    · obtain ⟨a, ha⟩ := Keyed.mem_keys.mp hk
      exact Keyed.mem_keys.mpr ⟨a, mem_cons_of_mem _ (Keyed.mem_erase.mpr ⟨ha, heq⟩)⟩
  rw [hfront] at hin htracks
  rw [Keyed.keys_append] at hin
  obtain ⟨a, ha⟩ := Keyed.mem_keys.mp ((mem_append.mp hin).resolve_left hnot)
  obtain ⟨b, hb⟩ := Keyed.mem_keys.mp hk'
  exact (pairwise_append.mp htracks.recent).2.2 (k', b) hb (k, a) ha

/-- **`Put`**: the least recently used entries make room. -/
theorem Inv.put (h : Inv hash weight ops c) {value : α}
    (hallowed : Allowed hash weight c (.put key value)) :
    ∃ c', c.put hash weight key value = some c' ∧
    Inv hash weight (.put key value :: ops) c' ∧ Evicts (.put key value :: ops) c c' ∧
    c'.abs = c.abs.put (fun k => (hash k).toNat) (nat weight) key value := by
  obtain ⟨s, hs⟩ := h.exists_shard key
  have hmem := mem_of_getElem? hs
  have hallowed := hallowed s hs
  by_cases hheavy : c.maxTotalWeight < weight value
  · -- the value is not taken, and the key has no entry
    rw [if_pos hheavy] at hallowed
    refine ⟨c, if_pos hheavy, h.unused fun t ht p hp heq => ?_, ?_, ?_⟩
    · obtain ⟨i, hi⟩ := mem_iff_getElem?.mp ht
      have hkey : key = p.1 := Option.some.inj heq
      have hhome := h.home i t hi p hp
      rw [← hhome, ← hkey, hs] at hi
      cases hi
      refine hallowed ((h.linked s hmem).keys_perm.mem_iff.mpr ?_)
      exact hkey ▸ mem_map_of_mem hp
    · intro i t t' ht ht' k hk hk'
      rw [ht] at ht'
      rw [Option.some.inj ht'] at hk
      exact absurd hk hk'
    · rw [BedrockKV.ShardedLruCache.put]
      exact (if_pos (UInt64.lt_iff_toNat_lt.mp hheavy)).symm
  · rw [if_neg hheavy] at hallowed
    obtain ⟨s', hput, hlinked, habs⟩ := (h.linked s hmem).put (h.sound s hmem) hallowed
    obtain ⟨hsound, dropped, hfront⟩ := (h.sound s hmem).put key value
    rw [← habs] at hsound hfront
    have htracks : Tracks (.put key value :: ops) ((key, value) :: Keyed.erase s.abs.lru key) :=
      (h.tracks s hmem).front rfl (if_pos rfl)
    have hrun : c.put hash weight key value =
        some { c with shard := c.shard.set (c.shardOf hash key) s' } := by
      simp [ShardedLruCache.put, hheavy, hs, hput]
    refine ⟨_, hrun, h.set rfl hlinked hsound (fun p hp => ?_) ?_, ?_, ?_⟩
    · refine h.home_front hs value ?_
      rw [hfront]
      exact mem_append_left _ hp
    · rw [hfront] at htracks
      exact htracks.sublist (sublist_append_left _ _)
    · intro i t t' ht ht' k hk hk' k₂ hk₂
      rw [getElem?_set] at ht'
      split at ht'
      · next hi =>
        rw [← hi, hs] at ht
        cases ht
        split at ht'
        · cases ht'
          exact evicted hfront htracks ((h.linked s hmem).keys_perm.mem_iff.mp hk)
            (fun hin => hk' (hlinked.keys_perm.mem_iff.mpr hin)) (hlinked.keys_perm.mem_iff.mp hk₂)
        · cases ht'
      · rw [ht] at ht'
        rw [Option.some.inj ht'] at hk
        exact absurd hk hk'
    · have hlight : ¬ c.abs.maxTotalWeight < nat weight value :=
        fun hlt => hheavy (UInt64.lt_iff_toNat_lt.mpr hlt)
      rw [BedrockKV.ShardedLruCache.put, h.shardOf_abs, if_neg hlight]
      dsimp only
      rw [ShardedLruCache.getD_abs hs]
      simp [ShardedLruCache.abs, map_set, habs]

/-- Every `Put` of a run keeps to what it has to. -/
def Meets (hash : κ → UInt64) (weight : α → UInt64) (shards maxTotalWeight : UInt64) :
    List (Op κ α) → Prop
  | [] => True
  | op :: ops => Meets hash weight shards maxTotalWeight ops ∧
      ∀ c ∈ ShardedLruCache.run hash weight shards maxTotalWeight ops, Allowed hash weight c op

instance decidableMeets (shards maxTotalWeight : UInt64) : ∀ ops : List (Op κ α),
    Decidable (Meets hash weight shards maxTotalWeight ops)
  | [] => inferInstanceAs (Decidable True)
  | _ :: ops =>
    have := decidableMeets shards maxTotalWeight ops
    inferInstanceAs (Decidable (_ ∧ ∀ _ ∈ _, _))

theorem run_inv {shards maxTotalWeight : UInt64} (hpos : 0 < shards) {ops : List (Op κ α)}
    (hmeets : Meets hash weight shards maxTotalWeight ops) :
    ∃ c, ShardedLruCache.run hash weight shards maxTotalWeight ops = some c ∧
      Inv hash weight ops c := by
  induction ops with
  | nil => exact ⟨_, rfl, inv_new hpos maxTotalWeight⟩
  | cons op ops ih =>
    obtain ⟨c, hrun, h⟩ := ih hmeets.1
    rw [ShardedLruCache.run, hrun, Option.bind_some]
    cases op with
    | put key value =>
      obtain ⟨c', hput, h', -⟩ := h.put (hmeets.2 c hrun)
      exact ⟨c', hput, h'⟩
    | get key =>
      obtain ⟨v, c', hget, h', -⟩ := h.get key
      exact ⟨c', congrArg (Option.map Prod.snd) hget, h'⟩
    | clear => exact ⟨_, rfl, h.clear⟩

/-- The cache after `ops`: a hit is the value of the last `Put` of the key; in every shard the
recorded weight is that of the entries and within the shard's share, map and list have the same
keys, each once, and the list is in the order of last use; and the next `Put`, if it is allowed,
drops entries used before all that stay. -/
structure Coherent (hash : κ → UInt64) (weight : α → UInt64) (ops : List (Op κ α))
    (c : ShardedLruCache κ α) : Prop where
  hit : ∀ key value c', c.get hash key = some (some value, c') → lastPut ops key = some value
  weight_eq : ∀ s ∈ c.shard, s.weight.toNat = (s.lru.map fun n => (weight n.2.2).toNat).sum
  cap : ∀ s ∈ c.shard, s.weight ≤ c.shardWeightCap
  keys : ∀ s ∈ c.shard, (Keyed.keys s.map).Perm (s.lru.map fun n => n.2.1) ∧
    (Keyed.keys s.map).Nodup
  recent : ∀ s ∈ c.shard, s.lru.Pairwise fun a b => lastUse ops b.2.1 < lastUse ops a.2.1
  evicts : ∀ key value, Allowed hash weight c (.put key value) →
    ∃ c', c.put hash weight key value = some c' ∧ Evicts (.put key value :: ops) c c'

theorem Inv.coherent (h : Inv hash weight ops c) : Coherent hash weight ops c where
  hit key value c' hget := by
    obtain ⟨v, c₂, hget₂, -, hlast, -⟩ := h.get key
    rw [hget] at hget₂
    exact hlast value (congrArg Prod.fst (Option.some.inj hget₂)).symm
  weight_eq s hs := by
    have htotal := (h.sound s hs).weight_eq
    rwa [BedrockKV.Shard.total, Shard.abs, map_map] at htotal
  cap s hs := UInt64.le_iff_toNat_le.mpr (h.sound s hs).cap
  keys s hs := by
    have hperm := (h.linked s hs).keys_perm
    refine ⟨?_, hperm.nodup_iff.mpr (h.sound s hs).keys⟩
    rwa [Keyed.keys, Keyed.keys, Shard.abs, map_map] at hperm
  recent s hs := pairwise_map.mp (h.tracks s hs).recent
  evicts key value hallowed := by
    obtain ⟨c', hput, -, hevicts, -⟩ := h.put hallowed
    exact ⟨c', hput, hevicts⟩

/-- **Every run of the cache** whose `Put`s keep to what they have to is defined, and coherent in
every state. -/
theorem run_coherent {shards maxTotalWeight : UInt64} (hpos : 0 < shards) {ops : List (Op κ α)}
    (hmeets : Meets hash weight shards maxTotalWeight ops) :
    ∃ c, ShardedLruCache.run hash weight shards maxTotalWeight ops = some c ∧
      Coherent hash weight ops c := by
  obtain ⟨c, hrun, h⟩ := run_inv hpos hmeets
  exact ⟨c, hrun, h.coherent⟩

end Runs

/-- Two shards that share 10, the odd keys in one of them: the last `Put` drops key 3. -/
def sampleOps : List (Op Nat UInt64) :=
  [.put 5 2, .get 1, .put 3 1, .put 2 5, .put 1 3]

theorem run_coherent_sampleOps : Meets UInt64.ofNat id 2 10 sampleOps ∧ ∃ c,
    ShardedLruCache.run UInt64.ofNat id 2 10 sampleOps = some c ∧
      Coherent UInt64.ofNat id sampleOps c := by
  have hmeets : Meets UInt64.ofNat id 2 10 sampleOps := by decide +kernel
  exact ⟨hmeets, run_coherent (by decide) hmeets⟩

/-- **A stale hit**: the second value of the key is too heavy for the cache, and the first stays. -/
theorem run_stale : ((ShardedLruCache.run UInt64.ofNat id 1 10 [.put 7 11, .put 7 3]).bind
      fun c => c.get UInt64.ofNat 7).map Prod.fst = some (some 3) ∧
    lastPut [.put 7 11, .put 7 3] 7 = some (11 : UInt64) := by
  decide +kernel

end BedrockKV.LruMap
