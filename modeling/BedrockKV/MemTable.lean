/-
# `BedrockKV.MemTable` — the memtable in its skiplist

`memtable.h` and `memtable.cpp`, over `BedrockKV.SkipList`.  The list keeps
whole entries, and its comparator finds the user key and the tag by the length
in front:

    [klen u32][user_key][tag u64][value]

Everything else in the store orders internal keys, `user_key ++ tag`, from
their end.  `keyBuf` is the internal key that the iterator shows of an entry,
and on it the two comparators agree, whatever the bytes are
(`comparator_eq`).  A seek for an internal key puts a length in front of it;
from 2^32 bytes on the length is cut, and the seek is one for the front part
`seekKey` of the target.

`Holds` connects a memtable with the versions written to it, through the runs
of the skiplist, and `memTable_shows_iff` says when everything that reads a
memtable shows those versions.
-/
import BedrockKV.Merging
import BedrockKV.SkipList
import BedrockKV.SstTable

namespace BedrockKV.Mem

open List Chain Chunks Loop MultiVersion SkipList Sst

/-! ## Entries -/

def kLenPrefixSize : Nat := 4
def kTagSize : Nat := 8

/-- What `Put`, `Delete` and `Get` build: the length is written into 32 bits, the tag into 64. -/
def encode (key : Bytes) (tag : Nat) (value : Bytes) : Bytes :=
  putFixed32 key.length ++ key ++ putFixed64 tag ++ value

def klen (entry : Bytes) : Nat := getFixed32 entry

def userKey (entry : Bytes) : Bytes := (entry.drop kLenPrefixSize).take (klen entry)

def tag (entry : Bytes) : Nat := getFixed64 (entry.drop (kLenPrefixSize + klen entry))

def value (entry : Bytes) : Bytes := entry.drop (kLenPrefixSize + klen entry + kTagSize)

/-- `MemTable::Comparator`. -/
def comparator (a b : Bytes) : Bool :=
  if userKey a ≠ userKey b then decide (userKey a < userKey b) else decide (tag b < tag a)

/-! ## MemTable -/

/-- `list_`, of which this is the writer's view, and `approximate_size_`. -/
structure MemTable where
  list : Writer Bytes
  approximateSize : Nat

namespace MemTable

def new : MemTable := ⟨Writer.new, 0⟩

/-- `list_.Insert(entry)`, all of it, and what it adds to the size. -/
def insert (m : MemTable) (entry : Bytes) (height : Height) (bytes : Nat) : MemTable :=
  ⟨m.list.after comparator (insertCalls entry height), (m.approximateSize + bytes) % 2 ^ 64⟩

def put (m : MemTable) (height : Height) (seq : Nat) (key value : Bytes) : MemTable :=
  m.insert (encode key (seq * 256 + ValueType.value.code) value) height
    (key.length + value.length + kTagSize + kLenPrefixSize + 24)

def delete (m : MemTable) (height : Height) (seq : Nat) (key : Bytes) : MemTable :=
  m.insert (encode key (seq * 256 + ValueType.deletion.code) []) height
    (key.length + kTagSize + kLenPrefixSize + 24)

/-- Where `Seek` of the list's iterator lands. -/
def seek (m : MemTable) (target : Bytes) : Option Nat :=
  (m.list.list.findGreaterOrEqual comparator target).bind Prod.fst

def get (m : MemTable) (key : Bytes) (maxSeq : Nat) : Lookup :=
  match (m.seek (encode key (Table.targetTag maxSeq) [])).map m.list.list.key with
  | none => .missing
  | some ik =>
    if klen ik ≠ key.length ∨ userKey ik ≠ key then .missing
    else if tag ik % 256 = ValueType.value.code then .found (value ik)
    else .deleted

/-- One round of the loop of `ForEach`; the arguments of `fn` are kept. -/
def forEachRound (m : MemTable) : List (Nat × Nat × Bytes × Bytes) × Option Nat →
    List (Nat × Nat × Bytes × Bytes) ⊕ (List (Nat × Nat × Bytes × Bytes) × Option Nat)
  | (calls, none) => .inl calls
  | (calls, some x) =>
    let entry := m.list.list.key x
    .inr (calls ++ [(tag entry / 256, tag entry % 256, userKey entry, value entry)],
      m.list.list.next 0 x)

/-- `ForEach` ends, and has called `fn` with these arguments. -/
def ForEach (m : MemTable) (calls : List (Nat × Nat × Bytes × Bytes)) : Prop :=
  Returns m.forEachRound ([], m.list.list.next 0 head) calls

end MemTable

/-! ## MemTableIterator -/

structure MemTableIterator where
  mem : MemTable
  node : Option Nat
  keyBuf : Bytes
  value : Bytes
  valid : Bool

/-- The internal key of an entry. -/
def keyBuf (entry : Bytes) : Bytes := userKey entry ++ putFixed64 (tag entry)

namespace MemTableIterator

def new (m : MemTable) : MemTableIterator := ⟨m, none, [], [], false⟩

def decode (it : MemTableIterator) : MemTableIterator :=
  match it.node with
  | none => { it with valid := false }
  | some x =>
    let entry := it.mem.list.list.key x
    { it with keyBuf := Mem.keyBuf entry, value := Mem.value entry, valid := true }

def seekToFirst (it : MemTableIterator) : MemTableIterator :=
  decode { it with node := it.mem.list.list.next 0 head }

/-- The entry that `Seek` builds around an internal key. -/
def target (internalKey : Bytes) : Bytes :=
  putFixed32 (internalKey.length - kTagSize) ++ internalKey.take (internalKey.length - kTagSize) ++
    internalKey.drop (internalKey.length - kTagSize)

def seek (it : MemTableIterator) (internalKey : Bytes) : MemTableIterator :=
  decode { it with node := it.mem.seek (target internalKey) }

def next (it : MemTableIterator) : MemTableIterator :=
  decode { it with node := it.node.bind (it.mem.list.list.next 0) }

/-- `key()` and `value()`. -/
def pair (it : MemTableIterator) : Bytes × Bytes := (it.keyBuf, it.value)

/-- A walk from here to the end shows these pairs. -/
def Yields : MemTableIterator → List (Bytes × Bytes) → Prop :=
  Walks MemTableIterator.valid pair next

end MemTableIterator

/-! ## The two comparators -/

/-- The internal key that a seek for `internalKey` is made for. -/
def seekKey (internalKey : Bytes) : Bytes :=
  internalKey.take ((internalKey.length - 8) % 2 ^ 32 + 8)

theorem seekKey_of_short {internalKey : Bytes} (hlen : 8 ≤ internalKey.length)
    (h : internalKey.length < 2 ^ 32 + 8) : seekKey internalKey = internalKey := by
  refine take_of_length_le ?_
  rw [Nat.mod_eq_of_lt (by omega)]
  omega

theorem tag_lt_word (entry : Bytes) : tag entry < 2 ^ 64 := getFixed_lt 8 _

/-- **Entries and internal keys are in the same order.** -/
theorem comparator_eq (a b : Bytes) : comparator a b = internalKeyLess (keyBuf a) (keyBuf b) := by
  rw [Bool.eq_iff_iff, internalKeyLess_iff, keyBuf, keyBuf, parsedKey_tagged _ (tag_lt_word a),
    parsedKey_tagged _ (tag_lt_word b), comparator, InternalKey.less]
  dsimp only
  split
  · exact decide_eq_true_iff
  · rw [decide_eq_true_iff, WithTop.coe_lt_coe]

theorem comparator_weakOrder : StrictWeakOrder comparator := by
  have h := internalKeyLess_weakOrder.comap keyBuf
  rwa [show (fun a b => internalKeyLess (keyBuf a) (keyBuf b)) = comparator from
    funext₂ fun a b => (comparator_eq a b).symm] at h

section Read

variable {t v : Bytes}

theorem klen_entry : klen (putFixed32 (t.length - 8) ++ (t ++ v)) = (t.length - 8) % 2 ^ 32 := by
  rw [klen, getFixed32, putFixed32, getFixed_putFixed]
  rfl

theorem keyBuf_entry (h : 8 ≤ t.length) :
    keyBuf (putFixed32 (t.length - 8) ++ (t ++ v)) = seekKey t := by
  have hmod := Nat.mod_le (t.length - 8) (2 ^ 32)
  rw [keyBuf, userKey, tag, klen_entry, kLenPrefixSize, ← drop_drop, seekKey]
  generalize (t.length - 8) % 2 ^ 32 = n at hmod
  rw [drop_left' (length_putFixed32 _), take_append_of_le_length (by omega),
    drop_append_of_le_length (by omega), getFixed64, putFixed64,
    getFixed_append (by rw [length_drop]; omega),
    putFixed_getFixed (by rw [length_drop]; omega), ← take_add]

theorem value_entry (h : 8 ≤ t.length) (hshort : t.length < 2 ^ 32 + 8) :
    value (putFixed32 (t.length - 8) ++ (t ++ v)) = v := by
  rw [value, klen_entry, Nat.mod_eq_of_lt (by omega), kLenPrefixSize, kTagSize, Nat.add_assoc,
    ← drop_drop, drop_left' (length_putFixed32 _),
    drop_left' (by omega)]

end Read

/-- The entry of a version. -/
def bytesOf (e : Entry) : Bytes := encode e.user e.tag e.value

section Entry

variable {e : Entry}

theorem length_keyOf (e : Entry) : (keyOf e).length = e.user.length + 8 := by
  simp [keyOf, encodeInternalKey]

theorem bytesOf_eq (e : Entry) :
    bytesOf e = putFixed32 ((keyOf e).length - 8) ++ (keyOf e ++ e.value) := by
  rw [length_keyOf, Nat.add_sub_cancel, bytesOf, encode, append_assoc, append_assoc,
    keyOf, encodeInternalKey, append_assoc]
  rfl

variable (hshort : e.user.length < 2 ^ 32)
include hshort

theorem keyBuf_bytesOf : keyBuf (bytesOf e) = keyOf e := by
  have hlen := length_keyOf e
  rw [bytesOf_eq, keyBuf_entry (by omega), seekKey_of_short (by omega) (by omega)]

theorem value_bytesOf : value (bytesOf e) = e.value := by
  have hlen := length_keyOf e
  rw [bytesOf_eq, value_entry (by omega) (by omega)]

theorem klen_bytesOf : klen (bytesOf e) = e.user.length := by
  rw [bytesOf_eq, klen_entry, length_keyOf, Nat.add_sub_cancel, Nat.mod_eq_of_lt hshort]

theorem parsed_bytesOf (hseq : e.seq < 2 ^ 56) :
    userKey (bytesOf e) = e.user ∧ tag (bytesOf e) = e.tag := by
  have hparsed := parsedKey_tagged (userKey (bytesOf e)) (tag_lt_word (bytesOf e))
  rw [← keyBuf, keyBuf_bytesOf hshort, parsedKey_keyOf hseq, Entry.internalKey,
    InternalKey.mk.injEq] at hparsed
  exact ⟨hparsed.1.symm, (WithTop.coe_inj.mp hparsed.2).symm⟩

theorem comparator_bytesOf (b : Bytes) :
    comparator (bytesOf e) b = internalKeyLess (keyOf e) (keyBuf b) := by
  rw [comparator_eq, keyBuf_bytesOf hshort]

end Entry

/-! ## What a memtable holds -/

/-- The versions that were written, the last of them first: every insertion of the list has
returned `true`. -/
def MemTable.Holds (m : MemTable) (es : List Entry) : Prop :=
  ∃ calls, m.list = (run comparator calls).1 ∧ m.list.pending = none ∧
    (run comparator calls).2 = es.map bytesOf

/-- Keys whose length fits in front of them. -/
def Short (es : List Entry) : Prop := ∀ e ∈ es, e.user.length < 2 ^ 32

section Holds

variable {m : MemTable} {es : List Entry}

theorem holds_new : MemTable.new.Holds [] := ⟨[], rfl, rfl, rfl⟩

/-- The versions in the order of level 0. -/
structure MemTable.Lists (m : MemTable) (chain : Nat → List Nat) (sorted : List Entry) : Prop where
  ordered : Ordered comparator m.list.list chain
  entries : (chain 0).map m.list.list.key = sorted.map bytesOf
  increasing : Increasing sorted
  short : Short sorted
  small : Small sorted

theorem MemTable.Holds.lists (h : m.Holds es) (hshort : Short es) (hsmall : Small es) :
    ∃ chain sorted, m.Lists chain sorted ∧ sorted.Perm es := by
  obtain ⟨calls, hlist, hidle, hdone⟩ := h
  obtain ⟨chain, hinv⟩ := run_inv comparator_weakOrder calls
  rw [← hlist] at hinv
  have hperm := hinv.keys
  rw [Writer.linking, hidle, hdone, nil_append] at hperm
  obtain ⟨sorted, heq, hsorted⟩ : Relation.Comp (· = List.map bytesOf ·) List.Perm
      ((chain 0).map m.list.list.key) es := by
    rw [eq_map_comp_perm]
    exact hperm
  have hshort' : Short sorted := fun e he => hshort e (hsorted.subset he)
  have hsmall' : Small sorted := fun e he => hsmall e (hsorted.subset he)
  refine ⟨chain, sorted, ⟨hinv.levels.ordered, heq, ?_, hshort', hsmall'⟩, hsorted⟩
  have hpair : ((chain 0).map m.list.list.key).Pairwise fun a b => comparator a b = true :=
    pairwise_map.mpr (hinv.levels.sorted 0 (by decide))
  rw [heq] at hpair
  refine (pairwise_map.mp hpair).imp_of_mem fun {a b} ha hb hab => ?_
  rwa [comparator_bytesOf (hshort' a ha), keyBuf_bytesOf (hshort' b hb),
    less_keyOf (hsmall' a ha) (hsmall' b hb)] at hab

/-- **A version with an internal key of its own** is kept. -/
theorem MemTable.Holds.insert (h : m.Holds es) {e : Entry} (hshort : Short (e :: es))
    (hsmall : Small (e :: es)) (hnew : ∀ x ∈ es, x.internalKey ≠ e.internalKey) (height : Height)
    (bytes : Nat) :
    (m.insert (bytesOf e) height bytes).Holds (e :: es) := by
  obtain ⟨calls, hlist, hidle, hdone⟩ := h
  obtain ⟨chain, hinv⟩ := run_inv comparator_weakOrder calls
  have hreads := (hinv.reads comparator_weakOrder).kept
  rw [Writer.linking, ← hlist, hidle, hdone, nil_append, hlist] at hreads
  have habsent : ¬ ∃ k ∈ (run comparator calls).1.list.level 0,
      equal comparator k (bytesOf e) = true := by
    rintro ⟨k, hk, hequal⟩
    obtain ⟨x, hx, rfl⟩ := mem_map.mp (hreads.subset hk)
    have hxs := hshort x (mem_cons_of_mem _ hx)
    have hes := hshort e mem_cons_self
    have hxq := hsmall x (mem_cons_of_mem _ hx)
    have heq := hsmall e mem_cons_self
    rw [equal, comparator_bytesOf hxs, comparator_bytesOf hes, keyBuf_bytesOf hes,
      keyBuf_bytesOf hxs, Bool.and_eq_true, Bool.not_eq_true', Bool.not_eq_true',
      ← Bool.not_eq_true, ← Bool.not_eq_true, less_keyOf hxq heq, less_keyOf heq hxq] at hequal
    exact hnew x hx (InternalKey.eq_of_not_less hequal.1 hequal.2)
  obtain ⟨hpending, hdone'⟩ := run_insertCalls comparator_weakOrder (hlist ▸ hidle) habsent height
  refine ⟨insertCalls (bytesOf e) height ++ calls, ?_, ?_, ?_⟩
  · rw [run_append, ← hlist]
    rfl
  · rw [run_append, ← hlist] at hpending
    exact hpending
  · rw [hdone', hdone]
    rfl

end Holds

/-- One insertion after another, each with the height of its node and what it adds to the size. -/
def MemTable.insertAll (xs : List (Entry × Height × Nat)) : MemTable :=
  xs.foldl (fun m x => m.insert (bytesOf x.1) x.2.1 x.2.2) .new

theorem insertAll_holds {xs : List (Entry × Height × Nat)} (hshort : Short (xs.map Prod.fst))
    (hsmall : Small (xs.map Prod.fst))
    (hnew : (xs.map Prod.fst).Pairwise fun a b => a.internalKey ≠ b.internalKey) :
    (MemTable.insertAll xs).Holds (xs.map Prod.fst).reverse := by
  induction xs using List.reverseRecOn with
  | nil => exact holds_new
  | append_singleton xs x ih =>
    rw [map_append, map_singleton] at hshort hsmall hnew ⊢
    obtain ⟨hbefore, -, hlast⟩ := pairwise_append.mp hnew
    have hholds := ih (fun e he => hshort e (mem_append_left _ he))
      (fun e he => hsmall e (mem_append_left _ he)) hbefore
    have hperm : (x.1 :: (xs.map Prod.fst).reverse).Perm (xs.map Prod.fst ++ [x.1]) :=
      ((reverse_perm _).cons _).trans (perm_append_singleton _ _).symm
    rw [MemTable.insertAll, foldl_append, reverse_append]
    exact hholds.insert (fun e he => hshort e (hperm.subset he))
      (fun e he => hsmall e (hperm.subset he))
      (fun y hy => hlast y (mem_reverse.mp hy) _ mem_cons_self) x.2.1 x.2.2

/-! ## Reading -/

section Reading

variable {m : MemTable} {chain : Nat → List Nat} {sorted : List Entry}

theorem MemTable.Lists.seek_eq (h : m.Lists chain sorted) (target : Bytes) :
    m.seek target = (chain 0).find? fun y => !comparator (m.list.list.key y) target := by
  obtain ⟨prev, hfind, -⟩ := h.ordered.findGreaterOrEqual comparator_weakOrder target
  rw [MemTable.seek, hfind]
  rfl

theorem MemTable.Lists.seek_key (h : m.Lists chain sorted) (target : Bytes) :
    (m.seek target).map m.list.list.key =
      (sorted.find? fun e => !internalKeyLess (keyOf e) (keyBuf target)).map bytesOf := by
  have hlevel : (m.seek target).map m.list.list.key =
      (sorted.map bytesOf).find? fun entry => !comparator entry target := by
    rw [h.seek_eq, ← h.entries, find?_map]
    rfl
  rw [hlevel, find?_map]
  refine congrArg _ (find?_congr fun e he => ?_)
  exact congrArg _ (comparator_bytesOf (h.short e he) target)

theorem keyBuf_target (key : Bytes) (tag : Nat) :
    keyBuf (encode key tag []) = seekKey (key ++ putFixed64 tag) := by
  have hlen : (key ++ putFixed64 tag).length = key.length + 8 := by simp
  rw [← keyBuf_entry (v := []) (by omega), hlen, Nat.add_sub_cancel, encode, append_assoc,
    append_assoc, append_assoc]

theorem MemTable.Lists.get_eq (h : m.Lists chain sorted) (key : Bytes) (maxSeq : Nat) :
    m.get key maxSeq = decodeFound key (sorted.find? fun e =>
      !internalKeyLess (keyOf e) (seekKey (key ++ putFixed64 (Table.targetTag maxSeq)))) := by
  rw [MemTable.get, h.seek_key, keyBuf_target]
  cases hfind : sorted.find? fun e =>
      !internalKeyLess (keyOf e) (seekKey (key ++ putFixed64 (Table.targetTag maxSeq))) with
  | none => rfl
  | some e =>
    have he := mem_of_find?_eq_some hfind
    obtain ⟨huser, htag⟩ := parsed_bytesOf (h.short e he) (h.small e he)
    rw [Option.map_some]
    dsimp only
    rw [klen_bytesOf (h.short e he), value_bytesOf (h.short e he), huser, htag, decodeFound]
    by_cases hkey : e.user = key
    · rw [if_neg (by simp [hkey]), if_pos hkey, Entry.tag]
      cases e.type with
      | value => rw [if_pos (by simp only [ValueType.code]; omega)]
      | deletion => rw [if_neg (by simp only [ValueType.code]; omega)]
    · rw [if_pos (.inr hkey), if_neg hkey]

/-- No length in front of an entry is that of a key of `2 ^ 32` bytes. -/
theorem MemTable.get_long (m : MemTable) {key : Bytes} (h : 2 ^ 32 ≤ key.length) (maxSeq : Nat) :
    m.get key maxSeq = .missing := by
  unfold MemTable.get
  split
  · rfl
  · next ik _ =>
    have hklen : klen ik < 2 ^ 32 := getFixed_lt 4 _
    rw [if_pos (.inl (by omega))]

/-- **`Get` is the lookup** under the bound it looks under. -/
theorem MemTable.Lists.get_lookup (h : m.Lists chain sorted) (key : Bytes) (maxSeq : Nat) :
    m.get key maxSeq = lookupEntries sorted key (seen maxSeq) := by
  rw [h.get_eq, lookupEntries, BedrockKV.seek, ← find?_not_eq_head?_dropWhile]
  by_cases hkey : key.length < 2 ^ 32
  · have hlen : (key ++ putFixed64 (Table.targetTag maxSeq)).length = key.length + 8 := by simp
    rw [seekKey_of_short (by omega) (by omega)]
    exact congrArg _ (find?_congr fun e he => congrArg _ (less_target (h.small e he) key maxSeq))
  · -- no key of the table is as long
    have hmissing : ∀ p : Entry → Bool, decodeFound key (sorted.find? p) = .missing := by
      intro p
      cases hfind : sorted.find? p with
      | none => rfl
      | some e =>
        have hshort := h.short e (mem_of_find?_eq_some hfind)
        rw [decodeFound, if_neg]
        rintro rfl
        exact hkey hshort
    rw [hmissing, hmissing]

theorem MemTable.Lists.get_answers (h : m.Lists chain sorted) (key : Bytes) (maxSeq : Nat) :
    Answers sorted key (seen maxSeq) (m.get key maxSeq) := by
  rw [h.get_lookup]
  exact lookupEntries_answers h.increasing key (seen maxSeq)

/-- The arguments of `fn` for a version. -/
def callOf (e : Entry) : Nat × Nat × Bytes × Bytes := (e.seq, e.type.code, e.user, e.value)

theorem MemTable.forEach_links {ys : List Nat} :
    ∀ {x : Nat} (calls : List (Nat × Nat × Bytes × Bytes)),
    Links (m.list.list.next 0) x ys → Returns m.forEachRound (calls, m.list.list.next 0 x)
      (calls ++ (ys.map m.list.list.key).map fun entry =>
        (tag entry / 256, tag entry % 256, userKey entry, value entry)) := by
  induction ys with
  | nil =>
    intro x calls h
    rw [h.head?]
    exact .done (by simp [MemTable.forEachRound])
  | cons y ys ih =>
    intro x calls h
    rw [h.head?]
    refine .next rfl ?_
    have hrest := ih (calls ++ [(tag (m.list.list.key y) / 256, tag (m.list.list.key y) % 256,
      userKey (m.list.list.key y), value (m.list.list.key y))]) h.2
    rwa [append_assoc] at hrest

theorem MemTable.Lists.forEach (h : m.Lists chain sorted) : m.ForEach (sorted.map callOf) := by
  have hwalk := MemTable.forEach_links [] (h.ordered.links 0 (by decide))
  rw [h.entries, map_map, nil_append] at hwalk
  have hcalls : sorted.map callOf = sorted.map ((fun entry =>
      (tag entry / 256, tag entry % 256, userKey entry, value entry)) ∘ bytesOf) := by
    refine map_congr_left fun e he => ?_
    obtain ⟨huser, htag⟩ := parsed_bytesOf (h.short e he) (h.small e he)
    have hcode := e.type.code_le
    have hdiv : e.tag / 256 = e.seq := by rw [Entry.tag]; omega
    have hmod : e.tag % 256 = e.type.code := by rw [Entry.tag]; omega
    simp only [Function.comp_apply, huser, htag, hdiv, hmod, value_bytesOf (h.short e he), callOf]
  rw [MemTable.ForEach, hcalls]
  exact hwalk

theorem MemTableIterator.yields_links {ys : List Nat} : ∀ {x : Nat} (it : MemTableIterator),
    Links (it.mem.list.list.next 0) x ys → it.node = it.mem.list.list.next 0 x → it.decode.Yields
      ((ys.map it.mem.list.list.key).map fun entry => (Mem.keyBuf entry, Mem.value entry)) := by
  induction ys with
  | nil =>
    intro x it h hnode
    rw [h.head?] at hnode
    refine walks_nil ?_
    rw [decode, hnode]
    rfl
  | cons y ys ih =>
    intro x it h hnode
    rw [h.head?] at hnode
    have hdecode : it.decode = ⟨it.mem, some y, Mem.keyBuf (it.mem.list.list.key y),
        Mem.value (it.mem.list.list.key y), true⟩ := by
      rw [decode, hnode]
      rfl
    rw [hdecode]
    exact walks_cons rfl (ih ⟨it.mem, it.mem.list.list.next 0 y, _, _, true⟩ h.2 rfl)

theorem MemTable.Lists.pairs_eq (h : m.Lists chain sorted) {es : List Entry} (hes : es ⊆ sorted) :
    ((es.map bytesOf).map fun entry => (keyBuf entry, value entry)) = pairs es := by
  rw [map_map, pairs]
  refine map_congr_left fun e he => ?_
  simp only [Function.comp_apply, keyBuf_bytesOf (h.short e (hes he)),
    value_bytesOf (h.short e (hes he))]

/-- **The iterator shows the versions in order.** -/
theorem MemTable.Lists.walk (h : m.Lists chain sorted) {it : MemTableIterator} (hit : it.mem = m) :
    it.seekToFirst.Yields (pairs sorted) := by
  subst hit
  have hwalk := MemTableIterator.yields_links { it with node := it.mem.list.list.next 0 head }
    (h.ordered.links 0 (by decide)) rfl
  rwa [h.entries, h.pairs_eq (List.Subset.refl _)] at hwalk

theorem keyBuf_seekTarget {internalKey : Bytes} (hlen : 8 ≤ internalKey.length) :
    keyBuf (MemTableIterator.target internalKey) = seekKey internalKey := by
  rw [← keyBuf_entry (v := []) hlen, MemTableIterator.target, kTagSize, append_assoc,
    take_append_drop, append_nil]

/-- **And those from a target on**, or from its front part. -/
theorem MemTable.Lists.walkFrom (h : m.Lists chain sorted) {it : MemTableIterator}
    (hit : it.mem = m)
    {target : Bytes} (hlen : 8 ≤ target.length) : (it.seek target).Yields
      ((pairs sorted).filter fun kv => !internalKeyLess kv.1 (seekKey target)) := by
  subst hit
  let less : Bytes → Bool := fun entry => comparator entry (MemTableIterator.target target)
  have hsplit := takeWhile_append_dropWhile (p := less ∘ it.mem.list.list.key) (l := chain 0)
  have hlinks := h.ordered.links 0 (by decide)
  rw [← hsplit] at hlinks
  have hrest := hlinks.rest
  have hnode : it.mem.seek (MemTableIterator.target target) =
      it.mem.list.list.next 0
        (((chain 0).takeWhile (less ∘ it.mem.list.list.key)).getLastD head) := by
    rw [hrest.head?, h.seek_eq, ← find?_not_eq_head?_dropWhile]
    rfl
  have hwalk := MemTableIterator.yields_links
    { it with node := it.mem.seek (MemTableIterator.target target) } hrest hnode
  have hless : ∀ e ∈ sorted, less (bytesOf e) = internalKeyLess (keyOf e) (seekKey target) := by
    intro e he
    rw [← keyBuf_seekTarget hlen]
    exact comparator_bytesOf (h.short e he) _
  have hupto : Upto (less ∘ bytesOf) sorted := by
    refine (upto_less h.increasing h.small (seekKey target)).imp_of_mem fun {a b} ha hb hab => ?_
    rw [Function.comp_apply, Function.comp_apply, hless a ha, hless b hb]
    exact hab
  have hpost : ((chain 0).dropWhile (less ∘ it.mem.list.list.key)).map it.mem.list.list.key =
      (sorted.filter fun e => !internalKeyLess (keyOf e) (seekKey target)).map bytesOf := by
    rw [← dropWhile_map, h.entries, dropWhile_map, hupto.dropWhile_eq_filter]
    exact congrArg _ (filter_congr fun e he => congrArg _ (hless e he))
  dsimp only at hwalk
  rw [hpost, h.pairs_eq (filter_subset_self _)] at hwalk
  rw [pairs, filter_map]
  exact hwalk

end Reading

/-! ## Writes -/

inductive Write where
  | put (seq : Nat) (key value : Bytes)
  | delete (seq : Nat) (key : Bytes)

def Write.entry : Write → Entry
  | .put seq key value => ⟨key, seq, .value, value⟩
  | .delete seq key => ⟨key, seq, .deletion, []⟩

/-- What a write adds to `approximate_size_`. -/
def Write.bytes : Write → Nat
  | .put _ key value => key.length + value.length + kTagSize + kLenPrefixSize + 24
  | .delete _ key => key.length + kTagSize + kLenPrefixSize + 24

/-- One write, and the height that the coin gives its node. -/
def MemTable.write (m : MemTable) : Write × Height → MemTable
  | (.put seq key value, height) => m.put height seq key value
  | (.delete seq key, height) => m.delete height seq key

def MemTable.writeAll (ws : List (Write × Height)) : MemTable := ws.foldl MemTable.write .new

/-- The versions of a list of writes. -/
def written (ws : List (Write × Height)) : List Entry := ws.map fun w => w.1.entry

/-- Every version has a sequence number of its own. -/
def Fresh (es : List Entry) : Prop := (es.map Entry.seq).Nodup

section Writes

variable {ws : List (Write × Height)}

theorem writeAll_eq (ws : List (Write × Height)) :
    MemTable.writeAll ws = MemTable.insertAll (ws.map fun w => (w.1.entry, w.2, w.1.bytes)) := by
  rw [MemTable.writeAll, MemTable.insertAll, foldl_map]
  congr 1
  funext m w
  obtain ⟨w | w, height⟩ := w <;> rfl

theorem internalKey_ne {a b : Entry} (h : a.seq ≠ b.seq) : a.internalKey ≠ b.internalKey := by
  intro heq
  have htag : a.tag = b.tag := WithTop.coe_inj.mp (congrArg InternalKey.tag heq)
  have hcode := a.type.code_le
  have hcode' := b.type.code_le
  refine h ?_
  rw [Entry.tag, Entry.tag] at htag
  omega

theorem writeAll_holds (hshort : Short (written ws)) (hsmall : Small (written ws))
    (hfresh : Fresh (written ws)) : (MemTable.writeAll ws).Holds (written ws).reverse := by
  have hentries : (ws.map fun w => (w.1.entry, w.2, w.1.bytes)).map Prod.fst = written ws := by
    rw [map_map]
    rfl
  have hholds := @insertAll_holds (ws.map fun w => (w.1.entry, w.2, w.1.bytes))
  rw [hentries, ← writeAll_eq] at hholds
  exact hholds hshort hsmall ((pairwise_map.mp hfresh).imp internalKey_ne)

theorem writeAll_lists (hshort : Short (written ws)) (hsmall : Small (written ws))
    (hfresh : Fresh (written ws)) :
    ∃ chain sorted, (MemTable.writeAll ws).Lists chain sorted ∧ sorted.Perm (written ws) := by
  have hrev := reverse_perm (written ws)
  obtain ⟨chain, sorted, hlists, hperm⟩ := (writeAll_holds hshort hsmall hfresh).lists
    (fun e he => hshort e (hrev.subset he)) (fun e he => hsmall e (hrev.subset he))
  exact ⟨chain, sorted, hlists, hperm.trans hrev⟩

/-- The memtable shows the versions `es`: to a `Get` of `key` under `maxSeq`, to `ForEach` and the
iterator all of them in strictly increasing order, which a builder then accepts, and to a seek
those from `target` on. -/
structure MemTable.Shows (m : MemTable) (es : List Entry) (key : Bytes) (maxSeq : Nat)
    (target : Bytes) : Prop where
  get : Answers es key (WithTop.some maxSeq) (m.get key maxSeq)
  order : ∃ sorted : List Entry, sorted.Perm es ∧
    sorted.Pairwise (fun a b => internalKeyLess (keyOf a) (keyOf b) = true) ∧
    m.ForEach (sorted.map callOf) ∧
    (∀ wild options, ∃ b, (Sst.Builder.new options).addAll wild sorted = .ok b) ∧
    (∀ it : MemTableIterator, it.mem = m → it.seekToFirst.Yields (pairs sorted)) ∧
    (∀ it : MemTableIterator, it.mem = m → (it.seek target).Yields
      ((pairs sorted).filter fun kv => !internalKeyLess kv.1 target))

theorem forEach_short {m : MemTable} {calls : List (Nat × Nat × Bytes × Bytes)}
    (h : m.ForEach calls) :
    ∀ c ∈ calls, c.2.2.1.length < 2 ^ 32 := by
  have hall : ∀ {s out}, Returns m.forEachRound s out → (∀ c ∈ s.1, c.2.2.1.length < 2 ^ 32) →
      ∀ c ∈ out, c.2.2.1.length < 2 ^ 32 := by
    intro s out hrun
    induction hrun with
    | @done s out hround =>
      intro hs
      obtain ⟨shown, _ | x⟩ := s
      · rwa [← Sum.inl.inj hround]
      · cases hround
    | @next s s' out hround _ ih =>
      intro hs
      obtain ⟨shown, _ | x⟩ := s
      · cases hround
      · rw [← Sum.inr.inj hround] at ih
        refine ih fun c hc => ?_
        rcases mem_append.mp hc with hc | hc
        · exact hs c hc
        · rw [mem_singleton.mp hc]
          exact lt_of_le_of_lt (length_take_le _ _) (getFixed_lt 4 _)
  exact hall h nofun

theorem answers_kMaxSeq {es : List Entry} (hsmall : Small es) {key : Bytes} {a : Lookup}
    (h : Answers es key kMaxSeq a) : Answers es key (WithTop.some (2 ^ 64 - 1)) a := by
  refine h.congr_bound fun e he => ⟨fun hv => ⟨hv.1, ?_⟩, fun hv => ⟨hv.1, le_top⟩⟩
  have hle : e.seq ≤ 2 ^ 64 - 1 := by
    have := hsmall e he
    omega
  exact WithTop.coe_le_coe.mpr hle

theorem distinct_of_fresh {es : List Entry} (hfresh : Fresh es) : entryView.Distinct es :=
  fun _ hx _ hy _ heq => inj_on_of_nodup_map hfresh hx hy heq

/-- **A memtable shows what was written to it**, exactly when every key has a length of 32 bits,
the bound of the read is `kMaxSeq` or admits what it does modulo `2 ^ 56`, and no version is
between the target and its front part (which is all of it for a key of under `2 ^ 32` bytes). -/
theorem memTable_shows_iff (hsmall : Small (written ws)) (hfresh : Fresh (written ws)) (key : Bytes)
    {maxSeq : Nat} (hmax : maxSeq < 2 ^ 64) {target : Bytes} (htarget : 8 ≤ target.length) :
    (MemTable.writeAll ws).Shows (written ws) key maxSeq target ↔
      Short (written ws) ∧
      (maxSeq = 2 ^ 64 - 1 ∨ ∀ a, Answers (written ws) key (WithTop.some maxSeq) a →
        Answers (written ws) key (WithTop.some (maxSeq % 2 ^ 56)) a) ∧
      ∀ e ∈ written ws, internalKeyLess (keyOf e) (seekKey target) =
        internalKeyLess (keyOf e) target := by
  have hdistinct := distinct_of_fresh hfresh
  have hseen : maxSeq ≠ 2 ^ 64 - 1 → seen maxSeq = WithTop.some (maxSeq % 2 ^ 56) := fun hne =>
    if_neg (by omega)
  constructor
  · rintro ⟨hget, sorted, hperm, -, hforEach, -, hwalk, hseek⟩
    have hshort : Short (written ws) := fun e he =>
      forEach_short hforEach (callOf e) (List.mem_map_of_mem (hperm.mem_iff.mpr he))
    obtain ⟨chain, sorted', hlists, hperm'⟩ := writeAll_lists hshort hsmall hfresh
    refine ⟨hshort, ?_, ?_⟩
    · by_cases hlast : maxSeq = 2 ^ 64 - 1
      · exact Or.inl hlast
      · refine Or.inr fun a ha => ?_
        have hanswers := (hlists.get_answers key maxSeq).congr fun x _ => hperm'.mem_iff
        rwa [ha.unique hdistinct hget, ← hseen hlast]
    · -- two walks from one position show the same
      let it : MemTableIterator := .new (MemTable.writeAll ws)
      have hpairs : pairs sorted = pairs sorted' := (hwalk it rfl).unique (hlists.walk rfl)
      have hfilter := (hseek it rfl).unique (hlists.walkFrom rfl htarget)
      rw [hpairs] at hfilter
      intro e he
      have hmem : (keyOf e, e.value) ∈ pairs sorted' := List.mem_map_of_mem (hperm'.mem_iff.mpr he)
      have hboth := congrArg ((keyOf e, e.value) ∈ ·) hfilter
      simpa [hmem] using hboth.symm
  · rintro ⟨hshort, hbound, hseek⟩
    obtain ⟨chain, sorted, hlists, hperm⟩ := writeAll_lists hshort hsmall hfresh
    have hanswers := (hlists.get_answers key maxSeq).congr fun x _ => hperm.mem_iff
    refine ⟨?_, sorted, hperm, ?_, hlists.forEach, ?_, fun it => hlists.walk, fun it hit => ?_⟩
    · rcases hbound with rfl | hbound
      · exact answers_kMaxSeq hsmall hanswers
      · by_cases hlast : maxSeq = 2 ^ 64 - 1
        · subst hlast
          exact answers_kMaxSeq hsmall hanswers
        · have hspec := (lookupEntries_answers hlists.increasing key (WithTop.some maxSeq)).congr
            fun x _ => hperm.mem_iff
          rw [hseen hlast] at hanswers
          rwa [(hbound _ hspec).unique hdistinct hanswers] at hspec
    · refine hlists.increasing.imp_of_mem fun {a b} ha hb hab => ?_
      exact (less_keyOf (hlists.small a ha) (hlists.small b hb)).mpr hab
    · exact fun wild options => (counts_new options).addAll hlists.increasing hlists.small
    · have hwalk := hlists.walkFrom hit htarget
      rwa [List.filter_congr fun kv hkv => ?_] at hwalk
      obtain ⟨e, he, rfl⟩ := List.mem_map.mp hkv
      exact congrArg _ (hseek e (hperm.subset he))

/-- Three writes, out of the order of their numbers. -/
def sampleWrites : List (Write × Height) :=
  [(.put 3 (ascii "k") (ascii "w"), ⟨2, by decide⟩), (.delete 4 (ascii "a"), ⟨1, by decide⟩),
    (.put 1 (ascii "k") (ascii "v"), ⟨3, by decide⟩)]

theorem memTable_shows_sampleWrites : Small (written sampleWrites) ∧ Fresh (written sampleWrites) ∧
    (MemTable.writeAll sampleWrites).Shows (written sampleWrites) (ascii "k") 2
      (ascii "k" ++ putFixed64 700) := by
  have hsmall : Small (written sampleWrites) := by
    show ∀ e ∈ written sampleWrites, e.seq < 2 ^ 56
    decide +kernel
  have hfresh : Fresh (written sampleWrites) := by
    show ((written sampleWrites).map Entry.seq).Nodup
    decide +kernel
  refine ⟨hsmall, hfresh, (memTable_shows_iff hsmall hfresh _ (by decide) (by decide)).mpr
    ⟨?_, Or.inr fun a ha => ha, ?_⟩⟩
  · show ∀ e ∈ written sampleWrites, e.user.length < 2 ^ 32
    decide +kernel
  · decide +kernel

/-- **A bound of 2^56** hides what is visible under it. -/
theorem memTable_get_wraps :
    (MemTable.writeAll sampleWrites).get (ascii "k") (2 ^ 56) = .missing ∧
    Answers (written sampleWrites) (ascii "k") (WithTop.some (2 ^ 56)) (.found (ascii "w")) ∧
    ¬ Answers (written sampleWrites) (ascii "k") (WithTop.some (2 ^ 56)) .missing := by
  have hnewest : ∀ e ∈ written sampleWrites, e.user = ascii "k" → e.seq ≤ 3 := by decide +kernel
  have hmem : ⟨ascii "k", 3, .value, ascii "w"⟩ ∈ written sampleWrites := by decide +kernel
  have hvisible : entryView.Visible (ascii "k") (WithTop.some (2 ^ 56))
      ⟨ascii "k", 3, .value, ascii "w"⟩ := ⟨rfl, WithTop.coe_le_coe.mpr (by decide)⟩
  refine ⟨by decide +kernel, ⟨_, ⟨hmem, hvisible, ?_⟩, rfl, rfl⟩, fun hsilent => ?_⟩
  · exact fun e he hv => hnewest e he hv.1
  · exact hsilent _ hmem hvisible

end Writes

end BedrockKV.Mem
