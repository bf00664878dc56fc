/-
# `BedrockKV.Resolve` — pointers behind the read cache

`MaybeResolvePointer` asks `vlog_cache_` before it reads a value log, and
leaves there what it has read.  The key of the cache is the pointer as it is
stored, so an entry stays right as long as no pointer is ever made twice for
two values: that is what `SlotsOk` says of a whole life of the database.

A reader finds its slot under the mutex and resolves it later, without; what
happens in between is up to the others.  `CachedDB` keeps the slots that have
been found, and a run may resolve any of them at any time.

`run_resolves`: when every write fits, a slot resolves to the value it was
made for, from the cache or from the file.  `ReadValue` returns as many bytes
as a field of 32 bits says, so a longer value never comes back:
`run_resolves_longValue`.
-/
import BedrockKV.LruCache
import BedrockKV.Slots

namespace BedrockKV

open List Log

/-- The database with the read cache, and the slots found by lookups whose
values have not been read yet. -/
structure CachedDB where
  db : DB
  vlogCache : ShardedLruCache Bytes Bytes
  found : List Bytes

namespace CachedDB

/-- `vlog_cache_` as the constructor of `DB` makes it. -/
def emptyCache : ShardedLruCache Bytes Bytes := .new 16 (32 * 2 ^ 20)

def fresh (opt : Options) : CachedDB := ⟨DB.fresh opt, emptyCache, []⟩

/-- `DB::MaybeResolvePointer`. -/
def maybeResolvePointer (hash : Bytes → Nat) (c : CachedDB) (stored : Bytes) :
    Except Status Bytes × ShardedLruCache Bytes Bytes :=
  if c.db.opt.enableValueSeparation then
    match decodeValuePointer stored with
    | none => (.ok stored, c.vlogCache)
    | some p =>
      match c.vlogCache.get hash stored with
      | (some cached, cache) => (.ok cached, cache)
      | (none, cache) =>
        if p.vlogNumber ∈ c.db.vlogs then
          match readValue p.vlogNumber (c.db.vlogFile p.vlogNumber).bytes p.offset
              p.valueSize with
          | .ok resolved => (.ok resolved, cache.put hash List.length stored resolved)
          | .error e => (.error e, cache)
        else (.error (DB.vlogGone p.vlogNumber), cache)
  else (.ok stored, c.vlogCache)

/-- A step of the database or a restart, a lookup, or the resolution of a
slot that a lookup has found. -/
inductive Event where
  | life (ev : DB.Life)
  | lookup (key : Bytes) (S : ReadSeq)
  | resolve (stored : Bytes)

def step (hash : Bytes → Nat) (c : CachedDB) : Event → Option CachedDB
  | .life (.op op) => (DB.stepLife c.db (.op op)).map fun db => { c with db := db }
  | .life (.reopen opt) => (DB.stepLife c.db (.reopen opt)).map fun db => ⟨db, emptyCache, []⟩
  | .lookup key S =>
    match c.db.core.lookup key S with
    | .found stored => some { c with found := stored :: c.found }
    | _ => some c
  | .resolve stored =>
    if stored ∈ c.found then
      some { c with vlogCache := (c.maybeResolvePointer hash stored).2 }
    else none

/-- The slots an event stores, each with the value it was made for. -/
def stores (c : CachedDB) : Event → List (Bytes × Bytes)
  | .life (.op op) => c.db.stores op
  | _ => []

/-- Value separation stays on, every write fits, and one `pread` takes in what it appends. -/
def Fits (c : CachedDB) : Event → Prop
  | .life (.op op) => c.db.Storable op ∧ ∀ e ∈ c.db.appends op, EntryFits e
  | .life (.reopen opt) => opt.enableValueSeparation = true
  | _ => True

variable {hash : Bytes → Nat} {c c' : CachedDB} {st : List (Bytes × Bytes)}

/-! ## One resolution -/

/-- The cache has nothing but slots with the values they were made for. -/
structure Ok (st : List (Bytes × Bytes)) (c : CachedDB) : Prop where
  slots : c.db.SlotsOk st
  short : ∀ q ∈ st, c.db.Short q.1 q.2
  cached : ∀ q ∈ c.vlogCache.entries, q ∈ st
  found : ∀ stored ∈ c.found, ∃ value, (stored, value) ∈ st

/-- **One resolution.**  The cache answers as the file would, as long as the
file is there; after that it may still have the value.  What it learns is
right. -/
theorem Ok.resolve_spec (hk : Ok st c) (hash : Bytes → Nat) {stored value : Bytes}
    (hmem : (stored, value) ∈ st) :
    ((c.maybeResolvePointer hash stored).1 = .ok value ∨
      ∃ p, decodeValuePointer stored = some p ∧ p.vlogNumber ∉ c.db.vlogs ∧
        (c.maybeResolvePointer hash stored).1 = .error (DB.vlogGone p.vlogNumber)) ∧
      ∀ q ∈ (c.maybeResolvePointer hash stored).2.entries, q ∈ st := by
  have hslot := hk.slots.slots _ hmem
  have hfile := hslot.resolve hk.slots.on (hk.short _ hmem)
  unfold maybeResolvePointer
  rw [if_pos hk.slots.on]
  cases hdec : decodeValuePointer stored with
  | none => exact ⟨.inl (congrArg Except.ok (hslot.inline hdec)), hk.cached⟩
  | some p =>
    dsimp only
    cases hget : c.vlogCache.get hash stored with
    | mk hit cache =>
      have hcache : ∀ q ∈ cache.entries, q ∈ st := fun q hq =>
        hk.cached q (ShardedLruCache.get_sub
          (show q ∈ (c.vlogCache.get hash stored).2.entries from hget.symm ▸ hq))
      cases hit with
      | some cached =>
        have hin := hk.cached _ (ShardedLruCache.mem_get (congrArg Prod.fst hget))
        have heq := hk.slots.unique stored cached value hin hmem
        exact ⟨.inl (congrArg Except.ok heq), hcache⟩
      | none =>
        dsimp only
        by_cases hgen : p.vlogNumber ∈ c.db.vlogs
        · have hread := hfile fun q hq => Option.some.inj (hdec.symm.trans hq) ▸ hgen
          simp only [DB.resolve, hk.slots.on, hdec, hgen, if_true] at hread
          rw [if_pos hgen, hread]
          refine ⟨.inl rfl, fun q hq => ?_⟩
          rcases ShardedLruCache.mem_put hq with rfl | hq
          · exact hmem
          · exact hcache q hq
        · rw [if_neg hgen]
          exact ⟨.inr ⟨p, rfl, hgen, rfl⟩, hcache⟩

/-! ## Every run -/

theorem fresh_ok {opt : Options} (hon : opt.enableValueSeparation = true) : Ok [] (fresh opt) where
  slots := DB.fresh_slotsOk hon
  short := nofun
  cached := by
    intro q hq
    rw [fresh, emptyCache, ShardedLruCache.entries_new] at hq
    cases hq
  found := nofun

theorem Ok.lookup (hk : Ok st c) {key stored : Bytes} {S : ReadSeq}
    (hfound : c.db.core.lookup key S = .found stored) : ∃ value, (stored, value) ∈ st := by
  obtain ⟨h, hi, hslotted⟩ := hk.slots.inv
  have hans := Lsm.lookup_answers hi key S
  rw [hfound] at hans
  obtain ⟨e, he, ht, rfl⟩ := hans
  exact hslotted e (hi.contents.sub e he.1) ht

theorem Ok.step (hk : Ok st c) {ev : Event} (hfit : c.Fits ev) (hs : c.step hash ev = some c') :
    Ok (st ++ c.stores ev) c' := by
  cases ev with
  | life ev =>
    cases ev with
    | op op =>
      simp only [CachedDB.step, DB.stepLife, Option.map_eq_some_iff] at hs
      obtain ⟨db, hdb, rfl⟩ := hs
      split at hdb
      · have hgrow := DB.step_grow hk.slots.gens hk.slots.on hdb
        refine ⟨hk.slots.step hfit.1 hdb, fun q hq => ?_, fun q hq => ?_, fun stored hf => ?_⟩
        · rcases mem_append.mp hq with hq | hq
          · exact (hk.slots.slots q hq).short_grow (hk.short q hq) hgrow
          · exact DB.stores_short hk.slots.gens hk.slots.on hfit.1.pointer hfit.2 hdb q hq
        · exact mem_append_left _ (hk.cached q hq)
        · obtain ⟨v, hv⟩ := hk.found stored hf
          exact ⟨v, mem_append_left _ hv⟩
      · cases hdb
    | reopen opt =>
      simp only [CachedDB.step, DB.stepLife, Option.map_eq_some_iff] at hs
      obtain ⟨db, hdb, rfl⟩ := hs
      have hslots := hk.slots.reopen hfit (DB.eq_ok_of_toOption hdb)
      rw [show c.stores (.life (.reopen opt)) = [] from rfl, append_nil]
      have hr := (hk.slots.life.opened (DB.eq_ok_of_toOption hdb)).1
      have hgrow : DB.VlogsGrow c.db db := hr ▸ hk.slots.reopen_grow hfit _
      exact ⟨hslots, fun q hq => (hk.slots.slots q hq).short_grow (hk.short q hq) hgrow,
        fun q hq => absurd ((fresh_ok hfit).cached q hq) not_mem_nil,
        fun _ hx => absurd hx not_mem_nil⟩
  | lookup key S =>
    rw [show c.stores (.lookup key S) = [] from rfl, append_nil]
    simp only [CachedDB.step] at hs
    split at hs
    · next stored hfound =>
      cases hs
      refine ⟨hk.slots, hk.short, hk.cached, fun x hx => ?_⟩
      rcases mem_cons.mp hx with rfl | hx
      · exact hk.lookup hfound
      · exact hk.found x hx
    · cases hs
      exact hk
  | resolve stored =>
    rw [show c.stores (.resolve stored) = [] from rfl, append_nil]
    simp only [CachedDB.step] at hs
    split at hs
    · next hf =>
      cases hs
      obtain ⟨v, hv⟩ := hk.found stored hf
      exact ⟨hk.slots, hk.short, (hk.resolve_spec hash hv).2, hk.found⟩
    · cases hs

theorem Ok.reachable_step (hk : Ok st c) (hreach : ∀ q ∈ st, c.db.Reachable q.1) {ev : Event}
    (hfit : c.Fits ev) (hev : ev ≠ .life (.op .gcRetire)) (hs : c.step hash ev = some c') :
    ∀ q ∈ st ++ c.stores ev, c'.db.Reachable q.1 := by
  have hkeep : ∀ {q : Bytes × Bytes}, c.db.Reachable q.1 → (∀ n ∈ c.db.vlogs, n ∈ c'.db.vlogs) →
      c'.db.Reachable q.1 := fun hr hsub p hp => hsub _ (hr p hp)
  intro q hq
  cases ev with
  | life ev =>
    cases ev with
    | op op =>
      simp only [CachedDB.step, DB.stepLife, Option.map_eq_some_iff] at hs
      obtain ⟨db, hdb, rfl⟩ := hs
      split at hdb
      · refine hkeep ?_ (DB.step_vlogs (fun hop => hev (by rw [hop])) hdb)
        rcases mem_append.mp hq with hq | hq
        · exact hreach q hq
        · rcases DB.stores_cases hk.slots.gens hk.slots.on hfit.1 hdb with hnil | ⟨v, hone, -⟩
          · rw [show c.stores (.life (.op op)) = [] from hnil] at hq
            cases hq
          · rw [show c.stores (.life (.op op)) = _ from hone] at hq
            rw [mem_singleton.mp hq]
            exact DB.slot_reachable hk.slots.gens hk.slots.on hfit.1.pointer v
      · cases hdb
    | reopen opt =>
      simp only [CachedDB.step, DB.stepLife, Option.map_eq_some_iff] at hs
      obtain ⟨db, hdb, rfl⟩ := hs
      have hr := (hk.slots.life.opened (DB.eq_ok_of_toOption hdb)).1
      have hvlogs : db.vlogs = c.db.vlogs := hr ▸ (hk.slots.reopen_vlogs hfit _).1
      exact hkeep (hreach q ((append_nil st) ▸ hq)) fun n hn => hvlogs.symm ▸ hn
  | lookup key S =>
    refine hkeep (hreach q ((append_nil st) ▸ hq)) ?_
    simp only [CachedDB.step] at hs
    split at hs <;> cases hs <;> exact fun _ hn => hn
  | resolve stored =>
    refine hkeep (hreach q ((append_nil st) ▸ hq)) ?_
    simp only [CachedDB.step] at hs
    split at hs
    · cases hs
      exact fun _ hn => hn
    · cases hs

/-- **Slots resolve to their values.**  Along a run whose writes all fit and
whose restarts leave value separation on, whatever happens between a lookup
and the resolution of what it found: a slot is the value itself without the
shape of a pointer, or a pointer to an entry of the value; as long as its
generation is there it resolves to the value, from the cache or from the
file; only garbage collection retires a generation, and then the answer is the
value or an error; and lookups find nothing but such slots. -/
theorem run_resolves (hash : Bytes → Nat) {pl : Platform} {opt : Options}
    (hon : opt.enableValueSeparation = true) {tr : List Event} {c : CachedDB}
    (hmeets : Machine.Meets (step hash) Fits (fresh opt) tr)
    (hsize : Machine.Always (step hash) (fun c => c.db.Fits pl) (fresh opt) tr)
    (hrun : Machine.run (step hash) (fresh opt) tr = some c) :
    (∀ slot value, (slot, value) ∈ Machine.emitted (step hash) stores (fresh opt) tr →
      c.db.SlotOk slot value ∧
      (c.db.Reachable slot → (c.maybeResolvePointer hash slot).1 = .ok value) ∧
      (Event.life (.op .gcRetire) ∉ tr → c.db.Reachable slot) ∧
      ((c.maybeResolvePointer hash slot).1 = .ok value ∨
        ∃ n, (c.maybeResolvePointer hash slot).1 = .error (DB.vlogGone n))) ∧
    (∀ slot ∈ c.found,
      ∃ value, (slot, value) ∈ Machine.emitted (step hash) stores (fresh opt) tr) ∧
    ∀ key S slot, (∀ q : Nat, S = WithTop.some q → q < 2 ^ 56) →
      c.db.core.lookupBytes pl key S = .ok (.found slot) →
      ∃ value, (slot, value) ∈ Machine.emitted (step hash) stores (fresh opt) tr := by
  have hinv : Ok (Machine.emitted (step hash) stores (fresh opt) tr) c ∧
      (Event.life (.op .gcRetire) ∉ tr →
        ∀ q ∈ Machine.emitted (step hash) stores (fresh opt) tr, c.db.Reachable q.1) := by
    refine Machine.meets_emitted
      (fun tr st c => Ok st c ∧ (Event.life (.op .gcRetire) ∉ tr → ∀ q ∈ st, c.db.Reachable q.1))
      ⟨fresh_ok hon, fun _ _ hq => absurd hq List.not_mem_nil⟩ ?_ hmeets hrun
    rintro tr st c ev c' ⟨hk, hreach⟩ hfit hs
    refine ⟨hk.step hfit hs, fun hno => ?_⟩
    obtain ⟨hpre, hlast⟩ := not_or.mp (mt List.mem_append.mpr hno)
    exact hk.reachable_step (hreach hpre) hfit
      (fun hev => hlast (hev ▸ List.mem_singleton_self _)) hs
  obtain ⟨hk, hreach⟩ := hinv
  have hlookup : ∀ key S slot, (∀ q : Nat, S = WithTop.some q → q < 2 ^ 56) →
      c.db.core.lookupBytes pl key S = .ok (.found slot) → c.db.core.lookup key S =
        .found slot := by
    intro key S slot hS hfound
    obtain ⟨h, hi⟩ := hk.slots.life.inv
    rw [Lsm.lookupBytes_eq hi (hsize.last hrun) hS] at hfound
    exact Except.ok.inj hfound
  refine ⟨fun slot value hmem => ?_, hk.found,
    fun key S slot hS hfound => hk.lookup (hlookup key S slot hS hfound)⟩
  obtain ⟨hres, -⟩ := hk.resolve_spec hash hmem
  refine ⟨hk.slots.slots _ hmem, fun hr => ?_, fun hno => hreach hno _ hmem, ?_⟩
  · rcases hres with hok | ⟨p, hdec, hgone, -⟩
    · exact hok
    · exact absurd (hr p hdec) hgone
  · exact hres.imp_right fun ⟨p, _, _, herr⟩ => ⟨_, herr⟩

/-- A value of the shape of a pointer is written, found after a restart, and
resolved. -/
def sampleEvents : List Event :=
  [.life (.op (.put [1] DB.sampleShape)), .life (.reopen DB.separatedOptions),
    .lookup [1] kMaxSeq, .resolve (encodeValuePointer ⟨1, 0, 21⟩)]

theorem run_resolves_sampleShape :
    ∃ c, Machine.run (step fun _ => 0) (fresh DB.separatedOptions) sampleEvents = some c ∧
      (c.maybeResolvePointer (fun _ => 0) (encodeValuePointer ⟨1, 0, 21⟩)).1 =
        .ok DB.sampleShape := by
  have hsome : (Machine.run (step fun _ => 0) (fresh DB.separatedOptions) sampleEvents).isSome =
      true := by
    decide +kernel
  have hmem : (encodeValuePointer ⟨1, 0, 21⟩, DB.sampleShape) ∈
      Machine.emitted (step fun _ => 0) stores (fresh DB.separatedOptions) sampleEvents := by
    decide +kernel
  obtain ⟨c, hrun⟩ := Option.isSome_iff_exists.mp hsome
  have hmeets : Machine.Meets (step fun _ => 0) Fits (fresh DB.separatedOptions) sampleEvents :=
    ⟨⟨⟨⟨by decide, by decide, by decide⟩, ⟨by decide, by decide⟩⟩,
        show ∀ e ∈ ([([1], DB.sampleShape)] : List (Bytes × Bytes)),
          e.1.length + e.2.length ≤ kPreadMax by decide⟩,
      fun _ _ => ⟨rfl, fun _ _ => ⟨trivial, fun _ _ => ⟨trivial, fun _ _ => trivial⟩⟩⟩⟩
  obtain ⟨hslots, -⟩ := @run_resolves (fun _ => 0) Lsm.flat _ rfl _ _ hmeets
    (by decide +kernel) hrun
  obtain ⟨-, hres, hreach, -⟩ := hslots _ _ hmem
  exact ⟨c, hrun, hres (hreach (by simp [sampleEvents]))⟩

/-- **A value of 2^32 bytes** is separated, and its pointer never leads back
to it. -/
theorem run_resolves_longValue : ∃ (value slot : Bytes) (c : CachedDB),
    Machine.run (step fun _ => 0) (fresh DB.separatedOptions) [.life (.op (.put [1] value))] =
      some c ∧
    (slot, value) ∈ Machine.emitted (step fun _ => 0) stores (fresh DB.separatedOptions)
      [.life (.op (.put [1] value))] ∧
    c.db.Reachable slot ∧ (c.maybeResolvePointer (fun _ => 0) slot).1 ≠ .ok value := by
  have hlen : (List.replicate (2 ^ 32) (0 : UInt8)).length = 2 ^ 32 := List.length_replicate
  generalize List.replicate (2 ^ 32) (0 : UInt8) = value at hlen
  have hslot := DB.fresh_slot_long hlen
  have hdec : decodeValuePointer (encodeValuePointer ⟨1, 0, 0⟩) = some ⟨1, 0, 0⟩ := by decide
  obtain ⟨c, hrun, hon, hvlogs, hcache⟩ : ∃ c, Machine.run (step fun _ => 0)
      (fresh DB.separatedOptions) [.life (.op (.put [1] value))] = some c ∧
      c.db.opt.enableValueSeparation = true ∧ c.db.vlogs = [1] ∧ c.vlogCache = emptyCache := by
    refine ⟨⟨(DB.fresh DB.separatedOptions).makeRoom.writeEntry .value [1] value, emptyCache, []⟩,
      rfl, ?_⟩
    rw [DB.makeRoom, if_neg (by decide)]
    exact ⟨rfl, rfl, rfl⟩
  refine ⟨value, encodeValuePointer ⟨1, 0, 0⟩, c, hrun, ?_, fun p hp => ?_, fun hbad => ?_⟩
  · rw [← hslot]
    exact List.mem_singleton_self _
  · rw [← Option.some.inj (hdec.symm.trans hp), hvlogs]
    exact List.mem_singleton_self _
  · have hmiss : (emptyCache.get (fun _ => 0) (encodeValuePointer ⟨1, 0, 0⟩)) =
        (none, (emptyCache.get (fun _ => 0) (encodeValuePointer ⟨1, 0, 0⟩)).2) := rfl
    simp only [maybeResolvePointer, hon, hdec, hcache, hvlogs, if_true] at hbad
    rw [hmiss] at hbad
    dsimp only at hbad
    split at hbad
    · split at hbad
      · next hread =>
          cases hbad
          exact absurd (length_readValue hread) (by rw [hlen]; decide)
      · cases hbad
    · cases hbad

end CachedDB

end BedrockKV
