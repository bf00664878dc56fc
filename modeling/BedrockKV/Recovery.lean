/-
# `BedrockKV.Recovery` — what `Open` finds is what was published

`Names d v`: the MANIFEST of `d` lists the files of the version `v`, and every
one of them is on disk, whole and synced.  Then `Open` puts `v` together again
(`assembleVersion_eq`), replays the logs over it, and ends in a state that
keeps the invariant of the store, with the replayed versions and those of `v`
as its history (`openDb_ok`).  All that is asked of the replayed versions is
that they are newer than `v` and that no two of them clash.
-/
import BedrockKV.DbStep

namespace BedrockKV

open List MultiVersion

/-! ## Putting a version together -/

theorem insertionSort_perm_eq {α β : Type*} [LinearOrder β] (f : α → β) {l m : List α}
    (hp : l.Perm m) (hm : m.Pairwise fun a b => f a < f b) :
    l.insertionSort (fun a b => f a ≤ f b) = m := by
  have : Std.Total fun a b : α => f a ≤ f b := ⟨fun a b => le_total _ _⟩
  have : IsTrans α fun a b => f a ≤ f b := ⟨fun _ _ _ => le_trans⟩
  have hnd : (m.map f).Nodup := by
    rw [nodup_iff_pairwise_ne, pairwise_map]
    exact hm.imp ne_of_lt
  refine List.Perm.eq_of_pairwise ?_ (pairwise_insertionSort _ l) (hm.imp le_of_lt)
    ((perm_insertionSort _ l).trans hp)
  intro a b ha hb hab hba
  have ha : a ∈ m := hp.mem_iff.mp ((perm_insertionSort _ l).mem_iff.mp ha)
  exact inj_on_of_nodup_map hnd ha hb (le_antisymm hab hba)

/-- The metadata says where a file belongs and bounds its sequence numbers. -/
structure Version.MetaOk (v : Version) : Prop where
  l0 : ∀ r ∈ v.l0, r.fileMeta.level = 0
  level : ∀ i, ∀ r ∈ v.levels i, r.fileMeta.level = i.val + 1
  pos : ∀ r ∈ v.tables, 0 < r.number
  seq : ∀ r ∈ v.tables, ∀ e ∈ r.entries, e.seq ≤ r.fileMeta.largestSeq

theorem flatMap_single {ι α : Type*} [DecidableEq ι] {l : List ι} (hnd : l.Nodup) {i : ι}
    (hi : i ∈ l) {f : ι → List α} (hf : ∀ j ∈ l, j ≠ i → f j = []) : l.flatMap f = f i := by
  induction l with
  | nil => cases hi
  | cons j l ih =>
    obtain ⟨hj, hl⟩ := nodup_cons.mp hnd
    rw [flatMap_cons]
    rcases mem_cons.mp hi with rfl | hi
    · have hrest : l.flatMap f = [] := by
        rw [flatMap_eq_nil_iff]
        exact fun k hk => hf k (mem_cons_of_mem _ hk) fun h => hj (h ▸ hk)
      rw [hrest, append_nil]
    · rw [hf j mem_cons_self fun h => hj (h ▸ hi), nil_append]
      exact ih hl hi fun k hk => hf k (mem_cons_of_mem _ hk)

variable {v : Version} {refs : List TableRef} {es : List Entry}

theorem Version.MetaOk.filter_l0 (h : v.MetaOk) :
    (v.tables.filter fun r => decide (r.fileMeta.level = 0)) = v.l0 := by
  rw [Version.tables, filter_append, filter_eq_self.mpr, filter_eq_nil_iff.mpr, append_nil]
  · intro r hr
    obtain ⟨i, -, hr⟩ := mem_flatMap.mp hr
    rw [h.level i r hr]
    simp
  · intro r hr
    simp [h.l0 r hr]

theorem Version.MetaOk.filter_level (h : v.MetaOk) (i : LevelIndex) :
    (v.tables.filter fun r => decide (r.fileMeta.level = i.val + 1)) = v.levels i := by
  rw [Version.tables, filter_append, filter_eq_nil_iff.mpr, nil_append,
    filter_flatMap, flatMap_single (l := levelIndices) (nodup_finRange _) (mem_finRange i)]
  · refine filter_eq_self.mpr fun r hr => ?_
    simp [h.level i r hr]
  · intro j _ hj
    refine filter_eq_nil_iff.mpr fun r hr => ?_
    rw [h.level j r hr]
    simp only [Nat.add_right_cancel_iff, decide_eq_true_eq]
    exact fun hv => hj (Fin.ext hv)
  · intro r hr
    rw [h.l0 r hr]
    simp

theorem assembleVersion_eq (hmeta : v.MetaOk) (hok : v.Ok)
    (hdesc : (v.l0.map TableRef.number).Pairwise (· > ·)) (hp : refs.Perm v.tables) :
    DB.assembleVersion refs = v := by
  have hl0 : (DB.assembleVersion refs).l0 = v.l0 := by
    refine insertionSort_perm_eq (fun r : TableRef => OrderDual.toDual r.number) ?_ ?_
    · rw [← hmeta.filter_l0]
      exact hp.filter _
    · exact pairwise_map.mp hdesc
  have hlevels : (DB.assembleVersion refs).levels = v.levels := by
    funext i
    refine insertionSort_perm_eq TableRef.smallest ?_ ?_
    · rw [← hmeta.filter_level i]
      exact hp.filter _
    · exact (hok.level_ok i).imp fun h => lt_of_le_of_lt (Table.smallest_le_largest _) h
  cases v
  cases hv : DB.assembleVersion refs
  simp_all

theorem le_maxOf {ns : List Nat} {n k : Nat} (h : k ∈ ns ∨ k ≤ n) : k ≤ DB.maxOf ns n := by
  induction ns generalizing n with
  | nil => exact h.resolve_left not_mem_nil
  | cons m ns ih =>
    refine ih ?_
    rcases h with h | h
    · rcases mem_cons.mp h with rfl | h
      · exact .inr (le_max_right _ _)
      · exact .inl h
    · exact .inr (h.trans (le_max_left _ _))

/-! ## The metadata along a run -/

/-- An output of a compaction, as `seal` records it. -/
structure SealedOk (c : Compaction) (r : TableRef) : Prop where
  level : r.fileMeta.level = c.output.val + 1
  pos : 0 < r.number
  seq : ∀ e ∈ r.entries, e.seq ≤ r.fileMeta.largestSeq

/-- The files of the version and those being written are labelled as they will be read. -/
structure Lsm.MetaInv (s : Lsm) : Prop where
  current : s.current.MetaOk
  sealed : ∀ c floor todo outputs, s.compaction = some (c, .merging floor todo outputs) →
    ∀ r ∈ outputs, SealedOk c r
  next : 0 < s.nextFileNumber
  imm : s.imm ≠ none → 0 < s.immSstNumber

namespace Lsm

variable {s s' : Lsm} {h : List Entry}

theorem seq_le_largestSeq (sz : TableSize) (t : Table) (number level : Nat) {e : Entry}
    (he : e ∈ t.entries) : e.seq ≤ (t.fileMeta sz number level).largestSeq :=
  le_maxOf (.inl (mem_map_of_mem he))

theorem fresh_metaInv (opt : Options) : (fresh opt).MetaInv where
  current := by
    refine ⟨?_, ?_, ?_, ?_⟩ <;> simp [fresh, Version.empty, Version.tables]
  sealed := fun _ _ _ _ hc => by cases hc
  next := Nat.succ_pos _
  imm := fun hne => absurd rfl hne

theorem MetaInv.rotateForFlush (hm : s.MetaInv) : s.rotateForFlush.MetaInv :=
  ⟨hm.current, hm.sealed, Nat.succ_pos _, fun _ => Nat.succ_pos _⟩

theorem MetaInv.write {type : ValueType} {key stored : Bytes} (hm : s.MetaInv)
    (hs : s.write type key stored = some s') : s'.MetaInv := by
  unfold Lsm.write at hs
  split at hs
  · cases hs
  · cases hs
    split
    · exact ⟨hm.current, hm.sealed, Nat.succ_pos _, fun _ => Nat.succ_pos _⟩
    · exact ⟨hm.current, hm.sealed, hm.next, hm.imm⟩

theorem MetaInv.flushInstall (hi : s.Inv h) (hm : s.MetaInv) (hs : s.flushInstall = some s') :
    s'.MetaInv := by
  obtain ⟨t, hbuilt, rfl⟩ := flushInstall_cases hs
  have himm : s.imm ≠ none := hi.imm_ne_none (by simp [hbuilt])
  refine ⟨⟨?_, hm.current.level, ?_, ?_⟩, hm.sealed, hm.next, hm.imm⟩
  · exact forall_mem_cons.mpr ⟨rfl, hm.current.l0⟩
  · exact forall_mem_cons.mpr ⟨hm.imm himm, hm.current.pos⟩
  · exact forall_mem_cons.mpr ⟨fun e he => seq_le_largestSeq _ t _ _ he, hm.current.seq⟩

theorem MetaInv.sealOutput (hm : s.MetaInv) (hs : s.sealOutput = some s') : s'.MetaInv := by
  obtain ⟨c, floor, t, todo, outputs, hc, rfl⟩ := sealOutput_cases hs
  refine ⟨hm.current, ?_, Nat.succ_pos _, hm.imm⟩
  rintro c' floor' todo' outputs' hc' r hr
  obtain ⟨rfl, rfl, rfl, rfl⟩ : c = c' ∧ floor = floor' ∧ todo = todo' ∧
      outputs ++ [⟨t, t.fileMeta s.opt.size s.nextFileNumber (c.output.val + 1)⟩] = outputs' := by
    simpa using hc'
  rcases mem_append.mp hr with hr | hr
  · exact hm.sealed c floor _ outputs hc r hr
  · obtain rfl := mem_singleton.mp hr
    exact ⟨rfl, hm.next, fun e he => seq_le_largestSeq _ t _ _ he⟩

theorem MetaInv.installCompaction (hi : s.Inv h) (hm : s.MetaInv)
    (hs : s.installCompaction = some s') : s'.MetaInv := by
  obtain ⟨c, floor, outputs, hc, rfl⟩ := installCompaction_cases hs
  have hp := hi.compact
  simp only [CompactOk, hc] at hp
  have hn := current_nodup hi
  have hout := hm.sealed c floor [] outputs hc
  refine ⟨⟨?_, ?_, ?_, ?_⟩, fun _ _ _ _ hnone => (by cases hnone), hm.next, hm.imm⟩
  · exact fun r hr => hm.current.l0 r ((hp.1.mem_install_l0 hn).mp hr).1
  · intro i r hr
    rcases (hp.1.mem_install_level hn).mp hr with ⟨hr, -⟩ | ⟨hi, hr⟩
    · exact hm.current.level i r hr
    · exact hi ▸ (hout r hr).level
  · intro r hr
    rcases (hp.1.mem_install_tables hn).mp hr with ⟨hr, -⟩ | hr
    · exact hm.current.pos r hr
    · exact (hout r hr).pos
  · intro r hr
    rcases (hp.1.mem_install_tables hn).mp hr with ⟨hr, -⟩ | hr
    · exact hm.current.seq r hr
    · exact (hout r hr).seq

theorem MetaInv.step (hi : s.Inv h) (hm : s.MetaInv) {op : Op} (hs : s.step op = some s') :
    s'.MetaInv := by
  cases op with
  | put key value | delete key => exact hm.write hs
  | rotate =>
    simp only [Lsm.step, rotate] at hs
    split at hs
    · cases hs
    · cases hs
      exact hm.rotateForFlush
  | flushBuild =>
    rcases flushBuild_cases hs with rfl | ⟨m, t, -, -, -, -, rfl⟩
    · exact hm
    · exact ⟨hm.current, hm.sealed, hm.next, hm.imm⟩
  | flushInstall => exact hm.flushInstall hi hs
  | flushDone =>
    simp only [Lsm.step, flushDone] at hs
    split at hs
    · cases hs
      exact ⟨hm.current, hm.sealed, hm.next, fun hne => absurd rfl hne⟩
    · cases hs
  | pick =>
    obtain ⟨c, -, -, -, -, rfl⟩ := pick_cases hs
    exact ⟨hm.current, fun _ _ _ _ hc => by simp at hc, hm.next, hm.imm⟩
  | captureFloor =>
    obtain ⟨c, ts, -, -, rfl⟩ := captureFloor_cases hi hs
    refine ⟨hm.current, ?_, hm.next, hm.imm⟩
    intro c' floor' todo' outputs' hc' r hr
    obtain ⟨-, -, -, rfl⟩ : c = c' ∧ _ = floor' ∧ ts = todo' ∧ [] = outputs' := by simpa using hc'
    cases hr
  | sealOutput => exact hm.sealOutput hs
  | installCompaction => exact hm.installCompaction hi hs
  | getSnapshot | releaseSnapshot handle =>
    cases hs
    exact ⟨hm.current, hm.sealed, hm.next, hm.imm⟩

end Lsm

theorem DB.CoreStep.metaInv {c c' : Lsm} {h : List Entry} (hs : DB.CoreStep c c' es) (hi : c.Inv h)
    (hm : c.MetaInv) : c'.MetaInv := by
  cases hs with
  | step op hop => exact hm.step hi hop
  | rewrite key stored => exact ⟨hm.current, hm.sealed, hm.next, hm.imm⟩
  | takeNumber => exact ⟨hm.current, hm.sealed, Nat.succ_pos _, hm.imm⟩
  | stay => exact hm

/-! ## The tables on disk -/

/-- The MANIFEST names the version, and its files are there. -/
structure Disk.Names (d : Disk) (v : Version) : Prop where
  files : d.manifestState.files = (DB.sortByNumber v.tables).map TableRef.fileMeta
  tables : ∀ r ∈ v.tables, Keyed.get? d.ssts r.number = some ⟨some r.table, true⟩

theorem openTables_eq {d : Disk}
    (h : ∀ r ∈ refs, Keyed.get? d.ssts r.number = some ⟨some r.table, true⟩) :
    DB.openTables d (refs.map TableRef.fileMeta) = .ok refs := by
  induction refs with
  | nil => rfl
  | cons r refs ih =>
    obtain ⟨hr, hrefs⟩ := forall_mem_cons.mp h
    have hone : DB.openTable d r.fileMeta = .ok r := by
      unfold DB.openTable
      rw [hr]
    simp only [map_cons, DB.openTables, hone, ih hrefs]

theorem perm_sortByNumber (refs : List TableRef) : (DB.sortByNumber refs).Perm refs :=
  perm_insertionSort _ refs

theorem sortByNumber_ascending (hnd : (refs.map TableRef.number).Nodup) :
    ((DB.sortByNumber refs).map TableRef.number).Pairwise (· < ·) := by
  have : Std.Total fun a b : TableRef => a.number ≤ b.number := ⟨fun a b => le_total _ _⟩
  have : IsTrans TableRef fun a b => a.number ≤ b.number := ⟨fun _ _ _ => le_trans⟩
  have hsorted : (DB.sortByNumber refs).Pairwise fun a b => a.number ≤ b.number :=
    pairwise_insertionSort _ refs
  have hne : (DB.sortByNumber refs).Pairwise fun a b => a.number ≠ b.number := by
    have := ((perm_sortByNumber refs).map TableRef.number).nodup_iff.mpr hnd
    rwa [nodup_iff_pairwise_ne, pairwise_map] at this
  rw [pairwise_map]
  exact (hsorted.and hne).imp fun h => lt_of_le_of_ne h.1 h.2

/-! ## The replayed memtable -/

theorem internalKey_inj {a b : Entry} (h : a.internalKey = b.internalKey) :
    a.user = b.user ∧ a.seq = b.seq := by
  have hu : a.user = b.user := congrArg InternalKey.user h
  have ht : a.tag = b.tag := WithTop.coe_inj.mp (congrArg InternalKey.tag h)
  exact ⟨hu, le_antisymm (Entry.seq_le_of_tag_le (le_of_eq ht))
    (Entry.seq_le_of_tag_le (le_of_eq ht.symm))⟩

theorem mem_insertEntry_of_distinct {e : Entry}
    (hd : ∀ x ∈ es, x.user = e.user → x.seq = e.seq → x = e) {x : Entry} :
    x ∈ insertEntry e es ↔ x = e ∨ x ∈ es := by
  by_cases hclash : ∃ y ∈ es, y.internalKey = e.internalKey
  · obtain ⟨y, hy, hk⟩ := hclash
    obtain ⟨hu, hs⟩ := internalKey_inj hk
    obtain rfl := hd y hy hu hs
    refine ⟨mem_of_mem_insertEntry, ?_⟩
    rintro (rfl | hx)
    · exact mem_insertEntry_of_mem hy
    · exact mem_insertEntry_of_mem hx
  · exact mem_insertEntry fun y hy hk => hclash ⟨y, hy, hk⟩

theorem mem_foldl_add : ∀ {m : MemTable},
    entryView.Distinct (m.entries ++ es) → ∀ x,
      x ∈ (es.foldl MemTable.add m).entries ↔ x ∈ m.entries ++ es := by
  induction es with
  | nil => exact fun _ x => by simp
  | cons e es ih =>
    intro m hd x
    have hadd : ∀ y, y ∈ (m.add e).entries ↔ y = e ∨ y ∈ m.entries := fun y =>
      mem_insertEntry_of_distinct fun z hz hu hs =>
        hd z (mem_append_left _ hz) e (by simp) hu hs
    have hd' : entryView.Distinct ((m.add e).entries ++ es) := by
      refine hd.mono fun y hy => ?_
      rcases mem_append.mp hy with hy | hy
      · rcases (hadd y).mp hy with rfl | hy <;> simp_all
      · simp [hy]
    rw [foldl_cons, ih hd' x]
    simp only [mem_append, hadd x, mem_cons]
    tauto

theorem mem_replayInto (hd : entryView.Distinct es) (x : Entry) :
    x ∈ (DB.replayInto es).entries ↔ x ∈ es :=
  mem_foldl_add (m := MemTable.empty) hd x

/-! ## The opened store -/

/-- What recovery needs to know of the version and the replayed entries. -/
structure Recoverable (v : Version) (es : List Entry) : Prop where
  ok : v.Ok
  metaOk : v.MetaOk
  numbers : v.numbers.Nodup
  descending : (v.l0.map TableRef.number).Pairwise (· > ·)
  distinct : entryView.Distinct (es ++ v.entries)
  newer : entryView.Newer es v.entries

theorem Recoverable.mono {es' : List Entry} (h : Recoverable v es) (hsub : ∀ e ∈ es', e ∈ es) :
    Recoverable v es' :=
  ⟨h.ok, h.metaOk, h.numbers, h.descending,
    h.distinct.mono fun x hx => mem_append.mpr ((mem_append.mp hx).imp_left (hsub x)),
    fun x hx => h.newer x (hsub x hx)⟩

/-- **Recovery restores the invariant**, with what it found as the history. -/
theorem openedCore_inv {opt : Options} {seen : Nat} (h : Recoverable v es)
    (hseen : ∀ n ∈ v.numbers, n ≤ seen) : (DB.openedCore opt v es seen).Inv (es ++ v.entries) := by
  have hd : entryView.Distinct es := h.distinct.mono fun x hx => mem_append_left _ hx
  have hmem : ∀ x, x ∈ (DB.openedCore opt v es seen).mem.entries ↔ x ∈ es := mem_replayInto hd
  have hstored : ∀ x, x ∈ (DB.openedCore opt v es seen).stored ↔ x ∈ es ++ v.entries := by
    intro x
    rw [Lsm.stored, Lsm.pending_of_none rfl, nil_append, mem_append, mem_append, hmem x]
    rfl
  refine ⟨⟨h.ok, ?_, ?_, h.distinct, Nat.succ_pos _, ?_, fun x hx => (hstored x).mp hx, ?_, ?_⟩,
    ⟨?_, ?_, h.descending, ?_⟩, trivial, trivial, ⟨fun _ => rfl, fun _ => rfl⟩⟩
  · intro x hx y hy
    rw [Lsm.pending_of_none rfl] at hy
    exact h.newer x ((hmem x).mp hx) y hy
  · intro x hx
    rw [Lsm.pending_of_none rfl] at hx
    cases hx
  · intro e he
    refine Nat.lt_succ_of_le ?_
    rcases mem_append.mp he with he | he
    · exact le_maxOf (.inl (mem_append_left _ (mem_map_of_mem he)))
    · obtain ⟨r, hr, he⟩ := Version.mem_entries.mp he
      exact (h.metaOk.seq r hr e he).trans
        (le_maxOf (.inl (mem_append_right _ (mem_map_of_mem hr))))
  · exact fun _ hx => absurd hx not_mem_nil
  · exact fun S _ k r => View.reads_congr hstored
  · have : (DB.openedCore opt v es seen).pendingNumber = [] := rfl
    rw [this]
    simpa [Lsm.sealed, DB.openedCore] using h.numbers
  · intro n hn
    have : (DB.openedCore opt v es seen).pendingNumber = [] := rfl
    rw [this] at hn
    exact Nat.lt_succ_of_le (hseen n (by simpa [Lsm.sealed, DB.openedCore] using hn))
  · exact fun _ _ _ hx => absurd hx not_mem_nil

/-- **`Open` succeeds** on a directory that names a version, and recovers it
with the entries its logs replay to. -/
theorem openDb_ok {opt : Options} {d : Disk} (hn : d.Names v)
    (hvlogs : (0 :: d.manifestState.vlogs).Pairwise (· < ·))
    (hsep : opt.enableValueSeparation = false → d.vlogs = [] ∧ d.manifestState.vlogs = [])
    (h : Recoverable v (DB.replayedEntries (DB.logsToReplay d d.manifestState.logNumber))) :
    ∃ s, DB.openDb opt d = .ok s ∧ s = DB.opened opt d (DB.sortByNumber v.tables) ∧
      s.core.current = v ∧
      s.core.Inv (DB.replayedEntries (DB.logsToReplay d d.manifestState.logNumber) ++
        v.entries) := by
  have hperm := perm_sortByNumber v.tables
  have hasm : DB.assembleVersion (DB.sortByNumber v.tables) = v :=
    assembleVersion_eq h.metaOk h.ok h.descending hperm
  have hnums : d.manifestState.files.map FileMeta.fileNumber =
      (DB.sortByNumber v.tables).map TableRef.number := by
    rw [hn.files, map_map]
    rfl
  have hvalid : d.manifestState.Valid := by
    refine ⟨?_, ?_, hvlogs⟩
    · rw [hnums]
      refine pairwise_cons.mpr ⟨?_, sortByNumber_ascending h.numbers⟩
      intro n hmem
      obtain ⟨r, hr, rfl⟩ := mem_map.mp hmem
      exact h.metaOk.pos r (hperm.mem_iff.mp hr)
    · intro f hf
      rw [hn.files] at hf
      obtain ⟨r, hr, rfl⟩ := mem_map.mp hf
      rcases Version.mem_tables.mp (hperm.mem_iff.mp hr) with hr | ⟨i, hr⟩
      · rw [h.metaOk.l0 r hr]
        decide
      · rw [h.metaOk.level i r hr]
        have := i.isLt
        omega
  have hopen : DB.openTables d d.manifestState.files = .ok (DB.sortByNumber v.tables) := by
    rw [hn.files]
    exact openTables_eq fun r hr => hn.tables r (hperm.mem_iff.mp hr)
  refine ⟨DB.opened opt d (DB.sortByNumber v.tables), ?_, rfl, hasm, ?_⟩
  · rw [DB.openDb, if_neg (not_not.mpr hvalid), hopen]
    dsimp only
    rw [if_neg fun hbad => hbad.1 (hsep hbad.2).1, if_neg fun hbad => hbad.1 (hsep hbad.2).2]
  · have hcore : (DB.opened opt d (DB.sortByNumber v.tables)).core =
        DB.openedCore opt v (DB.replayedEntries (DB.logsToReplay d d.manifestState.logNumber))
          ((DB.opened opt d (DB.sortByNumber v.tables)).core.nextFileNumber - 1) := by
      conv_rhs => rw [← hasm]
      rfl
    rw [hcore]
    refine openedCore_inv h fun n hmem => ?_
    have hn' : n ∈ d.manifestState.files.map FileMeta.fileNumber := by
      rw [hnums]
      exact ((hperm.map TableRef.number).mem_iff).mpr hmem
    exact le_trans (le_maxOf (.inl (mem_append_left _ hn'))) (le_max_left _ _)

end BedrockKV
