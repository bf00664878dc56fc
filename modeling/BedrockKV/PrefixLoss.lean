/-
# `BedrockKV.PrefixLoss` — a power cut loses the latest writes, and only those

Under `kSyncPeriodic` a power cut loses writes that were acknowledged.  Within
one log it loses the latest, since what is left of a file is a prefix.  Over
several logs this needs the older ones to be synced to their ends when the
next one is begun, and `RotateForFlush` does not sync the log it retires:
`run_prefix_rotation` is a run that loses a write and keeps a later one.

`run_prefix`: when every rotation finds its log synced, what is left is always
the first writes.  Two things are carried along a run for it:

    Tail       the logs to be replayed are synced, but for the end of the last
    ReadsFrom  from the number `F` on, which is above every table and at most
               the first number of the last log, the store answers like its history

The second is stronger than the invariant of the store, which speaks of the
latest state and the live snapshots only; a compaction keeps it because all
its inputs are below `F`.
-/
import BedrockKV.CrashRun
import BedrockKV.SeqOrder

namespace BedrockKV

open List Keyed Log MultiVersion

/-! ## Reads in the past -/

namespace Lsm

structure ReadsFrom (h : List Entry) (F : Nat) (c : Lsm) : Prop where
  pos : 0 < F
  le : F ≤ c.nextSeq
  lt : ∀ e ∈ c.current.entries, e.seq < F
  reads : ∀ S : Nat, F ≤ S + 1 → ∀ k r, entryView.Reads c.stored k (WithTop.some S) r ↔
    entryView.Reads h k (WithTop.some S) r

variable {c c' : Lsm} {h : List Entry} {F : Nat}

theorem fresh_readsFrom (opt : Options) : (fresh opt).ReadsFrom [] 1 where
  pos := Nat.one_pos
  le := le_rfl
  lt := by simp [fresh, Version.entries]
  reads := fun S _ k r => View.reads_congr fun x => by
    simp [fresh, stored, pending, MemTable.empty, Version.entries]

theorem ReadsFrom.congr (hr : c.ReadsFrom h F) (hcur : c'.current = c.current)
    (hmem : c'.mem = c.mem) (hpend : c'.pending = c.pending) (hseq : c'.nextSeq = c.nextSeq) :
    c'.ReadsFrom h F := by
  have hstored : c'.stored = c.stored := by
    unfold stored
    rw [hcur, hmem, hpend]
  exact ⟨hr.pos, hseq ▸ hr.le, hcur ▸ hr.lt, hstored ▸ hr.reads⟩

theorem ReadsFrom.writeEntry (hi : c.Inv h) (hr : c.ReadsFrom h F) (type : ValueType)
    (key stored : Bytes) :
    (c.writeEntry type key stored).ReadsFrom (h ++ [⟨key, c.nextSeq, type, stored⟩]) F :=
  ⟨hr.pos, hr.le.trans (Nat.le_succ _), hr.lt,
    fun S hS k r => View.reads_insert (mem_stored_writeEntry hi)
    (fun x => by simp [or_comm]) hi.contents.sub hi.contents.distinct hi.contents.seq_lt
    (hr.reads S hS k r)⟩

theorem ReadsFrom.rotateForFlush (hi : c.Inv h) (him : c.imm = none) (hr : c.ReadsFrom h F) :
    c.rotateForFlush.ReadsFrom h F := by
  exact ⟨hr.pos, hr.le, hr.lt, stored_rotateForFlush hi him ▸ hr.reads⟩

/-- A flush raises `F` above the versions it makes a table of. -/
theorem ReadsFrom.flushInstall (hi : c.Inv h) (hr : c.ReadsFrom h F)
    (hs : c.flushInstall = some c') {F' : Nat} (hF : F ≤ F') (hle : F' ≤ c.nextSeq)
    (hpend : ∀ e ∈ c.pending, e.seq < F') : c'.ReadsFrom h F' := by
  have hstored := stored_flushInstall hi hs
  obtain ⟨t, hbuilt, rfl⟩ := flushInstall_cases hs
  rw [pending_of_built hi hbuilt] at hpend
  refine ⟨lt_of_lt_of_le hr.pos hF, hle, fun e he => ?_, fun S hS k r => ?_⟩
  · rcases mem_append.mp (show e ∈ t.entries ++ c.current.entries from he) with he | he
    · exact hpend e he
    · exact lt_of_lt_of_le (hr.lt e he) hF
  · rw [hstored]
    exact hr.reads S (hF.trans hS) k r

theorem ReadsFrom.installCompaction (hi : c.Inv h) (hr : c.ReadsFrom h F)
    (hs : c.installCompaction = some c') : c'.ReadsFrom h F := by
  obtain ⟨x, floor, outputs, hx, rfl⟩ := installCompaction_cases hs
  obtain ⟨hp, hm⟩ := hi.merged hx
  have hn := current_nodup hi
  refine ⟨hr.pos, hr.le, fun e he => hr.lt e (install_entries_sub hp hn hm.builtFrom he),
    fun S hS k r => ?_⟩
  refine (install_reads hi hp hm (.inr fun y hy => WithTop.coe_le_coe.mpr ?_) k r).trans
    (hr.reads S hS k r)
  have hlt := hr.lt y ((mem_entries_split hp hn).mpr (.inr hy))
  exact Nat.lt_succ_iff.mp (lt_of_lt_of_le hlt hS)

end Lsm

/-! ## Losing the end of the last log -/

namespace Disk

variable {d d' : Disk} {F n : Nat} {older : List (Nat × File)} {f : File}

/-- What is replayed ascends; the logs are synced, but for the end of the last
one, whose numbers start at `F`. -/
structure Tail (d : Disk) (F : Nat) : Prop where
  sorted : d.liveEntries.Pairwise fun a b => a.seq < b.seq
  last : ∃ older n f, d.logs = older ++ [(n, f)] ∧
    (∀ p ∈ older, d.floor ≤ p.1 → p.2.bytes.length ≤ p.2.synced) ∧ ∀ e ∈ f.entries, F ≤ e.seq

theorem liveEntries_concat (h : d.logs = older ++ [(n, f)]) :
    d.liveEntries = ((older.filter fun p => decide (d.floor ≤ p.1)).flatMap fun p => p.2.entries) ++
      if d.floor ≤ n then f.entries else [] := by
  unfold liveEntries
  rw [h, filter_append, flatMap_append]
  congr 1
  split
  · next hle => simp [hle]
  · next hle => simp [hle]

/-- **What a power cut leaves of the replayed entries is a prefix.** -/
theorem Tail.crash (ht : d.Tail F) (loss : Loss) :
    ∃ lost, d.liveEntries = (d.crash loss).liveEntries ++ lost ∧ ∀ e ∈ lost, F ≤ e.seq := by
  obtain ⟨older, n, f, hlogs, hsynced, hfrom⟩ := ht.last
  have hlogs' : (d.crash loss).logs =
      (older.map fun p => (p.1, p.2.cut (loss.log p.1))) ++ [(n, f.cut (loss.log n))] := by
    change d.logs.map _ = _
    rw [hlogs, map_append, map_singleton]
  have hfloor : (d.crash loss).floor = d.floor := rfl
  have holder : ((older.map fun p => (p.1, p.2.cut (loss.log p.1))).filter
      fun p => decide (d.floor ≤ p.1)).flatMap (fun p => p.2.entries) =
      (older.filter fun p => decide (d.floor ≤ p.1)).flatMap fun p => p.2.entries := by
    rw [filter_map, flatMap_map]
    refine flatMap_congr fun p hp => ?_
    obtain ⟨hp, hle⟩ := mem_filter.mp hp
    exact File.cut_of_synced (hsynced p hp (by simpa using hle)) _
  obtain ⟨lost, hlost⟩ := File.entries_mono (File.isPrefix_cut f (loss.log n))
  rw [liveEntries_concat hlogs, liveEntries_concat hlogs', hfloor, holder]
  split
  · refine ⟨lost, ?_, fun e he => hfrom e (hlost ▸ mem_append_right _ he)⟩
    rw [append_assoc, hlost]
  · exact ⟨[], by simp, nofun⟩

theorem Tail.frame (ht : d.Tail F) (hlogs : d'.logs = d.logs) (hfloor : d'.floor = d.floor) :
    d'.Tail F := by
  have hlive : d'.liveEntries = d.liveEntries := by
    unfold liveEntries
    rw [hlogs, hfloor]
  refine ⟨hlive ▸ ht.sorted, ?_⟩
  rw [hlogs, hfloor]
  exact ht.last

theorem Tail.raise (ht : d.Tail F) (hlogs : d'.logs = d.logs) (hfloor : d.floor ≤ d'.floor) :
    d'.Tail F := by
  obtain ⟨older, n, f, hl, hsynced, hfrom⟩ := ht.last
  refine ⟨ht.sorted.sublist ?_, older, n, f, hlogs.trans hl,
    fun p hp hle => hsynced p hp (hfloor.trans hle), hfrom⟩
  unfold liveEntries
  rw [hlogs]
  refine List.Sublist.flatMap (monotone_filter_right _ fun p hp => ?_) _
  simp only [decide_eq_true_eq] at hp ⊢
  exact hfloor.trans hp

theorem Tail.unlinkLog (ht : d.Tail F) (hn : ∃ k ∈ Keyed.keys d.logs, n < k)
    (hasc : (Keyed.keys d.logs).Pairwise (· < ·)) : (d.apply (.unlinkLog n)).Tail F := by
  obtain ⟨older, m, f, hl, hsynced, hfrom⟩ := ht.last
  have hne : m ≠ n := by
    obtain ⟨k, hk, hlt⟩ := hn
    rw [hl, Keyed.keys_append] at hk hasc
    rcases mem_append.mp hk with hk | hk
    · have := (pairwise_append.mp hasc).2.2 k hk m (mem_singleton_self _)
      omega
    · have := mem_singleton.mp hk
      omega
  refine ⟨ht.sorted.sublist (List.Sublist.flatMap (List.Sublist.filter _ filter_sublist) _),
    Keyed.erase older n, m, f, ?_, fun p hp => hsynced p (Keyed.mem_erase.mp hp).1, hfrom⟩
  change Keyed.erase d.logs n = _
  rw [hl, Keyed.erase, filter_append]
  simp [Keyed.erase, hne]

theorem liveEntries_sync (d : Disk) (n : Nat) :
    (d.apply (.syncLog n)).liveEntries = d.liveEntries := by
  change ((Keyed.modify d.logs n File.sync).filter fun p => decide (d.floor ≤ p.1)).flatMap _ = _
  rw [Keyed.modify, filter_map, flatMap_map]
  unfold liveEntries
  have hfilter : ((fun p : Nat × File => decide (d.floor ≤ p.1)) ∘
      fun p => if p.1 = n then (p.1, p.2.sync) else p) = fun p => decide (d.floor ≤ p.1) := by
    funext p
    dsimp only [Function.comp_apply]
    split <;> rfl
  rw [hfilter]
  refine flatMap_congr fun p _ => ?_
  split <;> rfl

theorem Tail.syncLog (ht : d.Tail F) (n : Nat) : (d.apply (.syncLog n)).Tail F := by
  obtain ⟨older, m, f, hl, hsynced, hfrom⟩ := ht.last
  refine ⟨(liveEntries_sync d n).symm ▸ ht.sorted, Keyed.modify older n File.sync, m,
    if m = n then f.sync else f, ?_, fun p hp hle => ?_, ?_⟩
  · change Keyed.modify d.logs n File.sync = _
    rw [hl, Keyed.modify, map_append, map_singleton]
    dsimp only
    split <;> rfl
  · obtain ⟨g, hg, hpg⟩ := mem_modify.mp hp
    rw [hpg]
    split
    · exact le_rfl
    · exact hsynced _ hg hle
  · split <;> exact hfrom

/-- **A rotation** begins the next log when the last one is synced. -/
theorem Tail.createLog (ht : d.Tail F) (hn : n ∉ Keyed.keys d.logs)
    (hsync : ∀ p ∈ d.logs, d.floor ≤ p.1 → p.2.bytes.length ≤ p.2.synced) :
    (d.apply (.createLog n)).Tail F := by
  have hlogs : (d.apply (.createLog n)).logs = d.logs ++ [(n, .empty)] := set_of_notMem hn
  have hempty : File.empty.entries = [] := File.whole_empty.2
  refine ⟨?_, d.logs, n, .empty, hlogs, hsync, fun e he => ?_⟩
  · rw [liveEntries_concat hlogs, hempty, ite_self, append_nil]
    exact ht.sorted
  · rw [hempty] at he
    cases he

/-- **An append** to the last log, of a number above all before it. -/
theorem Tail.appendLog (ht : d.Tail F) (hasc : (Keyed.keys d.logs).Pairwise (· < ·))
    (hget : Keyed.get? d.logs n = some f) (hlast : ∀ k ∈ Keyed.keys d.logs, k ≤ n) (hf : f.Whole)
    {e : Entry} (he : e.Fits) (hF : F ≤ e.seq) (hlt : ∀ x ∈ d.liveEntries, x.seq < e.seq) :
    (d.apply (.appendLog n (encodeRecord (encodePayload e) f.bytes.length))).Tail F := by
  obtain ⟨older, m, g, hl, hsynced, hfrom⟩ := ht.last
  have hmn : m = n := by
    refine le_antisymm (hlast m (by simp [hl, Keyed.keys])) ?_
    have hn : n ∈ Keyed.keys d.logs := Keyed.mem_keys.mpr ⟨f, Keyed.mem_of_get? hget⟩
    rw [hl, Keyed.keys_append] at hn hasc
    rcases mem_append.mp hn with hn | hn
    · exact le_of_lt ((pairwise_append.mp hasc).2.2 n hn m (mem_singleton_self _))
    · exact le_of_eq (mem_singleton.mp hn)
  subst hmn
  have hfresh : m ∉ Keyed.keys older := by
    rw [hl, Keyed.keys_append] at hasc
    exact fun hmem => lt_irrefl _ ((pairwise_append.mp hasc).2.2 m hmem m (mem_singleton_self _))
  obtain rfl : g = f := by
    rw [hl, Keyed.get?_concat hfresh] at hget
    exact Option.some.inj hget
  set g' := g.append (encodeRecord (encodePayload e) g.bytes.length) with hg'
  have hentries : g'.entries = g.entries ++ [e] := (hf.append he).2
  have hlogs : (d.apply (.appendLog m (encodeRecord (encodePayload e) g.bytes.length))).logs =
      older ++ [(m, g')] := by
    rw [logs_appendLog, hl, Keyed.modify_concat hfresh]
  refine ⟨?_, older, m, g', hlogs, hsynced, fun x hx => ?_⟩
  · have hsorted := ht.sorted
    rw [liveEntries_concat hl] at hsorted hlt
    rw [liveEntries_concat hlogs]
    change (_ ++ if d.floor ≤ m then g'.entries else []).Pairwise _
    split
    · next hle =>
      rw [if_pos hle] at hsorted hlt
      rw [hentries, ← append_assoc]
      refine pairwise_append.mpr ⟨hsorted, pairwise_singleton _ _, fun x hx y hy => ?_⟩
      rw [mem_singleton.mp hy]
      exact hlt x hx
    · next hle => rwa [if_neg hle] at hsorted
  · rw [hentries] at hx
    rcases mem_append.mp hx with hx | hx
    · exact hfrom x hx
    · rw [mem_singleton.mp hx]
      exact hF

end Disk

/-! ## What recovery makes of it -/

theorem exists_take {h : List Entry} (hsorted : h.Pairwise fun a b => a.seq < b.seq) (S : Nat) :
    ∃ n, ∀ e, e ∈ h.take n ↔ e ∈ h ∧ e.seq ≤ S := by
  induction h with
  | nil => exact ⟨0, by simp⟩
  | cons x h ih =>
    obtain ⟨hx, hsorted⟩ := pairwise_cons.mp hsorted
    obtain ⟨n, hn⟩ := ih hsorted
    by_cases hle : x.seq ≤ S
    · refine ⟨n + 1, fun e => ?_⟩
      rw [take_succ_cons, mem_cons, hn e, mem_cons]
      constructor
      · rintro (rfl | ⟨he, hS⟩)
        · exact ⟨.inl rfl, hle⟩
        · exact ⟨.inr he, hS⟩
      · rintro ⟨rfl | he, hS⟩
        · exact .inl rfl
        · exact .inr ⟨he, hS⟩
    · refine ⟨0, fun e => ?_⟩
      rw [take_zero]
      refine iff_of_false not_mem_nil ?_
      rintro ⟨he, hS⟩
      rcases mem_cons.mp he with rfl | he
      · exact hle hS
      · exact hle (le_of_lt (lt_of_lt_of_le (hx e he) hS))

namespace DB

section Cut

variable {pl : Platform} {d : Disk} {c : Lsm} {h : List Entry} {F : Nat}

/-- **A cut of the tail** leaves the first writes of the history. -/
theorem cut_prefix (hd : d.Holds c) (ht : d.Tail F) (hi : c.Inv h) (hm : c.MetaInv)
    (hsorted : h.Pairwise fun a b => a.seq < b.seq) (hr : c.ReadsFrom h F)
    (hoff : c.opt.enableValueSeparation = false) (hf : c.Fits pl) (loss : Loss) :
    ∃ r n, openDb c.opt (d.crash loss) = .ok r ∧ r.Recovered pl (h.take n) := by
  obtain ⟨lost, hsplit, hfrom⟩ := ht.crash loss
  obtain ⟨r, hopen, hr', hcur, hinv, hmem, hfits⟩ := hd.open_crash hi hm loss
  have hpend : r.core.pending = [] := Lsm.pending_of_none (by rw [hr']; rfl)
  have hstored : ∀ e, e ∈ r.core.stored ↔ e ∈ (d.crash loss).liveEntries ++ c.current.entries := by
    intro e
    rw [Lsm.stored, hpend, hcur, nil_append, mem_append, mem_append, hmem]
  have hinv' := hinv.of_mem_iff fun e => (hstored e).symm
  have hres : r.resolve = .ok := by
    rw [hr']
    exact resolve_off hoff
  -- it is enough that the stored versions answer like the first writes
  have hfinish : ∀ n, (∀ k v, entryView.Reads r.core.stored k kMaxSeq v →
      entryView.Reads (h.take n) k kMaxSeq v) →
      ∃ r n, openDb c.opt (d.crash loss) = .ok r ∧ r.Recovered pl (h.take n) := by
    intro n hreads
    have hsub : ∀ x ∈ h.take n, x ∈ h := fun x hx => mem_of_mem_take hx
    refine ⟨r, n, hopen, recovered_of_lookup hinv' (hfits pl hf) hres fun key => ?_⟩
    refine View.Reads.unique (hi.contents.distinct.mono hsub)
      (hreads key _ (Lsm.lookup_answers hinv' key kMaxSeq).reads) (View.reads_getLast ?_)
    exact hsorted.sublist (take_sublist _ _)
  have hlive : ∀ e, e ∈ c.stored ↔ e ∈ d.liveEntries ++ c.current.entries := by
    intro e
    rw [Lsm.stored, ← append_assoc, mem_append, ← hd.live e, mem_append]
  cases lost with
  | nil =>
    refine hfinish h.length fun k v hv => ?_
    rw [take_length, ← hi.contents.reads kMaxSeq (.inl rfl)]
    refine (View.reads_congr fun e => ?_).mp hv
    rw [hstored, hlive, hsplit, append_nil]
  | cons e₀ lost =>
    -- what is lost is what has the number of the first lost entry, or a larger one
    have hF : F ≤ e₀.seq := hfrom e₀ mem_cons_self
    have hpos := hr.pos
    have hasc := ht.sorted
    rw [hsplit] at hasc
    obtain ⟨-, hlost, hcross⟩ := pairwise_append.mp hasc
    obtain ⟨n, hn⟩ := exists_take hsorted (e₀.seq - 1)
    have hkept : ∀ e, e ∈ r.core.stored ↔ e ∈ c.stored ∧ e.seq ≤ e₀.seq - 1 := by
      intro e
      rw [hstored, hlive, hsplit]
      constructor
      · intro he
        rcases mem_append.mp he with he | he
        · have := hcross e he e₀ mem_cons_self
          exact ⟨mem_append_left _ (mem_append_left _ he), by omega⟩
        · have := hr.lt e he
          exact ⟨mem_append_right _ he, by omega⟩
      · rintro ⟨he, hle⟩
        rcases mem_append.mp he with he | he
        · rcases mem_append.mp he with he | he
          · exact mem_append_left _ he
          · rcases mem_cons.mp he with rfl | he
            · omega
            · have := (pairwise_cons.mp hlost).1 e he
              omega
        · exact mem_append_right _ he
    refine hfinish n fun k v hv => ?_
    have hbelow : ∀ {l l' : List Entry}, (∀ e, e ∈ l' ↔ e ∈ l ∧ e.seq ≤ e₀.seq - 1) →
        (entryView.Reads l' k kMaxSeq v ↔
          entryView.Reads l k (WithTop.some (e₀.seq - 1)) v) := fun hl =>
      View.reads_below fun x => (hl x).trans (and_congr_right fun _ => WithTop.coe_le_coe.symm)
    rw [hbelow hn, ← hr.reads (e₀.seq - 1) (by omega), ← hbelow hkept]
    exact hv

end Cut

/-! ## The steps -/

variable {pl : Platform} {s s' : DB} {h : List Entry} {F : Nat}

/-- The step calls `RotateForFlush`. -/
def Rotates (s : DB) : Op → Prop
  | .put _ _ => s.core.full = true
  | .delete _ => s.core.full = true
  | .rotate => True
  | _ => False

/-- An orderly step that rotates only when the log is synced to its end. -/
structure RotatesSynced (s : DB) (op : Op) : Prop extends Orderly s op where
  synced : s.Rotates op → s.logFile.bytes.length ≤ s.logFile.synced

theorem exists_above (l : List Entry) (F : Nat) :
    ∃ F', F ≤ F' ∧ (∀ e ∈ l, e.seq < F') ∧ ∀ B, F ≤ B → (∀ e ∈ l, e.seq < B) → F' ≤ B := by
  induction l with
  | nil => exact ⟨F, le_rfl, by simp, fun B hB _ => hB⟩
  | cons x l ih =>
    obtain ⟨F', hF, hl, hleast⟩ := ih
    refine ⟨max F' (x.seq + 1), hF.trans (le_max_left _ _), ?_, fun B hB hall => ?_⟩
    · refine forall_mem_cons.mpr ⟨lt_of_lt_of_le (Nat.lt_succ_self _) (le_max_right _ _), ?_⟩
      exact fun e he => lt_of_lt_of_le (hl e he) (le_max_left _ _)
    · obtain ⟨hx, hall⟩ := forall_mem_cons.mp hall
      exact max_le (hleast B hB hall) hx

theorem quiet_path {fx : List Effect}
    (hq : ∀ x ∈ fx, ∀ d : Disk, (d.apply x).logs = d.logs ∧ (d.apply x).manifest = d.manifest) :
    ∀ {d : Disk}, d.Tail F → Disk.Path (fun d => d.Tail F) d fx := by
  induction fx with
  | nil => exact fun ht => ht
  | cons x fx ih =>
    intro d ht
    obtain ⟨hx, hfx⟩ := forall_mem_cons.mp hq
    exact ⟨ht, ih hfx (ht.frame (hx d).1 (Disk.floor_congr (hx d).2))⟩

theorem table_quiet (n : Nat) (t : Table) : ∀ x ∈ tableEffects n t, ∀ d : Disk,
    (d.apply x).logs = d.logs ∧ (d.apply x).manifest = d.manifest := by
  intro x hx d
  simp only [tableEffects, mem_cons, not_mem_nil, or_false] at hx
  rcases hx with rfl | rfl <;> exact ⟨rfl, rfl⟩

theorem rotate_path (hd : s.DiskOk) (ht : s.disk.Tail F)
    (hsync : s.logFile.bytes.length ≤ s.logFile.synced) :
    Disk.Path (fun d => d.Tail F) s.disk s.rotateEffects ∧ s.rotateForFlush.disk.Tail F := by
  have hnot : s.core.nextFileNumber ∉ Keyed.keys s.disk.logs := fun hmem =>
    absurd (hd.logs.last _ hmem) (not_le.mpr hd.logs.log_lt)
  have hall : ∀ p ∈ s.disk.logs, s.disk.floor ≤ p.1 → p.2.bytes.length ≤ p.2.synced := by
    obtain ⟨older, n, f, hl, hsynced, -⟩ := ht.last
    intro p hp hle
    rw [hl] at hp
    rcases mem_append.mp hp with hp | hp
    · exact hsynced p hp hle
    · -- the last log is the current one
      obtain rfl := mem_singleton.mp hp
      have hn : n = s.logNumber := by
        have hlast := hd.logs.last n (by simp [hl, Keyed.keys])
        have hlog := hd.logs.log
        have hasc := hd.keeps.ascending
        rw [hl, Keyed.keys_append] at hlog hasc
        refine le_antisymm hlast ?_
        rcases mem_append.mp hlog with hlog | hlog
        · exact le_of_lt ((pairwise_append.mp hasc).2.2 _ hlog n (mem_singleton_self _))
        · exact le_of_eq (mem_singleton.mp hlog)
      have hmem : (n, f) ∈ s.disk.logs := by
        rw [hl]
        exact mem_append_right _ (mem_singleton_self _)
      rw [hd.keeps.file_unique (logFile_get? hd.logs) hmem hn]
      exact hsync
  have hcreate := ht.createLog hnot hall
  exact ⟨⟨ht, hcreate, hcreate.syncLog _⟩, hcreate.syncLog _⟩

theorem write_tail {type : ValueType} {key value : Bytes} (hd : s.DiskOk)
    (hoff : s.opt.enableValueSeparation = false) (ht : s.disk.Tail F) (hF : F ≤ s.core.nextSeq)
    (hfit : (s.record type key value).Fits) :
    Disk.Path (fun d => d.Tail F) s.disk (s.writeEffects type key value) := by
  have happend : (s.disk.apply (.appendLog s.logNumber (s.walBytes type key value))).Tail F := by
    refine ht.appendLog hd.keeps.ascending (logFile_get? hd.logs) hd.logs.last
      (hd.keeps.whole _ (mem_logFile hd.logs)) hfit hF fun x hx => ?_
    obtain ⟨p, hp, -, hx⟩ := Disk.mem_liveEntries.mp hx
    exact hd.logs.seq_lt p hp x hx
  have hsep : s.separates type value = false := by simp [separates, hoff]
  unfold writeEffects appendEffects syncEffects
  rw [hsep, hoff]
  simp only [Bool.false_eq_true, if_false, nil_append]
  split
  · exact ⟨ht, happend, happend.syncLog _⟩
  · exact ⟨ht, happend⟩

section

variable (hi : s.core.Inv h)
include hi

theorem put_tail {type : ValueType} {key value : Bytes} (hd : s.DiskOk)
    (him : s.core.imm = none) (hoff : s.opt.enableValueSeparation = false) (ht : s.disk.Tail F)
    (hF : F ≤ s.core.nextSeq) (hfit : (s.record type key value).Fits)
    (hsync : s.core.full = true → s.logFile.bytes.length ≤ s.logFile.synced) :
    Disk.Path (fun d => d.Tail F) s.disk
      (s.makeRoomEffects ++ s.makeRoom.writeEffects type key value) := by
  rw [← makeRoom_record] at hfit
  have hdisk := makeRoom_disk s
  revert hfit hdisk
  unfold makeRoom makeRoomEffects
  split
  · next hfull =>
    intro hfit hdisk
    obtain ⟨hpath, htail⟩ := rotate_path hd ht (hsync hfull)
    refine hpath.append ?_
    rw [← hdisk]
    exact write_tail (rotate_moves hi hd him).2 hoff htail hF hfit
  · intro hfit _
    exact write_tail hd hoff ht hF hfit

/-- **At every crash point the logs are a tail**, and after the step as well;
an install of a flush apart, which raises `F`. -/
theorem step_tail (hd : s.DiskOk) (hoff : s.opt.enableValueSeparation = false) (ht : s.disk.Tail F)
    (hF : F ≤ s.core.nextSeq) {op : Op} (ho : s.RotatesSynced op) (hs : s.step op = some s')
    (hop : op ≠ .flushInstall) : Disk.Path (fun d => d.Tail F) s.disk (s.effects op) := by
  have hidle : s.gc = .idle := (hd.vlogs.off hoff).2
  have hbusy : ∀ {g : GcStage}, s.gc = g → g ≠ .idle → False := fun hg hne => hne (hg ▸ hidle)
  have hfits := ho.loggable.fits
  have hn := step_next hs
  generalize hfx : s.effects op = fx at hn
  cases hn with
  | put him | delete him =>
    exact put_tail hi hd him hoff ht hF (hfits _ (mem_singleton_self _)) ho.synced
  | rotate => exact (rotate_path hd ht (ho.synced trivial)).1
  | flushBuilt | sealOutput => exact quiet_path (table_quiet _ _) ht
  | flushFailed | pick | captureFloor | getSnapshot | releaseSnapshot => exact ht
  | flushInstall => exact absurd rfl hop
  | flushDone hins =>
    have himm := hi.imm_ne_none (by simp [hins])
    exact ⟨ht, ht.unlinkLog ⟨_, hd.logs.log, hd.logs.retired himm⟩ hd.keeps.ascending⟩
  | installCompaction =>
    refine ⟨ht, quiet_path (fun x hx d => ?_) (ht.raise rfl hd.logs.floor_le)⟩
    obtain ⟨r, -, rfl⟩ := mem_map.mp hx
    exact ⟨rfl, rfl⟩
  | gcCheck _ _ _ _ hneed => simp [vlogGcNeeded, hoff] at hneed
  | gcStart hg | gcDefer hg | gcRewrite hg | gcDead hg | gcDrain hg | gcRetire hg | gcAbort hg
  | gcUnlink hg => exact (hbusy hg (by simp)).elim

theorem put_readsFrom (him : s.core.imm = none) (hr : s.core.ReadsFrom h F)
    (type : ValueType) (key value : Bytes) :
    (s.makeRoom.writeEntry type key value).core.ReadsFrom (h ++ [s.record type key value]) F := by
  rw [← makeRoom_record]
  refine Lsm.ReadsFrom.writeEntry (makeRoom_inv hi him) ?_ type key _
  rw [makeRoom_core]
  split
  · exact hr.rotateForFlush hi him
  · exact hr

theorem step_readsFrom (hr : s.core.ReadsFrom h F) (hgc : s.gc = .idle) {op : Op}
    (hs : s.step op = some s') (hop : op ≠ .flushInstall) :
    s'.core.ReadsFrom (h ++ s.written op) F := by
  have hbusy : ∀ {g : GcStage}, s.gc = g → g ≠ .idle → False := fun hg hne => hne (hg ▸ hgc)
  obtain ⟨_, hn⟩ := step_cases hs
  cases hn with
  | put him | delete him => exact put_readsFrom hi him hr _ _ _
  | rotate him => exact (append_nil h).symm ▸ hr.rotateForFlush hi him
  | flushBuilt _ hsome hidle =>
    refine (append_nil h).symm ▸ hr.congr rfl rfl ?_ rfl
    simp [Lsm.pending, hsome, hidle]
  | flushInstall => exact absurd rfl hop
  | flushDone hins =>
    refine (append_nil h).symm ▸ hr.congr rfl rfl ?_ rfl
    simp [Lsm.pending, hins]
  | pick _ hc =>
    obtain ⟨x, -, -, -, -, rfl⟩ := Lsm.pick_cases hc
    exact (append_nil h).symm ▸ hr.congr rfl rfl rfl rfl
  | captureFloor hc =>
    obtain ⟨x, ts, -, -, rfl⟩ := Lsm.captureFloor_cases hi hc
    exact (append_nil h).symm ▸ hr.congr rfl rfl rfl rfl
  | sealOutput _ hc =>
    obtain ⟨x, floor, t, todo, outputs, -, rfl⟩ := Lsm.sealOutput_cases hc
    exact (append_nil h).symm ▸ hr.congr rfl rfl rfl rfl
  | installCompaction _ hc => exact (append_nil h).symm ▸ hr.installCompaction hi hc
  | flushFailed | gcCheck => exact (append_nil h).symm ▸ hr
  | getSnapshot | releaseSnapshot => exact (append_nil h).symm ▸ hr.congr rfl rfl rfl rfl
  | gcStart hg | gcDefer hg | gcRewrite hg | gcDead hg | gcDrain hg | gcRetire hg | gcAbort hg
  | gcUnlink hg => exact (hbusy hg (by simp)).elim

/-- An install of a flush raises the floor to the current log, and `F` above
the versions that are in a table now; they are older than that log. -/
theorem flushInstall_tail (hq : s.SeqsOk) (ht : s.disk.Tail F) (hr : s.core.ReadsFrom h F)
    (hs : s.step .flushInstall = some s') : ∃ F', s'.disk.Tail F' ∧ s'.core.ReadsFrom h F' := by
  have hn := step_next hs
  generalize hfx : s.effects .flushInstall = fx at hn
  cases hn with
  | flushInstall hc =>
    obtain ⟨F', hF, hpend, hleast⟩ := exists_above s.core.pending F
    have hle : F' ≤ s.core.nextSeq := hleast _ hr.le fun e he =>
      hi.contents.seq_lt e (hi.contents.sub e (mem_append_right _ (mem_append_left _ he)))
    obtain ⟨older, hl, hfresh⟩ := hq.logs_concat
    have htail : (s.disk.apply (.publish (s.installed _).manifest)).Tail F :=
      ht.raise rfl hq.floor_le
    refine ⟨F', ⟨htail.sorted, older, s.logNumber, s.logFile, hl, fun p hp hfl => ?_,
      fun e he => ?_⟩,
      hr.flushInstall hi hc hF hle hpend⟩
    · have hmem := Keyed.mem_keys.mpr ⟨p.2, hp⟩
      have hlast := hq.last p.1 (by rw [hl, Keyed.keys_append]; exact mem_append_left _ hmem)
      exact absurd (le_antisymm hlast hfl ▸ hmem) hfresh
    · obtain ⟨older', n, f, hl', -, hfrom⟩ := ht.last
      obtain ⟨-, heq⟩ := append_inj' (hl'.symm.trans hl) rfl
      obtain ⟨rfl, rfl⟩ := Prod.mk.inj (singleton_inj.mp heq)
      refine hleast _ (hfrom e he) fun x hx => ?_
      exact hq.rotated x hx _ ((File.entries_seqs_within _).subset (mem_map_of_mem he))

end

/-! ## The run -/

/-- What holds along a run whose rotations find their log synced. -/
structure PrefixOk (opt : Options) (h : List Entry) (s : DB) : Prop extends RunOk opt h s where
  seqs : s.SeqsOk
  tail : ∃ F, s.disk.Tail F ∧ s.core.ReadsFrom h F

theorem fresh_prefixOk (opt : Options) : PrefixOk opt [] (fresh opt) where
  toRunOk := fresh_runOk opt
  seqs := fresh_seqsOk opt
  tail := by
    have hempty : File.empty.entries = [] := File.whole_empty.2
    refine ⟨1, ⟨(fresh_seqsOk opt).live_sorted, [], 1, .empty, rfl,
      nofun, fun e he => ?_⟩, Lsm.fresh_readsFrom opt⟩
    rw [hempty] at he
    cases he

theorem PrefixOk.step {opt : Options} (hoff : opt.enableValueSeparation = false)
    (hp : PrefixOk opt h s) {op : Op} (ho : s.RotatesSynced op) (hs : s.step op = some s') :
    PrefixOk opt (h ++ s.written op) s' := by
  have hoff' : s.opt.enableValueSeparation = false := hp.opt.symm ▸ hoff
  have hsafe := ho.safe hp.disk hp.sole hoff' hs
  refine ⟨hp.toRunOk.step hsafe hs, hp.seqs.step hp.inv
    (fun e he => (ho.loggable.fits e he).seq) hs, ?_⟩
  obtain ⟨F, ht, hr⟩ := hp.tail
  by_cases hop : op = .flushInstall
  · subst hop
    change ∃ F, s'.disk.Tail F ∧ s'.core.ReadsFrom (h ++ []) F
    rw [append_nil]
    exact flushInstall_tail hp.inv hp.seqs ht hr hs
  · refine ⟨F, ?_, step_readsFrom hp.inv hr (hp.disk.vlogs.off hoff').2 hs hop⟩
    rw [step_disk hs]
    exact (step_tail hp.inv hp.disk hoff' ht hr.le ho hs hop).at_point (prefix_refl _)

theorem run_prefixOk {opt : Options} (hoff : opt.enableValueSeparation = false) {tr : List Op}
    (hmeets : Machine.Meets step RotatesSynced (fresh opt) tr)
    (hrun : Machine.run step (fresh opt) tr = some s) : PrefixOk opt (history opt tr) s := by
  refine Machine.meets_emitted (fun _ h s => PrefixOk opt h s) (fresh_prefixOk opt) ?_ hmeets hrun
  intro _ h s op s' hok ho hs
  exact hok.step hoff ho hs

/-- A cut of a directory that has what the store has, and a tail of logs. -/
theorem RunOk.cut {opt : Options} (hok : RunOk opt h s) (hoff : opt.enableValueSeparation = false)
    {d : Disk} (hd : d.Holds s.core) (ht : d.Tail F) (hr : s.core.ReadsFrom h F)
    (hf : s.Fits pl) (loss : Loss) :
    ∃ r n, openDb opt (d.crash loss) = .ok r ∧ r.Recovered pl (h.take n) := by
  obtain rfl : s.core.opt = opt := hok.opt
  exact cut_prefix hd ht hok.inv hok.disk.metaInv hok.sorted hr hoff hf loss

theorem Recovered.take_append {r : DB} {n : Nat} (hrec : r.Recovered pl (h.take n))
    (es : List Entry) : ∃ n, r.Recovered pl ((h ++ es).take n) := by
  refine ⟨min n h.length, ?_⟩
  rwa [take_append_of_le_length (min_le_right _ _), ← take_eq_take_min]

/-- **A power cut at any point** of a run whose rotations find their log
synced: `Open` succeeds, and shows the first `n` writes for some `n`.  The
write of the step that was being made counts as the last. -/
theorem run_prefix {opt : Options} (hoff : opt.enableValueSeparation = false) {tr : List Op}
    {op : Op} (hmeets : Machine.Meets step RotatesSynced (fresh opt) (tr ++ [op]))
    (hsize : Machine.Always step (Fits pl) (fresh opt) (tr ++ [op]))
    (hrun : Machine.run step (fresh opt) tr = some s) (hs : s.step op = some s')
    {done : List Effect} (hdone : done <+: s.effects op) (loss : Loss) :
    ∃ r n, openDb opt ((s.disk.applyAll done).crash loss) = .ok r ∧
      r.Recovered pl ((history opt (tr ++ [op])).take n) := by
  obtain ⟨hf, hf'⟩ := hsize.concat hrun hs
  obtain ⟨hmeets, hlast⟩ := Machine.meets_append hmeets
  have hp := run_prefixOk hoff hmeets hrun
  have ho := (hlast s hrun).1
  have hp' := hp.step hoff ho hs
  have hhist : history opt (tr ++ [op]) = history opt tr ++ s.written op :=
    Machine.emitted_concat hrun
  rw [hhist]
  have hoff' : s.opt.enableValueSeparation = false := hp.opt.symm ▸ hoff
  obtain ⟨F, ht, hr⟩ := hp.tail
  -- the directory, if it has what the store before the step has
  have hbefore : (s.disk.applyAll done).Holds s.core → (s.disk.applyAll done).Tail F →
      ∃ r n, openDb opt ((s.disk.applyAll done).crash loss) = .ok r ∧
        r.Recovered pl ((history opt tr ++ s.written op).take n) := by
    intro hd htail
    obtain ⟨r, n, hopen, hrec⟩ := hp.toRunOk.cut hoff hd htail hr hf loss
    obtain ⟨n, hrec⟩ := hrec.take_append (s.written op)
    exact ⟨r, n, hopen, hrec⟩
  by_cases hop : op = .flushInstall
  · -- one effect: the cut is before it or after it
    subst hop
    have hone : (s.effects .flushInstall).length ≤ 1 := by
      have hn := step_next hs
      generalize s.effects .flushInstall = fx at hn
      cases hn
      exact Nat.le_refl _
    rcases Nat.eq_zero_or_pos done.length with hnil | hpos
    · obtain rfl := List.eq_nil_of_length_eq_zero hnil
      exact hbefore hp.disk.keeps.toHolds ht
    · obtain rfl := hdone.eq_of_length_le (hone.trans hpos)
      obtain ⟨F', ht', hr'⟩ := hp'.tail
      rw [← step_disk hs]
      exact hp'.toRunOk.cut hoff hp'.disk.keeps.toHolds ht' hr' hf' loss
  · have htail := (step_tail hp.inv hp.disk hoff' ht hr.le ho hs hop).at_point hdone
    have hr' := step_readsFrom hp.inv hr (hp.disk.vlogs.off hoff').2 hs hop
    have hsafe := ho.safe hp.disk hp.sole hoff' hs
    rcases (step_moves hp.inv hp.disk hsafe hs).path.at_point hdone with hk | ⟨n, hf⟩ | hk
    · exact hbefore hk.toHolds htail
    · obtain ⟨-, -, -, -, -, -, hholds, -⟩ := hf
      exact hp'.toRunOk.cut hoff hholds htail hr' hf' loss
    · exact hp'.toRunOk.cut hoff hk.toHolds htail hr' hf' loss

/-- Periodic syncs, and a memtable of a given size. -/
def periodicOptions (size : Nat) : Options :=
  { Lsm.smallOptions with writeBufferSize := size, syncMode := .kSyncPeriodic }

/-- A power cut after two writes to one log, of which none was synced; the
first one is left. -/
theorem run_prefix_periodic :
    ∃ s s', Machine.run step (fresh (periodicOptions 1000)) [.put [1] [10]] = some s ∧
      s.step (.put [2] [20]) = some s' ∧
      ∃ r n, openDb (periodicOptions 1000)
          ((s.disk.applyAll (s.effects (.put [2] [20]))).crash ⟨fun _ => 30, fun _ => 0,
            fun _ => true⟩) = .ok r ∧
        r.Recovered Lsm.flat
          ((history (periodicOptions 1000) ([.put [1] [10]] ++ [.put [2] [20]])).take n) := by
  refine ⟨_, _, rfl, rfl, run_prefix rfl ?_ (by decide +kernel) rfl rfl (List.prefix_refl _) _⟩
  have hfull : (fresh (periodicOptions 1000)).core.full = false := by decide +kernel
  have hfull' : ((fresh (periodicOptions 1000)).makeRoom.writeEntry .value [1] [10]).core.full =
      false := by
    decide +kernel
  refine ⟨⟨⟨⟨by decide, by decide, by decide⟩, fun heq => by cases heq⟩, fun hrot => ?_⟩,
    fun s' hs' => ?_⟩
  · exact absurd (hfull.symm.trans hrot) (by decide)
  · obtain rfl := Option.some.inj hs'
    refine ⟨⟨⟨⟨by decide, by decide, by decide⟩, fun heq => by cases heq⟩, fun hrot => ?_⟩,
      fun _ _ => trivial⟩
    exact absurd (hfull'.symm.trans hrot) (by decide)

/-- **A later write survives an earlier one.**  The second write finds the
memtable full and begins the next log; the first log is not synced, and a power
cut leaves nothing of it and all of the second. -/
theorem run_prefix_rotation :
    ∃ s r, Machine.run step (fresh (periodicOptions 30)) [.put [1] [10], .put [2] [20]] = some s ∧
      openDb (periodicOptions 30) (s.disk.crash ⟨fun n => if n = 1 then 0 else 100, fun _ => 0,
        fun _ => true⟩) = .ok r ∧
      r.getBytes Lsm.flat [1] kMaxSeq = .error (Lsm.notFoundMissing [1]) ∧
      r.getBytes Lsm.flat [2] kMaxSeq = .ok [20] ∧
      ∀ n, ¬ r.Recovered Lsm.flat
        ((history (periodicOptions 30) [.put [1] [10], .put [2] [20]]).take n) := by
  have hobs : (Machine.run step (fresh (periodicOptions 30)) [.put [1] [10], .put [2] [20]]).bind
      (fun s => (openDb (periodicOptions 30) (s.disk.crash ⟨fun n => if n = 1 then 0 else 100,
        fun _ => 0, fun _ => true⟩)).toOption.map fun r => (r.opt.enableValueSeparation,
          (r.core.lookupBytes Lsm.flat [1] kMaxSeq).toOption,
          (r.core.lookupBytes Lsm.flat [2] kMaxSeq).toOption)) =
      some (false, some .missing, some (.found [20])) := by
    decide +kernel
  have hhist : history (periodicOptions 30) [.put [1] [10], .put [2] [20]] =
      [⟨[1], 1, .value, [10]⟩, ⟨[2], 2, .value, [20]⟩] := by
    decide +kernel
  obtain ⟨s, hs, hopen⟩ := Option.bind_eq_some_iff.mp hobs
  obtain ⟨r, hr, hlook⟩ := Option.map_eq_some_iff.mp hopen
  obtain ⟨hoff, hlook⟩ := Prod.mk.inj hlook
  obtain ⟨hmissing, hfound⟩ := Prod.mk.inj hlook
  have hget₁ : r.getBytes Lsm.flat [1] kMaxSeq = .error (Lsm.notFoundMissing [1]) := by
    rw [getBytes, Lsm.getWithBytes, eq_ok_of_toOption hmissing]
  have hget₂ : r.getBytes Lsm.flat [2] kMaxSeq = .ok [20] := by
    rw [getBytes, Lsm.getWithBytes, eq_ok_of_toOption hfound, resolve_off hoff]
  refine ⟨s, r, hs, eq_ok_of_toOption hr, hget₁, hget₂, fun n hrec => ?_⟩
  rw [hhist] at hrec
  -- with fewer than two writes the second key is absent, with both the first is there
  have h₁ := hrec.get [1]
  have h₂ := hrec.get [2]
  rw [hget₁] at h₁
  rw [hget₂] at h₂
  rcases n with - | - | n
  · exact h₂.elim (fun h => by cases h) fun h => by cases h
  · exact h₂.elim (fun h => by cases h) fun h => by cases h
  · have hdet : Lsm.determined [⟨[1], 1, .value, [10]⟩, ⟨[2], 2, .value, [20]⟩] [1] kMaxSeq =
        some [10] := by
      decide
    rw [List.take_of_length_le (Nat.le_add_left 2 n), hdet] at h₁
    cases h₁

end DB

end BedrockKV
