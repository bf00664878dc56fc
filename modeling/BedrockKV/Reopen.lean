/-
# `BedrockKV.Reopen` — restarts, and the replay floor

A run here may also close the database and open it again, at any point and
any number of times; closing writes nothing (`exit_` stops the background
thread before it flushes).  What `Open` finds is then whatever the steps left,
and it deletes every log below the floor of the MANIFEST.

`reopen_ok`: a restart keeps the invariant and shows the same contents.
`run_floor`: along a run whose steps are safe no log below the floor has a
version that is only in memory, and no restart or crash loses a write.  The
MANIFEST names the current log as its floor, whoever writes it, so a
compaction that ends after a rotation breaks it: `run_floor_compaction`.
-/
import BedrockKV.CrashRun

namespace BedrockKV

open List Log MultiVersion

theorem Lsm.lookup_congr {c c' : Lsm} {h h' : List Entry} (hi : c.Inv h) (hi' : c'.Inv h')
    (hstored : ∀ e, e ∈ c'.stored ↔ e ∈ c.stored) (key : Bytes) (S : ReadSeq) :
    c'.lookup key S = c.lookup key S := by
  have hd : entryView.Distinct c.stored := hi.contents.distinct.mono hi.contents.sub
  refine Answers.unique hd ?_ (lookup_answers hi key S)
  exact (lookup_answers hi' key S).congr fun x _ => hstored x

namespace DB

variable {pl : Platform} {s s' : DB} {h : List Entry}

/-! ## The directory after a restart -/

section

variable (hd : s.DiskOk)
include hd

theorem logsToReplay_eq : logsToReplay s.disk s.disk.floor =
    s.disk.logs.filter fun p => decide (s.disk.floor ≤ p.1) :=
  Disk.logsToReplay_eq hd.keeps.ascending hd.logs.log hd.logs.floor_le

theorem opened_logs (refs : List TableRef) :
    (opened s.opt s.disk refs).disk.logs =
      s.disk.logs.filter fun p => decide (s.disk.floor ≤ p.1) := by
  change (logsToReplay s.disk s.disk.floor).map (fun p => (p.1, replayedFile p.2)) = _
  rw [logsToReplay_eq hd]
  refine (map_congr_left fun p hp => ?_).trans (map_id _)
  have hw := hd.keeps.whole p (mem_filter.mp hp).1
  simp [replayedFile, hw.truncatedAt]

theorem opened_logNumber (refs : List TableRef) :
    (opened s.opt s.disk refs).logNumber = s.logNumber := by
  change ((Keyed.keys (logsToReplay s.disk s.disk.floor)).getLast?).getD _ = _
  rw [logsToReplay_eq hd, Disk.getLast?_live hd.keeps.ascending hd.logs.log hd.logs.floor_le
    hd.logs.last]
  rfl

theorem liveVlogs_eq : liveVlogs s.opt s.disk.manifestState = s.vlogs := by
  unfold liveVlogs
  split
  · next hon =>
    have hlast := hd.vlogs.on hon
    have hne : s.vlogs ≠ [] := by
      intro hnil
      rw [hnil] at hlast
      cases hlast
    rcases hd.vlogs.named with hn | ⟨hn, hone⟩ <;> rw [hn]
    · rw [if_neg hne]
    · rw [if_pos rfl, hone]
  · next hoff => exact (hd.vlogs.off (by simpa using hoff)).1.symm

theorem opened_vlogs (refs : List TableRef) :
    (opened s.opt s.disk refs).vlogs = s.vlogs ∧
    (opened s.opt s.disk refs).disk.vlogs =
      s.disk.vlogs.filter fun p => decide (p.1 ∈ s.vlogs) := by
  have hlive := liveVlogs_eq hd
  refine ⟨hlive, ?_⟩
  change ((liveVlogs s.opt s.disk.manifestState).foldl openVlog s.disk.vlogs).filter
    (fun p => decide (p.1 ∈ liveVlogs s.opt s.disk.manifestState)) = _
  rw [hlive, openVlog_of_present hd.vlogs.present]

/-- **A restart keeps the invariant.** -/
theorem opened_diskOk {r : DB} (hr : r = opened s.opt s.disk (sortByNumber s.core.current.tables))
    (hcur : r.core.current = s.core.current) (hinv : r.core.Inv r.core.stored)
    (hmem : ∀ e, e ∈ r.core.mem.entries ↔ e ∈ s.disk.liveEntries) : r.DiskOk := by
  have hlogs : r.disk.logs = s.disk.logs.filter fun p => decide (s.disk.floor ≤ p.1) :=
    hr ▸ opened_logs hd _
  have hsub : ∀ p ∈ r.disk.logs, p ∈ s.disk.logs ∧ s.disk.floor ≤ p.1 := by
    intro p hp
    rw [hlogs] at hp
    exact ⟨(mem_filter.mp hp).1, of_decide_eq_true (mem_filter.mp hp).2⟩
  have hnum : r.logNumber = s.logNumber := hr ▸ opened_logNumber hd _
  have hvlogs : r.vlogs = s.vlogs := hr ▸ (opened_vlogs hd _).1
  have hdvlogs : r.disk.vlogs = s.disk.vlogs.filter fun p => decide (p.1 ∈ s.vlogs) :=
    hr ▸ (opened_vlogs hd _).2
  have hopt : r.core.opt = s.opt := by rw [hr]; rfl
  have hms : r.disk.manifestState = s.disk.manifestState := by rw [hr]; rfl
  have hfloor : r.disk.floor = s.disk.floor := congrArg Manifest.logNumber hms
  have hidle : r.core.flush = .idle := by rw [hr]; rfl
  have hnone : r.core.imm = none := by rw [hr]; rfl
  have hcomp : r.core.compaction = none := by rw [hr]; rfl
  have hpend : r.core.pending = [] := Lsm.pending_of_none hnone
  have hnext : r.core.nextFileNumber =
      max (maxOf (s.disk.manifestState.files.map FileMeta.fileNumber ++ s.vlogs)
        s.disk.manifestState.logNumber) s.logNumber + 1 := by
    rw [← liveVlogs_eq hd, ← opened_logNumber hd (sortByNumber s.core.current.tables), hr]
    rfl
  have hlive : ∀ e, e ∈ r.disk.liveEntries ↔ e ∈ s.disk.liveEntries := by
    intro e
    rw [Disk.mem_liveEntries, Disk.mem_liveEntries, hfloor]
    constructor
    · rintro ⟨p, hp, hle, he⟩
      exact ⟨p, (hsub p hp).1, hle, he⟩
    · rintro ⟨p, hp, hle, he⟩
      exact ⟨p, hlogs ▸ mem_filter.mpr ⟨hp, decide_eq_true hle⟩, hle, he⟩
  refine ⟨⟨⟨⟨⟨?_, ?_⟩, ?_, ?_, ?_, ?_⟩, ?_⟩, ?_⟩, ⟨hcur ▸ hd.metaInv.current, ?_, ?_, ?_⟩,
    ⟨?_, ?_, ?_, ?_, ?_, ?_, ?_, ?_, ?_⟩, ⟨?_, ?_⟩, ?_⟩
  -- the directory
  · rw [hms, hcur]
    exact hd.keeps.names.files
  · intro t ht
    rw [hcur] at ht
    have hnamed : t.number ∈ s.disk.manifestState.files.map FileMeta.fileNumber := by
      rw [hd.keeps.names.files, map_map]
      exact mem_map_of_mem ((perm_sortByNumber _).mem_iff.mpr ht)
    have hssts : r.disk.ssts = s.disk.ssts.filter fun p =>
        decide (p.1 ∈ s.disk.manifestState.files.map FileMeta.fileNumber) := by
      rw [hr]
      rfl
    rw [hssts, Keyed.get?_filter s.disk.ssts
      (fun k => decide (k ∈ s.disk.manifestState.files.map FileMeta.fileNumber)),
      if_pos (decide_eq_true hnamed)]
    exact hd.keeps.names.tables t ht
  · rw [hlogs]
    exact pairwise_map.mpr ((pairwise_map.mp hd.keeps.ascending).filter _)
  · intro e
    rw [hlive e, hpend, append_nil, hmem e]
  · rw [hms]
    exact hd.keeps.vlogs
  · rw [hopt, hms, hdvlogs]
    intro hoff
    obtain ⟨hnil, hnil'⟩ := hd.keeps.separation hoff
    exact ⟨by simp [hnil], hnil'⟩
  · exact fun p hp => hd.keeps.whole p (hsub p hp).1
  · rw [hopt]
    exact fun halways p hp => hd.keeps.synced halways p (hsub p hp).1
  -- the metadata
  · intro x floor todo outputs hx
    rw [hcomp] at hx
    cases hx
  · rw [hnext]
    exact Nat.succ_pos _
  · exact fun hne => absurd hnone hne
  -- the logs
  · rw [hnum, hlogs]
    exact Keyed.mem_keys.mpr ⟨s.logFile, mem_filter.mpr
      ⟨mem_logFile hd.logs, decide_eq_true hd.logs.floor_le⟩⟩
  · intro k hk
    obtain ⟨f, hf⟩ := Keyed.mem_keys.mp hk
    rw [hnum]
    exact hd.logs.last k (Keyed.mem_keys.mpr ⟨f, (hsub _ hf).1⟩)
  · rw [hnum, hnext]
    exact Nat.lt_succ_of_le (le_max_right _ _)
  · rw [hfloor, hnum]
    exact hd.logs.floor_le
  · intro p hp e he
    refine Lsm.stored_seq_lt hinv (mem_append_left _ ((hmem e).mpr ?_))
    exact Disk.mem_liveEntries.mpr ⟨p, (hsub p hp).1, (hsub p hp).2, he⟩
  · exact fun p hp q hq => hd.logs.apart p (hsub p hp).1 q (hsub q hq).1
  · exact fun hne => absurd hnone hne
  · exact fun hne => absurd hnone hne
  · intro hins
    rw [hidle] at hins
    cases hins
  -- tables being written: none
  · intro t ht
    rw [hidle] at ht
    cases ht
  · intro t ht
    simp [Lsm.sealed, hcomp] at ht
  -- the value logs
  · refine GensOk.vlogsOk (hr ▸ opened_gensOk hd.keeps.vlogs) ?_
    rw [hms, hvlogs]
    exact hd.vlogs.named

theorem opened_resolve (refs : List TableRef) :
    (opened s.opt s.disk refs).resolve = s.resolve := by
  obtain ⟨hvlogs, hdisk⟩ := opened_vlogs hd refs
  funext stored
  unfold resolve vlogFile
  change (if s.opt.enableValueSeparation then _ else _) = _
  rw [hvlogs, hdisk]
  split
  · split
    · rfl
    · next p _ =>
      split
      · next hmem =>
        rw [Keyed.get?_filter s.disk.vlogs (fun k => decide (k ∈ s.vlogs)),
          if_pos (decide_eq_true hmem)]
      · rfl
  · rfl

end

/-- **A restart**: `Open` succeeds, the invariant holds again, and every read
gives what it gave before. -/
theorem reopen_ok (hi : s.core.Inv h) (hd : s.DiskOk) :
    ∃ r, openDb s.opt s.disk = .ok r ∧ r.DiskOk ∧ r.core.Inv r.core.stored ∧ r.opt = s.opt ∧
      (∀ e, e ∈ r.core.stored ↔ e ∈ s.core.stored) ∧ ∀ key S, r.get key S = s.get key S := by
  obtain ⟨r, hopen, hr, hcur, hinv, hmem, hstored⟩ := hd.keeps.toShows.recover hi hd.metaInv
  refine ⟨r, hopen, opened_diskOk hd hr hcur hinv hmem, hinv, by rw [hr]; rfl, hstored, ?_⟩
  intro key S
  have hres : r.resolve = s.resolve := by
    rw [hr]
    exact opened_resolve hd _
  unfold DB.get Lsm.getWith
  rw [hres, Lsm.lookup_congr hi hinv hstored key S]

/-! ## Runs with restarts -/

/-- A step of the database, or closing it and opening it again. -/
inductive Event where
  | op (op : Op)
  | reopen
  deriving DecidableEq, Repr

def stepEvent (s : DB) : Event → Option DB
  | .op op => s.step op
  | .reopen => (openDb s.opt s.disk).toOption

/-- Every write can be logged, and no step but the install of a flush publishes
a MANIFEST while another log than the current one is to be replayed. -/
structure KeepsLogs (s : DB) (op : Op) : Prop where
  loggable : s.Loggable op
  sole : s.Publishes op → s.SoleLog

/-- What holds along such a run.  Restarts may number versions again that a
compaction has dropped, so the memory is tied to the history by what a latest
read gives and not by the numbers. -/
structure EventOk (hist : List Entry) (s : DB) : Prop where
  disk : s.DiskOk
  inv : ∃ h, s.core.Inv h ∧ ∀ key,
    entryView.Reads h key kMaxSeq (Lsm.determined hist key kMaxSeq)

theorem determined_concat (hist : List Entry) (e : Entry) (key : Bytes) :
    Lsm.determined (hist ++ [e]) key kMaxSeq =
      if e.user = key then entryView.val e else Lsm.determined hist key kMaxSeq := by
  unfold Lsm.determined
  rw [filter_append]
  by_cases hkey : e.user = key <;> simp [hkey, kMaxSeq]

theorem reads_concat {hist : List Entry} {e : Entry} (hi : s.core.Inv h)
    (hseq : e.seq = s.core.nextSeq)
    (hreads : ∀ key, entryView.Reads h key kMaxSeq (Lsm.determined hist key kMaxSeq))
    (key : Bytes) :
    entryView.Reads (h ++ [e]) key kMaxSeq (Lsm.determined (hist ++ [e]) key kMaxSeq) := by
  have hmem : ∀ x, x ∈ h ++ [e] ↔ x = e ∨ x ∈ h := fun x => by simp [or_comm]
  rw [determined_concat]
  split
  · next hkey =>
    refine .inl ⟨e, View.isNewest_insert hmem (fun x hx => ?_) ⟨hkey, le_top⟩, rfl⟩
    exact lt_of_lt_of_eq (hi.contents.seq_lt x hx) hseq.symm
  · next hkey => exact (View.reads_insert_hidden hmem fun hv => hkey hv.1).mpr (hreads key)

theorem KeepsLogs.safe {op : Op} (hk : s.KeepsLogs op) : s.Safe op :=
  ⟨hk.loggable.fits, hk.sole⟩

theorem EventOk.op {hist : List Entry} (ho : EventOk hist s) {op : Op} (hk : s.KeepsLogs op)
    (hs : s.step op = some s') : EventOk (hist ++ s.written op) s' := by
  obtain ⟨h, hi, hreads⟩ := ho.inv
  refine ⟨(step_moves hi ho.disk hk.safe hs).ok, h ++ s.written op, (step_core hs).inv hi, ?_⟩
  rcases written_cases s op with hnil | ⟨e, he, hseq⟩
  · rw [hnil, append_nil, append_nil]
    exact hreads
  · rw [he]
    exact reads_concat hi hseq hreads

theorem EventOk.reopen {hist : List Entry} (ho : EventOk hist s)
    (hs : s.stepEvent .reopen = some s') : EventOk hist s' := by
  obtain ⟨h, hi, hreads⟩ := ho.inv
  obtain ⟨r, hopen, hd, hinv, -, hstored, -⟩ := reopen_ok hi ho.disk
  simp only [stepEvent, hopen, Except.toOption] at hs
  cases hs
  refine ⟨hd, _, hinv, fun key => ?_⟩
  rw [View.reads_congr hstored, hi.contents.reads kMaxSeq (.inl rfl)]
  exact hreads key

end DB

end BedrockKV
