/-
# `BedrockKV.DbDisk` — the directory keeps up with the memory

`DiskOk s` is the invariant that ties the directory of a database to its
memory.  Its core is `Disk.Keeps`; the rest says which files the next steps
will touch: the log being written is the last one, the pending memtable's log
is an older one, the tables being built are there.

A step is taken apart into its effects, and `Moves` says that before, between
and after them the directory shows the store before the step or after it.
Two things can break it, and `Safe` excludes them: a version that its record
cannot carry, and a publication that raises the replay floor above a log whose
versions are still in memory only.
-/
import BedrockKV.Persist

namespace BedrockKV

open List Keyed Log MultiVersion

namespace DB

/-! ## The invariant -/

structure LogsOk (s : DB) : Prop where
  log : s.logNumber ∈ Keyed.keys s.disk.logs
  last : ∀ k ∈ Keyed.keys s.disk.logs, k ≤ s.logNumber
  log_lt : s.logNumber < s.core.nextFileNumber
  floor_le : s.disk.floor ≤ s.logNumber
  seq_lt : ∀ p ∈ s.disk.logs, ∀ e ∈ p.2.entries, e.seq < s.core.nextSeq
  apart : ∀ p ∈ s.disk.logs, ∀ q ∈ s.disk.logs, p.1 ≠ q.1 → ∀ e ∈ p.2.entries, e ∉ q.2.entries
  rotated : s.core.imm ≠ none → s.core.flush ≠ .installed →
    ∀ e, e ∈ s.logFile.entries ↔ e ∈ s.core.mem.entries
  retired : s.core.imm ≠ none → s.immLogNumber < s.logNumber
  installed : s.core.flush = .installed → s.disk.floor = s.logNumber

/-- Tables that are written but not named yet. -/
structure TablesOk (s : DB) : Prop where
  built : ∀ t, s.core.flush = .built t →
    Keyed.get? s.disk.ssts s.core.immSstNumber = some ⟨some t, true⟩
  sealed : ∀ r ∈ s.core.sealed, Keyed.get? s.disk.ssts r.number = some ⟨some r.table, true⟩

/-- The generations a garbage collection works on. -/
def GcOk (vlogs : List Nat) : GcStage → Prop
  | .scanning fresh retired _ _ _ => vlogs = retired ++ [fresh]
  | .retiring retired => ∀ n ∈ retired, n ∉ vlogs
  | _ => True

structure VlogsOk (s : DB) : Prop where
  off : s.opt.enableValueSeparation = false → s.vlogs = [] ∧ s.gc = .idle
  on : s.opt.enableValueSeparation = true → s.vlogs.getLast? = some s.vlogCurrent
  ascending : (0 :: s.vlogs).Pairwise (· < ·)
  lt : ∀ n ∈ s.vlogs, n < s.core.nextFileNumber
  named : s.disk.manifestState.vlogs = s.vlogs ∨ s.disk.manifestState.vlogs = [] ∧ s.vlogs = [1]
  present : ∀ n ∈ s.vlogs, n ∈ Keyed.keys s.disk.vlogs
  gc : GcOk s.vlogs s.gc

structure DiskOk (s : DB) : Prop where
  keeps : s.disk.Keeps s.core
  metaInv : s.core.MetaInv
  logs : s.LogsOk
  tables : s.TablesOk
  vlogs : s.VlogsOk

/-! ## What a step may do to the replay floor -/

/-- Steps, other than a flush, that write the MANIFEST. -/
def Publishes (s : DB) : Op → Prop
  | .installCompaction => True
  | .gcStart => s.core.snapshots = []
  | .gcRetire => s.core.snapshots = []
  | _ => False

/-- No log but the current one would be replayed. -/
def SoleLog (s : DB) : Prop := ∀ n ∈ Keyed.keys s.disk.logs, s.disk.floor ≤ n → n = s.logNumber

/-- The step's versions can be logged, and it does not drop a log that is needed. -/
structure Safe (s : DB) (op : Op) : Prop where
  fits : ∀ e ∈ s.written op, e.Fits
  sole : s.Publishes op → s.SoleLog

/-! ## Steps -/

/-- Where a directory can be while the store goes from `c` to `c'`. -/
def Between (c c' : Lsm) (d : Disk) : Prop :=
  d.Keeps c ∨ (∃ n, d.InFlight n c c') ∨ d.Keeps c'

/-- What is proved of each step: its effects are all safe points, and the
invariant holds at its end. -/
structure Moves (s s' : DB) (fx : List Effect) : Prop where
  path : Disk.Path (Between s.core s'.core) s.disk fx
  ok : s'.DiskOk

variable {s s' : DB} {h : List Entry}

theorem logFile_get? (hl : s.LogsOk) : Keyed.get? s.disk.logs s.logNumber = some s.logFile := by
  obtain ⟨f, hf⟩ := exists_get? hl.log
  rw [logFile, hf]
  rfl

theorem mem_logFile (hl : s.LogsOk) : (s.logNumber, s.logFile) ∈ s.disk.logs :=
  mem_of_get? (logFile_get? hl)

/-- Steps that leave the logs and the memtables alone; the floor may rise to
the current log. -/
theorem LogsOk.frame (hl : s.LogsOk) (hlogs : s'.disk.logs = s.disk.logs)
    (hfloor : s'.disk.floor = s.disk.floor ∨ s'.disk.floor = s.logNumber)
    (hnum : s'.logNumber = s.logNumber) (himmnum : s'.immLogNumber = s.immLogNumber)
    (hmem : s'.core.mem = s.core.mem) (himm : s'.core.imm = s.core.imm)
    (hseq : s'.core.nextSeq = s.core.nextSeq)
    (hnext : s.core.nextFileNumber ≤ s'.core.nextFileNumber)
    (hflush : s'.core.flush = .installed ↔ s.core.flush = .installed) : s'.LogsOk := by
  have hfile : s'.logFile = s.logFile := by
    unfold logFile
    rw [hlogs, hnum]
  refine ⟨?_, ?_, ?_, ?_, ?_, ?_, ?_, ?_, ?_⟩
  · exact hlogs ▸ hnum ▸ hl.log
  · exact hlogs ▸ hnum ▸ hl.last
  · exact hnum ▸ lt_of_lt_of_le hl.log_lt hnext
  · rw [hnum]
    rcases hfloor with hf | hf <;> rw [hf]
    exact hl.floor_le
  · rw [hlogs, hseq]
    exact hl.seq_lt
  · rw [hlogs]
    exact hl.apart
  · rw [himm, hmem, hfile]
    exact fun hne hni => hl.rotated hne fun hins => hni (hflush.mpr hins)
  · rw [himm, himmnum, hnum]
    exact hl.retired
  · intro hins
    rw [hnum]
    rcases hfloor with hf | hf
    · exact hf.trans (hl.installed (hflush.mp hins))
    · exact hf

/-- What a step shows of itself: its effects are all safe points, and at its end the
directory and the logs are right.  The rest of `DiskOk` no step can break. -/
structure Lands (s s' : DB) (fx : List Effect) : Prop where
  path : Disk.Path (Between s.core s'.core) s.disk fx
  keeps : s'.disk.Keeps s'.core
  logs : s'.LogsOk

theorem quiet_lands (hd : s.DiskOk) {c : Lsm} {g : GcStage} (hopt : c.opt = s.core.opt)
    (hmem : c.mem = s.core.mem) (himm : c.imm = s.core.imm) (hflush : c.flush = s.core.flush)
    (hcur : c.current = s.core.current) (hseq : c.nextSeq = s.core.nextSeq)
    (hnum : c.nextFileNumber = s.core.nextFileNumber) :
    Lands s { s with core := c, gc := g } [] := by
  have hpend : c.pending = s.core.pending := by
    unfold Lsm.pending
    rw [hflush, himm]
  refine ⟨.inl hd.keeps, hd.keeps.congr hcur hopt fun e => ?_, ?_⟩
  · rw [hmem, hpend]
  · exact hd.logs.frame rfl (.inl rfl) rfl rfl hmem himm hseq (le_of_eq hnum.symm)
      (by rw [show _ = s.core.flush from hflush])

/-! ## Rotation -/

theorem mem_pending_rotate (hi : s.core.Inv h) (him : s.core.imm = none) (e : Entry) :
    e ∈ s.core.rotateForFlush.mem.entries ++ s.core.rotateForFlush.pending ↔
      e ∈ s.core.mem.entries ++ s.core.pending := by
  rw [Lsm.pending_rotateForFlush hi him, Lsm.pending_of_none him, append_nil]
  rfl

theorem rotate_logs (hn : s.core.nextFileNumber ∉ Keyed.keys s.disk.logs) :
    s.rotateForFlush.disk.logs = s.disk.logs ++ [(s.core.nextFileNumber, .empty)] ∧
      s.rotateForFlush.logFile = .empty := by
  have hlogs : s.rotateForFlush.disk.logs = s.disk.logs ++ [(s.core.nextFileNumber, .empty)] := by
    change Keyed.modify (Keyed.set s.disk.logs _ .empty) _ File.sync = _
    rw [Keyed.set_of_notMem hn, Keyed.modify_concat hn]
    rfl
  refine ⟨hlogs, ?_⟩
  change (Keyed.get? s.rotateForFlush.disk.logs s.core.nextFileNumber).getD .empty = _
  rw [hlogs, Keyed.get?_concat hn]
  rfl

/-- **A rotation** adds an empty log, and the memtable it froze is still in the
logs it was in. -/
theorem rotate_lands (hi : s.core.Inv h) (hk : s.disk.Keeps s.core) (hl : s.LogsOk)
    (him : s.core.imm = none) : Disk.Path (fun d => d.Keeps s.core) s.disk s.rotateEffects ∧
      s.rotateForFlush.disk.Keeps s.rotateForFlush.core ∧ s.rotateForFlush.LogsOk := by
  set n := s.core.nextFileNumber with hn
  have hlt : ∀ k ∈ Keyed.keys s.disk.logs, k < n := fun k hk =>
    lt_of_le_of_lt (hl.last k hk) hl.log_lt
  have hcreate : (s.disk.apply (.createLog n)).Keeps s.core :=
    hk.apply (fun _ _ heq => by cases heq) rfl (hk.toHolds.createLog hlt)
  have hsync : ((s.disk.apply (.createLog n)).apply (.syncLog n)).Keeps s.core :=
    hcreate.apply (fun _ _ heq => by cases heq) rfl (hcreate.toHolds.syncLog n)
  obtain ⟨hlogs, hfile⟩ := rotate_logs fun hmem => lt_irrefl _ (hlt n hmem)
  have hempty : File.empty.entries = [] := File.whole_empty.2
  refine ⟨⟨hk, hcreate, hsync⟩, hsync.congr rfl rfl (mem_pending_rotate hi him), ?_⟩
  refine ⟨?_, ?_, Nat.lt_add_of_pos_right (by decide),
    le_of_lt (lt_of_le_of_lt hl.floor_le hl.log_lt), ?_, ?_, ?_, fun _ => hl.log_lt, ?_⟩
  · rw [hlogs, Keyed.keys_append]
    exact mem_append_right _ (mem_singleton_self _)
  · intro k hk
    rw [hlogs, Keyed.keys_append] at hk
    rcases mem_append.mp hk with hk | hk
    · exact le_of_lt (hlt k hk)
    · exact le_of_eq (mem_singleton.mp hk)
  · intro p hp e he
    rw [hlogs] at hp
    rcases mem_append.mp hp with hp | hp
    · exact hl.seq_lt p hp e he
    · rw [mem_singleton.mp hp, hempty] at he
      cases he
  · intro p hp q hq hne e hep heq
    rw [hlogs] at hp hq
    rcases mem_append.mp hp with hp | hp
    · rcases mem_append.mp hq with hq | hq
      · exact hl.apart p hp q hq hne e hep heq
      · rw [mem_singleton.mp hq, hempty] at heq
        cases heq
    · rw [mem_singleton.mp hp, hempty] at hep
      cases hep
  · intro _ _ e
    rw [hfile, hempty]
    rfl
  · intro hins
    rw [show s.rotateForFlush.core.flush = .idle from hi.sequential.flushing him] at hins
    cases hins

/-! ## Writes -/

section Write

variable {type : ValueType} {key value : Bytes}

/-- What a write leaves of the directory: one more record, synced or not. -/
theorem disk_write (s : DB) (type : ValueType) (key value : Bytes) :
    ∃ vlogs, Keyed.keys vlogs = Keyed.keys s.disk.vlogs ∧
      (s.writeEntry type key value).disk =
        { s.disk with
          logs := if s.syncNeeded type key value then
              Keyed.modify (Keyed.modify s.disk.logs s.logNumber
                fun f => f.append (s.walBytes type key value)) s.logNumber File.sync
            else Keyed.modify s.disk.logs s.logNumber
              fun f => f.append (s.walBytes type key value)
          vlogs := vlogs } := by
  change ∃ vlogs, _ ∧ s.disk.applyAll (s.writeEffects type key value) = _
  unfold writeEffects appendEffects syncEffects
  cases s.separates type value <;> cases s.syncNeeded type key value <;>
    cases s.opt.enableValueSeparation <;> refine ⟨_, ?_, rfl⟩ <;> simp [Disk.apply]

theorem mem_logs_write (hk : s.disk.Keeps s.core) (hl : s.LogsOk)
    (hfit : (s.record type key value).Fits) {p : Nat × File}
    (hp : p ∈ (s.writeEntry type key value).disk.logs) :
    ∃ f, (p.1, f) ∈ s.disk.logs ∧ p.2.entries =
      if p.1 = s.logNumber then f.entries ++ [s.record type key value] else f.entries := by
  have happ : ∀ q ∈ Keyed.modify s.disk.logs s.logNumber
      (fun f => f.append (s.walBytes type key value)), ∃ f, (q.1, f) ∈ s.disk.logs ∧ q.2.entries =
        if q.1 = s.logNumber then f.entries ++ [s.record type key value] else f.entries := by
    intro q hq
    obtain ⟨f, hf, hqf⟩ := mem_modify.mp hq
    refine ⟨f, hf, ?_⟩
    rw [hqf]
    split
    · next hn =>
      obtain rfl := hk.file_unique (logFile_get? hl) hf hn
      exact ((hk.whole _ hf).append hfit).2
    · rfl
  obtain ⟨vlogs, -, hdisk⟩ := disk_write s type key value
  rw [hdisk] at hp
  dsimp only at hp
  split at hp
  · obtain ⟨g, hg, hpg⟩ := mem_modify.mp hp
    obtain ⟨f, hf, hgf⟩ := happ _ hg
    refine ⟨f, hf, ?_⟩
    rw [hpg, ← hgf]
    split <;> rfl
  · exact happ p hp

theorem keys_logs_write : Keyed.keys (s.writeEntry type key value).disk.logs =
    Keyed.keys s.disk.logs := by
  obtain ⟨vlogs, -, hdisk⟩ := disk_write s type key value
  rw [hdisk]
  dsimp only
  split <;> simp only [keys_modify]

theorem floor_write : (s.writeEntry type key value).disk.floor = s.disk.floor := by
  obtain ⟨vlogs, -, hdisk⟩ := disk_write s type key value
  rw [hdisk]
  rfl

theorem mem_write (hi : s.core.Inv h) (e : Entry) :
    e ∈ (s.writeEntry type key value).core.mem.entries ↔
      e = s.record type key value ∨ e ∈ s.core.mem.entries := Lsm.mem_writeEntry hi e

theorem mem_pending_write (hi : s.core.Inv h) (e : Entry) :
    e ∈ (s.writeEntry type key value).core.mem.entries ++
        (s.writeEntry type key value).core.pending ↔
      e = s.record type key value ∨ e ∈ s.core.mem.entries ++ s.core.pending := by
  rw [mem_append, mem_write hi, mem_append, or_assoc]
  rfl

/-- The appends: the version is in flight after them. -/
theorem append_path (hi : s.core.Inv h) (hk : s.disk.Keeps s.core) (hl : s.LogsOk)
    (hfit : (s.record type key value).Fits) {c' : Lsm}
    (hc' : c' = (s.writeEntry type key value).core) :
    Disk.Path (Between s.core c') s.disk (s.appendEffects type key value) ∧
    (s.disk.applyAll (s.appendEffects type key value)).InFlight s.logNumber s.core c' := by
  have hflight : ∀ {d : Disk}, d.Keeps s.core → d.logs = s.disk.logs → d.floor = s.disk.floor →
      (d.apply (.appendLog s.logNumber (s.walBytes type key value))).InFlight s.logNumber
        s.core c' := by
    intro d hkeeps hlogs hfloor
    have hget : Keyed.get? d.logs s.logNumber = some s.logFile := hlogs ▸ logFile_get? hl
    refine ⟨d, s.logFile, s.record type key value, hkeeps, hget, hfit, ?_, rfl⟩
    refine hkeeps.toHolds.appendLog hget (hfloor ▸ hl.floor_le) hfit ?_ ?_ ?_
    · rw [hc']; rfl
    · rw [hc']; rfl
    · rw [hc']; exact mem_pending_write hi
  unfold appendEffects
  split
  · have hvlog : (s.disk.apply (.appendVlog s.vlogCurrent (s.vlogBytes type key value))).Keeps
        s.core :=
      hk.apply (fun _ _ heq => by cases heq) rfl (hk.toHolds.appendVlog _ _)
    have hf := hflight hvlog rfl rfl
    exact ⟨⟨.inl hk, .inl hvlog, .inr (.inl ⟨_, hf⟩)⟩, hf⟩
  · have hf := hflight hk rfl rfl
    exact ⟨⟨.inl hk, .inr (.inl ⟨_, hf⟩)⟩, hf⟩

theorem sync_path {c c' : Lsm} {d : Disk} (hf : d.InFlight s.logNumber c c')
    (hopt : c'.opt = c.opt) :
    Disk.Path (Between c c') d s.syncEffects ∧ (d.applyAll s.syncEffects).Keeps c' := by
  unfold syncEffects
  split
  · have hf' := hf.syncVlog s.vlogCurrent
    have hkeeps := hf'.syncLog hopt
    exact ⟨⟨.inr (.inl ⟨_, hf⟩), .inr (.inl ⟨_, hf'⟩), .inr (.inr hkeeps)⟩, hkeeps⟩
  · have hkeeps := hf.syncLog hopt
    exact ⟨⟨.inr (.inl ⟨_, hf⟩), .inr (.inr hkeeps)⟩, hkeeps⟩

theorem write_path (hi : s.core.Inv h) (hk : s.disk.Keeps s.core) (hl : s.LogsOk)
    (hfit : (s.record type key value).Fits) :
    Disk.Path (Between s.core (s.writeEntry type key value).core) s.disk
      (s.writeEffects type key value) ∧
    (s.writeEntry type key value).disk.Keeps (s.writeEntry type key value).core := by
  obtain ⟨hpath, hflight⟩ := append_path hi hk hl hfit rfl
  have hdisk : (s.writeEntry type key value).disk =
      s.disk.applyAll (s.writeEffects type key value) := rfl
  rw [hdisk]
  unfold writeEffects
  rw [Disk.applyAll_append]
  split
  · obtain ⟨hsync, hkeeps⟩ := sync_path hflight rfl
    exact ⟨hpath.append hsync, hkeeps⟩
  · next hno =>
    obtain ⟨-, -, -, -, -, -, hholds, -⟩ := id hflight
    refine ⟨hpath.append (.inr (.inl ⟨_, hflight⟩)), hholds, fun halways => ?_⟩
    have hmode : s.opt.syncMode = .kSyncAlways := halways
    exact absurd (by simp [syncNeeded, hmode]) hno

theorem write_logsOk (hi : s.core.Inv h) (hk : s.disk.Keeps s.core) (hl : s.LogsOk)
    (hfit : (s.record type key value).Fits) :
    (s.writeEntry type key value).LogsOk := by
  have hfresh : ∀ p ∈ s.disk.logs, s.record type key value ∉ p.2.entries := fun p hp hmem =>
    lt_irrefl _ (hl.seq_lt p hp _ hmem)
  refine ⟨?_, ?_, hl.log_lt, ?_, ?_, ?_, ?_, hl.retired, ?_⟩
  · exact keys_logs_write.symm ▸ hl.log
  · rw [keys_logs_write]
    exact hl.last
  · exact floor_write.symm ▸ hl.floor_le
  · intro p hp e he
    obtain ⟨f, hf, hpf⟩ := mem_logs_write hk hl hfit hp
    rw [hpf] at he
    have hold : ∀ x ∈ f.entries, x.seq < s.core.nextSeq + 1 := fun x hx =>
      Nat.lt_succ_of_lt (hl.seq_lt _ hf x hx)
    split at he
    · rcases mem_append.mp he with he | he
      · exact hold e he
      · rw [mem_singleton.mp he]
        exact Nat.lt_succ_self _
    · exact hold e he
  · intro p hp q hq hne e hep heq
    obtain ⟨f, hf, hpf⟩ := mem_logs_write hk hl hfit hp
    obtain ⟨g, hg, hqg⟩ := mem_logs_write hk hl hfit hq
    rw [hpf] at hep
    rw [hqg] at heq
    -- the new version is in one log only, and older ones have not moved
    have hcase : ∀ {n : Nat} {f : File}, e ∈ (if n = s.logNumber then
        f.entries ++ [s.record type key value] else f.entries) →
        e ∈ f.entries ∨ (n = s.logNumber ∧ e = s.record type key value) := by
      intro n f hmem
      split at hmem
      · next hn => exact (mem_append.mp hmem).imp_right fun hx => ⟨hn, mem_singleton.mp hx⟩
      · exact .inl hmem
    rcases hcase hep with hef | ⟨hpn, rfl⟩
    · rcases hcase heq with heg | ⟨-, rfl⟩
      · exact hl.apart _ hf _ hg hne e hef heg
      · exact hfresh _ hf hef
    · rcases hcase heq with heg | ⟨hqn, -⟩
      · exact hfresh _ hg heg
      · exact hne (hpn.trans hqn.symm)
  · intro himm hni e
    have hlog : Keyed.get? (s.writeEntry type key value).disk.logs s.logNumber =
        some (s.writeEntry type key value).logFile := by
      obtain ⟨f, hf⟩ := exists_get? (keys_logs_write.symm ▸ hl.log)
      unfold logFile
      rw [show (s.writeEntry type key value).logNumber = s.logNumber from rfl, hf]
      rfl
    obtain ⟨f, hf, hpf⟩ := mem_logs_write hk hl hfit (mem_of_get? hlog)
    rw [if_pos rfl] at hpf
    obtain rfl : f = s.logFile := hk.file_unique (logFile_get? hl) hf rfl
    rw [mem_write hi, ← hl.rotated himm hni e, hpf, mem_append, mem_singleton, or_comm]
  · exact fun hins => floor_write.trans (hl.installed hins)

/-- **A write**: the version reaches the log before memory has it. -/
theorem write_lands (hi : s.core.Inv h) (hk : s.disk.Keeps s.core) (hl : s.LogsOk)
    (hfit : (s.record type key value).Fits) :
    Lands s (s.writeEntry type key value) (s.writeEffects type key value) :=
  have hpath := write_path hi hk hl hfit
  ⟨hpath.1, hpath.2, write_logsOk hi hk hl hfit⟩

theorem makeRoom_record (s : DB) : s.makeRoom.record type key value = s.record type key value := by
  unfold makeRoom
  split <;> rfl

/-- **`Put` and `Delete`**, with the rotation they may start with. -/
theorem put_lands (hi : s.core.Inv h) (hd : s.DiskOk) (him : s.core.imm = none)
    (hfit : (s.record type key value).Fits) :
    Lands s (s.makeRoom.writeEntry type key value)
      (s.makeRoomEffects ++ s.makeRoom.writeEffects type key value) := by
  rw [← makeRoom_record] at hfit
  have hdisk := makeRoom_disk s
  revert hfit hdisk
  unfold makeRoom makeRoomEffects
  split
  · intro hfit hdisk
    obtain ⟨hpath, hk, hl⟩ := rotate_lands hi hd.keeps hd.logs him
    obtain ⟨hwrite, hkeeps, hlogs⟩ := write_lands (Lsm.rotateForFlush_inv hi him) hk hl hfit
    refine ⟨(hpath.mono fun d hk => .inl hk).append ?_, hkeeps, hlogs⟩
    rw [← hdisk]
    -- the frozen memtable counts as the memtable it was
    have hback : ∀ {d : Disk}, d.Keeps s.core.rotateForFlush → d.Keeps s.core := fun hk =>
      hk.congr rfl rfl fun e => (mem_pending_rotate hi him e).symm
    refine hwrite.mono fun d hb => ?_
    rcases hb with hk | ⟨n, d₀, f, e, hk, hrest⟩ | hk
    · exact .inl (hback hk)
    · exact .inr (.inl ⟨n, d₀, f, e, hback hk, hrest⟩)
    · exact .inr (.inr hk)
  · intro hfit _
    exact write_lands hi hd.keeps hd.logs hfit

end Write

end DB

end BedrockKV
