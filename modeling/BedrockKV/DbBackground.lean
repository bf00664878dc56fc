/-
# `BedrockKV.DbBackground` — flush, compaction and garbage collection on disk

The steps of the background thread, each with its effects.  All of them leave
what is stored as it is; what they change is where it is stored, and the
point of each proof is the order: a table is there before the MANIFEST that
names it, and the old files go after it.

`step_moves` puts them together with the writes: along every run whose steps
are safe, at every crash point, the directory shows the store.
-/
import BedrockKV.DbVlogs

namespace BedrockKV

open List Keyed Log MultiVersion

namespace DB

variable {s s' : DB} {h : List Entry}

/-! ## Flush -/

theorem table_path {d : Disk} {c : Lsm} {n : Nat} (hk : d.Keeps c) (hn : n ∉ c.current.numbers)
    (t : Table) :
    Disk.Path (fun d => d.Keeps c) d (tableEffects n t) ∧
      (d.applyAll (tableEffects n t)).Keeps c := by
  have hwrite : (d.apply (.writeSst n t)).Keeps c :=
    hk.apply (fun _ _ heq => by cases heq) rfl (hk.toHolds.writeSst hn t)
  have hsync : ((d.apply (.writeSst n t)).apply (.syncSst n)).Keeps c :=
    hwrite.apply (fun _ _ heq => by cases heq) rfl (hwrite.toHolds.syncSst n)
  exact ⟨⟨hk, hwrite, hsync⟩, hsync⟩

theorem flushBuild_lands (hi : s.core.Inv h) (hd : s.DiskOk) {m : MemTable} {t : Table}
    (him : s.core.imm = some m) (hidle : s.core.flush = .idle) :
    Lands s { s.perform (tableEffects s.core.immSstNumber t) with
        core := { s.core with flush := .built t } } (tableEffects s.core.immSstNumber t) := by
  have hnot := immSst_notMem hi (by simp [him]) (by simp [hidle])
  obtain ⟨hpath, hkeeps⟩ := table_path hd.keeps hnot t
  refine ⟨hpath.mono fun d hk => .inl hk, hkeeps.congr rfl rfl fun e => ?_,
    hd.logs.frame rfl (.inl rfl) rfl rfl rfl rfl rfl le_rfl (by simp [hidle])⟩
  have hpend : Lsm.pending { s.core with flush := .built t } = s.core.pending := by
    simp [Lsm.pending, hidle, him]
  change e ∈ s.core.mem.entries ++ Lsm.pending { s.core with flush := .built t } ↔ _
  rw [hpend]

theorem publish_keeps (hl : s.LogsOk) {d : Disk} (hk : d.Keeps s.core)
    (hlogs : d.logs = s.disk.logs) (c' : Lsm) (vlogs : List Nat) (hopt : c'.opt = s.core.opt)
    (htables : ∀ r ∈ c'.current.tables, Keyed.get? d.ssts r.number = some ⟨some r.table, true⟩)
    (hlive : ∀ e, e ∈ s.logFile.entries ↔ e ∈ c'.mem.entries ++ c'.pending)
    (hvlogs : (0 :: vlogs).Pairwise (· < ·))
    (hoff : s.opt.enableValueSeparation = false → vlogs = []) :
    (d.apply (.publish ⟨(sortByNumber c'.current.tables).map TableRef.fileMeta, vlogs,
      s.logNumber⟩)).Keeps c' := by
  refine hk.apply (fun _ _ heq => by cases heq) hopt
    (hk.toHolds.publish hopt rfl htables (fun e => ?_) hvlogs hoff)
  rw [← hlive e, hlogs]
  constructor
  · rintro ⟨p, hp, hle, he⟩
    have hlast := hl.last p.1 (mem_keys.mpr ⟨p.2, hp⟩)
    have hget : Keyed.get? d.logs s.logNumber = some s.logFile := hlogs ▸ logFile_get? hl
    rwa [hk.file_unique hget (hlogs ▸ hp) (le_antisymm hlast hle)] at he
  · exact fun he => ⟨_, mem_logFile hl, le_rfl, he⟩

/-- **The install of a flush** raises the floor to the log that was started
when the memtable was frozen. -/
theorem flushInstall_lands (hi : s.core.Inv h) (hd : s.DiskOk) {c : Lsm}
    (hc : s.core.flushInstall = some c) :
    Lands s { s.perform [.publish (s.installed c).manifest] with core := c }
      [.publish (s.installed c).manifest] := by
  obtain ⟨t, hbuilt, rfl⟩ := Lsm.flushInstall_cases hc
  have himm : s.core.imm ≠ none := hi.imm_ne_none (by simp [hbuilt])
  have hni : s.core.flush ≠ .installed := by simp [hbuilt]
  have hkeeps := publish_keeps hd.logs hd.keeps rfl { s.core with
      current := { s.core.current with
        l0 := ⟨t, t.fileMeta s.core.opt.size s.core.immSstNumber 0⟩ :: s.core.current.l0 }
      flush := .installed } s.vlogs rfl
    (forall_mem_cons.mpr ⟨hd.tables.built t hbuilt, hd.keeps.names.tables⟩)
    (fun e => by
      change e ∈ s.logFile.entries ↔ e ∈ s.core.mem.entries ++ []
      rw [append_nil]
      exact hd.logs.rotated himm hni e)
    hd.vlogs.ascending fun hoff => (hd.vlogs.off hoff).1
  have hl := hd.logs
  exact ⟨⟨.inl hd.keeps, .inr (.inr hkeeps)⟩, hkeeps, hl.log, hl.last, hl.log_lt, le_rfl, hl.seq_lt,
    hl.apart, fun _ hins => absurd rfl hins, hl.retired, fun _ => rfl⟩

/-- **The end of a flush** unlinks a log below the floor. -/
theorem flushDone_lands (hi : s.core.Inv h) (hd : s.DiskOk) (hins : s.core.flush = .installed) :
    Lands s { s.perform [.unlinkLog s.immLogNumber] with
        core := { s.core with imm := none, flush := .idle }
        gc := GcStage.drained s.gc } [.unlinkLog s.immLogNumber] := by
  have hl := hd.logs
  have hlt := hl.retired (hi.imm_ne_none (by simp [hins]))
  have hkeeps : (s.disk.apply (.unlinkLog s.immLogNumber)).Keeps s.core :=
    hd.keeps.apply (fun _ _ heq => by cases heq) rfl
      (hd.keeps.toHolds.unlinkLog (hl.installed hins ▸ hlt))
  have hsub : ∀ p ∈ Keyed.erase s.disk.logs s.immLogNumber, p ∈ s.disk.logs := fun p hp =>
    (mem_erase.mp hp).1
  refine ⟨⟨.inl hd.keeps, .inl hkeeps⟩, hkeeps.congr rfl rfl fun e => ?_, ?_, ?_, hl.log_lt,
    hl.floor_le, fun p hp => hl.seq_lt p (hsub p hp),
    fun p hp q hq => hl.apart p (hsub p hp) q (hsub q hq), fun hne => absurd rfl hne,
    fun hne => absurd rfl hne, fun hidle => by cases hidle⟩
  · have hpend : s.core.pending = [] := by simp [Lsm.pending, hins]
    rw [hpend]
    rfl
  · exact mem_keys.mpr ⟨s.logFile, mem_erase.mpr ⟨mem_logFile hl, ne_of_gt hlt⟩⟩
  · intro k hk
    obtain ⟨f, hf⟩ := mem_keys.mp hk
    exact hl.last k (mem_keys.mpr ⟨f, hsub _ hf⟩)

/-! ## Compaction -/

theorem sealOutput_lands (hi : s.core.Inv h) (hd : s.DiskOk) {c : Lsm} {t : Table}
    (hc : s.core.sealOutput = some c) :
    Lands s { s.perform (tableEffects s.core.nextFileNumber t) with core := c }
      (tableEffects s.core.nextFileNumber t) := by
  obtain ⟨x, floor, t', todo, outputs, -, rfl⟩ := Lsm.sealOutput_cases hc
  have hnot : s.core.nextFileNumber ∉ s.core.current.numbers := fun hmem =>
    lt_irrefl _ (hi.numbers.lt _ (mem_append_left _ hmem))
  obtain ⟨hpath, hkeeps⟩ := table_path hd.keeps hnot t
  exact ⟨hpath.mono fun d hk => .inl hk, hkeeps.congr rfl rfl fun e => Iff.rfl,
    hd.logs.frame rfl (.inl rfl) rfl rfl rfl rfl rfl (Nat.le_succ _) Iff.rfl⟩

theorem SoleLog.live (hsole : s.SoleLog) (hk : s.disk.Keeps s.core) (hl : s.LogsOk) (e : Entry) :
    e ∈ s.logFile.entries ↔ e ∈ s.core.mem.entries ++ s.core.pending := by
  rw [← hk.live e, Disk.mem_liveEntries]
  constructor
  · exact fun he => ⟨_, mem_logFile hl, hl.floor_le, he⟩
  · rintro ⟨p, hp, hle, he⟩
    have hn := hsole p.1 (mem_keys.mpr ⟨p.2, hp⟩) hle
    rwa [hk.file_unique (logFile_get? hl) hp hn] at he

theorem unlinkSsts_path {c : Lsm} {refs : List TableRef}
    (hrefs : ∀ r ∈ refs, r.number ∉ c.current.numbers) : ∀ {d : Disk}, d.Keeps c →
      Disk.Path (fun d => d.Keeps c) d (refs.map fun r => .unlinkSst r.number) ∧
        (d.applyAll (refs.map fun r => .unlinkSst r.number)).Keeps c := by
  induction refs with
  | nil => exact fun hk => ⟨hk, hk⟩
  | cons r refs ih =>
    intro d hk
    obtain ⟨hr, hrefs⟩ := forall_mem_cons.mp hrefs
    have hstep : (d.apply (.unlinkSst r.number)).Keeps c :=
      hk.apply (fun _ _ heq => by cases heq) rfl (hk.toHolds.unlinkSst hr)
    obtain ⟨hpath, hkeeps⟩ := ih hrefs hstep
    exact ⟨⟨hk, hpath⟩, hkeeps⟩

/-- **The install of a compaction** names the outputs before it unlinks the
inputs.  It also raises the floor, which is why only one log may be live. -/
theorem installCompaction_lands (hi : s.core.Inv h) (hd : s.DiskOk) (hsole : s.SoleLog) {c : Lsm}
    {x : Compaction} {floor : ReadSeq} {outputs : List TableRef}
    (hx : s.core.compaction = some (x, .merging floor [] outputs))
    (hc : s.core.installCompaction = some c) :
    Lands s { s.perform (.publish (s.installed c).manifest ::
        x.inputs.map fun r => .unlinkSst r.number) with core := c }
      (.publish (s.installed c).manifest :: x.inputs.map fun r => .unlinkSst r.number) := by
  obtain rfl := Lsm.installCompaction_eq hx hc
  have hkeeps := publish_keeps hd.logs hd.keeps rfl
    { s.core with current := installVersion s.core.current x outputs, compaction := none }
    s.vlogs rfl (fun r hr => (installed_tables hi hd.onDisk hx hr).1)
    (hsole.live hd.keeps hd.logs) hd.vlogs.ascending fun hoff => (hd.vlogs.off hoff).1
  -- an input's number is neither that of a kept file nor that of an output
  have hgone : ∀ r ∈ x.inputs, r.number ∉ (installVersion s.core.current x outputs).numbers := by
    intro r hr hmem
    obtain ⟨t, ht, htr⟩ := mem_map.mp hmem
    exact (installed_tables hi hd.onDisk hx ht).2 (htr ▸ mem_map_of_mem hr)
  obtain ⟨hpath, hkeeps'⟩ := unlinkSsts_path hgone hkeeps
  obtain ⟨hlogs, -, hm⟩ := unlinkSsts_frame x.inputs
    (s.disk.apply (.publish (s.installed { s.core with
      current := installVersion s.core.current x outputs, compaction := none }).manifest))
  exact ⟨⟨.inl hd.keeps, hpath.mono fun d hk => .inr (.inr hk)⟩, hkeeps',
    hd.logs.frame hlogs (.inr (Disk.floor_congr hm)) rfl rfl rfl rfl rfl le_rfl Iff.rfl⟩

/-! ## Garbage collection -/

theorem gcStart_lands (hd : s.DiskOk) (hsole : s.SoleLog) (hgc : s.gc = .triggered) :
    Lands s (s.gcSwitch.perform [.createVlog s.core.nextFileNumber, .publish s.gcSwitch.manifest])
      [.createVlog s.core.nextFileNumber, .publish s.gcSwitch.manifest] := by
  have hgens := gcStart_gensOk hd.gens hd.metaInv.next hgc
  have hcreate : (s.disk.apply (.createVlog s.core.nextFileNumber)).Keeps s.core :=
    hd.keeps.apply (fun _ _ heq => by cases heq) rfl
      (hd.keeps.toHolds.createVlog (hd.gens.separation_on (by simp [hgc])) _)
  have hkeeps := publish_keeps hd.logs hcreate rfl
    { s.core with nextFileNumber := s.core.nextFileNumber + 1 } (s.vlogs ++ [s.core.nextFileNumber])
    rfl hd.keeps.names.tables (hsole.live hd.keeps hd.logs) hgens.ascending fun hoff =>
      (hgens.off hoff).1
  exact ⟨⟨.inl hd.keeps, .inl hcreate, .inr (.inr hkeeps)⟩, hkeeps,
    hd.logs.frame rfl (.inr rfl) rfl rfl rfl rfl rfl (Nat.le_succ _) Iff.rfl⟩

theorem force_path (hd : s.DiskOk) :
    Disk.Path (fun d => d.Keeps s.core) s.disk s.syncEffects ∧
      (s.disk.applyAll s.syncEffects).Keeps s.core := by
  unfold syncEffects
  split
  · have hvlog : (s.disk.apply (.syncVlog s.vlogCurrent)).Keeps s.core :=
      hd.keeps.apply (fun _ _ heq => by cases heq) rfl (hd.keeps.toHolds.syncVlog _)
    have hlog : ((s.disk.apply (.syncVlog s.vlogCurrent)).apply (.syncLog s.logNumber)).Keeps
        s.core := hvlog.apply (fun _ _ heq => by cases heq) rfl (hvlog.toHolds.syncLog _)
    exact ⟨⟨hd.keeps, hvlog, hlog⟩, hlog⟩
  · have hlog : (s.disk.apply (.syncLog s.logNumber)).Keeps s.core :=
      hd.keeps.apply (fun _ _ heq => by cases heq) rfl (hd.keeps.toHolds.syncLog _)
    exact ⟨⟨hd.keeps, hlog⟩, hlog⟩

theorem force_logsOk (hl : s.LogsOk) :
    ({ s with disk := s.disk.applyAll s.syncEffects } : DB).LogsOk := by
  obtain ⟨vlogs, -, hdisk⟩ := syncEffects_disk s
  rw [hdisk]
  have hentries : ∀ p ∈ Keyed.modify s.disk.logs s.logNumber File.sync,
      ∃ f, (p.1, f) ∈ s.disk.logs ∧ p.2.entries = f.entries := by
    intro p hp
    obtain ⟨f, hf, hpf⟩ := mem_modify.mp hp
    refine ⟨f, hf, ?_⟩
    rw [hpf]
    split <;> rfl
  have hklogs : Keyed.keys (Keyed.modify s.disk.logs s.logNumber File.sync) =
      Keyed.keys s.disk.logs := keys_modify _ _ _
  refine ⟨hklogs.symm ▸ hl.log, fun k hk => hl.last k (hklogs ▸ hk), hl.log_lt, hl.floor_le,
    ?_, ?_, ?_, hl.retired, hl.installed⟩
  · intro p hp e he
    obtain ⟨f, hf, hpf⟩ := hentries p hp
    exact hl.seq_lt _ hf e (hpf ▸ he)
  · intro p hp q hq hne e hep heq
    obtain ⟨f, hf, hpf⟩ := hentries p hp
    obtain ⟨g, hg, hqg⟩ := hentries q hq
    exact hl.apart _ hf _ hg hne e (hpf ▸ hep) (hqg ▸ heq)
  · intro himm hni e
    rw [← hl.rotated himm hni e]
    unfold logFile
    dsimp only
    rw [get?_modify, if_pos rfl, logFile_get? hl]
    exact Iff.rfl

/-- **Retirement**: everything in the current files is synced before the
retired generations lose their names. -/
theorem gcRetire_lands (hd : s.DiskOk) (hsole : s.SoleLog) {fresh rewritten : Nat}
    {retired : List Nat} (hgc : s.gc = .scanning fresh retired [] rewritten false) :
    Lands s ((s.gcDropped retired rewritten).perform
        (s.syncEffects ++ [.publish (s.gcDropped retired rewritten).manifest]))
      (s.syncEffects ++ [.publish (s.gcDropped retired rewritten).manifest]) := by
  have hgens := gcRetire_gensOk hd.gens hgc
  have hl := force_logsOk hd.logs
  have hsole' : ({ s with disk := s.disk.applyAll s.syncEffects } : DB).SoleLog := by
    obtain ⟨vlogs, -, hdisk⟩ := syncEffects_disk s
    rw [hdisk]
    intro n hn
    rw [keys_modify] at hn
    exact hsole n hn
  obtain ⟨hpath, hk⟩ := force_path hd
  have hkeeps := publish_keeps hl hk rfl s.core (s.gcDropped retired rewritten).vlogs rfl
    hk.names.tables (hsole'.live hk hl) hgens.ascending fun hoff => (hgens.off hoff).1
  refine ⟨(hpath.mono fun d hk => .inl hk).append ⟨.inl hk, .inr (.inr hkeeps)⟩, ?_, ?_⟩ <;>
    unfold perform <;> rw [Disk.applyAll_append]
  · exact hkeeps
  · exact hl.frame rfl (.inr rfl) rfl rfl rfl rfl rfl le_rfl Iff.rfl

theorem unlinkVlogs_path {c : Lsm} {ns : List Nat} : ∀ {d : Disk}, d.Keeps c →
    Disk.Path (fun d => d.Keeps c) d (ns.map .unlinkVlog) ∧
      (d.applyAll (ns.map .unlinkVlog)).Keeps c := by
  induction ns with
  | nil => exact fun hk => ⟨hk, hk⟩
  | cons n ns ih =>
    intro d hk
    have hstep : (d.apply (.unlinkVlog n)).Keeps c :=
      hk.apply (fun _ _ heq => by cases heq) rfl (hk.toHolds.unlinkVlog n)
    obtain ⟨hpath, hkeeps⟩ := ih hstep
    exact ⟨⟨hk, hpath⟩, hkeeps⟩

theorem gcUnlink_lands (hd : s.DiskOk) (retired : List Nat) :
    Lands s { s.perform (retired.map .unlinkVlog) with gc := .idle } (retired.map .unlinkVlog) := by
  obtain ⟨hpath, hkeeps⟩ := @unlinkVlogs_path s.core retired s.disk hd.keeps
  obtain ⟨hlogs, -, hm⟩ := unlinkVlogs_frame retired s.disk
  exact ⟨hpath.mono fun d hk => .inl hk, hkeeps,
    hd.logs.frame hlogs (.inl (Disk.floor_congr hm)) rfl rfl rfl rfl rfl le_rfl Iff.rfl⟩

/-! ## Every step -/

theorem fresh_diskOk (opt : Options) : (fresh opt).DiskOk where
  keeps := by
    refine ⟨⟨⟨⟨?_, ?_⟩, pairwise_singleton _ _, ?_, pairwise_singleton _ _, ?_⟩, ?_⟩, ?_⟩
    · simp [fresh, Lsm.fresh, Disk.manifestState, sortByNumber]
    · simp [fresh, Lsm.fresh]
    · intro e
      rw [Disk.mem_liveEntries]
      simp [fresh, Lsm.fresh, MemTable.empty, Lsm.pending, File.whole_empty.2]
    · intro hoff
      have hoff : opt.enableValueSeparation = false := hoff
      simp [fresh, hoff, Disk.manifestState]
    · intro p hp
      obtain rfl := mem_singleton.mp hp
      exact File.whole_empty.1
    · intro _ p hp
      obtain rfl := mem_singleton.mp hp
      exact le_rfl
  metaInv := (fresh_filesOk opt).metaInv
  logs := by
    refine ⟨mem_singleton_self _, ?_, Nat.one_lt_two, le_rfl, ?_, ?_, ?_, ?_, ?_⟩
    · exact fun k hk => le_of_eq (mem_singleton.mp hk)
    · intro p hp
      obtain rfl := mem_singleton.mp hp
      simp [File.whole_empty.2]
    · intro p hp q hq hne
      exact absurd ((congrArg Prod.fst (mem_singleton.mp hp)).trans
        (congrArg Prod.fst (mem_singleton.mp hq)).symm) hne
    · exact fun hne => absurd rfl hne
    · exact fun hne => absurd rfl hne
    · exact fun hins => by cases hins
  tables := (fresh_filesOk opt).tables
  vlogs := by
    refine (fresh_gensOk opt).vlogsOk ?_
    cases hsep : opt.enableValueSeparation <;> simp [fresh, hsep, Disk.manifestState]

theorem rotate_moves (hi : s.core.Inv h) (hd : s.DiskOk) (him : s.core.imm = none) :
    Disk.Path (fun d => d.Keeps s.core) s.disk s.rotateEffects ∧ s.rotateForFlush.DiskOk :=
  have ⟨hpath, hkeeps, hlogs⟩ := rotate_lands hi hd.keeps hd.logs him
  have hf := rotate_onDisk hi hd.onDisk him
  ⟨hpath, hkeeps, hf.metaInv, hlogs, hf.tables, (rotate_gensOk hd.gens).vlogsOk hd.vlogs.named⟩

theorem step_lands (hi : s.core.Inv h) (hd : s.DiskOk) {op : Op} (hsafe : s.Safe op)
    (hs : s.step op = some s') : Lands s s' (s.effects op) := by
  have hn := step_next hs
  generalize s.effects op = fx at hn
  cases hn with
  | put him | delete him => exact put_lands hi hd him (hsafe.fits _ (mem_singleton_self _))
  | rotate him =>
    obtain ⟨hpath, hkeeps, hlogs⟩ := rotate_lands hi hd.keeps hd.logs him
    exact ⟨hpath.mono fun d hk => .inl hk, hkeeps, hlogs⟩
  | flushBuilt _ him hidle => exact flushBuild_lands hi hd him hidle
  | flushFailed | gcDefer | gcAbort | getSnapshot | releaseSnapshot | gcCheck | gcDead | gcDrain =>
    exact quiet_lands hd rfl rfl rfl rfl rfl rfl rfl
  | flushInstall hc => exact flushInstall_lands hi hd hc
  | flushDone hins => exact flushDone_lands hi hd hins
  | pick _ hc =>
    obtain ⟨x, -, -, -, -, rfl⟩ := Lsm.pick_cases hc
    exact quiet_lands hd rfl rfl rfl rfl rfl rfl rfl
  | captureFloor hc =>
    obtain ⟨x, ts, -, -, rfl⟩ := Lsm.captureFloor_cases hi hc
    exact quiet_lands hd rfl rfl rfl rfl rfl rfl rfl
  | sealOutput _ hc => exact sealOutput_lands hi hd hc
  | installCompaction hx hc => exact installCompaction_lands hi hd (hsafe.sole trivial) hx hc
  | gcStart hgc hsn => exact gcStart_lands hd (hsafe.sole hsn) hgc
  | @gcRewrite _ _ _ x _ hgc hlive =>
    have hfit : (s.record .value x.entry.key x.entry.value).Fits :=
      hsafe.fits _ (by simp [written, hgc, hlive])
    have hland := write_lands hi hd.keeps hd.logs hfit
    exact ⟨hland.path, hland.keeps,
      hland.logs.frame rfl (.inl rfl) rfl rfl rfl rfl rfl le_rfl Iff.rfl⟩
  | gcRetire hgc hsn => exact gcRetire_lands hd (hsafe.sole hsn) hgc
  | gcUnlink => exact gcUnlink_lands hd _

/-- **Every safe step** goes through safe points only, and keeps the invariant. -/
theorem step_moves (hi : s.core.Inv h) (hd : s.DiskOk) {op : Op} (hsafe : s.Safe op)
    (hs : s.step op = some s') : Moves s s' (s.effects op) := by
  obtain ⟨hpath, hkeeps, hlogs⟩ := step_lands hi hd hsafe hs
  have hf := hd.onDisk.step hi hs
  refine ⟨hpath, hkeeps, hf.metaInv, hlogs, hf.tables,
    (hd.gens.step hi hd.metaInv.next hs).vlogsOk ?_⟩
  rcases step_publishes hi hs with ⟨hu, -, hvlogs⟩ | hman
  · rw [Disk.manifestState, hu.manifest, hvlogs]
    exact hd.vlogs.named
  · rw [Disk.manifestState, hman]
    exact .inl rfl

end DB

end BedrockKV
