/-
# `BedrockKV.DbFiles` — the MANIFEST names the current version

Whatever becomes of the logs, the MANIFEST on disk names the files of the
version in memory, all of them whole and synced, and the tables that are
written and not named yet are there as well.  `FilesOk.step` is that for every
step, without a condition on the step.  It has two halves:

    OnDisk           the tables of the version, and those being written, are there
    step_publishes   a step writes the MANIFEST of the state it ends in, or
                     leaves the version and every named table alone
-/
import BedrockKV.DbDisk

namespace BedrockKV

open List Keyed MultiVersion

namespace DB

structure FilesOk (s : DB) : Prop where
  names : s.disk.Names s.core.current
  metaInv : s.core.MetaInv
  tables : s.TablesOk

/-- The tables are there, whatever the MANIFEST says. -/
structure OnDisk (s : DB) : Prop where
  current : ∀ r ∈ s.core.current.tables,
    Keyed.get? s.disk.ssts r.number = some ⟨some r.table, true⟩
  metaInv : s.core.MetaInv
  tables : s.TablesOk

variable {s s' : DB} {h : List Entry}

theorem FilesOk.onDisk (hf : s.FilesOk) : s.OnDisk := ⟨hf.names.tables, hf.metaInv, hf.tables⟩

theorem DiskOk.onDisk (hd : s.DiskOk) : s.OnDisk := ⟨hd.keeps.names.tables, hd.metaInv, hd.tables⟩

theorem fresh_filesOk (opt : Options) : (fresh opt).FilesOk where
  names := ⟨by simp [fresh, Lsm.fresh, Disk.manifestState, sortByNumber],
    by simp [fresh, Lsm.fresh]⟩
  metaInv := Lsm.fresh_metaInv opt
  tables := ⟨fun t ht => (by cases ht), fun _ hr => absurd hr not_mem_nil⟩

/-! ## Effects on the tables -/

theorem mem_tableEffects (d : Disk) (n : Nat) (t : Table) :
    Keyed.get? (d.applyAll (tableEffects n t)).ssts n = some ⟨some t, true⟩ := by
  simp [tableEffects, Disk.apply, get?_modify, get?_set]

theorem get?_tableEffects {d : Disk} {n k : Nat} (hk : k ≠ n) (t : Table) :
    Keyed.get? (d.applyAll (tableEffects n t)).ssts k = Keyed.get? d.ssts k := by
  simp [tableEffects, Disk.apply, get?_modify, get?_set, hk]

theorem immSst_notMem (hi : s.core.Inv h) (him : s.core.imm ≠ none)
    (hni : s.core.flush ≠ .installed) : s.core.immSstNumber ∉ s.core.current.numbers := by
  have hnum : s.core.immSstNumber ∈ s.core.pendingNumber := by
    unfold Lsm.pendingNumber
    split
    · next hins => exact absurd hins hni
    · exact mem_singleton_self _
    · next hnone _ => exact absurd hnone him
  intro hmem
  exact (nodup_append.mp hi.numbers.nodup).2.2 _ hmem _ (mem_append_right _ hnum) rfl

theorem unlinkSsts_frame (refs : List TableRef) : ∀ d : Disk,
    (d.applyAll (refs.map fun r => .unlinkSst r.number)).logs = d.logs ∧
    (d.applyAll (refs.map fun r => .unlinkSst r.number)).vlogs = d.vlogs ∧
    (d.applyAll (refs.map fun r => .unlinkSst r.number)).manifest = d.manifest := by
  induction refs with
  | nil => exact fun _ => ⟨rfl, rfl, rfl⟩
  | cons r refs ih => exact fun d => ih (d.apply (.unlinkSst r.number))

theorem syncEffects_disk (s : DB) :
    ∃ vlogs, Keyed.keys vlogs = Keyed.keys s.disk.vlogs ∧ s.disk.applyAll s.syncEffects =
      { s.disk with
        logs := Keyed.modify s.disk.logs s.logNumber File.sync
        vlogs := vlogs } := by
  unfold syncEffects
  split <;> refine ⟨_, ?_, rfl⟩ <;> simp [Disk.apply]

/-! ## Steps that leave the tables alone -/

theorem OnDisk.frame (hf : s.OnDisk) (hm : s'.core.MetaInv)
    (hssts : s'.disk.ssts = s.disk.ssts) (hcur : s'.core.current = s.core.current)
    (hbuilt : ∀ t, s'.core.flush = .built t →
      s.core.flush = .built t ∧ s'.core.immSstNumber = s.core.immSstNumber)
    (hsealed : s'.core.sealed = s.core.sealed) : s'.OnDisk := by
  refine ⟨?_, hm, ⟨fun t ht => ?_, ?_⟩⟩
  · rw [hcur, hssts]
    exact hf.current
  · obtain ⟨ht, hnum⟩ := hbuilt t ht
    rw [hssts, hnum]
    exact hf.tables.built t ht
  · rw [hsealed, hssts]
    exact hf.tables.sealed

theorem rotate_onDisk (hi : s.core.Inv h) (hf : s.OnDisk) (him : s.core.imm = none) :
    s.rotateForFlush.OnDisk := by
  have hidle : s.rotateForFlush.core.flush = .idle := hi.sequential.flushing him
  refine hf.frame hf.metaInv.rotateForFlush rfl rfl (fun t ht => ?_) rfl
  rw [hidle] at ht
  cases ht

theorem writeEntry_onDisk (hf : s.OnDisk) (type : ValueType) (key value : Bytes) :
    (s.writeEntry type key value).OnDisk := by
  obtain ⟨vlogs, -, hdisk⟩ := disk_write s type key value
  refine hf.frame ⟨hf.metaInv.current, hf.metaInv.sealed, hf.metaInv.next, hf.metaInv.imm⟩ ?_ rfl
    (fun t ht => ⟨ht, rfl⟩) rfl
  rw [hdisk]

theorem makeRoom_onDisk (hi : s.core.Inv h) (hf : s.OnDisk) (him : s.core.imm = none) :
    s.makeRoom.OnDisk := by
  unfold makeRoom
  split
  · exact rotate_onDisk hi hf him
  · exact hf

/-! ## Flush and compaction -/

theorem get?_tableEffects_named (hf : s.OnDisk) {n : Nat} (hn : n ∉ s.core.current.numbers)
    (t : Table) {r : TableRef} (hr : r ∈ s.core.current.tables) :
    Keyed.get? (s.disk.applyAll (tableEffects n t)).ssts r.number = some ⟨some r.table, true⟩ := by
  rw [get?_tableEffects (Disk.number_ne hn hr)]
  exact hf.current r hr

theorem flushBuilt_onDisk (hi : s.core.Inv h) (hf : s.OnDisk) {m : MemTable} {t : Table}
    (him : s.core.imm = some m) (hidle : s.core.flush = .idle) (hnone : s.core.compaction = none) :
    ({ s.perform (tableEffects s.core.immSstNumber t) with
        core := { s.core with flush := .built t } } : DB).OnDisk := by
  have hnot := immSst_notMem hi (by simp [him]) (by simp [hidle])
  refine ⟨fun r hr => get?_tableEffects_named hf hnot t hr,
    ⟨hf.metaInv.current, hf.metaInv.sealed, hf.metaInv.next, hf.metaInv.imm⟩, fun t' ht' => ?_, ?_⟩
  · obtain rfl : t = t' := by simpa using ht'
    exact mem_tableEffects _ _ _
  · intro r hr
    simp [Lsm.sealed, hnone] at hr

variable {c : Lsm} {floor : ReadSeq} {outputs : List TableRef} {x : Compaction} {op : Op}

theorem flushInstall_onDisk (hi : s.core.Inv h) (hf : s.OnDisk)
    (hc : s.core.flushInstall = some c) :
    ({ s.perform [.publish (s.installed c).manifest] with core := c } : DB).OnDisk := by
  have hmeta := hf.metaInv.flushInstall hi hc
  obtain ⟨t, hbuilt, rfl⟩ := Lsm.flushInstall_cases hc
  refine ⟨fun r hr => ?_, hmeta, ⟨fun _ ht' => (by cases ht'), hf.tables.sealed⟩⟩
  rcases mem_cons.mp hr with rfl | hr
  · exact hf.tables.built t hbuilt
  · exact hf.current r hr

theorem sealOutput_onDisk (hi : s.core.Inv h) (hf : s.OnDisk) {t : Table} {todo : List Table}
    (hx : s.core.compaction = some (x, .merging floor (t :: todo) outputs))
    (hc : s.core.sealOutput = some c) :
    ({ s.perform (tableEffects s.core.nextFileNumber t) with core := c } : DB).OnDisk := by
  have hmeta := hf.metaInv.sealOutput hc
  obtain ⟨x', floor', t', todo', outputs', hx', rfl⟩ := Lsm.sealOutput_cases hc
  obtain ⟨rfl, rfl, ⟨rfl, rfl⟩, rfl⟩ :
      x = x' ∧ floor = floor' ∧ (t = t' ∧ todo = todo') ∧ outputs = outputs' := by
    simpa using hx.symm.trans hx'
  have hlt := hi.numbers.lt
  have hseal : s.core.sealed = outputs := by simp [Lsm.sealed, hx]
  rw [hseal] at hlt
  have hidle : s.core.flush = .idle := hi.sequential.one (by simp [hx])
  refine ⟨fun r hr => ?_, hmeta, ⟨fun t' ht' => ?_, fun r hr => ?_⟩⟩
  · refine get?_tableEffects_named hf (fun hmem => ?_) t hr
    exact lt_irrefl _ (hlt _ (mem_append_left _ hmem))
  · rw [show ({ s.core with nextFileNumber := _, compaction := _ } : Lsm).flush = .idle from hidle]
      at ht'
    cases ht'
  · rcases mem_append.mp (show r ∈ outputs ++ _ from hr) with hr | hr
    · have hne : r.number ≠ s.core.nextFileNumber := fun heq => by
        have := hlt r.number (mem_append_right _ (mem_append_left _ (mem_map_of_mem hr)))
        omega
      refine (get?_tableEffects hne t).trans (hf.tables.sealed r ?_)
      rw [hseal]
      exact hr
    · obtain rfl := mem_singleton.mp hr
      exact mem_tableEffects _ _ _

theorem get?_unlinkSsts {refs : List TableRef} {k : Nat} (hk : k ∉ refs.map TableRef.number) :
    ∀ d : Disk, Keyed.get? (d.applyAll (refs.map fun r => .unlinkSst r.number)).ssts k =
      Keyed.get? d.ssts k := by
  induction refs with
  | nil => exact fun _ => rfl
  | cons r refs ih =>
    intro d
    obtain ⟨hne, hk⟩ := not_or.mp (mt mem_cons.mpr hk)
    refine (ih hk (d.apply (.unlinkSst r.number))).trans ?_
    exact (Keyed.get?_erase d.ssts r.number k).trans (if_neg hne)

theorem installed_tables (hi : s.core.Inv h) (hf : s.OnDisk)
    (hx : s.core.compaction = some (x, .merging floor [] outputs)) {r : TableRef}
    (hr : r ∈ (installVersion s.core.current x outputs).tables) :
    Keyed.get? s.disk.ssts r.number = some ⟨some r.table, true⟩ ∧
      r.number ∉ x.inputs.map TableRef.number := by
  have hp := hi.merged hx
  have hn := Lsm.current_nodup hi
  have hseal : s.core.sealed = outputs := by simp [Lsm.sealed, hx]
  have hnd := hi.numbers.nodup
  rw [hseal] at hnd
  rcases (hp.1.mem_install_tables hn).mp hr with ⟨hr, hkeep⟩ | hr
  · refine ⟨hf.current r hr, fun hmem => ?_⟩
    obtain ⟨u, hu, hnum⟩ := mem_map.mp hmem
    obtain rfl := hp.1.number_eq hn hr hu hnum.symm
    exact hkeep hu
  · refine ⟨hf.tables.sealed r (hseal ▸ hr), fun hmem => ?_⟩
    obtain ⟨u, hu, hnum⟩ := mem_map.mp hmem
    exact (nodup_append.mp hnd).2.2 u.number (mem_map_of_mem (hp.1.mem_tables hu)) r.number
      (mem_append_left _ (mem_map_of_mem hr)) hnum

theorem installed_tablesOk (hi : s.core.Inv h) {st : MergeStage}
    (hx : s.core.compaction = some (x, st)) (hflush : s'.core.flush = s.core.flush)
    (hnone : s'.core.compaction = none) : s'.TablesOk := by
  have hidle : s'.core.flush = .idle := hflush.trans (hi.sequential.one (by simp [hx]))
  refine ⟨fun t ht => ?_, fun r hr => ?_⟩
  · rw [hidle] at ht
    cases ht
  · simp [Lsm.sealed, hnone] at hr

theorem installCompaction_onDisk (hi : s.core.Inv h) (hf : s.OnDisk)
    (hx : s.core.compaction = some (x, .merging floor [] outputs))
    (hc : s.core.installCompaction = some c) :
    ({ s.perform (.publish (s.installed c).manifest ::
        x.inputs.map fun r => .unlinkSst r.number) with core := c } : DB).OnDisk := by
  have hmeta := hf.metaInv.installCompaction hi hc
  obtain rfl := Lsm.installCompaction_eq hx hc
  refine ⟨fun r hr => ?_, hmeta, installed_tablesOk hi hx rfl rfl⟩
  obtain ⟨hget, hkept⟩ := installed_tables hi hf hx hr
  exact (get?_unlinkSsts hkept _).trans hget

/-! ## Every step -/

theorem unlinkVlogs_frame (ns : List Nat) : ∀ d : Disk,
    (d.applyAll (ns.map .unlinkVlog)).logs = d.logs ∧
    (d.applyAll (ns.map .unlinkVlog)).ssts = d.ssts ∧
    (d.applyAll (ns.map .unlinkVlog)).manifest = d.manifest := by
  induction ns with
  | nil => exact fun _ => ⟨rfl, rfl, rfl⟩
  | cons n ns ih => exact fun d => ih (d.apply (.unlinkVlog n))

/-- **Every step keeps the tables.** -/
theorem OnDisk.step (hi : s.core.Inv h) (hf : s.OnDisk) (hs : s.step op = some s') : s'.OnDisk := by
  have hmeta := (step_core hs).metaInv hi hf.metaInv
  obtain ⟨_, hn⟩ := step_cases hs
  cases hn with
  | put him | delete him => exact writeEntry_onDisk (makeRoom_onDisk hi hf him) _ _ _
  | rotate him => exact rotate_onDisk hi hf him
  | flushBuilt _ him hidle hnone => exact flushBuilt_onDisk hi hf him hidle hnone
  | flushFailed | getSnapshot | releaseSnapshot | gcCheck | gcStart | gcDefer | gcDead | gcDrain
  | gcAbort => exact hf.frame hmeta rfl rfl (fun t ht => ⟨ht, rfl⟩) rfl
  | flushInstall hc => exact flushInstall_onDisk hi hf hc
  | flushDone => exact hf.frame hmeta rfl rfl (fun t ht => by cases ht) rfl
  | pick _ hc =>
    obtain ⟨x, -, -, hnone, -, rfl⟩ := Lsm.pick_cases hc
    exact hf.frame hmeta rfl rfl (fun t ht => ⟨ht, rfl⟩) (by simp [Lsm.sealed, hnone])
  | captureFloor hc =>
    obtain ⟨x, ts, hx, -, rfl⟩ := Lsm.captureFloor_cases hi hc
    exact hf.frame hmeta rfl rfl (fun t ht => ⟨ht, rfl⟩) (by simp [Lsm.sealed, hx])
  | sealOutput hx hc => exact sealOutput_onDisk hi hf hx hc
  | installCompaction hx hc => exact installCompaction_onDisk hi hf hx hc
  | @gcRewrite _ _ _ x =>
    have hw := writeEntry_onDisk hf .value x.entry.key x.entry.value
    exact ⟨hw.current, hw.metaInv, ⟨hw.tables.built, hw.tables.sealed⟩⟩
  | gcRetire =>
    obtain ⟨vlogs, -, hdisk⟩ := syncEffects_disk s
    refine hf.frame hmeta ?_ rfl (fun t ht => ⟨ht, rfl⟩) rfl
    unfold perform
    rw [Disk.applyAll_append]
    exact (congrArg Disk.ssts hdisk :)
  | @gcUnlink retired =>
    exact hf.frame hmeta (unlinkVlogs_frame retired s.disk).2.1 rfl (fun t ht => ⟨ht, rfl⟩) rfl

/-! ## What a step publishes -/

/-- The numbers that a step may write a table under, or unlink one. -/
def reserved (s : DB) : List Nat := s.core.sealed.map TableRef.number ++ s.core.pendingNumber

/-- No MANIFEST is written, and the tables that one may name stay. -/
structure Unpublished (s s' : DB) : Prop where
  manifest : s'.disk.manifest = s.disk.manifest
  next : s.core.nextFileNumber ≤ s'.core.nextFileNumber
  reserved : ∀ n ∈ s'.reserved, n ∈ s.reserved ∨ s.core.nextFileNumber ≤ n
  ssts : ∀ n < s.core.nextFileNumber, n ∉ s.reserved →
    Keyed.get? s'.disk.ssts n = Keyed.get? s.disk.ssts n

theorem pendingNumber_eq {n : Nat} (hn : n ∈ c.pendingNumber) : n = c.immSstNumber := by
  unfold Lsm.pendingNumber at hn
  split at hn
  · cases hn
  · exact mem_singleton.mp hn
  · cases hn

theorem Unpublished.frame (hman : s'.disk.manifest = s.disk.manifest)
    (hssts : s'.disk.ssts = s.disk.ssts) (hnext : s.core.nextFileNumber ≤ s'.core.nextFileNumber)
    (hres : ∀ n ∈ s'.reserved, n ∈ s.reserved ∨ s.core.nextFileNumber ≤ n) : Unpublished s s' :=
  ⟨hman, hnext, hres, fun _ _ _ => by rw [hssts]⟩

theorem rotate_unpublished (s : DB) : Unpublished s s.rotateForFlush := by
  refine Unpublished.frame rfl rfl (Nat.le_add_right _ _) fun n hn => ?_
  rcases mem_append.mp hn with hn | hn
  · exact .inl (mem_append_left _ hn)
  · rw [pendingNumber_eq hn]
    exact .inr (Nat.le_succ _)

theorem writeEntry_unpublished (s : DB) (type : ValueType) (key value : Bytes) :
    Unpublished s (s.writeEntry type key value) := by
  obtain ⟨vlogs, -, hdisk⟩ := disk_write s type key value
  exact Unpublished.frame (by rw [hdisk]) (by rw [hdisk]) le_rfl fun _ hn => .inl hn

theorem Unpublished.trans {s'' : DB} (hr : Unpublished s s') (hw : Unpublished s' s'') :
    Unpublished s s'' := by
  refine ⟨hw.manifest.trans hr.manifest, hr.next.trans hw.next, fun n hn => ?_, fun n hlt hn => ?_⟩
  · rcases hw.reserved n hn with hn | hle
    · exact hr.reserved n hn
    · exact .inr (hr.next.trans hle)
  · refine (hw.ssts n (lt_of_lt_of_le hlt hr.next) fun hmem => ?_).trans (hr.ssts n hlt hn)
    exact (hr.reserved n hmem).elim hn (not_le.mpr hlt)

theorem put_unpublished (s : DB) (type : ValueType) (key value : Bytes) :
    Unpublished s (s.makeRoom.writeEntry type key value) ∧
      (s.makeRoom.writeEntry type key value).core.current = s.core.current ∧
      (s.makeRoom.writeEntry type key value).vlogs = s.vlogs := by
  have hw := writeEntry_unpublished s.makeRoom type key value
  revert hw
  unfold makeRoom
  split
  · exact fun hw => ⟨(rotate_unpublished s).trans hw, rfl, rfl⟩
  · exact fun hw => ⟨hw, rfl, rfl⟩

/-- **A step publishes the state it ends in**, or nothing. -/
theorem step_publishes (hi : s.core.Inv h) (hs : s.step op = some s') :
    (Unpublished s s' ∧ s'.core.current = s.core.current ∧ s'.vlogs = s.vlogs) ∨
      s'.disk.manifest = some s'.manifest := by
  have hquiet : ∀ {c : Lsm} {g : GcStage}, c.nextFileNumber = s.core.nextFileNumber →
      c.sealed = s.core.sealed → c.pendingNumber = s.core.pendingNumber →
      Unpublished s { s with core := c, gc := g } :=
    fun hnum hsealed hpend => Unpublished.frame rfl rfl (le_of_eq hnum.symm)
      fun n hn => .inl (by simpa only [DB.reserved, hsealed, hpend] using hn)
  obtain ⟨_, hn⟩ := step_cases hs
  cases hn with
  | put | delete => exact .inl (put_unpublished _ _ _ _)
  | rotate => exact .inl ⟨rotate_unpublished s, rfl, rfl⟩
  | flushBuilt _ him hidle hnone =>
    have hpend : s.core.pendingNumber = [s.core.immSstNumber] := by
      simp [Lsm.pendingNumber, hidle, him]
    refine .inl ⟨⟨rfl, le_rfl, fun n hn => ?_, fun n _ hn => ?_⟩, rfl, rfl⟩
    · rcases mem_append.mp hn with hn | hn
      · exact .inl (mem_append_left _ hn)
      · rw [pendingNumber_eq hn]
        exact .inl (mem_append_right _ (hpend ▸ mem_singleton_self _))
    · refine get?_tableEffects (fun heq => hn ?_) _
      exact mem_append_right _ (hpend ▸ mem_singleton.mpr heq)
  | flushFailed | getSnapshot | releaseSnapshot | gcCheck | gcDefer | gcDead | gcDrain | gcAbort =>
    exact .inl ⟨hquiet rfl rfl rfl, rfl, rfl⟩
  | flushInstall | gcStart => exact .inr rfl
  | flushDone =>
    refine .inl ⟨Unpublished.frame rfl rfl le_rfl fun n hn => ?_, rfl, rfl⟩
    rcases mem_append.mp hn with hn | hn
    · exact .inl (mem_append_left _ hn)
    · cases hn
  | pick _ hc =>
    obtain ⟨x, -, -, hnone, -, rfl⟩ := Lsm.pick_cases hc
    exact .inl ⟨hquiet rfl (by simp [Lsm.sealed, hnone]) rfl, rfl, rfl⟩
  | captureFloor hc =>
    obtain ⟨x, ts, hx, -, rfl⟩ := Lsm.captureFloor_cases hi hc
    exact .inl ⟨hquiet rfl (by simp [Lsm.sealed, hx]) rfl, rfl, rfl⟩
  | sealOutput _ hc =>
    obtain ⟨x, floor, t, todo, outputs, hx, rfl⟩ := Lsm.sealOutput_cases hc
    refine .inl ⟨⟨rfl, Nat.le_succ _, fun n hn => ?_, fun n hlt _ => ?_⟩, rfl, rfl⟩
    · have hsealed : s.core.sealed = outputs := by simp [Lsm.sealed, hx]
      rcases mem_append.mp hn with hn | hn
      · obtain ⟨r, hr, rfl⟩ := mem_map.mp hn
        rcases mem_append.mp (show r ∈ outputs ++ _ from hr) with hr | hr
        · exact .inl (mem_append_left _ (mem_map_of_mem (hsealed ▸ hr)))
        · rw [mem_singleton.mp hr]
          exact .inr le_rfl
      · exact .inl (mem_append_right _ hn)
    · exact get?_tableEffects (ne_of_lt hlt) _
  | installCompaction => exact .inr (unlinkSsts_frame _ _).2.2
  | @gcRewrite _ _ _ x =>
    have hw := writeEntry_unpublished s .value x.entry.key x.entry.value
    exact .inl ⟨⟨hw.manifest, hw.next, hw.reserved, hw.ssts⟩, rfl, rfl⟩
  | gcRetire =>
    refine .inr ?_
    unfold perform
    rw [Disk.applyAll_append]
    rfl
  | @gcUnlink retired =>
    obtain ⟨-, hssts, hman⟩ := unlinkVlogs_frame retired s.disk
    exact .inl ⟨Unpublished.frame hman hssts le_rfl fun _ hn => .inl hn, rfl, rfl⟩

/-- **Every step keeps the tables and their MANIFEST.** -/
theorem FilesOk.step (hi : s.core.Inv h) (hf : s.FilesOk) (hs : s.step op = some s') :
    s'.FilesOk := by
  have hd := hf.onDisk.step hi hs
  refine ⟨⟨?_, hd.current⟩, hd.metaInv, hd.tables⟩
  rcases step_publishes hi hs with ⟨hu, hcur, -⟩ | hman
  · rw [Disk.manifestState, hu.manifest, hcur]
    exact hf.names.files
  · rw [Disk.manifestState, hman]
    rfl

end DB

end BedrockKV
