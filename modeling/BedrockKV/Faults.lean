/-
# `BedrockKV.Faults` — tables and MANIFESTs whose writing fails

`BackgroundLoop` tries a failed flush again, gives compaction up for good, and
runs garbage collection later once more.  `DB.fail` is what each failure
leaves: in memory, what the code undoes and what it does not; on disk, what was
written before.  A `WriteManifest` can fail before its rename or after it (the
sync of the directory), and in the second case the MANIFEST is there.

`FlushImmMemTable` puts the new table into the version, and leaves it there
when the MANIFEST cannot be written.  The next try adds it once more, under the
number it was given, and the MANIFEST it publishes names that number twice:
`run_published_twice`.  Everything else is undone or harmless.  When no flush
fails to write its MANIFEST, every MANIFEST is accepted and the directory can
be opened at every point: `run_published`.
-/
import BedrockKV.DbVlogs
import BedrockKV.SeqOrder

namespace BedrockKV

open List Keyed Log MultiVersion

namespace DB

/-! ## The failures -/

/-- What fails.  `renamed`: only the sync after the rename.  `left`: what is
on disk of the output that could not be written. -/
inductive Fault where
  | flushSst
  | flushManifest (renamed : Bool)
  | sealSst (left : Option SstFile)
  | compactionManifest (renamed : Bool)
  | gcManifest (renamed : Bool)
  | retireManifest (renamed : Bool)

/-- A `WriteManifest` that returns an error. -/
def failedPublish (renamed : Bool) (m : Manifest) : List Effect :=
  if renamed then [.publish m] else []

/-- The table of the flush is unlinked.  An error ends a garbage collection
whose `drain_flush` this is. -/
def failFlushSst (s : DB) : Option DB :=
  match s.flushEnabled, s.core.imm, s.core.flush, s.core.compaction with
  | true, some _, .idle, none =>
    some { s.perform [.unlinkSst s.core.immSstNumber] with gc := .idle }
  | _, _, _, _ => none

/-- The table stays in the version, and the memtable stays pending. -/
def failFlushManifest (s : DB) (renamed : Bool) : Option DB :=
  s.core.flushInstall.map fun c =>
    { s.perform (failedPublish renamed (s.installed c).manifest) with
      core := { c with flush := .idle }
      gc := .idle }

def leave (ssts : List (Nat × SstFile)) (number : Nat) : Option SstFile → List (Nat × SstFile)
  | some f => Keyed.set ssts number f
  | none => ssts

/-- `seal()` has taken a number; the finished outputs are unlinked. -/
def failSealSst (s : DB) (left : Option SstFile) : Option DB :=
  match s.core.compaction with
  | some (_, .merging _ (_ :: _) outputs) =>
    let d := s.disk.applyAll (outputs.map fun r => .unlinkSst r.number)
    some { s with
      core := { s.core with
        nextFileNumber := s.core.nextFileNumber + 1
        compaction := none
        compactionDisabled := true }
      disk := { d with ssts := leave d.ssts s.core.nextFileNumber left } }
  | _ => none

/-- The new version stays; the inputs are not unlinked. -/
def failCompactionManifest (s : DB) (renamed : Bool) : Option DB :=
  s.core.installCompaction.map fun c =>
    { s.perform (failedPublish renamed (s.installed c).manifest) with
      core := { c with compactionDisabled := true } }

/-- The switch is undone; the new file stays. -/
def failGcManifest (s : DB) (renamed : Bool) : Option DB :=
  match s.gc with
  | .triggered =>
    if s.core.snapshots = [] then
      some { s.perform (.createVlog s.core.nextFileNumber ::
          failedPublish renamed s.gcSwitch.manifest) with gc := .idle }
    else none
  | _ => none

/-- The retired generations are put back. -/
def failRetireManifest (s : DB) (renamed : Bool) : Option DB :=
  match s.gc with
  | .scanning _ retired [] rewritten false =>
    if s.core.snapshots = [] then
      some { s.perform (s.syncEffects ++
          failedPublish renamed (s.gcDropped retired rewritten).manifest) with
        vlogGcFloor := 2 * rewritten
        unsyncedBytes := 0
        gc := .idle }
    else none
  | _ => none

def fail (s : DB) : Fault → Option DB
  | .flushSst => s.failFlushSst
  | .flushManifest renamed => s.failFlushManifest renamed
  | .sealSst left => s.failSealSst left
  | .compactionManifest renamed => s.failCompactionManifest renamed
  | .gcManifest renamed => s.failGcManifest renamed
  | .retireManifest renamed => s.failRetireManifest renamed

/-- The life of a database whose background work may fail. -/
inductive Trial where
  | life (ev : Life)
  | fail (fault : Fault)

def stepTrial (s : DB) : Trial → Option DB
  | .life ev => s.stepLife ev
  | .fail fault => s.fail fault

/-- Every way a failure can go. -/
inductive Failed (s : DB) : Fault → DB → Prop where
  | flushSst {m : MemTable} : s.core.imm = some m → s.core.flush = .idle →
      s.core.compaction = none →
      Failed s .flushSst { s.perform [.unlinkSst s.core.immSstNumber] with gc := .idle }
  | flushManifest {c : Lsm} (renamed : Bool) : s.core.flushInstall = some c →
      Failed s (.flushManifest renamed)
        { s.perform (failedPublish renamed (s.installed c).manifest) with
          core := { c with flush := .idle }
          gc := .idle }
  | sealSst {x : Compaction} {floor : ReadSeq} {t : Table} {todo : List Table}
      {outputs : List TableRef} (ssts : List (Nat × SstFile)) (left : Option SstFile) :
      s.core.compaction = some (x, .merging floor (t :: todo) outputs) →
      (∀ n, n ≠ s.core.nextFileNumber → n ∉ outputs.map TableRef.number →
        Keyed.get? ssts n = Keyed.get? s.disk.ssts n) →
      Failed s (.sealSst left)
        { s with
          core := { s.core with
            nextFileNumber := s.core.nextFileNumber + 1
            compaction := none
            compactionDisabled := true }
          disk := { s.disk with ssts := ssts } }
  | compactionManifest {c : Lsm} {x : Compaction} {floor : ReadSeq} {outputs : List TableRef}
      (renamed : Bool) : s.core.compaction = some (x, .merging floor [] outputs) →
      s.core.installCompaction = some c →
      Failed s (.compactionManifest renamed)
        { s.perform (failedPublish renamed (s.installed c).manifest) with
          core := { c with compactionDisabled := true } }
  | gcManifest (renamed : Bool) : s.gc = .triggered →
      Failed s (.gcManifest renamed)
        { s.perform (.createVlog s.core.nextFileNumber ::
            failedPublish renamed s.gcSwitch.manifest) with gc := .idle }
  | retireManifest {fresh rewritten : Nat} {retired : List Nat} (renamed : Bool) :
      s.gc = .scanning fresh retired [] rewritten false →
      Failed s (.retireManifest renamed)
        { s.perform (s.syncEffects ++
            failedPublish renamed (s.gcDropped retired rewritten).manifest) with
          vlogGcFloor := 2 * rewritten
          unsyncedBytes := 0
          gc := .idle }

variable {s s' : DB} {h : List Entry}

theorem failSealSst_disk (s : DB) (outputs : List TableRef) (left : Option SstFile) :
    ∃ ssts, ({ s.disk.applyAll (outputs.map fun r => .unlinkSst r.number) with
        ssts := leave (s.disk.applyAll (outputs.map fun r => .unlinkSst r.number)).ssts
          s.core.nextFileNumber left } : Disk) = { s.disk with ssts := ssts } ∧
      ∀ n, n ≠ s.core.nextFileNumber → n ∉ outputs.map TableRef.number →
        Keyed.get? ssts n = Keyed.get? s.disk.ssts n := by
  obtain ⟨hlogs, hvlogs, hman⟩ := unlinkSsts_frame outputs s.disk
  dsimp only
  rw [hlogs, hvlogs, hman]
  refine ⟨_, rfl, fun n hne hn => ?_⟩
  rw [← get?_unlinkSsts hn s.disk]
  cases left with
  | none => rfl
  | some f => exact (get?_set _ _ _ _).trans (if_neg hne)

theorem fail_failed {fault : Fault} (hs : s.fail fault = some s') : Failed s fault s' := by
  cases fault with
  | flushSst =>
    simp only [fail, failFlushSst] at hs
    split at hs
    · next _ _ him hidle hnone =>
      cases hs
      exact .flushSst him hidle hnone
    · cases hs
  | flushManifest renamed =>
    obtain ⟨c, hc, rfl⟩ := Option.map_eq_some_iff.mp hs
    exact .flushManifest renamed hc
  | sealSst left =>
    simp only [fail, failSealSst] at hs
    split at hs
    · next hx =>
      obtain ⟨ssts, hdisk, hssts⟩ := failSealSst_disk s _ left
      rw [hdisk] at hs
      cases hs
      exact .sealSst ssts left hx hssts
    · cases hs
  | compactionManifest renamed =>
    obtain ⟨c, hc, rfl⟩ := Option.map_eq_some_iff.mp hs
    obtain ⟨x, floor, outputs, hx, -⟩ := Lsm.installCompaction_cases hc
    exact .compactionManifest renamed hx hc
  | gcManifest renamed =>
    simp only [fail, failGcManifest] at hs
    split at hs
    · next hg =>
      split at hs
      · cases hs
        exact .gcManifest renamed hg
      · cases hs
    · cases hs
  | retireManifest renamed =>
    simp only [fail, failRetireManifest] at hs
    split at hs
    · next hg =>
      split at hs
      · cases hs
        exact .retireManifest renamed hg
      · cases hs
    · cases hs

/-! ## The logs a step leaves -/

/-- A number in a log was there before, or is a new one. -/
def LogsFrom (s s' : DB) : Prop :=
  ∀ p ∈ s'.disk.logs, ∀ n ∈ p.2.seqs,
    (∃ f, (p.1, f) ∈ s.disk.logs ∧ n ∈ f.seqs) ∨ s.core.nextSeq ≤ n

theorem LogsFrom.of_sameBytes (hb : SameBytes s.disk.logs s'.disk.logs) : LogsFrom s s' := by
  obtain ⟨g, hg, hbytes⟩ := hb
  intro p hp n hn
  rw [hg] at hp
  obtain ⟨q, hq, rfl⟩ := mem_map.mp hp
  exact .inl ⟨q.2, hq, seqs_congr (hbytes q) ▸ hn⟩

theorem LogsFrom.of_sub (hsub : ∀ p ∈ s'.disk.logs, p ∈ s.disk.logs) : LogsFrom s s' :=
  fun p hp _ hn => .inl ⟨p.2, hsub p hp, hn⟩

theorem rotate_logsFrom (s : DB) : LogsFrom s s.rotateForFlush := by
  intro p hp n hn
  obtain ⟨f, hf, hpf⟩ := mem_modify.mp hp
  have hbytes : p.2.bytes = f.bytes := by
    rw [hpf]
    split <;> rfl
  rw [seqs_congr hbytes] at hn
  rcases mem_set.mp hf with ⟨hf, -⟩ | hf
  · exact .inl ⟨f, hf, hn⟩
  · obtain ⟨-, rfl⟩ := Prod.mk.inj hf
    rw [File.clean_empty.2] at hn
    cases hn

theorem writeEntry_logsFrom (hq : s.SeqsOk) (hseq : s.core.nextSeq < 2 ^ 64) (type : ValueType)
    (key value : Bytes) : LogsFrom s (s.writeEntry type key value) := by
  intro p hp n hn
  rcases mem_logs_writeEntry hq hp with hp | ⟨hnum, hfile⟩
  · exact .inl ⟨p.2, hp, hn⟩
  · -- the file has one more record, whose number is the next one
    obtain ⟨older, hold, -⟩ := hq.logs_concat
    have hlog : (s.logNumber, s.logFile) ∈ s.disk.logs :=
      hold ▸ mem_append_right _ (mem_singleton_self _)
    have hseqs := ((hq.clean _ hlog).append (encodePayload (s.record type key value))).2
    rw [getFixed64_encodePayload hseq] at hseqs
    have hbytes : p.2.bytes = (s.logFile.append (s.walBytes type key value)).bytes := by
      rcases hfile with hfile | hfile <;> rw [hfile]
      rfl
    rw [seqs_congr hbytes, walBytes, hseqs] at hn
    rcases mem_append.mp hn with hn | hn
    · exact .inl ⟨_, hnum ▸ hlog, hn⟩
    · exact .inr (le_of_eq (mem_singleton.mp hn).symm)

theorem put_logsFrom (hq : s.SeqsOk) (hseq : s.core.nextSeq < 2 ^ 64) (type : ValueType)
    (key value : Bytes) : LogsFrom s (s.makeRoom.writeEntry type key value) := by
  have hw := writeEntry_logsFrom (makeRoom_seqsOk hq)
    ((makeRoom_nextSeq s).symm ▸ hseq) type key value
  intro p hp n hn
  rcases hw p hp n hn with ⟨f, hf, hn⟩ | hle
  · revert hf
    unfold makeRoom
    split
    · exact fun hf => rotate_logsFrom s (p.1, f) hf n hn
    · exact fun hf => .inl ⟨f, hf, hn⟩
  · exact .inr (makeRoom_nextSeq s ▸ hle)

theorem step_logsFrom (hq : s.SeqsOk) (hseq : s.core.nextSeq < 2 ^ 64) {op : Op}
    (hs : s.step op = some s') : LogsFrom s s' := by
  obtain ⟨_, hn⟩ := step_cases hs
  cases hn with
  | put | delete => exact put_logsFrom hq hseq _ _ _
  | rotate => exact rotate_logsFrom s
  | flushDone => exact .of_sub fun p hp => (mem_erase.mp hp).1
  | @installCompaction c x =>
    have hlogs := (unlinkSsts_frame x.inputs
      (s.disk.apply (.publish (s.installed c).manifest))).1
    exact .of_sub fun p hp => (congrArg (p ∈ ·) hlogs).mp hp
  | @gcRewrite _ _ _ x => exact writeEntry_logsFrom hq hseq .value x.entry.key x.entry.value
  | gcRetire =>
    obtain ⟨vlogs, -, hdisk⟩ := syncEffects_disk s
    refine .of_sameBytes ?_
    unfold perform
    rw [Disk.applyAll_append]
    change SameBytes _ (s.disk.applyAll s.syncEffects).logs
    rw [hdisk]
    exact SameBytes.sync _ _
  | @gcUnlink retired =>
    refine .of_sub fun p hp => ?_
    exact (congrArg (p ∈ ·) (unlinkVlogs_frame retired s.disk).1).mp hp
  | _ => exact .of_sub fun _ hp => hp

/-! ## The version on disk -/

/-- `v` is the version that the MANIFEST on disk names, and its files are safe:
their numbers are not used again, and the logs to replay are newer. -/
structure Published (s : DB) (h : List Entry) (v : Version) : Prop where
  names : s.disk.Names v
  ok : v.Ok
  metaOk : v.MetaOk
  numbers : v.numbers.Nodup
  descending : (v.l0.map TableRef.number).Pairwise (· > ·)
  sub : ∀ e ∈ v.entries, e ∈ h
  lt : ∀ n ∈ v.numbers, n < s.core.nextFileNumber
  free : ∀ n ∈ v.numbers, n ∉ s.reserved
  above : ∀ p ∈ s.disk.logs, s.disk.floor ≤ p.1 → ∀ n ∈ p.2.seqs, ∀ e ∈ v.entries, e.seq < n
  vlogs : (0 :: s.disk.manifestState.vlogs).Pairwise (· < ·)
  off : s.opt.enableValueSeparation = false → s.disk.manifestState.vlogs = []

theorem published_current (hi : s.core.Inv h) (hd : s.OnDisk) (hq : s.SeqsOk)
    (hfiles : s.disk.manifestState.files =
      (sortByNumber s.core.current.tables).map TableRef.fileMeta)
    (hvlogs : (0 :: s.disk.manifestState.vlogs).Pairwise (· < ·))
    (hoff : s.opt.enableValueSeparation = false → s.disk.manifestState.vlogs = []) :
    s.Published h s.core.current where
  names := ⟨hfiles, hd.current⟩
  ok := hi.contents.version
  metaOk := hd.metaInv.current
  numbers := Lsm.current_nodup hi
  descending := hi.numbers.l0_descending
  sub := fun e he => hi.contents.sub e (mem_append_right _ (mem_append_right _ he))
  lt := fun n hn => hi.numbers.lt n (mem_append_left _ hn)
  free := fun n hn hres => (nodup_append.mp hi.numbers.nodup).2.2 n hn n hres rfl
  above := hq.above
  vlogs := hvlogs
  off := hoff

theorem Published.keep {v : Version} {h' : List Entry} (hp : s.Published h v) (hi : s.core.Inv h)
    (hu : Unpublished s s') (hl : LogsFrom s s') (hopt : s'.opt = s.opt) (hh : ∀ e ∈ h, e ∈ h') :
    s'.Published h' v := by
  have hms : s'.disk.manifestState = s.disk.manifestState :=
    congrArg (fun m : Option Manifest => m.getD ⟨[], [], 1⟩) hu.manifest
  have hfloor : s'.disk.floor = s.disk.floor := congrArg Manifest.logNumber hms
  refine ⟨⟨hms ▸ hp.names.files, fun r hr => ?_⟩, hp.ok, hp.metaOk, hp.numbers, hp.descending,
    fun e he => hh e (hp.sub e he), fun n hn => lt_of_lt_of_le (hp.lt n hn) hu.next,
    fun n hn hres => ?_, fun p hmem hle n hn e he => ?_, hms ▸ hp.vlogs, ?_⟩
  · have hr' : r.number ∈ v.numbers := mem_map_of_mem hr
    exact (hu.ssts _ (hp.lt _ hr') (hp.free _ hr')).trans (hp.names.tables r hr)
  · rcases hu.reserved n hres with hres | hle
    · exact hp.free n hn hres
    · exact not_le.mpr (hp.lt n hn) hle
  · rcases hl p hmem n hn with ⟨f, hf, hn⟩ | hle'
    · exact hp.above _ hf (hfloor ▸ hle) n hn e he
    · exact lt_of_lt_of_le (hi.contents.seq_lt e (hp.sub e he)) hle'
  · rw [hopt, hms]
    exact hp.off

/-! ## The invariant -/

structure TrialOk (s : DB) : Prop where
  published : ∃ h v, s.core.Inv h ∧ s.Published h v
  onDisk : s.OnDisk
  seqs : s.SeqsOk
  gens : s.GensOk

theorem fresh_trialOk (opt : Options) : (fresh opt).TrialOk := by
  have hf := fresh_filesOk opt
  have hg := fresh_gensOk opt
  refine ⟨⟨[], _, Lsm.fresh_inv opt, published_current (Lsm.fresh_inv opt) hf.onDisk
    (fresh_seqsOk opt)
    hf.names.files (pairwise_singleton _ _) fun _ => rfl⟩, hf.onDisk, fresh_seqsOk opt, hg⟩

theorem TrialOk.step (ht : s.TrialOk) (hseq : s.core.nextSeq < 2 ^ 64) {op : Op}
    (hs : s.step op = some s') : s'.TrialOk := by
  obtain ⟨h, v, hi, hp⟩ := ht.published
  have hi' := (step_core hs).inv hi
  have hd' := ht.onDisk.step hi hs
  have hg' := ht.gens.step hi ht.onDisk.metaInv.next hs
  have hq' := ht.seqs.step hi (written_lt hseq op) hs
  refine ⟨⟨h ++ s.written op, ?_⟩, hd', hq', hg'⟩
  rcases step_publishes hi hs with ⟨hu, -, -⟩ | hman
  · exact ⟨v, hi', hp.keep hi hu (step_logsFrom ht.seqs hseq hs) (step_opt hi hs)
      fun e he => mem_append_left _ he⟩
  · have hms : s'.disk.manifestState = s'.manifest := by rw [Disk.manifestState, hman]; rfl
    exact ⟨_, hi', published_current hi' hd' hq' (hms ▸ rfl) (hms ▸ hg'.ascending)
      fun hoff => hms ▸ (hg'.off hoff).1⟩

/-! ## What a failure leaves -/

theorem disabled_inv {c : Lsm} (hi : c.Inv h) :
    ({ c with compactionDisabled := true } : Lsm).Inv h :=
  ⟨hi.contents.congr rfl rfl rfl rfl rfl, hi.numbers, hi.flush, hi.compact,
    ⟨hi.sequential.one, hi.sequential.flushing⟩⟩

theorem dropped_inv {c : Lsm} (hi : c.Inv h) :
    ({ c with
      nextFileNumber := c.nextFileNumber + 1
      compaction := none
      compactionDisabled := true } : Lsm).Inv h := by
  have hn := hi.numbers
  have hsub : (c.current.numbers ++ ([] ++ c.pendingNumber)).Sublist
      (c.current.numbers ++ (c.sealed.map TableRef.number ++ c.pendingNumber)) :=
    (List.Sublist.refl _).append ((nil_sublist _).append (List.Sublist.refl _))
  refine ⟨hi.contents.congr rfl rfl rfl rfl rfl, ⟨hn.nodup.sublist hsub, fun n hmem => ?_,
    hn.l0_descending, hn.l0_lt⟩, hi.flush, trivial,
      ⟨fun hne => absurd rfl hne, hi.sequential.flushing⟩⟩
  exact Nat.lt_succ_of_lt (hn.lt n (hsub.subset hmem))

theorem failedPublish_ssts (d : Disk) (renamed : Bool) (m : Manifest) :
    (d.applyAll (failedPublish renamed m)).ssts = d.ssts ∧
    (d.applyAll (failedPublish renamed m)).logs = d.logs ∧
    (d.applyAll (failedPublish renamed m)).vlogs = d.vlogs := by
  cases renamed <;> exact ⟨rfl, rfl, rfl⟩

section

variable (ht : s.TrialOk)
include ht

theorem failFlushSst_trialOk {m : MemTable} (him : s.core.imm = some m)
    (hidle : s.core.flush = .idle) (hnone : s.core.compaction = none) :
    ({ s.perform [.unlinkSst s.core.immSstNumber] with gc := .idle } : DB).TrialOk := by
  obtain ⟨h, v, hi, hp⟩ := ht.published
  have hnot := immSst_notMem hi (by simp [him]) (by simp [hidle])
  have hget : ∀ n, n ≠ s.core.immSstNumber →
      Keyed.get? (s.disk.apply (.unlinkSst s.core.immSstNumber)).ssts n =
        Keyed.get? s.disk.ssts n :=
    fun n hne => (get?_erase _ _ _).trans (if_neg hne)
  refine ⟨⟨h, v, hi, hp.keep hi ⟨rfl, le_rfl, fun n hn => .inl hn, fun n _ hn => ?_⟩
    (.of_sub fun _ hmem => hmem) rfl fun _ he => he⟩, ⟨fun r hr => ?_, ht.onDisk.metaInv, ?_⟩,
      ?_, ?_⟩
  · refine hget n fun heq => hn (mem_append_right _ ?_)
    simp [Lsm.pendingNumber, hidle, him, heq]
  · exact (hget _ (Disk.number_ne hnot hr)).trans (ht.onDisk.current r hr)
  · refine ⟨fun t htab => ?_, fun r hr => ?_⟩
    · exact absurd (hidle.symm.trans htab) (by simp)
    · simp [Lsm.sealed, perform, hnone] at hr
  · exact ht.seqs.frame (.refl _) (.inl rfl) rfl rfl rfl rfl le_rfl (fun _ he => he) fun _ he => he
  · exact (ht.gens.perform rfl).quiet rfl le_rfl trivial fun _ _ => rfl

theorem failSealSst_trialOk {x : Compaction} {floor : ReadSeq} {t : Table}
    {todo : List Table} {outputs : List TableRef} {ssts : List (Nat × SstFile)}
    (hx : s.core.compaction = some (x, .merging floor (t :: todo) outputs))
    (hssts : ∀ n, n ≠ s.core.nextFileNumber → n ∉ outputs.map TableRef.number →
      Keyed.get? ssts n = Keyed.get? s.disk.ssts n) :
    ({ s with
      core := { s.core with
        nextFileNumber := s.core.nextFileNumber + 1
        compaction := none
        compactionDisabled := true }
      disk := { s.disk with ssts := ssts } } : DB).TrialOk := by
  obtain ⟨h, v, hi, hp⟩ := ht.published
  have hseal : s.core.sealed = outputs := by simp [Lsm.sealed, hx]
  have hidle : s.core.flush = .idle := hi.sequential.one (by simp [hx])
  have hm := ht.onDisk.metaInv
  refine ⟨⟨h, v, dropped_inv hi, hp.keep hi ⟨rfl, Nat.le_succ _, fun n hn => .inl ?_,
    fun n hlt hn => ?_⟩ (.of_sub fun _ hmem => hmem) rfl fun _ he => he⟩,
    ⟨fun r hr => ?_, ⟨hm.current, fun _ _ _ _ hc => (by cases hc), Nat.succ_pos _, hm.imm⟩, ?_⟩,
      ?_, ?_⟩
  · exact mem_append_right _ hn
  · refine hssts n (ne_of_lt hlt) fun hmem => hn (mem_append_left _ ?_)
    rw [hseal]
    exact hmem
  · have hr' : r.number ∈ s.core.current.numbers := mem_map_of_mem hr
    refine (hssts _ (ne_of_lt (hi.numbers.lt _ (mem_append_left _ hr'))) fun hmem => ?_).trans
      (ht.onDisk.current r hr)
    refine (nodup_append.mp hi.numbers.nodup).2.2 _ hr' _ (mem_append_left _ ?_) rfl
    rw [hseal]
    exact hmem
  · refine ⟨fun t htab => ?_, fun _ hx => absurd hx not_mem_nil⟩
    exact absurd (hidle.symm.trans htab) (by simp)
  · exact ht.seqs.frame (.refl _) (.inl rfl) rfl rfl rfl rfl (Nat.le_succ _) (fun _ he => he)
      fun _ he => he
  · exact ht.gens.frame rfl rfl rfl (Nat.le_succ _) (fun _ => ⟨rfl, rfl⟩)
      (fun _ _ hk => hk) ht.gens.gc

theorem failCompactionManifest_trialOk {c : Lsm} {x : Compaction} {floor : ReadSeq}
    {outputs : List TableRef} (renamed : Bool)
    (hx : s.core.compaction = some (x, .merging floor [] outputs))
    (hc : s.core.installCompaction = some c) :
    ({ s.perform (failedPublish renamed (s.installed c).manifest) with
      core := { c with compactionDisabled := true } } : DB).TrialOk := by
  obtain ⟨h, v, hi, hp⟩ := ht.published
  have hmeta := ht.onDisk.metaInv.installCompaction hi hc
  have hinv := disabled_inv (Lsm.installCompaction_inv hi hc)
  obtain rfl := Lsm.installCompaction_eq hx hc
  have hcomp := hi.merged hx
  set m := (s.installed { s.core with
    current := installVersion s.core.current x outputs, compaction := none }).manifest with hm
  obtain ⟨hssts, hlogs, hvlogs⟩ := failedPublish_ssts s.disk renamed m
  have hd' : ({ s.perform (failedPublish renamed m) with
      core := { s.core with
        current := installVersion s.core.current x outputs
        compaction := none
        compactionDisabled := true } } : DB).OnDisk := by
    refine ⟨fun r hr => ?_, ⟨hmeta.current, hmeta.sealed, hmeta.next, hmeta.imm⟩,
      installed_tablesOk hi hx rfl rfl⟩
    exact (congrArg (Keyed.get? · r.number) hssts).trans (installed_tables hi ht.onDisk hx hr).1
  have hq' : ({ s.perform (failedPublish renamed m) with
      core := { s.core with
        current := installVersion s.core.current x outputs
        compaction := none
        compactionDisabled := true } } : DB).SeqsOk := by
    refine ht.seqs.frame (hlogs.symm ▸ SameBytes.refl _) ?_ rfl rfl rfl rfl le_rfl ?_ fun _ he => he
    · cases renamed
      · exact .inl rfl
      · exact .inr rfl
    · exact fun e he => Lsm.install_entries_sub hcomp.1 (Lsm.current_nodup hi) hcomp.2.builtFrom he
  refine ⟨?_, hd', hq', ?_⟩
  · cases renamed with
    | true => exact ⟨h, _, hinv, published_current hinv hd' hq' rfl ht.gens.ascending
        fun hoff => (ht.gens.off hoff).1⟩
    | false =>
      refine ⟨h, v, hinv, hp.keep hi (Unpublished.frame rfl rfl le_rfl fun n hn => .inl ?_)
        (.of_sub fun _ hmem => hmem) rfl fun _ he => he⟩
      exact mem_append_right _ hn
  · exact (ht.gens.perform hvlogs).quiet rfl le_rfl ht.gens.gc fun hid _ => hid

theorem TrialOk.vlogs {d : Disk} (hlogs : SameBytes s.disk.logs d.logs)
    (hssts : d.ssts = s.disk.ssts) (hman : d.manifest = s.disk.manifest ∨
      ∃ vlogs, d.manifest = some { s.manifest with vlogs := vlogs } ∧
        (0 :: vlogs).Pairwise (· < ·) ∧ (s.opt.enableValueSeparation = false → vlogs = []))
    {floor unsynced : Nat}
    (hgens : ({ s with
      disk := d
      vlogGcFloor := floor
      unsyncedBytes := unsynced
      gc := .idle } : DB).GensOk) :
    ({ s with
      disk := d
      vlogGcFloor := floor
      unsyncedBytes := unsynced
      gc := .idle } : DB).TrialOk := by
  obtain ⟨h, v, hi, hp⟩ := ht.published
  set s' : DB := { s with
    disk := d
    vlogGcFloor := floor
    unsyncedBytes := unsynced
    gc := .idle }
  have hd' : s'.OnDisk := ht.onDisk.frame ht.onDisk.metaInv hssts rfl
    (fun t htab => ⟨htab, rfl⟩) rfl
  have hfloor : d.floor = s.disk.floor ∨ d.floor = s.logNumber := by
    rcases hman with hman | ⟨vlogs, hman, -⟩
    · exact .inl (Disk.floor_congr hman)
    · exact .inr (congrArg (fun m : Option Manifest => (m.getD ⟨[], [], 1⟩).logNumber) hman)
  have hq' : s'.SeqsOk := ht.seqs.frame hlogs hfloor rfl rfl rfl rfl le_rfl
    (fun _ he => he) fun _ he => he
  refine ⟨?_, hd', hq', hgens⟩
  rcases hman with hman | ⟨vlogs, hman, hasc, hoff⟩
  · exact ⟨h, v, hi, hp.keep hi (Unpublished.frame hman hssts le_rfl fun n hn => .inl hn)
      (.of_sameBytes hlogs) rfl fun _ he => he⟩
  · have hms : s'.disk.manifestState = { s.manifest with vlogs := vlogs } := by
      rw [Disk.manifestState, show s'.disk.manifest = _ from hman]
      rfl
    exact ⟨h, _, hi, published_current hi hd' hq' (hms ▸ rfl) (hms ▸ hasc) (hms ▸ hoff)⟩

theorem failGcManifest_trialOk (renamed : Bool) (hgc : s.gc = .triggered) :
    ({ s.perform (.createVlog s.core.nextFileNumber ::
      failedPublish renamed s.gcSwitch.manifest) with gc := .idle } : DB).TrialOk := by
  have hon := ht.gens.separation_on (by simp [hgc])
  have hnew := gcStart_gensOk ht.gens ht.onDisk.metaInv.next hgc
  obtain ⟨hssts, hlogs, hvlogs⟩ :=
    failedPublish_ssts (s.disk.apply (.createVlog s.core.nextFileNumber)) renamed
      s.gcSwitch.manifest
  refine ht.vlogs (hlogs.symm ▸ SameBytes.refl _) hssts ?_ ?_
  · cases renamed with
    | false => exact .inl rfl
    | true => exact .inr ⟨_, rfl, hnew.ascending,
        fun hoff => absurd (hon.symm.trans hoff) (by decide)⟩
  · refine ht.gens.frame rfl rfl rfl le_rfl
      (fun hoff => absurd (hon.symm.trans hoff) (by decide)) (fun n hn _ => ?_) trivial
    exact (congrArg (fun m => n ∈ Keyed.keys m) hvlogs).mpr (hnew.present n (mem_append_left _ hn))

theorem failRetireManifest_trialOk {fresh rewritten : Nat} {retired : List Nat}
    (renamed : Bool) (hgc : s.gc = .scanning fresh retired [] rewritten false) :
    ({ s.perform (s.syncEffects ++
        failedPublish renamed (s.gcDropped retired rewritten).manifest) with
      vlogGcFloor := 2 * rewritten
      unsyncedBytes := 0
      gc := .idle } : DB).TrialOk := by
  have hon := ht.gens.separation_on (by simp [hgc])
  have hnew := gcRetire_gensOk ht.gens hgc
  obtain ⟨vlogs, hkeys, hdisk⟩ := syncEffects_disk s
  obtain ⟨hssts, hlogs, hvlogs⟩ := failedPublish_ssts (s.disk.applyAll s.syncEffects) renamed
    (s.gcDropped retired rewritten).manifest
  rw [← Disk.applyAll_append] at hssts hlogs hvlogs
  rw [hdisk] at hssts hlogs hvlogs
  refine ht.vlogs ?_ hssts ?_ ?_
  · exact hlogs.symm ▸ SameBytes.sync _ _
  · cases renamed with
    | false =>
      refine .inl ?_
      rw [Disk.applyAll_append, hdisk]
      rfl
    | true =>
      refine .inr ⟨_, ?_, hnew.ascending, fun hoff => absurd (hon.symm.trans hoff) (by decide)⟩
      rw [Disk.applyAll_append]
      rfl
  · refine ht.gens.frame rfl rfl rfl le_rfl
      (fun hoff => absurd (hon.symm.trans hoff) (by decide)) (fun n _ hk => ?_) trivial
    exact (congrArg (fun m => n ∈ Keyed.keys m) hvlogs).mpr (hkeys ▸ hk)

/-- No flush fails to write its MANIFEST. -/
def Reliable (_ : DB) : Trial → Prop
  | .fail (.flushManifest _) => False
  | _ => True

theorem TrialOk.fail {fault : Fault} (hrel : s.Reliable (.fail fault))
    (hs : s.fail fault = some s') : s'.TrialOk := by
  cases fail_failed hs with
  | flushSst him hidle hnone => exact failFlushSst_trialOk ht him hidle hnone
  | flushManifest => exact hrel.elim
  | sealSst ssts left hx hssts => exact failSealSst_trialOk ht hx hssts
  | compactionManifest renamed hx hc => exact failCompactionManifest_trialOk ht renamed hx hc
  | gcManifest renamed hgc => exact failGcManifest_trialOk ht renamed hgc
  | retireManifest renamed hgc => exact failRetireManifest_trialOk ht renamed hgc

end

/-! ## Restarts -/

/-- The store that the MANIFEST describes, on the same directory. -/
def reduced (s : DB) (v : Version) : DB :=
  { s with
    core := { s.core with
      mem := MemTable.empty
      imm := none
      current := v
      snapshots := []
      flush := .idle
      compaction := none } }

theorem Published.reduced_lifeOk {v : Version} (hp : s.Published h v) (hi : s.core.Inv h)
    (hd : s.OnDisk) (hq : s.SeqsOk) : (s.reduced v).LifeOk := by
  have hpend : (s.reduced v).core.pending = [] := Lsm.pending_of_none rfl
  have hstored : (s.reduced v).core.stored = v.entries := by
    rw [Lsm.stored, hpend]
    rfl
  refine ⟨⟨v.entries, ⟨hp.ok, fun _ hx => absurd hx not_mem_nil, ?_,
    hi.contents.distinct.mono hp.sub,
    hi.contents.seq_pos, fun e he => hi.contents.seq_lt e (hp.sub e he), fun e he => hstored ▸ he,
    fun _ hx => absurd hx not_mem_nil, fun S _ k r => hstored ▸ Iff.rfl⟩,
    ⟨?_, fun n hn => hp.lt n ?_, hp.descending, fun _ _ _ hx => absurd hx not_mem_nil⟩, trivial,
    trivial, ⟨fun _ => rfl, fun _ => rfl⟩⟩, ⟨hp.names, ⟨hp.metaOk, fun _ _ _ _ hc => (by cases hc),
    hd.metaInv.next, fun hne => absurd rfl hne⟩, ⟨fun t htab => (by cases htab),
    fun _ hx => absurd hx not_mem_nil⟩⟩, ?_⟩
  · rw [hpend]
    exact fun _ hx => absurd hx not_mem_nil
  · change (v.numbers ++ ([] ++ [])).Nodup
    simpa using hp.numbers
  · simpa using (show n ∈ v.numbers ++ ([] ++ []) from hn)
  · refine ⟨hq.ascending, hq.log, hq.last, hq.log_lt, hq.floor_le, fun hne => absurd rfl hne,
      hq.clean,
      hq.sorted, hq.lt, hp.above, ?_⟩
    rw [hpend]
    exact fun _ hx => absurd hx not_mem_nil

/-- **The directory can be opened**, and its MANIFEST is accepted. -/
theorem TrialOk.opens (ht : s.TrialOk) : s.disk.manifestState.Valid ∧
    ∃ r, openDb s.opt s.disk = .ok r := by
  obtain ⟨h, v, hi, hp⟩ := ht.published
  have hl := hp.reduced_lifeOk hi ht.onDisk ht.seqs
  obtain ⟨h', hi'⟩ := hl.inv
  obtain ⟨r, hopen, -⟩ := @openDb_ok v s.opt s.disk hp.names hp.vlogs
    (fun hoff => ⟨(ht.gens.off hoff).2.1, hp.off hoff⟩) (hl.seqs.recoverable hi' hl.files)
  obtain ⟨refs, hvalid, -⟩ := openDb_eq_ok.mp hopen
  exact ⟨hvalid, r, hopen⟩

theorem TrialOk.reopen (ht : s.TrialOk) {opt : Options} {r : DB}
    (hopen : openDb opt s.disk = .ok r) : r.TrialOk := by
  obtain ⟨h, v, hi, hp⟩ := ht.published
  have hl : r.LifeOk := (hp.reduced_lifeOk hi ht.onDisk ht.seqs).reopen hopen
  obtain ⟨h', hi'⟩ := hl.inv
  obtain ⟨refs, hvalid, -, hoff, rfl⟩ := openDb_eq_ok.mp hopen
  exact ⟨⟨h', _, hi', published_current hi' hl.files.onDisk hl.seqs hl.files.names.files hvalid.2.2
    fun hf => (hoff hf).2⟩, hl.files.onDisk, hl.seqs, opened_gensOk hvalid.2.2⟩

/-! ## The run -/

theorem run_trialOk {opt : Options} {tr : List Trial}
    (hmeets : Machine.Meets stepTrial Reliable (fresh opt) tr)
    (hrun : Machine.run stepTrial (fresh opt) tr = some s) : s.TrialOk := by
  refine Machine.meets_invariant (fun _ s => s.TrialOk) (fresh_trialOk opt) ?_ hmeets hrun
  intro tr s ev s' ht hrel hs
  rcases ev with (op | opt') | fault
  · simp only [stepTrial, stepLife] at hs
    split at hs
    · next hseq => exact ht.step hseq hs
    · cases hs
  · exact ht.reopen (eq_ok_of_toOption hs)
  · exact ht.fail hrel hs

theorem published_manifest {op : Op} (hs : s.step op = some s') {m : Manifest}
    (hm : .publish m ∈ s.effects op) : s'.disk.manifest = some m ∧ m = s'.manifest := by
  have hwrite : ∀ (t : DB) (type : ValueType) (key value : Bytes),
      .publish m ∉ t.writeEffects type key value := by
    intro t type key value
    unfold writeEffects appendEffects syncEffects
    cases t.separates type value <;> cases t.syncNeeded type key value <;>
      cases t.opt.enableValueSeparation <;> simp
  have hroom : .publish m ∉ s.makeRoomEffects := by
    unfold makeRoomEffects rotateEffects
    split <;> simp
  have hn := step_next hs
  generalize s.effects op = fx at hn hm
  cases hn with
  | put | delete => exact absurd hm (by simp [hwrite, hroom])
  | gcRewrite => exact absurd hm (hwrite _ _ _ _)
  | flushInstall | gcStart =>
    obtain rfl : m = _ := by simpa using hm
    exact ⟨rfl, rfl⟩
  | installCompaction =>
    obtain rfl : m = _ := by simpa using hm
    exact ⟨(unlinkSsts_frame _ _).2.2, rfl⟩
  | @gcRetire _ rewritten retired =>
    obtain rfl : m = (s.gcDropped retired rewritten).manifest := by
      rcases mem_append.mp hm with hm | hm
      · unfold syncEffects at hm
        cases s.opt.enableValueSeparation <;> simp at hm
      · simpa using hm
    refine ⟨?_, rfl⟩
    unfold perform
    rw [Disk.applyAll_append]
    rfl
  | _ => simp [rotateEffects, tableEffects] at hm

/-- **Every published MANIFEST is a good one**, in a run whose flushes write
their MANIFESTs: `ParseManifest` accepts it, it names every live table once,
and `Open` succeeds on what it leaves.  The directory can be opened at every
other point as well, whatever has failed. -/
theorem run_published {opt : Options} {tr : List Trial}
    (hmeets : Machine.Meets stepTrial Reliable (fresh opt) tr)
    (hrun : Machine.run stepTrial (fresh opt) tr = some s) :
    (s.disk.manifestState.Valid ∧ ∃ r, openDb s.opt s.disk = .ok r) ∧
    ∀ op s' m, s.stepLife (.op op) = some s' → .publish m ∈ s.effects op →
      s'.disk.manifest = some m ∧ m.Valid ∧
      (∀ t ∈ s'.core.current.tables, (m.files.map FileMeta.fileNumber).count t.number = 1) ∧
      ∃ r, openDb s'.opt s'.disk = .ok r := by
  have ht := run_trialOk hmeets hrun
  refine ⟨ht.opens, fun op s' m hs hm => ?_⟩
  simp only [stepLife] at hs
  split at hs
  · next hseq =>
      have ht' := ht.step hseq hs
      obtain ⟨hman, rfl⟩ := published_manifest hs hm
      obtain ⟨hvalid, hopen⟩ := ht'.opens
      have hms : s'.disk.manifestState = s'.manifest := by rw [Disk.manifestState, hman]; rfl
      rw [hms] at hvalid
      refine ⟨hman, hvalid, fun t htab => ?_, hopen⟩
      have hnd : (s'.manifest.files.map FileMeta.fileNumber).Nodup :=
        (List.pairwise_cons.mp hvalid.1).2.imp ne_of_lt
      refine List.count_eq_one_of_mem hnd ?_
      change t.number ∈ ((sortByNumber s'.core.current.tables).map TableRef.fileMeta).map _
      rw [List.map_map]
      exact List.mem_map_of_mem ((perm_sortByNumber _).mem_iff.mpr htab)
  · cases hs

/-- A table that cannot be written the first time, then one that can. -/
def sampleTrial : List Trial :=
  [.life (.op (.put [1] [10])), .life (.op .rotate), .fail .flushSst, .life (.op .flushBuild)]

theorem run_published_sampleTrial :
    ∃ s s', Machine.run stepTrial (fresh Lsm.smallOptions) sampleTrial = some s ∧
      s.stepLife (.op .flushInstall) = some s' ∧ ∃ m, .publish m ∈ s.effects .flushInstall ∧
      s'.disk.manifest = some m ∧ m.Valid ∧
      (∀ t ∈ s'.core.current.tables, (m.files.map FileMeta.fileNumber).count t.number = 1) ∧
      ∃ r, openDb s'.opt s'.disk = .ok r := by
  have hsome : ((Machine.run stepTrial (fresh Lsm.smallOptions) sampleTrial).map
      fun s => (decide (s.core.nextSeq < 2 ^ 64), s.core.flushInstall.isSome)) =
      some (true, true) := by
    decide +kernel
  have hmeets : Machine.Meets stepTrial Reliable (fresh Lsm.smallOptions) sampleTrial :=
    ⟨trivial, fun _ _ => ⟨trivial, fun _ _ => ⟨trivial, fun _ _ => ⟨trivial, fun _ _ => trivial⟩⟩⟩⟩
  obtain ⟨s, hs, hobs⟩ := Option.map_eq_some_iff.mp hsome
  obtain ⟨hseq, hins⟩ := Prod.mk.inj hobs
  obtain ⟨c, hc⟩ := Option.isSome_iff_exists.mp hins
  have heffects : s.effects .flushInstall = [.publish (s.installed c).manifest] := by
    simp only [effects, flushInstallEffects, hc]
  have hstep : s.stepLife (.op .flushInstall) =
      some { s.perform [.publish (s.installed c).manifest] with core := c } := by
    rw [stepLife, if_pos (of_decide_eq_true hseq)]
    simp only [step, flushInstall, flushInstallEffects, hc, Option.map_some]
  have hmem : .publish (s.installed c).manifest ∈ s.effects .flushInstall := by simp [heffects]
  exact ⟨s, _, hs, hstep, _, hmem, (run_published hmeets hs).2 _ _ _ hstep hmem⟩

/-- **A flush is tried again** after its MANIFEST could not be written, and
what it publishes then names its table twice. -/
theorem run_published_twice :
    ∃ s s', Machine.run stepTrial (fresh Lsm.smallOptions)
        [.life (.op (.put [1] [10])), .life (.op .rotate), .life (.op .flushBuild),
          .fail (.flushManifest false), .life (.op .flushBuild)] = some s ∧
      s.step .flushInstall = some s' ∧
      s'.disk.manifestState.files.map FileMeta.fileNumber = [3, 3] ∧
      openDb s'.opt s'.disk = .error manifestCorrupt := by
  have hobs : (Machine.run stepTrial (fresh Lsm.smallOptions)
        [.life (.op (.put [1] [10])), .life (.op .rotate), .life (.op .flushBuild),
          .fail (.flushManifest false), .life (.op .flushBuild)]).bind (fun s =>
      (s.step .flushInstall).map fun s' =>
        s'.disk.manifestState.files.map FileMeta.fileNumber) = some [3, 3] := by
    decide +kernel
  obtain ⟨s, hs, hstep⟩ := Option.bind_eq_some_iff.mp hobs
  obtain ⟨s', hs', hnums⟩ := Option.map_eq_some_iff.mp hstep
  refine ⟨s, s', hs, hs', hnums, ?_⟩
  have hbad : ¬ s'.disk.manifestState.Valid := by
    intro hvalid
    have hasc := hvalid.1
    rw [hnums] at hasc
    exact absurd hasc (by decide)
  rw [openDb, if_pos hbad]

/-! ## Failures and readers -/

end DB

end BedrockKV
