/-
# `BedrockKV.DbStep` — what a step of the database can do

`Next s op s'` lists, once, the ways a step can go, each with the state it
ends in and the facts its guards leave behind; `step_next` derives it from the
functions of `BedrockKV.Db`, and nothing after this module unfolds them.

The first use is the refinement: the memory of the database moves only by
steps of `BedrockKV.Lsm`, by a write of the garbage collector, or by taking a
file number, so it keeps the invariant of the store (`step_core`).
-/
import BedrockKV.LsmRun
import BedrockKV.Open

namespace BedrockKV

open List MultiVersion

namespace DB

/-- Every way a step can go, with the effects it has. -/
inductive Next (s : DB) : Op → List Effect → DB → Prop where
  | put {key value : Bytes} : s.core.imm = none →
      Next s (.put key value) (s.makeRoomEffects ++ s.makeRoom.writeEffects .value key value)
        (s.makeRoom.writeEntry .value key value)
  | delete {key : Bytes} : s.core.imm = none →
      Next s (.delete key) (s.makeRoomEffects ++ s.makeRoom.writeEffects .deletion key [])
        (s.makeRoom.writeEntry .deletion key [])
  | rotate : s.core.imm = none → Next s .rotate s.rotateEffects s.rotateForFlush
  | flushBuilt {m : MemTable} {t : Table} : s.flushEnabled = true → s.core.imm = some m →
      s.core.flush = .idle → s.core.compaction = none → t.entries = m.entries →
      s.core.flushBuild = some { s.core with flush := .built t } →
      Next s .flushBuild (tableEffects s.core.immSstNumber t)
        { s.perform (tableEffects s.core.immSstNumber t) with
          core := { s.core with flush := .built t } }
  | flushFailed : s.flushEnabled = true → s.core.flush = .idle →
      Next s .flushBuild [] { s with gc := .idle }
  | flushInstall {c : Lsm} : s.core.flushInstall = some c →
      Next s .flushInstall [.publish (s.installed c).manifest]
        { s.perform [.publish (s.installed c).manifest] with core := c }
  | flushDone : s.core.flush = .installed →
      Next s .flushDone [.unlinkLog s.immLogNumber]
        { s.perform [.unlinkLog s.immLogNumber] with
          core := { s.core with imm := none, flush := .idle }
          gc := GcStage.drained s.gc }
  | pick {c : Lsm} : s.gc = .idle → s.core.pick = some c → Next s .pick [] { s with core := c }
  | captureFloor {c : Lsm} : s.core.captureFloor = some c →
      Next s .captureFloor [] { s with core := c }
  | sealOutput {c : Lsm} {x : Compaction} {floor : ReadSeq} {t : Table} {todo : List Table}
      {outputs : List TableRef} : s.core.compaction = some (x, .merging floor (t :: todo) outputs) →
      s.core.sealOutput = some c →
      Next s .sealOutput (tableEffects s.core.nextFileNumber t)
        { s.perform (tableEffects s.core.nextFileNumber t) with core := c }
  | installCompaction {c : Lsm} {x : Compaction} {floor : ReadSeq} {outputs : List TableRef} :
      s.core.compaction = some (x, .merging floor [] outputs) →
      s.core.installCompaction = some c →
      Next s .installCompaction
        (.publish (s.installed c).manifest :: x.inputs.map fun r => .unlinkSst r.number)
        { s.perform (.publish (s.installed c).manifest ::
          x.inputs.map fun r => .unlinkSst r.number) with core := c }
  | getSnapshot : Next s .getSnapshot [] s.getSnapshot
  | releaseSnapshot {handle : Nat} :
      Next s (.releaseSnapshot handle) [] (s.releaseSnapshot handle)
  | gcCheck : s.gc = .idle → s.core.imm = none → s.core.flush = .idle →
      s.core.compaction = none → s.vlogGcNeeded = true →
      Next s .gcCheck [] { s with gc := .triggered }
  | gcStart : s.gc = .triggered → s.core.snapshots = [] →
      Next s .gcStart [.createVlog s.core.nextFileNumber, .publish s.gcSwitch.manifest]
        (s.gcSwitch.perform [.createVlog s.core.nextFileNumber, .publish s.gcSwitch.manifest])
  | gcDefer : s.gc = .triggered → Next s .gcStart [] { s with gc := .idle }
  | gcRewrite {fresh rewritten : Nat} {retired : List Nat} {x : GcItem} {todo : List GcItem} :
      s.gc = .scanning fresh retired (x :: todo) rewritten false → s.isLive x = true →
      Next s .gcEntry (s.writeEffects .value x.entry.key x.entry.value)
        { s.writeEntry .value x.entry.key x.entry.value with
          gc := .scanning fresh retired todo (rewritten + x.entry.value.length) true }
  | gcDead {fresh rewritten : Nat} {retired : List Nat} {x : GcItem} {todo : List GcItem} :
      s.gc = .scanning fresh retired (x :: todo) rewritten false → s.isLive x = false →
      Next s .gcEntry [] { s with gc := .scanning fresh retired todo rewritten false }
  | gcDrain {fresh rewritten : Nat} {retired : List Nat} {todo : List GcItem} :
      s.gc = .scanning fresh retired todo rewritten true → s.core.imm = none →
      Next s .gcDrain [] { s with gc := .scanning fresh retired todo rewritten false }
  | gcRetire {fresh rewritten : Nat} {retired : List Nat} :
      s.gc = .scanning fresh retired [] rewritten false → s.core.snapshots = [] →
      Next s .gcRetire
        (s.syncEffects ++ [.publish (s.gcDropped retired rewritten).manifest])
        ((s.gcDropped retired rewritten).perform
          (s.syncEffects ++ [.publish (s.gcDropped retired rewritten).manifest]))
  | gcAbort {fresh rewritten : Nat} {retired : List Nat} :
      s.gc = .scanning fresh retired [] rewritten false →
      Next s .gcRetire [] { s with gc := .idle }
  | gcUnlink {retired : List Nat} : s.gc = .retiring retired →
      Next s .gcUnlink (retired.map .unlinkVlog)
        { s.perform (retired.map .unlinkVlog) with gc := .idle }

variable {s s' : DB}

theorem write_next {type : ValueType} {key value : Bytes} (h : s.write type key value = some s') :
    s.core.imm = none ∧ s' = s.makeRoom.writeEntry type key value := by
  unfold write at h
  split at h
  · cases h
  · next him => exact ⟨him, (Option.some.inj h).symm⟩

theorem flushBuild_next (h : s.flushBuild = some s') :
    Next s .flushBuild s.flushBuildEffects s' := by
  unfold flushBuild at h
  split at h
  · next hen =>
    obtain ⟨c, hc, rfl⟩ := Option.map_eq_some_iff.mp h
    have hidle : s.core.flush = .idle := by
      unfold Lsm.flushBuild at hc
      split at hc
      · next hidle _ => exact hidle
      · cases hc
    rcases Lsm.flushBuild_cases hc with rfl | ⟨m, t, him, -, hnone, ht, rfl⟩
    · have hfx : s.flushBuildEffects = [] := by simp [flushBuildEffects, hc, hidle]
      rw [hfx]
      simp only [hidle]
      exact .flushFailed hen hidle
    · have hfx : s.flushBuildEffects = tableEffects s.core.immSstNumber t := by
        simp [flushBuildEffects, hc]
      rw [hfx]
      exact .flushBuilt hen him hidle hnone ht hc
  · cases h

theorem gc_next {op : Op} (h : s.step op = some s')
    (hop : op ∈ [Op.gcCheck, .gcStart, .gcEntry, .gcDrain, .gcRetire, .gcUnlink]) :
    Next s op (s.effects op) s' := by
  simp only [List.mem_cons, List.not_mem_nil, or_false] at hop
  rcases hop with rfl | rfl | rfl | rfl | rfl | rfl
  · simp only [step, gcCheck] at h
    split at h
    · next hgc him hfl hco =>
      split at h
      · next hneed =>
        cases h
        exact .gcCheck hgc him hfl hco (Bool.and_eq_true_iff.mp hneed).2
      · cases h
    · cases h
  · simp only [step, gcStart] at h
    split at h
    · next hgc =>
      split at h
      · next hsn =>
        cases h
        simp only [effects, gcStartEffects, if_pos hsn]
        exact .gcStart hgc hsn
      · next hsn =>
        cases h
        simp only [effects, gcStartEffects, if_neg hsn]
        exact .gcDefer hgc
    · cases h
  · simp only [step, gcEntry] at h
    split at h
    · next hgc =>
      split at h
      · next hlive =>
        cases h
        simp only [effects, gcEntryEffects, hgc, if_pos hlive]
        exact .gcRewrite hgc hlive
      · next hdead =>
        cases h
        simp only [effects, gcEntryEffects, hgc, if_neg hdead]
        exact .gcDead hgc (by simpa using hdead)
    · cases h
  · simp only [step, gcDrain] at h
    split at h
    · next hgc him =>
      cases h
      exact .gcDrain hgc him
    · cases h
  · simp only [step, gcRetire] at h
    split at h
    · next hgc =>
      split at h
      · next hsn =>
        cases h
        simp only [effects, gcRetireEffects, hgc, if_pos hsn]
        exact .gcRetire hgc hsn
      · next hsn =>
        cases h
        simp only [effects, gcRetireEffects, hgc, if_neg hsn]
        exact .gcAbort hgc
    · cases h
  · simp only [step, gcUnlink] at h
    split at h
    · next hgc =>
      cases h
      simp only [effects, gcUnlinkEffects, hgc]
      exact .gcUnlink hgc
    · cases h

/-- **The ways of a step are all of them.** -/
theorem step_next {op : Op} (h : s.step op = some s') : Next s op (s.effects op) s' := by
  cases op with
  | put key value =>
    obtain ⟨him, rfl⟩ := write_next h
    exact .put him
  | delete key =>
    obtain ⟨him, rfl⟩ := write_next h
    exact .delete him
  | rotate =>
    simp only [step, rotate] at h
    split at h
    · cases h
    · next him =>
      cases h
      exact .rotate him
  | flushBuild => exact flushBuild_next h
  | flushInstall =>
    obtain ⟨c, hc, rfl⟩ := Option.map_eq_some_iff.mp h
    simp only [effects, flushInstallEffects, hc]
    exact .flushInstall hc
  | flushDone =>
    obtain ⟨c, hc, rfl⟩ := Option.map_eq_some_iff.mp h
    unfold Lsm.flushDone at hc
    split at hc
    · next hinst =>
      cases hc
      exact .flushDone hinst
    · cases hc
  | pick =>
    simp only [step, pick] at h
    split at h
    · next hgc =>
      obtain ⟨c, hc, rfl⟩ := Option.map_eq_some_iff.mp h
      exact .pick hgc hc
    · cases h
  | captureFloor =>
    obtain ⟨c, hc, rfl⟩ := Option.map_eq_some_iff.mp h
    exact .captureFloor hc
  | sealOutput =>
    obtain ⟨c, hc, rfl⟩ := Option.map_eq_some_iff.mp h
    obtain ⟨x, floor, t, todo, outputs, hx, -⟩ := Lsm.sealOutput_cases hc
    simp only [effects, sealEffects, hx]
    exact .sealOutput hx hc
  | installCompaction =>
    obtain ⟨c, hc, rfl⟩ := Option.map_eq_some_iff.mp h
    obtain ⟨x, floor, outputs, hx, -⟩ := Lsm.installCompaction_cases hc
    simp only [effects, installCompactionEffects, hx, hc]
    exact .installCompaction hx hc
  | getSnapshot =>
    cases h
    exact .getSnapshot
  | releaseSnapshot handle =>
    cases h
    exact .releaseSnapshot
  | gcCheck | gcStart | gcEntry | gcDrain | gcRetire | gcUnlink => exact gc_next h (by simp)

theorem step_cases {op : Op} (h : s.step op = some s') : ∃ fx, Next s op fx s' := ⟨_, step_next h⟩

/-! ## Effects -/

theorem makeRoom_disk (s : DB) : s.makeRoom.disk = s.disk.applyAll s.makeRoomEffects := by
  unfold makeRoom makeRoomEffects
  split <;> rfl

theorem step_disk {op : Op} (h : s.step op = some s') :
    s'.disk = s.disk.applyAll (s.effects op) := by
  have hwrite : ∀ {type key value}, (s.makeRoom.writeEntry type key value).disk =
      s.disk.applyAll (s.makeRoomEffects ++ s.makeRoom.writeEffects type key value) := by
    intro type key value
    rw [Disk.applyAll_append, ← makeRoom_disk]
    rfl
  have hn := step_next h
  generalize s.effects op = fx at hn
  cases hn with
  | put | delete => exact hwrite
  | _ => rfl

/-! ## The memory of the database -/

/-- How the store in memory can move, and the versions this writes. -/
inductive CoreStep (c : Lsm) : Lsm → List Entry → Prop where
  | step (op : Lsm.Op) {c' : Lsm} : c.step op = some c' → CoreStep c c' (c.written op)
  | rewrite (key stored : Bytes) : CoreStep c (c.writeEntry .value key stored)
      [⟨key, c.nextSeq, .value, stored⟩]
  | takeNumber : CoreStep c { c with nextFileNumber := c.nextFileNumber + 1 } []
  | stay : CoreStep c c []

theorem CoreStep.inv {c c' : Lsm} {es h : List Entry} (hs : CoreStep c c' es) (hi : c.Inv h) :
    c'.Inv (h ++ es) := by
  cases hs with
  | step op hop => exact Lsm.step_inv hi hop
  | rewrite key stored => exact Lsm.writeEntry_inv hi .value key stored
  | takeNumber =>
    rw [List.append_nil]
    refine ⟨hi.contents.congr rfl rfl rfl rfl rfl, ?_, hi.flush, hi.compact,
      ⟨hi.sequential.one, hi.sequential.flushing⟩⟩
    have hn := hi.numbers
    exact ⟨hn.nodup, fun n hm => Nat.lt_succ_of_lt (hn.lt n hm), hn.l0_descending, hn.l0_lt⟩
  | stay => rwa [List.append_nil]

/-- Making room moves no value log, so the slot is the one decided before. -/
theorem makeRoom_slot (s : DB) (type : ValueType) (value : Bytes) :
    s.makeRoom.slot type value = s.slot type value := by
  unfold makeRoom
  split <;> rfl

theorem makeRoom_core (s : DB) :
    s.makeRoom.core = if s.core.full then s.core.rotateForFlush else s.core := by
  unfold makeRoom
  split <;> rfl

theorem write_core (him : s.core.imm = none) (type : ValueType) (key value : Bytes) :
    s.core.write type key (s.slot type value) =
      some (s.makeRoom.writeEntry type key value).core := by
  unfold Lsm.write
  rw [him]
  change some _ = some (s.makeRoom.core.writeEntry type key (s.makeRoom.slot type value))
  rw [makeRoom_core, makeRoom_slot]

/-- The versions a step writes, those of the garbage collector included. -/
def written (s : DB) : Op → List Entry
  | .put key value => [s.record .value key value]
  | .delete key => [s.record .deletion key []]
  | .gcEntry =>
    match s.gc with
    | .scanning _ _ (x :: _) _ false =>
      if s.isLive x then [s.record .value x.entry.key x.entry.value] else []
    | _ => []
  | _ => []

theorem written_cases (s : DB) (op : Op) :
    s.written op = [] ∨ ∃ e, s.written op = [e] ∧ e.seq = s.core.nextSeq := by
  cases op with
  | put key value | delete key => exact .inr ⟨_, rfl, rfl⟩
  | gcEntry =>
    simp only [written]
    split
    · split
      · exact .inr ⟨_, rfl, rfl⟩
      · exact .inl rfl
    · exact .inl rfl
  | _ => exact .inl rfl

theorem slot_deletion (s : DB) (value : Bytes) : s.slot .deletion value = value := by
  simp [slot, separates]

/-- **The database's memory refines the store.** -/
theorem step_core {op : Op} (h : s.step op = some s') :
    CoreStep s.core s'.core (s.written op) := by
  obtain ⟨_, hn⟩ := step_cases h
  cases hn with
  | @put key value him =>
    exact .step (.put key (s.slot .value value)) (write_core him .value key value)
  | @delete key him =>
    have hd := write_core him .deletion key []
    rw [slot_deletion] at hd
    rw [written, record, slot_deletion]
    exact .step (.delete key) hd
  | rotate him =>
    refine .step .rotate ?_
    simp only [Lsm.step, Lsm.rotate, him]
    rfl
  | flushBuilt _ _ _ _ _ hc => exact .step .flushBuild hc
  | flushFailed | gcCheck | gcDefer | gcDrain | gcRetire | gcAbort | gcUnlink => exact .stay
  | flushInstall hc => exact .step .flushInstall hc
  | flushDone hinst =>
    refine .step .flushDone ?_
    simp only [Lsm.step, Lsm.flushDone, hinst]
  | pick _ hc => exact .step .pick hc
  | captureFloor hc => exact .step .captureFloor hc
  | sealOutput _ hc => exact .step .sealOutput hc
  | installCompaction _ hc => exact .step .installCompaction hc
  | getSnapshot => exact .step .getSnapshot rfl
  | @releaseSnapshot handle => exact .step (.releaseSnapshot handle) rfl
  | gcStart => exact .takeNumber
  | @gcRewrite fresh rewritten retired x todo hgc hlive =>
    simp only [written, hgc, hlive, if_true]
    exact .rewrite x.entry.key _
  | gcDead hgc hdead =>
    simp only [written, hgc, hdead]
    exact .stay

/-- The step freezes the memtable in use: `RotateForFlush`, by itself or to make room. -/
def rotates (s : DB) : Op → Bool
  | .put _ _ | .delete _ => s.core.full
  | .rotate => true
  | _ => false

/-- What a step does to the parts of the memory.  Versions move from the memtable to the pending
one and from there to the tables, and only the install of a compaction drops any. -/
structure Frame (s : DB) (op : Op) (s' : DB) : Prop where
  opt : s'.opt = s.opt
  snapshots : op = .getSnapshot ∨ (∀ sn ∈ s'.core.snapshots, sn ∈ s.core.snapshots) ∧
    s'.core.nextHandle = s.core.nextHandle
  mem : s.rotates op = true ∨
    (s.written op = [] ∧ s'.core.mem = s.core.mem ∧ s'.core.nextSeq = s.core.nextSeq) ∨
    ∃ type key stored, s.written op = [⟨key, s.core.nextSeq, type, stored⟩] ∧
      s'.core.mem = (s.core.writeEntry type key stored).mem ∧ s'.core.nextSeq = s.core.nextSeq + 1
  pending : ∀ e ∈ s'.core.pending,
    e ∈ s.core.pending ∨ s.rotates op = true ∧ e ∈ s.core.mem.entries
  tables : ∀ e ∈ s'.core.current.entries, e ∈ s.core.pending ++ s.core.current.entries
  stored : op ≠ .installCompaction → ∀ e, e ∈ s.core.stored ∨ e ∈ s.written op → e ∈ s'.core.stored

section Frame

variable {h : List Entry} {op : Op}

theorem Frame.quiet (hw : s.written op = []) (hopt : s'.core.opt = s.core.opt)
    (hsn : s'.core.snapshots = s.core.snapshots) (hnext : s'.core.nextHandle = s.core.nextHandle)
    (hmem : s'.core.mem = s.core.mem) (hseq : s'.core.nextSeq = s.core.nextSeq)
    (hpend : ∀ e ∈ s'.core.pending, e ∈ s.core.pending)
    (htab : ∀ e ∈ s'.core.current.entries, e ∈ s.core.pending ++ s.core.current.entries)
    (hstored : op ≠ .installCompaction → s'.core.stored = s.core.stored) : Frame s op s' := by
  refine ⟨hopt, .inr ⟨fun sn h => hsn ▸ h, hnext⟩, .inr (.inl ⟨hw, hmem, hseq⟩),
    fun e he => .inl (hpend e he), htab, fun hop e he => ?_⟩
  rw [hstored hop]
  exact he.resolve_right (hw ▸ not_mem_nil)

variable (hi : s.core.Inv h)
include hi

theorem writeEntry_frame {type : ValueType} {key value : Bytes}
    (hw : s.written op = [s.record type key value])
    (hc : s'.core = (s.writeEntry type key value).core) : Frame s op s' := by
  refine ⟨(congrArg Lsm.opt hc :), ?_, ?_, ?_, ?_, ?_⟩ <;> rw [hc]
  · exact .inr ⟨fun _ h => h, rfl⟩
  · exact .inr (.inr ⟨_, _, _, hw, rfl, rfl⟩)
  · exact fun e he => .inl he
  · exact fun e he => mem_append_right _ he
  · refine fun _ e he => (Lsm.mem_stored_writeEntry hi e).mpr (he.symm.imp_left fun he => ?_)
    exact mem_singleton.mp (hw ▸ he)

/-- A write that starts with a rotation. -/
theorem rotated_frame (him : s.core.imm = none) {type : ValueType} {key value : Bytes}
    (hrot : s.rotates op = true) (hw : s.written op = [s.record type key value]) :
    Frame s op (s.rotateForFlush.writeEntry type key value) := by
  have hi' := Lsm.rotateForFlush_inv hi him
  refine ⟨rfl, .inr ⟨fun _ h => h, rfl⟩, .inl hrot, fun e he => .inr ⟨hrot, ?_⟩,
    fun e he => mem_append_right _ he, fun _ e he => (Lsm.mem_stored_writeEntry hi' e).mpr ?_⟩
  · exact Lsm.pending_rotateForFlush hi him ▸ he
  · rw [Lsm.stored_rotateForFlush hi him]
    refine he.symm.imp_left fun he => ?_
    rw [hw] at he
    exact mem_singleton.mp he

theorem put_frame (him : s.core.imm = none) {type : ValueType} {key value : Bytes}
    (hrot : s.rotates op = s.core.full) (hw : s.written op = [s.record type key value]) :
    Frame s op (s.makeRoom.writeEntry type key value) := by
  unfold makeRoom
  split
  · next hfull => exact rotated_frame hi him (hrot.trans hfull) hw
  · exact writeEntry_frame hi hw rfl

/-- **What every step does to the memory.** -/
theorem step_frame (hs : s.step op = some s') : Frame s op s' := by
  have hcur : ∀ e ∈ s.core.current.entries, e ∈ s.core.pending ++ s.core.current.entries :=
    fun _ he => mem_append_right _ he
  obtain ⟨_, hn⟩ := step_cases hs
  cases hn with
  | put him => exact put_frame hi him rfl rfl
  | delete him => exact put_frame hi him rfl rfl
  | rotate him =>
    refine ⟨rfl, .inr ⟨fun _ h => h, rfl⟩, .inl rfl, fun e he => .inr ⟨rfl, ?_⟩, hcur,
      fun _ e he => ?_⟩
    · exact Lsm.pending_rotateForFlush hi him ▸ he
    · exact (Lsm.stored_rotateForFlush hi him).symm ▸ he.resolve_right not_mem_nil
  | @flushBuilt m t _ him hidle =>
    have hpend : ({ s.core with flush := .built t } : Lsm).pending = s.core.pending := by
      simp [Lsm.pending, him, hidle]
    refine .quiet rfl rfl rfl rfl rfl rfl (fun _ he => hpend ▸ he) hcur fun _ => ?_
    exact congrArg (fun l => s.core.mem.entries ++ (l ++ s.core.current.entries)) hpend
  | flushInstall hc =>
    have hstored := Lsm.stored_flushInstall hi hc
    obtain ⟨t, hbuilt, rfl⟩ := Lsm.flushInstall_cases hc
    refine .quiet rfl rfl rfl rfl rfl rfl (fun _ he => absurd he not_mem_nil)
      (fun e he => ?_) fun _ => hstored
    rw [Lsm.pending_of_built hi hbuilt]
    exact he
  | flushDone hins =>
    exact .quiet rfl rfl rfl rfl rfl rfl (fun _ he => absurd he not_mem_nil) hcur fun _ => by
      simp [Lsm.stored, Lsm.pending, hins]
  | pick _ hc =>
    obtain ⟨x, -, -, -, -, rfl⟩ := Lsm.pick_cases hc
    exact .quiet rfl rfl rfl rfl rfl rfl (fun _ he => he) hcur fun _ => rfl
  | captureFloor hc =>
    obtain ⟨x, ts, -, -, rfl⟩ := Lsm.captureFloor_cases hi hc
    exact .quiet rfl rfl rfl rfl rfl rfl (fun _ he => he) hcur fun _ => rfl
  | sealOutput _ hc =>
    obtain ⟨x, floor, t, todo, outputs, -, rfl⟩ := Lsm.sealOutput_cases hc
    exact .quiet rfl rfl rfl rfl rfl rfl (fun _ he => he) hcur fun _ => rfl
  | installCompaction hx hc =>
    obtain rfl := Lsm.installCompaction_eq hx hc
    obtain ⟨hp, hm⟩ := hi.merged hx
    exact .quiet rfl rfl rfl rfl rfl rfl (fun _ he => he) (fun e he => mem_append_right _
      (Lsm.install_entries_sub hp (Lsm.current_nodup hi) hm.builtFrom he)) fun hop => absurd rfl hop
  | getSnapshot =>
    exact ⟨rfl, .inl rfl, .inr (.inl ⟨rfl, rfl, rfl⟩), fun _ he => .inl he, hcur,
      fun _ e he => he.resolve_right not_mem_nil⟩
  | releaseSnapshot =>
    exact ⟨rfl, .inr ⟨fun _ hsn => mem_of_mem_eraseP hsn, rfl⟩, .inr (.inl ⟨rfl, rfl, rfl⟩),
      fun _ he => .inl he, hcur, fun _ e he => he.resolve_right not_mem_nil⟩
  | gcRewrite hgc hlive => exact writeEntry_frame hi (by simp [written, hgc, hlive]) rfl
  | gcDead hgc hdead =>
    exact .quiet (by simp [written, hgc, hdead]) rfl rfl rfl rfl rfl
      (fun _ he => he) hcur fun _ => rfl
  | _ => exact .quiet rfl rfl rfl rfl rfl rfl (fun _ he => he) hcur fun _ => rfl

end Frame

theorem step_opt {h : List Entry} (hi : s.core.Inv h) {op : Op} (hs : s.step op = some s') :
    s'.opt = s.opt := (step_frame hi hs).opt

/-- Every version written in a run, in order. -/
def history (opt : Options) (tr : List Op) : List Entry :=
  Machine.emitted step written (fresh opt) tr

end DB

end BedrockKV
