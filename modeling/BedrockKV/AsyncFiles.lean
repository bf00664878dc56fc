/-
# `BedrockKV.AsyncFiles` — the two ways of writing the log leave the same files

The refinement map is `settled`: the logs as they will be when everything
pending has been carried out.  Whatever the kernel and the bookkeeping of the
ring do leaves it alone (`Stutters`), because pending writes never overlap;
queueing a record appends it there, as `AddRecord` appends it to the file.

`QueueWrite` gives the kernel the length of a record modulo `2 ^ 32`.  So a
record that long leaves a gap where the other path has bytes, and one of those
bytes is the type of a fragment, which is never zero.

    complete, flush, reap, …   stutters
    queueRecord / addRecord    write_record
    a whole run                logs_agree_iff
-/
import BedrockKV.AsyncWal
import BedrockKV.LogAppend
import BedrockKV.LsmRun

namespace BedrockKV

open List Keyed Log Extents

/-- What each log holds, and each value log. -/
def Disk.logDir (d : Disk) : Dir Nat UInt8 := fun n => (Keyed.get? d.logs n).map File.bytes
def Disk.vlogDir (d : Disk) : Dir Nat UInt8 := fun n => (Keyed.get? d.vlogs n).map File.bytes

/-- What a write asks of the kernel: its length is a `uint32_t`. -/
def Request.extent : Request → Option (Extent Nat UInt8)
  | .write log buf offset => some ⟨log, offset, buf.take (buf.length % 2 ^ 32)⟩
  | _ => none

def extents (l : List Sqe) : List (Extent Nat UInt8) := l.filterMap fun e => e.request.extent

@[simp] theorem extents_append (l l' : List Sqe) : extents (l ++ l') = extents l ++ extents l' :=
  filterMap_append

/-- A write that ended in full. -/
def Mark.Whole : Mark → Prop
  | .completed (.write _ buf _) res => res = (buf.length % 2 ^ 32 : Nat)
  | _ => True

instance : DecidablePred Mark.Whole
  | .completed (.write _ buf _) res => inferInstanceAs
      (Decidable (res = (buf.length % 2 ^ 32 : Nat)))
  | .completed (.fsyncLog _) _ => .isTrue trivial
  | .completed (.fsyncVlog _) _ => .isTrue trivial
  | .returned _ => .isTrue trivial
  | .durable => .isTrue trivial

abbrev Whole (h : List Mark) : Prop := ∀ m ∈ h, m.Whole

theorem Whole.prior {h h' : List Mark} (hw : Whole h') (hpre : h <+: h') : Whole h :=
  fun m hm => hw m (hpre.subset hm)

section Directories

variable {d : Disk} {n : Nat}

theorem logDir_write (log : Nat) (data : Bytes) (offset : Nat) :
    ({ d with logs := Keyed.modify d.logs log fun f => f.writeAt offset data } : Disk).logDir =
      pwrite 0 d.logDir ⟨log, offset, data⟩ := by
  funext n
  simp only [Disk.logDir, pwrite, get?_modify]
  split
  · rw [Option.map_map, Option.map_map]
    rfl
  · rfl

theorem logDir_append (log : Nat) (data : Bytes) (n : Nat) :
    (d.apply (.appendLog log data)).logDir n =
      if n = log then (d.logDir n).map (· ++ data) else d.logDir n := by
  simp only [Disk.logDir, Disk.apply, get?_modify]
  split
  · rw [Option.map_map, Option.map_map]
    rfl
  · rfl

theorem logDir_syncLog (log : Nat) : (d.apply (.syncLog log)).logDir = d.logDir := by
  funext n
  simp only [Disk.logDir, Disk.apply, get?_modify]
  split
  · rw [Option.map_map]
    rfl
  · rfl

theorem vlogDir_syncVlog (vlog : Nat) : (d.apply (.syncVlog vlog)).vlogDir = d.vlogDir := by
  funext n
  simp only [Disk.vlogDir, Disk.apply, get?_modify]
  split
  · rw [Option.map_map]
    rfl
  · rfl

theorem vlogDir_append (vlog : Nat) (data : Bytes) :
    (d.apply (.appendVlog vlog data)).vlogDir = fun n =>
      if n = vlog then (d.vlogDir n).map (· ++ data) else d.vlogDir n := by
  funext n
  simp only [Disk.vlogDir, Disk.apply, get?_modify]
  split
  · rw [Option.map_map, Option.map_map]
    rfl
  · rfl

theorem logDir_perform {q : Request} {res : Int} (hw : (Mark.completed q res).Whole) :
    (q.perform res d).logDir = q.extent.elim d.logDir (pwrite 0 d.logDir) := by
  cases q with
  | write log buf offset =>
    obtain rfl : res = (buf.length % 2 ^ 32 : Nat) := hw
    exact logDir_write log _ offset
  | fsyncLog log =>
    simp only [Request.perform, Request.extent]
    split
    · rfl
    · exact logDir_syncLog log
  | fsyncVlog vlog =>
    simp only [Request.perform, Request.extent]
    split <;> rfl

theorem vlogDir_perform (q : Request) (res : Int) : (q.perform res d).vlogDir = d.vlogDir := by
  cases q with
  | write log buf offset => rfl
  | fsyncLog log =>
    simp only [Request.perform]
    split <;> rfl
  | fsyncVlog vlog =>
    simp only [Request.perform]
    split
    · rfl
    · exact vlogDir_syncVlog vlog

end Directories

namespace AsyncDB

/-- The logs when everything pending has been carried out. -/
def settled (s : AsyncDB) : Dir Nat UInt8 := settle 0 s.db.disk.logDir (extents s.ring.pending)

/-- The counters are right, and what is pending lies apart, in the current log,
below `wal_size_`. -/
structure PendingOk (s : AsyncDB) : Prop where
  counted : s.ring.Counted
  below : ∀ x ∈ extents s.ring.pending, x.file = s.db.logNumber ∧ x.last ≤ s.walSize
  apart : (extents s.ring.pending).Pairwise Extent.Apart

/-- Kernel and ring have moved; nothing a reader of the source would call a
write or a rotation has happened. -/
structure Stutters (s s' : AsyncDB) : Prop where
  core : s'.db.core = s.db.core
  logNumber : s'.db.logNumber = s.db.logNumber
  vlogCurrent : s'.db.vlogCurrent = s.db.vlogCurrent
  vlogDir : s'.db.disk.vlogDir = s.db.disk.vlogDir
  walSize : s'.walSize = s.walSize
  history : s.history <+: s'.history
  pending : s.PendingOk → s'.PendingOk
  settled : Whole s'.history → s.PendingOk → s'.settled = s.settled

variable {s s' m : AsyncDB} {e : WalError} {k : Schedule}

theorem Stutters.refl (s : AsyncDB) : Stutters s s :=
  ⟨rfl, rfl, rfl, rfl, rfl, prefix_rfl, id, fun _ _ => rfl⟩

theorem Stutters.trans (h : Stutters s m) (h' : Stutters m s') : Stutters s s' where
  core := h'.core.trans h.core
  logNumber := h'.logNumber.trans h.logNumber
  vlogCurrent := h'.vlogCurrent.trans h.vlogCurrent
  vlogDir := h'.vlogDir.trans h.vlogDir
  walSize := h'.walSize.trans h.walSize
  history := h.history.trans h'.history
  pending hp := h'.pending (h.pending hp)
  settled hw hp := (h'.settled hw (h.pending hp)).trans (h.settled (hw.prior h'.history) hp)

theorem done_stutters {l l' : List Sqe} {x : Sqe} {res : Int}
    (hl : s.ring.inFlight = l ++ x :: l') : Stutters s (s.done (l ++ l') x res) := by
  have hold : extents s.ring.pending =
      extents l ++ (x.request.extent.toList ++ (extents l' ++ extents s.ring.sq)) := by
    have hcons : extents (x :: l') = x.request.extent.toList ++ extents l' := by
      cases hx : x.request.extent <;> simp [extents, hx]
    simp only [Ring.pending, hl, extents_append, hcons, append_assoc]
  have hnew : extents (s.done (l ++ l') x res).ring.pending =
      extents l ++ (extents l' ++ extents s.ring.sq) := by
    simp only [Ring.pending, done, extents_append, append_assoc]
  have hsub : (extents (s.done (l ++ l') x res).ring.pending).Sublist (extents s.ring.pending) := by
    rw [hold, hnew]
    exact List.Sublist.append (List.Sublist.refl _) (sublist_append_right _ _)
  refine ⟨rfl, rfl, rfl, vlogDir_perform x.request res, rfl, prefix_append _ _, fun hp => ?_,
    fun hw hp => ?_⟩
  · exact ⟨counted_done hl hp.counted, fun y hy => hp.below y (hsub.subset hy),
      hp.apart.sublist hsub⟩
  · have hwhole : (Mark.completed x.request res).Whole :=
      hw _ (mem_append_right _ (mem_singleton.mpr rfl))
    have hdir : (s.done (l ++ l') x res).db.disk.logDir =
        x.request.extent.elim s.db.disk.logDir (pwrite 0 s.db.disk.logDir) := logDir_perform hwhole
    rw [AsyncDB.settled, AsyncDB.settled, hold, hnew, hdir]
    have hapart := hp.apart
    rw [hold] at hapart
    cases hx : x.request.extent with
    | none => rfl
    | some y =>
      rw [hx] at hapart
      refine settle_early fun v hv => ?_
      exact (pairwise_append.mp hapart).2.2 v hv y (by simp)

theorem Completes.stutters {arrivals : List (Nat × Completion)} {ds : List (Sqe × Int)}
    (h : Completes arrivals s ds s') : Stutters s s' := by
  induction h with
  | refl s => exact .refl s
  | step hl _ _ ih => exact (done_stutters hl).trans ih

theorem submitted_stutters (s : AsyncDB) :
    Stutters s { s with ring := s.ring.submitted } := by
  refine ⟨rfl, rfl, rfl, rfl, rfl, prefix_rfl, fun hp => ⟨hp.counted.submitted, ?_, ?_⟩,
    fun _ _ => ?_⟩
  · simpa using hp.below
  · simpa using hp.apart
  · simp [AsyncDB.settled]

theorem flush_stutters {waitAll : Bool} {k : Enter} (h : s.flush waitAll k = .ok s') :
    Stutters s s' := by
  rcases flush_ok h with ⟨rfl, -⟩ | ⟨ds, hds, -⟩
  · exact .refl _
  · exact (submitted_stutters s).trans hds.stutters

theorem reap_stutters (s : AsyncDB) : Stutters s s.reap := by
  exact ⟨rfl, rfl, rfl, rfl, rfl, prefix_rfl,
    fun hp => ⟨hp.counted.reaped, hp.below, hp.apart⟩, fun _ _ => rfl⟩

theorem stutters_of_ring_eq (hdb : s'.db = s.db) (hring : s'.ring = s.ring)
    (hsize : s'.walSize = s.walSize) (hhist : s.history <+: s'.history) : Stutters s s' := by
  refine ⟨by rw [hdb], by rw [hdb], by rw [hdb], by rw [hdb], hsize, hhist, fun hp => ?_,
    fun _ _ => ?_⟩
  · refine ⟨hring ▸ hp.counted, ?_, hring ▸ hp.apart⟩
    rw [hring, hdb, hsize]
    exact hp.below
  · rw [AsyncDB.settled, AsyncDB.settled, hdb, hring]

theorem forget_stutters (s : AsyncDB) : Stutters s s.forget :=
  stutters_of_ring_eq rfl rfl rfl prefix_rfl

theorem stash_stutters (s : AsyncDB) : Stutters s s.stash :=
  (forget_stutters s).trans
    ((reap_stutters s.forget).trans (stutters_of_ring_eq rfl rfl rfl prefix_rfl))

theorem forget_reap_stutters (s : AsyncDB) : Stutters s s.forget.reap :=
  (forget_stutters s).trans (reap_stutters s.forget)

theorem note_stutters (s : AsyncDB) (x : Mark) : Stutters s (s.note x) :=
  stutters_of_ring_eq rfl rfl rfl (prefix_append _ _)

theorem drainWalRing_stutters (s : AsyncDB) (k : Enter) : Stutters s (s.drainWalRing k).2 := by
  unfold drainWalRing
  split
  · exact .refl s
  · split
    · exact .refl s
    · next s' hs' => exact (flush_stutters hs').trans (forget_reap_stutters s')

theorem queueFsync_stutters {q : Request} (hq : q.extent = none) (h : s.queueFsync q = some s') :
    Stutters s s' := by
  obtain ⟨ring, hring, rfl⟩ := Option.map_eq_some_iff.mp h
  have hpend : extents ring.pending = extents s.ring.pending := by
    rw [Ring.pending_queue hring, extents_append]
    simp [extents, hq]
  refine ⟨rfl, rfl, rfl, rfl, rfl, prefix_rfl, fun hp => ⟨hp.counted.queue hring, ?_, ?_⟩,
    fun _ _ => ?_⟩
  · simpa [hpend] using hp.below
  · simpa [hpend] using hp.apart
  · simp [AsyncDB.settled, hpend]

theorem awaitFsyncs_stutters (s : AsyncDB) (k : Enter) : Stutters s (s.awaitFsyncs k).2 := by
  unfold awaitFsyncs
  split
  · exact .refl s
  · next s' hs' => exact (flush_stutters hs').trans (reap_stutters s')

theorem syncViaRing_stutters (s : AsyncDB) (k : Enter) : Stutters s (s.syncViaRing k).2 := by
  unfold syncViaRing
  split
  · exact stutters_of_ring_eq rfl rfl rfl prefix_rfl
  · next s₁ hs₁ =>
    have h₁ : Stutters s s₁ := queueFsync_stutters rfl hs₁
    split
    · split
      · exact h₁.trans (stutters_of_ring_eq rfl rfl rfl prefix_rfl)
      · next s₂ hs₂ =>
        exact h₁.trans ((queueFsync_stutters rfl hs₂).trans (awaitFsyncs_stutters s₂ k))
    · exact h₁.trans (awaitFsyncs_stutters s₁ k)

theorem forceDurability_stutters (s : AsyncDB) (k : Schedule) :
    Stutters s (s.forceDurability k).2 := by
  have h₁ := drainWalRing_stutters s k.drain
  unfold forceDurability
  cases hd : s.drainWalRing k.drain with
  | mk r s₁ =>
    rw [hd] at h₁
    cases r with
    | some e => exact h₁
    | none =>
      have h₂ := syncViaRing_stutters s₁ k.pair
      dsimp only
      cases hv : s₁.syncViaRing k.pair with
      | mk r' s₂ =>
        rw [hv] at h₂
        cases r' with
        | some e => exact h₁.trans h₂
        | none =>
          refine (h₁.trans h₂).trans (Stutters.trans ?_ (note_stutters _ .durable))
          exact ⟨rfl, rfl, rfl, rfl, rfl, prefix_rfl,
            fun hp => ⟨hp.counted, hp.below, hp.apart⟩, fun _ _ => rfl⟩

theorem maybeSync_stutters (s : AsyncDB) (k : Schedule) : Stutters s (s.maybeSync k).2 := by
  unfold maybeSync
  split
  · exact .refl s
  · split
    · exact stutters_of_ring_eq rfl rfl rfl prefix_rfl
    · split
      · exact forceDurability_stutters s k
      · exact .refl s

theorem submitRecord_stutters (s : AsyncDB) (k : Schedule) : Stutters s (s.submitRecord k).2 := by
  unfold submitRecord
  split
  · exact .refl s
  · next s' hs' =>
    exact (flush_stutters hs').trans ((stash_stutters s').trans (maybeSync_stutters s'.stash k))

end AsyncDB

/-! ## The two paths abreast -/

namespace DB

variable {d d' : DB}

theorem appendValue_logDir (d : DB) (type : ValueType) (key value : Bytes) :
    (d.appendValue type key value).disk.logDir = d.disk.logDir := by
  unfold appendValue
  split <;> rfl

theorem slot_congr (hcore : d'.core = d.core) (hcur : d'.vlogCurrent = d.vlogCurrent)
    (hdir : d'.disk.vlogDir = d.disk.vlogDir) (type : ValueType) (value : Bytes) :
    d'.slot type value = d.slot type value := by
  have hfile (e : DB) : (e.vlogFile e.vlogCurrent).bytes =
      (e.disk.vlogDir e.vlogCurrent).getD [] := by
    rw [vlogFile, Disk.vlogDir]
    cases Keyed.get? e.disk.vlogs e.vlogCurrent <;> rfl
  unfold slot nextPointer
  rw [separates_congr (congrArg Lsm.opt hcore), hfile d', hfile d, hdir, hcur]

theorem record_congr (hcore : d'.core = d.core) (hcur : d'.vlogCurrent = d.vlogCurrent)
    (hdir : d'.disk.vlogDir = d.disk.vlogDir) (type : ValueType) (key value : Bytes) :
    d'.record type key value = d.record type key value := by
  rw [record, record, hcore, slot_congr hcore hcur hdir]

theorem appendValue_vlogDir_congr (hcore : d'.core = d.core) (hcur : d'.vlogCurrent = d.vlogCurrent)
    (hdir : d'.disk.vlogDir = d.disk.vlogDir) (type : ValueType) (key value : Bytes) :
    (d'.appendValue type key value).disk.vlogDir = (d.appendValue type key value).disk.vlogDir := by
  simp only [appendValue, vlogBytes, separates_congr (congrArg Lsm.opt hcore)]
  split
  · simp only [perform, Disk.applyAll_cons, Disk.applyAll_nil, vlogDir_append, hdir, hcur]
  · exact hdir

end DB

/-- Asynchronous and synchronous state after the same calls, the logs apart. -/
structure Abreast (a : AsyncDB) (s : SyncDB) : Prop where
  core : a.db.core = s.db.core
  logNumber : a.db.logNumber = s.db.logNumber
  vlogCurrent : a.db.vlogCurrent = s.db.vlogCurrent
  vlogDir : a.db.disk.vlogDir = s.db.disk.vlogDir
  size : a.walSize = s.fileOffset
  pending : a.PendingOk
  log : ∃ f, s.db.disk.logDir s.db.logNumber = some f ∧ f.length = s.fileOffset
  log_lt : s.db.logNumber < s.db.core.nextFileNumber

/-- Some position of some log that is no longer written to reads differently. -/
def Differ (a : AsyncDB) (s : SyncDB) : Prop :=
  ∃ n f g p, a.settled n = some f ∧ s.db.disk.logDir n = some g ∧ f.getD p 0 ≠ g.getD p 0 ∧
    (n = s.db.logNumber → p < s.fileOffset) ∧ n < s.db.core.nextFileNumber

/-- The record of a call, if it is written at all, is shorter than `2 ^ 32`. -/
def SyncDB.CallFits (s : SyncDB) : Call × Outcome → Prop
  | (.write type key value, o) => o = .refused ∨ (s.walBytes type key value).length < 2 ^ 32
  | (.rotate, _) => True

instance SyncDB.decidableCallFits (s : SyncDB) : DecidablePred s.CallFits
  | (.write type key value, o) =>
    inferInstanceAs (Decidable (o = .refused ∨ (s.walBytes type key value).length < 2 ^ 32))
  | (.rotate, _) => .isTrue trivial

def SyncDB.Fits (s : SyncDB) : List (Call × Outcome) → Prop
  | [] => True
  | c :: cs => s.CallFits c ∧ (s.call c).Fits cs

instance SyncDB.decidableFits : ∀ (s : SyncDB) (cs : List (Call × Outcome)), Decidable (s.Fits cs)
  | _, [] => .isTrue trivial
  | s, c :: cs =>
    have := decidableFits (s.call c) cs
    inferInstanceAs (Decidable (s.CallFits c ∧ (s.call c).Fits cs))

variable {a a' : AsyncDB} {s s' : SyncDB}

theorem Abreast.stutter (h : Abreast a s) (hs : AsyncDB.Stutters a a') : Abreast a' s :=
  { h with
    core := hs.core.trans h.core
    logNumber := hs.logNumber.trans h.logNumber
    vlogCurrent := hs.vlogCurrent.trans h.vlogCurrent
    vlogDir := hs.vlogDir.trans h.vlogDir
    size := hs.walSize.trans h.size
    pending := hs.pending h.pending }

theorem Abreast.walBytes (h : Abreast a s) (type : ValueType) (key value : Bytes) :
    a.walBytes type key value = s.walBytes type key value := by
  rw [AsyncDB.walBytes, SyncDB.walBytes, DB.record_congr h.core h.vlogCurrent h.vlogDir, h.size]

theorem Abreast.record (h : Abreast a s) {type : ValueType} {key value : Bytes}
    (hq : a.queueRecord type key value = some a') :
    Abreast a' (({ s with db := s.db.appendValue type key value }).addRecord
      (s.walBytes type key value)) ∧ a'.history = a.history ∧
    a'.settled = pwrite 0 a.settled ⟨s.db.logNumber, s.fileOffset,
      (s.walBytes type key value).take ((s.walBytes type key value).length % 2 ^ 32)⟩ := by
  obtain ⟨ring, hring, rfl⟩ := Option.map_eq_some_iff.mp hq
  have hpend : extents ring.pending = extents a.ring.pending ++ [⟨s.db.logNumber, s.fileOffset,
      (s.walBytes type key value).take ((s.walBytes type key value).length % 2 ^ 32)⟩] := by
    rw [Ring.pending_queue hring, extents_append]
    simp only [extents, Request.extent, filterMap_cons, filterMap_nil, h.walBytes,
      h.logNumber, h.size]
  set buf := s.walBytes type key value with hbuf
  have hlast : Extent.last (⟨s.db.logNumber, s.fileOffset, buf.take (buf.length % 2 ^ 32)⟩ :
      Extent Nat UInt8) ≤ s.fileOffset + buf.length := by
    simp only [Extent.last, length_take]
    omega
  refine ⟨?_, rfl, ?_⟩
  · refine ⟨h.core, h.logNumber, h.vlogCurrent,
      DB.appendValue_vlogDir_congr h.core h.vlogCurrent h.vlogDir type key value,
      by rw [h.walBytes, h.size]; rfl, ⟨h.pending.counted.queue hring, ?_, ?_⟩, ?_, h.log_lt⟩
    · intro x hx
      replace hx : x ∈ extents ring.pending := hx
      show x.file = a.db.logNumber ∧ x.last ≤ a.walSize + (a.walBytes type key value).length
      rw [h.walBytes, ← hbuf]
      rw [hpend] at hx
      rcases mem_append.mp hx with hx | hx
      · obtain ⟨hfile, hle⟩ := h.pending.below x hx
        exact ⟨hfile, Nat.le_add_right_of_le hle⟩
      · obtain rfl := mem_singleton.mp hx
        exact ⟨h.logNumber.symm, h.size ▸ hlast⟩
    · show (extents ring.pending).Pairwise Extent.Apart
      rw [hpend]
      refine pairwise_append.mpr ⟨h.pending.apart, pairwise_singleton _ _, ?_⟩
      intro x hx y hy _
      obtain rfl := mem_singleton.mp hy
      exact .inl (h.size ▸ (h.pending.below x hx).2)
    · obtain ⟨f, hf, hlen⟩ := h.log
      refine ⟨f ++ buf, ?_, by rw [length_append, hlen]; rfl⟩
      show ((s.db.appendValue type key value).disk.apply (.appendLog s.db.logNumber buf)).logDir
        s.db.logNumber = _
      rw [logDir_append, DB.appendValue_logDir, if_pos rfl, hf]
      rfl
  · show settle 0 (a.db.appendValue type key value).disk.logDir (extents ring.pending) = _
    rw [hpend, settle_append, DB.appendValue_logDir]
    rfl

/-- Near the end of a record stands the type of its last fragment, which is not zero. -/
theorem exists_type_byte (fuel : Nat) : ∀ {off : Nat} {first : Bool} {payload : Bytes},
    encodeFrom fuel off first payload ≠ [] → ∃ i, i < (encodeFrom fuel off first payload).length ∧
      (encodeFrom fuel off first payload).length ≤ i + kBlockSize ∧
      (encodeFrom fuel off first payload).getD i 0 ≠ 0 := by
  induction fuel with
  | zero => exact fun h => absurd rfl h
  | succ fuel ih =>
    intro off first payload _
    simp only [encodeFrom]
    set pad : Bytes := if kBlockSize - off < kHeaderSize then List.replicate (kBlockSize - off) 0
      else [] with hpad
    set start := if kBlockSize - off < kHeaderSize then 0 else off with hstart
    set rest := payload.drop (kBlockSize - start - kHeaderSize) with hrest
    set type := fragmentType first (decide (rest = [])) with htype
    set f := payload.take (kBlockSize - start - kHeaderSize) with hf
    set tail := if rest = [] then [] else
      encodeFrom fuel (start + kHeaderSize + f.length) false rest with htail
    have hhead := length_encodeHeader type f
    by_cases hnil : tail = []
    · -- this is the last fragment
      have hlen : f.length ≤ kBlockSize - kHeaderSize := by
        rw [hf, length_take]
        omega
      refine ⟨pad.length + 8, ?_, ?_, ?_⟩
      · simp only [length_append, hhead, kHeaderSize]
        omega
      · simp only [hnil, length_append, length_nil, hhead, kHeaderSize, kBlockSize]
          at hlen ⊢
        omega
      · have hget : (pad ++ encodeHeader type f ++ f ++ tail).getD (pad.length + 8) 0 = type := by
          rw [append_assoc, append_assoc, getD_append_right _ _ _ _ (by omega),
            getD_append _ _ _ _ (by rw [hhead]; simp [kHeaderSize])]
          simp [encodeHeader]
        rw [hget]
        exact fragmentType_ne_zero first _
    · obtain ⟨i, hi, hle, hne⟩ : ∃ i, i < tail.length ∧ tail.length ≤ i + kBlockSize ∧
          tail.getD i 0 ≠ 0 := by
        by_cases hr : rest = []
        · exact absurd (by rw [htail, if_pos hr]) hnil
        · rw [htail, if_neg hr] at hnil ⊢
          exact ih hnil
      refine ⟨(pad ++ encodeHeader type f ++ f).length + i, ?_, ?_, ?_⟩
      · simp only [length_append]
        omega
      · simp only [length_append]
        omega
      · rw [getD_append_right _ _ _ _ (by omega), Nat.add_sub_cancel_left]
        exact hne

/-- From one pair of states to the next: equal logs stay equal if the records
fit and come apart if not, and logs that differ stay different. -/
structure Advances (a : AsyncDB) (s : SyncDB) (a' : AsyncDB) (s' : SyncDB) (fits : Prop) :
    Prop where
  abreast : Abreast a' s'
  history : a.history <+: a'.history
  agree : Whole a'.history → a.settled = s.db.disk.logDir → fits → a'.settled = s'.db.disk.logDir
  breaks : Whole a'.history → a.settled = s.db.disk.logDir → ¬ fits → Differ a' s'
  differ : Whole a'.history → Differ a s → Differ a' s'

theorem Advances.trans {m : AsyncDB} {t : SyncDB} {p q : Prop} (h : Advances a s m t p)
    (h' : Advances m t a' s' q) : Advances a s a' s' (p ∧ q) where
  abreast := h'.abreast
  history := h.history.trans h'.history
  agree hw heq hpq := h'.agree hw (h.agree (hw.prior h'.history) heq hpq.1) hpq.2
  breaks hw heq hpq := by
    by_cases hp : p
    · exact h'.breaks hw (h.agree (hw.prior h'.history) heq hp) fun hq => hpq ⟨hp, hq⟩
    · exact h'.differ hw (h.breaks (hw.prior h'.history) heq hp)
  differ hw hd := h'.differ hw (h.differ (hw.prior h'.history) hd)

theorem Advances.imp {p q : Prop} (h : Advances a s a' s' p) (hpq : q ↔ p) :
    Advances a s a' s' q :=
  { h with
    agree := fun hw heq hq => h.agree hw heq (hpq.mp hq)
    breaks := fun hw heq hq => h.breaks hw heq (mt hpq.mpr hq) }

theorem Abreast.advances_stutter (h : Abreast a s) (hs : AsyncDB.Stutters a a') :
    Advances a s a' s True where
  abreast := h.stutter hs
  history := hs.history
  agree hw heq _ := (hs.settled hw h.pending).trans heq
  breaks _ _ hf := absurd trivial hf
  differ hw := by
    rintro ⟨n, f, g, p, hf, hrest⟩
    exact ⟨n, f, g, p, by rw [hs.settled hw h.pending, hf], hrest⟩

theorem Abreast.advances_same (h : Abreast a' s') (hhist : a'.history = a.history)
    (hset : a'.settled = a.settled) (hdir : s'.db.disk.logDir = s.db.disk.logDir)
    (hnum : s'.db.logNumber = s.db.logNumber) (hoff : s'.fileOffset = s.fileOffset)
    (hnext : s'.db.core.nextFileNumber = s.db.core.nextFileNumber) :
    Advances a s a' s' True where
  abreast := h
  history := by rw [hhist]
  agree _ heq _ := by rw [hset, hdir, heq]
  breaks _ _ hf := absurd trivial hf
  differ _ := by
    rintro ⟨n, f, g, p, hf, hg, hne, hlt, hn⟩
    exact ⟨n, f, g, p, by rw [hset, hf], by rw [hdir, hg], hne, by rwa [hnum, hoff], by rwa [hnext]⟩

/-- **One record**, queued on one side and appended on the other. -/
theorem Abreast.advances_record (h : Abreast a s) {type : ValueType} {key value : Bytes}
    (hq : a.queueRecord type key value = some a') :
    Advances a s a' (({ s with db := s.db.appendValue type key value }).addRecord
      (s.walBytes type key value)) ((s.walBytes type key value).length < 2 ^ 32) := by
  obtain ⟨habr, hhist, hset⟩ := h.record hq
  obtain ⟨f₀, hf₀, hlen₀⟩ := h.log
  set buf := s.walBytes type key value with hbuf
  have hdir (n : Nat) : (({ s with db := s.db.appendValue type key value }).addRecord
      buf).db.disk.logDir n =
      if n = s.db.logNumber then (s.db.disk.logDir n).map (· ++ buf) else s.db.disk.logDir n := by
    rw [← DB.appendValue_logDir s.db type key value]
    exact logDir_append s.db.logNumber buf n
  refine ⟨habr, by rw [hhist], fun _ heq hfits => ?_, fun _ heq hbig => ?_, fun _ hd => ?_⟩
  · funext n
    rw [hset, hdir, heq, pwrite, Nat.mod_eq_of_lt hfits, take_length]
    by_cases hn : n = s.db.logNumber
    · rw [if_pos hn, if_pos hn, hn, hf₀, ← hlen₀, Option.map_some, Option.map_some, writeAt_length]
    · rw [if_neg hn, if_neg hn]
  · -- the type of the last fragment falls into the gap
    have hne : buf ≠ [] := by
      intro hnil
      rw [hnil] at hbig
      exact hbig (by decide)
    obtain ⟨i, hi, hle, hbyte⟩ := exists_type_byte _ hne
    change i < buf.length at hi
    change buf.length ≤ i + kBlockSize at hle
    change buf.getD i 0 ≠ 0 at hbyte
    refine ⟨s.db.logNumber, writeAt 0 f₀ s.fileOffset (buf.take (buf.length % 2 ^ 32)), f₀ ++ buf,
      s.fileOffset + i, ?_, by rw [hdir, if_pos rfl, hf₀]; rfl, ?_,
      fun _ => Nat.add_lt_add_left hi _, h.log_lt⟩
    · rw [hset, heq, pwrite, if_pos rfl, hf₀]
      rfl
    · have hmod : buf.length % 2 ^ 32 ≤ i := by
        simp only [kBlockSize] at hle
        omega
      rw [getD_writeAt, if_neg (by rw [length_take]; omega),
        getD_eq_default _ _ (by omega), getD_append_right _ _ _ _ (by omega), hlen₀,
        Nat.add_sub_cancel_left]
      exact hbyte.symm
  · obtain ⟨n, f, g, p, hf, hg, hne, hlt, hn⟩ := hd
    obtain ⟨f', hf', hget⟩ := getD_pwrite (z := 0) (e := ⟨s.db.logNumber, s.fileOffset,
      buf.take (buf.length % 2 ^ 32)⟩) hf (p := p) fun hk => .inl (hlt hk)
    rw [← hset] at hf'
    by_cases hk : n = s.db.logNumber
    · have hp := hlt hk
      obtain rfl : g = f₀ := by
        rw [hk, hf₀] at hg
        exact (Option.some.inj hg).symm
      refine ⟨n, f', g ++ buf, p, hf', by rw [hdir, if_pos hk, hg]; rfl, ?_, fun _ =>
        Nat.lt_add_right _ hp, hn⟩
      rw [hget, getD_append _ _ _ _ (by omega)]
      exact hne
    · exact ⟨n, f', g, p, hf', by rw [hdir, if_neg hk, hg], by rwa [hget], fun hk' => absurd hk' hk,
        hn⟩

/-- Only the queueing of the record itself is refused. -/
theorem submitRecord_ne_queueFull (a : AsyncDB) (k : Schedule) :
    (a.submitRecord k).1 ≠ some .queueFull := by
  have hawait (t : AsyncDB) : (t.awaitFsyncs k.pair).1 ≠ some .queueFull := by
    unfold AsyncDB.awaitFsyncs
    split
    · simp
    · cases firstFailure _ <;> simp
  have hsync (t : AsyncDB) : (t.syncViaRing k.pair).1 ≠ some .queueFull := by
    unfold AsyncDB.syncViaRing
    split
    · simp
    · split
      · split
        · simp
        · exact hawait _
      · exact hawait _
  have hdrain (t : AsyncDB) : (t.drainWalRing k.drain).1 ≠ some .queueFull := by
    unfold AsyncDB.drainWalRing
    split
    · simp
    · split
      · simp
      · cases firstFailure _ <;> simp
  unfold AsyncDB.submitRecord
  split
  · simp
  · next t _ =>
    unfold AsyncDB.maybeSync
    split
    · simp
    · split
      · simp
      · split
        · have h₁ := hdrain t.stash
          unfold AsyncDB.forceDurability
          split
          · next hd => rwa [hd] at h₁
          · next u hd =>
            have h₂ := hsync u
            split
            · next hs => rwa [hs] at h₂
            · simp
        · simp

theorem Abreast.appendValue (h : Abreast a s) (type : ValueType) (key value : Bytes) (token : Nat) :
    Abreast { a with db := a.db.appendValue type key value, walToken := token }
      { s with db := s.db.appendValue type key value } where
  core := h.core
  logNumber := h.logNumber
  vlogCurrent := h.vlogCurrent
  vlogDir := DB.appendValue_vlogDir_congr h.core h.vlogCurrent h.vlogDir type key value
  size := h.size
  pending := ⟨h.pending.counted, h.pending.below, h.pending.apart⟩
  log := by
    obtain ⟨f, hf, hlen⟩ := h.log
    exact ⟨f, by rw [DB.appendValue_logDir]; exact hf, hlen⟩
  log_lt := h.log_lt

theorem SyncDB.maybeSync_logDir (s : SyncDB) : s.maybeSync.db.disk.logDir = s.db.disk.logDir := by
  unfold SyncDB.maybeSync
  split
  · simp only [DB.perform, DB.syncEffects]
    split
    · exact logDir_syncLog (d := s.db.disk.apply (.syncVlog s.db.vlogCurrent)) s.db.logNumber
    · exact logDir_syncLog s.db.logNumber
  · rfl

theorem SyncDB.maybeSync_vlogDir (s : SyncDB) :
    s.maybeSync.db.disk.vlogDir = s.db.disk.vlogDir := by
  unfold SyncDB.maybeSync
  split
  · simp only [DB.perform, DB.syncEffects]
    split
    · exact vlogDir_syncVlog s.db.vlogCurrent
    · rfl
  · rfl

theorem SyncDB.maybeSync_frame (s : SyncDB) : s.maybeSync.db.core = s.db.core ∧
    s.maybeSync.db.logNumber = s.db.logNumber ∧ s.maybeSync.db.vlogCurrent = s.db.vlogCurrent ∧
    s.maybeSync.fileOffset = s.fileOffset := by
  unfold SyncDB.maybeSync
  split <;> exact ⟨rfl, rfl, rfl, rfl⟩

theorem Abreast.advances_apply (h : Abreast a s) (type : ValueType) (key stored : Bytes) :
    Advances a s (a.applied type key stored) { s.maybeSync with db :=
      { s.maybeSync.db with core := s.maybeSync.db.core.writeEntry type key stored } } True := by
  obtain ⟨hcore, hnum, hcur, hoff⟩ := s.maybeSync_frame
  refine Abreast.advances_same ?_ rfl rfl s.maybeSync_logDir hnum hoff
    (show s.maybeSync.db.core.nextFileNumber = s.db.core.nextFileNumber by rw [hcore])
  refine ⟨?_, h.logNumber.trans hnum.symm, h.vlogCurrent.trans hcur.symm,
    h.vlogDir.trans s.maybeSync_vlogDir.symm, h.size.trans hoff.symm,
    ⟨h.pending.counted, h.pending.below, h.pending.apart⟩, ?_, ?_⟩
  · show a.db.core.writeEntry type key stored = s.maybeSync.db.core.writeEntry type key stored
    rw [hcore, h.core]
  · obtain ⟨f, hf, hlen⟩ := h.log
    refine ⟨f, ?_, hlen.trans hoff.symm⟩
    show s.maybeSync.db.disk.logDir s.maybeSync.db.logNumber = some f
    rw [s.maybeSync_logDir, hnum, hf]
  · show s.maybeSync.db.logNumber < s.maybeSync.db.core.nextFileNumber
    rw [hnum, hcore]
    exact h.log_lt

/-- **`WriteEntry` on both paths.** -/
theorem Abreast.advances_writeEntry (h : Abreast a s) (type : ValueType) (key value : Bytes)
    (k : Schedule) :
    Advances a s (a.writeEntry type key value k).2
      (s.writeEntry type key value (.of (a.writeEntry type key value k).1))
      (s.CallFits (.write type key value, .of (a.writeEntry type key value k).1)) := by
  unfold AsyncDB.writeEntry
  cases hq : a.queueRecord type key value with
  | none =>
    refine Advances.imp (p := True) ?_ ⟨fun _ => trivial, fun _ => .inl rfl⟩
    refine (h.appendValue type key value _).advances_same rfl ?_
      (DB.appendValue_logDir s.db type key value) rfl rfl rfl
    show settle 0 (a.db.appendValue type key value).disk.logDir _ = _
    rw [DB.appendValue_logDir]
    rfl
  | some a₁ =>
    have hrec := h.advances_record hq
    have hsub := a₁.submitRecord_stutters k
    have hne := submitRecord_ne_queueFull a₁ k
    dsimp only
    cases hs : a₁.submitRecord k with
    | mk r a₂ =>
      rw [hs] at hsub hne
      have hstut := hrec.trans (hrec.abreast.advances_stutter hsub)
      cases r with
      | some e =>
        have hof : Outcome.of (some e) = .failed := by
          cases e <;> first | rfl | exact absurd rfl hne
        dsimp only
        rw [hof]
        exact hstut.imp (by simp [SyncDB.CallFits])
      | none =>
        have hslot : a.db.slot type value = s.db.slot type value :=
          DB.slot_congr h.core h.vlogCurrent h.vlogDir type value
        dsimp only
        rw [hslot]
        refine (hstut.trans (hstut.abreast.advances_apply type key (s.db.slot type value))).imp ?_
        simp [SyncDB.CallFits, Outcome.of]

theorem logDir_rotate (d : DB) (n : Nat) : d.rotateForFlush.disk.logDir n =
    if n = d.core.nextFileNumber then some [] else d.disk.logDir n := by
  have hcreate : d.rotateForFlush.disk.logDir =
    (d.disk.apply (.createLog d.core.nextFileNumber)).logDir :=
    logDir_syncLog _
  rw [hcreate]
  simp only [Disk.logDir, Disk.apply, get?_set]
  split <;> rfl

/-- **`RotateForFlush` on both paths.** -/
theorem Abreast.advances_rotate (h : Abreast a s) (k : Enter) :
    Advances a s (a.rotateForFlush k).2 (s.rotateForFlush (.of (a.rotateForFlush k).1)) True := by
  have hstut := a.drainWalRing_stutters k
  unfold AsyncDB.rotateForFlush
  cases hd : a.drainWalRing k with
  | mk r a₁ =>
    rw [hd] at hstut
    cases r with
    | some e =>
      have hs : s.rotateForFlush (Outcome.of (some e)) = s := by cases e <;> rfl
      dsimp only
      rw [hs]
      exact h.advances_stutter hstut
    | none =>
      have hnil : a₁.ring.pending = [] := by
        have := AsyncDB.drainWalRing_pending (k := k) h.pending.counted (by rw [hd])
        rwa [hd] at this
      have h₁ := h.stutter (hstut.trans (a₁.note_stutters .durable))
      have hsettled : (a₁.note .durable).rotated.settled = fun n =>
          if n = s.db.core.nextFileNumber then some [] else (a₁.note .durable).settled n := by
        funext n
        show settle 0 a₁.db.rotateForFlush.disk.logDir (extents a₁.ring.pending) n = _
        have hold : (a₁.note .durable).settled n = a₁.db.disk.logDir n := by
          show settle 0 a₁.db.disk.logDir (extents a₁.ring.pending) n = _
          rw [hnil]
          rfl
        rw [hnil, hold, ← h₁.core]
        exact logDir_rotate a₁.db n
      refine Advances.imp (p := True ∧ True) ?_ (by simp)
      refine (h.advances_stutter (hstut.trans (a₁.note_stutters .durable))).trans ?_
      refine ⟨?_, prefix_rfl, fun _ heq _ => ?_, fun _ _ hf => absurd trivial hf, ?_⟩
      · refine ⟨congrArg Lsm.rotateForFlush h₁.core, congrArg Lsm.nextFileNumber h₁.core,
          h₁.vlogCurrent, h₁.vlogDir, rfl, ?_, ⟨[], ?_, rfl⟩, ?_⟩
        · refine ⟨h₁.pending.counted, ?_, h₁.pending.apart⟩
          show ∀ x ∈ extents a₁.ring.pending, _
          rw [hnil]
          exact nofun
        · exact (logDir_rotate s.db s.db.core.nextFileNumber).trans (if_pos rfl)
        · exact Nat.lt_add_of_pos_right (by decide)
      · rw [hsettled, heq]
        funext n
        exact (logDir_rotate s.db n).symm
      · rintro _ ⟨n, f, g, p, hf, hg, hne, hlt, hn⟩
        have hnew : n ≠ s.db.core.nextFileNumber := by omega
        refine ⟨n, f, g, p, ?_, ?_, hne, fun hk => absurd hk hnew, Nat.lt_add_right _ hn⟩
        · rw [hsettled]
          exact (if_neg hnew).trans hf
        · exact (logDir_rotate s.db n).trans ((if_neg hnew).trans hg)

theorem Abreast.advances_call (h : Abreast a s) (c : Call × Schedule) :
    Advances a s (a.call c).2 (s.call (c.1, .of (a.call c).1))
      (s.CallFits (c.1, .of (a.call c).1)) := by
  obtain ⟨c, k⟩ := c
  cases c with
  | write type key value => exact h.advances_writeEntry type key value k
  | rotate => exact h.advances_rotate k.rotate

theorem Abreast.advances_run (cs : List (Call × Schedule)) : ∀ {a : AsyncDB} {s : SyncDB},
    Abreast a s → Advances a s (a.run cs) (s.run (a.trace cs)) (s.Fits (a.trace cs)) := by
  induction cs with
  | nil => exact fun h => h.advances_stutter (.refl _)
  | cons c cs ih =>
    intro a s h
    have hc := h.advances_call c
    exact hc.trans (ih hc.abreast)

/-! ## From `DB::Open` on -/

theorem abreast_attach {opt : Options} {d : Disk} {db : DB} (hopen : DB.openDb opt d = .ok db) :
    Abreast (.attach db) (.attach db) := by
  obtain ⟨refs, -, -, -, rfl⟩ := DB.openDb_eq_ok.mp hopen
  refine ⟨rfl, rfl, rfl, rfl, rfl, ⟨⟨rfl, rfl⟩, ?_, List.Pairwise.nil⟩, ?_, ?_⟩
  · exact nofun
  · set logs := DB.logsToReplay d d.manifestState.logNumber with hlogs
    have hne : Keyed.keys logs ≠ [] := by
      rw [hlogs, DB.logsToReplay]
      split
      · simp [Keyed.keys]
      · next hl =>
        intro h
        exact hl (map_eq_nil_iff.mp h)
    have hmem : ((Keyed.keys logs).getLast?).getD d.manifestState.logNumber ∈ Keyed.keys logs := by
      rw [getLast?_eq_some_getLast hne]
      exact getLast_mem hne
    obtain ⟨f, hf⟩ := exists_get? hmem
    have hget : Keyed.get? (DB.opened opt d refs).disk.logs (DB.opened opt d refs).logNumber =
        some (DB.replayedFile f) := by
      show Keyed.get? (logs.map fun p => (p.1, DB.replayedFile p.2)) _ = _
      rw [get?_map logs fun _ => DB.replayedFile]
      show (Keyed.get? logs ((Keyed.keys logs).getLast?.getD _)).map _ = _
      rw [hf]
      rfl
    refine ⟨(DB.replayedFile f).bytes, ?_, ?_⟩
    · show (Keyed.get? (DB.opened opt d refs).disk.logs (DB.opened opt d refs).logNumber).map
        File.bytes = _
      rw [hget]
      rfl
    · show _ = ((Keyed.get? (DB.opened opt d refs).disk.logs _).getD .empty).bytes.length
      rw [hget]
      rfl
  · exact Nat.lt_succ_of_le (Nat.le_max_right _ _)

theorem Differ.ne (h : Differ a s) : a.settled ≠ s.db.disk.logDir := by
  obtain ⟨n, f, g, p, hf, hg, hne, -⟩ := h
  intro heq
  rw [heq, hg] at hf
  exact hne (by rw [Option.some.inj hf])

theorem AsyncDB.settled_of_quiet (h : a.ring.pending = []) : a.settled = a.db.disk.logDir := by
  rw [AsyncDB.settled, h]
  rfl

/-- **The two paths write the same logs**, whatever the order of completions and
wherever the log ended, exactly if no record reaches `2 ^ 32` bytes. -/
theorem logs_agree_iff {opt : Options} {d : Disk} {db : DB} (hopen : DB.openDb opt d = .ok db)
    (calls : List (Call × Schedule)) (hwhole : Whole ((AsyncDB.attach db).run calls).history)
    (hquiet : ((AsyncDB.attach db).run calls).ring.pending = []) :
    ((AsyncDB.attach db).run calls).db.disk.logDir =
        ((SyncDB.attach db).run ((AsyncDB.attach db).trace calls)).db.disk.logDir ↔
      (SyncDB.attach db).Fits ((AsyncDB.attach db).trace calls) := by
  have hrun := (abreast_attach hopen).advances_run calls
  have hstart : (AsyncDB.attach db).settled = (SyncDB.attach db).db.disk.logDir := rfl
  rw [← AsyncDB.settled_of_quiet hquiet]
  refine ⟨fun heq => by_contra fun hfits => ?_, hrun.agree hwhole hstart⟩
  exact (hrun.breaks hwhole hstart hfits).ne heq

def quietOptions : Options := { Lsm.smallOptions with syncMode := .kSyncNever }

/-- The kernel does nothing, or ends the given requests in full, in that order. -/
def Schedule.ends (tokens : List Nat) : Schedule :=
  let k := Enter.done (tokens.map fun t => (t, .whole))
  ⟨.done [], k, .done [], .done []⟩

/-- Two writes that complete in the other order, a rotation, and a third. -/
def swappedCalls : List (Call × Schedule) :=
  [(.write .value [1] [10], .ends []), (.write .deletion [1] [], .ends [2, 1]),
    (.rotate, .ends []), (.write .value [2] [20, 21], .ends [3])]

/-- At a run whose completions arrive in another order. -/
theorem logs_agree_swapped :
    ((AsyncDB.attach (DB.fresh quietOptions)).run swappedCalls).db.disk.logDir =
      ((SyncDB.attach (DB.fresh quietOptions)).run
        ((AsyncDB.attach (DB.fresh quietOptions)).trace swappedCalls)).db.disk.logDir :=
  (logs_agree_iff (DB.openDb_empty quietOptions) swappedCalls (by decide +kernel)
    (by decide +kernel)).mpr (by decide +kernel)

theorem length_le_encodeFrom (fuel : Nat) : ∀ {off : Nat} {first : Bool} {payload : Bytes},
    payload.length + (if kBlockSize - off = kHeaderSize then 2 else 1) ≤ fuel →
    payload.length ≤ (encodeFrom fuel off first payload).length := by
  induction fuel with
  | zero =>
    intro off first payload hfuel
    split at hfuel <;> omega
  | succ fuel ih =>
    intro off first payload hfuel
    simp only [encodeFrom]
    set start := if kBlockSize - off < kHeaderSize then 0 else off with hstart
    set avail := kBlockSize - start - kHeaderSize with havail
    set rest := payload.drop avail with hrest
    have hlen : (payload.take avail).length + rest.length = payload.length := by
      rw [hrest, length_take, length_drop]
      omega
    by_cases hnil : rest = []
    · rw [hnil, length_nil] at hlen
      simp only [length_append]
      omega
    · have hlt : avail < payload.length := by
        rw [hrest, drop_eq_nil_iff] at hnil
        omega
      have htake : (payload.take avail).length = avail := by
        rw [length_take]
        omega
      have hroom : start + kHeaderSize ≤ kBlockSize ∧
          (kBlockSize - off ≠ kHeaderSize → start + kHeaderSize < kBlockSize) := by
        rw [hstart]
        split
        · exact ⟨by decide, fun _ => by decide⟩
        · simp only [kBlockSize, kHeaderSize] at *
          omega
      have hoff : start + kHeaderSize + (payload.take avail).length = kBlockSize := by
        rw [htake, havail]
        omega
      have hrec : rest.length ≤ (encodeFrom fuel kBlockSize false rest).length := by
        refine ih ?_
        rw [if_neg (by decide)]
        split at hfuel
        · omega
        · next hne =>
          have := hroom.2 hne
          omega
      rw [if_neg hnil, hoff]
      simp only [length_append]
      omega

theorem length_le_encodeRecord (payload : Bytes) (offset : Nat) :
    payload.length ≤ (encodeRecord payload offset).length := by
  refine length_le_encodeFrom _ ?_
  split <;> omega

theorem run_oneWrite (value : Bytes) :
    Whole ((AsyncDB.attach (DB.fresh quietOptions)).run
      [(.write .value [] value, .ends [1])]).history ∧
    ((AsyncDB.attach (DB.fresh quietOptions)).run
      [(.write .value [] value, .ends [1])]).ring.pending = [] := by
  refine ⟨?_, rfl⟩
  intro m hm
  rw [mem_singleton.mp hm]
  rfl

theorem walBytes_long (value : Bytes) :
    value.length ≤ ((SyncDB.attach (DB.fresh quietOptions)).walBytes .value [] value).length := by
  refine le_trans ?_ (length_le_encodeRecord _ _)
  have hlen : (encodePayload ((DB.fresh quietOptions).record .value [] value)).length =
      13 + 0 + (4 + value.length) := length_encodePayload _
  exact hlen ▸ (by omega)

/-- **A value of 2^32 bytes**: the kernel is asked for a few bytes of its record
and gives a full completion for them, and the log is not the one that
`AddRecord` writes. -/
theorem logs_differ_longValue : ∃ value : Bytes,
    let a := (AsyncDB.attach (DB.fresh quietOptions)).run [(.write .value [] value, .ends [1])]
    Whole a.history ∧ a.ring.pending = [] ∧
    a.db.disk.logDir ≠ ((SyncDB.attach (DB.fresh quietOptions)).run
      ((AsyncDB.attach (DB.fresh quietOptions)).trace
        [(.write .value [] value, .ends [1])])).db.disk.logDir := by
  have hlen : (List.replicate (2 ^ 32) (0 : UInt8)).length = 2 ^ 32 := List.length_replicate
  generalize List.replicate (2 ^ 32) (0 : UInt8) = value at hlen
  obtain ⟨hwhole, hquiet⟩ := run_oneWrite value
  refine ⟨value, hwhole, hquiet, ?_⟩
  have hbig := walBytes_long value
  rw [hlen] at hbig
  have hrun := (abreast_attach (DB.openDb_empty quietOptions)).advances_run
    [(.write .value [] value, .ends [1])]
  rw [← AsyncDB.settled_of_quiet hquiet]
  refine (hrun.breaks hwhole rfl ?_).ne
  rintro ⟨hrefused | hfits, -⟩
  · cases hrefused
  · exact absurd hfits (Nat.not_lt.mpr hbig)

end BedrockKV
