/-
# `BedrockKV.AsyncWal` — the log through io_uring

With a ring the log is written by submissions that carry their own offset, and
completions arrive when the kernel likes; `wal_size_` is the end of the log as
it will be.  A `Ring` has the entries queued, those the kernel works on and the
completions not yet reaped.  What the kernel does is an input: an `Enter` says
whether `io_uring_enter` fails and which requests complete during it, in which
order and with what result.  A successful call consumes everything queued, and
one that waits is over when nothing is in flight.

    flush            Ring::Flush
    drainWalRing     submit, wait for all, look at the results
    syncViaRing      the two fsyncs as one pair
    maybeSync        the stashed error, then the two above
    writeEntry       WriteEntry on the asynchronous path
    rotateForFlush   drain, then the fresh log

`history` is not state of the program: it records the completions, the errors
that `Put` and `Delete` return and the durability points reached with `Ok`.
`SyncDB` is the other path, `WriteEntry` over `Writer::AddRecord`; where every
call succeeds it is the one of `BedrockKV.Db` (`SyncDB.writeEntry_ok`).
-/
import BedrockKV.Lib.Extent
import BedrockKV.Lib.Run
import BedrockKV.Open

namespace BedrockKV

open List Log

def File.writeAt (f : File) (offset : Nat) (data : Bytes) : File :=
  { f with bytes := Extents.writeAt 0 f.bytes offset data }

/-! ## The ring -/

/-- What a submission asks.  A write holds the whole buffer; `QueueWrite` gives
its length to the kernel as a `uint32_t`. -/
inductive Request where
  | write (log : Nat) (buf : Bytes) (offset : Nat)
  | fsyncLog (log : Nat)
  | fsyncVlog (vlog : Nat)
  deriving DecidableEq

def Request.len : Request → Nat
  | .write _ buf _ => buf.length % 2 ^ 32
  | _ => 0

structure Sqe where
  request : Request
  userData : Nat
  deriving DecidableEq

structure Cqe where
  userData : Nat
  res : Int
  deriving DecidableEq

/-- How a request ends: in full, with some smaller byte count, or with an errno. -/
inductive Completion where
  | whole
  | short (n : Nat)
  | failed (errno : Nat)
  deriving DecidableEq, Repr

def Completion.res (len : Nat) : Completion → Int
  | .whole => len
  | .short n => (min n (len - 1) : Nat)
  | .failed errno => -(errno + 1 : Nat)

/-- What a request that ended with `res` has done to the directory. -/
def Request.perform (res : Int) (d : Disk) : Request → Disk
  | .write log buf offset =>
    { d with logs := Keyed.modify d.logs log fun f => f.writeAt offset (buf.take res.toNat) }
  | .fsyncLog log => if res < 0 then d else d.apply (.syncLog log)
  | .fsyncVlog vlog => if res < 0 then d else d.apply (.syncVlog vlog)

structure Ring where
  entries : Nat
  sq : List Sqe
  inFlight : List Sqe
  cq : List Cqe
  queued : Nat
  outstanding : Nat

namespace Ring

def new : Ring := ⟨64, [], [], [], 0, 0⟩

/-- `QueueWrite` and `QueueFsync`: `none` if the queue is full. -/
def queue (r : Ring) (e : Sqe) : Option Ring :=
  if r.entries ≤ r.sq.length then none
  else some { r with sq := r.sq ++ [e], queued := r.queued + 1 }

def submitted (r : Ring) : Ring :=
  { r with
    sq := []
    inFlight := r.inFlight ++ r.sq
    queued := 0
    outstanding := r.outstanding + r.queued }

/-- `Reap` without waiting, its handler apart. -/
def reaped (r : Ring) : Ring := { r with cq := [], outstanding := r.outstanding - r.cq.length }

/-- What the kernel has still to do, in the order of submission. -/
def pending (r : Ring) : List Sqe := r.inFlight ++ r.sq

/-- `queued_` and `outstanding_` are what they say. -/
structure Counted (r : Ring) : Prop where
  queued : r.queued = r.sq.length
  outstanding : r.outstanding = r.inFlight.length + r.cq.length

variable {r r' : Ring}

variable {e : Sqe}

theorem pending_queue (h : r.queue e = some r') : r'.pending = r.pending ++ [e] := by
  unfold queue at h
  split at h
  · cases h
  · cases h
    exact (append_assoc _ _ _).symm

theorem cq_queue (h : r.queue e = some r') : r'.cq = r.cq := by
  unfold queue at h
  split at h
  · cases h
  · cases h
    rfl

theorem Counted.queue (hc : r.Counted) (h : r.queue e = some r') : r'.Counted := by
  unfold Ring.queue at h
  split at h
  · cases h
  · cases h
    refine ⟨?_, hc.outstanding⟩
    rw [length_append, length_singleton, hc.queued]

@[simp] theorem pending_submitted (r : Ring) : r.submitted.pending = r.pending := by
  simp [pending, submitted]

theorem Counted.submitted (hc : r.Counted) : r.submitted.Counted := by
  refine ⟨rfl, ?_⟩
  have hq := hc.queued
  have ho := hc.outstanding
  simp only [Ring.submitted, length_append]
  omega

theorem Counted.reaped (hc : r.Counted) : r.reaped.Counted := by
  refine ⟨hc.queued, ?_⟩
  have := hc.outstanding
  simp only [Ring.reaped, length_nil]
  omega

theorem Counted.pending_nil (hc : r.Counted) (h : r.outstanding = 0 ∧ r.queued = 0) :
    r.pending = [] := by
  have hq := hc.queued
  have ho := hc.outstanding
  have hin : r.inFlight = [] := length_eq_zero_iff.mp (by omega)
  have hsq : r.sq = [] := length_eq_zero_iff.mp (by omega)
  rw [Ring.pending, hin, hsq]
  rfl

end Ring

/-- The first errno among completions. -/
def firstFailure (cq : List Cqe) : Option Nat :=
  (cq.find? fun c => decide (c.res < 0)).map fun c => (-c.res).toNat

/-- One `io_uring_enter`: it fails, or the listed completions arrive during it. -/
inductive Enter where
  | failed (errno : Nat)
  | done (arrivals : List (Nat × Completion))

def Enter.arrivals : Enter → List (Nat × Completion)
  | .failed _ => []
  | .done arrivals => arrivals

/-- The kernel's part in one operation: in the drain of `RotateForFlush`, in the
submission of the record, in the drain and in the fsync pair. -/
structure Schedule where
  rotate : Enter
  submit : Enter
  drain : Enter
  pair : Enter

/-! ## The database on a ring -/

/-- The errors of the asynchronous path. -/
inductive WalError where
  /-- `io_uring submission queue full`, for the record. -/
  | queueFull
  /-- `io_uring submission queue full`, for an fsync. -/
  | fsyncQueueFull
  /-- `io_uring_enter submit failed: …` -/
  | submitFailed (errno : Nat)
  /-- `io_uring_enter wait failed: …` -/
  | waitFailed (errno : Nat)
  /-- `async WAL write failed: …` -/
  | writeFailed (errno : Nat)
  /-- `async fsync failed: …` -/
  | fsyncFailed (errno : Nat)
  deriving DecidableEq, Repr

/-- What an observer sees: a completion, an error returned by `Put` or `Delete`,
a durability point reached with `Ok`. -/
inductive Mark where
  | completed (request : Request) (res : Int)
  | returned (e : WalError)
  | durable
  deriving DecidableEq

structure AsyncDB where
  db : DB
  ring : Ring
  walSize : Nat
  walToken : Nat
  walPending : List (Nat × Bytes)
  walRingError : Option Nat
  history : List Mark

namespace DB

/-- The part of `WriteEntry` before the log: the value log. -/
def appendValue (s : DB) (type : ValueType) (key value : Bytes) : DB :=
  { s.perform (if s.separates type value then
      [.appendVlog s.vlogCurrent (s.vlogBytes type key value)] else []) with
    unsyncedBytes := s.unsyncedBytes + (s.vlogBytes type key value).length }

/-- `need` in `MaybeSync`, from what is unsynced when it is called. -/
def needsSync (s : DB) : Bool :=
  match s.opt.syncMode with
  | .kSyncAlways => true
  | .kSyncPeriodic => decide (kSyncThresholdBytes ≤ s.unsyncedBytes)
  | .kSyncNever => false

end DB

namespace AsyncDB

/-- The end of `DB::Open`: the ring, and `wal_size_` at the end of the log. -/
def attach (db : DB) : AsyncDB :=
  ⟨db, .new, db.logFile.bytes.length, 0, [], none, []⟩

def note (s : AsyncDB) (m : Mark) : AsyncDB := { s with history := s.history ++ [m] }

/-- The kernel ends the request with this `user_data`, if it is in flight. -/
def complete (s : AsyncDB) (a : Nat × Completion) : AsyncDB :=
  match s.ring.inFlight.find? fun e => decide (e.userData = a.1) with
  | none => s
  | some e =>
    { s with
      db := { s.db with disk := e.request.perform (a.2.res e.request.len) s.db.disk }
      ring := { s.ring with
        inFlight := s.ring.inFlight.eraseP fun e => decide (e.userData = a.1)
        cq := s.ring.cq ++ [⟨a.1, a.2.res e.request.len⟩] }
      history := s.history ++ [.completed e.request (a.2.res e.request.len)] }

/-- What is left in flight ends in full. -/
def completeRest (s : AsyncDB) : AsyncDB :=
  (s.ring.inFlight.map fun e => (e.userData, Completion.whole)).foldl complete s

/-- `Ring::Flush`: the errno, or the state after it. -/
def flush (s : AsyncDB) (waitAll : Bool) (k : Enter) : Except Nat AsyncDB :=
  if s.ring.queued = 0 ∧ waitAll = false then .ok s
  else
    match k with
    | .failed errno => .error errno
    | .done arrivals =>
      let s := arrivals.foldl complete { s with ring := s.ring.submitted }
      .ok (if waitAll then s.completeRest else s)

/-- The completions are taken off the ring. -/
def reap (s : AsyncDB) : AsyncDB := { s with ring := s.ring.reaped }

/-- `wal_pending_.erase(token)` for what is being reaped. -/
def forget (s : AsyncDB) : AsyncDB :=
  { s with walPending := s.walPending.filter fun p => decide (p.1 ∉ s.ring.cq.map Cqe.userData) }

/-- The `Reap` of `WriteEntry`: a failure is kept for `MaybeSync`. -/
def stash (s : AsyncDB) : AsyncDB :=
  { s.forget.reap with
    walRingError := s.walRingError.or (firstFailure s.ring.cq) }

def drainWalRing (s : AsyncDB) (k : Enter) : Option WalError × AsyncDB :=
  if s.ring.outstanding = 0 ∧ s.ring.queued = 0 then (none, s)
  else
    match s.flush true k with
    | .error errno => (some (.waitFailed errno), s)
    | .ok s => ((firstFailure s.ring.cq).map .writeFailed, s.forget.reap)

/-- `++wal_token_` and `QueueFsync`. -/
def queueFsync (s : AsyncDB) (request : Request) : Option AsyncDB :=
  (s.ring.queue ⟨request, s.walToken + 1⟩).map fun ring =>
    { s with ring := ring, walToken := s.walToken + 1 }

/-- The second half of `SyncViaRing`. -/
def awaitFsyncs (s : AsyncDB) (k : Enter) : Option WalError × AsyncDB :=
  match s.flush true k with
  | .error errno => (some (.waitFailed errno), s)
  | .ok s => ((firstFailure s.ring.cq).map .fsyncFailed, s.reap)

def syncViaRing (s : AsyncDB) (k : Enter) : Option WalError × AsyncDB :=
  match s.queueFsync (.fsyncLog s.db.logNumber) with
  | none => (some .fsyncQueueFull, { s with walToken := s.walToken + 1 })
  | some s =>
    if s.db.opt.enableValueSeparation then
      match s.queueFsync (.fsyncVlog s.db.vlogCurrent) with
      | none => (some .fsyncQueueFull, { s with walToken := s.walToken + 1 })
      | some s => s.awaitFsyncs k
    else s.awaitFsyncs k

/-- `DrainWalRing`, `SyncViaRing` and `unsynced_bytes_ = 0`. -/
def forceDurability (s : AsyncDB) (k : Schedule) : Option WalError × AsyncDB :=
  match s.drainWalRing k.drain with
  | (some e, s) => (some e, s)
  | (none, s) =>
    match s.syncViaRing k.pair with
    | (some e, s) => (some e, s)
    | (none, s) => (none, { s with db := { s.db with unsyncedBytes := 0 } }.note .durable)

def maybeSync (s : AsyncDB) (k : Schedule) : Option WalError × AsyncDB :=
  if s.db.opt.syncMode = .kSyncNever then (none, s)
  else
    match s.walRingError with
    | some errno => (some (.writeFailed errno), { s with walRingError := none })
    | none => if s.db.needsSync then s.forceDurability k else (none, s)

/-- The log record of a write, as `EncodeRecord` lays it out at `wal_size_`. -/
def walBytes (s : AsyncDB) (type : ValueType) (key value : Bytes) : Bytes :=
  encodeRecord (encodePayload (s.db.record type key value)) s.walSize

/-- The record is queued, and counted. -/
def queueRecord (s : AsyncDB) (type : ValueType) (key value : Bytes) : Option AsyncDB :=
  let buf := s.walBytes type key value
  let db := s.db.appendValue type key value
  (s.ring.queue ⟨.write s.db.logNumber buf s.walSize, s.walToken + 1⟩).map fun ring =>
    { s with
      db := { db with unsyncedBytes := db.unsyncedBytes + buf.length }
      ring := ring
      walToken := s.walToken + 1
      walPending := s.walPending ++ [(s.walToken + 1, buf)]
      walSize := s.walSize + buf.length }

/-- The memtable and `next_seq_`. -/
def applied (s : AsyncDB) (type : ValueType) (key stored : Bytes) : AsyncDB :=
  { s with db := { s.db with core := s.db.core.writeEntry type key stored } }

/-- `WriteEntry` from the submission on. -/
def submitRecord (s : AsyncDB) (k : Schedule) : Option WalError × AsyncDB :=
  match s.flush false k.submit with
  | .error errno => (some (.submitFailed errno), s)
  | .ok s => s.stash.maybeSync k

def writeEntry (s : AsyncDB) (type : ValueType) (key value : Bytes) (k : Schedule) :
    Option WalError × AsyncDB :=
  match s.queueRecord type key value with
  | none => (some .queueFull,
      { s with db := s.db.appendValue type key value, walToken := s.walToken + 1 })
  | some s' =>
    match s'.submitRecord k with
    | (some e, s') => (some e, s')
    | (none, s') => (none, s'.applied type key (s.db.slot type value))

/-- The fresh log, and `wal_size_` for it. -/
def rotated (s : AsyncDB) : AsyncDB := { s with db := s.db.rotateForFlush, walSize := 0 }

def rotateForFlush (s : AsyncDB) (k : Enter) : Option WalError × AsyncDB :=
  match s.drainWalRing k with
  | (some e, s) => (some e, s)
  | (none, s) => (none, (s.note .durable).rotated)

/-! ## What an enter does -/

/-- The state when `e` has ended with `res`; `rest` stays in flight. -/
def done (s : AsyncDB) (rest : List Sqe) (e : Sqe) (res : Int) : AsyncDB :=
  { s with
    db := { s.db with disk := e.request.perform res s.db.disk }
    ring := { s.ring with inFlight := rest, cq := s.ring.cq ++ [⟨e.userData, res⟩] }
    history := s.history ++ [.completed e.request res] }

/-- Requests end one by one: each as the kernel was told, or in full. -/
inductive Completes (arrivals : List (Nat × Completion)) :
    AsyncDB → List (Sqe × Int) → AsyncDB → Prop where
  | refl (s : AsyncDB) : Completes arrivals s [] s
  | step {s s' : AsyncDB} {l l' : List Sqe} {e : Sqe} {c : Completion} {ds : List (Sqe × Int)} :
      s.ring.inFlight = l ++ e :: l' → (e.userData, c) ∈ arrivals ∨ c = .whole →
      Completes arrivals (s.done (l ++ l') e (c.res e.request.len)) ds s' →
      Completes arrivals s ((e, c.res e.request.len) :: ds) s'

theorem complete_cases (s : AsyncDB) (a : Nat × Completion) :
    s.complete a = s ∨ ∃ l e l', s.ring.inFlight = l ++ e :: l' ∧ e.userData = a.1 ∧
      s.complete a = s.done (l ++ l') e (a.2.res e.request.len) := by
  cases hfind : s.ring.inFlight.find? fun e => decide (e.userData = a.1) with
  | none => exact .inl (by simp only [complete, hfind])
  | some e =>
    obtain ⟨he, l, l', hl, hnot⟩ := find?_eq_some_iff_append.mp hfind
    have hdata : e.userData = a.1 := by simpa using he
    refine .inr ⟨l, e, l', hl, hdata, ?_⟩
    have herase : (s.ring.inFlight.eraseP fun e => decide (e.userData = a.1)) = l ++ l' := by
      rw [hl, eraseP_append_right]
      · simp [hdata]
      · intro v hv
        simpa using hnot v hv
    simp only [complete, hfind, herase, done, hdata]

variable {arrivals : List (Nat × Completion)} {s s' : AsyncDB}

theorem Completes.append {m : AsyncDB} {ds ds' : List (Sqe × Int)} (h : Completes arrivals s ds m)
    (h' : Completes arrivals m ds' s') : Completes arrivals s (ds ++ ds') s' := by
  induction h with
  | refl => exact h'
  | step hl hc _ ih => exact .step hl hc (ih h')

theorem completes_complete (s : AsyncDB) {a : Nat × Completion} (ha : a ∈ arrivals ∨ a.2 = .whole) :
    ∃ ds, Completes arrivals s ds (s.complete a) := by
  rcases complete_cases s a with h | ⟨l, e, l', hl, hdata, h⟩
  · rw [h]
    exact ⟨[], .refl s⟩
  · rw [h]
    refine ⟨_, .step hl ?_ (.refl _)⟩
    rwa [hdata]

theorem completes_foldl (arrivals : List (Nat × Completion)) :
    ∀ (as : List (Nat × Completion)) (s : AsyncDB), (∀ a ∈ as, a ∈ arrivals ∨ a.2 = .whole) →
      ∃ ds, Completes arrivals s ds (as.foldl complete s)
  | [], s, _ => ⟨[], .refl s⟩
  | a :: as, s, h => by
      obtain ⟨ha, has⟩ := forall_mem_cons.mp h
      obtain ⟨ds, hds⟩ := completes_complete s ha
      obtain ⟨ds', hds'⟩ := completes_foldl arrivals as (s.complete a) has
      exact ⟨_, hds.append hds'⟩

theorem completes_completeRest (arrivals : List (Nat × Completion)) (s : AsyncDB) :
    ∃ ds, Completes arrivals s ds s.completeRest := by
  refine completes_foldl arrivals _ s fun a ha => ?_
  obtain ⟨e, _, rfl⟩ := mem_map.mp ha
  exact .inr rfl

theorem inFlight_completeRest (s : AsyncDB) : s.completeRest.ring.inFlight = [] := by
  suffices h : ∀ (l : List Sqe) (s : AsyncDB), s.ring.inFlight = l →
      ((l.map fun e => (e.userData, Completion.whole)).foldl complete s).ring.inFlight = [] from
    h _ s rfl
  intro l
  induction l with
  | nil => exact fun s hs => hs
  | cons e l ih =>
    intro s hs
    refine ih _ ?_
    simp only [complete, hs, find?_cons, decide_true, eraseP_cons, cond_true]

/-- **One `Flush`**: the queue goes to the kernel, and some requests end. -/
theorem flush_ok {waitAll : Bool} {k : Enter} (h : s.flush waitAll k = .ok s') :
    (s' = s ∧ s.ring.queued = 0 ∧ waitAll = false) ∨
      ∃ ds, Completes k.arrivals { s with ring := s.ring.submitted } ds s' ∧
        (waitAll = true → s'.ring.inFlight = []) := by
  unfold flush at h
  split at h
  · next hq =>
    cases h
    exact .inl ⟨rfl, hq⟩
  · cases k with
    | failed errno => cases h
    | done arrivals =>
      right
      obtain ⟨ds, hds⟩ := completes_foldl arrivals arrivals { s with ring := s.ring.submitted }
        fun a ha => .inl ha
      cases waitAll with
      | false =>
        cases h
        exact ⟨ds, hds, fun hw => absurd hw (by decide)⟩
      | true =>
        cases h
        obtain ⟨ds', hds'⟩ := completes_completeRest arrivals
          (arrivals.foldl complete { s with ring := s.ring.submitted })
        exact ⟨_, hds.append hds', fun _ => inFlight_completeRest _⟩

theorem counted_done {l l' : List Sqe} {e : Sqe} {res : Int} (hl : s.ring.inFlight = l ++ e :: l')
    (hc : s.ring.Counted) : (s.done (l ++ l') e res).ring.Counted := by
  refine ⟨hc.queued, ?_⟩
  have := hc.outstanding
  rw [hl] at this
  simp only [done, length_append, length_cons, length_nil] at this ⊢
  omega

theorem pending_done {l l' : List Sqe} {e : Sqe} {res : Int} (hl : s.ring.inFlight = l ++ e :: l') :
    (s.done (l ++ l') e res).ring.pending.Sublist s.ring.pending := by
  simp only [Ring.pending, done, hl]
  exact ((List.Sublist.refl l).append (sublist_cons_self e l')).append (List.Sublist.refl _)

theorem Completes.sq {ds : List (Sqe × Int)} (h : Completes arrivals s ds s') :
    s'.ring.sq = s.ring.sq := by
  induction h with
  | refl => rfl
  | step _ _ _ ih => exact ih

theorem drainWalRing_pending {k : Enter} (hc : s.ring.Counted) (h : (s.drainWalRing k).1 = none) :
    (s.drainWalRing k).2.ring.pending = [] := by
  unfold drainWalRing at h ⊢
  split at h
  · next hzero =>
    rw [if_pos hzero]
    exact hc.pending_nil hzero
  · next hzero =>
    rw [if_neg hzero]
    split at h
    · cases h
    · next s' hs' =>
      rcases flush_ok hs' with ⟨-, -, hw⟩ | ⟨ds, hds, hin⟩
      · cases hw
      · show s'.ring.inFlight ++ s'.ring.sq = []
        rw [hin rfl, hds.sq]
        rfl

/-! ## Every operation -/

/-- `Put` and `Delete` return what went wrong. -/
def returning : Option WalError × AsyncDB → AsyncDB
  | (some e, s) => s.note (.returned e)
  | (none, s) => s

/-- `Put` and `Delete`, once there is no `imm_`. -/
def userWrite (s : AsyncDB) (type : ValueType) (key value : Bytes) (k : Schedule) :
    Option WalError × AsyncDB :=
  if s.db.core.full then
    match s.rotateForFlush k.rotate with
    | (some e, s) => (some e, s)
    | (none, s) => s.writeEntry type key value k
  else s.writeEntry type key value k

def write (s : AsyncDB) (type : ValueType) (key value : Bytes) (k : Schedule) : Option AsyncDB :=
  match s.db.core.imm with
  | some _ => none
  | none => some (returning (s.userWrite type key value k))

/-- A rotation on its own: only `Put` and `Delete` make one. -/
def rotate (s : AsyncDB) (k : Schedule) : Option AsyncDB :=
  match s.db.core.imm with
  | some _ => none
  | none => some (returning (s.rotateForFlush k.rotate))

/-- The stage of the collector is set. -/
def gcTo (s : AsyncDB) (gc : GcStage) : AsyncDB := { s with db := { s.db with gc := gc } }

/-- One entry of the collector.  An error ends the pass, and nobody else sees it. -/
def gcEntry (s : AsyncDB) (k : Schedule) : Option AsyncDB :=
  match s.db.gc with
  | .scanning fresh retired (x :: todo) rewritten false =>
    if s.db.isLive x then
      match s.writeEntry .value x.entry.key x.entry.value k with
      | (some _, s) => some (s.gcTo .idle)
      | (none, s) =>
        some (s.gcTo (.scanning fresh retired todo (rewritten + x.entry.value.length) true))
    else some (s.gcTo (.scanning fresh retired todo rewritten false))
  | _ => none

/-- The retirement of the old generations: `ForceDurabilityLocked`, then the MANIFEST. -/
def gcRetire (s : AsyncDB) (k : Schedule) : Option AsyncDB :=
  match s.db.gc with
  | .scanning _ retired [] rewritten false =>
    if s.db.core.snapshots = [] then
      match s.forceDurability k with
      | (some _, s) => some (s.gcTo .idle)
      | (none, s) =>
        let dropped := s.db.gcDropped retired rewritten
        some { s with db := dropped.perform [.publish dropped.manifest] }
    else some (s.gcTo .idle)
  | _ => none

/-- One operation, with what the kernel does meanwhile. -/
def step (s : AsyncDB) : DB.Op × Schedule → Option AsyncDB
  | (.put key value, k) => s.write .value key value k
  | (.delete key, k) => s.write .deletion key [] k
  | (.rotate, k) => s.rotate k
  | (.gcEntry, k) => s.gcEntry k
  | (.gcRetire, k) => s.gcRetire k
  | (op, _) => (s.db.step op).map fun db => { s with db := db }

end AsyncDB

/-! ## The synchronous path -/

/-- How a call of `WriteEntry` ends: `refused` before a byte of the record is
written, `failed` after the record is (in `MaybeSync`), before the memtable. -/
inductive Outcome where
  | ok
  | refused
  | failed
  deriving DecidableEq, Repr

def Outcome.of : Option WalError → Outcome
  | none => .ok
  | some .queueFull => .refused
  | some _ => .failed

/-- A database with its `log_writer_`. -/
structure SyncDB where
  db : DB
  fileOffset : Nat

namespace SyncDB

def attach (db : DB) : SyncDB := ⟨db, db.logFile.bytes.length⟩

/-- What `AddRecord` encodes, at `file_offset_`. -/
def walBytes (s : SyncDB) (type : ValueType) (key value : Bytes) : Bytes :=
  encodeRecord (encodePayload (s.db.record type key value)) s.fileOffset

/-- `AddRecord` on a descriptor that appends. -/
def addRecord (s : SyncDB) (buf : Bytes) : SyncDB :=
  ⟨{ s.db.perform [.appendLog s.db.logNumber buf] with
      unsyncedBytes := s.db.unsyncedBytes + buf.length },
    s.fileOffset + buf.length⟩

def maybeSync (s : SyncDB) : SyncDB :=
  if s.db.needsSync then
    { s with db := { s.db.perform s.db.syncEffects with unsyncedBytes := 0 } }
  else s

def writeEntry (s : SyncDB) (type : ValueType) (key value : Bytes) : Outcome → SyncDB
  | .refused => { s with db := s.db.appendValue type key value }
  | .failed =>
    ({ s with db := s.db.appendValue type key value }).addRecord (s.walBytes type key value)
  | .ok =>
    let t := (({ s with db := s.db.appendValue type key value }).addRecord
      (s.walBytes type key value)).maybeSync
    { t with db := { t.db with core := t.db.core.writeEntry type key (s.db.slot type value) } }

def rotateForFlush (s : SyncDB) : Outcome → SyncDB
  | .ok => ⟨s.db.rotateForFlush, 0⟩
  | _ => s

theorem writeEntry_ok {s : SyncDB} (h : s.fileOffset = s.db.logFile.bytes.length)
    (type : ValueType) (key value : Bytes) :
    (s.writeEntry type key value .ok).db = s.db.writeEntry type key value := by
  have hwal : s.walBytes type key value = s.db.walBytes type key value := by
    rw [walBytes, DB.walBytes, h]
  have hneed : (({ s with db := s.db.appendValue type key value }).addRecord
      (s.walBytes type key value)).db.needsSync = s.db.syncNeeded type key value := by
    rw [hwal]
    rfl
  have happ : s.db.appendEffects type key value = (if s.db.separates type value then
      [.appendVlog s.db.vlogCurrent (s.db.vlogBytes type key value)] else []) ++
      [.appendLog s.db.logNumber (s.walBytes type key value)] := by
    rw [hwal]
    rfl
  unfold writeEntry maybeSync
  simp only [hneed, DB.writeEntry, DB.writeEffects, DB.perform, Disk.applyAll_append, happ,
    DB.unsyncedAfter]
  cases hn : s.db.syncNeeded type key value
  · simp only [Bool.false_eq_true, if_false, Disk.applyAll_nil, ← hwal]
    rfl
  · rfl

end SyncDB

/-! ## The same calls on both paths -/

inductive Call where
  | write (type : ValueType) (key value : Bytes)
  | rotate

namespace AsyncDB

def call (s : AsyncDB) : Call × Schedule → Option WalError × AsyncDB
  | (.write type key value, k) => s.writeEntry type key value k
  | (.rotate, k) => s.rotateForFlush k.rotate

def run (s : AsyncDB) : List (Call × Schedule) → AsyncDB
  | [] => s
  | c :: cs => (s.call c).2.run cs

/-- The calls, each with how it ended. -/
def trace (s : AsyncDB) : List (Call × Schedule) → List (Call × Outcome)
  | [] => []
  | c :: cs => (c.1, Outcome.of (s.call c).1) :: (s.call c).2.trace cs

end AsyncDB

namespace SyncDB

def call (s : SyncDB) : Call × Outcome → SyncDB
  | (.write type key value, o) => s.writeEntry type key value o
  | (.rotate, o) => s.rotateForFlush o

def run (s : SyncDB) : List (Call × Outcome) → SyncDB
  | [] => s
  | c :: cs => (s.call c).run cs

end SyncDB

end BedrockKV
