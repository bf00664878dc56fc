/-
# `BedrockKV.SharedRing` — the two rings that a process and the kernel share

`ring.h` and `ring.cpp`, down to the indices in shared memory.  A submission
goes through the SQ ring and its completion comes back through the CQ ring;
each has a head that one party moves and a tail that the other does, both of
them free-running 32-bit numbers:

    SQ   sq_tail_ (queued so far)   sq_tail_pub_ (published)   sq_head_ (kernel)
    CQ   cq_tail_ (kernel)          cq_head_ (reaped)

What the kernel does is an input.  An `io_uring_enter` is interrupted or fails
before it has consumed anything, or it consumes some of the published entries,
one after another, and returns; completions are posted at any time, in any
order, while the CQ ring has a free slot.  `Reap` takes two steps for an entry,
as it copies the fields out before it gives the slot back.

`ops`, `published`, `consumed`, `posted` and `delivered` are not state of the
program.  They record what has happened, and the theorem is that what is in
memory agrees with them: the kernel has consumed the operations that were
queued, in order and unchanged; the callbacks have got the completions that
were posted, in order; and `outstanding()` and `pending()` count the rest.
The ring of `BedrockKV.AsyncWal`, three lists, is what this is for.
-/
import BedrockKV.Lib.RingBuffer
import BedrockKV.Lib.Run

namespace BedrockKV.Uring

open List RingBuffer Machine

/-! ## Definitions -/

structure Sqe where
  opcode : UInt8
  fd : Int32
  off : UInt64
  addr : UInt64
  len : UInt32
  userData : UInt64
  deriving DecidableEq, Repr

structure Cqe where
  userData : UInt64
  res : Int32
  deriving DecidableEq, Repr

def kOpWrite : UInt8 := 23
def kOpFsync : UInt8 := 3

/-- What `io_uring_setup` reports for a request of `entries`: both rings have a power of two
of slots, the SQ ring no fewer than were asked for. -/
structure Geometry where
  entries : UInt32
  sqBits : Nat
  cqBits : Nat
  entries_le : entries.toNat ≤ 2 ^ sqBits
  sqBits_le : sqBits ≤ 32
  cqBits_lt : cqBits < 32

def Geometry.sqMask (g : Geometry) : UInt32 := UInt32.ofNat (2 ^ g.sqBits - 1)

def Geometry.cqMask (g : Geometry) : UInt32 := UInt32.ofNat (2 ^ g.cqBits - 1)

/-- Who called `io_uring_enter`: `Flush`, the `Flush` of a `Reap` that waits, or its wait. -/
inductive Purpose where
  | flush
  | reapFlush
  | reapWait
  deriving DecidableEq, Repr

/-- Where the process is: between calls, in `io_uring_enter` (and whether the kernel has
consumed something there), at the head of `Reap`'s loop, or in its middle with a completion
copied out. -/
inductive Pc where
  | idle
  | enter (purpose : Purpose) (submitted : Bool)
  | drain
  | took (cqe : Cqe)
  deriving DecidableEq, Repr

structure State where
  outstanding : Nat
  sqTail : UInt32
  queued : UInt32
  sqHead : UInt32
  sqTailPub : UInt32
  sqArray : UInt32 → UInt32
  sqes : UInt32 → Sqe
  cqHead : UInt32
  cqTail : UInt32
  cqes : UInt32 → Cqe
  inFlight : List Sqe
  pc : Pc
  ops : List Sqe
  published : Nat
  consumed : List Sqe
  posted : List (Sqe × Int32)
  delivered : List Cqe

/-- A fresh ring, with whatever is in its memory. -/
def init (sqArray : UInt32 → UInt32) (sqes : UInt32 → Sqe) (cqes : UInt32 → Cqe) : State where
  outstanding := 0
  sqTail := 0
  queued := 0
  sqHead := 0
  sqTailPub := 0
  sqArray := sqArray
  sqes := sqes
  cqHead := 0
  cqTail := 0
  cqes := cqes
  inFlight := []
  pc := .idle
  ops := []
  published := 0
  consumed := []
  posted := []
  delivered := []

/-- The completion of an operation carries its `user_data`. -/
def completion (p : Sqe × Int32) : Cqe := ⟨p.1.userData, p.2⟩

def State.posts (s : State) : List Cqe := s.posted.map completion

section Calls

variable (g : Geometry)

/-- `QueueWrite` and `QueueFsync`, once the entry is made up; `none` is their `false`. -/
def queue (s : State) (sqe : Sqe) : Option State :=
  if g.entries ≤ s.sqTail - s.sqHead then none
  else
    let i := s.sqTail &&& g.sqMask
    some { s with
      sqes := Function.update s.sqes i sqe
      sqArray := Function.update s.sqArray i i
      sqTail := s.sqTail + 1
      queued := s.queued + 1
      ops := s.ops ++ [sqe] }

def queueWrite (s : State) (fd : Int32) (buf : UInt64) (len : Nat) (offset userData : UInt64) :
    Option State :=
  queue g s ⟨kOpWrite, fd, offset, buf, UInt32.ofNat len, userData⟩

def queueFsync (s : State) (fd : Int32) (userData : UInt64) : Option State :=
  queue g s ⟨kOpFsync, fd, 0, 0, 0, userData⟩

/-- The publication of `Flush`; with nothing queued the tail is as it was. -/
def publish (s : State) : State :=
  if 0 < s.queued then { s with sqTailPub := s.sqTail, published := s.ops.length } else s

/-- `Flush`, up to its system call. -/
def flush (s : State) (waitAll : Bool) : State :=
  if s.queued = 0 ∧ waitAll = false then s else { publish s with pc := .enter .flush false }

/-- `Reap` behind its `Flush`: the wait, if there is something to wait for. -/
def reapWait (s : State) : State :=
  if 0 < s.outstanding then { s with pc := .enter .reapWait false } else { s with pc := .drain }

/-- `Reap`, up to its first system call or to its loop. -/
def reap (s : State) (wait : Bool) : State :=
  if wait = true ∧ (0 < s.outstanding ∨ 0 < s.queued) then
    if s.queued = 0 then reapWait s else { publish s with pc := .enter .reapFlush false }
  else { s with pc := .drain }

/-- The end of a `Flush` whose `io_uring_enter` succeeded. -/
def flushed (s : State) : State :=
  { s with queued := 0, outstanding := s.outstanding + s.queued.toNat }

/-- The process, when `io_uring_enter` has returned without an error. -/
def entered (s : State) : Purpose → State
  | .flush => { flushed s with pc := .idle }
  | .reapFlush => reapWait (flushed s)
  | .reapWait => { s with pc := .drain }

/-- The kernel takes the entry at the head of the SQ ring. -/
def consume (s : State) (purpose : Purpose) : State :=
  let sqe := s.sqes (s.sqArray (s.sqHead &&& g.sqMask))
  { s with
    sqHead := s.sqHead + 1
    inFlight := s.inFlight ++ [sqe]
    consumed := s.consumed ++ [sqe]
    pc := .enter purpose true }

/-- The kernel posts the completion of the `i`-th operation in flight. -/
def post (s : State) (i : Nat) (sqe : Sqe) (res : Int32) : State :=
  { s with
    cqes := Function.update s.cqes (s.cqTail &&& g.cqMask) (completion (sqe, res))
    cqTail := s.cqTail + 1
    inFlight := s.inFlight.eraseIdx i
    posted := s.posted ++ [(sqe, res)] }

/-- One round of `Reap`'s loop, to where the fields are copied, or its end. -/
def look (s : State) : State :=
  if s.cqHead = s.cqTail then { s with pc := .idle }
  else { s with pc := .took (s.cqes (s.cqHead &&& g.cqMask)) }

/-- The rest of the round: the slot is given back and the callback gets the completion. -/
def release (s : State) (cqe : Cqe) : State :=
  { s with
    cqHead := s.cqHead + 1
    outstanding := if 0 < s.outstanding then s.outstanding - 1 else s.outstanding
    delivered := s.delivered ++ [cqe]
    pc := .drain }

inductive Action where
  | queueWrite (fd : Int32) (buf : UInt64) (len : Nat) (offset userData : UInt64)
  | queueFsync (fd : Int32) (userData : UInt64)
  | flush (waitAll : Bool)
  | reap (wait : Bool)
  | interrupted
  | failed
  | consume
  | returned
  | look
  | release
  | post (i : Nat) (res : Int32)
  deriving DecidableEq, Repr

/-- The calls are made one after another; the kernel consumes only in `io_uring_enter`, and does
not fail one in which it has. -/
def step (s : State) : Action → Option State
  | .queueWrite fd buf len offset userData =>
    if s.pc = .idle then some ((queueWrite g s fd buf len offset userData).getD s) else none
  | .queueFsync fd userData =>
    if s.pc = .idle then some ((queueFsync g s fd userData).getD s) else none
  | .flush waitAll => if s.pc = .idle then some (flush s waitAll) else none
  | .reap wait => if s.pc = .idle then some (reap s wait) else none
  | .interrupted =>
    match s.pc with
    | .enter _ false => some s
    | _ => none
  | .failed =>
    match s.pc with
    | .enter _ false => some { s with pc := .idle }
    | _ => none
  | .consume =>
    match s.pc with
    | .enter purpose _ => if s.sqHead = s.sqTailPub then none else some (consume g s purpose)
    | _ => none
  | .returned =>
    match s.pc with
    | .enter purpose _ => some (entered s purpose)
    | _ => none
  | .look => if s.pc = .drain then some (look g s) else none
  | .release =>
    match s.pc with
    | .took cqe => some (release s cqe)
    | _ => none
  | .post i res =>
    match s.inFlight[i]? with
    | some sqe =>
      if (s.cqTail - s.cqHead).toNat < 2 ^ g.cqBits then some (post g s i sqe res) else none
    | none => none

end Calls

/-! ## The invariant -/

/-- The operations that are queued since the last `Flush` are not consumed. -/
def Counted (s : State) : Prop := s.consumed.length + s.queued.toNat ≤ s.ops.length

/-- What holds at a place of the process: in `io_uring_enter` everything is published, and what
is queued is consumed only there; the completion that is copied out is the next one. -/
def At (s : State) : Pc → Prop
  | .idle | .drain => Counted s
  | .enter purpose submitted =>
    s.published = s.ops.length ∧ (submitted = false → Counted s) ∧
      (purpose = .reapWait → s.queued = 0)
  | .took cqe => Counted s ∧ s.posts[s.delivered.length]? = some cqe

structure Inv (g : Geometry) (s : State) : Prop where
  sqTail : s.sqTail = UInt32.ofNat s.ops.length
  sqHead : s.sqHead = UInt32.ofNat s.consumed.length
  sqTailPub : s.sqTailPub = UInt32.ofNat s.published
  consumed_le : s.consumed.length ≤ s.published
  published_le : s.published ≤ s.ops.length
  room : s.ops.length ≤ s.consumed.length + g.entries.toNat
  sqArray : ∀ i, s.consumed.length ≤ i → i < s.ops.length →
    s.sqArray (slot g.sqMask i) = slot g.sqMask i
  sqes : Holds g.sqMask s.sqes s.ops s.consumed.length
  consumed : s.consumed <+: s.ops
  cqHead : s.cqHead = UInt32.ofNat s.delivered.length
  cqTail : s.cqTail = UInt32.ofNat s.posted.length
  cqRoom : s.posted.length ≤ s.delivered.length + 2 ^ g.cqBits
  cqes : Holds g.cqMask s.cqes s.posts s.delivered.length
  delivered : s.delivered <+: s.posts
  flight : s.consumed.Perm (s.posted.map Prod.fst ++ s.inFlight)
  count : s.outstanding + s.queued.toNat + s.delivered.length = s.ops.length
  all : s.queued = 0 → s.published = s.ops.length
  place : At s s.pc

theorem toNat_sqMask (g : Geometry) : g.sqMask.toNat = 2 ^ g.sqBits - 1 := by
  have := Nat.pow_le_pow_right (show 0 < 2 by decide) g.sqBits_le
  rw [Geometry.sqMask, UInt32.toNat_ofNat', Nat.mod_eq_of_lt]
  have := Nat.two_pow_pos g.sqBits
  omega

theorem toNat_cqMask (g : Geometry) : g.cqMask.toNat = 2 ^ g.cqBits - 1 := by
  have := Nat.pow_le_pow_right (show 0 < 2 by decide) g.cqBits_lt.le
  rw [Geometry.cqMask, UInt32.toNat_ofNat', Nat.mod_eq_of_lt]
  have := Nat.two_pow_pos g.cqBits
  omega

theorem prefix_step {α : Type} {xs ys : List α} {y : α} (h : xs <+: ys)
    (hy : ys[xs.length]? = some y) : xs ++ [y] <+: ys := by
  obtain ⟨rest, rfl⟩ := h
  rw [getElem?_append_right le_rfl, Nat.sub_self] at hy
  cases rest with
  | nil => cases hy
  | cons z rest =>
    obtain rfl : z = y := Option.some.inj hy
    exact ⟨rest, by rw [append_assoc]; rfl⟩

section Steps

variable {g : Geometry} {s : State}

theorem inv_init (sqArray : UInt32 → UInt32) (sqes : UInt32 → Sqe) (cqes : UInt32 → Cqe) :
    Inv g (init sqArray sqes cqes) where
  sqTail := rfl
  sqHead := rfl
  sqTailPub := rfl
  consumed_le := le_rfl
  published_le := le_rfl
  room := Nat.zero_le _
  sqArray := nofun
  sqes := nofun
  consumed := prefix_refl _
  cqHead := rfl
  cqTail := rfl
  cqRoom := Nat.zero_le _
  cqes := nofun
  delivered := prefix_refl _
  flight := List.Perm.refl _
  count := rfl
  all _ := rfl
  place := le_rfl

theorem Inv.length_posts (s : State) : s.posts.length = s.posted.length := length_map _

variable (h : Inv g s)
include h

theorem Inv.delivered_le : s.delivered.length ≤ s.posted.length := by
  rw [← Inv.length_posts]
  exact h.delivered.length_le

theorem Inv.posted_le : s.posted.length + s.inFlight.length = s.consumed.length := by
  rw [h.flight.length_eq, length_append, length_map]

theorem Inv.near : s.ops.length < s.consumed.length + 2 ^ 32 := by
  have := h.room
  have := g.entries.toNat_lt
  omega

theorem Inv.cqNear : s.posted.length < s.delivered.length + 2 ^ 32 := by
  have := h.cqRoom
  have := Nat.pow_lt_pow_right (show 1 < 2 by decide) g.cqBits_lt
  omega

theorem Inv.moveTo {pc : Pc} (hat : At s pc) : Inv g { s with pc := pc } :=
  { h with place := by cases pc <;> exact hat }

theorem Inv.counted (hq : s.queued = 0) : Counted s := by
  rw [Counted, hq]
  exact h.consumed.length_le

/-- **An entry is queued** into a slot that holds no entry the kernel has not consumed. -/
theorem Inv.queue (hpc : s.pc = .idle) {sqe : Sqe} {s' : State}
    (hq : queue g s sqe = some s') : Inv g s' := by
  unfold Uring.queue at hq
  split_ifs at hq with hfull
  cases hq
  have hle := h.consumed_le.trans h.published_le
  have hentries := g.entries.toNat_lt
  have hlt : s.ops.length < s.consumed.length + g.entries.toNat := by
    rw [UInt32.not_le, UInt32.lt_iff_toNat_lt, h.sqTail, h.sqHead,
      toNat_sub_ofNat hle h.near] at hfull
    omega
  have hcounted : Counted s := by
    have hplace := h.place
    rw [hpc] at hplace
    exact hplace
  unfold Counted at hcounted
  have hqueued : (s.queued + 1).toNat = s.queued.toNat + 1 := by
    rw [UInt32.toNat_add, UInt32.toNat_one, Nat.mod_eq_of_lt (by omega)]
  have hslot : s.sqTail &&& g.sqMask = slot g.sqMask s.ops.length := by
    rw [h.sqTail]
    rfl
  have hlen : (s.ops ++ [sqe]).length = s.ops.length + 1 := length_append
  rw [hslot]
  refine { h with
    sqTail := ?_, published_le := ?_, room := ?_, sqArray := ?_, sqes := ?_, consumed := ?_,
    count := ?_, all := ?_, place := ?_ }
  · dsimp only
    rw [hlen, h.sqTail, ofNat_succ]
  · exact h.published_le.trans (by rw [hlen]; omega)
  · rw [hlen]
    exact hlt
  · intro i hi hilt
    dsimp only
    by_cases hsame : slot g.sqMask i = slot g.sqMask s.ops.length
    · rw [hsame, Function.update_self]
    · rw [Function.update_of_ne hsame]
      refine h.sqArray i hi ?_
      rw [hlen] at hilt
      rcases Nat.lt_succ_iff_lt_or_eq.mp hilt with hlt' | heq
      · exact hlt'
      · exact absurd (by rw [heq]) hsame
  · exact h.sqes.push (toNat_sqMask g) g.sqBits_le
      (hlt.trans_le (by have := g.entries_le; omega)) sqe
  · exact h.consumed.trans (prefix_append _ _)
  · have hcount := h.count
    dsimp only
    rw [hqueued, hlen]
    omega
  · intro hzero
    have hz := congrArg UInt32.toNat hzero
    dsimp only at hz
    rw [hqueued, UInt32.toNat_zero] at hz
    omega
  · dsimp only
    rw [hpc]
    show s.consumed.length + (s.queued + 1).toNat ≤ (s.ops ++ [sqe]).length
    rw [hqueued, hlen]
    omega

variable {purpose : Purpose} {submitted : Bool}

theorem Inv.enter (hpc : s.pc = .idle) (hpurpose : purpose ≠ .reapWait) :
    Inv g { publish s with pc := .enter purpose false } := by
  have hplace : At s .idle := hpc ▸ h.place
  unfold publish
  split_ifs with hq
  · exact { h with
      sqTailPub := h.sqTail
      consumed_le := h.consumed.length_le
      published_le := le_rfl
      all := fun _ => rfl
      place := ⟨rfl, fun _ => hplace, fun hp => absurd hp hpurpose⟩ }
  · have hzero : s.queued = 0 := by
      rw [← UInt32.toNat_inj]
      rw [UInt32.lt_iff_toNat_lt, UInt32.toNat_zero] at hq
      rw [UInt32.toNat_zero]
      omega
    exact h.moveTo ⟨h.all hzero, fun _ => hplace, fun _ => hzero⟩

theorem Inv.flush (hpc : s.pc = .idle) (waitAll : Bool) :
    Inv g (flush s waitAll) := by
  unfold Uring.flush
  split_ifs
  · exact h
  · exact h.enter hpc nofun

theorem Inv.reapWait (hq : s.queued = 0) : Inv g (reapWait s) := by
  unfold Uring.reapWait
  split_ifs
  · exact h.moveTo ⟨h.all hq, fun _ => h.counted hq, fun _ => hq⟩
  · exact h.moveTo (h.counted hq)

theorem Inv.reap (hpc : s.pc = .idle) (wait : Bool) : Inv g (reap s wait) := by
  unfold Uring.reap
  split_ifs with hwait hq
  · exact h.reapWait hq
  · exact h.enter hpc nofun
  · exact h.moveTo (show At s .idle from hpc ▸ h.place)

/-- **A submission that succeeds** is counted as a whole, however much of it was consumed. -/
theorem Inv.flushed (hpc : s.pc = .enter purpose submitted) : Inv g (flushed s) := by
  have hplace : At s (.enter purpose submitted) := hpc ▸ h.place
  refine { h with count := ?_, all := fun _ => hplace.1, place := ?_ }
  · have := h.count
    show s.outstanding + s.queued.toNat + 0 + s.delivered.length = s.ops.length
    omega
  · rw [show (Uring.flushed s).pc = .enter purpose submitted from hpc]
    exact ⟨hplace.1, fun _ => h.consumed.length_le, fun _ => rfl⟩

theorem Inv.entered (hpc : s.pc = .enter purpose submitted) :
    Inv g (entered s purpose) := by
  cases purpose with
  | flush => exact (h.flushed hpc).moveTo ((h.flushed hpc).counted rfl)
  | reapFlush => exact (h.flushed hpc).reapWait rfl
  | reapWait =>
    have hplace : At s (.enter .reapWait submitted) := hpc ▸ h.place
    exact h.moveTo (h.counted (hplace.2.2 rfl))

theorem Inv.failed (hpc : s.pc = .enter purpose false) :
    Inv g { s with pc := .idle } := by
  have hplace : At s (.enter purpose false) := hpc ▸ h.place
  exact h.moveTo (hplace.2.1 rfl)

/-- **The kernel consumes** the next operation, as it was queued. -/
theorem Inv.consume (hpc : s.pc = .enter purpose submitted)
    (hne : s.sqHead ≠ s.sqTailPub) : Inv g (consume g s purpose) := by
  have hplace : At s (.enter purpose submitted) := hpc ▸ h.place
  obtain ⟨hpublished, -, hwait⟩ := hplace
  have hlt : s.consumed.length < s.published := by
    refine Nat.lt_of_le_of_ne h.consumed_le fun heq => hne ?_
    rw [h.sqHead, h.sqTailPub, heq]
  have hops : s.consumed.length < s.ops.length := hlt.trans_le h.published_le
  have hget := getElem?_eq_getElem hops
  generalize s.ops[s.consumed.length] = op at hget
  have hread : s.sqes (s.sqArray (s.sqHead &&& g.sqMask)) = op := by
    have hslot : s.sqHead &&& g.sqMask = slot g.sqMask s.consumed.length := by
      rw [h.sqHead]
      rfl
    rw [hslot, h.sqArray _ le_rfl hops]
    exact h.sqes _ _ le_rfl hget
  have hlen : (s.consumed ++ [op]).length = s.consumed.length + 1 := length_append
  unfold Uring.consume
  dsimp only
  rw [hread]
  refine { h with
    sqHead := ?_, consumed_le := ?_, room := ?_, sqArray := fun i hi => ?_, sqes := ?_,
    consumed := ?_, flight := ?_, place := ⟨hpublished, nofun, hwait⟩ }
  · dsimp only
    rw [hlen, h.sqHead, ofNat_succ]
  · rw [hlen]
    exact hlt
  · have := h.room
    rw [hlen]
    dsimp only
    omega
  · rw [hlen] at hi
    exact h.sqArray i (by omega)
  · refine h.sqes.advance ?_
    rw [hlen]
    exact Nat.le_succ _
  · exact prefix_step h.consumed hget
  · rw [← append_assoc]
    exact h.flight.append_right [op]

/-- **A completion is posted** into a slot that holds none that is not reaped. -/
theorem Inv.post {i : Nat} {sqe : Sqe} {res : Int32} (hi : s.inFlight[i]? = some sqe)
    (hfree : (s.cqTail - s.cqHead).toNat < 2 ^ g.cqBits) : Inv g (post g s i sqe res) := by
  rw [h.cqTail, h.cqHead, toNat_sub_ofNat h.delivered_le h.cqNear] at hfree
  have hlen : (s.posted ++ [(sqe, res)]).length = s.posted.length + 1 := length_append
  have hposts : (s.posted ++ [(sqe, res)]).map completion = s.posts ++ [completion (sqe, res)] :=
    map_append
  have hslot : s.cqTail &&& g.cqMask = slot g.cqMask s.posts.length := by
    rw [h.cqTail, Inv.length_posts]
    rfl
  have hle := h.delivered_le
  unfold Uring.post
  rw [hslot]
  refine { h with
    cqTail := ?_, cqRoom := ?_, cqes := ?_, delivered := ?_, flight := ?_, place := ?_ }
  · dsimp only
    rw [hlen, h.cqTail, ofNat_succ]
  · rw [hlen]
    dsimp only
    omega
  · unfold State.posts
    rw [hposts]
    refine h.cqes.push (toNat_cqMask g) g.cqBits_lt.le ?_ _
    rw [Inv.length_posts]
    omega
  · unfold State.posts
    rw [hposts]
    exact h.delivered.trans (prefix_append _ _)
  · obtain ⟨hlt, rfl⟩ := List.getElem?_eq_some_iff.mp hi
    dsimp only
    rw [map_append, append_assoc]
    exact h.flight.trans ((getElem_cons_eraseIdx_perm hlt).symm.append_left _)
  · have hplace := h.place
    change At _ s.pc
    cases hpc : s.pc with
    | idle | drain | enter =>
      rw [hpc] at hplace
      exact hplace
    | took cqe =>
      rw [hpc] at hplace
      refine ⟨hplace.1, ?_⟩
      unfold State.posts
      rw [hposts, getElem?_append_left (List.getElem?_eq_some_iff.mp hplace.2).1]
      exact hplace.2

theorem Inv.look (hpc : s.pc = .drain) : Inv g (look g s) := by
  have hplace : At s .drain := hpc ▸ h.place
  unfold Uring.look
  split_ifs with hempty
  · exact h.moveTo hplace
  · have hlt : s.delivered.length < s.posts.length := by
      rw [Inv.length_posts]
      refine Nat.lt_of_le_of_ne h.delivered_le fun heq => hempty ?_
      rw [h.cqHead, h.cqTail, heq]
    have hget := getElem?_eq_getElem hlt
    have hread : s.cqes (s.cqHead &&& g.cqMask) = s.posts[s.delivered.length] := by
      rw [h.cqHead]
      exact h.cqes _ _ le_rfl hget
    refine h.moveTo ⟨hplace, ?_⟩
    rw [hread, hget]

/-- **A completion is delivered**, the next one, and the counter is not at zero. -/
theorem Inv.release {cqe : Cqe} (hpc : s.pc = .took cqe) :
    Inv g (release s cqe) := by
  have hplace : At s (.took cqe) := hpc ▸ h.place
  obtain ⟨hcounted, hget⟩ := hplace
  have hlt := (List.getElem?_eq_some_iff.mp hget).1
  have hlen : (s.delivered ++ [cqe]).length = s.delivered.length + 1 := length_append
  have hcount := h.count
  have hposted := h.posted_le
  rw [Inv.length_posts] at hlt
  unfold Counted at hcounted
  have hpos : 0 < s.outstanding := by omega
  unfold Uring.release
  rw [if_pos hpos]
  refine { h with
    cqHead := ?_, cqRoom := ?_, cqes := ?_, delivered := ?_, count := ?_, place := hcounted }
  · dsimp only
    rw [hlen, h.cqHead, ofNat_succ]
  · have := h.cqRoom
    rw [hlen]
    dsimp only
    omega
  · refine h.cqes.advance ?_
    rw [hlen]
    exact Nat.le_succ _
  · exact prefix_step h.delivered hget
  · dsimp only
    rw [hlen]
    omega

theorem Inv.step {a : Action} {s' : State} (hstep : step g s a = some s') :
    Inv g s' := by
  have hqueue : ∀ sqe, s.pc = .idle → Inv g ((Uring.queue g s sqe).getD s) := by
    intro sqe hpc
    cases hq : Uring.queue g s sqe with
    | none => exact h
    | some s' => exact h.queue hpc hq
  cases a with
  | queueWrite fd buf len offset userData | queueFsync fd userData =>
    obtain ⟨hpc, ⟨⟩⟩ := Option.ite_none_right_eq_some.mp hstep
    exact hqueue _ hpc
  | flush waitAll =>
    obtain ⟨hpc, ⟨⟩⟩ := Option.ite_none_right_eq_some.mp hstep
    exact h.flush hpc waitAll
  | reap wait =>
    obtain ⟨hpc, ⟨⟩⟩ := Option.ite_none_right_eq_some.mp hstep
    exact h.reap hpc wait
  | interrupted =>
    dsimp only [Uring.step] at hstep
    split at hstep
    · exact Option.some.inj hstep ▸ h
    · cases hstep
  | failed =>
    dsimp only [Uring.step] at hstep
    split at hstep
    · next hpc => exact Option.some.inj hstep ▸ h.failed hpc
    · cases hstep
  | consume =>
    dsimp only [Uring.step] at hstep
    split at hstep
    · next hpc =>
      obtain ⟨hne, ⟨⟩⟩ := Option.ite_none_left_eq_some.mp hstep
      exact h.consume hpc hne
    · cases hstep
  | returned =>
    dsimp only [Uring.step] at hstep
    split at hstep
    · next hpc => exact Option.some.inj hstep ▸ h.entered hpc
    · cases hstep
  | look =>
    obtain ⟨hpc, ⟨⟩⟩ := Option.ite_none_right_eq_some.mp hstep
    exact h.look hpc
  | release =>
    dsimp only [Uring.step] at hstep
    split at hstep
    · next hpc => exact Option.some.inj hstep ▸ h.release hpc
    · cases hstep
  | post i res =>
    dsimp only [Uring.step] at hstep
    split at hstep
    · next hi =>
      obtain ⟨hfree, ⟨⟩⟩ := Option.ite_none_right_eq_some.mp hstep
      exact h.post hi hfree
    · cases hstep

end Steps

/-! ## Every run -/

/-- What the rings guarantee in a state. -/
structure Sound (g : Geometry) (s : State) : Prop where
  /-- The kernel has consumed the first of the queued operations, each as it was queued … -/
  consumed : s.consumed <+: s.ops
  /-- … and finds each of the others in its slot, published or not. -/
  slots : ∀ i op, s.consumed.length ≤ i → s.ops[i]? = some op →
    s.sqes (s.sqArray (slot g.sqMask i)) = op
  /-- A consumed operation is in flight or has been completed, once. -/
  completed : s.consumed.Perm (s.posted.map Prod.fst ++ s.inFlight)
  /-- The callbacks have had the first of the completions, each once and with its
  `user_data` and result … -/
  delivered : s.delivered <+: s.posted.map completion
  /-- … and where `Reap` finds the ring empty, all of them. -/
  drained : s.cqHead = s.cqTail → s.delivered = s.posted.map completion
  /-- `outstanding() + pending()`. -/
  count : s.outstanding + s.queued.toNat = s.ops.length - s.delivered.length

theorem Inv.sound {g : Geometry} {s : State} (h : Inv g s) : Sound g s where
  consumed := h.consumed
  slots i op hi hop := by
    rw [h.sqArray i hi (List.getElem?_eq_some_iff.mp hop).1]
    exact h.sqes i op hi hop
  completed := h.flight
  delivered := h.delivered
  drained hempty := by
    rw [h.cqHead, h.cqTail] at hempty
    refine h.delivered.eq_of_length ?_
    rw [ofNat_inj h.delivered_le h.cqNear hempty]
    exact (Inv.length_posts s).symm
  count := by
    have := h.count
    omega

/-- **The rings lose nothing**: for rings of any size and any contents of their memory, after any
calls of `QueueWrite`, `QueueFsync`, `Flush` and `Reap`, with any failures, submissions and
completions of the kernel among them. -/
theorem run_rings (g : Geometry) (sqArray : UInt32 → UInt32) (sqes : UInt32 → Sqe)
    (cqes : UInt32 → Cqe) {tr : List Action} {s : State}
    (hrun : run (step g) (init sqArray sqes cqes) tr = some s) : Sound g s :=
  (run_invariant (fun _ s => Inv g s) (inv_init sqArray sqes cqes)
    (fun _ _ _ _ h hstep => h.step hstep) hrun).sound

/-- A ring with two slots.  A submission fails and leaves its entry published; another is queued
behind it and a third refused; then one of the two is consumed and reaped. -/
def sampleGeometry : Geometry := ⟨2, 1, 2, by decide, by decide, by decide⟩

def sampleActions : List Action :=
  [.queueWrite 3 4096 10 0 7, .flush false, .failed, .queueFsync 3 8, .queueFsync 3 9,
    .flush true, .interrupted, .consume, .returned, .post 0 10, .reap false, .look, .release, .look]

theorem run_rings_sampleActions :
    ∃ s, run (step sampleGeometry) (init id (fun _ => ⟨0, 0, 0, 0, 0, 0⟩) fun _ => ⟨0, 0⟩)
        sampleActions = some s ∧
      s.delivered = [⟨7, 10⟩] ∧ s.outstanding = 1 ∧ s.queued = 0 ∧ Sound sampleGeometry s := by
  have hrun : (run (step sampleGeometry) (init id (fun _ => ⟨0, 0, 0, 0, 0, 0⟩) fun _ => ⟨0, 0⟩)
      sampleActions).map (fun s => (s.delivered, s.outstanding, s.queued)) =
        some ([⟨7, 10⟩], 1, 0) := by decide +kernel
  obtain ⟨s, hs, heq⟩ := Option.map_eq_some_iff.mp hrun
  simp only [Prod.mk.injEq] at heq
  exact ⟨s, hs, heq.1, heq.2.1, heq.2.2, run_rings sampleGeometry id _ _ hs⟩

end BedrockKV.Uring
