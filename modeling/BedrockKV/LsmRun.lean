/-
# `BedrockKV.LsmRun` — every run reads what was written

The whole-run statement about the machine of `BedrockKV.Lsm`.  `history` is
the list of versions the `Put`s and `Delete`s of a run created, each with the
sequence number the code gave it; `determined` is what those with a number of
at most `S` say about a key.  Flushes, compactions and snapshots do not occur
in either, so `run_get` says that none of them can be seen by a reader.
-/
import BedrockKV.LsmBytes

namespace BedrockKV

open List MultiVersion

namespace Lsm

/-- The version a step writes, if it writes one. -/
def written (s : Lsm) : Op → List Entry
  | .put key value => [⟨key, s.nextSeq, .value, value⟩]
  | .delete key => [⟨key, s.nextSeq, .deletion, []⟩]
  | _ => []

/-- **Each step keeps the invariant**, its version added to the history. -/
theorem step_inv {h : List Entry} {s s' : Lsm} {op : Op} (hi : s.Inv h)
    (hs : s.step op = some s') : s'.Inv (h ++ s.written op) := by
  cases op with
  | put key value | delete key => exact write_inv hi hs
  | rotate => exact (append_nil h).symm ▸ rotate_inv hi hs
  | flushBuild => exact (append_nil h).symm ▸ flushBuild_inv hi hs
  | flushInstall => exact (append_nil h).symm ▸ flushInstall_inv hi hs
  | flushDone => exact (append_nil h).symm ▸ flushDone_inv hi hs
  | pick => exact (append_nil h).symm ▸ pick_inv hi hs
  | captureFloor => exact (append_nil h).symm ▸ captureFloor_inv hi hs
  | sealOutput => exact (append_nil h).symm ▸ sealOutput_inv hi hs
  | installCompaction => exact (append_nil h).symm ▸ installCompaction_inv hi hs
  | getSnapshot =>
    cases hs
    exact (append_nil h).symm ▸ getSnapshot_inv hi
  | releaseSnapshot handle =>
    cases hs
    exact (append_nil h).symm ▸ releaseSnapshot_inv hi handle

/-- The versions a run writes, in order. -/
def history (opt : Options) (tr : List Op) : List Entry :=
  Machine.emitted step written (fresh opt) tr

/-- What the versions with a number of at most `S` determine about `key`: the
value of the last of them, nothing if that is a deletion or there is none. -/
def determined (h : List Entry) (key : Bytes) (S : ReadSeq) : Option Bytes :=
  (h.filter fun e => decide (e.user = key ∧ WithTop.some e.seq ≤ S)).getLast?.bind entryView.val

/-- `Get` returns the value, or `NotFound` if there is none. -/
def Returns (key : Bytes) (r : Except Status Bytes) : Option Bytes → Prop
  | some v => r = .ok v
  | none => r = .error (notFoundDeleted key) ∨ r = .error (notFoundMissing key)

theorem get_returns (s : Lsm) (key : Bytes) (S : ReadSeq) :
    Returns key (s.get key S) (s.lookup key S).toOption := by
  unfold get getWith
  cases s.lookup key S with
  | found v => rfl
  | deleted => exact .inl rfl
  | missing => exact .inr rfl

theorem run_inv {opt : Options} {tr : List Op} {s : Lsm}
    (hrun : Machine.run step (fresh opt) tr = some s) :
    s.Inv (history opt tr) ∧ (history opt tr).Pairwise fun a b => a.seq < b.seq := by
  refine Machine.emitted_invariant (fun h s => s.Inv h ∧ h.Pairwise fun a b => a.seq < b.seq)
    ⟨fresh_inv opt, List.Pairwise.nil⟩ ?_ hrun
  rintro h s op s' ⟨hi, hsorted⟩ hs
  refine ⟨step_inv hi hs, pairwise_append.mpr ⟨hsorted, ?_, ?_⟩⟩
  · cases op <;> first | exact pairwise_singleton _ _ | exact List.Pairwise.nil
  · intro x hx y hy
    have hseq : y.seq = s.nextSeq := by
      cases op <;> simp_all [written]
    exact hseq ▸ hi.contents.seq_lt x hx

theorem get_determined {opt : Options} {tr : List Op} {s : Lsm}
    (hrun : Machine.run step (fresh opt) tr = some s) {S : ReadSeq} (hS : s.Live S)
    (key : Bytes) : Returns key (s.get key S) (determined (history opt tr) key S) := by
  obtain ⟨hi, hsorted⟩ := run_inv hrun
  have hspec : entryView.Reads (history opt tr) key S (determined (history opt tr) key S) :=
    View.reads_getLast hsorted
  rw [(lookup_reads hi hS key).unique hi.contents.distinct hspec |>.symm]
  exact get_returns s key S

theorem Live.bound {pl : Platform} {s : Lsm} (hf : s.Fits pl) {S : ReadSeq} (hS : s.Live S)
    (q : Nat) (hq : S = WithTop.some q) : q < 2 ^ 56 := by
  rcases hS with rfl | ⟨sn, hsn, rfl⟩
  · cases hq
  · rw [← WithTop.coe_inj.mp hq]
    exact hf.snapshots sn hsn

section Bytes

variable {pl : Platform} {opt : Options} {tr : List Op}

/-- Along a run whose sizes fit, the bytes take the steps of the versions. -/
theorem run_of_bytes (hsize : Machine.Always (stepBytes pl) (Fits pl) (fresh opt) tr) :
    Machine.run (stepBytes pl) (fresh opt) tr = Machine.run step (fresh opt) tr := by
  refine (Machine.always_congr (fun s : Lsm => ∃ h, s.Inv h) ?_ ?_ ⟨[], fresh_inv opt⟩ hsize).1
  · rintro s op ⟨h, hi⟩ hf
    exact stepBytes_eq hi hf op
  · rintro s op s' ⟨h, hi⟩ hf hs
    rw [stepBytes_eq hi hf] at hs
    exact ⟨_, step_inv hi hs⟩

theorem always_bytes (hsize : Machine.Always step (Fits pl) (fresh opt) tr) :
    Machine.Always (stepBytes pl) (Fits pl) (fresh opt) tr := by
  refine (Machine.always_congr (fun s : Lsm => ∃ h, s.Inv h) ?_ ?_ ⟨[], fresh_inv opt⟩ hsize).2
  · rintro s op ⟨h, hi⟩ hf
    exact (stepBytes_eq hi hf op).symm
  · rintro s op s' ⟨h, hi⟩ - hs
    exact ⟨_, step_inv hi hs⟩

/-- **Every interleaving reads what was written**, as long as the sizes fit.
After any run of `Put`, `Delete`, rotation, flush and compaction steps and
snapshot operations, a latest `Get` returns the last `Put` of its key unless a
`Delete` followed, and a `Get` at a live snapshot what the writes up to its
number determine. -/
theorem run_get {s : Lsm} (hsize : Machine.Always (stepBytes pl) (Fits pl) (fresh opt) tr)
    (hrun : Machine.run (stepBytes pl) (fresh opt) tr = some s) (key : Bytes) :
    Returns key (s.getBytes pl key kMaxSeq) (determined (history opt tr) key kMaxSeq) ∧
    ∀ sn ∈ s.snapshots,
      Returns key (s.getBytes pl key (WithTop.some sn.sequence))
        (determined (history opt tr) key (WithTop.some sn.sequence)) := by
  have hf := hsize.last hrun
  rw [run_of_bytes hsize] at hrun
  have hi := (run_inv hrun).1
  have hget : ∀ S, s.Live S →
      Returns key (s.getBytes pl key S) (determined (history opt tr) key S) := by
    intro S hS
    rw [getBytes, getWithBytes_eq hi hf (hS.bound hf)]
    exact get_determined hrun hS key
  exact ⟨hget _ (.inl rfl), fun sn hsn => hget _ (.inr ⟨sn, hsn, rfl⟩)⟩

end Bytes

/-- Options under which one L0 file is enough for a compaction. -/
def smallOptions : Options where
  writeBufferSize := 1000
  l0CompactionTrigger := 1
  size := ⟨List.length, List.length⟩

/-- A snapshot between two writes of `k`, with a flush and a compaction running
while the second is made. -/
def sampleRun : List Op :=
  [.put [107] [1], .getSnapshot, .rotate, .flushBuild, .flushInstall, .flushDone, .pick,
    .delete [107], .captureFloor, .getSnapshot, .put [107] [2], .sealOutput, .installCompaction]

theorem one_height : 1 ≤ 1 ∧ 1 ≤ SkipList.kMaxLevel := by decide

/-- Nodes of height one. -/
def flat : Platform := ⟨fun _ => ⟨1, one_height⟩, 0⟩

theorem run_get_sampleRun :
    ∃ s, Machine.run (stepBytes flat) (fresh smallOptions) sampleRun = some s ∧
      s.snapshots = [⟨0, 1⟩, ⟨1, 2⟩] ∧ s.getBytes flat [107] kMaxSeq = .ok [2] ∧
      s.getBytes flat [107] (WithTop.some 1) = .ok [1] := by
  have hsize := @always_bytes flat smallOptions sampleRun (by decide +kernel)
  have hsome : (Machine.run step (fresh smallOptions) sampleRun).map snapshots =
      some [⟨0, 1⟩, ⟨1, 2⟩] := by decide
  obtain ⟨s, hs, hsnap⟩ := Option.map_eq_some_iff.mp hsome
  rw [← run_of_bytes hsize] at hs
  obtain ⟨hlatest, hlive⟩ := run_get hsize hs [107]
  exact ⟨s, hs, hsnap, hlatest, hlive ⟨0, 1⟩ (by rw [hsnap]; exact mem_cons_self)⟩

/-- **A key of 2^32 bytes** is written and not found: the length in front of it is 0. -/
theorem run_get_longKey : ∃ key s, key.length = 2 ^ 32 ∧
    Machine.run (stepBytes flat) (fresh smallOptions) [.put key [1]] = some s ∧
    determined (history smallOptions [.put key [1]]) key kMaxSeq = some [1] ∧
    s.getBytes flat key kMaxSeq = .error (notFoundMissing key) := by
  obtain ⟨key, hlen⟩ : ∃ key : Bytes, key.length = 2 ^ 32 :=
    ⟨replicate (2 ^ 32) 0, length_replicate⟩
  refine ⟨key, (fresh smallOptions).writeEntry .value key [1], hlen, rfl, ?_, ?_⟩
  · have hhistory : history smallOptions [.put key [1]] = [⟨key, 1, .value, [1]⟩] := rfl
    rw [hhistory, determined, filter_cons_of_pos (by simp [kMaxSeq])]
    rfl
  · have hlookup : ((fresh smallOptions).writeEntry .value key [1]).lookupBytes flat key kMaxSeq =
        .ok .missing := by
      rw [lookupBytes, Mem.MemTable.get_long _ hlen.ge]
      rfl
    rw [getBytes, getWithBytes, hlookup]

end Lsm

end BedrockKV
