/-
# `BedrockKV.DbBytes` — the database over the bytes of its sources

The steps and the reads of `BedrockKV.Db` over the skiplists and the files of
`BedrockKV.LsmBytes`.  Logs and value logs are bytes there already, so that
only what asks a memtable or a table is new: `Get`, `Scan`, the flush, the
merge, and the liveness check of the garbage collector.

Where the sizes fit these are the functions of `BedrockKV.Db` (`stepBytes_eq`,
`getBytes_eq`, `scanBytes_eq`).  So a run of `step` through states that fit, as
the results about crashes and value logs ask for, is a run over the bytes
(`run_of_bytes`, `always_bytes`), and what is read there is stated with
`getBytes` and `scanBytes`.
-/
import BedrockKV.DbStep

namespace BedrockKV

open List MultiVersion

namespace DB

section Bytes

variable (pl : Platform) (s : DB)

/-- The sizes of the store in memory fit. -/
abbrev Fits : Prop := s.core.Fits pl

def getBytes (key : Bytes) (S : ReadSeq) : Except Status Bytes :=
  s.core.getWithBytes pl key S s.resolve

def scanBytes (first last : Bytes) (S : ReadSeq) : List (Bytes × Bytes) × Except Status Unit :=
  s.core.scanWithBytes pl S s.resolve first last

/-- The liveness check asks for no status: an entry whose key meets damage is dead. -/
def isLiveBytes (x : GcItem) : Bool :=
  match s.core.lookupBytes pl x.entry.key kMaxSeq with
  | .ok (.found stored) =>
    match decodeValuePointer stored with
    | some p => decide (p.vlogNumber = x.gen) && decide (p.offset = x.entry.offset)
    | none => false
  | _ => false

def gcEntryBytes : Option DB :=
  match s.gc with
  | .scanning fresh retired (x :: todo) rewritten false =>
    if s.isLiveBytes pl x then
      some { s.writeEntry .value x.entry.key x.entry.value with
        gc := .scanning fresh retired todo (rewritten + x.entry.value.length) true }
    else some { s with gc := .scanning fresh retired todo rewritten false }
  | _ => none

def flushBuildBytes : Option DB :=
  if s.flushEnabled then
    (s.core.flushBuildBytes pl).map fun c =>
      match c.flush with
      | .built t => { s.perform (tableEffects s.core.immSstNumber t) with core := c }
      | _ => { s with core := c, gc := .idle }
  else none

def stepBytes : Op → Option DB
  | .flushBuild => s.flushBuildBytes pl
  | .captureFloor => (s.core.captureFloorBytes pl).map fun c => { s with core := c }
  | .sealOutput =>
    (s.core.sealOutputBytes pl).map fun c => { s.perform s.sealEffects with core := c }
  | .gcEntry => s.gcEntryBytes pl
  | op => s.step op

end Bytes

/-- A database that is opened has in memory what the logs have. -/
theorem opened_fits {pl : Platform} {c : Lsm} (hf : c.Fits pl) {r : DB} {opt : Options} {d : Disk}
    {refs : List TableRef} (hr : r = opened opt d refs) (hcur : r.core.current = c.current)
    (hmem : ∀ e ∈ r.core.mem.entries, e ∈ c.mem.entries ++ c.pending) : r.Fits pl :=
  hf.recovered hcur (by rw [hr]; rfl) (by rw [hr]; rfl) (by rw [hr]; rfl) hmem

variable {pl : Platform} {s : DB} {h : List Entry} (hi : s.core.Inv h) (hf : s.Fits pl)
include hi hf

theorem isLiveBytes_eq (x : GcItem) : s.isLiveBytes pl x = s.isLive x := by
  unfold isLiveBytes isLive
  rw [Lsm.lookupBytes_eq hi hf kMaxSeq_bound]
  cases s.core.lookup x.entry.key kMaxSeq <;> rfl

/-- **The steps over the bytes are the steps of the database.** -/
theorem stepBytes_eq (op : Op) : s.stepBytes pl op = s.step op := by
  cases op with
  | flushBuild =>
    simp only [stepBytes, step, flushBuildBytes, flushBuild, flushBuildEffects,
      Lsm.flushBuildBytes_eq hi hf]
    cases s.core.flushBuild with
    | none => rfl
    | some c => cases hc : c.flush <;> simp only [Option.map_some, hc] <;> rfl
  | captureFloor => exact congrArg (Option.map _) (Lsm.captureFloorBytes_eq hi hf)
  | sealOutput => exact congrArg (Option.map _) (Lsm.sealOutputBytes_eq hi hf)
  | gcEntry =>
    have hlive : s.isLiveBytes pl = s.isLive := funext (isLiveBytes_eq hi hf)
    change s.gcEntryBytes pl = s.gcEntry
    unfold gcEntryBytes gcEntry
    exact hlive ▸ rfl
  | _ => rfl

omit hi hf in
theorem run_of_bytes {tr : List Op} (hi : ∃ h, s.core.Inv h)
    (hsize : Machine.Always (stepBytes pl) (Fits pl) s tr) :
    Machine.run (stepBytes pl) s tr = Machine.run step s tr := by
  refine (Machine.always_congr (fun s => ∃ h, s.core.Inv h) ?_ ?_ hi hsize).1
  · rintro s op ⟨h, hi⟩ hf
    exact stepBytes_eq hi hf op
  · rintro s op s' ⟨h, hi⟩ hf hs
    rw [stepBytes_eq hi hf] at hs
    exact ⟨_, (step_core hs).inv hi⟩

omit hi hf in
theorem always_bytes {tr : List Op} (hi : ∃ h, s.core.Inv h)
    (hsize : Machine.Always step (Fits pl) s tr) : Machine.Always (stepBytes pl) (Fits pl) s tr :=
  (Machine.always_congr (fun s => ∃ h, s.core.Inv h)
    (fun _ op ⟨_, hi⟩ hf => (stepBytes_eq hi hf op).symm)
    (fun _ _ _ ⟨_, hi⟩ _ hs => ⟨_, (step_core hs).inv hi⟩) hi hsize).2

variable {S : ReadSeq} (hS : ∀ q : Nat, S = WithTop.some q → q < 2 ^ 56)
include hS

theorem getBytes_eq (key : Bytes) : s.getBytes pl key S = s.get key S :=
  Lsm.getWithBytes_eq hi hf hS key s.resolve

theorem scanBytes_eq {first : Bytes} (hfirst : first.length < 2 ^ 32) (last : Bytes) :
    s.scanBytes pl first last S = s.scan first last S :=
  Lsm.scanWithBytes_eq hi hf hS s.resolve hfirst last

omit hi hS in
theorem getBytes_live (hi : ∃ h, s.core.Inv h) (hS : s.core.Live S) (key : Bytes) :
    s.getBytes pl key S = s.get key S := by
  obtain ⟨h, hi⟩ := hi
  exact getBytes_eq hi hf (hS.bound hf) key

end DB

end BedrockKV
