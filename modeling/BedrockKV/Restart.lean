/-
# `BedrockKV.Restart` — recovery that is stopped and run again

`opened` says what `DB::Open` makes of a directory in one go.  Here its steps
2b, 4 and 5 are the file-system calls they issue, in their order:

    2b  create each live value log that is missing, oldest first
    4   unlink what the MANIFEST does not name, in the order of `readdir`
    5   for each log at or above the floor, oldest first: create it if it is
        missing; cut it, and sync it, where the replay stops

`recovered_disk` says that all of them together give the directory of
`opened`.  A process that dies leaves a prefix of them done.  Each call alone
keeps what recovery reads (`Keeps.call`): it never touches the MANIFEST or a
table that is named, and a log that was cut replays to the records it was cut
behind (`replayLog_take`).  So `Open` finds the same however often it was
stopped before (`openDb_interrupted`).
-/
import BedrockKV.LsmRun
import BedrockKV.WalFile
import BedrockKV.Open

namespace BedrockKV

open List Keyed Log

def File.truncate (f : File) (n : Nat) : File := ⟨f.bytes.take n, min f.synced n⟩

/-! ## The calls of recovery -/

/-- A file-system call of recovery.  Only recovery truncates. -/
inductive RecoveryCall where
  | file (effect : Effect)
  | truncateLog (number length : Nat)

namespace Disk

def call (d : Disk) : RecoveryCall → Disk
  | .file e => d.apply e
  | .truncateLog n k => { d with logs := Keyed.modify d.logs n fun f => f.truncate k }

def callAll (d : Disk) (calls : List RecoveryCall) : Disk := calls.foldl call d

theorem callAll_append (d : Disk) (xs ys : List RecoveryCall) :
    d.callAll (xs ++ ys) = (d.callAll xs).callAll ys := foldl_append

end Disk

namespace DB

/-- Step 2b. -/
def createCalls (opt : Options) (d : Disk) : List RecoveryCall :=
  ((liveVlogs opt d.manifestState).filter fun n => decide (n ∉ Keyed.keys d.vlogs)).map
    fun n => .file (.createVlog n)

/-- A file that `RemoveOrphanFiles` unlinks. -/
inductive Orphan where
  | sst (number : Nat)
  | log (number : Nat)
  | vlog (number : Nat)
  deriving DecidableEq

def Orphan.unlink : Orphan → RecoveryCall
  | .sst n => .file (.unlinkSst n)
  | .log n => .file (.unlinkLog n)
  | .vlog n => .file (.unlinkVlog n)

/-- The orphans of the directory, in one order. -/
def orphanFiles (opt : Options) (d : Disk) : List Orphan :=
  ((Keyed.keys d.ssts).filter fun n =>
      decide (n ∉ d.manifestState.files.map FileMeta.fileNumber)).map .sst ++
  ((Keyed.keys d.logs).filter fun n => decide (n < d.manifestState.logNumber)).map .log ++
  ((Keyed.keys d.vlogs).filter fun n => decide (n ∉ liveVlogs opt d.manifestState)).map .vlog

/-- Step 5 for one log. -/
def replayCalls (d : Disk) (p : Nat × File) : List RecoveryCall :=
  (if p.1 ∈ Keyed.keys d.logs then [] else [.file (.createLog p.1)]) ++
  match (replayLog p.2.bytes).truncatedAt with
  | none => []
  | some k => [.truncateLog p.1 k, .file (.syncLog p.1)]

/-- The calls of steps 2b, 4 and 5, for the order in which `readdir` lists the
orphans. -/
def recoveryCalls (opt : Options) (d : Disk) (orphans : List Orphan) : List RecoveryCall :=
  createCalls opt d ++ orphans.map Orphan.unlink ++
    (logsToReplay d d.manifestState.logNumber).flatMap (replayCalls d)

/-- The calls recovery may issue in the directory `d`. -/
inductive MayCall (opt : Options) (d : Disk) : RecoveryCall → Prop where
  | createVlog {n : Nat} (on : opt.enableValueSeparation = true)
      (live : n ∈ liveVlogs opt d.manifestState) : MayCall opt d (.file (.createVlog n))
  | unlinkSst {n : Nat} (h : n ∉ d.manifestState.files.map FileMeta.fileNumber) :
      MayCall opt d (.file (.unlinkSst n))
  | unlinkLog {n : Nat} (h : n < d.manifestState.logNumber) : MayCall opt d (.file (.unlinkLog n))
  | unlinkVlog {n : Nat} (h : n ∉ liveVlogs opt d.manifestState) :
      MayCall opt d (.file (.unlinkVlog n))
  | createLog (h : ∀ p ∈ d.logs, p.1 < d.manifestState.logNumber) :
      MayCall opt d (.file (.createLog d.manifestState.logNumber))
  | truncateLog {n k : Nat} {f : File} (mem : (n, f) ∈ d.logs)
      (cut : (replayLog f.bytes).truncatedAt = some k) : MayCall opt d (.truncateLog n k)
  | syncLog {n : Nat} : MayCall opt d (.file (.syncLog n))

section Calls

variable {opt : Options} {d : Disk}

/-- The logs to replay are those at or above the floor; without one, the
floor's, which is missing. -/
theorem mem_logsToReplay {p : Nat × File} {floor : Nat} : p ∈ logsToReplay d floor ↔
    p ∈ d.logs ∧ floor ≤ p.1 ∨ p = (floor, .empty) ∧ ∀ q ∈ d.logs, q.1 < floor := by
  have hmem : ∀ q, q ∈ (d.logs.filter fun p => decide (floor ≤ p.1)).insertionSort
      (fun a b => a.1 ≤ b.1) ↔ q ∈ d.logs ∧ floor ≤ q.1 := fun q => by
    rw [mem_insertionSort, mem_filter, decide_eq_true_eq]
  unfold logsToReplay
  split
  · next hnil =>
    have hbelow : ∀ q ∈ d.logs, q.1 < floor := fun q hq => by
      by_contra hle
      have := (hmem q).mpr ⟨hq, Nat.le_of_not_lt hle⟩
      rw [hnil] at this
      cases this
    rw [mem_singleton]
    refine ⟨fun h => .inr ⟨h, hbelow⟩, ?_⟩
    rintro (⟨hp, hle⟩ | ⟨h, -⟩)
    · exact absurd (hbelow p hp) (not_lt.mpr hle)
    · exact h
  · next hne =>
    rw [hmem]
    refine ⟨.inl, ?_⟩
    rintro (h | ⟨-, hbelow⟩)
    · exact h
    · refine absurd (eq_nil_iff_forall_not_mem.mpr fun q hq => ?_) hne
      obtain ⟨hq, hle⟩ := (hmem q).mp hq
      exact absurd (hbelow q hq) (not_lt.mpr hle)

theorem nodup_logsToReplay (hd : (Keyed.keys d.logs).Nodup) (floor : Nat) :
    (Keyed.keys (logsToReplay d floor)).Nodup := by
  unfold logsToReplay
  split
  · exact nodup_singleton _
  · have hperm := perm_insertionSort (fun a b : Nat × File => a.1 ≤ b.1)
      (d.logs.filter fun p => decide (floor ≤ p.1))
    exact (hperm.map Prod.fst).nodup_iff.mpr (hd.sublist (filter_sublist.map _))

theorem mem_orphanFiles {o : Orphan} : o ∈ orphanFiles opt d ↔
    match o with
    | .sst n => n ∈ Keyed.keys d.ssts ∧ n ∉ d.manifestState.files.map FileMeta.fileNumber
    | .log n => n ∈ Keyed.keys d.logs ∧ n < d.manifestState.logNumber
    | .vlog n => n ∈ Keyed.keys d.vlogs ∧ n ∉ liveVlogs opt d.manifestState := by
  cases o <;> simp [orphanFiles]

theorem mayCall_unlink {o : Orphan} (h : o ∈ orphanFiles opt d) : MayCall opt d o.unlink := by
  have hmem := mem_orphanFiles.mp h
  cases o with
  | sst n => exact .unlinkSst hmem.2
  | log n => exact .unlinkLog hmem.2
  | vlog n => exact .unlinkVlog hmem.2

theorem mayCall_replay {p : Nat × File} {c : RecoveryCall}
    (hp : p ∈ logsToReplay d d.manifestState.logNumber) (h : c ∈ replayCalls d p) :
    MayCall opt d c := by
  rcases mem_append.mp h with h | h
  · split at h
    · cases h
    · next hmissing =>
      obtain rfl := mem_singleton.mp h
      rcases mem_logsToReplay.mp hp with ⟨hmem, -⟩ | ⟨rfl, hbelow⟩
      · exact absurd (mem_keys.mpr ⟨p.2, hmem⟩) hmissing
      · exact .createLog hbelow
  · split at h
    · cases h
    · next k hcut =>
      rcases mem_logsToReplay.mp hp with ⟨hmem, -⟩ | ⟨rfl, -⟩
      · rcases mem_cons.mp h with rfl | h
        · exact .truncateLog hmem hcut
        · obtain rfl := mem_singleton.mp h
          exact .syncLog
      · -- an empty log has nothing to cut
        cases hcut

theorem mayCall {orphans : List Orphan} (horphans : orphans.Perm (orphanFiles opt d))
    {c : RecoveryCall} (h : c ∈ recoveryCalls opt d orphans) : MayCall opt d c := by
  rcases mem_append.mp h with h | h
  · rcases mem_append.mp h with h | h
    · obtain ⟨n, hn, rfl⟩ := mem_map.mp h
      have hlive := mem_of_mem_filter hn
      refine .createVlog ?_ hlive
      by_contra hoff
      rw [liveVlogs, if_neg hoff] at hlive
      cases hlive
    · obtain ⟨o, ho, rfl⟩ := mem_map.mp h
      exact mayCall_unlink (horphans.mem_iff.mp ho)
  · obtain ⟨p, hp, hc⟩ := mem_flatMap.mp h
    exact mayCall_replay hp hc

end Calls

/-! ## All the calls together -/

section Whole

variable {opt : Options} {d : Disk}

theorem callAll_createVlog (ns : List Nat) : ∀ d : Disk,
    (d.callAll (ns.map fun n => .file (.createVlog n))).logs = d.logs ∧
    (d.callAll (ns.map fun n => .file (.createVlog n))).ssts = d.ssts ∧
    (d.callAll (ns.map fun n => .file (.createVlog n))).manifest = d.manifest ∧
    ∀ n, Keyed.get? (d.callAll (ns.map fun n => .file (.createVlog n))).vlogs n =
      if n ∈ ns then some .empty else Keyed.get? d.vlogs n := by
  induction ns with
  | nil => exact fun d => ⟨rfl, rfl, rfl, fun n => by simp [Disk.callAll]⟩
  | cons m ns ih =>
    intro d
    obtain ⟨hlogs, hssts, hman, hvlogs⟩ := ih (d.apply (.createVlog m))
    refine ⟨hlogs, hssts, hman, fun n => (hvlogs n).trans ?_⟩
    change (if n ∈ ns then _ else Keyed.get? (Keyed.set d.vlogs m .empty) n) = _
    rw [get?_set]
    by_cases hn : n ∈ ns <;> by_cases hm : n = m <;> simp [hn, hm]

theorem get?_foldl_openVlog (ns : List Nat) : ∀ (vlogs : List (Nat × File)) (n : Nat),
    Keyed.get? (ns.foldl openVlog vlogs) n =
      if n ∈ ns then some ((Keyed.get? vlogs n).getD .empty) else Keyed.get? vlogs n := by
  induction ns with
  | nil => simp
  | cons m ns ih =>
    intro vlogs n
    rw [foldl_cons, ih, openVlog]
    by_cases hm : n = m
    · subst hm
      cases hg : Keyed.get? vlogs n <;> simp [hg, get?_set]
    · cases hg : Keyed.get? vlogs m <;> simp [get?_set, hm]

/-- Calls of `RemoveOrphanFiles`, in any order: what is unlinked is gone, the
rest stays. -/
theorem callAll_unlink (os : List Orphan) : ∀ d : Disk,
    (d.callAll (os.map Orphan.unlink)).manifest = d.manifest ∧ ∀ n,
    (Keyed.get? (d.callAll (os.map Orphan.unlink)).ssts n =
      if .sst n ∈ os then none else Keyed.get? d.ssts n) ∧
    (Keyed.get? (d.callAll (os.map Orphan.unlink)).logs n =
      if .log n ∈ os then none else Keyed.get? d.logs n) ∧
    (Keyed.get? (d.callAll (os.map Orphan.unlink)).vlogs n =
      if .vlog n ∈ os then none else Keyed.get? d.vlogs n) := by
  induction os with
  | nil => exact fun d => ⟨rfl, fun n => by simp [Disk.callAll]⟩
  | cons o os ih =>
    intro d
    obtain ⟨hman, hget⟩ := ih (d.call o.unlink)
    have hcons : d.callAll ((o :: os).map Orphan.unlink) =
        (d.call o.unlink).callAll (os.map Orphan.unlink) := rfl
    rw [hcons]
    cases o <;> refine ⟨hman, fun n => ?_⟩ <;> obtain ⟨hs, hl, hv⟩ := hget n <;> rw [hs, hl, hv] <;>
      simp only [Orphan.unlink, Disk.call, Disk.apply, get?_erase, mem_cons,
        Orphan.sst.injEq, Orphan.log.injEq, Orphan.vlog.injEq, reduceCtorEq, false_or, and_self,
        true_and, and_true] <;>
      split <;> simp_all

theorem unlinked_eq {α : Type*} {m : List (Nat × α)} {n : Nat} {named unlinked : Prop}
    [Decidable named] [Decidable unlinked] (h : unlinked ↔ n ∈ Keyed.keys m ∧ ¬ named) :
    (if unlinked then none else Keyed.get? m n) =
      if decide named = true then Keyed.get? m n else none := by
  by_cases hn : named
  · simp [h, hn]
  · by_cases hin : n ∈ Keyed.keys m
    · simp [h, hn, hin]
    · simp [h, hn, hin, get?_eq_none.mpr hin]

/-- The log is in the directory, or missing and to be created. -/
def Found (d₀ d : Disk) (p : Nat × File) : Prop :=
  p.1 ∈ Keyed.keys d₀.logs ∧ Keyed.get? d.logs p.1 = some p.2 ∨
    p.1 ∉ Keyed.keys d₀.logs ∧ p.2 = .empty

theorem callAll_replayCalls {d₀ d : Disk} {p : Nat × File} (h : Found d₀ d p) :
    ∃ logs, d.callAll (replayCalls d₀ p) = { d with logs := logs } ∧
      ∀ n, Keyed.get? logs n =
        if n = p.1 then some (replayedFile p.2) else Keyed.get? d.logs n := by
  obtain ⟨number, f⟩ := p
  rcases h with ⟨hin, hget⟩ | ⟨hout, rfl⟩
  · cases hcut : (replayLog f.bytes).truncatedAt with
    | none =>
      refine ⟨d.logs, by simp [replayCalls, hin, hcut, Disk.callAll], fun n => ?_⟩
      split
      · next hn => rw [hn, hget, replayedFile, hcut]
      · rfl
    | some k =>
      refine ⟨Keyed.modify (Keyed.modify d.logs number (·.truncate k)) number File.sync,
        by simp [replayCalls, hin, hcut, Disk.callAll, Disk.call, Disk.apply], fun n => ?_⟩
      rw [get?_modify, get?_modify]
      split
      · next hn =>
        obtain rfl : n = number := hn
        rw [hget, replayedFile, hcut]
        rfl
      · rfl
  · refine ⟨Keyed.set d.logs number .empty, ?_, fun n => get?_set _ _ _ _⟩
    have hcalls : replayCalls d₀ (number, .empty) = [.file (.createLog number)] := by
      rw [replayCalls, if_neg hout]
      rfl
    rw [hcalls]
    rfl

/-- The replay of some logs leaves each of them as `replayedFile` says. -/
theorem callAll_replay {d₀ : Disk} {replay : List (Nat × File)} :
    ∀ {d : Disk}, (Keyed.keys replay).Nodup → (∀ p ∈ replay, Found d₀ d p) →
      ∃ logs, d.callAll (replay.flatMap (replayCalls d₀)) = { d with logs := logs } ∧
        ∀ n, Keyed.get? logs n =
          ((Keyed.get? replay n).map replayedFile).or (Keyed.get? d.logs n) := by
  induction replay with
  | nil => exact fun {d} _ _ => ⟨d.logs, rfl, fun n => by simp⟩
  | cons p replay ih =>
    intro d hnd hfound
    obtain ⟨hfresh, hnd⟩ := nodup_cons.mp hnd
    obtain ⟨hp, hfound⟩ := forall_mem_cons.mp hfound
    obtain ⟨logs₁, hd₁, hget₁⟩ := callAll_replayCalls hp
    have hother : ∀ q ∈ replay, q.1 ≠ p.1 := fun q hq h =>
      hfresh (h ▸ mem_map_of_mem hq)
    obtain ⟨logs, hd, hget⟩ := @ih { d with logs := logs₁ } hnd fun q hq => by
      rcases hfound q hq with ⟨hin, hq'⟩ | hout
      · exact .inl ⟨hin, by rw [hget₁, if_neg (hother q hq), hq']⟩
      · exact .inr hout
    refine ⟨logs, ?_, fun n => ?_⟩
    · rw [flatMap_cons, Disk.callAll_append, hd₁, hd]
    · rw [hget, hget₁, get?_cons]
      by_cases hn : p.1 = n
      · have hnone : Keyed.get? replay n = none := get?_eq_none.mpr (hn ▸ hfresh)
        simp [hn, hnone]
      · simp [hn, Ne.symm hn]

/-- **Recovery that is not stopped** leaves the directory of `opened`. -/
theorem recovered_disk (hd : (Keyed.keys d.logs).Nodup) {orphans : List Orphan}
    (horphans : orphans.Perm (orphanFiles opt d)) (refs : List TableRef) (n : Nat) :
    (d.callAll (recoveryCalls opt d orphans)).manifest = (opened opt d refs).disk.manifest ∧
    Keyed.get? (d.callAll (recoveryCalls opt d orphans)).ssts n =
      Keyed.get? (opened opt d refs).disk.ssts n ∧
    Keyed.get? (d.callAll (recoveryCalls opt d orphans)).vlogs n =
      Keyed.get? (opened opt d refs).disk.vlogs n ∧
    Keyed.get? (d.callAll (recoveryCalls opt d orphans)).logs n =
      Keyed.get? (opened opt d refs).disk.logs n := by
  obtain ⟨hlogs₁, hssts₁, hman₁, hvlogs₁⟩ := callAll_createVlog
    ((liveVlogs opt d.manifestState).filter fun n => decide (n ∉ Keyed.keys d.vlogs)) d
  obtain ⟨hman₂, hget₂⟩ := callAll_unlink orphans (d.callAll (createCalls opt d))
  have hfound : ∀ p ∈ logsToReplay d d.manifestState.logNumber,
      Found d ((d.callAll (createCalls opt d)).callAll (orphans.map Orphan.unlink)) p := by
    intro p hp
    rcases mem_logsToReplay.mp hp with ⟨hmem, hle⟩ | ⟨rfl, hbelow⟩
    · refine .inl ⟨mem_keys.mpr ⟨_, hmem⟩, ?_⟩
      rw [(hget₂ p.1).2.1, if_neg fun h => ?_]
      · rw [createCalls, hlogs₁]
        exact get?_of_mem hd hmem
      · exact not_lt.mpr hle (mem_orphanFiles.mp (horphans.mem_iff.mp h)).2
    · refine .inr ⟨fun h => ?_, rfl⟩
      obtain ⟨f, hf⟩ := mem_keys.mp h
      exact lt_irrefl _ (hbelow _ hf)
  obtain ⟨logs, hd₃, hget₃⟩ := callAll_replay (nodup_logsToReplay hd _) hfound
  rw [recoveryCalls, Disk.callAll_append, Disk.callAll_append, hd₃]
  have horphan : ∀ o, o ∈ orphans ↔ _ := fun o => horphans.mem_iff.trans mem_orphanFiles
  refine ⟨hman₂.trans hman₁, ?_, ?_, ?_⟩
  · refine (hget₂ n).1.trans ?_
    change _ = Keyed.get? (d.ssts.filter fun p => decide (p.1 ∈ _)) n
    rw [createCalls, hssts₁, get?_filter d.ssts fun n => decide (n ∈ _)]
    exact unlinked_eq (horphan (.sst n))
  · refine (hget₂ n).2.2.trans ?_
    change _ = Keyed.get? (List.filter (fun p => decide (p.1 ∈ _)) _) n
    rw [createCalls, hvlogs₁, get?_filter _ fun n => decide (n ∈ _), get?_foldl_openVlog]
    have hunlinked := unlinked_eq (horphan (.vlog n))
    by_cases hlive : n ∈ liveVlogs opt d.manifestState
    · have hno : .vlog n ∉ orphans := fun h => ((horphan _).mp h).2 hlive
      cases hg : Keyed.get? d.vlogs n with
      | none => simp [hlive, hno, get?_eq_none.mp hg]
      | some f =>
        have hin : n ∈ Keyed.keys d.vlogs := mem_keys.mpr ⟨f, mem_of_get? hg⟩
        simp [hlive, hno, hin]
    · simpa [hlive] using hunlinked
  · rw [hget₃]
    change _ = Keyed.get? ((logsToReplay d _).map fun p => (p.1, replayedFile p.2)) n
    rw [get?_map _ fun _ => replayedFile, (hget₂ n).2.1, createCalls, hlogs₁]
    cases hg : Keyed.get? (logsToReplay d d.manifestState.logNumber) n with
    | some f => rfl
    | none =>
      -- a log that is not replayed is below the floor
      have hno := get?_eq_none.mp hg
      split
      · rfl
      · next hkept =>
        refine get?_eq_none.mpr fun hin => hkept ((horphan _).mpr ⟨hin, ?_⟩)
        obtain ⟨f, hf⟩ := mem_keys.mp hin
        by_contra hle
        exact hno (mem_keys.mpr ⟨f, mem_logsToReplay.mpr (.inl ⟨hf, Nat.le_of_not_lt hle⟩)⟩)

end Whole

/-- A log below the floor, one with a torn tail, and an unnamed value log. -/
def tornDirectory : Disk where
  logs := [(0, .empty),
    (1, ⟨encodeRecords 0 [encodePayload ⟨[107], 5, .value, [1, 2]⟩] ++ List.replicate 12 7, 0⟩)]
  ssts := []
  vlogs := [(9, .empty)]
  manifest := none

theorem recovered_disk_torn : Keyed.get? (tornDirectory.callAll
      (recoveryCalls Lsm.smallOptions tornDirectory [.vlog 9, .log 0])).logs 1 =
    Keyed.get? (opened Lsm.smallOptions tornDirectory []).disk.logs 1 :=
  (recovered_disk (by decide) (by decide +kernel) [] 1).2.2.2

/-! ## What recovery reads -/

def liveLogs (floor : Nat) (logs : List (Nat × File)) : List (Nat × File) :=
  logs.filter fun p => decide (floor ≤ p.1)

/-- The log `f`, or what recovery cuts it to. -/
def CutTo (f g : File) : Prop :=
  g.bytes = f.bytes ∨ ∃ k, (replayLog f.bytes).truncatedAt = some k ∧ g.bytes = f.bytes.take k

theorem CutTo.records {f g : File} (h : CutTo f g) :
    (replayLog g.bytes).records = (replayLog f.bytes).records := by
  rcases h with h | ⟨k, hcut, h⟩
  · rw [h]
  · rw [h, replayLog_take hcut]

theorem CutTo.truncate {f g : File} (h : CutTo f g) {k : Nat}
    (hcut : (replayLog f.bytes).truncatedAt = some k) : CutTo f (g.truncate k) := by
  refine .inr ⟨k, hcut, ?_⟩
  rcases h with h | ⟨k', hcut', h⟩
  · exact congrArg (List.take k) h
  · obtain rfl : k = k' := Option.some.inj (hcut.symm.trans hcut')
    change g.bytes.take k = _
    rw [h, take_take, Nat.min_self]

/-- The live logs stand as they were, some of them cut; where there was none,
the floor's may have been created. -/
def SameLogs (floor : Nat) (logs logs' : List (Nat × File)) : Prop :=
  (∃ g : Nat × File → File, liveLogs floor logs' = (liveLogs floor logs).map (fun p => (p.1, g p)) ∧
    ∀ p ∈ liveLogs floor logs, CutTo p.2 (g p)) ∨
  liveLogs floor logs = [] ∧ ∃ f, liveLogs floor logs' = [(floor, f)] ∧ f.bytes = []

section Logs

variable {floor : Nat} {logs logs' : List (Nat × File)}

theorem liveLogs_modify (floor : Nat) (logs : List (Nat × File)) (n : Nat) (h : File → File) :
    liveLogs floor (Keyed.modify logs n h) = Keyed.modify (liveLogs floor logs) n h := by
  unfold liveLogs Keyed.modify
  rw [filter_map]
  congr 2
  funext p
  dsimp only [Function.comp_apply]
  split <;> rfl

theorem SameLogs.refl (floor : Nat) (logs : List (Nat × File)) : SameLogs floor logs logs :=
  .inl ⟨Prod.snd, (map_id _).symm, fun _ _ => .inl rfl⟩

theorem SameLogs.modify (hs : SameLogs floor logs logs') (n : Nat) (h : File → File)
    (hbetween : ∀ f g, (n, f) ∈ logs → CutTo f g → CutTo f (h g))
    (hempty : ∀ f : File, f.bytes = [] → (h f).bytes = []) :
    SameLogs floor logs (Keyed.modify logs' n h) := by
  rcases hs with ⟨g, hlogs, hg⟩ | ⟨hnone, f, hlogs, hf⟩
  · refine .inl ⟨fun p => if p.1 = n then h (g p) else g p, ?_, fun p hp => ?_⟩
    · rw [liveLogs_modify, hlogs, Keyed.modify, map_map]
      refine map_congr_left fun p _ => ?_
      dsimp only [Function.comp_apply]
      split <;> rfl
    · dsimp only
      split
      · next hn => exact hbetween p.2 (g p) (hn ▸ mem_of_mem_filter hp) (hg p hp)
      · exact hg p hp
  · refine .inr ⟨hnone, if floor = n then h f else f, ?_, ?_⟩
    · rw [liveLogs_modify, hlogs, Keyed.modify, map_singleton]
      dsimp only
      split <;> rfl
    · split
      · exact hempty f hf
      · exact hf

theorem SameLogs.unlink (hs : SameLogs floor logs logs') {n : Nat} (hn : n < floor) :
    SameLogs floor logs (Keyed.erase logs' n) := by
  have hsame : liveLogs floor (Keyed.erase logs' n) = liveLogs floor logs' := by
    rw [liveLogs, Keyed.erase, filter_filter, liveLogs]
    refine filter_congr fun p _ => ?_
    rw [← Bool.decide_and, decide_eq_decide]
    exact ⟨And.left, fun hle => ⟨hle, by omega⟩⟩
  unfold SameLogs at hs ⊢
  rwa [hsame]

theorem SameLogs.create (hs : SameLogs floor logs logs') (hnone : ∀ p ∈ logs, p.1 < floor) :
    SameLogs floor logs (Keyed.set logs' floor .empty) := by
  have hlogs : liveLogs floor logs = [] := by
    refine filter_eq_nil_iff.mpr fun p hp => ?_
    have := hnone p hp
    simpa using this
  refine .inr ⟨hlogs, .empty, ?_, rfl⟩
  have herased : liveLogs floor (Keyed.erase logs' floor) = [] := by
    refine filter_eq_nil_iff.mpr fun p hp => ?_
    obtain ⟨hp, hne⟩ := mem_erase.mp hp
    simp only [decide_eq_true_eq]
    intro hle
    have hmem : p ∈ liveLogs floor logs' := mem_filter.mpr ⟨hp, decide_eq_true hle⟩
    rcases hs with ⟨g, hg, -⟩ | ⟨-, f, hf, -⟩
    · rw [hg, hlogs] at hmem
      cases hmem
    · rw [hf] at hmem
      exact hne (congrArg Prod.fst (mem_singleton.mp hmem))
  rw [Keyed.set, liveLogs, filter_append]
  refine (congrArg (· ++ _) herased).trans ?_
  simp

end Logs

/-- The records recovery applies, oldest first. -/
def replayedRecords (logs : List (Nat × File)) : List (Bytes × Entry) :=
  logs.flatMap fun p => (replayLog p.2.bytes).records

theorem replayedEntries_records (logs : List (Nat × File)) :
    replayedEntries logs = (replayedRecords logs).map Prod.snd :=
  map_flatMap.symm

theorem logsToReplay_sorted (d : Disk) (floor : Nat) :
    logsToReplay d floor =
      match (liveLogs floor d.logs).insertionSort fun a b => a.1 ≤ b.1 with
      | [] => [(floor, .empty)]
      | logs => logs := rfl

/-- **Logs that were cut are replayed as before.** -/
theorem SameLogs.replayed {floor : Nat} {d d' : Disk} (hs : SameLogs floor d.logs d'.logs) :
    Keyed.keys (logsToReplay d' floor) = Keyed.keys (logsToReplay d floor) ∧
      replayedRecords (logsToReplay d' floor) = replayedRecords (logsToReplay d floor) := by
  rw [logsToReplay_sorted, logsToReplay_sorted]
  rcases hs with ⟨g, hlogs, hg⟩ | ⟨hnone, f, hlogs, hf⟩
  · have hsort : (liveLogs floor d'.logs).insertionSort (fun a b => a.1 ≤ b.1) =
        ((liveLogs floor d.logs).insertionSort fun a b => a.1 ≤ b.1).map fun p => (p.1, g p) := by
      rw [hlogs]
      exact (map_insertionSort (fun a b : Nat × File => a.1 ≤ b.1)
        (fun a b : Nat × File => a.1 ≤ b.1) (fun p => (p.1, g p)) _ fun _ _ _ _ => Iff.rfl).symm
    have hmem : ∀ p ∈ (liveLogs floor d.logs).insertionSort (fun a b => a.1 ≤ b.1),
        CutTo p.2 (g p) := fun p hp => hg p ((mem_insertionSort _).mp hp)
    rw [hsort]
    cases hl : (liveLogs floor d.logs).insertionSort fun a b => a.1 ≤ b.1 with
    | nil => exact ⟨rfl, rfl⟩
    | cons p l =>
      rw [hl] at hmem
      refine ⟨?_, ?_⟩
      · change ((p :: l).map fun p => (p.1, g p)).map Prod.fst = (p :: l).map Prod.fst
        rw [map_map]
        rfl
      · change ((p :: l).map fun p => (p.1, g p)).flatMap _ = (p :: l).flatMap _
        rw [flatMap_map]
        exact flatMap_congr fun q hq => (hmem q hq).records
  · rw [hnone, hlogs]
    refine ⟨rfl, ?_⟩
    change (replayLog f.bytes).records ++ [] = _
    rw [hf]
    rfl

/-- `d'` is `d` as far as recovery reads it. -/
structure Keeps (opt : Options) (d d' : Disk) : Prop where
  manifest : d'.manifest = d.manifest
  ssts : ∀ n ∈ d.manifestState.files.map FileMeta.fileNumber,
    Keyed.get? d'.ssts n = Keyed.get? d.ssts n
  vlogs : opt.enableValueSeparation = false → d.vlogs = [] → d'.vlogs = []
  logs : SameLogs d.manifestState.logNumber d.logs d'.logs
  once : (Keyed.keys d'.logs).Nodup

section Keeps

variable {opt : Options} {d d' : Disk}

theorem Keeps.refl (hd : (Keyed.keys d.logs).Nodup) : Keeps opt d d :=
  ⟨rfl, fun _ _ => rfl, fun _ h => h, .refl _ _, hd⟩

/-- **Every call of recovery keeps what recovery reads.** -/
theorem Keeps.call (hk : Keeps opt d d') (hd : (Keyed.keys d.logs).Nodup) {c : RecoveryCall}
    (hc : MayCall opt d c) : Keeps opt d (d'.call c) := by
  obtain ⟨hman, hssts, hvlogs, hlogs, honce⟩ := hk
  have hmod : ∀ n (h : File → File), (Keyed.keys (Keyed.modify d'.logs n h)).Nodup := fun n h => by
    rwa [Keyed.keys_modify]
  have herase : ∀ n, (Keyed.keys (Keyed.erase d'.logs n)).Nodup := fun n => by
    rw [Keyed.keys_erase]
    exact honce.filter _
  cases hc with
  | createVlog on live => exact ⟨hman, hssts, fun hoff => by simp [on] at hoff, hlogs, honce⟩
  | @unlinkSst n hn =>
    refine ⟨hman, fun m hm => ?_, hvlogs, hlogs, honce⟩
    change Keyed.get? (Keyed.erase d'.ssts n) m = _
    rw [Keyed.get?_erase, if_neg fun h : m = n => hn (h ▸ hm)]
    exact hssts m hm
  | unlinkLog hn => exact ⟨hman, hssts, hvlogs, hlogs.unlink hn, herase _⟩
  | @unlinkVlog n hn =>
    refine ⟨hman, hssts, fun hoff hnil => ?_, hlogs, honce⟩
    change Keyed.erase d'.vlogs n = []
    rw [hvlogs hoff hnil]
    rfl
  | createLog hnone =>
    refine ⟨hman, hssts, hvlogs, hlogs.create hnone, ?_⟩
    change (Keyed.keys (Keyed.set d'.logs _ _)).Nodup
    rw [Keyed.set, Keyed.keys_append]
    refine (herase _).append (nodup_singleton _) fun n hn hn' => ?_
    rw [Keyed.keys_erase] at hn
    simp_all [Keyed.keys]
  | @truncateLog n k f hmem hcut =>
    refine ⟨hman, hssts, hvlogs, hlogs.modify n (·.truncate k) (fun f' g hmem' hbetween => ?_)
      (fun f hf => ?_), hmod n (·.truncate k)⟩
    · -- the directory has one log of that number
      have h₁ := Keyed.get?_of_mem hd hmem
      have h₂ := Keyed.get?_of_mem hd hmem'
      obtain rfl : f = f' := Option.some.inj (h₁.symm.trans h₂)
      exact hbetween.truncate hcut
    · rw [File.truncate, hf, take_nil]
  | syncLog =>
    exact ⟨hman, hssts, hvlogs, hlogs.modify _ File.sync (fun _ _ _ h => h) (fun _ h => h),
      hmod _ File.sync⟩

theorem Keeps.callAll (hd : (Keyed.keys d.logs).Nodup) {calls : List RecoveryCall} :
    ∀ {d' : Disk}, Keeps opt d d' → (∀ c ∈ calls, MayCall opt d c) →
      Keeps opt d (d'.callAll calls) := by
  induction calls with
  | nil => exact fun hk _ => hk
  | cons c calls ih =>
    intro d' hk hcalls
    obtain ⟨hc, hcalls⟩ := forall_mem_cons.mp hcalls
    exact ih (hk.call hd hc) hcalls

theorem openTables_congr {metas : List FileMeta}
    (h : ∀ n ∈ metas.map FileMeta.fileNumber, Keyed.get? d'.ssts n = Keyed.get? d.ssts n) :
    openTables d' metas = openTables d metas := by
  induction metas with
  | nil => rfl
  | cons m metas ih =>
    obtain ⟨hm, hmetas⟩ := forall_mem_cons.mp h
    have hone : openTable d' m = openTable d m := by rw [openTable, openTable, hm]
    rw [openTables, openTables, hone, ih hmetas]

theorem Keeps.openDb (hk : Keeps opt d d') {s : DB} (h : openDb opt d = .ok s) :
    ∃ s', DB.openDb opt d' = .ok s' ∧ s'.core = s.core ∧
      replayedRecords (logsToReplay d' d'.manifestState.logNumber) =
        replayedRecords (logsToReplay d d.manifestState.logNumber) := by
  obtain ⟨refs, hvalid, hrefs, hoff, rfl⟩ := openDb_eq_ok.mp h
  have hman : d'.manifestState = d.manifestState := congrArg (Option.getD · _) hk.manifest
  obtain ⟨hkeys, hrecords⟩ := hk.logs.replayed
  refine ⟨opened opt d' refs, openDb_eq_ok.mpr ⟨refs, hman ▸ hvalid, ?_, fun off => ?_, rfl⟩,
    ?_, ?_⟩
  · rw [hman, openTables_congr hk.ssts, hrefs]
  · exact ⟨hk.vlogs off (hoff off).1, hman ▸ (hoff off).2⟩
  · simp only [opened, hman, replayedEntries_records, hkeys, hrecords]
  · rw [hman, hrecords]

end Keeps

/-! ## Any number of interrupted runs -/

/-- The directories that runs of recovery leave which stop after some of their calls. -/
inductive Interrupted (opt : Options) (d : Disk) : Disk → Prop where
  | start : Interrupted opt d d
  | run {d' : Disk} {orphans : List Orphan} (before : Interrupted opt d d')
      (order : orphans.Perm (orphanFiles opt d')) (count : Nat) :
      Interrupted opt d (d'.callAll ((recoveryCalls opt d' orphans).take count))

/-- **Recovery can be stopped and run again.**  Where `Open` succeeds on a
directory (which lists each log once), it succeeds after any number of runs
that were stopped after any of their file-system calls, replays the same
records in the same order and comes to the same store: the version, the
memtable and the counters. -/
theorem openDb_interrupted {opt : Options} {d d' : Disk} {s : DB}
    (hd : (Keyed.keys d.logs).Nodup) (h : openDb opt d = .ok s) (hd' : Interrupted opt d d') :
    ∃ s', openDb opt d' = .ok s' ∧
      replayedRecords (logsToReplay d' d'.manifestState.logNumber) =
        replayedRecords (logsToReplay d d.manifestState.logNumber) ∧
      s'.core.current = s.core.current ∧ s'.core.nextSeq = s.core.nextSeq ∧ s'.core = s.core := by
  suffices hmain : (Keyed.keys d'.logs).Nodup ∧ ∃ s', openDb opt d' = .ok s' ∧ s'.core = s.core ∧
      replayedRecords (logsToReplay d' d'.manifestState.logNumber) =
        replayedRecords (logsToReplay d d.manifestState.logNumber) by
    obtain ⟨-, s', hs', hcore, hrecords⟩ := hmain
    exact ⟨s', hs', hrecords, by rw [hcore], by rw [hcore], hcore⟩
  induction hd' with
  | start => exact ⟨hd, s, h, rfl, rfl⟩
  | @run d₁ orphans _ order count ih =>
      obtain ⟨hd₁, s₁, hs₁, hcore₁, hrecords₁⟩ := ih
      have hk : Keeps opt d₁ (d₁.callAll ((recoveryCalls opt d₁ orphans).take count)) :=
        Keeps.callAll hd₁ (.refl hd₁) fun c hc => mayCall order (List.mem_of_mem_take hc)
      obtain ⟨s₂, hs₂, hcore₂, hrecords₂⟩ := hk.openDb hs₁
      exact ⟨hk.once, s₂, hs₂, hcore₂.trans hcore₁, hrecords₂.trans hrecords₁⟩

/-- Stopped when the log has been cut and not yet synced. -/
theorem openDb_interrupted_torn :
    ∃ s', openDb { Lsm.smallOptions with enableValueSeparation := true }
        (tornDirectory.callAll ((recoveryCalls
          { Lsm.smallOptions with enableValueSeparation := true } tornDirectory
          [.vlog 9, .log 0]).take 4)) = .ok s' ∧ s'.core.nextSeq = 6 := by
  have hopen : openDb { Lsm.smallOptions with enableValueSeparation := true } tornDirectory =
    .ok _ :=
    openDb_eq_ok.mpr ⟨[], by decide, rfl, fun h => by simp at h, rfl⟩
  have horder : [Orphan.vlog 9, Orphan.log 0].Perm (orphanFiles
      { Lsm.smallOptions with enableValueSeparation := true } tornDirectory) := by
    decide +kernel
  obtain ⟨s', hs', -, -, hseq, -⟩ := openDb_interrupted (by decide) hopen (.run .start horder 4)
  exact ⟨s', hs', hseq.trans (by decide +kernel)⟩

end DB

end BedrockKV
