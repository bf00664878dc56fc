/-
# `BedrockKV.Persist` — a directory that holds the store

`d.Shows c`: the MANIFEST of `d` names the version of the store `c`, and the
logs it leaves to be replayed have exactly the versions of the memtables of
`c`.  `d.Holds c` says besides that every log is whole.  Each file-system call
has one lemma here, with the condition under which it keeps `Holds`; the
condition is always about the one file it touches.

What this is for is `Shows.recover`: `Open` succeeds and has the same versions
stored.  `Shows` is what is left of `Holds` after a power cut, when nothing
that was replayed is lost (`Keeps.crash`), or nothing but the one write that
was being made (`InFlight.crash`).
-/
import BedrockKV.DbBytes
import BedrockKV.Recovery
import BedrockKV.WalFile

namespace BedrockKV

open List Keyed Log MultiVersion

namespace Disk

/-! ## The logs that are replayed -/

/-- The replay floor of the published MANIFEST. -/
def floor (d : Disk) : Nat := d.manifestState.logNumber

theorem floor_congr {d d' : Disk} (hman : d.manifest = d'.manifest) : d.floor = d'.floor := by
  unfold floor manifestState
  rw [hman]

def liveEntries (d : Disk) : List Entry :=
  (d.logs.filter fun p => decide (d.floor ≤ p.1)).flatMap fun p => p.2.entries

theorem mem_liveEntries {d : Disk} {e : Entry} :
    e ∈ d.liveEntries ↔ ∃ p ∈ d.logs, d.floor ≤ p.1 ∧ e ∈ p.2.entries := by
  simp only [liveEntries, mem_flatMap, mem_filter, decide_eq_true_eq, and_assoc]

theorem replayedEntries_eq {d : Disk} (h : (Keyed.keys d.logs).Pairwise (· < ·)) :
    DB.replayedEntries (DB.logsToReplay d d.floor) = d.liveEntries := by
  have hsorted : (d.logs.filter fun p => decide (d.floor ≤ p.1)).Pairwise
      fun a b => a.1 < b.1 := (pairwise_map.mp h).filter _
  unfold DB.logsToReplay liveEntries
  rw [insertionSort_perm_eq (fun p : Nat × File => p.1) (List.Perm.refl _) hsorted]
  split
  · next hnil =>
    rw [hnil]
    exact File.whole_empty.2
  · rfl

section LastLog

variable {d : Disk} {n : Nat}

theorem logsToReplay_eq (hasc : (Keyed.keys d.logs).Pairwise (· < ·)) (hn : n ∈ Keyed.keys d.logs)
    (hle : d.floor ≤ n) :
    DB.logsToReplay d d.floor = d.logs.filter fun p => decide (d.floor ≤ p.1) := by
  have hsorted : (d.logs.filter fun p => decide (d.floor ≤ p.1)).Pairwise
      fun a b => a.1 < b.1 := (pairwise_map.mp hasc).filter _
  obtain ⟨f, hf⟩ := mem_keys.mp hn
  have hlog : (n, f) ∈ d.logs.filter fun p => decide (d.floor ≤ p.1) :=
    mem_filter.mpr ⟨hf, decide_eq_true hle⟩
  unfold DB.logsToReplay
  rw [insertionSort_perm_eq (fun p : Nat × File => p.1) (List.Perm.refl _) hsorted]
  split
  · next hnil =>
    rw [hnil] at hlog
    cases hlog
  · rfl

theorem getLast?_live (hasc : (Keyed.keys d.logs).Pairwise (· < ·)) (hn : n ∈ Keyed.keys d.logs)
    (hle : d.floor ≤ n) (hlast : ∀ k ∈ Keyed.keys d.logs, k ≤ n) :
    (Keyed.keys (d.logs.filter fun p => decide (d.floor ≤ p.1))).getLast? = some n := by
  set live := d.logs.filter fun p => decide (d.floor ≤ p.1) with hlive
  obtain ⟨f, hf⟩ := mem_keys.mp hn
  have hlog : n ∈ Keyed.keys live := mem_keys.mpr ⟨f, mem_filter.mpr ⟨hf, decide_eq_true hle⟩⟩
  have hasc' : (Keyed.keys live).Pairwise (· < ·) :=
    pairwise_map.mpr ((pairwise_map.mp hasc).filter _)
  have hmax : ∀ k ∈ Keyed.keys live, k ≤ n := by
    intro k hk
    obtain ⟨g, hg⟩ := mem_keys.mp hk
    exact hlast k (mem_keys.mpr ⟨g, (mem_filter.mp hg).1⟩)
  rcases eq_nil_or_concat' (Keyed.keys live) with hnil | ⟨init, last, hconcat⟩
  · rw [hnil] at hlog
    cases hlog
  · rw [hconcat] at hlog hasc' hmax ⊢
    rw [getLast?_concat]
    refine congrArg some (le_antisymm (hmax last (by simp)) ?_)
    rcases mem_append.mp hlog with hmem | hmem
    · exact le_of_lt ((pairwise_append.mp hasc').2.2 _ hmem last (by simp))
    · exact le_of_eq (mem_singleton.mp hmem)

end LastLog

/-- Opening the directory gives back what the store has. -/
structure Shows (d : Disk) (c : Lsm) : Prop where
  names : d.Names c.current
  ascending : (Keyed.keys d.logs).Pairwise (· < ·)
  live : ∀ e, e ∈ d.liveEntries ↔ e ∈ c.mem.entries ++ c.pending
  vlogs : (0 :: d.manifestState.vlogs).Pairwise (· < ·)
  separation : c.opt.enableValueSeparation = false → d.vlogs = [] ∧ d.manifestState.vlogs = []

structure Holds (d : Disk) (c : Lsm) : Prop extends Shows d c where
  whole : ∀ p ∈ d.logs, p.2.Whole

variable {d : Disk} {c c' : Lsm} {n : Nat}

theorem Shows.recoverable {h : List Entry} (hs : d.Shows c) (hi : c.Inv h) (hm : c.MetaInv) :
    Recoverable c.current (DB.replayedEntries (DB.logsToReplay d d.manifestState.logNumber)) := by
  have hlive : ∀ e, e ∈ DB.replayedEntries (DB.logsToReplay d d.manifestState.logNumber) ↔
      e ∈ c.mem.entries ++ c.pending := by
    intro e
    rw [← hs.live e, ← replayedEntries_eq hs.ascending]
    rfl
  have hc := hi.contents
  refine ⟨hc.version, hm.current, Lsm.current_nodup hi, hi.numbers.l0_descending, ?_, ?_⟩
  · refine hc.distinct.mono fun x hx => hc.sub x ?_
    rw [Lsm.stored, ← append_assoc]
    exact mem_append.mpr ((mem_append.mp hx).imp_left (hlive x).mp)
  · intro x hx y hy
    rcases mem_append.mp ((hlive x).mp hx) with hx | hx
    · exact hc.mem_newer x hx y (mem_append_right _ hy)
    · exact hc.pending_newer x hx y hy

/-- **`Open` recovers the store**: the same version, and the same versions stored. -/
theorem Shows.recover {h : List Entry} (hs : d.Shows c) (hi : c.Inv h) (hm : c.MetaInv) :
    ∃ s, DB.openDb c.opt d = .ok s ∧ s = DB.opened c.opt d (DB.sortByNumber c.current.tables) ∧
      s.core.current = c.current ∧ s.core.Inv s.core.stored ∧
      (∀ e, e ∈ s.core.mem.entries ↔ e ∈ d.liveEntries) ∧
      ∀ e, e ∈ s.core.stored ↔ e ∈ c.stored := by
  have hrec := hs.recoverable hi hm
  obtain ⟨s, hopen, hs', hcur, hinv⟩ := openDb_ok hs.names hs.vlogs hs.separation hrec
  have heq : DB.replayedEntries (DB.logsToReplay d d.manifestState.logNumber) = d.liveEntries :=
    replayedEntries_eq hs.ascending
  have hpend : s.core.pending = [] := Lsm.pending_of_none (by rw [hs']; rfl)
  have hmem : ∀ e, e ∈ s.core.mem.entries ↔ e ∈ d.liveEntries := by
    intro e
    rw [← heq, hs']
    exact mem_replayInto (hrec.distinct.mono fun x hx => mem_append_left _ hx) e
  have hstored : ∀ e, e ∈ s.core.stored ↔
      e ∈ DB.replayedEntries (DB.logsToReplay d d.manifestState.logNumber) ++
        c.current.entries := by
    intro e
    rw [Lsm.stored, hpend, nil_append, mem_append, hmem e, hcur, heq, mem_append]
  refine ⟨s, hopen, hs', hcur, hinv.of_mem_iff fun e => (hstored e).symm, hmem, fun e => ?_⟩
  rw [hstored e, heq, Lsm.stored, ← append_assoc, mem_append, mem_append, hs.live e]

theorem Shows.fits {h : List Entry} {pl : Platform} (hs : d.Shows c) (hi : c.Inv h)
    (hm : c.MetaInv) (hf : c.Fits pl) {r : DB} (hopen : DB.openDb c.opt d = .ok r) :
    r.Fits pl := by
  obtain ⟨r', hopen', hr, hcur, -, hmem, -⟩ := hs.recover hi hm
  obtain rfl := Except.ok.inj (hopen.symm.trans hopen')
  exact DB.opened_fits hf hr hcur fun e he => (hs.live e).mp ((hmem e).mp he)

/-! ## Effects on the logs -/

theorem Holds.createLog (h : d.Holds c) (hn : ∀ k ∈ Keyed.keys d.logs, k < n) :
    (d.apply (.createLog n)).Holds c := by
  have hset : (d.apply (.createLog n)).logs = d.logs ++ [(n, .empty)] :=
    Keyed.set_of_notMem fun hmem => lt_irrefl _ (hn n hmem)
  refine ⟨⟨⟨h.names.files, h.names.tables⟩, ?_, ?_, h.vlogs, h.separation⟩, ?_⟩
  · rw [hset, Keyed.keys_append]
    refine pairwise_append.mpr ⟨h.ascending, pairwise_singleton _ _, ?_⟩
    intro a ha b hb
    obtain rfl : b = n := mem_singleton.mp hb
    exact hn a ha
  · intro e
    rw [← h.live e, mem_liveEntries, mem_liveEntries, hset]
    constructor
    · rintro ⟨p, hp, hfloor, he⟩
      rcases mem_append.mp hp with hp | hp
      · exact ⟨p, hp, hfloor, he⟩
      · obtain rfl := mem_singleton.mp hp
        rw [File.whole_empty.2] at he
        cases he
    · rintro ⟨p, hp, hfloor, he⟩
      exact ⟨p, mem_append_left _ hp, hfloor, he⟩
  · intro p hp
    rw [hset] at hp
    rcases mem_append.mp hp with hp | hp
    · exact h.whole p hp
    · obtain rfl := mem_singleton.mp hp
      exact File.whole_empty.1

theorem Holds.syncLog (h : d.Holds c) (n : Nat) : (d.apply (.syncLog n)).Holds c := by
  refine ⟨⟨⟨h.names.files, h.names.tables⟩, ?_, ?_, h.vlogs, h.separation⟩, ?_⟩
  · exact (keys_modify d.logs n File.sync).symm ▸ h.ascending
  · intro e
    rw [← h.live e, mem_liveEntries, mem_liveEntries]
    constructor
    · rintro ⟨p, hp, hfloor, he⟩
      obtain ⟨f, hf, hpf⟩ := mem_modify.mp hp
      refine ⟨(p.1, f), hf, hfloor, ?_⟩
      rw [hpf] at he
      split at he <;> exact he
    · rintro ⟨p, hp, hfloor, he⟩
      refine ⟨(p.1, if p.1 = n then p.2.sync else p.2), mem_modify.mpr ⟨p.2, hp, rfl⟩, hfloor, ?_⟩
      dsimp only
      split <;> exact he
  · intro p hp
    obtain ⟨f, hf, hpf⟩ := mem_modify.mp hp
    rw [hpf]
    split
    · exact (h.whole _ hf).sync
    · exact h.whole _ hf

theorem Shows.file_unique (h : d.Shows c) {f : File} (hget : Keyed.get? d.logs n = some f)
    {p : Nat × File} (hp : p ∈ d.logs) (hn : p.1 = n) : p.2 = f := by
  have hnd : (Keyed.keys d.logs).Nodup := h.ascending.imp ne_of_lt
  have hp' : Keyed.get? d.logs p.1 = some p.2 := get?_of_mem hnd hp
  rw [hn, hget] at hp'
  exact (Option.some.inj hp').symm

theorem logs_appendLog (d : Disk) (n : Nat) (bytes : Bytes) :
    (d.apply (.appendLog n bytes)).logs = Keyed.modify d.logs n fun f => f.append bytes := rfl

theorem Holds.appendLog (h : d.Holds c) {f : File} (hget : Keyed.get? d.logs n = some f)
    (hfloor : d.floor ≤ n) {e : Entry} (he : e.Fits) (hcur : c'.current = c.current)
    (hopt : c'.opt = c.opt)
    (hmem : ∀ x, x ∈ c'.mem.entries ++ c'.pending ↔ x = e ∨ x ∈ c.mem.entries ++ c.pending) :
    (d.apply (.appendLog n (encodeRecord (encodePayload e) f.bytes.length))).Holds c' := by
  have hf := h.whole _ (mem_of_get? hget)
  obtain ⟨hwhole, hentries⟩ := hf.append he
  refine ⟨⟨?_, ?_, ?_, h.vlogs, hopt ▸ h.separation⟩, ?_⟩
  · rw [hcur]
    exact ⟨h.names.files, h.names.tables⟩
  · rw [logs_appendLog, keys_modify]
    exact h.ascending
  · intro x
    rw [hmem x, ← h.live x, mem_liveEntries, mem_liveEntries, logs_appendLog]
    constructor
    · rintro ⟨p, hp, hfl, hx⟩
      obtain ⟨g, hg, hpg⟩ := mem_modify.mp hp
      rw [hpg] at hx
      split at hx
      · next hn =>
        obtain rfl : g = f := h.file_unique hget hg hn
        rw [hentries] at hx
        rcases mem_append.mp hx with hx | hx
        · exact .inr ⟨(p.1, g), hg, hfl, hx⟩
        · exact .inl (mem_singleton.mp hx)
      · exact .inr ⟨(p.1, g), hg, hfl, hx⟩
    · rintro (rfl | ⟨p, hp, hfl, hx⟩)
      · refine ⟨(n, f.append (encodeRecord (encodePayload x) f.bytes.length)),
          mem_modify.mpr ⟨f, mem_of_get? hget, (if_pos rfl).symm⟩, hfloor, ?_⟩
        rw [hentries]
        simp
      · refine ⟨(p.1, if p.1 = n then
          p.2.append (encodeRecord (encodePayload e) f.bytes.length) else p.2),
          mem_modify.mpr ⟨p.2, hp, rfl⟩, hfl, ?_⟩
        dsimp only
        split
        · next hn =>
          rw [h.file_unique hget hp hn] at hx ⊢
          rw [hentries]
          exact mem_append_left _ hx
        · exact hx
  · intro p hp
    rw [logs_appendLog] at hp
    obtain ⟨g, hg, hpg⟩ := mem_modify.mp hp
    rw [hpg]
    split
    · next hn =>
      obtain rfl : g = f := h.file_unique hget hg hn
      exact hwhole
    · exact h.whole _ hg

theorem Holds.unlinkLog (h : d.Holds c) (hn : n < d.floor) : (d.apply (.unlinkLog n)).Holds c := by
  refine ⟨⟨⟨h.names.files, h.names.tables⟩, ?_, ?_, h.vlogs, h.separation⟩, ?_⟩
  · exact (keys_erase d.logs n).symm ▸ h.ascending.filter _
  · intro e
    rw [← h.live e, mem_liveEntries, mem_liveEntries]
    constructor
    · rintro ⟨p, hp, hfloor, he⟩
      exact ⟨p, (mem_erase.mp hp).1, hfloor, he⟩
    · rintro ⟨p, hp, hfloor, he⟩
      exact ⟨p, mem_erase.mpr ⟨hp, fun heq => absurd hn (heq ▸ not_lt.mpr hfloor)⟩, hfloor, he⟩
  · exact fun p hp => h.whole p (mem_erase.mp hp).1

/-! ## Effects on the tables -/

theorem Names.ssts {v : Version} {ssts : List (Nat × SstFile)} (h : d.Names v)
    (hget : ∀ r ∈ v.tables, Keyed.get? ssts r.number = Keyed.get? d.ssts r.number) :
    ({ d with ssts := ssts } : Disk).Names v :=
  ⟨h.files, fun r hr => (hget r hr).trans (h.tables r hr)⟩

theorem number_ne {v : Version} (hn : n ∉ v.numbers) {r : TableRef} (hr : r ∈ v.tables) :
    r.number ≠ n := fun heq => hn (heq ▸ mem_map_of_mem hr)

section

variable (h : d.Holds c)
include h

theorem Holds.writeSst (hn : n ∉ c.current.numbers) (t : Table) :
    (d.apply (.writeSst n t)).Holds c := by
  refine ⟨⟨h.names.ssts fun r hr => ?_, h.ascending, h.live, h.vlogs, h.separation⟩, h.whole⟩
  rw [get?_set, if_neg (number_ne hn hr)]

theorem Holds.unlinkSst (hn : n ∉ c.current.numbers) :
    (d.apply (.unlinkSst n)).Holds c := by
  refine ⟨⟨h.names.ssts fun r hr => ?_, h.ascending, h.live, h.vlogs, h.separation⟩, h.whole⟩
  rw [get?_erase, if_neg (number_ne hn hr)]

theorem Holds.syncSst (n : Nat) : (d.apply (.syncSst n)).Holds c := by
  refine ⟨⟨h.names.ssts fun r hr => ?_, h.ascending, h.live, h.vlogs, h.separation⟩, h.whole⟩
  rw [get?_modify, h.names.tables r hr]
  split <;> rfl

/-! ## Effects on the value logs, and the MANIFEST -/

theorem Holds.createVlog (hon : c.opt.enableValueSeparation = true) (n : Nat) :
    (d.apply (.createVlog n)).Holds c :=
  ⟨⟨⟨h.names.files, h.names.tables⟩, h.ascending, h.live, h.vlogs,
    fun hoff => absurd (hon.symm.trans hoff) (by decide)⟩, h.whole⟩

theorem Holds.appendVlog (n : Nat) (bytes : Bytes) :
    (d.apply (.appendVlog n bytes)).Holds c := by
  refine ⟨⟨⟨h.names.files, h.names.tables⟩, h.ascending, h.live, h.vlogs,
    fun hoff => ⟨?_, (h.separation hoff).2⟩⟩, h.whole⟩
  simp [Disk.apply, Keyed.modify, (h.separation hoff).1]

theorem Holds.syncVlog (n : Nat) : (d.apply (.syncVlog n)).Holds c := by
  refine ⟨⟨⟨h.names.files, h.names.tables⟩, h.ascending, h.live, h.vlogs,
    fun hoff => ⟨?_, (h.separation hoff).2⟩⟩, h.whole⟩
  simp [Disk.apply, Keyed.modify, (h.separation hoff).1]

theorem Holds.unlinkVlog (n : Nat) : (d.apply (.unlinkVlog n)).Holds c := by
  refine ⟨⟨⟨h.names.files, h.names.tables⟩, h.ascending, h.live, h.vlogs,
    fun hoff => ⟨?_, (h.separation hoff).2⟩⟩, h.whole⟩
  simp [Disk.apply, Keyed.erase, (h.separation hoff).1]

/-- A publication is right when its tables are there and the logs it leaves to
be replayed have what is in memory. -/
theorem Holds.publish {m : Manifest} (hopt : c'.opt = c.opt)
    (hfiles : m.files = (DB.sortByNumber c'.current.tables).map TableRef.fileMeta)
    (htables : ∀ r ∈ c'.current.tables, Keyed.get? d.ssts r.number = some ⟨some r.table, true⟩)
    (hlive : ∀ e, (∃ p ∈ d.logs, m.logNumber ≤ p.1 ∧ e ∈ p.2.entries) ↔
      e ∈ c'.mem.entries ++ c'.pending)
    (hvlogs : (0 :: m.vlogs).Pairwise (· < ·))
    (hoff : c.opt.enableValueSeparation = false → m.vlogs = []) :
    (d.apply (.publish m)).Holds c' := by
  refine ⟨⟨⟨hfiles, htables⟩, h.ascending, fun e => ?_, hvlogs, ?_⟩, h.whole⟩
  · rw [mem_liveEntries]
    exact hlive e
  · rw [hopt]
    exact fun hf => ⟨(h.separation hf).1, hoff hf⟩

theorem Holds.congr (hcur : c'.current = c.current) (hopt : c'.opt = c.opt)
    (hmem : ∀ e, e ∈ c'.mem.entries ++ c'.pending ↔ e ∈ c.mem.entries ++ c.pending) : d.Holds c' :=
  ⟨⟨hcur ▸ h.names, h.ascending, fun e => (h.live e).trans (hmem e).symm, h.vlogs,
    hopt ▸ h.separation⟩, h.whole⟩

end

/-! ## Power cuts -/

def AllSynced (d : Disk) : Prop := ∀ p ∈ d.logs, p.2.bytes.length ≤ p.2.synced

theorem AllSynced.apply (h : d.AllSynced) {x : Effect} (hx : ∀ n bytes, x ≠ .appendLog n bytes) :
    (d.apply x).AllSynced := by
  cases x with
  | appendLog n bytes => exact absurd rfl (hx n bytes)
  | createLog n =>
    intro p hp
    rcases mem_set.mp hp with ⟨hp, -⟩ | rfl
    · exact h p hp
    · exact le_rfl
  | syncLog n =>
    intro p hp
    obtain ⟨f, hf, hpf⟩ := mem_modify.mp hp
    rw [hpf]
    split
    · exact le_rfl
    · exact h _ hf
  | unlinkLog n => exact fun p hp => h p (mem_erase.mp hp).1
  | writeSst n t | syncSst n | unlinkSst n | createVlog n | appendVlog n bytes | syncVlog n
  | unlinkVlog n | publish m =>
    exact h

/-- Between two writes; under `kSyncAlways` every log is synced to its end. -/
structure Keeps (d : Disk) (c : Lsm) : Prop extends Holds d c where
  synced : c.opt.syncMode = .kSyncAlways → d.AllSynced

theorem Keeps.apply (h : d.Keeps c) {x : Effect} (hx : ∀ n bytes, x ≠ .appendLog n bytes)
    (hopt : c'.opt = c.opt) (hholds : (d.apply x).Holds c') : (d.apply x).Keeps c' :=
  ⟨hholds, fun halways => (h.synced (hopt ▸ halways)).apply hx⟩

theorem Keeps.congr (h : d.Keeps c) (hcur : c'.current = c.current) (hopt : c'.opt = c.opt)
    (hmem : ∀ e, e ∈ c'.mem.entries ++ c'.pending ↔ e ∈ c.mem.entries ++ c.pending) : d.Keeps c' :=
  ⟨h.toHolds.congr hcur hopt hmem, hopt ▸ h.synced⟩

/-- A version was appended to log `n` and not synced since. -/
def InFlight (d : Disk) (n : Nat) (c c' : Lsm) : Prop :=
  ∃ (d₀ : Disk) (f : File) (e : Entry), d₀.Keeps c ∧ Keyed.get? d₀.logs n = some f ∧ e.Fits ∧
    d.Holds c' ∧ d = d₀.apply (.appendLog n (encodeRecord (encodePayload e) f.bytes.length))

theorem InFlight.syncVlog (h : d.InFlight n c c') (m : Nat) :
    (d.apply (.syncVlog m)).InFlight n c c' := by
  obtain ⟨d₀, f, e, hkeeps, hget, he, hholds, rfl⟩ := h
  exact ⟨d₀.apply (.syncVlog m), f, e,
    hkeeps.apply (fun _ _ heq => by cases heq) rfl (hkeeps.toHolds.syncVlog m), hget, he,
    hholds.syncVlog m, rfl⟩

theorem InFlight.syncLog (h : d.InFlight n c c') (hopt : c'.opt = c.opt) :
    (d.apply (.syncLog n)).Keeps c' := by
  obtain ⟨d₀, f, e, hkeeps, hget, he, hholds, rfl⟩ := h
  refine ⟨hholds.syncLog n, fun halways p hp => ?_⟩
  obtain ⟨g, hg, hpg⟩ := mem_modify.mp hp
  rw [logs_appendLog] at hg
  obtain ⟨g₀, hg₀, hgg⟩ := mem_modify.mp hg
  by_cases hn : p.1 = n
  · rw [hpg, if_pos hn]
    exact le_rfl
  · rw [if_neg hn] at hpg hgg
    obtain rfl : g = g₀ := hgg
    rw [hpg]
    exact hkeeps.synced (hopt ▸ halways) _ hg₀

theorem Holds.shows_of_map (h : d.Holds c) {d' : Disk} (hm : d'.manifest = d.manifest)
    (hssts : ∀ r ∈ c.current.tables, Keyed.get? d'.ssts r.number = Keyed.get? d.ssts r.number)
    (hvlogs : d.vlogs = [] → d'.vlogs = []) {g : Nat → File → File}
    (hlogs : d'.logs = d.logs.map fun p => (p.1, g p.1 p.2))
    (hent : ∀ p ∈ d.logs, (g p.1 p.2).entries = p.2.entries) : d'.Shows c := by
  have hms : d'.manifestState = d.manifestState := by
    unfold manifestState
    rw [hm]
  refine ⟨⟨hms ▸ h.names.files, fun r hr => (hssts r hr).trans (h.names.tables r hr)⟩, ?_, ?_,
    hms ▸ h.vlogs, fun hoff => ⟨hvlogs (h.separation hoff).1, hms ▸ (h.separation hoff).2⟩⟩
  · have hkeys : Keyed.keys d'.logs = Keyed.keys d.logs := by
      rw [hlogs, Keyed.keys, Keyed.keys, map_map]
      rfl
    exact hkeys ▸ h.ascending
  · intro e
    rw [← h.live e, mem_liveEntries, mem_liveEntries, hlogs]
    have hfloor : d'.floor = d.floor := congrArg Manifest.logNumber hms
    rw [hfloor]
    constructor
    · rintro ⟨p, hp, hle, he⟩
      obtain ⟨q, hq, rfl⟩ := mem_map.mp hp
      exact ⟨q, hq, hle, hent q hq ▸ he⟩
    · rintro ⟨p, hp, hle, he⟩
      exact ⟨_, mem_map.mpr ⟨p, hp, rfl⟩, hle, (hent p hp).symm ▸ he⟩

theorem get?_crash_ssts {v : Version} (h : d.Names v) (loss : Loss) {r : TableRef}
    (hr : r ∈ v.tables) : Keyed.get? (d.crash loss).ssts r.number = Keyed.get? d.ssts r.number := by
  have hget : Keyed.get? (d.crash loss).ssts r.number =
      (Keyed.get? d.ssts r.number).map fun f => f.cut (loss.sst r.number) :=
    get?_map d.ssts fun k f => f.cut (loss.sst k)
  rw [hget, h.tables r hr]
  rfl

/-- **`Open` after any power cut**: the same version, and of the logs what was left. -/
theorem Holds.open_crash {h : List Entry} (hd : d.Holds c) (hi : c.Inv h) (hm : c.MetaInv)
    (loss : Loss) :
    ∃ r, DB.openDb c.opt (d.crash loss) = .ok r ∧
      r = DB.opened c.opt (d.crash loss) (DB.sortByNumber c.current.tables) ∧
      r.core.current = c.current ∧
      r.core.Inv ((d.crash loss).liveEntries ++ c.current.entries) ∧
      (∀ e, e ∈ r.core.mem.entries ↔ e ∈ (d.crash loss).liveEntries) ∧
      ∀ pl, c.Fits pl → r.Fits pl := by
  have hnames : (d.crash loss).Names c.current :=
    ⟨hd.names.files, fun t ht => (get?_crash_ssts hd.names loss ht).trans (hd.names.tables t ht)⟩
  have hkeys : Keyed.keys (d.crash loss).logs = Keyed.keys d.logs := by
    change (d.logs.map _).map Prod.fst = d.logs.map Prod.fst
    rw [map_map]
    rfl
  have hes : DB.replayedEntries
      (DB.logsToReplay (d.crash loss) (d.crash loss).manifestState.logNumber) =
        (d.crash loss).liveEntries := replayedEntries_eq (hkeys ▸ hd.ascending)
  have hleft : ∀ e ∈ (d.crash loss).liveEntries, e ∈ d.liveEntries := by
    intro e he
    obtain ⟨p, hp, hle, he⟩ := mem_liveEntries.mp he
    obtain ⟨q, hq, rfl⟩ := mem_map.mp hp
    exact mem_liveEntries.mpr ⟨q, hq, hle, (File.entries_mono (File.isPrefix_cut _ _)).subset he⟩
  have hrec : Recoverable c.current (DB.replayedEntries
      (DB.logsToReplay (d.crash loss) (d.crash loss).manifestState.logNumber)) := by
    refine (hd.recoverable hi hm).mono fun e he => ?_
    have hes₀ : DB.replayedEntries (DB.logsToReplay d d.manifestState.logNumber) =
        d.liveEntries := replayedEntries_eq hd.ascending
    rw [hes] at he
    rw [hes₀]
    exact hleft e he
  obtain ⟨r, hopen, hr, hcur, hinv⟩ := openDb_ok hnames hd.vlogs
    (fun hoff => ⟨by simp [Disk.crash, (hd.separation hoff).1], (hd.separation hoff).2⟩) hrec
  have hmem : ∀ e, e ∈ r.core.mem.entries ↔ e ∈ (d.crash loss).liveEntries := by
    intro e
    rw [← hes, hr]
    exact mem_replayInto (hrec.distinct.mono fun x hx => mem_append_left _ hx) e
  exact ⟨r, hopen, hr, hcur, hes ▸ hinv, hmem, fun pl hf => DB.opened_fits hf hr hcur
    fun e he => (hd.live e).mp (hleft e ((hmem e).mp he))⟩

/-- **A power cut between two writes loses nothing.** -/
theorem Keeps.crash (h : d.Keeps c) (halways : c.opt.syncMode = .kSyncAlways) (loss : Loss) :
    (d.crash loss).Shows c :=
  h.toHolds.shows_of_map rfl (fun _ hr => get?_crash_ssts h.names loss hr)
    (fun hnil => by simp [Disk.crash, hnil]) (g := fun k f => f.cut (loss.log k)) rfl
    fun p hp => File.cut_of_synced (h.synced halways p hp) _

/-- **A power cut during a write** loses that write or nothing. -/
theorem InFlight.crash (h : d.InFlight n c c') (halways : c.opt.syncMode = .kSyncAlways)
    (loss : Loss) : (d.crash loss).Shows c ∨ (d.crash loss).Shows c' := by
  obtain ⟨d₀, f, e, hkeeps, hget, he, hholds, rfl⟩ := h
  set bytes := encodeRecord (encodePayload e) f.bytes.length with hbytes
  have hf := hkeeps.whole _ (mem_of_get? hget)
  have hsync := hkeeps.synced halways
  rcases File.cut_of_inFlight hf (hsync _ (mem_of_get? hget)) he (loss.log n) with hcut | hcut
  · refine .inl (hkeeps.toHolds.shows_of_map rfl
      (fun _ hr => get?_crash_ssts (d := d₀.apply (.appendLog n bytes))
        ⟨hkeeps.names.files, hkeeps.names.tables⟩ loss hr)
      (fun hnil => by simp [Disk.crash, Disk.apply, hnil])
      (g := fun k g => (if k = n then g.append bytes else g).cut (loss.log k)) ?_ ?_)
    · simp only [Disk.crash, Disk.apply, Keyed.modify, map_map]
      refine map_congr_left fun p _ => ?_
      simp only [Function.comp_apply]
      split <;> rfl
    · intro p hp
      split
      · next hn =>
        rw [hkeeps.file_unique hget hp hn, hn]
        exact hcut
      · exact File.cut_of_synced (hsync p hp) _
  · refine .inr (hholds.shows_of_map rfl (fun _ hr => get?_crash_ssts hholds.names loss hr)
      (fun hnil => by simp [Disk.crash, hnil]) (g := fun k f => f.cut (loss.log k)) rfl ?_)
    intro p hp
    rw [logs_appendLog] at hp
    obtain ⟨g, hg, hpg⟩ := mem_modify.mp hp
    rw [hpg]
    split
    · next hn =>
      obtain rfl : g = f := hkeeps.file_unique hget hg hn
      rw [hn]
      exact hcut.trans (hf.append he).2.symm
    · exact File.cut_of_synced (hsync _ hg) _

/-! ## Effects one after another -/

/-- `P` holds before, between and after the effects. -/
def Path (P : Disk → Prop) : Disk → List Effect → Prop
  | d, [] => P d
  | d, x :: fx => P d ∧ Path P (d.apply x) fx

variable {P : Disk → Prop}

theorem Path.append {fx gx : List Effect} (h : Path P d fx) (h' : Path P (d.applyAll fx) gx) :
    Path P d (fx ++ gx) := by
  induction fx generalizing d with
  | nil => exact h'
  | cons x fx ih => exact ⟨h.1, ih h.2 h'⟩

theorem Path.mono {Q : Disk → Prop} {fx : List Effect} (h : Path P d fx) (hPQ : ∀ d, P d → Q d) :
    Path Q d fx := by
  induction fx generalizing d with
  | nil => exact hPQ d h
  | cons x fx ih => exact ⟨hPQ d h.1, ih h.2⟩

theorem Path.at_point {fx pre : List Effect} (h : Path P d fx) (hpre : pre <+: fx) :
    P (d.applyAll pre) := by
  induction pre generalizing d fx with
  | nil =>
    cases fx with
    | nil => exact h
    | cons x fx => exact h.1
  | cons x pre ih =>
    obtain ⟨gx, rfl⟩ := hpre
    exact ih h.2 (prefix_append _ _)

end Disk

end BedrockKV
