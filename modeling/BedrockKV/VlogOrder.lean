/-
# `BedrockKV.VlogOrder` — the value log before what points into it

A value goes to the value log before the record that points to it goes to the
log, and `MaybeSync` syncs them in that order, so that a durable pointer should
lead to durable bytes:

    Disk.Covers d slot       what the slot points to is below the synced mark of its generation
    Disk.Durable d e         `e` is in a synced log record, or in a table the MANIFEST names
    Disk.PointersDurable d   what is durable is covered

Two steps leave unsynced bytes behind in the value log that no later sync is
made for.  `RotateForFlush` starts a fresh log and forgets how much was unsynced;
the memtable then becomes durable as a table.  The switch of the garbage
collector makes another generation current, and `MaybeSync` syncs only that one.
Along a run in which the current generation is synced whenever one of these
happens, as it always is under `kSyncAlways`, the order is kept (`run_pointers`).
-/
import BedrockKV.CrashLife
import BedrockKV.Slots

namespace BedrockKV

open List Keyed Log MultiVersion

/-! ## Durable pointers -/

namespace Disk

/-- The end of what `ReadValue` reads at an offset. -/
def entryEnd (bytes : Bytes) (offset : Nat) : Nat :=
  offset + kEntryHeaderSize + getFixed32 (bytes.drop (offset + 4)) +
    getFixed32 (bytes.drop (offset + 8))

/-- What the slot points to, as long as its generation is there, has been synced. -/
def Covers (d : Disk) (slot : Bytes) : Prop :=
  ∀ p, decodeValuePointer slot = some p → ∀ f, Keyed.get? d.vlogs p.vlogNumber = some f →
    entryEnd f.bytes p.offset ≤ f.synced

/-- The version is in a log record that an `fsync` has covered, or in a table that
the MANIFEST names. -/
def Durable (d : Disk) (e : Entry) : Prop :=
  (∃ p ∈ d.logs, e ∈ (p.2.cut 0).entries) ∨
  ∃ m ∈ d.manifestState.files, ∃ t synced,
    Keyed.get? d.ssts m.fileNumber = some ⟨some t, synced⟩ ∧ e ∈ t.entries

/-- Every pointer that is durable leads to bytes that are. -/
def PointersDurable (d : Disk) : Prop :=
  ∀ e, d.Durable e → e.type = .value → d.Covers e.value

/-! ## Effects on the generations -/

def VlogsSound (d : Disk) : Prop := ∀ p ∈ d.vlogs, p.2.synced ≤ p.2.bytes.length

/-- The generations below `n` of `d'` were there in `d`, and have all they had. -/
def VlogsKeep (n : Nat) (d d' : Disk) : Prop :=
  ∀ k < n, ∀ f', Keyed.get? d'.vlogs k = some f' →
    ∃ f, Keyed.get? d.vlogs k = some f ∧ f.bytes <+: f'.bytes ∧ f.synced ≤ f'.synced

variable {d d' d'' : Disk} {slot : Bytes} {n : Nat} {x : Effect} {fx : List Effect}

theorem covers_congr (h : d'.vlogs = d.vlogs) : d'.Covers slot ↔ d.Covers slot := by
  unfold Covers
  rw [h]

theorem VlogsKeep.refl (n : Nat) (d : Disk) : VlogsKeep n d d :=
  fun _ _ f hf => ⟨f, hf, prefix_refl _, le_rfl⟩

theorem VlogsKeep.trans (h : VlogsKeep n d d') (h' : VlogsKeep n d' d'') : VlogsKeep n d d'' := by
  intro k hk f'' hf''
  obtain ⟨f', hf', hpre', hle'⟩ := h' k hk f'' hf''
  obtain ⟨f, hf, hpre, hle⟩ := h k hk f' hf'
  exact ⟨f, hf, hpre.trans hpre', hle.trans hle'⟩

theorem VlogsSound.apply (h : d.VlogsSound) (x : Effect) : (d.apply x).VlogsSound := by
  intro p hp
  cases x with
  | createVlog n =>
    rcases mem_set.mp hp with ⟨hp, -⟩ | rfl
    · exact h p hp
    · exact le_rfl
  | appendVlog n bytes =>
    have hp : p ∈ Keyed.modify d.vlogs n fun f => f.append bytes := hp
    obtain ⟨f, hf, hpf⟩ := mem_modify.mp hp
    have hle := h _ hf
    rw [hpf]
    split
    · exact hle.trans (prefix_append f.bytes bytes).length_le
    · exact hle
  | syncVlog n =>
    obtain ⟨f, hf, hpf⟩ := mem_modify.mp hp
    have hle := h _ hf
    rw [hpf]
    split
    · exact le_rfl
    · exact hle
  | unlinkVlog n => exact h p (mem_erase.mp hp).1
  | _ => exact h p hp

/-- **No effect takes anything away** from a generation that is there afterwards. -/
theorem VlogsKeep.apply (h : d.VlogsSound) (hx : ∀ k, x = .createVlog k → n ≤ k) :
    VlogsKeep n d (d.apply x) := by
  intro k hk f' hf'
  have hmodify : ∀ (m : Nat) (g : File → File), (∀ f, f.synced ≤ f.bytes.length →
      f.bytes <+: (g f).bytes ∧ f.synced ≤ (g f).synced) →
      Keyed.get? (Keyed.modify d.vlogs m g) k = some f' →
      ∃ f, Keyed.get? d.vlogs k = some f ∧ f.bytes <+: f'.bytes ∧ f.synced ≤ f'.synced := by
    intro m g hg hget
    rw [get?_modify] at hget
    split at hget
    · obtain ⟨f, hf, rfl⟩ := Option.map_eq_some_iff.mp hget
      exact ⟨f, hf, hg f (h _ (mem_of_get? hf))⟩
    · exact ⟨f', hget, prefix_refl _, le_rfl⟩
  cases x with
  | createVlog m =>
    have hne : k ≠ m := ne_of_lt (lt_of_lt_of_le hk (hx m rfl))
    refine ⟨f', ?_, prefix_refl _, le_rfl⟩
    exact ((get?_set d.vlogs m k _).trans (if_neg hne)).symm.trans hf'
  | appendVlog m bytes =>
    exact hmodify m (fun f => f.append bytes) (fun f _ => ⟨prefix_append f.bytes bytes, le_rfl⟩) hf'
  | syncVlog m => exact hmodify m File.sync (fun f hle => ⟨prefix_refl _, hle⟩) hf'
  | unlinkVlog m =>
    have hget : Keyed.get? (Keyed.erase d.vlogs m) k = some f' := hf'
    rw [get?_erase] at hget
    split at hget
    · cases hget
    · exact ⟨f', hget, prefix_refl _, le_rfl⟩
  | _ => exact ⟨f', hf', prefix_refl _, le_rfl⟩

theorem VlogsKeep.applyAll (h : d.VlogsSound) (hfx : ∀ x ∈ fx, ∀ k, x = .createVlog k → n ≤ k) :
    VlogsKeep n d (d.applyAll fx) := by
  induction fx generalizing d with
  | nil => exact .refl n d
  | cons x fx ih =>
    obtain ⟨hx, hfx⟩ := forall_mem_cons.mp hfx
    exact (VlogsKeep.apply h hx).trans (ih (h.apply x) hfx)

theorem entryEnd_extend {F G : Bytes} {o : Nat} (h : F <+: G)
    (ho : o + kEntryHeaderSize ≤ F.length) :
    entryEnd G o = entryEnd F o := by
  obtain ⟨X, rfl⟩ := h
  have hget : ∀ k, k + 4 ≤ F.length → getFixed32 ((F ++ X).drop k) = getFixed32 (F.drop k) := by
    intro k hk
    rw [drop_append_of_le_length (by omega)]
    exact getFixed_append (by rw [length_drop]; omega) X
  rw [kEntryHeaderSize] at ho
  rw [entryEnd, entryEnd, hget _ (by omega), hget _ (by omega)]

/-- **Covered is covered**, as long as the generation is there. -/
theorem Covers.keep (h : d.Covers slot) (hs : d.VlogsSound) (hk : VlogsKeep n d d')
    (hn : ∀ p, decodeValuePointer slot = some p → p.vlogNumber < n) : d'.Covers slot := by
  intro p hp f' hf'
  obtain ⟨f, hf, hpre, hle⟩ := hk _ (hn p hp) f' hf'
  have hend := h p hp f hf
  have hlen : f.synced ≤ f.bytes.length := hs _ (mem_of_get? hf)
  have hin : p.offset + kEntryHeaderSize ≤ f.bytes.length := by
    unfold entryEnd at hend
    omega
  rw [entryEnd_extend hpre hin]
  exact hend.trans hle

theorem Covers.applyAll (h : d.Covers slot) (hs : d.VlogsSound)
    (hfx : ∀ x ∈ fx, ∀ k, x ≠ .createVlog k) : (d.applyAll fx).Covers slot := by
  intro p hp
  have hk : VlogsKeep (p.vlogNumber + 1) d (d.applyAll fx) :=
    .applyAll hs fun x hx k hcreate => absurd hcreate (hfx x hx k)
  exact h.keep hs hk (fun q hq => by
    rw [Option.some.inj (hp.symm.trans hq)]
    exact Nat.lt_succ_self _) p hp

/-! ## Synced records -/

/-- What is synced of the logs is covered. -/
structure LogsSafe (d : Disk) : Prop where
  vlogs : d.VlogsSound
  logs : ∀ p ∈ d.logs, p.2.synced ≤ p.2.bytes.length
  safe : ∀ p ∈ d.logs, ∀ e ∈ (p.2.cut 0).entries, e.type = .value → d.Covers e.value

theorem LogsSafe.congr (h : d.LogsSafe) (hlogs : ∀ p ∈ d'.logs, p ∈ d.logs)
    (hvlogs : d'.vlogs = d.vlogs) : d'.LogsSafe := by
  refine ⟨?_, fun p hp => h.logs p (hlogs p hp), fun p hp e he ht => ?_⟩
  · unfold VlogsSound
    rw [hvlogs]
    exact h.vlogs
  · exact (covers_congr hvlogs).mpr (h.safe p (hlogs p hp) e he ht)

theorem LogsSafe.vlog (h : d.LogsSafe) (hx : ∀ k, x ≠ .createVlog k)
    (hlogs : (d.apply x).logs = d.logs) : (d.apply x).LogsSafe := by
  refine ⟨h.vlogs.apply x, hlogs ▸ h.logs, fun p hp e he ht => ?_⟩
  have hc : (d.applyAll [x]).Covers e.value :=
    (h.safe p (hlogs ▸ hp) e he ht).applyAll h.vlogs fun y hy k => mem_singleton.mp hy ▸ hx k
  exact hc

theorem LogsSafe.appendLog (h : d.LogsSafe) (n : Nat) (bytes : Bytes) :
    (d.apply (.appendLog n bytes)).LogsSafe := by
  have hfile : ∀ p ∈ (d.apply (.appendLog n bytes)).logs, ∃ f, (p.1, f) ∈ d.logs ∧
      p.2.synced ≤ p.2.bytes.length ∧ (p.2.cut 0).entries = (f.cut 0).entries := by
    intro p hp
    have hp : p ∈ Keyed.modify d.logs n fun f => f.append bytes := hp
    obtain ⟨f, hf, hpf⟩ := mem_modify.mp hp
    have hle := h.logs _ hf
    refine ⟨f, hf, ?_⟩
    rw [hpf]
    split
    · refine ⟨hle.trans (prefix_append f.bytes bytes).length_le, File.entries_congr ?_⟩
      change (f.bytes ++ bytes).take (max f.synced 0) = f.bytes.take (max f.synced 0)
      rw [Nat.max_zero, take_append_of_le_length hle]
    · exact ⟨hle, rfl⟩
  refine ⟨h.vlogs, fun p hp => ?_, fun p hp e he ht => ?_⟩
  · obtain ⟨f, -, hle, -⟩ := hfile p hp
    exact hle
  · obtain ⟨f, hf, -, hsame⟩ := hfile p hp
    exact h.safe _ hf e (hsame ▸ he) ht

theorem LogsSafe.syncLog (h : d.LogsSafe)
    (hall : ∀ f, (n, f) ∈ d.logs → ∀ e ∈ f.entries, e.type = .value → d.Covers e.value) :
    (d.apply (.syncLog n)).LogsSafe := by
  refine ⟨h.vlogs, fun p hp => ?_, fun p hp e he ht => ?_⟩
  · obtain ⟨f, hf, hpf⟩ := mem_modify.mp hp
    rw [hpf]
    split
    · exact le_rfl
    · exact h.logs _ hf
  · obtain ⟨f, hf, hpf⟩ := mem_modify.mp hp
    rw [hpf] at he
    split at he
    · next hn =>
      refine hall f (hn ▸ hf) e ?_ ht
      exact (File.entries_mono (f := f.sync) (File.isPrefix_cut _ _)).subset he
    · exact h.safe _ hf e he ht

theorem LogsSafe.createLog (h : d.LogsSafe) (n : Nat) : (d.apply (.createLog n)).LogsSafe := by
  refine ⟨h.vlogs, fun p hp => ?_, fun p hp e he ht => ?_⟩
  · rcases mem_set.mp hp with ⟨hp, -⟩ | rfl
    · exact h.logs p hp
    · exact le_rfl
  · rcases mem_set.mp hp with ⟨hp, -⟩ | rfl
    · exact h.safe p hp e he ht
    · have he := (File.entries_mono (f := .empty) (File.isPrefix_cut _ _)).subset he
      rw [File.whole_empty.2] at he
      cases he

theorem LogsSafe.path
    (hfx : ∀ x ∈ fx, (∀ k, x ≠ .createVlog k) ∧ ∀ d : Disk, (d.apply x).logs = d.logs) :
    ∀ {d : Disk}, d.LogsSafe → Path LogsSafe d fx := by
  induction fx with
  | nil => exact fun h => h
  | cons x fx ih =>
    intro d h
    obtain ⟨hx, hfx⟩ := forall_mem_cons.mp hfx
    exact ⟨h, ih hfx (h.vlog hx.1 (hx.2 d))⟩

theorem LogsSafe.syncs {g : Nat} (h : d.LogsSafe)
    (hall : ∀ f, (n, f) ∈ d.logs → ∀ e ∈ f.entries, e.type = .value →
      (d.apply (.syncVlog g)).Covers e.value) :
    Path LogsSafe d [.syncVlog g, .syncLog n] :=
  have hv : (d.apply (.syncVlog g)).LogsSafe := h.vlog (fun _ heq => by cases heq) rfl
  ⟨h, hv, hv.syncLog hall⟩

end Disk

namespace DB

variable {s s' : DB} {h : List Entry} {st es : List (Bytes × Bytes)}

/-! ## Where a version can be -/

/-- The step freezes the memtable, or makes another generation current. -/
def Switches (s : DB) : Op → Prop
  | .put _ _ | .delete _ => s.core.full = true
  | .rotate => True
  | .gcStart => s.core.snapshots = []
  | _ => False

theorem switches_of_rotates {op : Op} (hrot : s.rotates op = true) : s.Switches op := by
  cases op <;> first | exact hrot | exact trivial | cases hrot

/-! ## The invariant -/

/-- Nothing of the current generation is unsynced. -/
def VlogSynced (s : DB) : Prop :=
  (s.vlogFile s.vlogCurrent).bytes.length ≤ (s.vlogFile s.vlogCurrent).synced

structure Guarded (st : List (Bytes × Bytes)) (s : DB) : Prop where
  logs : s.disk.LogsSafe
  older : ∀ q ∈ st, ∀ p, decodeValuePointer q.1 = some p → p.vlogNumber ≠ s.vlogCurrent →
    s.disk.Covers q.1
  tables : ∀ e ∈ s.core.pending ++ s.core.current.entries, e.type = .value → s.disk.Covers e.value
  always : s.opt.syncMode = .kSyncAlways → s.VlogSynced

/-- **When the current generation is synced, everything is covered.** -/
theorem covers_of_synced (hslots : ∀ q ∈ st, s.SlotOk q.1 q.2) (hmem : s.vlogCurrent ∈ s.vlogs)
    (holder : ∀ q ∈ st, ∀ p, decodeValuePointer q.1 = some p → p.vlogNumber ≠ s.vlogCurrent →
      s.disk.Covers q.1) (hsync : s.VlogSynced) : ∀ q ∈ st, s.disk.Covers q.1 := by
  intro q hq p hdec f hget
  by_cases hcur : p.vlogNumber = s.vlogCurrent
  · rcases hslots q hq with ⟨hnone, -⟩ | ⟨p', key, hslot, hfit, hsize, hkey, -, hentry⟩
    · rw [hnone] at hdec
      cases hdec
    · rw [hslot, decode_encodeValuePointer hfit] at hdec
      obtain rfl := Option.some.inj hdec
      have hfile : s.vlogFile p'.vlogNumber = f := by rw [vlogFile, hget]; rfl
      obtain ⟨X, hX⟩ := hentry (hcur ▸ hmem)
      have hat := entryAt_of_drop hkey (hsize ▸ hfit.valueSize) hX.symm
      rw [hfile] at hat
      rw [VlogSynced, ← hcur, hfile] at hsync
      rw [Disk.entryEnd, hat.klen, hat.vsize]
      exact hat.length.trans hsync
  · exact holder q hq p hdec hcur p hdec f hget

theorem covers_slotted {d : Disk} (hall : ∀ q ∈ st, d.Covers q.1) {e : Entry} (he : Slotted st e)
    (ht : e.type = .value) : d.Covers e.value := by
  obtain ⟨v, hv⟩ := he ht
  exact hall _ hv

/-! ## Writes -/

section Write

variable {type : ValueType} {key value : Bytes}

theorem writeEffects_creates (s : DB) (type : ValueType) (key value : Bytes) :
    ∀ x ∈ s.writeEffects type key value, ∀ k, x ≠ .createVlog k := by
  unfold writeEffects appendEffects syncEffects
  split_ifs <;> simp

theorem vlogSynced_write (hcur : s.vlogCurrent ∈ Keyed.keys s.disk.vlogs)
    (hon : s.opt.enableValueSeparation = true) (hneed : s.syncNeeded type key value = true) :
    (s.writeEntry type key value).VlogSynced := by
  obtain ⟨f, hf⟩ := exists_get? hcur
  change ((Keyed.get? (s.disk.applyAll (s.writeEffects type key value)).vlogs s.vlogCurrent).getD
    .empty).bytes.length ≤ ((Keyed.get? (s.disk.applyAll (s.writeEffects type key value)).vlogs
      s.vlogCurrent).getD .empty).synced
  unfold writeEffects appendEffects syncEffects
  rw [if_pos hneed, if_pos hon]
  cases s.separates type value <;> simp [Disk.apply, get?_modify, hf, File.append, File.sync]

/-- **A write keeps the order**: what it appends is not synced, or the value log is synced before
the log. -/
theorem Guarded.write (hg : Guarded st s) (hon : s.opt.enableValueSeparation = true)
    (hgens : s.GensOk) (hslots : ∀ q ∈ st ++ es, (s.writeEntry type key value).SlotOk q.1 q.2)
    (hlogs : (s.writeEntry type key value).LogsSlotted (st ++ es))
    (hes : ∀ q ∈ es, ∀ p, decodeValuePointer q.1 = some p → p.vlogNumber = s.vlogCurrent) :
    Disk.Path Disk.LogsSafe s.disk (s.writeEffects type key value) ∧
      Guarded (st ++ es) (s.writeEntry type key value) := by
  have hmem := hgens.current_mem hon
  have hkeep : ∀ {slot}, s.disk.Covers slot → (s.writeEntry type key value).disk.Covers slot :=
    fun hc => hc.applyAll hg.logs.vlogs (writeEffects_creates s type key value)
  have holder : ∀ q ∈ st ++ es, ∀ p, decodeValuePointer q.1 = some p →
      p.vlogNumber ≠ s.vlogCurrent → (s.writeEntry type key value).disk.Covers q.1 := by
    intro q hq p hp hne
    rcases mem_append.mp hq with hq | hq
    · exact hkeep (hg.older q hq p hp hne)
    · exact absurd (hes q hq p hp) hne
  have happend : Disk.Path Disk.LogsSafe s.disk (s.appendEffects type key value) := by
    unfold appendEffects
    split
    · have hv : (s.disk.apply (.appendVlog s.vlogCurrent (s.vlogBytes type key value))).LogsSafe :=
        hg.logs.vlog (fun _ heq => by cases heq) rfl
      exact ⟨hg.logs, hv, hv.appendLog _ _⟩
    · exact ⟨hg.logs, hg.logs.appendLog _ _⟩
  have hpath : Disk.Path Disk.LogsSafe s.disk (s.writeEffects type key value) := by
    unfold writeEffects
    refine happend.append ?_
    have hsafe := happend.at_point (prefix_refl _)
    split
    · next hneed =>
      have hall := covers_of_synced hslots hmem holder
        (vlogSynced_write (hgens.present _ hmem) hon hneed)
      have hdisk : (s.writeEntry type key value).disk =
          ((s.disk.applyAll (s.appendEffects type key value)).apply
            (.syncVlog s.vlogCurrent)).apply (.syncLog s.logNumber) := by
        change s.disk.applyAll (s.writeEffects type key value) = _
        unfold writeEffects syncEffects
        rw [if_pos hneed, if_pos hon, Disk.applyAll_append]
        rfl
      unfold syncEffects
      rw [if_pos hon]
      refine hsafe.syncs fun f hf e he ht => ?_
      -- the record is in the log as the write leaves it, and everything is covered there
      have hlog : (s.logNumber, f.sync) ∈ (s.writeEntry type key value).disk.logs := by
        rw [hdisk]
        exact mem_modify.mpr ⟨f, hf, (if_pos rfl).symm⟩
      have hcov := covers_slotted hall ((hlogs _ hlog).2 e he) ht
      rw [hdisk] at hcov
      exact hcov
    · exact hsafe
  refine ⟨hpath, hpath.at_point (prefix_refl _), holder, fun e he ht => hkeep (hg.tables e he ht),
    fun halways => vlogSynced_write (hgens.present _ hmem) hon ?_⟩
  have halways : s.opt.syncMode = .kSyncAlways := halways
  simp [syncNeeded, halways]

end Write

/-! ## Other steps -/

section

variable (hk : SlotsOk st s)
include hk

theorem slot_lt {q : Bytes × Bytes} (hq : q ∈ st) {p : ValuePointer}
    (hp : decodeValuePointer q.1 = some p) : p.vlogNumber < s.core.nextFileNumber := by
  have hlt := hk.gens.lt _ (hk.gens.current_mem hk.on)
  rcases hk.slots q hq with ⟨hnone, -⟩ | ⟨p', key, hslot, hfit, -, -, hle, -⟩
  · rw [hnone] at hp
    cases hp
  · rw [hslot, decode_encodeValuePointer hfit] at hp
    exact Option.some.inj hp ▸ lt_of_le_of_lt hle hlt

theorem slotted_stored {e : Entry} (he : e ∈ s.core.stored) : Slotted st e := by
  obtain ⟨h, hi, hslotted⟩ := hk.inv
  exact hslotted e (hi.contents.sub e he)

/-- **A rotation** finds everything covered. -/
theorem Guarded.rotate (hg : Guarded st s) (him : s.core.imm = none) (hsync : s.VlogSynced) :
    Disk.Path Disk.LogsSafe s.disk s.rotateEffects ∧ Guarded st s.rotateForFlush := by
  obtain ⟨h, hi, -⟩ := hk.inv
  have hall := covers_of_synced hk.slots (hk.gens.current_mem hk.on) hg.older hsync
  have hcreate := hg.logs.createLog s.core.nextFileNumber
  have hsafe : ((s.disk.apply (.createLog s.core.nextFileNumber)).apply
      (.syncLog s.core.nextFileNumber)).LogsSafe := by
    refine hcreate.syncLog fun f hf e he => ?_
    rcases mem_set.mp hf with ⟨-, hne⟩ | heq
    · exact absurd rfl hne
    · obtain ⟨-, rfl⟩ := Prod.mk.inj heq
      rw [File.whole_empty.2] at he
      cases he
  refine ⟨⟨hg.logs, hcreate, hsafe⟩, hsafe, hg.older, fun e he ht => ?_, hg.always⟩
  rcases mem_append.mp he with he | he
  · have hmem := Lsm.pending_rotateForFlush hi him ▸ he
    exact covers_slotted hall (slotted_stored hk (mem_append_left _ hmem)) ht
  · exact hg.tables e (mem_append_right _ he) ht

/-- **The switch** to a fresh generation finds everything covered. -/
theorem Guarded.gcStart (hg : Guarded st s) (hsync : s.VlogSynced) :
    Disk.Path Disk.LogsSafe s.disk
        [.createVlog s.core.nextFileNumber, .publish s.gcSwitch.manifest] ∧
      Guarded st (s.gcSwitch.perform
        [.createVlog s.core.nextFileNumber, .publish s.gcSwitch.manifest]) := by
  have hall := covers_of_synced hk.slots (hk.gens.current_mem hk.on) hg.older hsync
  have hkeep : Disk.VlogsKeep s.core.nextFileNumber s.disk
      (s.disk.apply (.createVlog s.core.nextFileNumber)) :=
    .apply hg.logs.vlogs fun k heq => by
      cases heq
      exact le_rfl
  have hcov : ∀ {e : Entry}, Slotted st e → e.type = .value →
      (s.disk.apply (.createVlog s.core.nextFileNumber)).Covers e.value := by
    intro e he ht
    obtain ⟨v, hv⟩ := he ht
    exact (hall _ hv).keep hg.logs.vlogs hkeep fun p => slot_lt hk hv
  have hsafe : (s.disk.apply (.createVlog s.core.nextFileNumber)).LogsSafe := by
    refine ⟨hg.logs.vlogs.apply _, hg.logs.logs, fun p hp e he ht => hcov ?_ ht⟩
    exact (hk.logs p hp).2 e ((File.entries_mono (File.isPrefix_cut _ _)).subset he)
  have hpub : ((s.disk.apply (.createVlog s.core.nextFileNumber)).apply
      (.publish s.gcSwitch.manifest)).LogsSafe := hsafe.congr (fun _ hp => hp) rfl
  refine ⟨⟨hg.logs, hsafe, hpub⟩, hpub, fun q hq _ _ _ => ?_, fun e he ht => ?_, fun _ => ?_⟩
  · exact (hall q hq).keep hg.logs.vlogs hkeep fun p => slot_lt hk hq
  · exact hcov (slotted_stored hk (mem_append_right _ he)) ht
  · have hfile : (s.gcSwitch.perform [.createVlog s.core.nextFileNumber,
        .publish s.gcSwitch.manifest]).vlogFile s.core.nextFileNumber = .empty := by
      change (Keyed.get? (Keyed.set s.disk.vlogs s.core.nextFileNumber .empty) _).getD .empty = _
      rw [get?_set, if_pos rfl]
      rfl
    change (DB.vlogFile _ s.core.nextFileNumber).bytes.length ≤
      (DB.vlogFile _ s.core.nextFileNumber).synced
    rw [hfile]
    exact le_rfl

/-- **The retirement** syncs both files first. -/
theorem Guarded.gcRetire (hg : Guarded st s) (m : Manifest)
    (hslots : ∀ q ∈ st, s'.SlotOk q.1 q.2) (hmem : s'.vlogCurrent ∈ s'.vlogs)
    (hdisk : s'.disk = s.disk.applyAll (s.syncEffects ++ [.publish m])) (hcore : s'.core = s.core)
    (hcur : s'.vlogCurrent = s.vlogCurrent) :
    Disk.Path Disk.LogsSafe s.disk (s.syncEffects ++ [.publish m]) ∧ Guarded st s' := by
  have hfx : s.syncEffects = [.syncVlog s.vlogCurrent, .syncLog s.logNumber] := by
    rw [syncEffects, if_pos hk.on]
    rfl
  rw [hfx] at hdisk ⊢
  have hvlogs : s'.disk.vlogs = (s.disk.apply (.syncVlog s.vlogCurrent)).vlogs := by
    rw [hdisk]
    rfl
  have hkeep : ∀ {slot}, s.disk.Covers slot → s'.disk.Covers slot := by
    intro slot hc
    rw [hdisk]
    exact hc.applyAll hg.logs.vlogs (by simp)
  have holder : ∀ q ∈ st, ∀ p, decodeValuePointer q.1 = some p → p.vlogNumber ≠ s'.vlogCurrent →
      s'.disk.Covers q.1 := fun q hq p hp hne => hkeep (hg.older q hq p hp (hcur ▸ hne))
  have hsync : s'.VlogSynced := by
    obtain ⟨f, hf⟩ := exists_get? (hk.gens.present _ (hk.gens.current_mem hk.on))
    have hfile : s'.vlogFile s'.vlogCurrent = f.sync := by
      rw [vlogFile, hcur, hvlogs]
      change (Keyed.get? (Keyed.modify s.disk.vlogs s.vlogCurrent File.sync) _).getD .empty = _
      rw [get?_modify, if_pos rfl, hf]
      rfl
    rw [VlogSynced, hfile]
    exact le_rfl
  have hall := covers_of_synced hslots hmem holder hsync
  have hpath : Disk.Path Disk.LogsSafe s.disk [.syncVlog s.vlogCurrent, .syncLog s.logNumber] := by
    refine hg.logs.syncs fun f hf e he ht => ?_
    exact (Disk.covers_congr hvlogs).mp (covers_slotted hall ((hk.logs _ hf).2 e he) ht)
  have hsafe := hpath.at_point (prefix_refl _)
  have hpub : ((s.disk.applyAll [.syncVlog s.vlogCurrent, .syncLog s.logNumber]).apply
      (.publish m)).LogsSafe := hsafe.congr (fun _ hp => hp) rfl
  refine ⟨hpath.append ⟨hsafe, hpub⟩, ?_, holder, fun e he ht => ?_, fun _ => hsync⟩
  · rw [hdisk]
    exact hpub
  · rw [hcore] at he
    exact hkeep (hg.tables e he ht)

end

theorem Guarded.quiet (hi : s.core.Inv h) (hg : Guarded st s) {op : Op} (hs : s.step op = some s')
    (hop : ¬ s.Switches op) (hsafe : s'.disk.LogsSafe) (hvlogs : s'.disk.vlogs = s.disk.vlogs)
    (hcur : s'.vlogCurrent = s.vlogCurrent) : Guarded st s' := by
  refine ⟨hsafe, fun q hq p hp hne => ?_, fun e he ht => ?_, fun halways => ?_⟩
  · exact (Disk.covers_congr hvlogs).mpr (hg.older q hq p hp (hcur ▸ hne))
  · refine (Disk.covers_congr hvlogs).mpr (hg.tables e ?_ ht)
    rcases mem_append.mp he with he | he
    · rcases (step_frame hi hs).pending e he with he | ⟨hrot, -⟩
      · exact mem_append_left _ he
      · exact absurd (switches_of_rotates hrot) hop
    · exact (step_frame hi hs).tables e he
  · rw [step_opt hi hs] at halways
    unfold VlogSynced vlogFile
    rw [hcur, hvlogs]
    exact hg.always halways

/-! ## Every step -/

/-- The step's writes fit, and the current generation is synced when the step switches. -/
structure Calm (s : DB) (op : Op) : Prop where
  storable : s.Storable op
  synced : s.Switches op → s.opt.syncMode ≠ .kSyncAlways → s.VlogSynced

theorem Calm.vlogSynced (hc : s.Calm op) (hg : Guarded st s) (hsw : s.Switches op) :
    s.VlogSynced := by
  by_cases halways : s.opt.syncMode = .kSyncAlways
  · exact hg.always halways
  · exact hc.synced hsw halways

theorem put_guarded (hk : SlotsOk st s) (hg : Guarded st s) (him : s.core.imm = none)
    {type : ValueType} {key value : Bytes} (hsync : s.core.full = true → s.VlogSynced)
    (hslots : ∀ q ∈ st ++ es, (s.makeRoom.writeEntry type key value).SlotOk q.1 q.2)
    (hlogs : (s.makeRoom.writeEntry type key value).LogsSlotted (st ++ es))
    (hes : ∀ q ∈ es, ∀ p, decodeValuePointer q.1 = some p → p.vlogNumber = s.vlogCurrent) :
    Disk.Path Disk.LogsSafe s.disk
        (s.makeRoomEffects ++ s.makeRoom.writeEffects type key value) ∧
      Guarded (st ++ es) (s.makeRoom.writeEntry type key value) := by
  have hroom : Disk.Path Disk.LogsSafe s.disk s.makeRoomEffects ∧ Guarded st s.makeRoom := by
    unfold makeRoomEffects makeRoom
    split
    · next hfull => exact hg.rotate hk him (hsync hfull)
    · exact ⟨hg.logs, hg⟩
  have hcur : s.makeRoom.vlogCurrent = s.vlogCurrent := by
    unfold makeRoom
    split <;> rfl
  obtain ⟨hpath, hg'⟩ := hroom.2.write ((makeRoom_opt s).symm ▸ hk.on) (makeRoom_gensOk hk.gens)
    hslots hlogs (hcur.symm ▸ hes)
  refine ⟨hroom.1.append ?_, hg'⟩
  rw [← makeRoom_disk]
  exact hpath

/-- **Every step keeps the order**, at each of its points. -/
theorem Guarded.step (hk : SlotsOk st s) (hg : Guarded st s) {op : Op} (hc : s.Calm op)
    (hs : s.step op = some s') :
    Disk.Path Disk.LogsSafe s.disk (s.effects op) ∧ Guarded (st ++ s.stores op) s' := by
  obtain ⟨h, hi, -⟩ := hk.inv
  have hk' := hk.step hc.storable hs
  have hstores : ∀ {value}, ∀ q ∈ [(s.slot .value value, value)], ∀ p,
      decodeValuePointer q.1 = some p → p.vlogNumber = s.vlogCurrent := by
    intro value q hq p hp
    obtain rfl := mem_singleton.mp hq
    exact slot_gen hk.on (fun _ => hc.storable.pointer) hp
  have hnil : st ++ [] = st := append_nil st
  have hn := step_next hs
  generalize s.effects op = fx at hn ⊢
  cases hn with
  | put him =>
    exact put_guarded hk hg him (fun hfull => hc.vlogSynced hg hfull) hk'.slots hk'.logs hstores
  | delete him =>
    exact put_guarded hk hg him (fun hfull => hc.vlogSynced hg hfull) hk'.slots hk'.logs nofun
  | rotate him => exact hnil.symm ▸ hg.rotate hk him (hc.vlogSynced hg trivial)
  | gcStart _ hsn => exact hnil.symm ▸ hg.gcStart hk (hc.vlogSynced hg hsn)
  | @gcRewrite _ _ _ x todo hgc hlive =>
    have hst : s.stores .gcEntry = [(s.slot .value x.entry.value, x.entry.value)] := by
      simp [stores, hgc, hlive]
    rw [hst] at hk' ⊢
    obtain ⟨hpath, hg'⟩ := hg.write hk.on hk.gens hk'.slots hk'.logs hstores
    exact ⟨hpath, hg'.logs, hg'.older, hg'.tables, hg'.always⟩
  | gcRetire =>
    rw [show s.stores .gcRetire = [] from rfl, hnil] at hk' ⊢
    exact hg.gcRetire hk _ hk'.slots (hk'.gens.current_mem hk'.on) rfl rfl rfl
  | @flushBuilt m t =>
    have hpath : Disk.Path Disk.LogsSafe s.disk (tableEffects s.core.immSstNumber t) :=
      Disk.LogsSafe.path (by simp [tableEffects, Disk.apply]) hg.logs
    exact ⟨hpath, hnil.symm ▸ hg.quiet hi hs id (hpath.at_point (prefix_refl _)) rfl rfl⟩
  | @flushInstall c =>
    have hpath : Disk.Path Disk.LogsSafe s.disk [.publish (s.installed c).manifest] :=
      Disk.LogsSafe.path (by simp [Disk.apply]) hg.logs
    exact ⟨hpath, hnil.symm ▸ hg.quiet hi hs id (hpath.at_point (prefix_refl _)) rfl rfl⟩
  | flushDone =>
    have hsafe : (s.disk.apply (.unlinkLog s.immLogNumber)).LogsSafe :=
      hg.logs.congr (fun p hp => (mem_erase.mp hp).1) rfl
    exact ⟨⟨hg.logs, hsafe⟩, hnil.symm ▸ hg.quiet hi hs id hsafe rfl rfl⟩
  | @sealOutput c x floor t =>
    have hpath : Disk.Path Disk.LogsSafe s.disk (tableEffects s.core.nextFileNumber t) :=
      Disk.LogsSafe.path (by simp [tableEffects, Disk.apply]) hg.logs
    exact ⟨hpath, hnil.symm ▸ hg.quiet hi hs id (hpath.at_point (prefix_refl _)) rfl rfl⟩
  | @installCompaction c x =>
    have hpath : Disk.Path Disk.LogsSafe s.disk (.publish (s.installed c).manifest ::
        x.inputs.map fun r => .unlinkSst r.number) :=
      Disk.LogsSafe.path (by simp [Disk.apply]) hg.logs
    have hvlogs := (unlinkSsts_frame x.inputs
      (s.disk.apply (.publish (s.installed c).manifest))).2.1
    exact ⟨hpath, hnil.symm ▸ hg.quiet hi hs id (hpath.at_point (prefix_refl _)) hvlogs rfl⟩
  | gcDead hgc hdead =>
    rw [show s.stores .gcEntry = [] by simp [stores, hgc, hdead], hnil]
    exact ⟨hg.logs, hg.quiet hi hs id hg.logs rfl rfl⟩
  | gcDefer => exact ⟨hg.logs, hnil.symm ▸ ⟨hg.logs, hg.older, hg.tables, hg.always⟩⟩
  | @gcUnlink retired hgc =>
    have hpath : Disk.Path Disk.LogsSafe s.disk (retired.map .unlinkVlog) :=
      Disk.LogsSafe.path (by simp [Disk.apply]) hg.logs
    have hkeep : ∀ {slot}, s.disk.Covers slot →
        (s.disk.applyAll (retired.map .unlinkVlog)).Covers slot :=
      fun hcov => hcov.applyAll hg.logs.vlogs (by simp)
    have hfree := hk.gens.gc
    rw [hgc] at hfree
    have hfile := get?_unlinkVlogs (fun hr => hfree _ hr (hk.gens.current_mem hk.on)) s.disk
    refine ⟨hpath, hnil.symm ▸ ⟨hpath.at_point (prefix_refl _), fun q hq p hp hne => ?_,
      fun e he ht => hkeep (hg.tables e he ht), fun halways => ?_⟩⟩
    · exact hkeep (hg.older q hq p hp hne)
    · have hsync := hg.always halways
      unfold VlogSynced vlogFile at hsync ⊢
      change ((Keyed.get? (s.disk.applyAll (retired.map .unlinkVlog)).vlogs
        s.vlogCurrent).getD .empty).bytes.length ≤ ((Keyed.get?
          (s.disk.applyAll (retired.map .unlinkVlog)).vlogs s.vlogCurrent).getD .empty).synced
      rw [hfile]
      exact hsync
  | _ => exact ⟨hg.logs, hnil.symm ▸ hg.quiet hi hs id hg.logs rfl rfl⟩

theorem effects_creates {op : Op} (hs : s.step op = some s') :
    ∀ x ∈ s.effects op, ∀ k, x = .createVlog k → s.core.nextFileNumber ≤ k := by
  have hroom : ∀ {type key value},
      ∀ x ∈ s.makeRoomEffects ++ s.makeRoom.writeEffects type key value,
      ∀ k, x = .createVlog k → s.core.nextFileNumber ≤ k := by
    intro type key value x hx k heq
    rcases mem_append.mp hx with hx | hx
    · unfold makeRoomEffects rotateEffects at hx
      split at hx <;> simp [heq] at hx
    · exact absurd heq (writeEffects_creates _ type key value x hx k)
  have hn := step_next hs
  generalize s.effects op = fx at hn ⊢
  cases hn with
  | put | delete => exact hroom
  | gcRewrite => exact fun x hx k heq => absurd heq (writeEffects_creates _ _ _ _ x hx k)
  | gcRetire =>
    unfold syncEffects
    split_ifs <;> simp
  | _ => simp [rotateEffects, tableEffects]

/-- What the MANIFEST names, at any point of a step, was in a table or pending before it. -/
theorem named_sources (hk : SlotsOk st s) (hk' : SlotsOk es s') {op : Op} (hs : s.step op = some s')
    {done : List Effect} (hdone : done <+: s.effects op) {m : FileMeta}
    (hm : m ∈ (s.disk.applyAll done).manifestState.files) {t : Table} {synced : Bool}
    (hget : Keyed.get? (s.disk.applyAll done).ssts m.fileNumber = some ⟨some t, synced⟩) {e : Entry}
    (he : e ∈ t.entries) : e ∈ s.core.pending ++ s.core.current.entries := by
  obtain ⟨h, hi, -⟩ := hk.inv
  have hentries : ∀ {v : Version}, (s.disk.applyAll done).Names v → e ∈ v.entries := by
    intro v hn
    rw [hn.files] at hm
    obtain ⟨r, hr, rfl⟩ := mem_map.mp hm
    have hr : r ∈ v.tables := (perm_sortByNumber v.tables).mem_iff.mp hr
    have htable := (hn.tables r hr).symm.trans hget
    obtain ⟨rfl, -⟩ : r.table = t ∧ _ := by simpa using htable
    exact mem_flatMap.mpr ⟨r, hr, he⟩
  have hpresent : ∀ r ∈ s'.core.current.tables,
      Keyed.get? (s.disk.applyAll (s.effects op)).ssts r.number ≠ none := by
    intro r hr
    rw [← step_disk hs, hk'.files.names.tables r hr]
    exact Option.some_ne_none _
  rw [prefix_iff_eq_take.mp hdone] at hentries
  rcases (step_hinged hi hs).below done.length hpresent with hb | hb
  · exact mem_append_right _ (hentries (hb.names hk.files.names))
  · rw [← step_disk hs] at hb
    exact (step_frame hi hs).tables e (hentries (hb.names hk'.files.names))

/-- **What is durable is covered**, at every point of a step. -/
theorem Guarded.pointers (hk : SlotsOk st s) (hg : Guarded st s) {op : Op} (hc : s.Calm op)
    (hs : s.step op = some s') {done : List Effect} (hdone : done <+: s.effects op) :
    (s.disk.applyAll done).PointersDurable := by
  intro e hdur ht
  rcases hdur with ⟨p, hp, he⟩ | ⟨m, hm, t, synced, hget, he⟩
  · exact ((hg.step hk hc hs).1.at_point hdone).safe p hp e he ht
  · have hsrc := named_sources hk (hk.step hc.storable hs) hs hdone hm hget he
    obtain ⟨v, hv⟩ := slotted_stored hk (mem_append_right _ hsrc) ht
    refine (hg.tables e hsrc ht).keep hg.logs.vlogs (Disk.VlogsKeep.applyAll hg.logs.vlogs ?_)
      fun p => slot_lt hk hv
    exact fun x hx => effects_creates hs x (hdone.subset hx)

/-! ## Every run -/

theorem fresh_guarded {opt : Options} : Guarded [] (fresh opt) := by
  have hempty : ∀ p ∈ (fresh opt).disk.vlogs, p.2 = .empty := by
    intro p hp
    have hp : p ∈ if opt.enableValueSeparation then [(1, File.empty)] else [] := hp
    split at hp
    · rw [mem_singleton.mp hp]
    · cases hp
  refine ⟨⟨fun p hp => ?_, fun p hp => ?_, fun p hp e he => ?_⟩, fun q hq => ?_, fun e he => ?_,
    fun _ => ?_⟩
  · rw [hempty p hp]
    exact le_rfl
  · rw [mem_singleton.mp hp]
    exact le_rfl
  · rw [mem_singleton.mp hp] at he
    have he := (File.entries_mono (f := .empty) (File.isPrefix_cut _ _)).subset he
    rw [File.whole_empty.2] at he
    cases he
  · cases hq
  · simp [fresh, Lsm.fresh, Lsm.pending, Version.entries] at he
  · unfold VlogSynced vlogFile fresh
    cases opt.enableValueSeparation <;> exact le_rfl

/-- **Durable pointers lead to durable bytes** at every point of a run with value separation whose
writes fit and in which the current generation is synced whenever the memtable is frozen or another
generation becomes current.  Under `kSyncAlways` it always is. -/
theorem run_pointers {opt : Options} (hon : opt.enableValueSeparation = true) {tr : List Op}
    {op : Op}
    (hmeets : Machine.Meets step Calm (fresh opt) (tr ++ [op]))
    (hrun : Machine.run step (fresh opt) tr = some s) (hs : s.step op = some s')
    {done : List Effect} (hdone : done <+: s.effects op) :
    (s.disk.applyAll done).PointersDurable := by
  obtain ⟨hmeets, hlast⟩ := Machine.meets_append hmeets
  have hinv : ∃ st, SlotsOk st s ∧ Guarded st s := by
    refine Machine.meets_invariant (fun _ s => ∃ st, SlotsOk st s ∧ Guarded st s)
      ⟨[], fresh_slotsOk hon, fresh_guarded⟩ ?_ hmeets hrun
    rintro _ s op s' ⟨st, hk, hg⟩ hc hs
    exact ⟨_, hk.step hc.storable hs, (hg.step hk hc hs).2⟩
  obtain ⟨st, hk, hg⟩ := hinv
  exact hg.pointers hk (hlast s hrun).1 hs hdone

def vlogOptions (mode : SyncMode) : Options :=
  { Lsm.smallOptions with
    syncMode := mode
    enableValueSeparation := true
    valueSeparationThreshold := 64 }

/-- A long value on its way into a table. -/
def sampleFlush : List Op := [.put [1] (List.replicate 64 7), .rotate, .flushBuild]

theorem run_pointers_sampleFlush :
    ∃ s s', Machine.run step (fresh (vlogOptions .kSyncAlways)) sampleFlush = some s ∧
      s.step .flushInstall = some s' ∧
      (s.disk.applyAll (s.effects .flushInstall)).PointersDurable := by
  refine ⟨_, _, rfl, rfl, @run_pointers _ _ (vlogOptions .kSyncAlways) rfl sampleFlush .flushInstall
    ?_ rfl rfl _ (List.prefix_refl _)⟩
  refine ⟨⟨⟨⟨by decide, by decide, by decide⟩, ⟨by decide, by decide⟩⟩,
    fun _ hne => absurd rfl hne⟩,
    fun s' hs' => ?_⟩
  obtain rfl := Option.some.inj hs'
  refine ⟨⟨⟨trivial, ⟨by decide, by decide +kernel⟩⟩, fun _ hne => absurd rfl hne⟩,
    fun s' hs' => ?_⟩
  obtain rfl := Option.some.inj hs'
  refine ⟨⟨⟨trivial, ⟨by decide, by decide +kernel⟩⟩, fun hsw => hsw.elim⟩, fun s' hs' => ?_⟩
  obtain rfl := Option.some.inj hs'
  exact ⟨⟨⟨trivial, ⟨by decide, by decide +kernel⟩⟩, fun hsw => hsw.elim⟩, fun _ _ => trivial⟩

/-- **The table is durable and its value is not**: under `kSyncPeriodic` nothing was synced when the
memtable was frozen. -/
theorem run_pointers_unsynced :
    ∃ s e f, Machine.run step (fresh (vlogOptions .kSyncPeriodic))
      (sampleFlush ++ [.flushInstall]) =
        some s ∧
      s.disk.Durable e ∧ e.type = .value ∧ decodeValuePointer e.value = some ⟨1, 0, 64⟩ ∧
      Keyed.get? s.disk.vlogs 1 = some f ∧ Disk.entryEnd f.bytes 0 = 77 ∧ f.synced = 0 ∧
      ¬ s.disk.PointersDurable := by
  have hobs : (Machine.run step (fresh (vlogOptions .kSyncPeriodic))
      (sampleFlush ++ [.flushInstall])).map
        (fun s => (s.disk.manifestState.files.map FileMeta.fileNumber,
        (Keyed.get? s.disk.ssts 3).bind fun f => f.table.map Table.entries,
        (Keyed.get? s.disk.vlogs 1).map fun f => (Disk.entryEnd f.bytes 0, f.synced))) =
      some ([3], some [⟨[1], 1, .value, encodeValuePointer ⟨1, 0, 64⟩⟩], some (77, 0)) := by
    decide +kernel
  obtain ⟨s, hs, hseen⟩ := Option.map_eq_some_iff.mp hobs
  obtain ⟨hfiles, hseen⟩ := Prod.mk.inj hseen
  obtain ⟨hsst, hvlog⟩ := Prod.mk.inj hseen
  obtain ⟨x, hx, htable⟩ := Option.bind_eq_some_iff.mp hsst
  obtain ⟨t, ht, hentries⟩ := Option.map_eq_some_iff.mp htable
  obtain ⟨f, hf, hpair⟩ := Option.map_eq_some_iff.mp hvlog
  obtain ⟨hend, hsynced⟩ := Prod.mk.inj hpair
  have hdec : decodeValuePointer (encodeValuePointer ⟨1, 0, 64⟩) = some ⟨1, 0, 64⟩ := by decide
  have hdur : s.disk.Durable ⟨[1], 1, .value, encodeValuePointer ⟨1, 0, 64⟩⟩ := by
    obtain ⟨m, hm, hnum⟩ := List.mem_map.mp (hfiles ▸ List.mem_singleton_self 3)
    refine Or.inr ⟨m, hm, t, x.synced, ?_, hentries ▸ List.mem_singleton_self _⟩
    rw [hnum, hx, ← ht]
  refine ⟨s, _, f, hs, hdur, rfl, hdec, hf, hend, hsynced, fun hp => ?_⟩
  have hle := hp _ hdur rfl _ hdec f hf
  rw [hend, hsynced] at hle
  exact absurd hle (by decide)

end DB

end BedrockKV
