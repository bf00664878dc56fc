/-
# `BedrockKV.CrashLife` — a life with power cuts

The life of `BedrockKV.SeqOrder`, and power cuts in it: at any point of a step,
under any sync mode, with any loss, and any options at the next `Open`.

    Below d d₀ v     `d` has the MANIFEST of `d₀`, its tables of `v`, and a prefix of each log
    cut_below        what a cut leaves is below the directory before the step or after it
    LifeOk.below     what is below the directory of a good state opens to a state
                     that keeps the invariant of the store

A replay does not cut off every torn end of a log.  Where it leaves one that
the next reader trips over, what is written after it cannot be read back as
records, and nothing is said about a later restart; `Mended` are the cuts
whose ends are all cut off or passed over.
-/
import BedrockKV.SeqOrder

namespace BedrockKV

open List Keyed Log MultiVersion

/-! ## Directories that lost something -/

namespace Disk

/-- `d` is `d₀`, but for the ends of its logs and for tables that `v` does not have. -/
structure Below (d d₀ : Disk) (v : Version) : Prop where
  manifest : d.manifest = d₀.manifest
  logs : List.Forall₂ (fun p q => p.1 = q.1 ∧ p.2.bytes <+: q.2.bytes) d.logs d₀.logs
  tables : ∀ r ∈ v.tables, Keyed.get? d.ssts r.number = Keyed.get? d₀.ssts r.number

variable {d d' d₀ : Disk} {v : Version}

theorem Below.refl (d : Disk) (v : Version) : d.Below d v :=
  ⟨rfl, forall₂_same.mpr fun _ _ => ⟨rfl, prefix_refl _⟩, fun _ _ => rfl⟩

theorem Below.trans (h : d.Below d' v) (h' : d'.Below d₀ v) : d.Below d₀ v := by
  refine ⟨h.manifest.trans h'.manifest, ?_, fun r hr => (h.tables r hr).trans (h'.tables r hr)⟩
  have hlogs := h.logs
  have hlogs' := h'.logs
  generalize d₀.logs = l₀ at hlogs' ⊢
  generalize d.logs = l at hlogs ⊢
  generalize d'.logs = l' at hlogs hlogs'
  induction hlogs generalizing l₀ with
  | nil =>
    cases hlogs'
    exact .nil
  | cons hpq _ ih =>
    cases hlogs' with
    | cons hqr hrest => exact .cons ⟨hpq.1.trans hqr.1, hpq.2.trans hqr.2⟩ (ih _ hrest)

theorem Below.names (h : d.Below d₀ v) (hn : d₀.Names v) : d.Names v := by
  refine ⟨?_, fun r hr => (h.tables r hr).trans (hn.tables r hr)⟩
  rw [manifestState, h.manifest]
  exact hn.files

theorem Below.floor (h : d.Below d₀ v) : d.floor = d₀.floor := by
  unfold Disk.floor manifestState
  rw [h.manifest]

theorem Below.keys (h : d.Below d₀ v) : Keyed.keys d.logs = Keyed.keys d₀.logs := by
  have hlogs := h.logs
  generalize d.logs = l at hlogs
  generalize d₀.logs = l₀ at hlogs
  induction hlogs with
  | nil => rfl
  | cons hpq _ ih => exact congrArg₂ List.cons hpq.1 ih

theorem Below.mem (h : d.Below d₀ v) {p : Nat × File} (hp : p ∈ d.logs) :
    ∃ f, (p.1, f) ∈ d₀.logs ∧ p.2.bytes <+: f.bytes := by
  have hlogs := h.logs
  generalize d.logs = l at hlogs hp
  generalize d₀.logs = l₀ at hlogs
  induction hlogs with
  | nil => cases hp
  | @cons a b l l₀ hab _ ih =>
    rcases mem_cons.mp hp with rfl | hp
    · exact ⟨b.2, hab.1 ▸ mem_cons_self, hab.2⟩
    · obtain ⟨f, hf, hpre⟩ := ih hp
      exact ⟨f, mem_cons_of_mem _ hf, hpre⟩

theorem Below.crash (hn : d.Names v) (loss : Loss) : (d.crash loss).Below d v := by
  refine ⟨rfl, forall₂_map_left_iff.mpr (forall₂_same.mpr fun p _ => ?_),
    fun r hr => get?_crash_ssts hn loss hr⟩
  exact ⟨rfl, File.isPrefix_cut _ _⟩

/-! ### Effects -/

/-- The effect changes nothing that recovery of `v` reads. -/
def Idle (v : Version) : Effect → Prop
  | .syncLog _ | .createVlog _ | .appendVlog _ _ | .syncVlog _ | .unlinkVlog _ => True
  | .writeSst n _ | .syncSst n => n ∉ v.numbers
  | _ => False

/-- The effect adds to a log, or takes away a table. -/
def Grows : Effect → Prop
  | .syncLog _ | .createVlog _ | .appendVlog _ _ | .syncVlog _ | .unlinkVlog _ => True
  | .appendLog _ _ | .unlinkSst _ => True
  | _ => False

theorem forall₂_modify {logs : List (Nat × File)} {n : Nat} {g : File → File}
    {R : File → File → Prop} (hrefl : ∀ f, R f f) (hg : ∀ f, R f (g f)) :
    List.Forall₂ (fun p q => p.1 = q.1 ∧ R p.2 q.2) logs (Keyed.modify logs n g) := by
  unfold Keyed.modify
  refine forall₂_map_right_iff.mpr (forall₂_same.mpr fun p _ => ?_)
  split
  · exact ⟨rfl, hg _⟩
  · exact ⟨rfl, hrefl _⟩

theorem below_sync (d : Disk) (n : Nat) (v : Version) :
    (d.apply (.syncLog n)).Below d v ∧ d.Below (d.apply (.syncLog n)) v := by
  have hmod : List.Forall₂ (fun p q => p.1 = q.1 ∧ p.2.bytes = q.2.bytes) d.logs
      (Keyed.modify d.logs n File.sync) :=
    forall₂_modify (R := fun f g => f.bytes = g.bytes) (fun _ => rfl) fun _ => rfl
  refine ⟨⟨rfl, ?_, fun _ _ => rfl⟩, ⟨rfl, ?_, fun _ _ => rfl⟩⟩
  · exact hmod.flip.imp fun _ _ hpq => ⟨hpq.1.symm, hpq.2 ▸ prefix_refl _⟩
  · exact hmod.imp fun _ _ hpq => ⟨hpq.1, hpq.2 ▸ prefix_refl _⟩

theorem below_idle {e : Effect} (h : Idle v e) (d : Disk) : (d.apply e).Below d v := by
  have hframe : ∀ {vlogs}, ({ d with vlogs := vlogs } : Disk).Below d v :=
    ⟨rfl, (Below.refl d v).logs, fun _ _ => rfl⟩
  cases e with
  | syncLog n => exact (below_sync d n v).1
  | writeSst n t =>
    refine ⟨rfl, (Below.refl d v).logs, fun r hr => ?_⟩
    exact (get?_set d.ssts n r.number _).trans (if_neg (number_ne h hr))
  | syncSst n =>
    refine ⟨rfl, (Below.refl d v).logs, fun r hr => ?_⟩
    change Keyed.get? (Keyed.modify d.ssts n fun f => { f with synced := true }) r.number = _
    rw [get?_modify, if_neg (number_ne h hr)]
  | createVlog _ | appendVlog _ _ | syncVlog _ | unlinkVlog _ => exact hframe
  | _ => exact h.elim

theorem below_grows {e : Effect} (h : Grows e)
    (hpresent : ∀ r ∈ v.tables, Keyed.get? (d.apply e).ssts r.number ≠ none) :
    d.Below (d.apply e) v := by
  have hframe : ∀ {vlogs}, d.Below { d with vlogs := vlogs } v :=
    ⟨rfl, (Below.refl d v).logs, fun _ _ => rfl⟩
  cases e with
  | syncLog n => exact (below_sync d n v).2
  | appendLog n bytes =>
    refine ⟨rfl, ?_, fun _ _ => rfl⟩
    exact forall₂_modify (g := fun f => f.append bytes) (R := fun f g => f.bytes <+: g.bytes)
      (fun _ => prefix_refl _) fun f => prefix_append f.bytes bytes
  | unlinkSst n =>
    refine ⟨rfl, (Below.refl d v).logs, fun r hr => ?_⟩
    have hget := get?_erase d.ssts n r.number
    have hne := hpresent r hr
    change Keyed.get? (Keyed.erase d.ssts n) r.number ≠ none at hne
    rw [hget] at hne
    change _ = Keyed.get? (Keyed.erase d.ssts n) r.number
    rw [hget]
    split
    · next heq => exact absurd (if_pos heq) hne
    · rfl
  | createVlog _ | appendVlog _ _ | syncVlog _ | unlinkVlog _ => exact hframe
  | _ => exact h.elim

theorem below_idles {fx : List Effect} (h : ∀ e ∈ fx, Idle v e) : (d.applyAll fx).Below d v := by
  induction fx generalizing d with
  | nil => exact Below.refl d v
  | cons e fx ih =>
    obtain ⟨he, hfx⟩ := forall_mem_cons.mp h
    exact (ih hfx).trans (below_idle he d)

theorem below_growing {fx : List Effect} (h : ∀ e ∈ fx, Grows e)
    (hpresent : ∀ r ∈ v.tables, Keyed.get? (d.applyAll fx).ssts r.number ≠ none) :
    d.Below (d.applyAll fx) v := by
  induction fx generalizing d with
  | nil => exact Below.refl d v
  | cons e fx ih =>
    obtain ⟨he, hfx⟩ := forall_mem_cons.mp h
    have hrest := @ih (d.apply e) hfx hpresent
    refine (below_grows he fun r hr => ?_).trans hrest
    rw [hrest.tables r hr]
    exact hpresent r hr

/-- One effect at most stands between those that change nothing and those that only add. -/
def Hinged (v : Version) (fx : List Effect) : Prop :=
  ∃ k, (∀ e ∈ fx.take k, Idle v e) ∧ ∀ e ∈ fx.drop (k + 1), Grows e

/-- **A part of the effects** leaves what is below the directory before them or after them. -/
theorem Hinged.below {v' : Version} {fx : List Effect} (h : Hinged v fx) (n : Nat)
    (hpresent : ∀ r ∈ v'.tables, Keyed.get? (d.applyAll fx).ssts r.number ≠ none) :
    (d.applyAll (fx.take n)).Below d v ∨ (d.applyAll (fx.take n)).Below (d.applyAll fx) v' := by
  obtain ⟨k, hidle, hgrows⟩ := h
  rcases Nat.lt_or_ge k n with hlt | hle
  · refine .inr ?_
    have hall : d.applyAll fx = (d.applyAll (fx.take n)).applyAll (fx.drop n) := by
      rw [← applyAll_append, take_append_drop]
    rw [hall] at hpresent ⊢
    refine below_growing (fun e he => hgrows e ?_) hpresent
    exact drop_subset_drop_left fx hlt he
  · exact .inl (below_idles fun e he => hidle e ((take_prefix_take_left hle).subset he))

theorem hinged_of_idle {fx : List Effect} (h : ∀ e ∈ fx, Idle v e) : Hinged v fx :=
  ⟨fx.length, fun e he => h e (mem_of_mem_take he), fun e he => by
    rw [drop_eq_nil_of_le (Nat.le_succ _)] at he
    cases he⟩

end Disk

namespace DB

variable {s s' : DB} {h : List Entry}

theorem writeEffects_grows (s : DB) (type : ValueType) (key value : Bytes) :
    ∀ e ∈ s.writeEffects type key value, Disk.Grows e := by
  unfold writeEffects appendEffects syncEffects
  split_ifs <;> simp [Disk.Grows]

theorem writeEffects_hinged (s : DB) (v : Version) (type : ValueType) (key value : Bytes) :
    Disk.Hinged v (s.writeEffects type key value) := by
  refine ⟨if s.separates type value then 1 else 0, ?_⟩
  unfold writeEffects appendEffects syncEffects
  split_ifs <;> simp [Disk.Grows, Disk.Idle]

theorem put_hinged (s : DB) (v : Version) (type : ValueType) (key value : Bytes) :
    Disk.Hinged v (s.makeRoomEffects ++ s.makeRoom.writeEffects type key value) := by
  unfold makeRoomEffects
  split
  · refine ⟨0, by simp, fun e he => ?_⟩
    rcases mem_cons.mp he with rfl | he
    · trivial
    · exact writeEffects_grows _ type key value e he
  · exact writeEffects_hinged _ v type key value

/-- **Every step** has at most one effect that recovery could not do without. -/
theorem step_hinged (hi : s.core.Inv h) {op : Op} (hs : s.step op = some s') :
    Disk.Hinged s.core.current (s.effects op) := by
  have hn := step_next hs
  have hnil : Disk.Hinged s.core.current [] := Disk.hinged_of_idle (by simp)
  have hone : ∀ e, Disk.Hinged s.core.current [e] := fun e => ⟨0, by simp, by simp⟩
  generalize s.effects op = fx at hn ⊢
  cases hn with
  | put | delete => exact put_hinged _ _ _ _ _
  | rotate => exact ⟨0, by simp, by simp [rotateEffects, Disk.Grows]⟩
  | flushBuilt _ him hidle =>
    have hnot := immSst_notMem hi (by simp [him]) (by simp [hidle])
    exact Disk.hinged_of_idle (by simpa [tableEffects, Disk.Idle] using hnot)
  | flushInstall | flushDone => exact hone _
  | sealOutput hx hc =>
    have hnot : s.core.nextFileNumber ∉ s.core.current.numbers := fun hmem =>
      lt_irrefl _ (hi.numbers.lt _ (mem_append_left _ hmem))
    exact Disk.hinged_of_idle (by simpa [tableEffects, Disk.Idle] using hnot)
  | installCompaction => exact ⟨0, by simp, by simp [Disk.Grows]⟩
  | gcStart => exact ⟨1, by simp [Disk.Idle], by simp⟩
  | gcRewrite => exact writeEffects_hinged _ _ _ _ _
  | gcRetire =>
    refine ⟨s.syncEffects.length, ?_, by simp⟩
    rw [take_left' rfl]
    unfold syncEffects
    split_ifs <;> simp [Disk.Idle]
  | gcUnlink => exact Disk.hinged_of_idle (by simp [Disk.Idle])
  | _ => exact hnil

/-- What a power cut leaves after `n` effects of a step. -/
def cutDisk (s : DB) (op : Op) (n : Nat) (loss : Loss) : Disk :=
  (s.disk.applyAll ((s.effects op).take n)).crash loss

/-- **A cut in a step** leaves what is below a good directory. -/
theorem cut_below (hl : s.LifeOk) (hseq : s.core.nextSeq < 2 ^ 64) {op : Op}
    (hs : s.step op = some s') (n : Nat) (loss : Loss) :
    ∃ t : DB, t.LifeOk ∧ (s.cutDisk op n loss).Below t.disk t.core.current := by
  obtain ⟨h, hi⟩ := hl.inv
  have hl' := hl.step hseq hs
  have hpresent : ∀ r ∈ s'.core.current.tables,
      Keyed.get? (s.disk.applyAll (s.effects op)).ssts r.number ≠ none := by
    intro r hr
    rw [← step_disk hs, hl'.files.names.tables r hr]
    exact Option.some_ne_none _
  rcases (step_hinged hi hs).below n hpresent with hb | hb
  · exact ⟨s, hl, (Disk.Below.crash (hb.names hl.files.names) loss).trans hb⟩
  · rw [← step_disk hs] at hb
    exact ⟨s', hl', (Disk.Below.crash (hb.names hl'.files.names) loss).trans hb⟩

/-! ## Opening what is left -/

section Reopen

variable {d : Disk} {opt : Options} {r : DB}

theorem replayedFile_idem (f : File) : replayedFile (replayedFile f) = replayedFile f ∧
    (replayLog (replayedFile f).bytes).records = (replayLog f.bytes).records := by
  cases hcut : (replayLog f.bytes).truncatedAt with
  | none =>
    have hfile : replayedFile f = f := by simp [replayedFile, hcut]
    rw [hfile]
    exact ⟨hfile, rfl⟩
  | some k =>
    have hfile : replayedFile f = ⟨f.bytes.take k, (f.bytes.take k).length⟩ := by
      simp [replayedFile, hcut]
    have htake := replayLog_take hcut
    rw [hfile]
    dsimp only
    rw [htake]
    refine ⟨?_, rfl⟩
    unfold replayedFile
    rw [htake]

/-- The directory with its logs replayed. -/
def replayedDisk (d : Disk) : Disk :=
  { d with logs := d.logs.map fun p => (p.1, replayedFile p.2) }

theorem opened_replayedDisk {n : Nat} (hasc : (Keyed.keys d.logs).Pairwise (· < ·))
    (hn : n ∈ Keyed.keys d.logs) (hle : d.floor ≤ n) (refs : List TableRef) :
    opened opt (replayedDisk d) refs = opened opt d refs := by
  have hkeys : Keyed.keys (replayedDisk d).logs = Keyed.keys d.logs := by
    change (d.logs.map _).map Prod.fst = _
    rw [map_map]
    rfl
  have hlogs : logsToReplay (replayedDisk d) d.floor =
      (logsToReplay d d.floor).map fun p => (p.1, replayedFile p.2) := by
    have heq := @Disk.logsToReplay_eq (replayedDisk d) n (hkeys ▸ hasc) (hkeys ▸ hn) hle
    rw [Disk.logsToReplay_eq hasc hn hle]
    refine heq.trans ?_
    change (d.logs.map _).filter _ = _
    rw [filter_map]
    rfl
  have hentries : replayedEntries (logsToReplay (replayedDisk d) d.floor) =
      replayedEntries (logsToReplay d d.floor) := by
    rw [hlogs]
    unfold replayedEntries
    rw [flatMap_map]
    exact flatMap_congr fun p _ => congrArg _ (replayedFile_idem p.2).2
  have hkeys' : Keyed.keys (logsToReplay (replayedDisk d) d.floor) =
      Keyed.keys (logsToReplay d d.floor) := by
    rw [hlogs, Keyed.keys, map_map]
    rfl
  have hfiles : (logsToReplay (replayedDisk d) d.floor).map (fun p => (p.1, replayedFile p.2)) =
      (logsToReplay d d.floor).map fun p => (p.1, replayedFile p.2) := by
    rw [hlogs, map_map]
    exact map_congr_left fun p _ => congrArg (Prod.mk p.1) (replayedFile_idem p.2).1
  have hfloor : d.manifestState.logNumber = d.floor := rfl
  have hms : (replayedDisk d).manifestState = d.manifestState := rfl
  unfold opened
  simp only [hms, hfloor, hentries, hkeys', hfiles]
  rfl

theorem LifeOk.opened_below (hl : s.LifeOk) (hb : d.Below s.disk s.core.current)
    (hopen : openDb opt d = .ok r) :
    r = DB.opened opt d (sortByNumber s.core.current.tables) ∧
      r.core.current = s.core.current ∧ ∃ h, r.core.Inv h := by
  obtain ⟨h, hi⟩ := hl.inv
  obtain ⟨refs, hvalid, -, hoff, -⟩ := openDb_eq_ok.mp hopen
  have hasc : (Keyed.keys d.logs).Pairwise (· < ·) := hb.keys ▸ hl.seqs.ascending
  have hrec : Recoverable s.core.current (replayedEntries (logsToReplay d d.floor)) := by
    refine (hl.seqs.recoverable hi hl.files).mono fun e he => ?_
    rw [Disk.replayedEntries_eq hasc] at he
    obtain ⟨p, hp, hle, he⟩ := Disk.mem_liveEntries.mp he
    obtain ⟨f, hf, hpre⟩ := hb.mem hp
    change e ∈ replayedEntries (logsToReplay s.disk s.disk.floor)
    rw [Disk.replayedEntries_eq hl.seqs.ascending]
    exact Disk.mem_liveEntries.mpr ⟨_, hf, hb.floor ▸ hle, (File.entries_mono hpre).subset he⟩
  obtain ⟨r', hopen', hr', hcur, hinv⟩ := openDb_ok (hb.names hl.files.names) hvalid.2.2 hoff hrec
  obtain rfl := Except.ok.inj (hopen.symm.trans hopen')
  exact ⟨hr', hcur, _, hinv⟩

theorem SeqsOk.below (hq : s.SeqsOk) (hb : d.Below s.disk s.core.current)
    (hclean : ∀ p ∈ d.logs, TailClean p.2.bytes) :
    ({ s with disk := replayedDisk d } : DB).SeqsOk := by
  have hkeys : Keyed.keys (replayedDisk d).logs = Keyed.keys s.disk.logs := by
    rw [← hb.keys]
    change (d.logs.map _).map Prod.fst = _
    rw [map_map]
    rfl
  have hfloor : (replayedDisk d).floor = s.disk.floor := hb.floor
  -- a log is a prefix of the one before, and has its numbers
  have hmem : ∀ p ∈ (replayedDisk d).logs, p.2.Clean ∧
      ∃ f, (p.1, f) ∈ s.disk.logs ∧ p.2.seqs <+: f.seqs := by
    intro p hp
    obtain ⟨q, hq', rfl⟩ := mem_map.mp hp
    obtain ⟨f, hf, hpre⟩ := hb.mem hq'
    refine ⟨File.clean_replayed (hclean q hq'), f, hf, ?_⟩
    rw [File.seqs_replayed]
    exact ((File.entries_mono hpre).map _).trans f.entries_seqs_within
  refine ⟨hkeys ▸ hq.ascending, hkeys ▸ hq.log, hkeys ▸ hq.last, hq.log_lt, hfloor ▸ hq.floor_le,
    hq.retired, fun p hp => (hmem p hp).1, ?_, ?_, ?_, ?_⟩
  · refine hq.sorted.sublist ?_
    change (List.flatMap _ (d.logs.map _)).Sublist _
    rw [flatMap_map]
    have hlogs := hb.logs
    generalize d.logs = l at hlogs
    generalize s.disk.logs = l₀ at hlogs
    induction hlogs with
    | nil => exact List.Sublist.refl _
    | @cons p q l l₀ hpq _ ih =>
      rw [flatMap_cons, flatMap_cons]
      refine List.Sublist.append ?_ ih
      change (replayedFile p.2).seqs.Sublist q.2.seqs
      rw [File.seqs_replayed]
      exact (((File.entries_mono hpq.2).map _).trans q.2.entries_seqs_within).sublist
  · intro p hp n hn
    obtain ⟨-, f, hf, hpre⟩ := hmem p hp
    exact hq.lt _ hf n (hpre.subset hn)
  · intro p hp hle n hn
    obtain ⟨-, f, hf, hpre⟩ := hmem p hp
    exact hq.above _ hf (hfloor ▸ hle) n (hpre.subset hn)
  · intro e he n hn
    obtain ⟨f, hf⟩ := exists_get? (show s.logNumber ∈ Keyed.keys (replayedDisk d).logs from
      hkeys ▸ hq.log)
    obtain ⟨-, f', hf', hpre⟩ := hmem _ (mem_of_get? hf)
    have hn : n ∈ ((Keyed.get? (replayedDisk d).logs s.logNumber).getD .empty).seqs := hn
    rw [hf] at hn
    exact hq.rotated e he n (hq.file_eq hf' ▸ hpre.subset hn)

/-- **A cut keeps what holds**, if the ends it leaves are clean. -/
theorem LifeOk.reopen_below (hl : s.LifeOk) (hb : d.Below s.disk s.core.current)
    (hclean : ∀ p ∈ d.logs, TailClean p.2.bytes) (hopen : openDb opt d = .ok r) : r.LifeOk := by
  obtain ⟨hr, hcur, hinv⟩ := hl.opened_below hb hopen
  refine ⟨hinv, filesOk_opened (hb.names hl.files.names) hl.files.metaInv.current hr hcur, ?_⟩
  have hsame := @opened_replayedDisk d opt s.logNumber (hb.keys ▸ hl.seqs.ascending)
    (hb.keys ▸ hl.seqs.log) (hb.floor ▸ hl.seqs.floor_le) (sortByNumber s.core.current.tables)
  exact (hl.seqs.below hb hclean).opened (hr.trans hsame.symm) hcur

end Reopen

/-! ## Lives -/

/-- A step, a restart, or a power cut in a step and the restart after it. -/
inductive Hard where
  | life (ev : Life)
  | crash (op : Op) (n : Nat) (loss : Loss) (opt : Options)

/-- `Open` after a power cut. -/
def recover (s : DB) (op : Op) (n : Nat) (loss : Loss) (opt : Options) : Option DB :=
  if s.core.nextSeq < 2 ^ 64 ∧ (s.step op).isSome then
    (openDb opt (s.cutDisk op n loss)).toOption
  else none

def stepHard (s : DB) : Hard → Option DB
  | .life ev => s.stepLife ev
  | .crash op n loss opt => s.recover op n loss opt

/-- What a power cut leaves of the logs is read past by the next reader. -/
def Mended (s : DB) : Hard → Prop
  | .life _ => True
  | .crash op n loss _ => ∀ p ∈ (s.cutDisk op n loss).logs, TailClean p.2.bytes

variable {op : Op} {n : Nat} {loss : Loss} {opt : Options} {r : DB}

theorem recover_below (hl : s.LifeOk) (hr : s.recover op n loss opt = some r) :
    openDb opt (s.cutDisk op n loss) = .ok r ∧
      ∃ t : DB, t.LifeOk ∧ (s.cutDisk op n loss).Below t.disk t.core.current := by
  unfold recover at hr
  split at hr
  · next hcan =>
    obtain ⟨s', hs⟩ := Option.isSome_iff_exists.mp hcan.2
    exact ⟨eq_ok_of_toOption hr, cut_below hl hcan.1 hs n loss⟩
  · cases hr

/-- **A recovered store** keeps the invariant, whatever was cut. -/
theorem LifeOk.recover (hl : s.LifeOk) (hr : s.recover op n loss opt = some r) :
    ∃ h, r.core.Inv h := by
  obtain ⟨hopen, t, ht, hb⟩ := recover_below hl hr
  exact (ht.opened_below hb hopen).2.2

theorem run_hard {tr : List Hard} (hmeets : Machine.Meets stepHard Mended (fresh opt) tr)
    (hrun : Machine.run stepHard (fresh opt) tr = some s) : s.LifeOk := by
  refine Machine.meets_invariant (fun _ s => s.LifeOk) (fresh_lifeOk opt) ?_ hmeets hrun
  intro tr s ev s' hl hmended hs
  cases ev with
  | life ev =>
    cases ev with
    | op op =>
      simp only [stepHard, stepLife] at hs
      split at hs
      · next hseq => exact hl.step hseq hs
      · cases hs
    | reopen opt' => exact hl.reopen (eq_ok_of_toOption hs)
  | crash op n loss opt' =>
    obtain ⟨hopen, t, ht, hb⟩ := recover_below hl hs
    exact ht.reopen_below hb hmended hopen

end DB

end BedrockKV
