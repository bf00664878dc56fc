/-
# `BedrockKV.SeqOrder` — the order of the sources over the life of a database

A database lives through steps and restarts, with other options after each
restart if its user wants.  Logs may be dropped on the way, and records may be
cut off that do not parse; but whatever is left is left in order:

    the numbers in the logs ascend, from one log to the next     (`SeqsOk.sorted`)
    those that will be replayed are above the whole version      (`SeqsOk.above`)

So a restart always finds a version and records newer than it, and the
invariant of the store holds again (`LifeOk.reopen`).  From it come, as long as
the sizes fit, that `Scan` and `Get` agree (`run_scan`), the order in which a
lookup asks the sources (`run_sources`) and the shape of the levels
(`run_levels`), all of them over the bytes.

A record carries its number in its first eight bytes, so the numbers in a log
are known whether or not its records parse.
-/
import BedrockKV.DbBytes
import BedrockKV.DbFiles
import BedrockKV.LongValue

namespace BedrockKV

open List Keyed Log MultiVersion

/-! ## The numbers in a log -/

theorem parseRecord_seq {p : Bytes} {e : Entry} (h : parseRecord p = some e) :
    e.seq = getFixed64 p := by
  unfold parseRecord at h
  split at h
  · cases h
  · dsimp only at h
    split at h
    · cases h
    · split at h
      · split at h
        · cases h
        · split at h
          · cases h
          · cases h
            rfl
      · split at h
        · split at h
          · cases h
          · cases h
            rfl
        · cases h

/-- A replay applies numbers in the order of the records; all of them, if it
cuts nothing off. -/
theorem replayContents_seqs {records : List (Bytes × Nat)} {stop : Stop} :
    ∀ {good : Nat},
      ((replayContents good records stop).records.map fun r => r.2.seq) <+:
        records.map (fun r => getFixed64 r.1) ∧
      ((replayContents good records stop).truncatedAt = none →
        ((replayContents good records stop).records.map fun r => r.2.seq) =
          records.map fun r => getFixed64 r.1) := by
  induction records with
  | nil =>
    intro good
    cases stop <;> exact ⟨prefix_refl _, fun _ => rfl⟩
  | cons r records ih =>
    intro good
    simp only [replayContents]
    cases hp : parseRecord r.1 with
    | none => exact ⟨ nil_prefix, fun h => by simp at h⟩
    | some e =>
      obtain ⟨hpre, hall⟩ := @ih r.2
      simp only [map_cons, parseRecord_seq hp]
      exact ⟨(prefix_cons_inj _).mpr hpre, fun h => by rw [hall h]⟩

namespace File

def payloads (f : File) : List Bytes := readLog f.bytes

def seqs (f : File) : List Nat := f.payloads.map getFixed64

/-- What is appended to the file is read behind its payloads. -/
def Clean (f : File) : Prop := ∀ ps, readLog (appendRecords f.bytes ps) = f.payloads ++ ps

variable {f : File}

theorem clean_empty : File.empty.Clean ∧ File.empty.seqs = [] := by
  have hempty : readLog [] = [] := by
    rw [readLog_eq]
    exact congrArg (fun c : Contents => c.records.map Prod.fst) (contents_encodeRecords [])
  refine ⟨fun ps => ?_, congrArg (List.map getFixed64) hempty⟩
  have hread : readLog (encodeRecords 0 ps) = ps := by
    rw [readLog_eq, contents_encodeRecords, map_fst_placed]
  rw [payloads, show File.empty.bytes = [] from rfl, hempty]
  exact hread

theorem Clean.append (h : f.Clean) (p : Bytes) :
    (f.append (encodeRecord p f.bytes.length)).Clean ∧
      (f.append (encodeRecord p f.bytes.length)).seqs = f.seqs ++ [getFixed64 p] := by
  have hpay : (f.append (encodeRecord p f.bytes.length)).payloads = f.payloads ++ [p] := by
    rw [← h [p], appendRecords, encodeRecords, encodeRecords, append_nil]
    rfl
  refine ⟨fun ps => ?_, by rw [seqs, hpay, map_append]; rfl⟩
  rw [hpay, append_assoc, singleton_append, ← h (p :: ps)]
  refine congrArg readLog ?_
  rw [appendRecords, appendRecords, encodeRecords, File.append, length_append, append_assoc]

theorem entries_seqs_within (f : File) : f.entries.map Entry.seq <+: f.seqs := by
  have h := (@replayContents_seqs (contents f.bytes).records (contents f.bytes).stop 0).1
  rw [← replayLog_eq] at h
  unfold entries seqs payloads
  rw [readLog_eq, map_map, map_map]
  exact h

/-- **A replay leaves the numbers it applied.** -/
theorem seqs_replayed (f : File) : (DB.replayedFile f).seqs = f.entries.map Entry.seq := by
  have hlog := replayLog_eq f.bytes
  cases hcut : (replayLog f.bytes).truncatedAt with
  | none =>
    have hfile : DB.replayedFile f = f := by simp [DB.replayedFile, hcut]
    have hall := replayContents_seqs.2 (hlog ▸ hcut)
    rw [hfile, seqs, payloads, entries, readLog_eq, map_map, map_map, hlog]
    exact hall.symm
  | some k =>
    obtain ⟨done, more, hsplit, hk, hdone⟩ := replayContents_cut (hlog ▸ hcut)
    have hc : contents f.bytes = ⟨done ++ more, (contents f.bytes).stop⟩ := by rw [← hsplit]
    have hbytes : (DB.replayedFile f).bytes = f.bytes.take (lastEnd 0 done) := by
      rw [← hk]
      simp [DB.replayedFile, hcut]
    -- the records in front of the cut are those that were applied
    have hall := (@replayContents_seqs done (.eof 0) 0).2 (by rw [hdone 0])
    rw [hdone 0, ← hlog] at hall
    rw [seqs, payloads, hbytes, readLog_eq, contents_take_lastEnd hc, entries, map_map, map_map]
    exact hall.symm

theorem bytes_replayed (f : File) : (DB.replayedFile f).bytes = recoveredFile f.bytes := by
  unfold DB.replayedFile recoveredFile
  cases (replayLog f.bytes).truncatedAt <;> rfl

/-- **A replay leaves a clean log** where the tail is clean. -/
theorem clean_replayed (h : TailClean f.bytes) : (DB.replayedFile f).Clean := by
  have hread : ∀ ps, readLog (appendRecords (DB.replayedFile f).bytes ps) =
      (replayLog f.bytes).records.map Prod.fst ++ ps := by
    rw [bytes_replayed]
    exact readLog_recovered h
  have hpay : (DB.replayedFile f).payloads = (replayLog f.bytes).records.map Prod.fst := by
    have hnil := hread []
    rw [appendRecords, encodeRecords, append_nil, append_nil] at hnil
    exact hnil
  intro ps
  rw [hread ps, hpay]

theorem Clean.replayed (h : f.Clean) : (DB.replayedFile f).Clean := by
  cases hcut : (replayLog f.bytes).truncatedAt with
  | none =>
    have hfile : DB.replayedFile f = f := by simp [DB.replayedFile, hcut]
    rw [hfile]
    exact h
  | some k =>
    refine clean_replayed ?_
    rcases replayContents_cases 0 (contents f.bytes).records (contents f.bytes).stop with
      ⟨-, -, hnone, -⟩ | ⟨hwhy, -⟩
    · rw [← replayLog_eq, hcut] at hnone
      cases hnone
    · rcases hwhy with hbad | hstop
      · exact .inl hbad
      · refine .inr ?_
        rw [hstop]
        trivial

end File

/-! ## The numbers in the directory -/

namespace DB

theorem flatMap_sublist {α β : Type*} {f g : α → List β} (h : ∀ a, (f a).Sublist (g a)) :
    ∀ l : List α, (l.flatMap f).Sublist (l.flatMap g)
  | [] => List.Sublist.refl _
  | a :: l => by
      rw [flatMap_cons, flatMap_cons]
      exact (h a).append (flatMap_sublist h l)

structure SeqsOk (s : DB) : Prop where
  ascending : (Keyed.keys s.disk.logs).Pairwise (· < ·)
  log : s.logNumber ∈ Keyed.keys s.disk.logs
  last : ∀ k ∈ Keyed.keys s.disk.logs, k ≤ s.logNumber
  log_lt : s.logNumber < s.core.nextFileNumber
  floor_le : s.disk.floor ≤ s.logNumber
  retired : s.core.imm ≠ none → s.immLogNumber < s.logNumber
  clean : ∀ p ∈ s.disk.logs, p.2.Clean
  sorted : (s.disk.logs.flatMap fun p => p.2.seqs).Pairwise (· < ·)
  lt : ∀ p ∈ s.disk.logs, ∀ n ∈ p.2.seqs, n < s.core.nextSeq
  above : ∀ p ∈ s.disk.logs, s.disk.floor ≤ p.1 → ∀ n ∈ p.2.seqs,
    ∀ e ∈ s.core.current.entries, e.seq < n
  rotated : ∀ e ∈ s.core.pending, ∀ n ∈ s.logFile.seqs, e.seq < n

variable {s s' : DB} {h : List Entry}

theorem fresh_seqsOk (opt : Options) : (fresh opt).SeqsOk := by
  have hempty := File.clean_empty
  refine ⟨pairwise_singleton _ _, mem_singleton_self _, ?_, Nat.lt_succ_self 1, le_rfl,
    fun hne => absurd rfl hne, ?_, ?_, ?_, ?_, nofun⟩
  · exact fun k hk => le_of_eq (mem_singleton.mp hk)
  · intro p hp
    rw [mem_singleton.mp hp]
    exact hempty.1
  · simp [fresh, hempty.2]
  · intro p hp n hn
    rw [mem_singleton.mp hp, hempty.2] at hn
    cases hn
  · intro p hp _ n hn
    rw [mem_singleton.mp hp, hempty.2] at hn
    cases hn

theorem SeqsOk.logs_concat (hq : s.SeqsOk) :
    ∃ older, s.disk.logs = older ++ [(s.logNumber, s.logFile)] ∧
      s.logNumber ∉ Keyed.keys older := by
  have hnd : (Keyed.keys s.disk.logs).Nodup := hq.ascending.imp ne_of_lt
  have hlast := hq.last
  have hlog := hq.log
  have hasc := hq.ascending
  unfold logFile
  rcases eq_nil_or_concat' s.disk.logs with hnil | ⟨older, q, hconcat⟩
  · rw [hnil] at hlog
    cases hlog
  · rw [hconcat] at hlast hlog hasc hnd ⊢
    have hqn : q.1 = s.logNumber := by
      refine le_antisymm (hlast q.1 (by simp [Keyed.keys])) ?_
      rcases mem_append.mp (Keyed.keys_append older [q] ▸ hlog) with hmem | hmem
      · rw [Keyed.keys_append] at hasc
        exact le_of_lt ((pairwise_append.mp hasc).2.2 _ hmem q.1 (by simp [Keyed.keys]))
      · exact le_of_eq (mem_singleton.mp hmem)
    obtain ⟨n, f⟩ := q
    obtain rfl : n = s.logNumber := hqn
    have hfresh : s.logNumber ∉ Keyed.keys older := by
      rw [Keyed.keys_append] at hnd
      exact fun hmem => (nodup_append.mp hnd).2.2 _ hmem _ (by simp [Keyed.keys]) rfl
    rw [Keyed.get?_concat hfresh]
    exact ⟨older, rfl, hfresh⟩

/-! ## Steps that write no record -/

/-- The same files, with more or less of them synced. -/
def SameBytes (logs logs' : List (Nat × File)) : Prop :=
  ∃ g : Nat × File → File, logs' = logs.map (fun p => (p.1, g p)) ∧ ∀ p, (g p).bytes = p.2.bytes

theorem SameBytes.refl (logs : List (Nat × File)) : SameBytes logs logs :=
  ⟨Prod.snd, (map_id _).symm, fun _ => rfl⟩

theorem SameBytes.sync (logs : List (Nat × File)) (n : Nat) :
    SameBytes logs (Keyed.modify logs n File.sync) := by
  refine ⟨fun p => if p.1 = n then p.2.sync else p.2, map_congr_left fun p _ => ?_, fun p => ?_⟩
  · dsimp only
    split <;> rfl
  · dsimp only
    split <;> rfl

theorem seqs_congr {f g : File} (h : f.bytes = g.bytes) : f.seqs = g.seqs := by
  unfold File.seqs File.payloads
  rw [h]

theorem clean_congr {f g : File} (h : f.bytes = g.bytes) (hg : g.Clean) : f.Clean := by
  unfold File.Clean File.payloads
  rw [h]
  exact hg

theorem SeqsOk.frame (hq : s.SeqsOk) (hlogs : SameBytes s.disk.logs s'.disk.logs)
    (hfloor : s'.disk.floor = s.disk.floor ∨ s'.disk.floor = s.logNumber)
    (hnum : s'.logNumber = s.logNumber) (himmnum : s'.immLogNumber = s.immLogNumber)
    (himm : s'.core.imm = s.core.imm) (hseq : s'.core.nextSeq = s.core.nextSeq)
    (hnext : s.core.nextFileNumber ≤ s'.core.nextFileNumber)
    (hcur : ∀ e ∈ s'.core.current.entries, e ∈ s.core.current.entries)
    (hpend : ∀ e ∈ s'.core.pending, e ∈ s.core.pending) : s'.SeqsOk := by
  obtain ⟨g, hg, hbytes⟩ := hlogs
  have hkeys : Keyed.keys s'.disk.logs = Keyed.keys s.disk.logs := by
    rw [hg, Keyed.keys, Keyed.keys, map_map]
    rfl
  have hmem : ∀ p ∈ s'.disk.logs, ∃ f, (p.1, f) ∈ s.disk.logs ∧ p.2.bytes = f.bytes := by
    intro p hp
    rw [hg] at hp
    obtain ⟨q, hq', rfl⟩ := mem_map.mp hp
    exact ⟨q.2, hq', hbytes q⟩
  have hlog : s'.logFile.bytes = s.logFile.bytes := by
    obtain ⟨older, hold, hfresh⟩ := hq.logs_concat
    unfold logFile
    rw [hnum, hg, hold, map_append, map_singleton, get?_concat hfresh, get?_concat]
    · exact (hbytes _).trans (by unfold logFile; rw [hold, get?_concat hfresh]; rfl)
    · rwa [Keyed.keys, map_map]
  refine ⟨hkeys ▸ hq.ascending, by rw [hkeys, hnum]; exact hq.log,
    by rw [hkeys, hnum]; exact hq.last,
    hnum ▸ lt_of_lt_of_le hq.log_lt hnext, ?_, by rw [himm, himmnum, hnum]; exact hq.retired,
    ?_, ?_, ?_, ?_, ?_⟩
  · rw [hnum]
    rcases hfloor with hf | hf <;> rw [hf]
    exact hq.floor_le
  · intro p hp
    obtain ⟨f, hf, hpf⟩ := hmem p hp
    exact clean_congr hpf (hq.clean _ hf)
  · rw [hg, flatMap_map]
    simp only [seqs_congr (hbytes _)]
    exact hq.sorted
  · intro p hp n hn
    obtain ⟨f, hf, hpf⟩ := hmem p hp
    rw [hseq]
    exact hq.lt _ hf n (seqs_congr hpf ▸ hn)
  · intro p hp hle n hn e he
    obtain ⟨f, hf, hpf⟩ := hmem p hp
    refine hq.above _ hf ?_ n (seqs_congr hpf ▸ hn) e (hcur e he)
    rcases hfloor with hfl | hfl
    · exact hfl ▸ hle
    · exact hq.floor_le.trans (hfl ▸ hle)
  · intro e he n hn
    exact hq.rotated e (hpend e he) n (seqs_congr hlog ▸ hn)

theorem rotate_seqsOk (hq : s.SeqsOk) : s.rotateForFlush.SeqsOk := by
  set n := s.core.nextFileNumber with hn
  have hlt : ∀ k ∈ Keyed.keys s.disk.logs, k < n := fun k hk =>
    lt_of_le_of_lt (hq.last k hk) hq.log_lt
  obtain ⟨hlogs, hfile⟩ := rotate_logs fun hmem => lt_irrefl _ (hlt n hmem)
  have hempty := File.clean_empty
  -- a file of the directory is an old one, or the new one and empty
  have hcase : ∀ p ∈ s.rotateForFlush.disk.logs, p ∈ s.disk.logs ∨ p = (n, .empty) := fun p hp => by
    rw [hlogs] at hp
    exact (mem_append.mp hp).imp_right mem_singleton.mp
  refine ⟨?_, ?_, ?_, ?_, ?_, fun _ => hq.log_lt, ?_, ?_, ?_, ?_, ?_⟩
  · rw [hlogs, Keyed.keys_append]
    refine pairwise_append.mpr ⟨hq.ascending, pairwise_singleton _ _, fun a ha b hb => ?_⟩
    obtain rfl : b = n := mem_singleton.mp hb
    exact hlt a ha
  · rw [hlogs, Keyed.keys_append]
    exact mem_append_right _ (mem_singleton_self _)
  · intro k hk
    rw [hlogs, Keyed.keys_append] at hk
    rcases mem_append.mp hk with hk | hk
    · exact le_of_lt (hlt k hk)
    · exact le_of_eq (mem_singleton.mp hk)
  · exact Nat.lt_add_of_pos_right (by decide)
  · exact le_of_lt (lt_of_le_of_lt hq.floor_le hq.log_lt)
  · intro p hp
    rcases hcase p hp with hp | rfl
    · exact hq.clean p hp
    · exact hempty.1
  · rw [hlogs, flatMap_append]
    simpa [hempty.2] using hq.sorted
  · intro p hp k hk
    rcases hcase p hp with hp | rfl
    · exact hq.lt p hp k hk
    · rw [hempty.2] at hk
      cases hk
  · intro p hp hle k hk
    rcases hcase p hp with hp | rfl
    · exact hq.above p hp hle k hk
    · rw [hempty.2] at hk
      cases hk
  · intro e _ k hk
    rw [hfile, hempty.2] at hk
    cases hk

/-! ## Writes -/

theorem SeqsOk.file_eq (hq : s.SeqsOk) {f : File} (hf : (s.logNumber, f) ∈ s.disk.logs) :
    f = s.logFile := by
  rw [logFile, get?_of_mem (hq.ascending.imp ne_of_lt) hf]
  rfl

theorem mem_logs_writeEntry (hq : s.SeqsOk) {type : ValueType} {key value : Bytes} {p : Nat × File}
    (hp : p ∈ (s.writeEntry type key value).disk.logs) :
    p ∈ s.disk.logs ∨ p.1 = s.logNumber ∧
      (p.2 = s.logFile.append (s.walBytes type key value) ∨
        p.2 = (s.logFile.append (s.walBytes type key value)).sync) := by
  obtain ⟨n, g⟩ := p
  obtain ⟨vlogs, -, hdisk⟩ := disk_write s type key value
  have happend : ∀ {g : File}, (n, g) ∈ Keyed.modify s.disk.logs s.logNumber
      (fun f => f.append (s.walBytes type key value)) →
      (n ≠ s.logNumber ∧ (n, g) ∈ s.disk.logs) ∨
        n = s.logNumber ∧ g = s.logFile.append (s.walBytes type key value) := by
    intro g hg
    obtain ⟨f, hf, hgf⟩ := mem_modify.mp hg
    by_cases hn : n = s.logNumber
    · refine .inr ⟨hn, ?_⟩
      rw [if_pos hn] at hgf
      rw [← hq.file_eq (hn ▸ hf)]
      exact hgf
    · rw [if_neg hn] at hgf
      exact .inl ⟨hn, by rwa [show g = f from hgf]⟩
  rw [hdisk] at hp
  dsimp only at hp
  split at hp
  · obtain ⟨f, hf, hgf⟩ := mem_modify.mp hp
    rcases happend hf with ⟨hn, hf⟩ | ⟨hn, hf⟩
    · rw [if_neg hn] at hgf
      exact .inl (by rwa [show g = f from hgf])
    · rw [if_pos hn] at hgf
      exact .inr ⟨hn, .inr (by rw [← hf]; exact hgf)⟩
  · rcases happend hp with ⟨-, hf⟩ | ⟨hn, hf⟩
    · exact .inl hf
    · exact .inr ⟨hn, .inl hf⟩

theorem getFixed64_encodePayload {e : Entry} (h : e.seq < 2 ^ 64) :
    getFixed64 (encodePayload e) = e.seq := getFixed64_putFixed64 h _

/-- **A write** adds its number, which is above all others, to the last log. -/
theorem writeEntry_seqsOk (hi : s.core.Inv h) (hq : s.SeqsOk) (hseq : s.core.nextSeq < 2 ^ 64)
    (type : ValueType) (key value : Bytes) : (s.writeEntry type key value).SeqsOk := by
  obtain ⟨older, hold, hfresh⟩ := hq.logs_concat
  have hlog : (s.logNumber, s.logFile) ∈ s.disk.logs :=
    hold ▸ mem_append_right _ (mem_singleton_self _)
  set g := s.logFile.append (s.walBytes type key value) with hg
  obtain ⟨hclean, hseqs⟩ : g.Clean ∧ g.seqs = s.logFile.seqs ++ [s.core.nextSeq] := by
    have happend := (hq.clean _ hlog).append (encodePayload (s.record type key value))
    rw [getFixed64_encodePayload hseq] at happend
    exact happend
  -- the state with the record appended and nothing synced
  set s₁ : DB := { s with
    core := (s.writeEntry type key value).core
    disk := { s.disk with logs := older ++ [(s.logNumber, g)] } } with hs₁
  have hfile : s₁.logFile = g := by
    unfold logFile
    change (Keyed.get? (older ++ [(s.logNumber, g)]) s.logNumber).getD .empty = _
    rw [Keyed.get?_concat hfresh]
    rfl
  have hkeys : Keyed.keys s₁.disk.logs = Keyed.keys s.disk.logs := by
    change Keyed.keys (older ++ [(s.logNumber, g)]) = _
    rw [hold, Keyed.keys_append, Keyed.keys_append]
    rfl
  have hcase : ∀ p ∈ s₁.disk.logs, p ∈ s.disk.logs ∨ p = (s.logNumber, g) := fun p hp =>
    (mem_append.mp hp).imp (fun hp => hold ▸ mem_append_left _ hp) mem_singleton.mp
  have hnew : ∀ n ∈ g.seqs, n ∈ s.logFile.seqs ∨ n = s.core.nextSeq := fun n hn =>
    (mem_append.mp (hseqs ▸ hn)).imp_right mem_singleton.mp
  have hok : s₁.SeqsOk := by
    refine ⟨hkeys ▸ hq.ascending, hkeys ▸ hq.log, hkeys ▸ hq.last, hq.log_lt, hq.floor_le,
      hq.retired, ?_, ?_, ?_, ?_, ?_⟩
    · intro p hp
      rcases hcase p hp with hp | rfl
      · exact hq.clean p hp
      · exact hclean
    · have hsorted := hq.sorted
      have hlt := hq.lt
      change (List.flatMap _ (older ++ [(s.logNumber, g)])).Pairwise _
      rw [hold, flatMap_append, flatMap_singleton] at hsorted
      rw [flatMap_append, flatMap_singleton, hseqs, ← append_assoc]
      refine pairwise_append.mpr ⟨hsorted, pairwise_singleton _ _, fun a ha b hb => ?_⟩
      obtain rfl := mem_singleton.mp hb
      rcases mem_append.mp ha with ha | ha
      · obtain ⟨p, hp, ha⟩ := mem_flatMap.mp ha
        exact hlt p (hold ▸ mem_append_left _ hp) a ha
      · exact hlt _ hlog a ha
    · intro p hp n hn
      refine Nat.lt_succ_of_le ?_
      rcases hcase p hp with hp | rfl
      · exact le_of_lt (hq.lt p hp n hn)
      · rcases hnew n hn with hn | rfl
        · exact le_of_lt (hq.lt _ hlog n hn)
        · exact le_rfl
    · intro p hp hle n hn e he
      rcases hcase p hp with hp | rfl
      · exact hq.above p hp hle n hn e he
      · rcases hnew n hn with hn | rfl
        · exact hq.above _ hlog hle n hn e he
        · exact Lsm.stored_seq_lt hi (mem_append_right _ (mem_append_right _ he))
    · intro e he n hn
      rw [hfile] at hn
      rcases hnew n hn with hn | rfl
      · exact hq.rotated e he n hn
      · exact Lsm.stored_seq_lt hi (mem_append_right _ (mem_append_left _ he))
  obtain ⟨vlogs, -, hdisk⟩ := disk_write s type key value
  have hmod : Keyed.modify s.disk.logs s.logNumber (fun f => f.append (s.walBytes type key value)) =
      s₁.disk.logs := by
    conv_lhs => rw [hold]
    exact Keyed.modify_concat hfresh
  refine hok.frame ?_ (.inl (by rw [hdisk]; rfl)) rfl rfl rfl rfl le_rfl
    (fun _ he => he) fun _ he => he
  rw [hdisk]
  dsimp only
  rw [hmod]
  split
  · exact SameBytes.sync _ _
  · exact SameBytes.refl _

theorem makeRoom_seqsOk (hq : s.SeqsOk) : s.makeRoom.SeqsOk := by
  unfold makeRoom
  split
  · exact rotate_seqsOk hq
  · exact hq

/-! ## Every step -/

theorem makeRoom_inv (hi : s.core.Inv h) (him : s.core.imm = none) : s.makeRoom.core.Inv h := by
  rw [makeRoom_core]
  split
  · exact Lsm.rotateForFlush_inv hi him
  · exact hi

theorem makeRoom_nextSeq (s : DB) : s.makeRoom.core.nextSeq = s.core.nextSeq := by
  rw [makeRoom_core]
  split <;> rfl

theorem put_seqsOk (hi : s.core.Inv h) (hq : s.SeqsOk) (hseq : s.core.nextSeq < 2 ^ 64)
    (him : s.core.imm = none) (type : ValueType) (key value : Bytes) :
    (s.makeRoom.writeEntry type key value).SeqsOk :=
  writeEntry_seqsOk (makeRoom_inv hi him) (makeRoom_seqsOk hq) ((makeRoom_nextSeq s).symm ▸ hseq)
    type key value

/-- **The install of a flush**: the current log was begun after the last write
of the memtable that becomes a table. -/
theorem flushInstall_seqsOk (hi : s.core.Inv h) (hq : s.SeqsOk) {c : Lsm}
    (hc : s.core.flushInstall = some c) :
    ({ s.perform [.publish (s.installed c).manifest] with core := c } : DB).SeqsOk := by
  obtain ⟨t, hbuilt, rfl⟩ := Lsm.flushInstall_cases hc
  have hpend := Lsm.pending_of_built hi hbuilt
  refine ⟨hq.ascending, hq.log, hq.last, hq.log_lt, le_rfl, hq.retired, hq.clean, hq.sorted,
    hq.lt, ?_, nofun⟩
  intro p hp hle n hn e he
  have hnum : p.1 = s.logNumber := le_antisymm (hq.last _ (mem_keys.mpr ⟨p.2, hp⟩)) hle
  have hget := get?_of_mem (hq.ascending.imp ne_of_lt) hp
  have hfile : s.logFile = p.2 := by
    unfold logFile
    rw [← hnum, hget]
    rfl
  rcases mem_append.mp (show e ∈ t.entries ++ s.core.current.entries from he) with he | he
  · exact hq.rotated e (hpend ▸ he) n (hfile ▸ hn)
  · exact hq.above p hp (hnum ▸ hq.floor_le) n hn e he

theorem flushDone_seqsOk (hi : s.core.Inv h) (hq : s.SeqsOk) (hins : s.core.flush = .installed) :
    ({ s.perform [.unlinkLog s.immLogNumber] with
        core := { s.core with imm := none, flush := .idle }
        gc := GcStage.drained s.gc } : DB).SeqsOk := by
  have hne : s.logNumber ≠ s.immLogNumber :=
    (ne_of_lt (hq.retired (hi.imm_ne_none (by simp [hins])))).symm
  have hsub : ∀ p ∈ Keyed.erase s.disk.logs s.immLogNumber, p ∈ s.disk.logs := fun p hp =>
    (mem_erase.mp hp).1
  refine ⟨?_, ?_, ?_, hq.log_lt, hq.floor_le, fun hc => absurd rfl hc, ?_, ?_, ?_, ?_, ?_⟩
  · exact (keys_erase s.disk.logs s.immLogNumber).symm ▸ hq.ascending.filter _
  · obtain ⟨f, hf⟩ := mem_keys.mp hq.log
    exact mem_keys.mpr ⟨f, mem_erase.mpr ⟨hf, hne⟩⟩
  · intro k hk
    obtain ⟨f, hf⟩ := mem_keys.mp hk
    exact hq.last k (mem_keys.mpr ⟨f, hsub _ hf⟩)
  · exact fun p hp => hq.clean p (hsub p hp)
  · exact hq.sorted.sublist (filter_sublist.flatMap _)
  · exact fun p hp => hq.lt p (hsub p hp)
  · exact fun p hp => hq.above p (hsub p hp)
  · exact nofun

/-- **Every step keeps the numbers in order.** -/
theorem SeqsOk.step (hi : s.core.Inv h) (hq : s.SeqsOk) {op : Op}
    (hseq : ∀ e ∈ s.written op, e.seq < 2 ^ 64) (hs : s.step op = some s') : s'.SeqsOk := by
  have hquiet : ∀ {c : Lsm} {gc : GcStage}, c.imm = s.core.imm → c.nextSeq = s.core.nextSeq →
      s.core.nextFileNumber ≤ c.nextFileNumber → c.current = s.core.current →
      c.pending = s.core.pending → ({ s with core := c, gc := gc } : DB).SeqsOk :=
    fun himm hns hnf hcur hpend => hq.frame (.refl _) (.inl rfl) rfl rfl himm hns hnf
      (fun _ he => hcur ▸ he) fun _ he => hpend ▸ he
  obtain ⟨_, hn⟩ := step_cases hs
  cases hn with
  | put him | delete him => exact put_seqsOk hi hq (hseq _ (mem_singleton_self _)) him _ _ _
  | rotate => exact rotate_seqsOk hq
  | flushBuilt _ him hidle =>
    refine hq.frame (.refl _) (.inl rfl) rfl rfl rfl rfl le_rfl (fun _ he => he) ?_
    simp [Lsm.pending, him, hidle]
  | flushFailed | getSnapshot | releaseSnapshot | gcCheck | gcDefer | gcDead | gcDrain | gcAbort =>
    exact hquiet rfl rfl le_rfl rfl rfl
  | flushInstall hc => exact flushInstall_seqsOk hi hq hc
  | flushDone hins => exact flushDone_seqsOk hi hq hins
  | pick _ hc =>
    obtain ⟨x, -, -, -, -, rfl⟩ := Lsm.pick_cases hc
    exact hquiet rfl rfl le_rfl rfl rfl
  | captureFloor hc =>
    obtain ⟨x, ts, -, -, rfl⟩ := Lsm.captureFloor_cases hi hc
    exact hquiet rfl rfl le_rfl rfl rfl
  | sealOutput _ hc =>
    obtain ⟨x, floor, t, todo, outputs, -, rfl⟩ := Lsm.sealOutput_cases hc
    exact hq.frame (.refl _) (.inl rfl) rfl rfl rfl rfl (Nat.le_succ _) (fun _ he => he)
      fun _ he => he
  | @installCompaction c x floor outputs hx hc =>
    obtain rfl := Lsm.installCompaction_eq hx hc
    have hp := hi.merged hx
    obtain ⟨hlogs, -, hman⟩ := unlinkSsts_frame x.inputs
      (s.disk.apply (.publish (s.installed { s.core with
        current := installVersion s.core.current x outputs, compaction := none }).manifest))
    refine hq.frame ?_ (.inr (Disk.floor_congr hman)) rfl rfl rfl rfl le_rfl ?_ fun _ he => he
    · exact hlogs.symm ▸ SameBytes.refl _
    · exact fun e he => Lsm.install_entries_sub hp.1 (Lsm.current_nodup hi) hp.2.builtFrom he
  | gcStart =>
    exact hq.frame (.refl _) (.inr rfl) rfl rfl rfl rfl (Nat.le_succ _) (fun _ he => he)
      fun _ he => he
  | @gcRewrite _ _ _ x todo hgc hlive =>
    have hlt : s.core.nextSeq < 2 ^ 64 :=
      hseq (s.record .value x.entry.key x.entry.value) (by simp [written, hgc, hlive])
    exact (writeEntry_seqsOk hi hq hlt .value x.entry.key x.entry.value).frame (.refl _)
      (.inl rfl) rfl rfl rfl rfl le_rfl (fun _ he => he) fun _ he => he
  | gcRetire =>
    obtain ⟨vlogs, -, hdisk⟩ := syncEffects_disk s
    refine hq.frame ?_ (.inr ?_) rfl rfl rfl rfl le_rfl (fun _ he => he) fun _ he => he
    · unfold perform
      rw [Disk.applyAll_append]
      change SameBytes _ (s.disk.applyAll s.syncEffects).logs
      rw [hdisk]
      exact SameBytes.sync _ _
    · unfold perform
      rw [Disk.applyAll_append]
      rfl
  | @gcUnlink retired =>
    obtain ⟨hlogs, -, hman⟩ := unlinkVlogs_frame retired s.disk
    exact hq.frame (hlogs.symm ▸ SameBytes.refl _) (.inl (Disk.floor_congr hman)) rfl rfl rfl rfl
      le_rfl (fun _ he => he) fun _ he => he

/-! ## Restarts -/

/-- What holds at every point of the life of a database. -/
structure LifeOk (s : DB) : Prop where
  inv : ∃ h, s.core.Inv h
  files : s.FilesOk
  seqs : s.SeqsOk

theorem fresh_lifeOk (opt : Options) : (fresh opt).LifeOk :=
  ⟨⟨[], Lsm.fresh_inv opt⟩, fresh_filesOk opt, fresh_seqsOk opt⟩

theorem written_lt (hseq : s.core.nextSeq < 2 ^ 64) (op : Op) :
    ∀ e ∈ s.written op, e.seq < 2 ^ 64 := by
  intro e he
  rcases written_cases s op with hnil | ⟨x, hx, hxs⟩
  · rw [hnil] at he
    cases he
  · rw [hx] at he
    rw [mem_singleton.mp he, hxs]
    exact hseq

theorem LifeOk.step (hl : s.LifeOk) (hseq : s.core.nextSeq < 2 ^ 64) {op : Op}
    (hs : s.step op = some s') : s'.LifeOk := by
  obtain ⟨h, hi⟩ := hl.inv
  exact ⟨⟨_, (step_core hs).inv hi⟩, hl.files.step hi hs, hl.seqs.step hi (written_lt hseq op) hs⟩

theorem SeqsOk.replayed (hq : s.SeqsOk) :
    replayedEntries (logsToReplay s.disk s.disk.floor) = s.disk.liveEntries :=
  Disk.replayedEntries_eq hq.ascending

theorem SeqsOk.live_seqs (hq : s.SeqsOk) :
    ((s.disk.logs.filter fun p => decide (s.disk.floor ≤ p.1)).flatMap fun p =>
      p.2.entries.map Entry.seq).Pairwise (· < ·) := by
  have hsub : ((s.disk.logs.filter fun p => decide (s.disk.floor ≤ p.1)).flatMap fun p =>
      p.2.seqs).Sublist (s.disk.logs.flatMap fun p => p.2.seqs) := filter_sublist.flatMap _
  refine hq.sorted.sublist (List.Sublist.trans ?_ hsub)
  exact flatMap_sublist (fun p : Nat × File => (File.entries_seqs_within p.2).sublist) _

/-- **The replayed versions ascend**, and are above the version. -/
theorem SeqsOk.live_sorted (hq : s.SeqsOk) :
    s.disk.liveEntries.Pairwise fun a b => a.seq < b.seq := by
  have h := hq.live_seqs
  rw [← map_flatMap, pairwise_map] at h
  exact h

theorem SeqsOk.live_above (hq : s.SeqsOk) {x y : Entry} (hx : x ∈ s.disk.liveEntries)
    (hy : y ∈ s.core.current.entries) : y.seq < x.seq := by
  obtain ⟨p, hp, hle, hx⟩ := Disk.mem_liveEntries.mp hx
  exact hq.above p hp hle _ ((File.entries_seqs_within p.2).subset (mem_map_of_mem hx)) y hy

theorem SeqsOk.recoverable (hq : s.SeqsOk) (hi : s.core.Inv h) (hf : s.FilesOk) :
    Recoverable s.core.current
      (replayedEntries (logsToReplay s.disk s.disk.manifestState.logNumber)) := by
  have hes : replayedEntries (logsToReplay s.disk s.disk.manifestState.logNumber) =
      s.disk.liveEntries := hq.replayed
  rw [hes]
  refine ⟨hi.contents.version, hf.metaInv.current, Lsm.current_nodup hi, hi.numbers.l0_descending,
    ?_, fun x hx y hy _ => hq.live_above hx hy⟩
  intro x hx y hy _ hseq
  have hseq : x.seq = y.seq := hseq
  rcases mem_append.mp hx with hx | hx <;> rcases mem_append.mp hy with hy | hy
  · by_contra hne
    have hsorted : s.disk.liveEntries.Pairwise fun a b => a.seq ≠ b.seq :=
      hq.live_sorted.imp ne_of_lt
    have : Std.Symm fun a b : Entry => a.seq ≠ b.seq := ⟨fun _ _ => Ne.symm⟩
    exact hsorted.forall hx hy hne hseq
  · exact absurd hseq.symm (ne_of_lt (hq.live_above hx hy))
  · exact absurd hseq (ne_of_lt (hq.live_above hy hx))
  · have hsub : ∀ e ∈ s.core.current.entries, e ∈ h := fun e he =>
      hi.contents.sub e (mem_append_right _ (mem_append_right _ he))
    exact hi.contents.distinct x (hsub x hx) y (hsub y hy) (by assumption) hseq

section Reopen

variable {opt : Options} {r : DB}

theorem LifeOk.opened (hl : s.LifeOk) (hopen : openDb opt s.disk = .ok r) :
    r = DB.opened opt s.disk (sortByNumber s.core.current.tables) ∧
      r.core.current = s.core.current ∧
      r.core.Inv (s.disk.liveEntries ++ s.core.current.entries) := by
  obtain ⟨h, hi⟩ := hl.inv
  obtain ⟨refs, hvalid, -, hoff, -⟩ := openDb_eq_ok.mp hopen
  obtain ⟨r', hopen', hr', hcur, hinv⟩ :=
    openDb_ok hl.files.names hvalid.2.2 hoff (hl.seqs.recoverable hi hl.files)
  obtain rfl := Except.ok.inj (hopen.symm.trans hopen')
  exact ⟨hr', hcur, hl.seqs.replayed ▸ hinv⟩

theorem filesOk_opened {d : Disk} {v : Version} (hn : d.Names v) (hm : v.MetaOk)
    (hr : r = DB.opened opt d (sortByNumber v.tables)) (hcur : r.core.current = v) : r.FilesOk := by
  have hidle : r.core.flush = .idle := by rw [hr]; rfl
  have hnone : r.core.imm = none := by rw [hr]; rfl
  have hcomp : r.core.compaction = none := by rw [hr]; rfl
  have hms : r.disk.manifestState = d.manifestState := by rw [hr]; rfl
  refine ⟨⟨by rw [hms, hcur]; exact hn.files, fun t ht => ?_⟩,
    ⟨hcur ▸ hm, fun x floor todo outputs hx => ?_, by rw [hr]; exact Nat.succ_pos _,
      fun hne => absurd hnone hne⟩, fun t ht => ?_, fun t ht => ?_⟩
  · rw [hcur] at ht
    have hnamed : t.number ∈ d.manifestState.files.map FileMeta.fileNumber := by
      rw [hn.files, map_map]
      exact mem_map_of_mem ((perm_sortByNumber _).mem_iff.mpr ht)
    have hssts : r.disk.ssts = d.ssts.filter fun p =>
        decide (p.1 ∈ d.manifestState.files.map FileMeta.fileNumber) := by
      rw [hr]
      rfl
    rw [hssts, get?_filter d.ssts
      (fun k => decide (k ∈ d.manifestState.files.map FileMeta.fileNumber)),
      if_pos (decide_eq_true hnamed)]
    exact hn.tables t ht
  · rw [hcomp] at hx
    cases hx
  · rw [hidle] at ht
    cases ht
  · simp [Lsm.sealed, hcomp] at ht

theorem SeqsOk.opened (hq : s.SeqsOk)
    (hr : r = DB.opened opt s.disk (sortByNumber s.core.current.tables))
    (hcur : r.core.current = s.core.current) : r.SeqsOk := by
  set live := s.disk.logs.filter fun p => decide (s.disk.floor ≤ p.1) with hlive
  have hreplay : logsToReplay s.disk s.disk.floor = live :=
    Disk.logsToReplay_eq hq.ascending hq.log hq.floor_le
  have hlogs : r.disk.logs = live.map fun p => (p.1, replayedFile p.2) := by
    rw [hr]
    exact congrArg (List.map _) hreplay
  have hkeys : Keyed.keys r.disk.logs = Keyed.keys live := by
    rw [hlogs, Keyed.keys, Keyed.keys, map_map]
    rfl
  have hlast := Disk.getLast?_live hq.ascending hq.log hq.floor_le hq.last
  have hnum : r.logNumber = s.logNumber := by
    rw [hr]
    change ((Keyed.keys (logsToReplay s.disk s.disk.floor)).getLast?).getD _ = _
    rw [hreplay, hlast]
    rfl
  have hfloor : r.disk.floor = s.disk.floor := by rw [hr]; rfl
  have hnone : r.core.imm = none := by rw [hr]; rfl
  have hseqs : ∀ p ∈ live, (replayedFile p.2).Clean ∧
      (replayedFile p.2).seqs = p.2.entries.map Entry.seq := fun p hp =>
    ⟨(hq.clean p (mem_of_mem_filter hp)).replayed, p.2.seqs_replayed⟩
  have hmem : ∀ p ∈ r.disk.logs, ∃ f, (p.1, f) ∈ live ∧ p.2 = replayedFile f := by
    intro p hp
    rw [hlogs] at hp
    obtain ⟨q, hq', rfl⟩ := mem_map.mp hp
    exact ⟨q.2, hq', rfl⟩
  refine ⟨?_, ?_, ?_, ?_, ?_, fun hne => absurd hnone hne, ?_, ?_, ?_, ?_, ?_⟩
  · rw [hkeys]
    exact pairwise_map.mpr ((pairwise_map.mp hq.ascending).filter _)
  · rw [hkeys, hnum]
    exact mem_of_getLast? hlast
  · intro k hk
    rw [hkeys] at hk
    obtain ⟨f, hf⟩ := mem_keys.mp hk
    rw [hnum]
    exact hq.last k (mem_keys.mpr ⟨f, mem_of_mem_filter hf⟩)
  · rw [hr]
    exact Nat.lt_succ_of_le (le_max_right _ _)
  · rw [hfloor, hnum]
    exact hq.floor_le
  · intro p hp
    obtain ⟨f, hf, hpf⟩ := hmem p hp
    rw [hpf]
    exact (hseqs _ hf).1
  · rw [hlogs, flatMap_map, flatMap_congr fun p hp => (hseqs p hp).2]
    exact hq.live_seqs
  · intro p hp n hn
    obtain ⟨f, hf, hpf⟩ := hmem p hp
    rw [hpf, (hseqs _ hf).2] at hn
    obtain ⟨e, he, rfl⟩ := mem_map.mp hn
    rw [hr]
    refine Nat.lt_succ_of_le (le_maxOf (.inl (mem_append_left _ (mem_map_of_mem ?_))))
    change e ∈ replayedEntries (logsToReplay s.disk s.disk.floor)
    rw [hreplay]
    exact mem_flatMap.mpr ⟨_, hf, he⟩
  · intro p hp hle n hn e he
    obtain ⟨f, hf, hpf⟩ := hmem p hp
    rw [hpf, (hseqs _ hf).2] at hn
    rw [hcur] at he
    exact hq.above _ (mem_of_mem_filter hf) (hfloor ▸ hle) n
      ((File.entries_seqs_within f).subset hn) e he
  · rw [Lsm.pending_of_none hnone]
    exact fun _ hx => absurd hx not_mem_nil

/-- **A restart**, under any options, keeps what holds. -/
theorem LifeOk.reopen (hl : s.LifeOk) (hopen : openDb opt s.disk = .ok r) : r.LifeOk := by
  obtain ⟨hr, hcur, hinv⟩ := hl.opened hopen
  exact ⟨⟨_, hinv⟩, filesOk_opened hl.files.names hl.files.metaInv.current hr hcur,
    hl.seqs.opened hr hcur⟩

end Reopen

/-! ## The life of a database -/

/-- A step, or closing the database and opening it again under other options. -/
inductive Life where
  | op (op : Op)
  | reopen (opt : Options)

/-- `next_seq_` is a `uint64_t`; the counter of the model is not, and its runs
end where the code's would wrap. -/
def stepLife (s : DB) : Life → Option DB
  | .op op => if s.core.nextSeq < 2 ^ 64 then s.step op else none
  | .reopen opt => (openDb opt s.disk).toOption

theorem LifeOk.stepLife (hl : s.LifeOk) {ev : Life} (hs : s.stepLife ev = some s') :
    s'.LifeOk := by
  cases ev with
  | op op =>
    simp only [DB.stepLife] at hs
    split at hs
    · next hseq => exact hl.step hseq hs
    · cases hs
  | reopen opt' => exact hl.reopen (eq_ok_of_toOption hs)

theorem run_lifeOk {opt : Options} {tr : List Life}
    (hrun : Machine.run stepLife (fresh opt) tr = some s) : s.LifeOk :=
  Machine.run_invariant (fun _ s => s.LifeOk) (fresh_lifeOk opt)
    (fun _ _ _ _ hl hs => hl.stepLife hs) hrun

/-- The same life, over the bytes. -/
def stepLifeBytes (pl : Platform) (s : DB) : Life → Option DB
  | .op op => if s.core.nextSeq < 2 ^ 64 then s.stepBytes pl op else none
  | .reopen opt => (openDb opt s.disk).toOption

section Bytes

variable {pl : Platform} {opt : Options} {tr : List Life}

theorem stepLifeBytes_eq (hl : s.LifeOk) (hf : s.Fits pl) (ev : Life) :
    s.stepLifeBytes pl ev = s.stepLife ev := by
  obtain ⟨h, hi⟩ := hl.inv
  cases ev with
  | op op => rw [stepLifeBytes, DB.stepLife, stepBytes_eq hi hf]
  | reopen opt => rfl

theorem run_life_of_bytes (hsize : Machine.Always (stepLifeBytes pl) (Fits pl) (fresh opt) tr) :
    Machine.run (stepLifeBytes pl) (fresh opt) tr = Machine.run stepLife (fresh opt) tr := by
  refine (Machine.always_congr LifeOk (fun _ ev hl hf => stepLifeBytes_eq hl hf ev) ?_
    (fresh_lifeOk opt) hsize).1
  intro s ev s' hl hf hs
  rw [stepLifeBytes_eq hl hf] at hs
  exact hl.stepLife hs

theorem always_life_bytes (hsize : Machine.Always stepLife (Fits pl) (fresh opt) tr) :
    Machine.Always (stepLifeBytes pl) (Fits pl) (fresh opt) tr :=
  (Machine.always_congr LifeOk (fun _ ev hl hf => (stepLifeBytes_eq hl hf ev).symm)
    (fun _ _ _ hl _ hs => hl.stepLife hs) (fresh_lifeOk opt) hsize).2

end Bytes

end DB

/-! ## What it means for readers -/

/-- What a lookup asks, in this order. -/
def Lsm.sources (s : Lsm) : List (List Entry) :=
  s.mem.entries :: ((s.imm.map MemTable.entries).toList ++ s.current.sources)

/-- The same, as the bytes show them. -/
def Lsm.sourcesBytes (pl : Platform) (s : Lsm) : List (List Entry) :=
  s.mem.versions pl :: ((s.imm.map (MemTable.versions pl)).toList ++
    (s.current.l0.map (TableRef.versions pl) ++
      levelIndices.map fun i => (s.current.levels i).flatMap (TableRef.versions pl)))

theorem getElem?_pairwise {α : Type*} {R : α → α → Prop} {l : List α} (h : l.Pairwise R) {i j : Nat}
    {a b : α} (hij : i < j) (ha : l[i]? = some a) (hb : l[j]? = some b) : R a b := by
  obtain ⟨hi, rfl⟩ := List.getElem?_eq_some_iff.mp ha
  obtain ⟨hj, rfl⟩ := List.getElem?_eq_some_iff.mp hb
  exact pairwise_iff_getElem.mp h i j hi hj hij

theorem pairwise_dup {α : Type*} {R : α → α → Prop} {x y : α} {l : List α}
    (h : (x :: y :: l).Pairwise R) {i j : Nat} {a b : α} (hij : i < j)
    (ha : (x :: y :: y :: l)[i]? = some a) (hb : (x :: y :: y :: l)[j]? = some b) :
    R a b ∨ i = 1 ∧ j = 2 ∧ a = b := by
  -- positions behind the first copy move up by one
  have hmove : ∀ n, (x :: y :: y :: l)[n + 2]? = (x :: y :: l)[n + 1]? := fun _ => rfl
  obtain ⟨j, rfl⟩ : ∃ k, j = k + 1 := ⟨j - 1, by omega⟩
  rcases j with _ | j
  · obtain rfl : i = 0 := by omega
    exact .inl (getElem?_pairwise h hij ha hb)
  rw [hmove] at hb
  rcases i with _ | i
  · exact .inl (getElem?_pairwise h (Nat.succ_pos j) ha hb)
  rcases i with _ | i
  · rcases j with _ | j
    · exact .inr ⟨rfl, rfl, Option.some.inj (ha.symm.trans hb)⟩
    · exact .inl (getElem?_pairwise h (show 1 < j + 2 by omega) ha hb)
  · rw [hmove] at ha
    exact .inl (getElem?_pairwise h (by omega) ha hb)

namespace Lsm

variable {s : Lsm} {h : List Entry}

theorem sources_of_installed {m : MemTable} {r : TableRef} {rest : List TableRef}
    (him : s.imm = some m) (hl0 : s.current.l0 = r :: rest) (hr : r.entries = m.entries) :
    ∃ deeper, s.current.sources = m.entries :: deeper ∧
      s.sources = s.mem.entries :: m.entries :: m.entries :: deeper := by
  have hcur : s.current.sources = m.entries :: (rest.map TableRef.entries ++
      levelIndices.map fun i => levelEntries (s.current.levels i)) := by
    rw [Version.sources, hl0, map_cons, cons_append, hr]
  refine ⟨_, hcur, ?_⟩
  rw [sources, him, hcur]
  rfl

/-- **The sources are asked newest first.**  Only the pending memtable and the
table just made of it, which stands next, have the same versions. -/
theorem Inv.sources_newer (hi : s.Inv h) {i j : Nat} {a b : List Entry} (hij : i < j)
    (ha : s.sources[i]? = some a) (hb : s.sources[j]? = some b) :
    entryView.Newer a b ∨ s.flush = .installed ∧ i = 1 ∧ j = 2 ∧ a = b := by
  have hc := hi.contents
  have hordered := hc.version.ordered
  have hmem : ∀ src ∈ s.current.sources, entryView.Newer s.mem.entries src :=
    newer_sources fun x hx y hy => hc.mem_newer x hx y (mem_append_right _ hy)
  have hbase : (s.mem.entries :: s.current.sources).Pairwise entryView.Newer :=
    pairwise_cons.mpr ⟨hmem, hordered⟩
  cases him : s.imm with
  | none =>
    have hsrc : s.sources = s.mem.entries :: s.current.sources := by simp [sources, him]
    rw [hsrc] at ha hb
    exact .inl (getElem?_pairwise hbase hij ha hb)
  | some m =>
    by_cases hfl : s.flush = .installed
    · obtain ⟨m', r, rest, hm', hl0, hr⟩ := hi.installed hfl
      obtain rfl : m = m' := Option.some.inj (him.symm.trans hm')
      obtain ⟨deeper, hcur, hsrc⟩ := sources_of_installed him hl0 hr
      rw [hsrc] at ha hb
      rw [hcur] at hbase
      refine (pairwise_dup hbase hij ha hb).imp_right fun hsame => ⟨hfl, hsame⟩
    · have hpend : s.pending = m.entries := by
        unfold pending
        rw [him]
        split <;> first | contradiction | simp_all
      have hsrc : s.sources = s.mem.entries :: m.entries :: s.current.sources := by
        simp [sources, him]
      rw [hsrc] at ha hb
      refine .inl (getElem?_pairwise (pairwise_cons.mpr ⟨?_, pairwise_cons.mpr
        ⟨newer_sources (hpend ▸ hc.pending_newer), hordered⟩⟩) hij ha hb)
      refine forall_mem_cons.mpr ⟨fun x hx y hy => ?_, hmem⟩
      exact hc.mem_newer x hx y (mem_append_left _ (hpend ▸ hy))

theorem Inv.sources_lt (hi : s.Inv h) {a : List Entry} (ha : a ∈ s.sources) {e : Entry}
    (he : e ∈ a) : e.seq < s.nextSeq := by
  have hcur : ∀ {x}, x ∈ s.current.entries → x.seq < s.nextSeq := fun hx =>
    stored_seq_lt hi (mem_append_right _ (mem_append_right _ hx))
  rcases mem_cons.mp ha with rfl | ha
  · exact stored_seq_lt hi (mem_append_left _ he)
  rcases mem_append.mp ha with ha | ha
  · obtain ⟨m, him, rfl⟩ : ∃ m, s.imm = some m ∧ m.entries = a := by simpa using ha
    by_cases hfl : s.flush = .installed
    · obtain ⟨m', r, rest, hm', hl0, hr⟩ := hi.installed hfl
      obtain rfl : m = m' := Option.some.inj (him.symm.trans hm')
      refine hcur (Version.mem_entries.mpr ⟨r, Version.mem_tables.mpr (.inl ?_), hr ▸ he⟩)
      rw [hl0]
      exact mem_cons_self
    · refine stored_seq_lt hi (mem_append_right _ (mem_append_left _ ?_))
      unfold pending
      rw [him]
      split <;> first | contradiction | simp_all
  · exact hcur (mem_version_sources.mp (mem_flatten.mpr ⟨a, ha, he⟩))

theorem sourcesBytes_eq {pl : Platform} (hi : s.Inv h) (hf : s.Fits pl) :
    s.sourcesBytes pl = s.sources := by
  have hversions : ∀ {m : MemTable}, Mem.Short m.entries → Sst.Small m.entries →
      m.versions pl = m.entries := by
    intro m hshort hsmall
    rw [MemTable.versions, MemTable.shown_none hshort hsmall, map_entryOf hsmall]
  have himm : s.imm.map (MemTable.versions pl) = s.imm.map MemTable.entries := by
    refine Option.map_congr fun m hm => ?_
    have hmem := Option.mem_toList.mpr hm
    exact hversions (hf.imm m hmem).1 (hf.imm_small hi m hmem)
  have hlevel : ∀ i ∈ levelIndices, (s.current.levels i).flatMap (TableRef.versions pl) =
      levelEntries (s.current.levels i) := fun i _ =>
    flatMap_congr fun r hr => hf.versions (Version.mem_tables_of_level hr)
  rw [sourcesBytes, sources, Version.sources, hversions hf.mem hf.mem_small, himm,
    map_congr_left fun r hr => hf.versions (Version.mem_tables.mpr (.inl hr)),
    map_congr_left hlevel]

end Lsm

namespace DB

variable {pl : Platform} {s : DB} {opt : Options} {tr : List Life}

/-- **`Scan` and `Get` agree** in every state a database comes to in its life,
at any read point where the pointers found resolve: `fn` is called once for each
key of the range for which `Get` succeeds, with its value, in increasing order
of keys. -/
theorem run_scan (hsize : Machine.Always (stepLifeBytes pl) (Fits pl) (fresh opt) tr)
    (hrun : Machine.run (stepLifeBytes pl) (fresh opt) tr = some s) {S : ReadSeq}
    (hS : ∀ q : Nat, S = WithTop.some q → q < 2 ^ 56)
    (hres : ∀ key slot, s.core.lookupBytes pl key S = .ok (.found slot) →
      ∃ value, s.resolve slot = .ok value) {first : Bytes} (hfirst : first.length < 2 ^ 32)
    (last : Bytes) :
    (s.scanBytes pl first last S).2 = .ok () ∧
    ((s.scanBytes pl first last S).1.Pairwise fun a b => a.1 < b.1) ∧
    ∀ key value, (key, value) ∈ (s.scanBytes pl first last S).1 ↔
      first ≤ key ∧ key < last ∧ s.getBytes pl key S = .ok value := by
  have hf := hsize.last hrun
  rw [run_life_of_bytes hsize] at hrun
  obtain ⟨h, hi⟩ := (run_lifeOk hrun).inv
  have hfound : ∀ key slot, s.core.lookup key S = .found slot →
      ∃ value, s.resolve slot = .ok value := by
    intro key slot hlookup
    refine hres key slot ?_
    rw [Lsm.lookupBytes_eq hi hf hS, hlookup]
  obtain ⟨hstatus, hinc, hcalls⟩ := Lsm.scan_matches hi hfound first last
  rw [scanBytes_eq hi hf hS hfirst]
  refine ⟨hstatus, hinc, fun key value => ?_⟩
  rw [getBytes_eq hi hf hS, get, scan, hcalls key value]
  cases s.core.getWith s.resolve key S <;> simp [Except.toOption]

/-- A deleted key, a restart, and a table just installed beside the memtable it came from. -/
def sampleScan : List Life :=
  [.op (.put [1] [10]), .op (.put [2] [20]), .reopen Lsm.smallOptions, .op (.delete [1]),
    .op .getSnapshot, .op (.put [3] [30]), .op .rotate, .op .flushBuild, .op .flushInstall]

theorem run_scan_sampleScan :
    ∃ s, Machine.run (stepLifeBytes Lsm.flat) (fresh Lsm.smallOptions) sampleScan = some s ∧
      s.core.snapshots = [⟨0, 3⟩] ∧
      ∀ key value, (key, value) ∈ (s.scanBytes Lsm.flat [1] [9] (3 : Nat)).1 ↔
        [1] ≤ key ∧ key < [9] ∧ s.getBytes Lsm.flat key (3 : Nat) = .ok value := by
  have hsize := @always_life_bytes Lsm.flat Lsm.smallOptions sampleScan (by decide +kernel)
  have hsome : (Machine.run stepLife (fresh Lsm.smallOptions) sampleScan).map
      (fun s => (s.core.snapshots, s.opt.enableValueSeparation)) = some ([⟨0, 3⟩], false) := by
    decide +kernel
  rw [← run_life_of_bytes hsize] at hsome
  obtain ⟨s, hs, hsnap⟩ := Option.map_eq_some_iff.mp hsome
  obtain ⟨hsn, hoff⟩ := Prod.mk.inj hsnap
  have hfirst : ([1] : Bytes).length < 2 ^ 32 := by decide
  have hscan := run_scan hsize hs (S := (3 : Nat)) (fun q hq => WithTop.coe_inj.mp hq ▸ by decide)
    (fun _ slot _ => ⟨slot, by simp [resolve, hoff]⟩) hfirst [9]
  exact ⟨s, hs, hsn, hscan.2.2⟩

/-- **A range that begins with a key of 2^32 bytes.**  The memtable is asked for the key its first
bytes make, and `fn` is called for a key in front of the range. -/
theorem run_scan_longKey : ∃ first s, first.length = 2 ^ 32 ∧
    Machine.run (stepLifeBytes Lsm.flat) (fresh Lsm.smallOptions) [.op (.put [97] [])] = some s ∧
    ([97], []) ∈ (s.scanBytes Lsm.flat first [99] kMaxSeq).1 ∧ ¬ first ≤ [97] := by
  obtain ⟨rest, hrest⟩ : ∃ rest : Bytes, rest.length = 2 ^ 32 - 8 :=
    ⟨replicate (2 ^ 32 - 8) 98, length_replicate⟩
  have hlen : (replicate 8 98 ++ rest).length = 2 ^ 32 := by
    rw [length_append, length_replicate, hrest]
    omega
  set s := (fresh Lsm.smallOptions).writeEntry .value [97] []
  set target := replicate 8 98 ++ rest ++ putFixed64 (Sst.Table.targetTag (2 ^ 64 - 1))
  have hseek : Mem.seekKey target = replicate 8 98 := by
    rw [Mem.seekKey, length_append, hlen, length_putFixed64]
    rfl
  have hshown : s.core.mem.shown Lsm.flat (some target) =
      (Sst.pairs [⟨[97], 1, .value, []⟩]).filter fun kv =>
        !internalKeyLess kv.1 (replicate 8 98) := by
    rw [← hseek]
    refine MemTable.shown_seek ?_ ?_ ?_
    · exact fun e he => mem_singleton.mp he ▸ by decide
    · exact fun e he => mem_singleton.mp he ▸ by decide
    · rw [length_append, length_putFixed64]
      omega
  refine ⟨replicate 8 98 ++ rest, s, hlen, rfl, ?_, ?_⟩
  · change _ ∈ (scanLoop s.resolve [99] kMaxSeq none false (((Merge.merge pairLess
      [s.core.mem.shown Lsm.flat (some target)]).map Prod.snd).map entryOf)).1
    rw [hshown]
    exact mem_singleton_self _
  · exact not_le.mpr (List.Lex.rel (by decide))

/-- **The order of the sources** in every state a database comes to in its
life: a version in an earlier source is newer than every version of its key in
a later one, and the next number is above every number stored. -/
theorem run_sources (hsize : Machine.Always (stepLifeBytes pl) (Fits pl) (fresh opt) tr)
    (hrun : Machine.run (stepLifeBytes pl) (fresh opt) tr = some s) :
    (∀ i j a b, i < j → (s.core.sourcesBytes pl)[i]? = some a →
      (s.core.sourcesBytes pl)[j]? = some b →
      (∀ x ∈ a, ∀ y ∈ b, x.user = y.user → y.seq < x.seq) ∨
        s.core.flush = .installed ∧ i = 1 ∧ j = 2 ∧ a = b) ∧
    (∀ a ∈ s.core.sourcesBytes pl, ∀ e ∈ a, e.seq < s.core.nextSeq) ∧
    ∀ p ∈ s.disk.logs, ∀ e ∈ p.2.entries, e.seq < s.core.nextSeq := by
  have hf := hsize.last hrun
  rw [run_life_of_bytes hsize] at hrun
  have hl := run_lifeOk hrun
  obtain ⟨h, hi⟩ := hl.inv
  rw [Lsm.sourcesBytes_eq hi hf]
  refine ⟨fun i j a b hij ha hb => hi.sources_newer hij ha hb, fun a ha e he => hi.sources_lt ha he,
    fun p hp e he => ?_⟩
  exact hl.seqs.lt p hp _ ((File.entries_seqs_within p.2).subset (List.mem_map_of_mem he))

/-- A flush, a write over it, a rotation and the install of the second flush. -/
def sampleLife : List Life :=
  [.op (.put [1] [10]), .op .rotate, .op .flushBuild, .op .flushInstall, .op .flushDone,
    .reopen Lsm.smallOptions, .op (.put [1] [11]), .op .rotate, .op .flushBuild, .op .flushInstall]

theorem run_sources_sampleLife :
    ∃ s, Machine.run (stepLifeBytes Lsm.flat) (fresh Lsm.smallOptions) sampleLife = some s ∧
      s.core.nextSeq = 3 ∧ ∀ a ∈ s.core.sourcesBytes Lsm.flat, ∀ e ∈ a, e.seq < 3 := by
  have hsize := @always_life_bytes Lsm.flat Lsm.smallOptions sampleLife (by decide +kernel)
  have hsome : (Machine.run stepLife (fresh Lsm.smallOptions) sampleLife).map
      (fun s => s.core.nextSeq) = some 3 := by
    decide +kernel
  rw [← run_life_of_bytes hsize] at hsome
  obtain ⟨s, hs, hseq⟩ := Option.map_eq_some_iff.mp hsome
  exact ⟨s, hs, hseq, hseq ▸ (run_sources hsize hs).2.1⟩

/-- **A key of 2^32 + 1 bytes** is stored as its first byte, and the eight bytes behind that are
the tag: here one with the largest sequence number. -/
theorem run_sources_longKey : ∃ key s, key.length = 2 ^ 32 + 1 ∧
    Machine.run (stepLifeBytes Lsm.flat) (fresh Lsm.smallOptions) [.op (.put key [])] = some s ∧
    ∃ a ∈ s.core.sourcesBytes Lsm.flat, ∃ e ∈ a, e.seq = 2 ^ 56 - 1 ∧ s.core.nextSeq = 2 := by
  obtain ⟨rest, hrest⟩ : ∃ rest : Bytes, rest.length = 2 ^ 32 - 8 :=
    ⟨replicate (2 ^ 32 - 8) 0, length_replicate⟩
  set key := 0 :: replicate 8 255 ++ rest with hkey
  have hlen : key.length = 2 ^ 32 + 1 := by
    rw [hkey, length_append, length_cons, length_replicate, hrest]
    omega
  refine ⟨key, (fresh Lsm.smallOptions).writeEntry .value key [], hlen, rfl, _, mem_cons_self, ?_⟩
  have hshown : ((fresh Lsm.smallOptions).writeEntry .value key []).core.mem.shown Lsm.flat none =
      [(Mem.keyBuf (Mem.bytesOf ⟨key, 1, .value, []⟩),
        Mem.value (Mem.bytesOf ⟨key, 1, .value, []⟩))] := rfl
  have hbuf : Mem.keyBuf (Mem.bytesOf ⟨key, 1, .value, []⟩) = 0 :: replicate 8 255 := by
    rw [Mem.bytesOf_eq, Mem.keyBuf_entry (by rw [Mem.length_keyOf]; omega), Mem.seekKey,
      Mem.length_keyOf, hlen, Sst.keyOf, Sst.encodeInternalKey, hkey, append_assoc]
    rfl
  rw [MemTable.versions, hshown, hbuf]
  refine ⟨_, mem_singleton_self _, ?_, rfl⟩
  change extractTag (0 :: replicate 8 255) / 256 = 2 ^ 56 - 1
  decide

/-- **The levels** in every version a database comes to in its life: in key
order, apart, and with all versions of a key in one file. -/
theorem run_levels (hsize : Machine.Always (stepLifeBytes pl) (Fits pl) (fresh opt) tr)
    (hrun : Machine.run (stepLifeBytes pl) (fresh opt) tr = some s) (i : LevelIndex) :
    ((s.core.current.levels i).Pairwise fun a b => Lsm.smallestKey pl a < Lsm.smallestKey pl b) ∧
    ((s.core.current.levels i).Pairwise fun a b =>
      ∀ k, ¬ ((Lsm.smallestKey pl a ≤ k ∧ k ≤ Lsm.largestKey pl a) ∧
        (Lsm.smallestKey pl b ≤ k ∧ k ≤ Lsm.largestKey pl b))) ∧
    (s.core.current.levels i).Pairwise fun a b =>
      ∀ x ∈ a.versions pl, ∀ y ∈ b.versions pl, x.user ≠ y.user := by
  have hf := hsize.last hrun
  rw [run_life_of_bytes hsize] at hrun
  obtain ⟨h, hi⟩ := (run_lifeOk hrun).inv
  have hlevel : ∀ r ∈ s.core.current.levels i, r ∈ s.core.current.tables := fun r hr =>
    Version.mem_tables_of_level hr
  -- what the bytes say about a file is what its versions say
  have hfile : ∀ r ∈ s.core.current.levels i, Lsm.smallestKey pl r = r.smallest ∧
      Lsm.largestKey pl r = r.largest ∧ r.versions pl = r.entries := fun r hr =>
    ⟨(hf.ranges hlevel r hr).1, (hf.ranges hlevel r hr).2, hf.versions (hlevel r hr)⟩
  have hok := hi.contents.version.level_ok i
  refine ⟨hok.imp_of_mem fun {a b} ha hb hab => ?_, hok.imp_of_mem fun {a b} ha hb hab k hk => ?_,
    hok.imp_of_mem fun {a b} ha hb hab x hx y hy hxy => ?_⟩
  · rw [(hfile a ha).1, (hfile b hb).1]
    exact lt_of_le_of_lt (Table.smallest_le_largest _) hab
  · rw [(hfile a ha).2.1, (hfile b hb).1] at hk
    exact absurd (lt_of_le_of_lt hk.1.2 (lt_of_lt_of_le hab hk.2.1)) (lt_irrefl _)
  · rw [(hfile a ha).2.2] at hx
    rw [(hfile b hb).2.2] at hy
    have hx' := Table.le_largest hx
    have hy' := Table.smallest_le hy
    exact absurd (lt_of_le_of_lt hx' (lt_of_lt_of_le hab hy')) (hxy ▸ lt_irrefl _)

/-- Two keys are flushed and compacted into files of one key each. -/
def sampleLevels : List Life :=
  [.op (.put [1] [10]), .op (.put [2] [20]), .op .rotate, .op .flushBuild, .op .flushInstall,
    .op .flushDone, .reopen { Lsm.smallOptions with maxSstSize := 1 }, .op .pick, .op .captureFloor,
    .op .sealOutput, .op .sealOutput, .op .installCompaction, .reopen Lsm.smallOptions]

theorem run_levels_sampleLevels :
    ∃ s a b, Machine.run (stepLifeBytes Lsm.flat) (fresh Lsm.smallOptions) sampleLevels = some s ∧
      s.core.current.levels level1 = [a, b] ∧
      Lsm.smallestKey Lsm.flat a < Lsm.smallestKey Lsm.flat b := by
  have hsize := @always_life_bytes Lsm.flat Lsm.smallOptions sampleLevels (by decide +kernel)
  have hsome : (Machine.run stepLife (fresh Lsm.smallOptions) sampleLevels).map
      (fun s => (s.core.current.levels level1).length) = some 2 := by
    decide +kernel
  rw [← run_life_of_bytes hsize] at hsome
  obtain ⟨s, hs, hlen⟩ := Option.map_eq_some_iff.mp hsome
  obtain ⟨a, b, hab⟩ := List.length_eq_two.mp hlen
  have hsorted := (run_levels hsize hs level1).1
  rw [hab, pairwise_pair] at hsorted
  exact ⟨s, a, b, hs, hab, hsorted⟩

/-- **A value of 2^32 bytes** is flushed and merged: two files of the level have `m` in range. -/
theorem run_levels_longValue : ∃ value s a b, value.length = 2 ^ 32 ∧
    Machine.run (Lsm.stepBytes Lsm.flat) (Lsm.fresh Lsm.burstOptions)
      ((replicate 48 (.put [97] []) ++ [.put (Lsm.forged []).user value, .rotate]) ++ .flushBuild ::
        ([.flushInstall, .flushDone, .pick] ++
          [.captureFloor, .sealOutput, .sealOutput, .installCompaction])) = some s ∧
    s.current.levels level1 = [a, b] ∧
    (Lsm.smallestKey Lsm.flat a ≤ [109] ∧ [109] ≤ Lsm.largestKey Lsm.flat a) ∧
    Lsm.smallestKey Lsm.flat b ≤ [109] ∧ [109] ≤ Lsm.largestKey Lsm.flat b := by
  obtain ⟨value, hlen, htail⟩ : ∃ value : Bytes, value.length = 2 ^ 32 ∧
      value.take 20 = Lsm.forgedTail :=
    ⟨Lsm.forgedTail ++ replicate (2 ^ 32 - 20) 0, by rw [length_append, length_replicate]; rfl,
      take_left' rfl⟩
  obtain ⟨m, hm, hfill⟩ : ∃ m : MemTable, m.entries = Lsm.burst ++ [Lsm.forged value] ∧
      Machine.run (Lsm.stepBytes Lsm.flat) (Lsm.fresh Lsm.burstOptions)
        (replicate 48 (.put [97] []) ++ [.put (Lsm.forged []).user value, .rotate]) =
          some (Lsm.filled (some m) [] .idle none 4) :=
    ⟨(Lsm.burst.reverse.foldl MemTable.add .empty).add (Lsm.forged value), rfl, rfl⟩
  obtain ⟨T, hT, hflush⟩ := Lsm.flushBuild_burst hlen htail hm
  obtain ⟨r, hr, hpick⟩ : ∃ r : TableRef, r.entries = Lsm.burst ++ [Lsm.forged value] ∧
      Machine.run (Lsm.stepBytes Lsm.flat) (Lsm.filled (some m) [] (.built T) none 4)
        [.flushInstall, .flushDone, .pick] = some (Lsm.burstMerge r .picked 4) :=
    ⟨⟨T, T.fileMeta Lsm.burstOptions.size 3 0⟩, hT, rfl⟩
  have hmerge := Lsm.captureFloor_burst hlen htail hr
  have hlow := Lsm.sealOutput_burst mem_cons_self r [Lsm.highFile] [] 4
  have hhigh := Lsm.sealOutput_burst (mem_cons_of_mem _ mem_cons_self) r []
    [⟨Lsm.lowFile, Lsm.lowFile.fileMeta Lsm.burstOptions.size 4 1⟩] 5
  refine ⟨value, _, _, _, hlen, Machine.run_append.mpr ⟨_, hfill, Machine.run_cons.mpr
    ⟨_, hflush, Machine.run_append.mpr ⟨_, hpick, Machine.run_cons.mpr ⟨_, hmerge,
      Machine.run_cons.mpr ⟨_, hlow, Machine.run_cons.mpr ⟨_, hhigh, rfl⟩⟩⟩⟩⟩⟩, rfl, ?_, ?_⟩
  · obtain ⟨hsmall, hfits⟩ := Lsm.fits_burst Lsm.lowFile mem_cons_self
    have hshows := @TableRef.opened_shows Lsm.flat
      ⟨Lsm.lowFile, Lsm.lowFile.fileMeta Lsm.burstOptions.size 4 1⟩ hsmall hfits
    rw [Lsm.smallestKey, Lsm.largestKey, hshows.smallestUserKey, hshows.largestUserKey]
    decide
  · obtain ⟨hsmall, hfits⟩ := Lsm.fits_burst Lsm.highFile (mem_cons_of_mem _ mem_cons_self)
    have hshows := @TableRef.opened_shows Lsm.flat
      ⟨Lsm.highFile, Lsm.highFile.fileMeta Lsm.burstOptions.size 5 1⟩ hsmall hfits
    rw [Lsm.smallestKey, Lsm.largestKey, hshows.smallestUserKey, hshows.largestUserKey]
    decide

end DB

end BedrockKV
