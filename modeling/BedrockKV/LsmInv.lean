/-
# `BedrockKV.LsmInv` — the invariant of the store's memory

`Inv h s` ties a state to the versions `h` ever written.  It has four parts,
one for each thing that can go wrong:

    Contents     the sources are newest first, and every live read point sees
                 in the stored versions what it sees in `h`
    Numbers      no file number is used twice
    FlushOk      the flush works on the pending memtable
    CompactOk    the compaction works on the current version, and its floor
                 still serves every live snapshot

Each function of `BedrockKV.Lsm` has one lemma here, and nothing below
unfolds it again.  The subtle point is the last one: a snapshot taken after
the floor was read is above every input, so the floor need not cover it.
-/
import BedrockKV.Lsm
import BedrockKV.Picked
import BedrockKV.Retention

namespace BedrockKV

open List MultiVersion

/-! ## What is stored -/

def Version.entries (v : Version) : List Entry := v.tables.flatMap TableRef.entries

theorem Version.mem_entries {v : Version} {e : Entry} :
    e ∈ v.entries ↔ ∃ r ∈ v.tables, e ∈ r.entries := mem_flatMap

@[simp] theorem Version.tables_empty : Version.empty.tables = [] := by
  simp [Version.tables, Version.empty, flatMap_eq_nil_iff]

theorem Version.Ok.pushL0 {v : Version} {r : TableRef} (hv : v.Ok)
    (hr : entryView.Newer r.entries v.entries) : ({ v with l0 := r :: v.l0 } : Version).Ok where
  l0_ordered := by
    refine pairwise_cons.mpr ⟨?_, hv.l0_ordered⟩
    intro t ht x hx y hy
    exact hr x hx y (Version.mem_entries.mpr ⟨t, Version.mem_tables.mpr (.inl ht), hy⟩)
  l0_newer := by
    intro t ht i u hu
    rcases mem_cons.mp ht with rfl | ht
    · intro x hx y hy
      exact hr x hx y (Version.mem_entries.mpr ⟨u, Version.mem_tables_of_level hu, hy⟩)
    · exact hv.l0_newer t ht i u hu
  level_newer := hv.level_newer
  level_ok := hv.level_ok

def Compaction.inputEntries (c : Compaction) : List Entry := c.inputs.flatMap TableRef.entries

namespace Lsm

/-- The pending memtable, until its table is part of the version. -/
def pending (s : Lsm) : List Entry :=
  match s.flush, s.imm with
  | .installed, _ => []
  | _, some m => m.entries
  | _, none => []

/-- Every stored version once, newest source first. -/
def stored (s : Lsm) : List Entry := s.mem.entries ++ (s.pending ++ s.current.entries)

/-- The read points somebody may use: the latest state and the live snapshots. -/
def Live (s : Lsm) (S : ReadSeq) : Prop :=
  S = kMaxSeq ∨ ∃ sn ∈ s.snapshots, S = WithTop.some sn.sequence

structure Contents (h : List Entry) (s : Lsm) : Prop where
  version : s.current.Ok
  mem_newer : entryView.Newer s.mem.entries (s.pending ++ s.current.entries)
  pending_newer : entryView.Newer s.pending s.current.entries
  distinct : entryView.Distinct h
  seq_pos : 0 < s.nextSeq
  seq_lt : ∀ e ∈ h, e.seq < s.nextSeq
  sub : ∀ e ∈ s.stored, e ∈ h
  snapshot_lt : ∀ sn ∈ s.snapshots, sn.sequence < s.nextSeq
  reads : ∀ S, s.Live S → ∀ k r, entryView.Reads s.stored k S r ↔ entryView.Reads h k S r

/-- The number kept for the table of the pending memtable. -/
def pendingNumber (s : Lsm) : List Nat :=
  match s.flush, s.imm with
  | .installed, _ => []
  | _, some _ => [s.immSstNumber]
  | _, none => []

/-- The outputs a running compaction has written. -/
def sealed (s : Lsm) : List TableRef :=
  match s.compaction with
  | some (_, .merging _ _ outputs) => outputs
  | _ => []

/-- The numbers in use: of the version, of written outputs, of the pending table. -/
structure Numbers (v : Version) (outputs pending : List Nat) (next : Nat) : Prop where
  nodup : (v.numbers ++ (outputs ++ pending)).Nodup
  lt : ∀ n ∈ v.numbers ++ (outputs ++ pending), n < next
  l0_descending : (v.l0.map TableRef.number).Pairwise (· > ·)
  l0_lt : ∀ r ∈ v.l0, ∀ n ∈ pending, r.number < n

def FlushOk (s : Lsm) : Prop :=
  match s.flush with
  | .idle => True
  | .built t => ∃ m, s.imm = some m ∧ t.entries = m.entries
  | .installed => ∃ m r rest, s.imm = some m ∧ s.current.l0 = r :: rest ∧ r.entries = m.entries

/-- What the merge has decided: `ts` are its output tables. -/
structure MergeOk (snapshots : List Snapshot) (c : Compaction) (floor : ReadSeq)
    (ts : List Table) : Prop where
  written : ∀ x, x ∈ ts.flatMap Table.entries ↔
    x ∈ c.inputEntries ∧ Kept floor c.bottom c.inputEntries x
  apart : ts.Pairwise fun a b => a.largestUserKey < b.smallestUserKey
  floor : ∀ sn ∈ snapshots, floor ≤ WithTop.some sn.sequence ∨
    ∀ x ∈ c.inputEntries, x.seq ≤ sn.sequence

def CompactOk (s : Lsm) : Prop :=
  match s.compaction with
  | none => True
  | some (c, .picked) => Picked s.current c
  | some (c, .merging floor todo outputs) =>
    Picked s.current c ∧ MergeOk s.snapshots c floor (outputs.map TableRef.table ++ todo)

/-- The background thread does one thing at a time, and a flush has a memtable. -/
structure Sequential (s : Lsm) : Prop where
  one : s.compaction ≠ none → s.flush = .idle
  flushing : s.imm = none → s.flush = .idle

structure Inv (h : List Entry) (s : Lsm) : Prop where
  contents : s.Contents h
  numbers : Numbers s.current (s.sealed.map TableRef.number) s.pendingNumber s.nextFileNumber
  flush : s.FlushOk
  compact : s.CompactOk
  sequential : s.Sequential

/-! ## Reads -/

variable {h : List Entry} {s s' : Lsm}

theorem pending_of_imm {m : MemTable} (hf : s.flush = .idle) (hi : s.imm = some m) :
    s.pending = m.entries := by
  simp [pending, hf, hi]

theorem pending_of_none (hi : s.imm = none) : s.pending = [] := by
  unfold pending
  rw [hi]
  split <;> first | rfl | contradiction

variable {e : Entry} {v : Version} {S floor : ReadSeq} {key stored : Bytes} {type : ValueType}
  {c : Compaction} {outputs : List TableRef}

theorem Inv.built {t : Table} (hi : s.Inv h) (hbuilt : s.flush = .built t) :
    ∃ m, s.imm = some m ∧ t.entries = m.entries := by
  have hflush := hi.flush
  simpa only [FlushOk, hbuilt] using hflush

theorem Inv.installed (hi : s.Inv h) (hins : s.flush = .installed) :
    ∃ m r rest, s.imm = some m ∧ s.current.l0 = r :: rest ∧ r.entries = m.entries := by
  have hflush := hi.flush
  simpa only [FlushOk, hins] using hflush

theorem Inv.imm_ne_none (hi : s.Inv h) (hne : s.flush ≠ .idle) : s.imm ≠ none :=
  fun hnone => hne (hi.sequential.flushing hnone)

theorem Inv.merging {todo : List Table} (hi : s.Inv h)
    (hc : s.compaction = some (c, .merging floor todo outputs)) : Picked s.current c ∧
      MergeOk s.snapshots c floor (outputs.map TableRef.table ++ todo) := by
  have hcomp := hi.compact
  simpa only [CompactOk, hc] using hcomp

theorem Inv.merged (hi : s.Inv h) (hc : s.compaction = some (c, .merging floor [] outputs)) :
    Picked s.current c ∧ MergeOk s.snapshots c floor (outputs.map TableRef.table) :=
  append_nil (outputs.map TableRef.table) ▸ hi.merging hc

theorem mem_version_sources : e ∈ v.sources.flatten ↔ e ∈ v.entries :=
  Version.mem_sources_flatten.trans Version.mem_entries.symm

theorem newer_sources {a : List Entry} (h : entryView.Newer a v.entries) :
    ∀ b ∈ v.sources, entryView.Newer a b :=
  fun b hb x hx y hy => h x hx y (mem_version_sources.mp (mem_flatten.mpr ⟨b, hb, hy⟩))

theorem firstAnswer_dup (a b : Lookup) (l : List Lookup) :
    firstAnswer (a :: b :: b :: l) = firstAnswer (a :: b :: l) := by
  cases a <;> cases b <;> rfl

/-- **The traversal answers for everything stored.** -/
theorem lookup_answers (hi : s.Inv h) (key : Bytes) (S : ReadSeq) :
    Answers s.stored key S (s.lookup key S) := by
  have hv := hi.contents.version
  have hmem := hi.contents.mem_newer
  have hpend := hi.contents.pending_newer
  have hmemv : entryView.Newer s.mem.entries s.current.entries := fun x hx y hy =>
    hmem x hx y (mem_append_right _ hy)
  have hvans := Version.answers hv key S
  -- the memtable and the version alone
  have hbase := firstAnswer_answers (List.Forall₂.cons (s.mem.get_answers key S) hvans)
    (pairwise_cons.mpr ⟨newer_sources hmemv, hv.ordered⟩)
  have hcongr : ∀ x, x ∈ (s.mem.entries :: s.current.sources).flatten ↔
      x ∈ s.mem.entries ++ ([] ++ s.current.entries) := by
    intro x
    simp only [flatten_cons, mem_append, mem_version_sources, nil_append]
  unfold lookup lookupIn stored
  cases him : s.imm with
  | none =>
    rw [pending_of_none him]
    exact hbase.congr fun x _ => hcongr x
  | some m =>
    by_cases hfl : s.flush = .installed
    · -- the pending memtable and the first L0 file hold the same versions
      obtain ⟨m', r, rest, hm', hl0, hr⟩ := hi.installed hfl
      obtain rfl : m = m' := Option.some.inj (him.symm.trans hm')
      have hsame : r.table.get key S = m.get key S := congrArg (fun es => lookupEntries es key S) hr
      have hpe : s.pending = [] := by simp [pending, hfl]
      rw [hl0, map_cons, hsame] at hbase
      rw [hpe, hl0, map_cons, hsame]
      refine Answers.congr (fun x _ => hcongr x) ?_
      simpa [firstAnswer_dup] using hbase
    · have hpe : s.pending = m.entries := by
        unfold pending
        rw [him]
        split <;> first | contradiction | simp_all
      rw [hpe] at hpend hmem ⊢
      have hans := firstAnswer_answers (List.Forall₂.cons (s.mem.get_answers key S)
          (List.Forall₂.cons (m.get_answers key S) hvans))
        (pairwise_cons.mpr ⟨forall_mem_cons.mpr
          ⟨fun x hx y hy => hmem x hx y (mem_append_left _ hy), newer_sources hmemv⟩,
          pairwise_cons.mpr ⟨newer_sources hpend, hv.ordered⟩⟩)
      refine Answers.congr ?_ hans
      intro x _
      simp only [flatten_cons, mem_append, mem_version_sources]

/-- A live read point reads what was written. -/
theorem lookup_reads (hi : s.Inv h) (hS : s.Live S) (key : Bytes) :
    entryView.Reads h key S (s.lookup key S).toOption :=
  (hi.contents.reads S hS key _).mp (lookup_answers hi key S).reads

/-! ## Writes -/

theorem fresh_inv (opt : Options) : (fresh opt).Inv [] where
  contents :=
    { version := by
        refine ⟨List.Pairwise.nil, ?_, ?_, fun _ => List.Pairwise.nil⟩ <;>
          simp [fresh, Version.empty]
      mem_newer := by simp [View.Newer, fresh, MemTable.empty]
      pending_newer := by simp [View.Newer, fresh, pending]
      distinct := by simp [View.Distinct]
      seq_pos := Nat.one_pos
      seq_lt := by simp
      sub := by simp [fresh, stored, pending, MemTable.empty, Version.entries]
      snapshot_lt := by simp [fresh]
      reads := fun S _ k r => View.reads_congr fun x => by
        simp [fresh, stored, pending, MemTable.empty, Version.entries] }
  numbers := by
    refine ⟨?_, ?_, List.Pairwise.nil, ?_⟩ <;> simp [fresh, sealed, pendingNumber, Version.numbers]
  flush := trivial
  compact := trivial
  sequential := ⟨fun _ => rfl, fun _ => rfl⟩

section

variable (hi : s.Inv h)
include hi

theorem stored_seq_lt (he : e ∈ s.stored) : e.seq < s.nextSeq :=
  hi.contents.seq_lt e (hi.contents.sub e he)

theorem mem_writeEntry (x : Entry) :
    x ∈ (s.writeEntry type key stored).mem.entries ↔
      x = ⟨key, s.nextSeq, type, stored⟩ ∨ x ∈ s.mem.entries :=
  MemTable.mem_add fun _ hy => stored_seq_lt hi (mem_append_left _ hy)

theorem mem_stored_writeEntry (x : Entry) :
    x ∈ (s.writeEntry type key stored).stored ↔
      x = ⟨key, s.nextSeq, type, stored⟩ ∨ x ∈ s.stored := by
  have hrest : x ∈ (s.writeEntry type key stored).stored ↔
      x ∈ (s.writeEntry type key stored).mem.entries ∨ x ∈ s.pending ++ s.current.entries :=
    mem_append
  rw [hrest, mem_writeEntry hi, or_assoc]
  exact or_congr_right mem_append.symm

/-- A write adds its version, newer than everything, to memory and history alike. -/
theorem writeEntry_inv (type : ValueType) (key stored : Bytes) :
    (s.writeEntry type key stored).Inv (h ++ [⟨key, s.nextSeq, type, stored⟩]) where
  contents :=
    { version := hi.contents.version
      mem_newer := by
        intro x hx y hy hk
        rcases (mem_writeEntry hi x).mp hx with rfl | hx
        · exact stored_seq_lt hi (mem_append_right _ hy)
        · exact hi.contents.mem_newer x hx y hy hk
      pending_newer := hi.contents.pending_newer
      distinct := hi.contents.distinct.insert (e := ⟨key, s.nextSeq, type, stored⟩)
        (fun x => by simp [or_comm]) hi.contents.seq_lt
      seq_pos := Nat.succ_pos _
      seq_lt := by
        intro x hx
        rcases mem_append.mp hx with hx | hx
        · exact Nat.lt_succ_of_lt (hi.contents.seq_lt x hx)
        · rw [mem_singleton.mp hx]
          exact Nat.lt_succ_self _
      sub := by
        intro x hx
        rcases (mem_stored_writeEntry hi x).mp hx with rfl | hx
        · simp
        · exact mem_append_left _ (hi.contents.sub x hx)
      snapshot_lt := fun sn hsn => Nat.lt_succ_of_lt (hi.contents.snapshot_lt sn hsn)
      reads := fun S hS k r =>
        View.reads_insert (mem_stored_writeEntry hi) (fun x => by simp [or_comm])
          hi.contents.sub hi.contents.distinct hi.contents.seq_lt (hi.contents.reads S hS k r) }
  numbers := hi.numbers
  flush := hi.flush
  compact := hi.compact
  sequential := ⟨hi.sequential.one, hi.sequential.flushing⟩

theorem pending_rotateForFlush (him : s.imm = none) :
    s.rotateForFlush.pending = s.mem.entries :=
  pending_of_imm (hi.sequential.flushing him) rfl

theorem stored_rotateForFlush (him : s.imm = none) :
    s.rotateForFlush.stored = s.stored := by
  unfold stored
  rw [pending_rotateForFlush hi him, pending_of_none him]
  rfl

/-- Freezing the memtable moves it down one place in the order of sources. -/
theorem rotateForFlush_inv (him : s.imm = none) : s.rotateForFlush.Inv h := by
  have hidle := hi.sequential.flushing him
  have hpend := pending_rotateForFlush hi him
  have hstored := stored_rotateForFlush hi him
  have hnum : s.rotateForFlush.pendingNumber = [s.nextFileNumber + 1] := by
    simp [pendingNumber, rotateForFlush, hidle]
  have hnum₀ : s.pendingNumber = [] := by simp [pendingNumber, hidle, him]
  refine ⟨?_, ?_, ?_, hi.compact, ⟨fun _ => hidle, fun _ => hidle⟩⟩
  · refine ⟨hi.contents.version, ?_, ?_, hi.contents.distinct, hi.contents.seq_pos,
      hi.contents.seq_lt, ?_, hi.contents.snapshot_lt, ?_⟩
    · exact nofun
    · rw [hpend]
      exact fun x hx y hy => hi.contents.mem_newer x hx y (mem_append_right _ hy)
    · rw [hstored]
      exact hi.contents.sub
    · rw [hstored]
      exact hi.contents.reads
  · have hlt := hi.numbers.lt
    have hnd := hi.numbers.nodup
    rw [hnum₀, append_nil] at hlt hnd
    rw [hnum]
    refine ⟨?_, ?_, hi.numbers.l0_descending, ?_⟩
    · rw [← append_assoc]
      refine nodup_append.mpr ⟨hnd, nodup_singleton _, ?_⟩
      intro a ha b hb hab
      have := hlt a ha
      have := mem_singleton.mp hb
      omega
    · intro n hn
      change n < s.nextFileNumber + 2
      rw [← append_assoc] at hn
      rcases mem_append.mp hn with hn | hn
      · have := hlt n hn
        omega
      · have := mem_singleton.mp hn
        omega
    · intro r hr n hn
      have hr' : r.number ∈ s.current.numbers := mem_map_of_mem (mem_append_left _ hr)
      have := hlt r.number (mem_append_left _ hr')
      have := mem_singleton.mp hn
      omega
  · simp [FlushOk, rotateForFlush, hidle]

theorem rotate_inv (hs : s.rotate = some s') : s'.Inv h := by
  unfold rotate at hs
  split at hs
  · cases hs
  · next him =>
    cases hs
    exact rotateForFlush_inv hi him

theorem write_inv (hs : s.write type key stored = some s') :
    s'.Inv (h ++ [⟨key, s.nextSeq, type, stored⟩]) := by
  unfold write at hs
  split at hs
  · cases hs
  · next him =>
    cases hs
    split
    · exact writeEntry_inv (rotateForFlush_inv hi him) type key stored
    · exact writeEntry_inv hi type key stored

end

/-! ## Flush -/

theorem Contents.congr (hc : s.Contents h) (hmem : s'.mem = s.mem)
    (hpend : s'.pending = s.pending) (hcur : s'.current = s.current)
    (hseq : s'.nextSeq = s.nextSeq) (hsnap : s'.snapshots = s.snapshots) : s'.Contents h := by
  have hstored : s'.stored = s.stored := by
    unfold stored
    rw [hmem, hpend, hcur]
  have hlive : ∀ S, s'.Live S ↔ s.Live S := by
    intro S
    unfold Live
    rw [hsnap]
  refine ⟨hcur ▸ hc.version, ?_, ?_, hc.distinct, hseq ▸ hc.seq_pos, hseq ▸ hc.seq_lt, ?_, ?_, ?_⟩
  · rw [hmem, hpend, hcur]
    exact hc.mem_newer
  · rw [hpend, hcur]
    exact hc.pending_newer
  · rw [hstored]
    exact hc.sub
  · rw [hsnap, hseq]
    exact hc.snapshot_lt
  · intro S hS
    rw [hstored]
    exact hc.reads S ((hlive S).mp hS)

theorem Inv.of_mem_iff {h' : List Entry} (hi : s.Inv h) (heq : ∀ e, e ∈ h ↔ e ∈ h') : s.Inv h' := by
  have hc := hi.contents
  refine ⟨⟨hc.version, hc.mem_newer, hc.pending_newer, hc.distinct.mono fun x hx => (heq x).mpr hx,
    hc.seq_pos, fun e he => hc.seq_lt e ((heq e).mpr he), fun e he => (heq e).mp (hc.sub e he),
    hc.snapshot_lt, ?_⟩, hi.numbers, hi.flush, hi.compact, hi.sequential⟩
  exact fun S hS k r => (hc.reads S hS k r).trans (View.reads_congr heq)

theorem buildTable_from {es : List Entry} : ∀ {b : Builder}, Increasing (b.entries ++ es) →
    ∃ b', es.foldlM Builder.add b = .ok b' ∧ b'.entries = b.entries ++ es := by
  induction es with
  | nil =>
    intro b _
    exact ⟨b, rfl, (append_nil _).symm⟩
  | cons e es ih =>
    intro b hinc
    have hacc : b.Accepts e := fun x hx =>
      (pairwise_append.mp hinc).2.2 x (mem_of_getLast? hx) e mem_cons_self
    obtain ⟨b₁, hadd, hb₁⟩ := Builder.add_eq_ok hacc
    rw [append_cons, ← hb₁] at hinc
    obtain ⟨b', hfold, hb'⟩ := ih hinc
    refine ⟨b', ?_, by rw [hb', hb₁, ← append_cons]⟩
    rw [foldlM_cons, hadd]
    exact hfold

theorem buildTable_ok {es : List Entry} (h : Increasing es) :
    ∃ b, buildTable es = .ok b ∧ b.entries = es := buildTable_from h

theorem flushBuild_cases (hs : s.flushBuild = some s') :
    s' = s ∨ ∃ m t, s.imm = some m ∧ s.flush = .idle ∧ s.compaction = none ∧
      t.entries = m.entries ∧ s' = { s with flush := .built t } := by
  unfold flushBuild at hs
  split at hs
  · next m him hidle hnone =>
    obtain ⟨b, hb, hbe⟩ := buildTable_ok m.increasing
    rw [hb] at hs
    unfold Builder.finish at hs
    split at hs
    · next heq => cases heq
    · next b' heq =>
      obtain rfl := Except.ok.inj heq
      split at hs
      · exact .inl (Option.some.inj hs).symm
      · next t ht =>
        split at ht
        · cases ht
          exact .inr ⟨m, _, him, hidle, hnone, hbe, (Option.some.inj hs).symm⟩
        · cases ht
  · cases hs

theorem flushBuild_inv (hi : s.Inv h) (hs : s.flushBuild = some s') : s'.Inv h := by
  rcases flushBuild_cases hs with rfl | ⟨m, t, him, hidle, hnone, ht, rfl⟩
  · exact hi
  · refine ⟨hi.contents.congr rfl ?_ rfl rfl rfl, ?_, ⟨m, him, ht⟩, ?_,
      ⟨fun hc => absurd hnone hc, fun hc => absurd (him.symm.trans hc) (by simp)⟩⟩
    · simp [pending, hidle, him]
    · have hnum : pendingNumber { s with flush := .built t } = s.pendingNumber := by
        simp [pendingNumber, hidle, him]
      rw [hnum]
      exact hi.numbers
    · exact hi.compact

theorem flushInstall_cases (hs : s.flushInstall = some s') :
    ∃ t, s.flush = .built t ∧ s' = { s with
      current := { s.current with
        l0 := ⟨t, t.fileMeta s.opt.size s.immSstNumber 0⟩ :: s.current.l0 }
      flush := .installed } := by
  unfold flushInstall at hs
  split at hs
  · next t ht => exact ⟨t, ht, (Option.some.inj hs).symm⟩
  · cases hs

theorem pending_of_built (hi : s.Inv h) {t : Table} (hbuilt : s.flush = .built t) :
    s.pending = t.entries := by
  obtain ⟨m, him, ht⟩ := hi.built hbuilt
  simp [pending, hbuilt, him, ht]

theorem stored_flushInstall (hi : s.Inv h) (hs : s.flushInstall = some s') :
    s'.stored = s.stored := by
  obtain ⟨t, hbuilt, rfl⟩ := flushInstall_cases hs
  unfold stored
  rw [pending_of_built hi hbuilt]
  rfl

theorem flushInstall_inv (hi : s.Inv h) (hs : s.flushInstall = some s') : s'.Inv h := by
  have hstored := stored_flushInstall hi hs
  obtain ⟨t, hbuilt, rfl⟩ := flushInstall_cases hs
  have hpend := pending_of_built hi hbuilt
  obtain ⟨m, him, ht⟩ := hi.built hbuilt
  have hnone : s.compaction = none := by
    by_contra hne
    rw [hi.sequential.one hne] at hbuilt
    cases hbuilt
  have hnew := hi.contents.pending_newer
  have hmem := hi.contents.mem_newer
  rw [hpend] at hnew hmem
  set r : TableRef := ⟨t, t.fileMeta s.opt.size s.immSstNumber 0⟩ with hr
  set s' : Lsm := { s with
    current := { s.current with l0 := r :: s.current.l0 }, flush := .installed } with hs'
  have hentries : s'.current.entries = t.entries ++ s.current.entries := rfl
  have hpend' : s'.pending = [] := rfl
  refine ⟨⟨hi.contents.version.pushL0 hnew, ?_, ?_, hi.contents.distinct, hi.contents.seq_pos,
    hi.contents.seq_lt, ?_, hi.contents.snapshot_lt, ?_⟩, ?_, ?_, ?_, ?_⟩
  · rw [hpend', hentries, nil_append]
    exact hmem
  · rw [hpend']
    exact nofun
  · rw [hstored]
    exact hi.contents.sub
  · rw [hstored]
    exact hi.contents.reads
  · have hseal : s.sealed = [] := by simp [sealed, hnone]
    have hseal' : s'.sealed = [] := hseal
    have hnum : s.pendingNumber = [s.immSstNumber] := by simp [pendingNumber, hbuilt, him]
    have hnum' : s'.pendingNumber = [] := rfl
    have hn := hi.numbers
    rw [hseal, hnum] at hn
    rw [hseal', hnum']
    have hperm : (s'.current.numbers ++ ([] ++ [])).Perm
        (s.current.numbers ++ ([] ++ [s.immSstNumber])) := by
      have hcons : s'.current.numbers = s.immSstNumber :: s.current.numbers := rfl
      rw [hcons]
      simpa using (perm_append_singleton s.immSstNumber s.current.numbers).symm
    refine ⟨hperm.nodup_iff.mpr hn.nodup, fun n hmem => hn.lt n (hperm.mem_iff.mp hmem), ?_, ?_⟩
    · refine pairwise_cons.mpr ⟨?_, hn.l0_descending⟩
      intro n hmem
      obtain ⟨u, hu, rfl⟩ := mem_map.mp hmem
      exact hn.l0_lt u hu _ (mem_singleton_self _)
    · exact nofun
  · exact ⟨m, r, s.current.l0, him, rfl, ht⟩
  · simp only [CompactOk, hs', hnone]
  · exact ⟨fun hc => absurd hnone hc, fun hc => absurd (him.symm.trans hc) (by simp)⟩

theorem flushDone_inv (hi : s.Inv h) (hs : s.flushDone = some s') : s'.Inv h := by
  unfold flushDone at hs
  split at hs
  · next hinst =>
    cases hs
    have hnone : s.compaction = none := by
      by_contra hne
      rw [hi.sequential.one hne] at hinst
      cases hinst
    refine ⟨hi.contents.congr rfl ?_ rfl rfl rfl, ?_, trivial, ?_, ⟨fun _ => rfl, fun _ => rfl⟩⟩
    · simp [pending, hinst]
    · have hnum : s.pendingNumber = [] := by simp [pendingNumber, hinst]
      have hn := hi.numbers
      rw [hnum] at hn
      exact hn
    · simp only [CompactOk, hnone]
  · cases hs

/-! ## Compaction -/

theorem current_nodup (hi : s.Inv h) : s.current.numbers.Nodup :=
  (nodup_append.mp hi.numbers.nodup).1

theorem pick_cases (hs : s.pick = some s') :
    ∃ c, s.imm = none ∧ s.flush = .idle ∧ s.compaction = none ∧
      pickCompaction s.opt s.current = some c ∧
        s' = { s with compaction := some (c, .picked) } := by
  unfold pick at hs
  split at hs
  · next him hidle hnone =>
    split at hs
    · obtain ⟨c, hc, rfl⟩ := Option.map_eq_some_iff.mp hs
      exact ⟨c, him, hidle, hnone, hc, rfl⟩
    · cases hs
  · cases hs

theorem pick_inv (hi : s.Inv h) (hs : s.pick = some s') : s'.Inv h := by
  obtain ⟨c, him, hidle, hnone, hc, rfl⟩ := pick_cases hs
  have hp : Picked s.current c := pickCompaction_picked (current_nodup hi) hc
  refine ⟨hi.contents.congr rfl rfl rfl rfl rfl, ?_, hi.flush, hp,
    ⟨fun _ => hidle, hi.sequential.flushing⟩⟩
  have hn := hi.numbers
  simp only [sealed, hnone] at hn
  exact hn

theorem mem_inputEntries_merge {x : Entry} :
    x ∈ merge (c.inputs.map TableRef.entries) ↔ x ∈ c.inputEntries := by
  rw [mem_merge, Compaction.inputEntries, mem_flatMap]
  simp

/-- **The merge succeeds** and its outputs are what retention keeps. -/
theorem mergeTables_ok (opt : Options) (floor : ReadSeq) (hv : v.Ok) (hn : v.numbers.Nodup)
    (hp : Picked v c) :
    ∃ ts, mergeTables opt floor c = .ok ts ∧
      (∀ x, x ∈ ts.flatMap Table.entries ↔
        x ∈ c.inputEntries ∧ Kept floor c.bottom c.inputEntries x) ∧
      ts.Pairwise fun a b => a.largestUserKey < b.smallestUserKey := by
  have hinc : Increasing (merge (c.inputs.map TableRef.entries)) := by
    refine Increasing.of_merge ?_ (hp.inputs_newer hn hv)
    intro es hes
    obtain ⟨r, -, rfl⟩ := mem_map.mp hes
    exact r.table.increasing
  obtain ⟨st, hloop, hwritten, hapart⟩ := mergeLoop_spec opt floor c.bottom hinc
  refine ⟨st.outputs, by rw [mergeTables, hloop]; rfl, ?_, hapart⟩
  intro x
  rw [hwritten x]
  simp only [Kept, mem_inputEntries_merge]

theorem smallestSnapshotSeq_le {sn : Snapshot} (hsn : sn ∈ s.snapshots) :
    s.smallestSnapshotSeq ≤ WithTop.some sn.sequence := by
  have hfold : ∀ (l : List Snapshot) (m : ReadSeq),
      l.foldl (fun m sn => min m (WithTop.some sn.sequence)) m ≤ m ∧
      ∀ sn ∈ l, l.foldl (fun m sn => min m (WithTop.some sn.sequence)) m ≤
        WithTop.some sn.sequence := by
    intro l
    induction l with
    | nil => exact fun m => ⟨le_refl _, nofun⟩
    | cons a l ih =>
      intro m
      obtain ⟨hm, hl⟩ := ih (min m (WithTop.some a.sequence))
      exact ⟨hm.trans (min_le_left _ _), forall_mem_cons.mpr ⟨hm.trans (min_le_right _ _), hl⟩⟩
  exact (hfold _ _).2 sn hsn

theorem captureFloor_cases (hi : s.Inv h) (hs : s.captureFloor = some s') :
    ∃ c ts, s.compaction = some (c, .picked) ∧
      mergeTables s.opt s.smallestSnapshotSeq c = .ok ts ∧
      s' = { s with compaction := some (c, .merging s.smallestSnapshotSeq ts []) } := by
  unfold captureFloor at hs
  split at hs
  · next c hc =>
    have hp := hi.compact
    simp only [CompactOk, hc] at hp
    obtain ⟨ts, hts, -⟩ := mergeTables_ok s.opt s.smallestSnapshotSeq
      hi.contents.version (current_nodup hi) hp
    rw [hts] at hs
    exact ⟨c, ts, hc, hts, (Option.some.inj hs).symm⟩
  · cases hs

theorem captureFloor_inv (hi : s.Inv h) (hs : s.captureFloor = some s') : s'.Inv h := by
  obtain ⟨c, ts, hc, hts, rfl⟩ := captureFloor_cases hi hs
  have hp := hi.compact
  simp only [CompactOk, hc] at hp
  obtain ⟨ts', hts', hwritten, hapart⟩ :=
    mergeTables_ok s.opt s.smallestSnapshotSeq hi.contents.version (current_nodup hi) hp
  obtain rfl := Except.ok.inj (hts.symm.trans hts')
  have hidle : s.flush = .idle := hi.sequential.one (by simp [hc])
  refine ⟨hi.contents.congr rfl rfl rfl rfl rfl, ?_, hi.flush,
    ⟨hp, hwritten, hapart, fun sn hsn => .inl (smallestSnapshotSeq_le hsn)⟩,
    ⟨fun _ => hidle, hi.sequential.flushing⟩⟩
  have hn := hi.numbers
  simp only [sealed, hc] at hn
  exact hn

theorem sealOutput_cases (hs : s.sealOutput = some s') :
    ∃ c floor t todo outputs, s.compaction = some (c, .merging floor (t :: todo) outputs) ∧
      s' = { s with
        nextFileNumber := s.nextFileNumber + 1
        compaction := some (c, .merging floor todo (outputs ++
          [⟨t, t.fileMeta s.opt.size s.nextFileNumber (c.output.val + 1)⟩])) } := by
  unfold sealOutput at hs
  split at hs
  · next c floor t todo outputs hc =>
    exact ⟨c, floor, t, todo, outputs, hc, (Option.some.inj hs).symm⟩
  · cases hs

theorem Numbers.seal {outputs pend : List Nat} {next : Nat} (hn : Numbers v outputs pend next) :
    Numbers v (outputs ++ [next]) pend (next + 1) := by
  have hperm : (v.numbers ++ (outputs ++ [next] ++ pend)).Perm
      (next :: (v.numbers ++ (outputs ++ pend))) := by
    rw [append_assoc, ← append_assoc v.numbers, ← append_assoc v.numbers]
    exact perm_middle
  refine ⟨hperm.nodup_iff.mpr (nodup_cons.mpr ⟨?_, hn.nodup⟩), ?_, hn.l0_descending, hn.l0_lt⟩
  · exact fun hmem => absurd (hn.lt next hmem) (lt_irrefl _)
  · intro n hmem
    rcases mem_cons.mp (hperm.mem_iff.mp hmem) with rfl | hmem
    · exact Nat.lt_succ_self _
    · exact Nat.lt_succ_of_lt (hn.lt n hmem)

theorem sealOutput_inv (hi : s.Inv h) (hs : s.sealOutput = some s') : s'.Inv h := by
  obtain ⟨c, floor, t, todo, outputs, hc, rfl⟩ := sealOutput_cases hs
  have hp := hi.merging hc
  have hidle : s.flush = .idle := hi.sequential.one (by simp [hc])
  refine ⟨hi.contents.congr rfl rfl rfl rfl rfl, ?_, hi.flush, ⟨hp.1, ?_⟩,
    ⟨fun _ => hidle, hi.sequential.flushing⟩⟩
  · have hn := hi.numbers
    simp only [sealed, hc] at hn
    have hn' := hn.seal
    simp only [sealed, map_append]
    exact hn'
  · have hm := hp.2
    rw [append_cons] at hm
    simpa using hm

theorem installCompaction_cases (hs : s.installCompaction = some s') :
    ∃ c floor outputs, s.compaction = some (c, .merging floor [] outputs) ∧
      s' = { s with current := installVersion s.current c outputs, compaction := none } := by
  unfold installCompaction at hs
  split at hs
  · next c floor outputs hc => exact ⟨c, floor, outputs, hc, (Option.some.inj hs).symm⟩
  · cases hs

theorem installCompaction_eq (hc : s.compaction = some (c, .merging floor [] outputs))
    (hs : s.installCompaction = some s') :
    s' = { s with current := installVersion s.current c outputs, compaction := none } := by
  obtain ⟨c', floor', outputs', hc', rfl⟩ := installCompaction_cases hs
  cases hc.symm.trans hc'
  rfl

theorem MergeOk.builtFrom {sns : List Snapshot}
    (hm : MergeOk sns c floor (outputs.map TableRef.table)) :
    BuiltFrom c outputs where
  sub := by
    intro r hr e he
    have hmem : e ∈ (outputs.map TableRef.table).flatMap Table.entries :=
      mem_flatMap.mpr ⟨r.table, mem_map_of_mem hr, he⟩
    exact mem_flatMap.mp ((hm.written e).mp hmem).1
  level_ok := pairwise_map.mp hm.apart

/-- The files of a version without the inputs of a compaction, and the inputs. -/
theorem mem_entries_split (hp : Picked v c) (hn : v.numbers.Nodup) :
    e ∈ v.entries ↔
      e ∈ (v.tables.filter c.keeps).flatMap TableRef.entries ∨ e ∈ c.inputEntries := by
  simp only [Version.mem_entries, Compaction.inputEntries, mem_flatMap, mem_filter]
  constructor
  · rintro ⟨r, hr, he⟩
    by_cases hin : r ∈ c.inputs
    · exact .inr ⟨r, hin, he⟩
    · exact .inl ⟨r, ⟨hr, (hp.keeps_iff hn hr).mpr hin⟩, he⟩
  · rintro (⟨r, ⟨hr, -⟩, he⟩ | ⟨r, hr, he⟩)
    · exact ⟨r, hr, he⟩
    · exact ⟨r, hp.mem_tables hr, he⟩

theorem mem_entries_install (hp : Picked v c) (hn : v.numbers.Nodup) :
    e ∈ (installVersion v c outputs).entries ↔
      e ∈ (v.tables.filter c.keeps).flatMap TableRef.entries ∨
        e ∈ outputs.flatMap TableRef.entries := by
  rw [Version.entries, (hp.install_tables_perm hn).flatMap_right _ |>.mem_iff,
    flatMap_append, mem_append]

/-- **An install changes no read** beside what is newer than the version, at a
point that its floor serves or that is above all its inputs. -/
theorem install_reads_beside (hi : s.Inv h) (hp : Picked s.current c)
    (hm : MergeOk s.snapshots c floor (outputs.map TableRef.table)) {newer : List Entry}
    (hd : entryView.Distinct (newer ++ s.current.entries))
    (hnewer : entryView.Newer newer s.current.entries)
    (hfloor : floor ≤ S ∨ ∀ x ∈ c.inputEntries, WithTop.some x.seq ≤ S) (k : Bytes)
    (r : Option Bytes) :
    entryView.Reads (newer ++ (installVersion s.current c outputs).entries) k S r ↔
      entryView.Reads (newer ++ s.current.entries) k S r := by
  have hn := current_nodup hi
  set kept := (s.current.tables.filter c.keeps).flatMap TableRef.entries with hkept
  set R := newer ++ kept with hR
  set O := outputs.flatMap TableRef.entries with hO
  have hsplit : ∀ x, x ∈ R ++ c.inputEntries ↔ x ∈ newer ++ s.current.entries := by
    intro x
    simp only [hR, mem_append, mem_entries_split hp hn, or_assoc]
    exact Iff.rfl
  have hafter : ∀ x, x ∈ newer ++ (installVersion s.current c outputs).entries ↔ x ∈ R ++ O := by
    intro x
    simp only [hR, mem_append, mem_entries_install hp hn, or_assoc]
    exact Iff.rfl
  have hdR : entryView.Distinct (R ++ c.inputEntries) := hd.mono fun x hx => (hsplit x).mp hx
  have hwritten : ∀ x, x ∈ O ↔ x ∈ c.inputEntries ∧ Kept floor c.bottom c.inputEntries x := by
    intro x
    rw [← hm.written x, hO, flatMap_map]
  -- at the bottom level only newer versions of the inputs' keys are left
  have hbot : c.bottom = true → entryView.Newer R c.inputEntries := by
    intro hb x hx y hy hk
    rcases mem_append.mp hx with hx | hx
    · exact hnewer x hx y ((mem_entries_split hp hn).mpr (.inr hy)) hk
    · obtain ⟨t, ht, hxt⟩ := mem_flatMap.mp hx
      obtain ⟨ht, hkeep⟩ := mem_filter.mp ht
      obtain ⟨u, hu, hyu⟩ := mem_flatMap.mp hy
      exact hp.newer_input_of_bottom hi.contents.version hb ht
        ((hp.keeps_iff hn ht).mp hkeep) hu x hxt y hyu hk
  have hdI : entryView.Distinct c.inputEntries := hdR.mono fun x hx => mem_append_right _ hx
  rw [View.reads_congr hafter, ← View.reads_replace (fun x hx => ((hwritten x).mp hx).1) hdR
      (covers_of_kept hwritten hdI hbot hfloor k),
    View.reads_congr hsplit]

theorem memory_newer (hi : s.Inv h) :
    entryView.Newer (s.mem.entries ++ s.pending) s.current.entries := by
  intro x hx y hy
  rcases mem_append.mp hx with hx | hx
  · exact hi.contents.mem_newer x hx y (mem_append_right _ hy)
  · exact hi.contents.pending_newer x hx y hy

theorem install_reads (hi : s.Inv h) (hp : Picked s.current c)
    (hm : MergeOk s.snapshots c floor (outputs.map TableRef.table))
    (hfloor : floor ≤ S ∨ ∀ x ∈ c.inputEntries, WithTop.some x.seq ≤ S) (k : Bytes)
    (r : Option Bytes) :
    entryView.Reads (s.mem.entries ++ (s.pending ++ (installVersion s.current c outputs).entries))
      k S r ↔ entryView.Reads s.stored k S r := by
  have hd : entryView.Distinct (s.mem.entries ++ s.pending ++ s.current.entries) := by
    rw [append_assoc]
    exact hi.contents.distinct.mono hi.contents.sub
  rw [stored, ← append_assoc, ← append_assoc]
  exact install_reads_beside hi hp hm hd (memory_newer hi) hfloor k r

theorem MergeOk.serves {ts : List Table} (hm : MergeOk s.snapshots c floor ts) (hS : s.Live S) :
    floor ≤ S ∨ ∀ x ∈ c.inputEntries, WithTop.some x.seq ≤ S := by
  rcases hS with rfl | ⟨sn, hsn, rfl⟩
  · exact .inl le_top
  · rcases hm.floor sn hsn with hle | hall
    · exact .inl hle
    · exact .inr fun x hx => WithTop.coe_le_coe.mpr (hall x hx)

/-- After an install the version holds nothing it did not hold before. -/
theorem install_entries_sub (hp : Picked v c) (hn : v.numbers.Nodup) (hb : BuiltFrom c outputs)
    (he : e ∈ (installVersion v c outputs).entries) : e ∈ v.entries := by
  rcases (mem_entries_install hp hn).mp he with he | he
  · exact (mem_entries_split hp hn).mpr (.inl he)
  · obtain ⟨r, hr, her⟩ := mem_flatMap.mp he
    obtain ⟨t, ht, het⟩ := hb.sub r hr e her
    exact (mem_entries_split hp hn).mpr (.inr (mem_flatMap.mpr ⟨t, ht, het⟩))

theorem Numbers.install {pend : List Nat} {next : Nat}
    (hn : Numbers v (outputs.map TableRef.number) pend next) (hp : Picked v c) :
    Numbers (installVersion v c outputs) [] pend next := by
  have hnd := hn.nodup
  rw [← append_assoc] at hnd
  obtain ⟨hleft, hpend, hdis⟩ := nodup_append.mp hnd
  obtain ⟨hv, houts, hdis'⟩ := nodup_append.mp hleft
  -- every number of the new version is one of the old version or of an output
  have hsub : ∀ n ∈ (installVersion v c outputs).numbers,
      n ∈ v.numbers ++ outputs.map TableRef.number := by
    intro n hmem
    obtain ⟨r, hr, rfl⟩ := mem_map.mp hmem
    rcases (hp.mem_install_tables hv).mp hr with ⟨hr, -⟩ | hr
    · exact mem_append_left _ (mem_map_of_mem hr)
    · exact mem_append_right _ (mem_map_of_mem hr)
  refine ⟨?_, ?_, ?_, ?_⟩
  · rw [nil_append]
    refine nodup_append.mpr ⟨hp.install_numbers hv houts ?_, hpend, ?_⟩
    · exact fun r hr hmem => hdis' _ hmem _ (mem_map_of_mem hr) rfl
    · exact fun a ha b hb => hdis a (hsub a ha) b hb
  · intro n hmem
    rw [nil_append] at hmem
    refine hn.lt n ?_
    rw [← append_assoc]
    exact mem_append.mpr ((mem_append.mp hmem).imp_left (hsub n))
  · rw [hp.install_l0 hv]
    exact hn.l0_descending.sublist (filter_sublist.map _)
  · intro r hr
    exact hn.l0_lt r ((hp.mem_install_l0 hv).mp hr).1

theorem installCompaction_inv (hi : s.Inv h) (hs : s.installCompaction = some s') :
    s'.Inv h := by
  obtain ⟨c, floor, outputs, hc, rfl⟩ := installCompaction_cases hs
  obtain ⟨hp, hm⟩ := hi.merged hc
  have hn := current_nodup hi
  have hb := hm.builtFrom
  have hidle : s.flush = .idle := hi.sequential.one (by simp [hc])
  refine ⟨⟨hp.install_ok hn hi.contents.version hb, ?_, ?_, hi.contents.distinct,
    hi.contents.seq_pos, hi.contents.seq_lt, ?_, hi.contents.snapshot_lt, ?_⟩, ?_, ?_, trivial,
    ⟨fun hne => absurd rfl hne, hi.sequential.flushing⟩⟩
  · intro x hx y hy
    refine hi.contents.mem_newer x hx y ?_
    exact mem_append.mpr ((mem_append.mp hy).imp_right (install_entries_sub hp hn hb))
  · exact fun x hx y hy => hi.contents.pending_newer x hx y (install_entries_sub hp hn hb hy)
  · intro x hx
    refine hi.contents.sub x ?_
    simp only [stored, mem_append] at hx ⊢
    exact hx.imp_right (Or.imp_right (install_entries_sub hp hn hb))
  · exact fun S hS k r => (install_reads hi hp hm (hm.serves hS) k r).trans
      (hi.contents.reads S hS k r)
  · have hnum := hi.numbers
    simp only [sealed, hc] at hnum
    exact hnum.install hp
  · simp only [FlushOk, hidle]

/-! ## Snapshots -/

/-- A running merge depends on the snapshots through its floor only. -/
theorem CompactOk.with_snapshots (hc : s.CompactOk) (hcomp : s'.compaction = s.compaction)
    (hcur : s'.current = s.current)
    (hfloor : ∀ c floor todo outputs, s.compaction = some (c, .merging floor todo outputs) →
      Picked s.current c →
      (∀ sn ∈ s.snapshots, floor ≤ WithTop.some sn.sequence ∨
        ∀ x ∈ c.inputEntries, x.seq ≤ sn.sequence) →
      ∀ sn ∈ s'.snapshots, floor ≤ WithTop.some sn.sequence ∨
        ∀ x ∈ c.inputEntries, x.seq ≤ sn.sequence) : s'.CompactOk := by
  unfold CompactOk at hc ⊢
  rw [hcomp, hcur]
  cases hs : s.compaction with
  | none => trivial
  | some p =>
    obtain ⟨c, stage⟩ := p
    rw [hs] at hc
    cases stage with
    | picked => exact hc
    | merging floor todo outputs =>
      obtain ⟨hp, hm⟩ := hc
      exact ⟨hp, hm.written, hm.apart, hfloor c floor todo outputs hs hp hm.floor⟩

/-- A new snapshot reads the latest state, and a running merge has no version above it. -/
theorem getSnapshot_inv (hi : s.Inv h) : s.getSnapshot.Inv h := by
  have hpos := hi.contents.seq_pos
  refine ⟨⟨hi.contents.version, hi.contents.mem_newer, hi.contents.pending_newer,
    hi.contents.distinct, hi.contents.seq_pos, hi.contents.seq_lt, hi.contents.sub, ?_, ?_⟩,
    hi.numbers, hi.flush, ?_, ⟨hi.sequential.one, hi.sequential.flushing⟩⟩
  · intro sn hsn
    rcases mem_append.mp hsn with hsn | hsn
    · exact hi.contents.snapshot_lt sn hsn
    · rw [mem_singleton.mp hsn]
      exact Nat.sub_lt hpos Nat.one_pos
  · rintro S (rfl | ⟨sn, hsn, rfl⟩) k r
    · exact hi.contents.reads _ (.inl rfl) k r
    · rcases mem_append.mp hsn with hsn | hsn
      · exact hi.contents.reads _ (.inr ⟨sn, hsn, rfl⟩) k r
      · -- below the next number everything is visible, as in a latest read
        rw [mem_singleton.mp hsn]
        have hall : ∀ x ∈ h, entryView.Visible k (WithTop.some (s.nextSeq - 1)) x ↔
            entryView.Visible k kMaxSeq x := by
          intro x hx
          have hlt := hi.contents.seq_lt x hx
          refine and_congr_right fun _ => ⟨fun _ => le_top, fun _ => ?_⟩
          exact WithTop.coe_le_coe.mpr (by change x.seq ≤ s.nextSeq - 1; omega)
        change entryView.Reads s.stored k _ r ↔ _
        rw [View.reads_bound_congr fun x hx => hall x (hi.contents.sub x hx),
          View.reads_bound_congr hall]
        exact hi.contents.reads _ (.inl rfl) k r
  · refine hi.compact.with_snapshots rfl rfl ?_
    intro c floor todo outputs _ hp hfloor sn hsn
    rcases mem_append.mp hsn with hsn | hsn
    · exact hfloor sn hsn
    · rw [mem_singleton.mp hsn]
      refine .inr fun x hx => ?_
      have hx' : x ∈ s.stored := mem_append_right _ (mem_append_right _
        ((mem_entries_split hp (current_nodup hi)).mpr (.inr hx)))
      have hlt := stored_seq_lt hi hx'
      change x.seq ≤ s.nextSeq - 1
      omega

theorem releaseSnapshot_inv (hi : s.Inv h) (handle : Nat) : (s.releaseSnapshot handle).Inv h := by
  have hsub : ∀ sn ∈ (s.releaseSnapshot handle).snapshots, sn ∈ s.snapshots := fun sn hsn =>
    mem_of_mem_eraseP hsn
  refine ⟨⟨hi.contents.version, hi.contents.mem_newer, hi.contents.pending_newer,
    hi.contents.distinct, hi.contents.seq_pos, hi.contents.seq_lt, hi.contents.sub,
    fun sn hsn => hi.contents.snapshot_lt sn (hsub sn hsn), ?_⟩,
    hi.numbers, hi.flush, ?_, ⟨hi.sequential.one, hi.sequential.flushing⟩⟩
  · rintro S (rfl | ⟨sn, hsn, rfl⟩) k r
    · exact hi.contents.reads _ (.inl rfl) k r
    · exact hi.contents.reads _ (.inr ⟨sn, hsub sn hsn, rfl⟩) k r
  · exact hi.compact.with_snapshots rfl rfl fun _ _ _ _ _ _ hfloor sn hsn => hfloor sn (hsub sn hsn)

end Lsm

end BedrockKV
