/-
# `BedrockKV.Slots` — what `WriteEntry` stores for a value can be read back

With value separation on, a slot is the value itself or a pointer to it, and
the two are told apart by their shape alone.  `SlotOk` is what makes that
safe, for one slot and the value it was made for: an inline slot does not have
the shape, and a pointer leads to an entry of the value, as long as its
generation is there.  Generations only grow (`VlogsGrow`), so every step keeps
it, and so does a restart.

`SlotsOk` collects it for everything that was ever written: the slots in
memory, in the tables and in the logs are among those, and a slot determines
its value.
-/
import BedrockKV.CrashRun
import BedrockKV.DbVlogs
import BedrockKV.SeqOrder

namespace BedrockKV

open List Keyed Log MultiVersion

namespace DB

variable {s s' : DB} {h : List Entry}

/-! ## The files of the generations -/

theorem vlogFile_write (hcur : s.vlogCurrent ∈ Keyed.keys s.disk.vlogs) (type : ValueType)
    (key value : Bytes) (n : Nat) :
    ((s.writeEntry type key value).vlogFile n).bytes =
      (s.vlogFile n).bytes ++ if n = s.vlogCurrent then s.vlogBytes type key value else [] := by
  obtain ⟨f, hf⟩ := exists_get? hcur
  have hbytes : s.separates type value = false → s.vlogBytes type key value = [] := fun hsep => by
    simp [vlogBytes, hsep]
  change ((Keyed.get? (s.disk.applyAll (s.writeEffects type key value)).vlogs n).getD
    .empty).bytes = _
  unfold writeEffects appendEffects syncEffects vlogFile
  by_cases hn : n = s.vlogCurrent
  · subst hn
    cases hsep : s.separates type value <;> cases s.syncNeeded type key value <;>
      cases s.opt.enableValueSeparation <;>
      simp [Disk.apply, get?_modify, hf, hbytes, hsep, File.append, File.sync]
  · cases s.separates type value <;> cases s.syncNeeded type key value <;>
      cases s.opt.enableValueSeparation <;> simp [Disk.apply, get?_modify, hn]

/-- Generations that were there have what they had, and maybe more. -/
structure VlogsGrow (s s' : DB) : Prop where
  current : s.vlogCurrent ≤ s'.vlogCurrent
  files : ∀ n ∈ s'.vlogs, n ≤ s.vlogCurrent →
    n ∈ s.vlogs ∧ (s.vlogFile n).bytes <+: (s'.vlogFile n).bytes

theorem GensOk.current_mem (hg : s.GensOk) (hon : s.opt.enableValueSeparation = true) :
    s.vlogCurrent ∈ s.vlogs := mem_of_getLast? (hg.on hon)

/-- The entries a write appends to the current generation. -/
def appended (s : DB) (type : ValueType) (key value : Bytes) : List (Bytes × Bytes) :=
  if s.separates type value then [(key, value)] else []

/-- The entries a step appends to the current generation. -/
def appends (s : DB) : Op → List (Bytes × Bytes)
  | .put key value => s.appended .value key value
  | .gcEntry =>
    match s.gc with
    | .scanning _ _ (x :: _) _ false =>
      if s.isLive x then s.appended .value x.entry.key x.entry.value else []
    | _ => []
  | _ => []

theorem vlogBytes_eq (s : DB) (type : ValueType) (key value : Bytes) :
    s.vlogBytes type key value = encodeEntries (s.appended type key value) := by
  unfold vlogBytes appended
  split
  · exact (append_nil _).symm
  · rfl

/-- Generation `n` after the step: what it had with `new` behind it, or a new one. -/
def FileAfter (s s' : DB) (new : List (Bytes × Bytes)) (n : Nat) : Prop :=
  (n ∈ s.vlogs ∧ (s'.vlogFile n).bytes =
    (s.vlogFile n).bytes ++ encodeEntries (if n = s.vlogCurrent then new else [])) ∨
  (s.vlogCurrent < n ∧ (s'.vlogFile n).bytes = [])

variable {n : Nat} {op : Op} {slot value key : Bytes}

theorem FileAfter.same (hn : n ∈ s.vlogs) (hfile : (s'.vlogFile n).bytes = (s.vlogFile n).bytes) :
    FileAfter s s' [] n := by
  refine .inl ⟨hn, ?_⟩
  rw [hfile, ite_self, encodeEntries, append_nil]

theorem writeEntry_file (hg : s.GensOk) (hon : s.opt.enableValueSeparation = true)
    (type : ValueType)
    (key value : Bytes) (hn : n ∈ s.vlogs) :
    FileAfter s (s.writeEntry type key value) (s.appended type key value) n := by
  refine .inl ⟨hn, ?_⟩
  rw [vlogFile_write (hg.present _ (hg.current_mem hon)), vlogBytes_eq]
  split <;> rfl

theorem put_file (hg : s.GensOk) (hon : s.opt.enableValueSeparation = true) (type : ValueType)
    (key value : Bytes) (hn : n ∈ (s.makeRoom.writeEntry type key value).vlogs) :
    FileAfter s (s.makeRoom.writeEntry type key value) (s.appended type key value) n := by
  revert hn
  unfold makeRoom
  split
  · exact fun hn => writeEntry_file (rotate_gensOk hg) hon type key value hn
  · exact fun hn => writeEntry_file hg hon type key value hn

theorem gcStart_file (hg : s.GensOk) (hon : s.opt.enableValueSeparation = true)
    (hn : n ∈ s.vlogs ++ [s.core.nextFileNumber]) :
    FileAfter s (s.gcSwitch.perform
      [.createVlog s.core.nextFileNumber, .publish s.gcSwitch.manifest]) [] n := by
  have hfile : ((s.gcSwitch.perform
      [.createVlog s.core.nextFileNumber, .publish s.gcSwitch.manifest]).vlogFile n) =
      (if n = s.core.nextFileNumber then some .empty else Keyed.get? s.disk.vlogs n).getD .empty :=
    congrArg (Option.getD · File.empty) (get?_set s.disk.vlogs _ n _)
  rcases mem_append.mp hn with hn | hn
  · refine .same hn ?_
    rw [hfile, if_neg (ne_of_lt (hg.lt n hn))]
    rfl
  · obtain rfl := mem_singleton.mp hn
    refine .inr ⟨hg.lt _ (hg.current_mem hon), ?_⟩
    rw [hfile, if_pos rfl]
    rfl

theorem vlogFile_sync (s : DB) (n : Nat) :
    ((Keyed.get? (s.disk.applyAll s.syncEffects).vlogs n).getD .empty).bytes =
      (s.vlogFile n).bytes := by
  unfold syncEffects vlogFile
  cases s.opt.enableValueSeparation with
  | false => rfl
  | true =>
    change ((Keyed.get? (Keyed.modify s.disk.vlogs s.vlogCurrent File.sync) n).getD
      .empty).bytes = _
    rw [get?_modify]
    split
    · cases Keyed.get? s.disk.vlogs n <;> rfl
    · rfl

theorem get?_unlinkVlogs {ns : List Nat} {k : Nat} (hk : k ∉ ns) : ∀ d : Disk,
    Keyed.get? (d.applyAll (ns.map .unlinkVlog)).vlogs k = Keyed.get? d.vlogs k := by
  induction ns with
  | nil => exact fun _ => rfl
  | cons n ns ih =>
    intro d
    obtain ⟨hne, hk⟩ := not_or.mp (mt mem_cons.mpr hk)
    refine (ih hk (d.apply (.unlinkVlog n))).trans ?_
    exact (get?_erase d.vlogs n k).trans (if_neg hne)

/-- **What a step leaves of the generations**, of those that are still there. -/
theorem step_file (hg : s.GensOk) (hon : s.opt.enableValueSeparation = true)
    (hs : s.step op = some s') (hn : n ∈ s'.vlogs) : FileAfter s s' (s.appends op) n := by
  obtain ⟨_, hnext⟩ := step_cases hs
  cases hnext with
  | put => exact put_file hg hon _ _ _ hn
  | delete =>
    have hfile := put_file hg hon _ _ _ hn
    rwa [show s.appended .deletion _ [] = [] from rfl] at hfile
  | @installCompaction c x =>
    have hvlogs := (unlinkSsts_frame x.inputs
      (s.disk.apply (.publish (s.installed c).manifest))).2.1
    exact .same hn (congrArg (fun l => ((Keyed.get? l n).getD .empty).bytes) hvlogs)
  | gcStart => exact gcStart_file hg hon hn
  | @gcRewrite _ _ _ x _ hgc hlive =>
    have happ : s.appends .gcEntry = s.appended .value x.entry.key x.entry.value := by
      simp [appends, hgc, hlive]
    rw [happ]
    exact writeEntry_file hg hon .value x.entry.key x.entry.value hn
  | gcDead hgc hdead =>
    have happ : s.appends .gcEntry = [] := by simp [appends, hgc, hdead]
    rw [happ]
    exact .same hn rfl
  | gcRetire =>
    refine .same (mem_filter.mp hn).1 ?_
    unfold vlogFile perform
    rw [Disk.applyAll_append]
    exact vlogFile_sync s n
  | gcUnlink hgc =>
    have hfree := hg.gc
    rw [hgc] at hfree
    refine .same hn (congrArg (fun f : Option File => (f.getD .empty).bytes) ?_)
    exact get?_unlinkVlogs (fun hr => hfree n hr hn) s.disk
  | _ => exact .same hn rfl

theorem step_vlogCurrent (hg : s.GensOk) (hon : s.opt.enableValueSeparation = true)
    (hs : s.step op = some s') : s.vlogCurrent ≤ s'.vlogCurrent := by
  have hroom : s.makeRoom.vlogCurrent = s.vlogCurrent := by
    unfold makeRoom
    split <;> rfl
  obtain ⟨_, hnext⟩ := step_cases hs
  cases hnext with
  | put | delete => exact le_of_eq hroom.symm
  | gcStart => exact le_of_lt (hg.lt _ (hg.current_mem hon))
  | _ => exact le_rfl

/-- **Every step lets the generations grow.** -/
theorem step_grow (hg : s.GensOk) (hon : s.opt.enableValueSeparation = true)
    (hs : s.step op = some s') : VlogsGrow s s' := by
  refine ⟨step_vlogCurrent hg hon hs, fun n hn hle => ?_⟩
  rcases step_file hg hon hs hn with ⟨hn', hbytes⟩ | ⟨hlt, -⟩
  · exact ⟨hn', hbytes ▸ prefix_append _ _⟩
  · exact absurd hle (not_le.mpr hlt)

/-! ## One slot -/

/-- An inline value, or a pointer that leads to an entry of it. -/
def SlotOk (s : DB) (slot value : Bytes) : Prop :=
  (decodeValuePointer slot = none ∧ slot = value) ∨
  ∃ p key, slot = encodeValuePointer p ∧ p.Fits ∧ p.valueSize = value.length ∧
    key.length < 2 ^ 32 ∧ p.vlogNumber ≤ s.vlogCurrent ∧
    (p.vlogNumber ∈ s.vlogs →
      encodeEntry key value <+: (s.vlogFile p.vlogNumber).bytes.drop p.offset)

/-- The generation a slot points into is there. -/
def Reachable (s : DB) (slot : Bytes) : Prop :=
  ∀ p, decodeValuePointer slot = some p → p.vlogNumber ∈ s.vlogs

theorem SlotOk.grow (hs : s.SlotOk slot value) (hg : VlogsGrow s s') : s'.SlotOk slot value := by
  refine hs.imp_right ?_
  rintro ⟨p, key, hslot, hfit, hsize, hkey, hle, hentry⟩
  refine ⟨p, key, hslot, hfit, hsize, hkey, hle.trans hg.current, fun hn => ?_⟩
  obtain ⟨hn', hpre⟩ := hg.files _ hn hle
  exact (hentry hn').trans (hpre.drop p.offset)

theorem SlotOk.inline (hs : s.SlotOk slot value) (hnone : decodeValuePointer slot = none) :
    slot = value := by
  rcases hs with ⟨-, heq⟩ | ⟨p, key, rfl, hfit, -⟩
  · exact heq
  · rw [decode_encodeValuePointer hfit] at hnone
    cases hnone

/-- One `pread` takes in the entry that a slot points to. -/
def Short (s : DB) (slot value : Bytes) : Prop :=
  ∀ p, decodeValuePointer slot = some p → p.vlogNumber ∈ s.vlogs →
    getFixed32 ((s.vlogFile p.vlogNumber).bytes.drop (p.offset + 4)) + value.length ≤ kPreadMax

theorem SlotOk.entryAt (hs : s.SlotOk slot value) {p : ValuePointer}
    (hdec : decodeValuePointer slot = some p) :
    p.vlogNumber ≤ s.vlogCurrent ∧ p.valueSize = value.length ∧ (p.vlogNumber ∈ s.vlogs →
      ∃ key, EntryAt (s.vlogFile p.vlogNumber).bytes p.offset key value) := by
  rcases hs with ⟨hnone, -⟩ | ⟨q, key, rfl, hfit, hsize, hkey, hle, hentry⟩
  · rw [hnone] at hdec
    cases hdec
  · obtain rfl : q = p := Option.some.inj ((decode_encodeValuePointer hfit).symm.trans hdec)
    refine ⟨hle, hsize, fun hmem => ?_⟩
    obtain ⟨X, hX⟩ := hentry hmem
    exact ⟨key, entryAt_of_drop hkey (hsize ▸ hfit.valueSize) hX.symm⟩

theorem SlotOk.short_grow (hs : s.SlotOk slot value) (hshort : s.Short slot value)
    (hg : VlogsGrow s s') : s'.Short slot value := by
  intro p hdec hmem'
  obtain ⟨hle, -, hentry⟩ := hs.entryAt hdec
  obtain ⟨hmem, X, hX⟩ := hg.files _ hmem' hle
  obtain ⟨key, hat⟩ := hentry hmem
  have hlen := hat.length
  simp only [kEntryHeaderSize] at hlen
  have hklen := hshort p hdec hmem
  rwa [← hX, drop_append_of_le_length (by omega), getFixed32,
    getFixed_append (by rw [length_drop]; omega)]

/-- **A slot resolves to its value**, if its generation is there and one `pread` reads the
entry. -/
theorem SlotOk.resolve (hs : s.SlotOk slot value) (hon : s.opt.enableValueSeparation = true)
    (hshort : s.Short slot value) (hr : s.Reachable slot) : s.resolve slot = .ok value := by
  unfold DB.resolve
  rw [if_pos hon]
  cases hdec : decodeValuePointer slot with
  | none => exact congrArg Except.ok (hs.inline hdec)
  | some p =>
    have hmem := hr p hdec
    obtain ⟨-, hsize, hentry⟩ := hs.entryAt hdec
    obtain ⟨key, hat⟩ := hentry hmem
    have hfit := hshort p hdec hmem
    rw [hat.klen] at hfit
    simp only [if_pos hmem, hsize]
    exact hat.readValue hfit _

/-! ## New slots -/

/-- The numbers of the next pointer fit into its fields. -/
structure PointerFits (s : DB) : Prop where
  vlogNumber : s.vlogCurrent < 2 ^ 64
  offset : (s.vlogFile s.vlogCurrent).bytes.length < 2 ^ 64

theorem nextPointer_fits (hf : s.PointerFits) (value : Bytes) : (s.nextPointer value).Fits :=
  ⟨hf.vlogNumber, hf.offset, Nat.mod_lt _ (by decide)⟩

theorem decode_inline (hon : s.opt.enableValueSeparation = true)
    (hsep : ¬ s.separates .value value = true) : decodeValuePointer value = none := by
  simp only [separates, hon, decide_true, Bool.true_and, Bool.or_eq_true, not_or,
    Bool.not_eq_true] at hsep
  rw [decodeValuePointer, hsep.2]
  rfl

/-- **What `WriteEntry` stores** leads back to the value. -/
theorem slotOk_write (hg : s.GensOk) (hon : s.opt.enableValueSeparation = true) (hf : s.PointerFits)
    (hkey : key.length < 2 ^ 32) (hvalue : value.length < 2 ^ 32) :
    (s.writeEntry .value key value).SlotOk (s.slot .value value) value := by
  unfold slot
  split
  · next hsep =>
    refine .inr ⟨s.nextPointer value, key, rfl, nextPointer_fits hf value,
      Nat.mod_eq_of_lt hvalue, hkey, le_rfl, fun _ => ?_⟩
    have hbytes := vlogFile_write (hg.present _ (hg.current_mem hon)) .value key value s.vlogCurrent
    rw [if_pos rfl, vlogBytes, if_pos hsep] at hbytes
    change _ <+: ((s.writeEntry .value key value).vlogFile s.vlogCurrent).bytes.drop
      (s.vlogFile s.vlogCurrent).bytes.length
    rw [hbytes, drop_left' rfl]
  · next hsep => exact .inl ⟨decode_inline hon hsep, rfl⟩

theorem short_write (hg : s.GensOk) (hon : s.opt.enableValueSeparation = true)
    (hf : s.PointerFits) (hfit : ∀ e ∈ s.appended .value key value, EntryFits e) :
    (s.writeEntry .value key value).Short (s.slot .value value) value := by
  intro p hdec _
  unfold slot at hdec
  split at hdec
  · next hsep =>
    have hentry : key.length + value.length ≤ kPreadMax := hfit (key, value) (by
      rw [appended, if_pos hsep]; exact mem_singleton_self _)
    rw [decode_encodeValuePointer (nextPointer_fits hf value)] at hdec
    obtain rfl := Option.some.inj hdec
    have hbytes := vlogFile_write (hg.present _ (hg.current_mem hon)) .value key value s.vlogCurrent
    rw [if_pos rfl, vlogBytes, if_pos hsep] at hbytes
    have hmax : kPreadMax < 2 ^ 32 := by decide
    have hat : EntryAt ((s.writeEntry .value key value).vlogFile s.vlogCurrent).bytes
        (s.vlogFile s.vlogCurrent).bytes.length key value :=
      entryAt_of_drop (X := []) (by omega) (by omega) (by rw [hbytes, drop_left' rfl, append_nil])
    exact hat.klen.symm ▸ hentry
  · next hsep =>
    rw [decode_inline hon hsep] at hdec
    cases hdec

theorem slot_fresh (hg : s.GensOk) (hon : s.opt.enableValueSeparation = true) (hf : s.PointerFits)
    {old : Bytes} (hs : s.SlotOk (s.slot .value value) old) : value = old := by
  unfold slot at hs
  split at hs
  · rcases hs with ⟨hnone, -⟩ | ⟨p, key, hslot, hfit, -, -, -, hentry⟩
    · rw [decode_encodeValuePointer (nextPointer_fits hf value)] at hnone
      cases hnone
    · -- the same pointer would lead to an entry at the end of the file
      have hp : s.nextPointer value = p := by
        have hdec := decode_encodeValuePointer hfit
        rw [← hslot, decode_encodeValuePointer (nextPointer_fits hf value)] at hdec
        exact Option.some.inj hdec
      subst hp
      have hpre := hentry (hg.current_mem hon)
      change encodeEntry key old <+:
        (s.vlogFile s.vlogCurrent).bytes.drop (s.vlogFile s.vlogCurrent).bytes.length at hpre
      rw [drop_length] at hpre
      have hlen := hpre.length_le
      rw [length_encodeEntry] at hlen
      simp [kEntryHeaderSize] at hlen
  · next hsep => exact hs.inline (decode_inline hon hsep)

theorem step_vlogs (hop : op ≠ .gcRetire) (hs : s.step op = some s') :
    ∀ n ∈ s.vlogs, n ∈ s'.vlogs := by
  have hroom : s.makeRoom.vlogs = s.vlogs := by
    unfold makeRoom
    split <;> rfl
  obtain ⟨_, hn⟩ := step_cases hs
  intro n hn'
  cases hn with
  | put | delete => exact hroom.symm ▸ hn'
  | gcStart => exact mem_append_left _ hn'
  | gcRetire | gcAbort => exact absurd rfl hop
  | _ => exact hn'

theorem slot_gen (hon : s.opt.enableValueSeparation = true)
    (hf : s.separates .value value = true → s.PointerFits) {p : ValuePointer}
    (hdec : decodeValuePointer (s.slot .value value) = some p) : p.vlogNumber = s.vlogCurrent := by
  unfold slot at hdec
  split at hdec
  · next hsep =>
    rw [decode_encodeValuePointer (nextPointer_fits (hf hsep) value)] at hdec
    rw [← Option.some.inj hdec]
    rfl
  · next hsep =>
    rw [decode_inline hon hsep] at hdec
    cases hdec

theorem slot_reachable (hg : s.GensOk) (hon : s.opt.enableValueSeparation = true)
    (hf : s.PointerFits) (value : Bytes) : s.Reachable (s.slot .value value) := by
  intro p hdec
  rw [slot_gen hon (fun _ => hf) hdec]
  exact hg.current_mem hon

/-! ## Everything that was written -/

/-- The slots a step stores, each with the value it was made for. -/
def stores (s : DB) : Op → List (Bytes × Bytes)
  | .put _ value => [(s.slot .value value, value)]
  | .gcEntry =>
    match s.gc with
    | .scanning _ _ (x :: _) _ false =>
      if s.isLive x then [(s.slot .value x.entry.value, x.entry.value)] else []
    | _ => []
  | _ => []

/-- The version has a slot that was stored. -/
def Slotted (st : List (Bytes × Bytes)) (e : Entry) : Prop :=
  e.type = .value → ∃ value, (e.value, value) ∈ st

theorem Slotted.mono {st st' : List (Bytes × Bytes)} {e : Entry} (h : Slotted st e) :
    Slotted (st ++ st') e := by
  intro ht
  obtain ⟨value, hmem⟩ := h ht
  exact ⟨value, mem_append_left _ hmem⟩

theorem mem_written_gcEntry {e : Entry} (he : e ∈ s.written .gcEntry) :
    ∃ x : GcItem, s.stores .gcEntry = [(s.slot .value x.entry.value, x.entry.value)] ∧
      e = s.record .value x.entry.key x.entry.value := by
  simp only [written] at he
  split at he
  · next x _ _ hgc =>
    split at he
    · next hlive => exact ⟨x, by simp [stores, hgc, hlive], mem_singleton.mp he⟩
    · cases he
  · cases he

theorem slotted_written (s : DB) (op : Op) : ∀ e ∈ s.written op, Slotted (s.stores op) e := by
  intro e he ht
  cases op with
  | put key value =>
    obtain rfl := mem_singleton.mp he
    exact ⟨value, mem_singleton_self _⟩
  | delete key =>
    obtain rfl := mem_singleton.mp he
    cases ht
  | gcEntry =>
    obtain ⟨x, hx, rfl⟩ := mem_written_gcEntry he
    exact ⟨x.entry.value, hx ▸ mem_singleton_self _⟩
  | _ => cases he

/-- The MANIFEST names the generations, or the first is still to be named. -/
def Named (s : DB) : Prop :=
  s.disk.manifestState.vlogs = s.vlogs ∨ s.disk.manifestState.vlogs = [] ∧ s.vlogs = [1]

theorem Named.step (hi : s.core.Inv h) (hn : s.Named) (hs : s.step op = some s') : s'.Named := by
  rcases step_publishes hi hs with ⟨hu, -, hvlogs⟩ | hman
  · unfold Named Disk.manifestState
    rw [hu.manifest, hvlogs]
    exact hn
  · refine .inl ?_
    rw [Disk.manifestState, hman]
    rfl

/-- The whole logs, and the versions in them. -/
def LogsSlotted (st : List (Bytes × Bytes)) (s : DB) : Prop :=
  ∀ p ∈ s.disk.logs, p.2.Whole ∧ ∀ e ∈ p.2.entries, Slotted st e

structure SlotsOk (st : List (Bytes × Bytes)) (s : DB) : Prop where
  on : s.opt.enableValueSeparation = true
  inv : ∃ h, s.core.Inv h ∧ ∀ e ∈ h, Slotted st e
  files : s.FilesOk
  seqs : s.SeqsOk
  gens : s.GensOk
  named : s.Named
  logs : s.LogsSlotted st
  slots : ∀ q ∈ st, s.SlotOk q.1 q.2
  unique : ∀ slot v w, (slot, v) ∈ st → (slot, w) ∈ st → v = w

/-! ## Every step -/

variable {st : List (Bytes × Bytes)}

section

variable (hl : s.LogsSlotted st)
include hl

theorem LogsSlotted.of_sub (hsub : ∀ p ∈ s'.disk.logs, p ∈ s.disk.logs)
    (es : List (Bytes × Bytes)) : s'.LogsSlotted (st ++ es) :=
  fun p hp => ⟨(hl p (hsub p hp)).1, fun e he => ((hl p (hsub p hp)).2 e he).mono⟩

theorem LogsSlotted.modify_sync (hlogs : s'.disk.logs = Keyed.modify s.disk.logs n File.sync)
    (es : List (Bytes × Bytes)) : s'.LogsSlotted (st ++ es) := by
  intro p hp
  rw [hlogs] at hp
  obtain ⟨f, hf, hpf⟩ := mem_modify.mp hp
  obtain ⟨hwhole, hslot⟩ := hl _ hf
  rw [hpf]
  split
  · exact ⟨hwhole.sync, fun e he => (hslot e he).mono⟩
  · exact ⟨hwhole, fun e he => (hslot e he).mono⟩

theorem rotate_logsSlotted : s.rotateForFlush.LogsSlotted st := by
  intro p hp
  obtain ⟨f, hf, hpf⟩ := mem_modify.mp hp
  have hfile : f.Whole ∧ ∀ e ∈ f.entries, Slotted st e := by
    rcases mem_set.mp hf with ⟨hf, -⟩ | hf
    · exact hl _ hf
    · obtain ⟨-, rfl⟩ := Prod.mk.inj hf
      exact ⟨File.whole_empty.1, by simp [File.whole_empty.2]⟩
  rw [hpf]
  split
  · exact ⟨hfile.1.sync, hfile.2⟩
  · exact hfile

theorem writeEntry_logsSlotted (hq : s.SeqsOk) {type : ValueType}
    (hfit : (s.record type key value).Fits) {es : List (Bytes × Bytes)}
    (hslot : Slotted es (s.record type key value)) :
    (s.writeEntry type key value).LogsSlotted (st ++ es) := by
  intro p hp
  rcases mem_logs_writeEntry hq hp with hp | ⟨hnum, hfile⟩
  · exact ⟨(hl p hp).1, fun e he => ((hl p hp).2 e he).mono⟩
  · obtain ⟨older, hold, -⟩ := hq.logs_concat
    have hlog : (s.logNumber, s.logFile) ∈ s.disk.logs :=
      hold ▸ mem_append_right _ (mem_singleton_self _)
    obtain ⟨hwhole, hentries⟩ := (hl _ hlog).1.append hfit
    have hall : ∀ e ∈ s.logFile.entries ++ [s.record type key value], Slotted (st ++ es) e := by
      intro e he
      rcases mem_append.mp he with he | he
      · exact ((hl _ hlog).2 e he).mono
      · obtain rfl := mem_singleton.mp he
        intro ht
        obtain ⟨v, hv⟩ := hslot ht
        exact ⟨v, mem_append_right _ hv⟩
    rw [← hentries] at hall
    rcases hfile with hfile | hfile <;> rw [hfile]
    · exact ⟨hwhole, hall⟩
    · exact ⟨hwhole.sync, hall⟩

theorem put_logsSlotted (hq : s.SeqsOk) {type : ValueType} (hfit : (s.record type key value).Fits)
    {es : List (Bytes × Bytes)} (hslot : Slotted es (s.record type key value)) :
    (s.makeRoom.writeEntry type key value).LogsSlotted (st ++ es) := by
  rw [← makeRoom_record] at hfit hslot
  refine writeEntry_logsSlotted ?_ (makeRoom_seqsOk hq) hfit hslot
  unfold makeRoom
  split
  · exact rotate_logsSlotted hl
  · exact hl

theorem LogsSlotted.step (hq : s.SeqsOk) (hfits : ∀ e ∈ s.written op, e.Fits)
    (hs : s.step op = some s') : s'.LogsSlotted (st ++ s.stores op) := by
  have hslot := slotted_written s op
  obtain ⟨_, hn⟩ := step_cases hs
  cases hn with
  | put | delete =>
    exact put_logsSlotted hl hq (hfits _ (mem_singleton_self _)) (hslot _ (mem_singleton_self _))
  | rotate => exact (append_nil st).symm ▸ rotate_logsSlotted hl
  | flushDone => exact hl.of_sub (fun p hp => (mem_erase.mp hp).1) _
  | @installCompaction c x =>
    have hlogs := (unlinkSsts_frame x.inputs
      (s.disk.apply (.publish (s.installed c).manifest))).1
    exact hl.of_sub (fun p hp => (congrArg (p ∈ ·) hlogs).mp hp) _
  | @gcRewrite _ _ _ x todo hgc hlive =>
    have hmem : s.record .value x.entry.key x.entry.value ∈ s.written .gcEntry := by
      simp [written, hgc, hlive]
    exact writeEntry_logsSlotted hl hq (hfits _ hmem) (hslot _ hmem)
  | gcRetire =>
    obtain ⟨vlogs, -, hdisk⟩ := syncEffects_disk s
    refine hl.modify_sync (n := s.logNumber) ?_ _
    unfold perform
    rw [Disk.applyAll_append]
    exact (congrArg Disk.logs hdisk :)
  | @gcUnlink retired =>
    refine hl.of_sub (fun p hp => ?_) _
    exact (congrArg (p ∈ ·) (unlinkVlogs_frame retired s.disk).1).mp hp
  | _ => exact hl.of_sub (fun _ hp => hp) _

end

/-- The step's writes can be logged, and its pointer fits into its fields. -/
structure Storable (s : DB) (op : Op) : Prop where
  loggable : s.Loggable op
  pointer : s.PointerFits

theorem makeRoom_gensOk (hg : s.GensOk) : s.makeRoom.GensOk := by
  unfold makeRoom
  split
  · exact rotate_gensOk hg
  · exact hg

theorem makeRoom_opt (s : DB) : s.makeRoom.opt = s.opt := by
  unfold makeRoom
  split <;> rfl

theorem makeRoom_pointerFits (hf : s.PointerFits) : s.makeRoom.PointerFits := by
  unfold makeRoom
  split
  · exact ⟨hf.vlogNumber, hf.offset⟩
  · exact hf

theorem stores_cases (hg : s.GensOk) (hon : s.opt.enableValueSeparation = true)
    (hst : s.Storable op) (hs : s.step op = some s') :
    s.stores op = [] ∨ ∃ value, s.stores op = [(s.slot .value value, value)] ∧
      s'.SlotOk (s.slot .value value) value := by
  obtain ⟨hlog, hf⟩ := hst
  obtain ⟨_, hn⟩ := step_cases hs
  cases hn with
  | @put key value =>
    refine .inr ⟨value, rfl, ?_⟩
    rw [← makeRoom_slot]
    have hkey : key.length < 2 ^ 32 := lt_of_le_of_lt (Nat.le_add_right _ _) hlog.2.1
    exact slotOk_write (makeRoom_gensOk hg) ((makeRoom_opt s).symm ▸ hon)
      (makeRoom_pointerFits hf) hkey hlog.2.2
  | @gcRewrite _ _ _ x _ hgc hlive =>
    simp only [Loggable, hgc] at hlog
    have hkey : x.entry.key.length < 2 ^ 32 := lt_of_le_of_lt (Nat.le_add_right _ _) hlog.2.1
    exact .inr ⟨x.entry.value, by simp [stores, hgc, hlive], slotOk_write hg hon hf hkey hlog.2.2⟩
  | gcDead hgc hdead => exact .inl (by simp [stores, hgc, hdead])
  | _ => exact .inl rfl

/-- If one `pread` takes in what the step appends, it takes in what its slot points to. -/
theorem stores_short (hg : s.GensOk) (hon : s.opt.enableValueSeparation = true)
    (hf : s.PointerFits) (hfit : ∀ e ∈ s.appends op, EntryFits e) (hs : s.step op = some s') :
    ∀ q ∈ s.stores op, s'.Short q.1 q.2 := by
  obtain ⟨_, hn⟩ := step_cases hs
  intro q hq
  cases hn with
  | @put key value =>
    rw [mem_singleton.mp hq, ← makeRoom_slot]
    refine short_write (makeRoom_gensOk hg) ((makeRoom_opt s).symm ▸ hon)
      (makeRoom_pointerFits hf) fun e he => hfit e ?_
    rwa [appended, separates_congr (makeRoom_opt s)] at he
  | @gcRewrite _ _ _ x _ hgc hlive =>
    rw [show s.stores .gcEntry = [(s.slot .value x.entry.value, x.entry.value)] by
      simp [stores, hgc, hlive]] at hq
    rw [mem_singleton.mp hq]
    refine short_write hg hon hf fun e he => hfit e ?_
    rwa [show s.appends .gcEntry = s.appended .value x.entry.key x.entry.value by
      simp [appends, hgc, hlive]]
  | gcDead hgc hdead =>
    rw [show s.stores .gcEntry = [] by simp [stores, hgc, hdead]] at hq
    cases hq
  | _ => cases hq

theorem SlotsOk.life (hk : SlotsOk st s) : s.LifeOk := by
  obtain ⟨h, hi, -⟩ := hk.inv
  exact ⟨⟨h, hi⟩, hk.files, hk.seqs⟩

theorem fresh_slotsOk {opt : Options} (hon : opt.enableValueSeparation = true) :
    SlotsOk [] (fresh opt) where
  on := hon
  inv := ⟨[], Lsm.fresh_inv opt, nofun⟩
  files := fresh_filesOk opt
  seqs := fresh_seqsOk opt
  gens := fresh_gensOk opt
  named := by
    refine .inr ⟨rfl, ?_⟩
    simp [fresh, hon]
  logs := by
    intro p hp
    obtain rfl := mem_singleton.mp hp
    exact ⟨File.whole_empty.1, by simp [File.whole_empty.2]⟩
  slots := nofun
  unique := nofun

/-- **Every step keeps the slots.** -/
theorem SlotsOk.step (hk : SlotsOk st s) (hst : s.Storable op) (hs : s.step op = some s') :
    SlotsOk (st ++ s.stores op) s' := by
  obtain ⟨h, hi, hslotted⟩ := hk.inv
  have hgrow := step_grow hk.gens hk.on hs
  have hcases := stores_cases hk.gens hk.on hst hs
  have hold : ∀ q ∈ st, s'.SlotOk q.1 q.2 := fun q hq => (hk.slots q hq).grow hgrow
  have hfits := hst.loggable.fits
  refine
    { on := (step_opt hi hs).symm ▸ hk.on
      inv := ⟨_, (step_core hs).inv hi, fun e he => ?_⟩
      files := hk.files.step hi hs
      seqs := hk.seqs.step hi (fun e he => (hfits e he).seq) hs
      gens := hk.gens.step hi hk.files.metaInv.next hs
      named := hk.named.step hi hs
      logs := hk.logs.step hk.seqs hfits hs
      slots := fun q hq => ?_
      unique := fun slot v w hv hw => ?_ }
  · rcases mem_append.mp he with he | he
    · exact (hslotted e he).mono
    · intro ht
      obtain ⟨v, hv⟩ := slotted_written s op e he ht
      exact ⟨v, mem_append_right _ hv⟩
  · rcases mem_append.mp hq with hq | hq
    · exact hold q hq
    · rcases hcases with hnil | ⟨value, hone, hok⟩
      · rw [hnil] at hq
        cases hq
      · rw [hone] at hq
        rw [mem_singleton.mp hq]
        exact hok
  · have hnew : ∀ {slot v w}, (slot, v) ∈ s.stores op → (slot, w) ∈ st → v = w := by
      intro slot v w hv hw
      rcases hcases with hnil | ⟨value, hone, -⟩
      · rw [hnil] at hv
        cases hv
      · rw [hone] at hv
        obtain ⟨rfl, rfl⟩ := Prod.mk.inj (mem_singleton.mp hv)
        exact slot_fresh hk.gens hk.on hst.pointer (hk.slots _ hw)
    rcases mem_append.mp hv with hv | hv <;> rcases mem_append.mp hw with hw | hw
    · exact hk.unique slot v w hv hw
    · exact (hnew hw hv).symm
    · exact hnew hv hw
    · rcases hcases with hnil | ⟨value, hone, -⟩
      · rw [hnil] at hv
        cases hv
      · rw [hone] at hv hw
        exact (Prod.mk.inj (mem_singleton.mp hv)).2.trans
          (Prod.mk.inj (mem_singleton.mp hw)).2.symm

/-! ## Restarts -/

section Reopen

variable {opt : Options} {r : DB}

theorem Named.liveVlogs (hn : s.Named) (hg : s.GensOk) (hon : s.opt.enableValueSeparation = true)
    (hon' : opt.enableValueSeparation = true) : liveVlogs opt s.disk.manifestState = s.vlogs := by
  unfold DB.liveVlogs
  rw [if_pos hon']
  rcases hn with hn | ⟨hn, hone⟩ <;> rw [hn]
  · rw [if_neg (ne_nil_of_mem (hg.current_mem hon))]
  · rw [if_pos rfl, hone]

theorem SlotsOk.reopen_vlogs (hk : SlotsOk st s) (hon : opt.enableValueSeparation = true)
    (refs : List TableRef) : (opened opt s.disk refs).vlogs = s.vlogs ∧
      (opened opt s.disk refs).disk.vlogs =
        s.disk.vlogs.filter fun p => decide (p.1 ∈ s.vlogs) := by
  have hlive := hk.named.liveVlogs hk.gens hk.on hon
  refine ⟨hlive, ?_⟩
  change ((liveVlogs opt s.disk.manifestState).foldl openVlog s.disk.vlogs).filter
    (fun p => decide (p.1 ∈ liveVlogs opt s.disk.manifestState)) = _
  rw [hlive, openVlog_of_present hk.gens.present]

theorem SlotsOk.reopen_grow (hk : SlotsOk st s) (hon : opt.enableValueSeparation = true)
    (refs : List TableRef) : VlogsGrow s (opened opt s.disk refs) := by
  obtain ⟨hvlogs, hdisk⟩ := hk.reopen_vlogs hon refs
  have hcur : (opened opt s.disk refs).vlogCurrent = s.vlogCurrent := by
    change ((opened opt s.disk refs).vlogs.getLast?).getD 0 = _
    rw [hvlogs, hk.gens.on hk.on]
    rfl
  refine ⟨le_of_eq hcur.symm, fun n hn _ => ?_⟩
  rw [hvlogs] at hn
  refine ⟨hn, ?_⟩
  unfold vlogFile
  rw [hdisk, get?_filter s.disk.vlogs (fun k => decide (k ∈ s.vlogs)), if_pos (decide_eq_true hn)]

theorem SlotsOk.reopen_logs (hk : SlotsOk st s) (refs : List TableRef) :
    ∀ p ∈ (opened opt s.disk refs).disk.logs, p ∈ s.disk.logs := by
  intro p hp
  obtain ⟨q, hq, rfl⟩ := mem_map.mp hp
  have hreplay : logsToReplay s.disk s.disk.floor = _ :=
    Disk.logsToReplay_eq hk.seqs.ascending hk.seqs.log hk.seqs.floor_le
  have hmem : q ∈ s.disk.logs := mem_of_mem_filter (hreplay ▸ hq)
  simp only [replayedFile, (hk.logs q hmem).1.truncatedAt]
  exact hmem

/-- **A restart with separation on keeps the slots.** -/
theorem SlotsOk.reopen (hk : SlotsOk st s) (hon : opt.enableValueSeparation = true)
    (hopen : openDb opt s.disk = .ok r) : SlotsOk st r := by
  obtain ⟨hr, hcur, hinv⟩ := hk.life.opened hopen
  obtain ⟨refs, hvalid, -⟩ := openDb_eq_ok.mp hopen
  obtain ⟨h, hi, hslotted⟩ := hk.inv
  have hlife := hk.life.reopen hopen
  have hgrow : VlogsGrow s r := hr ▸ hk.reopen_grow hon _
  have hlogs : ∀ p ∈ r.disk.logs, p ∈ s.disk.logs := hr ▸ hk.reopen_logs _
  refine
    { on := by rw [hr]; exact hon
      inv := ⟨_, hinv, fun e he => ?_⟩
      files := hlife.files
      seqs := hlife.seqs
      gens := hr ▸ opened_gensOk hvalid.2.2
      named := ?_
      logs := fun p hp => hk.logs p (hlogs p hp)
      slots := fun q hq => (hk.slots q hq).grow hgrow
      unique := hk.unique }
  · rcases mem_append.mp he with he | he
    · obtain ⟨p, hp, -, he⟩ := Disk.mem_liveEntries.mp he
      exact (hk.logs p hp).2 e he
    · exact hslotted e (hi.contents.sub e
        (mem_append_right _ (mem_append_right _ he)))
  · have hvlogs : r.vlogs = s.vlogs := hr ▸ (hk.reopen_vlogs hon _).1
    have hms : r.disk.manifestState = s.disk.manifestState := by rw [hr]; rfl
    unfold Named
    rw [hvlogs, hms]
    exact hk.named

end Reopen

/-! ## A database with separation -/

/-- Value separation, with the threshold of the source. -/
def separatedOptions : Options := { Lsm.smallOptions with enableValueSeparation := true }

/-- A value that could be taken for a pointer. -/
def sampleShape : Bytes := 0xFF :: List.replicate 20 0

theorem fresh_slot_long (hlen : value.length = 2 ^ 32) :
    (fresh separatedOptions).slot .value value = encodeValuePointer ⟨1, 0, 0⟩ := by
  have hthr : (fresh separatedOptions).vsepThreshold = 1024 := rfl
  have hon : (fresh separatedOptions).opt.enableValueSeparation = true := rfl
  have hsep : (fresh separatedOptions).separates .value value = true := by
    simp [separates, hon, hthr, hlen]
  rw [slot, if_pos hsep, nextPointer, hlen]
  rfl

end DB

end BedrockKV
