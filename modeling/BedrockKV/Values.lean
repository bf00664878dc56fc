/-
# `BedrockKV.Values` — what readers see while the value log is collected

`RunVlogGC` rewrites entries under fresh numbers between whatever writers and
readers do, and unlinks the generations it has emptied.  What a user may see of
it is nothing: `UserState` is the map the user wrote, with a copy of it for
every snapshot, and only the user's own calls change it.

    Means       a slot and the user's value: the value itself, or a pointer to
                an entry with the key and the value, on the walk of its generation
    Collecting  every latest pointer into a generation to be retired is among
                the entries still to be looked at
    ValuesOk    every latest slot means what the user last wrote, and every slot
                at a live snapshot what the user had written then

`run_values`: along every run whose sizes fit, every `Get` returns what the
user's state says.
-/
import BedrockKV.Slots

namespace BedrockKV

open List Log MultiVersion

/-! ## Lookups along a step -/

namespace DB

variable {S : ReadSeq} {n : Nat} {retired : List Nat} {todo : List GcItem} {key slot value : Bytes}
  {new : List (Bytes × Bytes)} {op : Op}

theorem CoreStep.lookup_hidden {c c' : Lsm} {es h : List Entry} (hs : CoreStep c c' es)
    (hi : c.Inv h) (hS : c.Live S) (hS' : c'.Live S) (hhid : ∀ e ∈ es, ¬ WithTop.some e.seq ≤ S)
    (key : Bytes) : (c'.lookup key S).toOption = (c.lookup key S).toOption := by
  have hi' := hs.inv hi
  refine (Lsm.lookup_reads hi' hS' key).unique hi'.contents.distinct ?_
  refine (View.reads_visible_congr fun x hx => ?_).mpr (Lsm.lookup_reads hi hS key)
  refine ⟨fun hmem => ?_, mem_append_left _⟩
  exact (mem_append.mp hmem).resolve_right fun hnew => hhid x hnew hx.2

theorem CoreStep.lookup_write {c c' : Lsm} {e : Entry} {h : List Entry} (hs : CoreStep c c' [e])
    (hi : c.Inv h) (hseq : e.seq = c.nextSeq) (key : Bytes) :
    (c'.lookup key kMaxSeq).toOption =
      if e.user = key then entryView.val e else (c.lookup key kMaxSeq).toOption := by
  have hi' := hs.inv hi
  have hread := Lsm.lookup_reads hi (.inl rfl) key
  refine (Lsm.lookup_reads hi' (.inl rfl) key).unique hi'.contents.distinct ?_
  have hmem : ∀ x, x ∈ h ++ [e] ↔ x = e ∨ x ∈ h := fun x => by simp [or_comm]
  split
  · next hkey =>
    refine .inl ⟨e, View.isNewest_insert hmem ?_ ⟨hkey, le_top⟩, rfl⟩
    exact fun x hx => (hi.contents.seq_lt x hx).trans_eq hseq.symm
  · next hkey => exact (View.reads_insert_hidden hmem fun hv => hkey hv.1).mpr hread

/-! ## What a slot means -/

variable {pl : Platform} {s s' : DB} {h : List Entry}

/-- The slot of a version of `key` stands for `value`: it is the value, or a
pointer to an entry of both on the walk of its generation. -/
def Means (s : DB) (key slot value : Bytes) : Prop :=
  (decodeValuePointer slot = none ∧ slot = value) ∨
  ∃ p, decodeValuePointer slot = some p ∧ p.vlogNumber ∈ s.vlogs ∧ p.valueSize = value.length ∧
    ⟨key, value, p.offset⟩ ∈ scanEntries (s.vlogFile p.vlogNumber).bytes

/-- Every generation is a concatenation of whole entries. -/
def Walkable (s : DB) : Prop := ∀ n ∈ s.vlogs, WholeEntries (s.vlogFile n).bytes

theorem GensOk.le_current (hg : s.GensOk) (hon : s.opt.enableValueSeparation = true)
    (hn : n ∈ s.vlogs) : n ≤ s.vlogCurrent := by
  obtain ⟨init, hinit⟩ := getLast?_eq_some_iff.mp (hg.on hon)
  have hasc := (pairwise_cons.mp hg.ascending).2
  rw [hinit] at hn hasc
  rcases mem_append.mp hn with hn | hn
  · exact le_of_lt ((pairwise_append.mp hasc).2.2 n hn _ (mem_singleton_self _))
  · exact le_of_eq (mem_singleton.mp hn)

theorem GensOk.retired_mem (hg : s.GensOk) {fresh rewritten : Nat} {drain : Bool}
    (hgc : s.gc = .scanning fresh retired todo rewritten drain) (hn : n ∈ retired) :
    n ∈ s.vlogs := by
  have hok := hg.gc
  rw [hgc] at hok
  exact (show s.vlogs = retired ++ [fresh] from hok) ▸ mem_append_left _ hn

theorem GensOk.current_not_retired (hg : s.GensOk) (hon : s.opt.enableValueSeparation = true)
    {fresh rewritten : Nat} {drain : Bool}
    (hgc : s.gc = .scanning fresh retired todo rewritten drain) : s.vlogCurrent ∉ retired := by
  have hok := hg.gc
  rw [hgc] at hok
  have hvlogs : s.vlogs = retired ++ [fresh] := hok
  have hlast := hg.on hon
  have hasc := (pairwise_cons.mp hg.ascending).2
  rw [hvlogs] at hlast hasc
  rw [getLast?_concat] at hlast
  intro hmem
  have hlt := (pairwise_append.mp hasc).2.2 _ hmem fresh (mem_singleton_self _)
  exact absurd (Option.some.inj hlast) (ne_of_gt hlt)

theorem Means.resolve (hm : s.Means key slot value) (hon : s.opt.enableValueSeparation = true)
    (hw : s.Walkable) : s.resolve slot = .ok value := by
  unfold DB.resolve
  rw [if_pos hon]
  rcases hm with ⟨hnone, rfl⟩ | ⟨p, hdec, hgen, hsize, hscan⟩
  · rw [hnone]
  · rw [hdec]
    simp only [if_pos hgen, hsize]
    exact ((hw _ hgen).entryAt hscan).readValue ((hw _ hgen).fits hscan) _

/-- The generations that are left have what they had, and whole entries behind it. -/
structure Grown (s s' : DB) (new : List (Bytes × Bytes)) : Prop where
  fits : ∀ e ∈ new, EntryFits e
  files : ∀ n ∈ s'.vlogs, FileAfter s s' new n

theorem Grown.walkable (hg : Grown s s' new) (hw : s.Walkable) : s'.Walkable := by
  intro n hn
  rcases hg.files n hn with ⟨hn', hbytes⟩ | ⟨-, hempty⟩
  · rw [hbytes]
    refine (hw n hn').append fun e he => ?_
    split at he
    · exact hg.fits e he
    · cases he
  · rw [hempty]
    exact wholeEntries_nil

theorem Grown.scan (hg : Grown s s' new) (hw : s.Walkable) (hn : n ∈ s'.vlogs)
    (hle : n ≤ s.vlogCurrent) {x : ScannedEntry} (hx : x ∈ scanEntries (s.vlogFile n).bytes) :
    x ∈ scanEntries (s'.vlogFile n).bytes := by
  rcases hg.files n hn with ⟨hn', hbytes⟩ | ⟨hlt, -⟩
  · rw [hbytes, (hw n hn').scan_append fun e he => ?_]
    · exact mem_append_left _ hx
    · split at he
      · exact hg.fits e he
      · cases he
  · exact absurd hle (not_le.mpr hlt)

theorem Means.grown (hm : s.Means key slot value) (hg : Grown s s' new) (hw : s.Walkable)
    (hle : ∀ n ∈ s.vlogs, n ≤ s.vlogCurrent)
    (hgen : ∀ p, decodeValuePointer slot = some p → p.vlogNumber ∈ s'.vlogs) :
    s'.Means key slot value := by
  refine hm.imp_right ?_
  rintro ⟨p, hdec, hgen', hsize, hscan⟩
  exact ⟨p, hdec, hgen p hdec, hsize, hg.scan hw (hgen p hdec) (hle _ hgen') hscan⟩

/-- **A write's slot means its value** afterwards. -/
theorem means_slot (hgens : s.GensOk) (hon : s.opt.enableValueSeparation = true) (hw : s.Walkable)
    (hg : Grown s s' (s.appended .value key value))
    (hf : s.separates .value value = true → s.PointerFits) (hcur' : s.vlogCurrent ∈ s'.vlogs) :
    s'.Means key (s.slot .value value) value := by
  unfold slot
  split
  · next hsep =>
    have hcur := hgens.current_mem hon
    have hentry : EntryFits (key, value) := hg.fits _ (by simp [appended, hsep])
    have hvalue : value.length < 2 ^ 32 := by
      have : key.length + value.length ≤ kPreadMax := hentry
      have : kPreadMax < 2 ^ 32 := by decide
      omega
    refine .inr ⟨_, decode_encodeValuePointer (nextPointer_fits (hf hsep) value), hcur',
      Nat.mod_eq_of_lt hvalue, ?_⟩
    rcases hg.files _ hcur' with ⟨-, hbytes⟩ | ⟨hlt, -⟩
    · rw [if_pos rfl, appended, if_pos hsep] at hbytes
      change _ ∈ scanEntries (s'.vlogFile s.vlogCurrent).bytes
      rw [hbytes, (hw _ hcur).scan_append fun e he => by
        rw [mem_singleton.mp he]; exact hentry]
      exact mem_append_right _ (mem_singleton_self _)
    · exact absurd hlt (lt_irrefl _)
  · next hsep => exact .inl ⟨decode_inline hon hsep, rfl⟩

/-! ## The user's state -/

/-- What the user has written, now and at the time of every snapshot, by the
handle of the snapshot. -/
structure UserState where
  map : Bytes → Option Bytes
  snapshot : Nat → Bytes → Option Bytes
  nextHandle : Nat

/-- Only the user's own calls change it. -/
def UserState.step (u : UserState) : Op → UserState
  | .put key value => { u with map := Function.update u.map key (some value) }
  | .delete key => { u with map := Function.update u.map key none }
  | .getSnapshot =>
    { u with
      snapshot := Function.update u.snapshot u.nextHandle u.map
      nextHandle := u.nextHandle + 1 }
  | _ => u

def UserState.run (u : UserState) (tr : List Op) : UserState := tr.foldl UserState.step u

/-- The entries still to be looked at are there, and every latest pointer into
a generation to be retired is to one of them. -/
structure Awaits (s : DB) (retired : List Nat) (todo : List GcItem) : Prop where
  items : ∀ x ∈ todo, x.gen ∈ retired ∧ x.entry ∈ scanEntries (s.vlogFile x.gen).bytes
  covers : ∀ key slot p, (s.core.lookup key kMaxSeq).toOption = some slot →
    decodeValuePointer slot = some p → p.vlogNumber ∈ retired →
    ∃ x ∈ todo, x.gen = p.vlogNumber ∧ x.entry.offset = p.offset ∧ x.entry.key = key

def Collecting (s : DB) : Prop :=
  ∀ fresh retired todo rewritten drain, s.gc = .scanning fresh retired todo rewritten drain →
    s.Awaits retired todo

theorem isLive_iff {x : GcItem} : s.isLive x = true ↔ ∃ slot p,
    (s.core.lookup x.entry.key kMaxSeq).toOption = some slot ∧ decodeValuePointer slot = some p ∧
      p.vlogNumber = x.gen ∧ p.offset = x.entry.offset := by
  unfold isLive
  cases s.core.lookup x.entry.key kMaxSeq with
  | found stored =>
    cases hdec : decodeValuePointer stored with
    | none | some p => simp [Lookup.toOption, hdec]
  | deleted | missing => simp [Lookup.toOption]

theorem Awaits.tail {x : GcItem} (ha : s.Awaits retired (x :: todo)) (hdead : s.isLive x = false) :
    s.Awaits retired todo := by
  refine ⟨fun y hy => ha.items y (mem_cons_of_mem _ hy), fun key slot p hlook hdec hret => ?_⟩
  obtain ⟨y, hy, hgen, hoff, hkey⟩ := ha.covers key slot p hlook hdec hret
  rcases mem_cons.mp hy with rfl | hy
  · have hlive := isLive_iff.mpr ⟨slot, p, hkey.symm ▸ hlook, hdec, hgen.symm, hoff.symm⟩
    rw [hdead] at hlive
    cases hlive
  · exact ⟨y, hy, hgen, hoff, hkey⟩

/-- While no new pointer leads into a generation to be retired, nothing more
has to be waited for. -/
theorem Awaits.grown (ha : s.Awaits retired todo) (hg : Grown s s' new) (hw : s.Walkable)
    (hret : ∀ n ∈ retired, n ∈ s'.vlogs ∧ n ≤ s.vlogCurrent)
    (hlook : ∀ key slot p, (s'.core.lookup key kMaxSeq).toOption = some slot →
      decodeValuePointer slot = some p → p.vlogNumber ∈ retired →
      (s.core.lookup key kMaxSeq).toOption = some slot) :
    s'.Awaits retired todo := by
  refine ⟨fun x hx => ?_, fun key slot p hl hdec hmem => ?_⟩
  · obtain ⟨hgen, hscan⟩ := ha.items x hx
    obtain ⟨hn, hle⟩ := hret _ hgen
    exact ⟨hgen, hg.scan hw hn hle hscan⟩
  · exact ha.covers key slot p (hlook key slot p hl hdec hmem) hdec hmem

/-! ## Every step -/

/-- One `pread` takes in every entry of the value log, and its pointer fits into
its fields. -/
def EntriesFit (s : DB) : Op → Prop
  | .put key value => s.separates .value value = true →
      key.length + value.length ≤ kPreadMax ∧ s.PointerFits
  | .gcEntry => s.PointerFits
  | _ => True

structure ValuesOk (u : UserState) (s : DB) : Prop where
  on : s.opt.enableValueSeparation = true
  inv : ∃ h, s.core.Inv h
  gens : s.GensOk
  walk : s.Walkable
  latest : ∀ key, Option.Rel (s.Means key) (s.core.lookup key kMaxSeq).toOption (u.map key)
  snapshot : ∀ sn ∈ s.core.snapshots, ∀ key, Option.Rel (s.Means key)
    (s.core.lookup key (WithTop.some sn.sequence)).toOption (u.snapshot sn.handle key)
  handles : ∀ sn ∈ s.core.snapshots, sn.handle < s.core.nextHandle
  next : u.nextHandle = s.core.nextHandle
  gc : s.Collecting

variable {u : UserState}

theorem ValuesOk.grown (hk : ValuesOk u s) (hfit : s.EntriesFit op) (hs : s.step op = some s') :
    Grown s s' (s.appends op) := by
  refine ⟨fun e he => ?_, fun n hn => step_file hk.gens hk.on hs hn⟩
  cases op with
  | put key value =>
    simp only [appends, appended] at he
    split at he
    · next hsep =>
      rw [mem_singleton.mp he]
      exact (hfit hsep).1
    · cases he
  | gcEntry =>
    simp only [appends] at he
    split at he
    · next x _ _ hgc =>
      obtain ⟨hgen, hscan⟩ := (hk.gc _ _ _ _ _ hgc).items x mem_cons_self
      have hx := (hk.walk _ (hk.gens.retired_mem hgc hgen)).fits hscan
      split at he
      · unfold appended at he
        split at he
        · exact mem_singleton.mp he ▸ hx
        · cases he
      · cases he
    · cases he
  | _ => cases he

theorem lookup_quiet (hi : s.core.Inv h) (hs : s.step op = some s') (hnil : s.written op = [])
    (hS : s.core.Live S) (hS' : s'.core.Live S) (key : Bytes) :
    (s'.core.lookup key S).toOption = (s.core.lookup key S).toOption := by
  have hc := step_core hs
  rw [hnil] at hc
  exact hc.lookup_hidden hi hS hS' (nofun) key

theorem Means.gen (hm : s.Means key slot value) {p : ValuePointer}
    (hdec : decodeValuePointer slot = some p) : p.vlogNumber ∈ s.vlogs := by
  rcases hm with ⟨hnone, -⟩ | ⟨q, hq, hgen, -⟩
  · rw [hnone] at hdec
    cases hdec
  · rw [hq] at hdec
    exact Option.some.inj hdec ▸ hgen

theorem rel_mono {α β : Type} {r r' : α → β → Prop} {x : Option α} {y : Option β}
    (h : Option.Rel r x y) (himp : ∀ a b, x = some a → r a b → r' a b) : Option.Rel r' x y := by
  cases h with
  | some hab => exact .some (himp _ _ rfl hab)
  | none => exact .none

section Step

variable {op : Op}

variable {key : Bytes} {fresh rewritten : Nat} {retired : List Nat} {todo : List GcItem}

variable (hk : ValuesOk u s)
include hk

section

variable (hfit : s.EntriesFit op) (hs : s.step op = some s') (hop : op ≠ .gcRetire)
include hfit hs hop

theorem ValuesOk.means {slot value : Bytes} (hm : s.Means key slot value) :
    s'.Means key slot value :=
  hm.grown (hk.grown hfit hs) hk.walk (fun _ hn => hk.gens.le_current hk.on hn)
    fun _ hdec => step_vlogs hop hs _ (hm.gen hdec)

theorem ValuesOk.snapshot_step {sn : Snapshot} (hsn : sn ∈ s.core.snapshots)
    (hsn' : sn ∈ s'.core.snapshots) (key : Bytes) : Option.Rel (s'.Means key)
      (s'.core.lookup key (WithTop.some sn.sequence)).toOption (u.snapshot sn.handle key) := by
  obtain ⟨h, hi⟩ := hk.inv
  have hhid : ∀ e ∈ s.written op, ¬ (WithTop.some e.seq : ReadSeq) ≤ WithTop.some sn.sequence := by
    intro e he hle
    have hlt := hi.contents.snapshot_lt sn hsn
    rcases written_cases s op with hnil | ⟨x, hx, hseq⟩
    · rw [hnil] at he
      cases he
    · rw [hx] at he
      rw [mem_singleton.mp he, hseq] at hle
      exact absurd (WithTop.coe_le_coe.mp hle) (not_le.mpr hlt)
  rw [(step_core hs).lookup_hidden hi (.inr ⟨sn, hsn, rfl⟩) (.inr ⟨sn, hsn', rfl⟩) hhid key]
  exact rel_mono (hk.snapshot sn hsn key) fun _ _ _ hm => hk.means hfit hs hop hm

theorem ValuesOk.frame (hsnap : op ≠ .getSnapshot) {map : Bytes → Option Bytes}
    (hlatest : ∀ key, Option.Rel (s'.Means key) (s'.core.lookup key kMaxSeq).toOption (map key))
    (hgc : s'.Collecting) : ValuesOk { u with map := map } s' := by
  obtain ⟨h, hi⟩ := hk.inv
  have hgens := hk.gens
  obtain ⟨hsub, hnext⟩ := (step_frame hi hs).snapshots.resolve_left hsnap
  have hpos : 0 < s.core.nextFileNumber :=
    lt_of_le_of_lt (Nat.zero_le _) (hgens.lt _ (hgens.current_mem hk.on))
  exact
    { on := (step_opt hi hs).symm ▸ hk.on
      inv := ⟨_, (step_core hs).inv hi⟩
      gens := hgens.step hi hpos hs
      walk := (hk.grown hfit hs).walkable hk.walk
      latest := hlatest
      snapshot := fun sn hsn key => hk.snapshot_step hfit hs hop (hsub sn hsn) hsn key
      handles := fun sn hsn => hnext ▸ hk.handles sn (hsub sn hsn)
      next := hk.next.trans hnext.symm
      gc := hgc }

theorem ValuesOk.quiet
    (hsnap : op ≠ .getSnapshot) (hnil : s.written op = [])
    (hgc : s'.Collecting) : ValuesOk u s' := by
  obtain ⟨h, hi⟩ := hk.inv
  refine hk.frame hfit hs hop hsnap (fun key => ?_) hgc
  rw [lookup_quiet hi hs hnil (.inl rfl) (.inl rfl)]
  exact rel_mono (hk.latest key) fun _ _ _ hm => hk.means hfit hs hop hm

theorem ValuesOk.write (hsnap : op ≠ .getSnapshot) {e : Entry} (he : s.written op = [e])
    {value : Option Bytes} (hmeans : Option.Rel (s'.Means e.user) (entryView.val e) value)
    (hgc : s'.Collecting) : ValuesOk { u with map := Function.update u.map e.user value } s' := by
  obtain ⟨h, hi⟩ := hk.inv
  have hc := step_core hs
  rw [he] at hc
  have hseq : e.seq = s.core.nextSeq := by
    rcases written_cases s op with hnil | ⟨x, hx, hxs⟩
    · rw [hnil] at he
      cases he
    · rw [hx] at he
      exact singleton_inj.mp he ▸ hxs
  refine hk.frame hfit hs hop hsnap (fun key => ?_) hgc
  rw [hc.lookup_write hi hseq key]
  by_cases hkey : e.user = key
  · subst hkey
    rw [if_pos rfl, Function.update_self]
    exact hmeans
  · rw [if_neg hkey, Function.update_of_ne (Ne.symm hkey)]
    exact rel_mono (hk.latest key) fun _ _ _ hm => hk.means hfit hs hop hm

theorem ValuesOk.awaits {drain : Bool}
    (hgc : s.gc = .scanning fresh retired todo rewritten drain)
    (hnew : ∀ e ∈ s.written op, ∀ slot p, entryView.val e = some slot →
      decodeValuePointer slot = some p → p.vlogNumber = s.vlogCurrent) :
    s'.Awaits retired todo := by
  obtain ⟨h, hi⟩ := hk.inv
  refine (hk.gc _ _ _ _ _ hgc).grown (hk.grown hfit hs) hk.walk (fun n hn => ?_)
    fun key slot p hl hdec hret => ?_
  · have hn' := hk.gens.retired_mem hgc hn
    exact ⟨step_vlogs hop hs n hn', hk.gens.le_current hk.on hn'⟩
  · rcases written_cases s op with hnil | ⟨e, he, hseq⟩
    · rwa [lookup_quiet hi hs hnil (.inl rfl) (.inl rfl)] at hl
    · have hc := step_core hs
      rw [he] at hc
      rw [hc.lookup_write hi hseq key] at hl
      split at hl
      · have hgen := hnew e (he ▸ mem_singleton_self _) slot p hl hdec
        exact absurd (hgen ▸ hret) (hk.gens.current_not_retired hk.on hgc)
      · exact hl

theorem ValuesOk.stays
    (hnil : s.written op = []) (hgc : ∀ {fresh retired todo rewritten drain},
      s'.gc = .scanning fresh retired todo rewritten drain →
        ∃ drain', s.gc = .scanning fresh retired todo rewritten drain') : s'.Collecting := by
  intro fresh retired todo rewritten drain hgc'
  obtain ⟨drain', hgc⟩ := hgc hgc'
  refine hk.awaits hfit hs hop hgc fun e he => ?_
  rw [hnil] at he
  cases he

end

/-- The scan takes in every latest pointer. -/
theorem ValuesOk.gcStart (hs : s.step .gcStart = some s')
    (hgc : s'.gc = .scanning s.core.nextFileNumber s.vlogs (s.gcItems s.vlogs) 0 false) :
    s'.Collecting := by
  obtain ⟨h, hi⟩ := hk.inv
  have hfit : s.EntriesFit .gcStart := trivial
  have hgrown := hk.grown hfit hs
  have hscan : ∀ n ∈ s.vlogs, ∀ x ∈ scanEntries (s.vlogFile n).bytes,
      x ∈ scanEntries (s'.vlogFile n).bytes := fun n hn x hx =>
    hgrown.scan hk.walk (step_vlogs (by simp) hs n hn) (hk.gens.le_current hk.on hn) hx
  intro fresh retired todo rewritten drain hgc'
  rw [hgc] at hgc'
  injection hgc' with _ hret htodo
  subst hret htodo
  refine ⟨fun x hx => ?_, fun key slot p hl hdec hret => ?_⟩
  · obtain ⟨n, hn, hx⟩ := mem_flatMap.mp hx
    obtain ⟨y, hy, rfl⟩ := mem_map.mp hx
    exact ⟨hn, hscan n hn y hy⟩
  · rw [lookup_quiet hi hs rfl (.inl rfl) (.inl rfl)] at hl
    have hrel := hk.latest key
    rw [hl] at hrel
    generalize u.map key = value at hrel
    cases hrel with
    | some hm =>
      rcases hm with ⟨hnone, -⟩ | ⟨q, hq, -, -, hmem⟩
      · rw [hnone] at hdec
        cases hdec
      · obtain rfl := Option.some.inj (hdec.symm.trans hq)
        exact ⟨⟨p.vlogNumber, _⟩, mem_flatMap.mpr ⟨_, hret, mem_map_of_mem hmem⟩, rfl, rfl, rfl⟩

/-- **What the collector rewrites is what the user last wrote.** -/
theorem ValuesOk.live_value {x : GcItem} {drain : Bool}
    (hgc : s.gc = .scanning fresh retired (x :: todo) rewritten drain) (hlive : s.isLive x = true) :
    u.map x.entry.key = some x.entry.value := by
  obtain ⟨slot, p, hlook, hdec, hgen, hoff⟩ := isLive_iff.mp hlive
  obtain ⟨hret, hscan⟩ := (hk.gc _ _ _ _ _ hgc).items x mem_cons_self
  have hwhole := hk.walk _ (hk.gens.retired_mem hgc hret)
  have hrel := hk.latest x.entry.key
  rw [hlook] at hrel
  generalize u.map x.entry.key = value at hrel
  cases hrel with
  | some hm =>
    rcases hm with ⟨hnone, -⟩ | ⟨q, hq, -, -, hmem⟩
    · rw [hnone] at hdec
      cases hdec
    · obtain rfl := Option.some.inj (hdec.symm.trans hq)
      rw [hgen] at hmem
      have hat := hwhole.entryAt hmem
      have hat' := hwhole.entryAt hscan
      rw [← hoff] at hat'
      exact congrArg some (hat.unique hat').2

theorem ValuesOk.put {value : Bytes} (hfit : s.EntriesFit (.put key value))
    (hs : s.step (.put key value) = some s') (hgc : s'.gc = s.gc) :
    ValuesOk (u.step (.put key value)) s' := by
  have hf : s.separates .value value = true → s.PointerFits := fun hsep => (hfit hsep).2
  refine hk.write hfit hs (by simp) (by simp) rfl (.some ?_) ?_
  · exact means_slot hk.gens hk.on hk.walk (hk.grown hfit hs) hf
      (step_vlogs (by simp) hs _ (hk.gens.current_mem hk.on))
  · intro fresh retired todo rewritten drain hgc'
    rw [hgc] at hgc'
    refine hk.awaits hfit hs (by simp) hgc' fun e he slot p hval hdec => ?_
    rw [mem_singleton.mp he] at hval
    rw [← Option.some.inj hval] at hdec
    exact slot_gen hk.on hf hdec

theorem ValuesOk.delete (hs : s.step (.delete key) = some s')
    (hgc : s'.gc = s.gc) : ValuesOk (u.step (.delete key)) s' := by
  have hfit : s.EntriesFit (.delete key) := trivial
  refine hk.write hfit hs (by simp) (by simp) rfl .none ?_
  intro fresh retired todo rewritten drain hgc'
  rw [hgc] at hgc'
  refine hk.awaits hfit hs (by simp) hgc' fun e he slot p hval => ?_
  rw [mem_singleton.mp he] at hval
  cases hval

/-- A live entry is written again, and is then no longer waited for. -/
theorem ValuesOk.gcRewrite {x : GcItem}
    (hgc : s.gc = .scanning fresh retired (x :: todo) rewritten false) (hlive : s.isLive x = true)
    (hf : s.PointerFits) (hs : s.step .gcEntry = some s')
    (hgc' : s'.gc = .scanning fresh retired todo (rewritten + x.entry.value.length) true) :
    ValuesOk u s' := by
  obtain ⟨h, hi⟩ := hk.inv
  have hfit : s.EntriesFit .gcEntry := hf
  have hwritten : s.written .gcEntry = [s.record .value x.entry.key x.entry.value] := by
    simp [written, hgc, hlive]
  have happ : s.appends .gcEntry = s.appended .value x.entry.key x.entry.value := by
    simp [appends, hgc, hlive]
  have hgrown := hk.grown hfit hs
  rw [happ] at hgrown
  have hmeans := means_slot hk.gens hk.on hk.walk hgrown (fun _ => hf)
    (step_vlogs (by simp) hs _ (hk.gens.current_mem hk.on))
  have hvalue := hk.live_value hgc hlive
  have hmap : Function.update u.map x.entry.key (some x.entry.value) = u.map := by
    rw [← hvalue, Function.update_eq_self]
  suffices ValuesOk { u with map := Function.update u.map x.entry.key (some x.entry.value) } s' by
    rwa [hmap] at this
  refine hk.write hfit hs (by simp) (by simp) hwritten (.some hmeans) ?_
  intro fresh' retired' todo' rewritten' drain' hscan
  rw [hgc'] at hscan
  injection hscan with _ hret htodo
  subst hret htodo
  have hnew : ∀ e ∈ s.written .gcEntry, ∀ slot p, entryView.val e = some slot →
      decodeValuePointer slot = some p → p.vlogNumber = s.vlogCurrent := by
    intro e he slot p hval hdec
    rw [hwritten] at he
    rw [mem_singleton.mp he] at hval
    rw [← Option.some.inj hval] at hdec
    exact slot_gen hk.on (fun _ => hf) hdec
  refine (hk.awaits hfit hs (by simp) hgc hnew).tail ?_
  -- the latest pointer of the key leads into the generation being written
  by_contra hstill
  obtain ⟨slot, p, hlook, hdec, hgen, -⟩ := isLive_iff.mp (Bool.not_eq_false _ ▸ hstill)
  have hc := step_core hs
  rw [hwritten] at hc
  rw [hc.lookup_write hi rfl,
    if_pos (show (s.record .value x.entry.key x.entry.value).user = x.entry.key from rfl)] at hlook
  have hcur := hnew _ (hwritten ▸ mem_singleton_self _) slot p hlook hdec
  have hret := ((hk.gc _ _ _ _ _ hgc).items x mem_cons_self).1
  rw [← hgen, hcur] at hret
  exact hk.gens.current_not_retired hk.on hgc hret

/-- **The retirement** takes generations that no latest pointer leads into,
while there is no snapshot. -/
theorem ValuesOk.gcRetire
    (hgc : s.gc = .scanning fresh retired [] rewritten false) (hnone : s.core.snapshots = [])
    (hs : s.step .gcRetire = some s') (hcore : s'.core = s.core) (hgc' : s'.gc = .retiring retired)
    (hvlogs : s'.vlogs = s.vlogs.filter fun n => decide (n ∉ retired)) : ValuesOk u s' := by
  obtain ⟨h, hi⟩ := hk.inv
  have hfit : s.EntriesFit .gcRetire := trivial
  have hgrown := hk.grown hfit hs
  have hpos : 0 < s.core.nextFileNumber :=
    lt_of_le_of_lt (Nat.zero_le _) (hk.gens.lt _ (hk.gens.current_mem hk.on))
  refine
    { on := (step_opt hi hs).symm ▸ hk.on
      inv := ⟨h, hcore ▸ hi⟩
      gens := hk.gens.step hi hpos hs
      walk := hgrown.walkable hk.walk
      latest := fun key => ?_
      snapshot := fun sn hsn => ?_
      handles := fun sn hsn => ?_
      next := hcore ▸ hk.next
      gc := fun _ _ _ _ _ hscan => ?_ }
  · rw [hcore]
    refine rel_mono (hk.latest key) fun slot value hlook hm => ?_
    refine hm.grown hgrown hk.walk (fun _ hn => hk.gens.le_current hk.on hn) fun p hdec => ?_
    rw [hvlogs]
    refine mem_filter.mpr ⟨hm.gen hdec, decide_eq_true fun hret => ?_⟩
    obtain ⟨x, hx, -⟩ := (hk.gc _ _ _ _ _ hgc).covers key slot p hlook hdec hret
    cases hx
  · rw [hcore, hnone] at hsn
    cases hsn
  · rw [hcore, hnone] at hsn
    cases hsn
  · rw [hgc'] at hscan
    cases hscan

theorem ValuesOk.getSnapshot : ValuesOk (u.step .getSnapshot) s.getSnapshot := by
  obtain ⟨h, hi⟩ := hk.inv
  have hs : s.step .getSnapshot = some s.getSnapshot := rfl
  have hfit : s.EntriesFit .getSnapshot := trivial
  have hi' : s.getSnapshot.core.Inv h := Lsm.getSnapshot_inv hi
  have hlatest : ∀ key, Option.Rel (s.getSnapshot.Means key)
      (s.getSnapshot.core.lookup key kMaxSeq).toOption (u.map key) := hk.latest
  refine
    { on := hk.on
      inv := ⟨h, hi'⟩
      gens := hk.gens.quiet rfl le_rfl hk.gens.gc fun hid _ => hid
      walk := hk.walk
      latest := hlatest
      snapshot := fun sn hsn key => ?_
      handles := fun sn hsn => ?_
      next := congrArg Nat.succ hk.next
      gc := fun f r t n d hgc => ⟨(hk.gc f r t n d hgc).items, (hk.gc f r t n d hgc).covers⟩ }
  · rcases mem_append.mp hsn with hold | hnew
    · have hne : sn.handle ≠ u.nextHandle := hk.next.symm ▸ ne_of_lt (hk.handles sn hold)
      have hrel := hk.snapshot_step hfit hs (by simp) hold hsn key
      rwa [← show (u.step .getSnapshot).snapshot sn.handle = u.snapshot sn.handle from
        Function.update_of_ne hne _ _] at hrel
    · obtain rfl := mem_singleton.mp hnew
      rw [show (u.step .getSnapshot).snapshot s.core.nextHandle = u.map from
        hk.next ▸ Function.update_self _ _ _]
      have hread := Lsm.lookup_reads hi' (.inr ⟨_, hsn, rfl⟩) key
      rw [View.reads_bound_congr (T := kMaxSeq) fun x hx => ?_] at hread
      · rw [hread.unique hi'.contents.distinct (Lsm.lookup_reads hi' (.inl rfl) key)]
        exact hlatest key
      · have hlt := hi.contents.seq_lt x hx
        refine and_congr_right fun _ => iff_of_true (WithTop.coe_le_coe.mpr ?_) le_top
        exact Nat.le_sub_one_of_lt hlt
  · rcases mem_append.mp hsn with hold | hnew
    · exact Nat.lt_succ_of_lt (hk.handles sn hold)
    · rw [mem_singleton.mp hnew]
      exact Nat.lt_succ_self _

/-- **Every step keeps what readers see.** -/
theorem ValuesOk.step (hfit : s.EntriesFit op) (hs : s.step op = some s') :
    ValuesOk (u.step op) s' := by
  have hroom : s.makeRoom.gc = s.gc := by
    unfold makeRoom
    split <;> rfl
  obtain ⟨_, hn⟩ := step_cases hs
  cases hn with
  | put => exact hk.put hfit hs hroom
  | delete => exact hk.delete hs hroom
  | flushFailed | gcCheck | gcDefer | gcUnlink =>
    refine hk.quiet hfit hs (by simp) (by simp) rfl fun _ _ _ _ _ hgc => ?_
    cases hgc
  | flushDone =>
    refine hk.quiet hfit hs (by simp) (by simp) rfl (hk.stays hfit hs (by simp) rfl ?_)
    intro fresh retired todo rewritten drain hgc
    cases hold : s.gc with
    | scanning f r t n d =>
      simp only [hold, GcStage.drained] at hgc
      injection hgc with h₁ h₂ h₃ h₄ h₅
      exact ⟨d, by rw [h₁, h₂, h₃, h₄]⟩
    | idle | triggered | retiring => simp [hold, GcStage.drained] at hgc
  | getSnapshot => exact hk.getSnapshot
  | gcStart => exact hk.quiet hfit hs (by simp) (by simp) rfl (hk.gcStart hs rfl)
  | gcRewrite hgc hlive => exact hk.gcRewrite hgc hlive hfit hs rfl
  | @gcDead _ _ _ x _ hgc hdead =>
    have hnil : s.written .gcEntry = [] := by simp [written, hgc, hdead]
    refine hk.quiet hfit hs (by simp) (by simp) hnil fun _ _ _ _ _ hscan => ?_
    injection hscan with _ hret htodo
    subst hret htodo
    refine (hk.awaits hfit hs (by simp) hgc fun e he => ?_).tail hdead
    rw [hnil] at he
    cases he
  | gcDrain hgc =>
    refine hk.quiet hfit hs (by simp) (by simp) rfl (hk.stays hfit hs (by simp) rfl ?_)
    intro fresh retired todo rewritten drain hscan
    injection hscan with h₁ h₂ h₃ h₄
    exact ⟨true, by rw [hgc, h₁, h₂, h₃, h₄]⟩
  | gcRetire hgc hnone => exact hk.gcRetire hgc hnone hs rfl rfl rfl
  | gcAbort =>
    exact
      { on := hk.on
        inv := hk.inv
        gens := hk.gens.quiet rfl le_rfl trivial fun _ _ => rfl
        walk := hk.walk
        latest := hk.latest
        snapshot := hk.snapshot
        handles := hk.handles
        next := hk.next
        gc := fun _ _ _ _ _ hgc => by cases hgc }
  | _ =>
    exact hk.quiet hfit hs (by simp) (by simp) rfl
      (hk.stays hfit hs (by simp) rfl fun hgc => ⟨_, hgc⟩)

end Step

/-! ## Where a run may start -/

/-- Nothing of the collector is running, every generation is a concatenation of
whole entries, and every pointer a reader can find leads to an entry of its key. -/
structure WellFormed (s : DB) : Prop where
  on : s.opt.enableValueSeparation = true
  inv : ∃ h, s.core.Inv h
  gens : s.GensOk
  walk : s.Walkable
  idle : s.gc = .idle
  handles : ∀ sn ∈ s.core.snapshots, sn.handle < s.core.nextHandle
  pointers : ∀ S, s.core.Live S → ∀ key slot p, (s.core.lookup key S).toOption = some slot →
    decodeValuePointer slot = some p → p.vlogNumber ∈ s.vlogs ∧ ∃ value : Bytes,
      p.valueSize = value.length ∧
        ⟨key, value, p.offset⟩ ∈ scanEntries (s.vlogFile p.vlogNumber).bytes

theorem WellFormed.rel (hw : s.WellFormed) (hf : s.Fits pl) (hS : s.core.Live S)
    {value : Option Bytes} (hr : Lsm.Returns key (s.getBytes pl key S) value) :
    Option.Rel (s.Means key) (s.core.lookup key S).toOption value := by
  rw [getBytes_live hf hw.inv hS] at hr
  have hpointers := hw.pointers S hS key
  unfold get Lsm.getWith at hr
  cases hlook : s.core.lookup key S with
  | found slot =>
    rw [hlook] at hr hpointers
    obtain ⟨v, hm⟩ : ∃ v, s.Means key slot v := by
      cases hdec : decodeValuePointer slot with
      | none => exact ⟨slot, .inl ⟨hdec, rfl⟩⟩
      | some p =>
        obtain ⟨hgen, v, hsize, hscan⟩ := hpointers slot p rfl hdec
        exact ⟨v, .inr ⟨p, hdec, hgen, hsize, hscan⟩⟩
    dsimp only at hr
    rw [hm.resolve hw.on hw.walk] at hr
    cases value with
    | none => rcases hr with hr | hr <;> cases hr
    | some w =>
      obtain rfl := Except.ok.inj hr
      exact .some hm
  | deleted | missing =>
    rw [hlook] at hr
    cases value with
    | none => exact .none
    | some w => cases hr

instance (s : DB) : Decidable s.PointerFits :=
  decidable_of_iff (s.vlogCurrent < 2 ^ 64 ∧ (s.vlogFile s.vlogCurrent).bytes.length < 2 ^ 64)
    ⟨fun h => ⟨h.1, h.2⟩, fun h => ⟨h.vlogNumber, h.offset⟩⟩

instance (s : DB) : ∀ op : Op, Decidable (s.EntriesFit op)
  | .put key value => inferInstanceAs (Decidable (s.separates .value value = true →
      key.length + value.length ≤ kPreadMax ∧ s.PointerFits))
  | .gcEntry => inferInstanceAs (Decidable s.PointerFits)
  | .delete _ | .rotate | .flushBuild | .flushInstall | .flushDone | .pick | .captureFloor
  | .sealOutput | .installCompaction | .getSnapshot | .releaseSnapshot _ | .gcCheck | .gcStart
  | .gcDrain | .gcRetire | .gcUnlink => .isTrue trivial

/-- Nothing is there. -/
def UserState.empty : UserState := ⟨fun _ => none, fun _ _ => none, 0⟩

end DB

end BedrockKV
