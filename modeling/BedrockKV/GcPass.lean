/-
# `BedrockKV.GcPass` — what a garbage collection pass leaves for the next one

A pass writes every live entry of the old generations again and retires them.
Without a user write meanwhile, what is live is settled when the pass starts
(`PassOk.live`), so both sides of the trigger of the next pass are known then:

    the file        12 bytes of header, key and value of each live entry that
                    is separated again
    the floor       twice the value bytes alone of every live entry

`BelowTrigger` compares the two; keys that are long beside their values bring
the file over the floor, and the next pass finds the same work again.  What a
pass finds is what `ScanEntries` reports, up to the first entry that one `pread`
does not take in.

The floor is kept in memory only: `Open` starts it at zero (`opened`), so after
a restart the size of the file alone decides whether the next pass is due.
-/
import BedrockKV.SeqOrder
import BedrockKV.Values

namespace BedrockKV

open List MultiVersion

/-! ## The entries of a scan -/

theorem scanEntryAt_next {file : Bytes} {off next : Nat} {x : ScannedEntry}
    (h : scanEntryAt file off = some (x, next)) : x.offset = off ∧ off < next := by
  unfold scanEntryAt at h
  split at h
  · cases h
  · dsimp only at h
    split at h
    · cases h
    · split_ifs at h
      obtain ⟨rfl, rfl⟩ := Prod.mk.inj (Option.some.inj h)
      refine ⟨rfl, ?_⟩
      simp only [kEntryHeaderSize]
      omega

theorem scanFrom_ascending (file : Bytes) (fuel : Nat) : ∀ off : Nat,
    (∀ x ∈ scanFrom file fuel off, off ≤ x.offset) ∧
      (scanFrom file fuel off).Pairwise fun x y => x.offset < y.offset := by
  induction fuel with
  | zero => exact fun _ => ⟨fun _ hx => absurd hx not_mem_nil, .nil⟩
  | succ fuel ih =>
    intro off
    rw [scanFrom]
    cases hs : scanEntryAt file off with
    | none => exact ⟨fun _ hx => absurd hx not_mem_nil, .nil⟩
    | some p =>
      obtain ⟨x, next⟩ := p
      obtain ⟨rfl, hlt⟩ := scanEntryAt_next hs
      obtain ⟨hle, hpair⟩ := ih next
      refine ⟨forall_mem_cons.mpr ⟨le_rfl, fun y hy => ?_⟩,
        pairwise_cons.mpr ⟨fun y hy => ?_, hpair⟩⟩
      · exact hlt.le.trans (hle y hy)
      · exact hlt.trans_le (hle y hy)

namespace DB

variable {s s' s₀ : DB} {h : List Entry}

/-- Two items of a pass are not at the same place. -/
def Apart (x y : GcItem) : Prop := x.gen = y.gen → x.entry.offset ≠ y.entry.offset

theorem gcItems_apart (s : DB) {gens : List Nat} (hasc : gens.Pairwise (· < ·)) :
    (s.gcItems gens).Pairwise Apart := by
  refine pairwise_flatMap.mpr ⟨fun g _ => ?_, hasc.imp fun {a b} hab x hx y hy hgen => ?_⟩
  · have hup := (scanFrom_ascending (s.vlogFile g).bytes ((s.vlogFile g).bytes.length + 1) 0).2
    exact pairwise_map.mpr (hup.imp fun {x y} hlt => (fun _ => ne_of_lt hlt : Apart ⟨g, x⟩ ⟨g, y⟩))
  · obtain ⟨_, -, rfl⟩ := mem_map.mp hx
    obtain ⟨_, -, rfl⟩ := mem_map.mp hy
    exact absurd hgen (ne_of_lt hab)

theorem gen_of_mem_gcItems {gens : List Nat} {x : GcItem} (hx : x ∈ s.gcItems gens) :
    x.gen ∈ gens := by
  obtain ⟨g, hg, hmem⟩ := mem_flatMap.mp hx
  obtain ⟨_, -, rfl⟩ := mem_map.mp hmem
  exact hg

/-! ## Live data -/

/-- The entries that a pass starting now finds live. -/
def liveItems (s : DB) : List GcItem := (s.gcItems s.vlogs).filter s.isLive

def valueBytes (items : List GcItem) : Nat := (items.map fun x => x.entry.value.length).sum

/-- The bytes these entries take in a generation, of those that go to one. -/
def separatedBytes (s : DB) (items : List GcItem) : Nat :=
  ((items.filter fun x => s.separates .value x.entry.value).map fun x =>
    kEntryHeaderSize + x.entry.key.length + x.entry.value.length).sum

/-- The live data, written again, stays below the trigger that it sets. -/
def BelowTrigger (s : DB) : Prop :=
  s.separatedBytes s.liveItems < max s.vlogGcSize (2 * valueBytes s.liveItems)

theorem separatedBytes_concat (s : DB) (items : List GcItem) (x : GcItem) :
    s.separatedBytes (items ++ [x]) =
      s.separatedBytes items +
        (encodeEntries (s.appended .value x.entry.key x.entry.value)).length := by
  unfold separatedBytes appended
  rw [filter_append, map_append, sum_append]
  cases hsep : s.separates .value x.entry.value with
  | true => simp [hsep, encodeEntries, length_encodeEntry]
  | false => simp [hsep, encodeEntries]

theorem valueBytes_concat (items : List GcItem) (x : GcItem) :
    valueBytes (items ++ [x]) = valueBytes items + x.entry.value.length := by
  simp [valueBytes]

theorem isLive_congr {x : GcItem} (hlook : (s'.core.lookup x.entry.key kMaxSeq).toOption =
    (s.core.lookup x.entry.key kMaxSeq).toOption) : s'.isLive x = s.isLive x := by
  rw [Bool.eq_iff_iff, isLive_iff, isLive_iff, hlook]

/-- What `WriteEntry` stores is no pointer into another generation than the current one. -/
theorem decode_slot (hon : s.opt.enableValueSeparation = true) (hnum : s.vlogCurrent < 2 ^ 64)
    {value : Bytes} {p : ValuePointer}
    (hdec : decodeValuePointer (s.slot .value value) = some p) : p.vlogNumber = s.vlogCurrent := by
  unfold slot at hdec
  split at hdec
  · rw [decodeValuePointer, if_pos (pointerShaped_encode _)] at hdec
    obtain rfl := Option.some.inj hdec
    exact getFixed64_putFixed64 hnum _
  · next hsep =>
    have hshape : pointerShaped value = false := by
      simp only [separates, hon, decide_true, Bool.true_and, Bool.or_eq_true, not_or,
        Bool.not_eq_true] at hsep
      exact hsep.2
    rw [decodeValuePointer, hshape] at hdec
    cases hdec

/-! ## The pass -/

/-- The pass that started in `s₀`, as far as it has come: `done` is behind it. -/
structure Passing (s₀ s : DB) (todo : List GcItem) (rewritten : Nat) : Prop where
  items : ∃ done, s₀.gcItems s₀.vlogs = done ++ todo ∧
    rewritten = valueBytes (done.filter s₀.isLive) ∧
    (s.vlogFile s.vlogCurrent).bytes.length = s₀.separatedBytes (done.filter s₀.isLive)
  live : ∀ x ∈ todo, s.isLive x = s₀.isLive x

structure PassOk (s₀ s : DB) : Prop where
  inv : ∃ h, s.core.Inv h
  gens : s.GensOk
  opt : s.opt = s₀.opt
  pass : ∀ fresh retired todo rewritten drain, s.gc = .scanning fresh retired todo rewritten drain →
    fresh = s₀.core.nextFileNumber ∧ retired = s₀.vlogs ∧ Passing s₀ s todo rewritten

/-- A call of the user that writes. -/
def userWrite : Op → Bool
  | .put _ _ | .delete _ => true
  | _ => false

theorem GensOk.next_pos (hg : s.GensOk) (hon : s.opt.enableValueSeparation = true) :
    0 < s.core.nextFileNumber :=
  lt_of_le_of_lt (Nat.zero_le _) (hg.lt _ (hg.current_mem hon))

theorem GensOk.current_eq (hg : s.GensOk) {fresh rewritten : Nat} {retired : List Nat}
    {todo : List GcItem} {drain : Bool}
    (hgc : s.gc = .scanning fresh retired todo rewritten drain) :
    s.vlogs = retired ++ [fresh] ∧ s.vlogCurrent = fresh := by
  have hok := hg.gc
  rw [hgc] at hok
  have hvlogs : s.vlogs = retired ++ [fresh] := hok
  have hlast := hg.on (hg.separation_on (by simp [hgc]))
  rw [hvlogs, getLast?_concat] at hlast
  exact ⟨hvlogs, (Option.some.inj hlast).symm⟩

section Step

variable {op : Op}

theorem PassOk.carry (hp : PassOk s₀ s) (hon : s.opt.enableValueSeparation = true)
    (hs : s.step op = some s') : (∃ h, s'.core.Inv h) ∧ s'.GensOk ∧ s'.opt = s₀.opt := by
  obtain ⟨h, hi⟩ := hp.inv
  exact ⟨⟨_, (step_core hs).inv hi⟩, hp.gens.step hi (hp.gens.next_pos hon) hs,
    (step_opt hi hs).trans hp.opt⟩

theorem step_current (hg : s.GensOk) (hon : s.opt.enableValueSeparation = true)
    (hs : s.step op = some s') (hcur : s'.vlogCurrent = s.vlogCurrent)
    (hmem : s.vlogCurrent ∈ s'.vlogs) :
    (s'.vlogFile s'.vlogCurrent).bytes.length =
      (s.vlogFile s.vlogCurrent).bytes.length + (encodeEntries (s.appends op)).length := by
  rw [hcur]
  rcases step_file hg hon hs hmem with ⟨-, hbytes⟩ | ⟨hlt, -⟩
  · rw [hbytes, if_pos rfl, length_append]
  · exact absurd hlt (lt_irrefl _)

theorem PassOk.quiet (hp : PassOk s₀ s) (hon : s.opt.enableValueSeparation = true)
    (hs : s.step op = some s') (hnil : s.written op = []) (happ : s.appends op = [])
    (hgc : ∀ {fresh retired todo rewritten drain},
      s'.gc = .scanning fresh retired todo rewritten drain →
        ∃ drain', s.gc = .scanning fresh retired todo rewritten drain') : PassOk s₀ s' := by
  obtain ⟨hinv, hgens, hopt⟩ := hp.carry hon hs
  refine ⟨hinv, hgens, hopt, fun fresh retired todo rewritten drain hgc' => ?_⟩
  obtain ⟨drain', hgc⟩ := hgc hgc'
  obtain ⟨hfresh, hret, ⟨done, hitems, hrew, hfile⟩, hlive⟩ := hp.pass _ _ _ _ _ hgc
  obtain ⟨h, hi⟩ := hp.inv
  obtain ⟨hvlogs', hcur'⟩ := hgens.current_eq hgc'
  obtain ⟨-, hcur⟩ := hp.gens.current_eq hgc
  have hlen := step_current hp.gens hon hs (hcur'.trans hcur.symm) (by rw [hvlogs', hcur]; simp)
  rw [happ, encodeEntries, length_nil, Nat.add_zero] at hlen
  refine ⟨hfresh, hret, ⟨done, hitems, hrew, hlen.trans hfile⟩, fun x hx => ?_⟩
  rw [← hlive x hx]
  exact isLive_congr (lookup_quiet hi hs hnil (.inl rfl) (.inl rfl) _)

theorem Passing.skip {x : GcItem} {todo : List GcItem} {rewritten : Nat}
    (hp : Passing s₀ s (x :: todo) rewritten) (hdead : s.isLive x = false)
    (hfile : (s'.vlogFile s'.vlogCurrent).bytes.length = (s.vlogFile s.vlogCurrent).bytes.length)
    (hlive : ∀ y ∈ todo, s'.isLive y = s.isLive y) : Passing s₀ s' todo rewritten := by
  obtain ⟨⟨done, hitems, hrew, hlen⟩, hl⟩ := hp
  have hx : s₀.isLive x = false := (hl x mem_cons_self).symm.trans hdead
  have hdone : (done ++ [x]).filter s₀.isLive = done.filter s₀.isLive := by simp [hx]
  refine ⟨⟨done ++ [x], by simp [hitems], hdone ▸ hrew, hdone ▸ hfile.trans hlen⟩, fun y hy => ?_⟩
  exact (hlive y hy).trans (hl y (mem_cons_of_mem _ hy))

/-- **A live item is written again**, and no other item is live through it. -/
theorem Passing.rewrite {x : GcItem} {todo : List GcItem} {rewritten : Nat} (hopt : s.opt = s₀.opt)
    (hp : Passing s₀ s (x :: todo) rewritten) (hlive : s.isLive x = true)
    (hfile : (s'.vlogFile s'.vlogCurrent).bytes.length = (s.vlogFile s.vlogCurrent).bytes.length +
      (encodeEntries (s.appended .value x.entry.key x.entry.value)).length)
    (hstay : ∀ y ∈ todo, s'.isLive y = s.isLive y) :
    Passing s₀ s' todo (rewritten + x.entry.value.length) := by
  obtain ⟨⟨done, hitems, hrew, hlen⟩, hl⟩ := hp
  have hx : s₀.isLive x = true := (hl x mem_cons_self).symm.trans hlive
  have hdone : (done ++ [x]).filter s₀.isLive = done.filter s₀.isLive ++ [x] := by simp [hx]
  have happ : s.appended .value x.entry.key x.entry.value =
      s₀.appended .value x.entry.key x.entry.value := by
    unfold appended
    rw [separates_congr hopt]
  refine ⟨⟨done ++ [x], by simp [hitems], ?_, ?_⟩, fun y hy => ?_⟩
  · rw [hdone, valueBytes_concat, hrew]
  · rw [hdone, separatedBytes_concat, hfile, hlen, happ]
  · exact (hstay y hy).trans (hl y (mem_cons_of_mem _ hy))

/-- After `x` was written again, another item is live exactly if it was. -/
theorem isLive_rewrite (hi : s.core.Inv h) (hon : s.opt.enableValueSeparation = true)
    (hnum : s.vlogCurrent < 2 ^ 64) {x y : GcItem}
    (hs : CoreStep s.core s'.core [s.record .value x.entry.key x.entry.value])
    (hlive : s.isLive x = true) (hcur : y.gen ≠ s.vlogCurrent) (hapart : Apart x y) :
    s'.isLive y = s.isLive y := by
  have hlook := hs.lookup_write hi rfl y.entry.key
  by_cases hkey : x.entry.key = y.entry.key
  · rw [if_pos (show (s.record .value x.entry.key x.entry.value).user = _ from hkey)] at hlook
    have hnew : s'.isLive y = false := by
      rw [← Bool.not_eq_true, isLive_iff]
      rintro ⟨slot, p, hslot, hdec, hgen, -⟩
      obtain rfl : s.slot .value x.entry.value = slot := Option.some.inj (hlook.symm.trans hslot)
      exact hcur (hgen.symm.trans (decode_slot hon hnum hdec))
    have hold : s.isLive y = false := by
      obtain ⟨slot, p, hslot, hdec, hgen, hoff⟩ := isLive_iff.mp hlive
      rw [← Bool.not_eq_true, isLive_iff]
      rintro ⟨slot', p', hslot', hdec', hgen', hoff'⟩
      rw [← hkey, hslot] at hslot'
      cases hslot'
      obtain rfl := Option.some.inj (hdec.symm.trans hdec')
      exact hapart (hgen.symm.trans hgen') (hoff.symm.trans hoff')
    rw [hnew, hold]
  · rw [if_neg (show (s.record .value x.entry.key x.entry.value).user ≠ _ from hkey)] at hlook
    exact isLive_congr hlook

/-- **Every step without a user write keeps the account of the pass.** -/
theorem PassOk.step (hasc : s₀.vlogs.Pairwise (· < ·)) (hnum : s₀.core.nextFileNumber < 2 ^ 64)
    (hon₀ : s₀.opt.enableValueSeparation = true) (hp : PassOk s₀ s)
    (hop : userWrite op = false ∧ op ≠ .gcStart) (hs : s.step op = some s') : PassOk s₀ s' := by
  have hon : s.opt.enableValueSeparation = true := hp.opt ▸ hon₀
  obtain ⟨hinv, hgens, hopt⟩ := hp.carry hon hs
  obtain ⟨_, hn⟩ := step_cases hs
  cases hn with
  | put | delete => exact absurd hop.1 (by simp [userWrite])
  | gcStart | gcDefer => exact absurd rfl hop.2
  | @gcRewrite fresh rewritten retired x todo hgc hlive =>
    obtain ⟨h, hi⟩ := hp.inv
    obtain ⟨hfresh, hret, hpass⟩ := hp.pass _ _ _ _ _ hgc
    obtain ⟨hvlogs, hcur⟩ := hp.gens.current_eq hgc
    have hcore := step_core hs
    have hwritten : s.written .gcEntry = [s.record .value x.entry.key x.entry.value] := by
      simp [written, hgc, hlive]
    have happ : s.appends .gcEntry = s.appended .value x.entry.key x.entry.value := by
      simp [appends, hgc, hlive]
    rw [hwritten] at hcore
    have hlen := step_current hp.gens hon hs rfl (hp.gens.current_mem hon)
    rw [happ] at hlen
    obtain ⟨done, hitems, -⟩ := hpass.items
    have hpair := gcItems_apart s₀ hasc
    rw [hitems] at hpair
    have hstay : ∀ y ∈ todo, ({ s.writeEntry .value x.entry.key x.entry.value with
        gc := .scanning fresh retired todo
          (rewritten + x.entry.value.length) true } : DB).isLive y =
        s.isLive y := by
      intro y hy
      refine isLive_rewrite hi hon (by omega) hcore hlive (fun hgen => ?_)
        ((pairwise_cons.mp (pairwise_append.mp hpair).2.1).1 y hy)
      have hmem : y.gen ∈ retired := hret ▸ gen_of_mem_gcItems (hitems ▸
        mem_append_right _ (mem_cons_of_mem _ hy))
      exact hp.gens.current_not_retired hon hgc (hgen ▸ hmem)
    refine ⟨hinv, hgens, hopt, fun _ _ _ _ _ hgc' => ?_⟩
    cases hgc'
    exact ⟨hfresh, hret, hpass.rewrite hp.opt hlive hlen hstay⟩
  | @gcDead fresh rewritten retired x todo hgc hdead =>
    obtain ⟨hfresh, hret, hpass⟩ := hp.pass _ _ _ _ _ hgc
    refine ⟨hinv, hgens, hopt, fun _ _ _ _ _ hgc' => ?_⟩
    cases hgc'
    exact ⟨hfresh, hret, hpass.skip hdead rfl fun _ _ => rfl⟩
  | gcDrain hgc =>
    refine hp.quiet hon hs rfl rfl fun hgc' => ?_
    cases hgc'
    exact ⟨true, hgc⟩
  | flushDone =>
    refine hp.quiet hon hs rfl rfl fun {fresh retired todo rewritten drain} hgc' => ?_
    have hdrained : GcStage.drained s.gc = .scanning fresh retired todo rewritten drain := hgc'
    generalize s.gc = g at hdrained
    cases g <;> cases hdrained
    exact ⟨_, rfl⟩
  | flushFailed | gcCheck | gcRetire | gcAbort | gcUnlink =>
    refine hp.quiet hon hs rfl rfl fun hgc' => ?_
    cases hgc'
  | _ => exact hp.quiet hon hs rfl rfl fun hgc' => ⟨_, hgc'⟩

end Step

theorem gcStart_passOk (hi : s.core.Inv h) (hg : s.GensOk) (hs : s.step .gcStart = some s')
    (hnone : s.core.snapshots = []) : s.opt.enableValueSeparation = true ∧ PassOk s s' := by
  obtain ⟨_, hn⟩ := step_cases hs
  cases hn with
  | gcStart hgc =>
    have hon := hg.separation_on (by simp [hgc])
    have hfile : ((s.gcSwitch.perform
        [.createVlog s.core.nextFileNumber, .publish s.gcSwitch.manifest]).vlogFile
          s.core.nextFileNumber).bytes = [] := by
      rcases gcStart_file hg hon (mem_append_right s.vlogs (mem_singleton_self _)) with
        ⟨hmem, -⟩ | ⟨-, hempty⟩
      · exact absurd (hg.lt _ hmem) (lt_irrefl _)
      · exact hempty
    refine ⟨hon, ⟨_, (step_core hs).inv hi⟩, hg.step hi (hg.next_pos hon) hs, rfl,
      fun _ _ _ _ _ hgc' => ?_⟩
    cases hgc'
    exact ⟨rfl, rfl, ⟨[], rfl, rfl, congrArg List.length hfile⟩, fun _ _ => rfl⟩
  | gcDefer hgc =>
    have hstep : s.step .gcStart = some (s.gcSwitch.perform s.gcStartEffects) := by
      simp [DB.step, DB.gcStart, hgc, hnone]
    rw [hstep] at hs
    cases (congrArg DB.gc (Option.some.inj hs) : GcStage.scanning _ _ _ _ _ = _)

/-! ## After the pass -/

/-- One generation of `size` bytes, with the floor the pass has set. -/
structure Settled (opt : Options) (size floor : Nat) (s : DB) : Prop where
  inv : ∃ h, s.core.Inv h
  gens : s.GensOk
  opt_eq : s.opt = opt
  on : opt.enableValueSeparation = true
  vlogs : s.vlogs = [s.vlogCurrent]
  size_eq : (s.vlogFile s.vlogCurrent).bytes.length = size
  floor_eq : s.vlogGcFloor = floor
  gc : s.gc = .idle ∨ ∃ retired, s.gc = .retiring retired

section Settled

variable {opt : Options} {size floor : Nat}

theorem Settled.needed (hk : Settled opt size floor s) :
    s.vlogGcNeeded = (s.core.snapshots.isEmpty &&
      decide (max (max opt.vlogGcSize (64 * 2 ^ 10)) floor ≤ size)) := by
  unfold vlogGcNeeded vlogGcSize
  rw [hk.opt_eq, hk.on, hk.vlogs, hk.size_eq, hk.floor_eq]
  simp

theorem Settled.step (hk : Settled opt size floor s)
    (hbelow : size < max (max opt.vlogGcSize (64 * 2 ^ 10)) floor) {op : Op}
    (hop : userWrite op = false) (hs : s.step op = some s') : Settled opt size floor s' := by
  obtain ⟨h, hi⟩ := hk.inv
  have hon : s.opt.enableValueSeparation = true := hk.opt_eq ▸ hk.on
  have hinv : ∃ h, s'.core.Inv h := ⟨_, (step_core hs).inv hi⟩
  have hgens := hk.gens.step hi (hk.gens.next_pos hon) hs
  have hopt := (step_opt hi hs).trans hk.opt_eq
  have hidle : ∀ {fresh retired todo rewritten drain},
      s.gc ≠ .scanning fresh retired todo rewritten drain := by
    intro fresh retired todo rewritten drain hgc
    rcases hk.gc with hgc' | ⟨_, hgc'⟩ <;> rw [hgc'] at hgc <;> cases hgc
  have hstay : s'.vlogs = s.vlogs → s'.vlogCurrent = s.vlogCurrent → s.appends op = [] →
      s'.vlogGcFloor = s.vlogGcFloor → (s'.gc = .idle ∨ ∃ retired, s'.gc = .retiring retired) →
      Settled opt size floor s' := by
    intro hvlogs hcur happ hfloor hgc
    have hlen := step_current hk.gens hon hs hcur (hvlogs ▸ hk.gens.current_mem hon)
    rw [happ, encodeEntries, length_nil, Nat.add_zero] at hlen
    exact ⟨hinv, hgens, hopt, hk.on, by rw [hvlogs, hcur, hk.vlogs], hlen.trans hk.size_eq,
      hfloor.trans hk.floor_eq, hgc⟩
  obtain ⟨_, hn⟩ := step_cases hs
  cases hn with
  | put | delete => exact absurd hop (by simp [userWrite])
  | gcCheck _ _ _ _ hneed =>
    rw [hk.needed, Bool.and_eq_true, decide_eq_true_eq] at hneed
    omega
  | gcStart hgc | gcDefer hgc =>
    rcases hk.gc with hgc' | ⟨_, hgc'⟩ <;> rw [hgc'] at hgc <;> cases hgc
  | gcRewrite hgc | gcDead hgc | gcDrain hgc | gcRetire hgc | gcAbort hgc => exact absurd hgc hidle
  | flushFailed | gcUnlink => exact hstay rfl rfl rfl rfl (.inl rfl)
  | flushDone =>
    refine hstay rfl rfl rfl rfl ?_
    change GcStage.drained s.gc = _ ∨ ∃ _, GcStage.drained s.gc = _
    rcases hk.gc with hgc | ⟨retired, hgc⟩ <;> rw [hgc]
    · exact .inl rfl
    · exact .inr ⟨retired, rfl⟩
  | _ => exact hstay rfl rfl rfl rfl hk.gc

end Settled

/-- **The retirement settles the generations**, with the live data of the start. -/
theorem gcRetire_settled (hp : PassOk s₀ s) (hon₀ : s₀.opt.enableValueSeparation = true)
    (hs : s.step .gcRetire = some s') (hnone : s.core.snapshots = []) :
    Settled s₀.opt (s₀.separatedBytes s₀.liveItems) (2 * valueBytes s₀.liveItems) s' ∧
      s'.core.snapshots = [] := by
  have hon : s.opt.enableValueSeparation = true := hp.opt ▸ hon₀
  obtain ⟨hinv, hgens, hopt⟩ := hp.carry hon hs
  obtain ⟨_, hn⟩ := step_cases hs
  cases hn with
  | @gcRetire fresh rewritten retired hgc =>
    obtain ⟨-, -, ⟨done, hitems, hrew, hfile⟩, -⟩ := hp.pass _ _ _ _ _ hgc
    obtain ⟨hvlogs, hcur⟩ := hp.gens.current_eq hgc
    rw [append_nil] at hitems
    have hlive : done.filter s₀.isLive = s₀.liveItems := by rw [liveItems, hitems]
    have hfilter : (s.vlogs.filter fun n => decide (n ∉ retired)) = [s.vlogCurrent] := by
      rw [hcur]
      exact filter_retired hvlogs hp.gens.ascending
    have hlen := step_current hp.gens hon hs rfl (by
      change s.vlogCurrent ∈ s.vlogs.filter fun n => decide (n ∉ retired)
      rw [hfilter]
      exact mem_singleton_self _)
    rw [hlive] at hrew hfile
    refine ⟨⟨hinv, hgens, hopt, hon₀, hfilter, hlen.trans hfile, ?_, .inr ⟨retired, rfl⟩⟩, hnone⟩
    change 2 * rewritten = _
    rw [hrew]
  | @gcAbort _ rewritten retired hgc =>
    have hstep : s.step .gcRetire =
        some ((s.gcDropped retired rewritten).perform s.gcRetireEffects) := by
      simp [DB.step, DB.gcRetire, hgc, hnone]
    rw [hstep] at hs
    cases (congrArg DB.gc (Option.some.inj hs) : GcStage.retiring _ = _)

/-! ## Lifetimes -/

theorem run_kind {P : Op → Prop} {I : DB → Prop} {tr : List Op} (h₀ : I s₀)
    (hstep : ∀ s op s', I s → P op → s.step op = some s' → I s') (htr : ∀ op ∈ tr, P op)
    (hrun : Machine.run step s₀ tr = some s) : I s := by
  refine Machine.run_invariant (fun tr s => (∀ op ∈ tr, P op) → I s) (fun _ => h₀) ?_ hrun htr
  intro tr s op s' hI hs htr
  obtain ⟨htr, hop⟩ := forall_mem_append.mp htr
  exact hstep s op s' (hI htr) (hop op (mem_singleton_self _)) hs

theorem run_gensOk {opt : Options} {tr : List Life}
    (hrun : Machine.run stepLife (fresh opt) tr = some s) : s.LifeOk ∧ s.GensOk := by
  refine Machine.run_invariant (fun _ s => s.LifeOk ∧ s.GensOk)
    ⟨fresh_lifeOk opt, fresh_gensOk opt⟩ ?_ hrun
  rintro tr s ev s' ⟨hl, hg⟩ hs
  cases ev with
  | op op =>
    simp only [stepLife] at hs
    split at hs
    · next hseq =>
      obtain ⟨h, hi⟩ := hl.inv
      exact ⟨hl.step hseq hs, hg.step hi hl.files.onDisk.metaInv.next hs⟩
    · cases hs
  | reopen opt' =>
    have hopen := eq_ok_of_toOption hs
    refine ⟨hl.reopen hopen, ?_⟩
    obtain ⟨refs, hvalid, -, -, rfl⟩ := openDb_eq_ok.mp hopen
    exact opened_gensOk hvalid.2.2

/-- **What a pass without a user write leaves**, in terms of the live data it found. -/
theorem pass_settled {opt : Options} {life : List Life} {s₁ s₂ s₃ : DB} {tr : List Op}
    (hlife : Machine.run stepLife (fresh opt) life = some s)
    (hnum : s.core.nextFileNumber < 2 ^ 64)
    (hstart : s.step .gcStart = some s₁) (hnone : s.core.snapshots = [])
    (hpass : Machine.run step s₁ tr = some s₂)
    (htr : ∀ op ∈ tr, userWrite op = false ∧ op ≠ .gcStart)
    (hretire : s₂.step .gcRetire = some s₃) (hnone₂ : s₂.core.snapshots = []) :
    Settled s.opt (s.separatedBytes s.liveItems) (2 * valueBytes s.liveItems) s₃ ∧
      s₃.core.snapshots = [] := by
  obtain ⟨hl, hg⟩ := run_gensOk hlife
  obtain ⟨h, hi⟩ := hl.inv
  obtain ⟨hon, hp₁⟩ := gcStart_passOk hi hg hstart hnone
  have hasc : s.vlogs.Pairwise (· < ·) := (pairwise_cons.mp hg.ascending).2
  have hp₂ : PassOk s s₂ :=
    run_kind hp₁ (fun _ _ _ hp hop hs => hp.step hasc hnum hon hop hs) htr hpass
  exact gcRetire_settled hp₂ hon hretire hnone₂

theorem Settled.needed_iff (hk : Settled s₀.opt (s₀.separatedBytes s₀.liveItems)
    (2 * valueBytes s₀.liveItems) s) (hnone : s.core.snapshots = []) :
    s.vlogGcNeeded = true ↔ ¬ s₀.BelowTrigger := by
  rw [hk.needed, hnone, BelowTrigger, not_lt]
  exact decide_eq_true_iff

/-! ## One long entry -/

/-- The smallest trigger that `Open` allows. -/
def tightOptions : Options := { separatedOptions with vlogGcSize := 0 }

section Single

variable {key value : Bytes}

/-- One entry is written, and the file it makes is large enough for a pass. -/
def singleEntry (key value : Bytes) : DB :=
  { (fresh tightOptions).writeEntry .value key value with gc := .triggered }

variable (hsep : (fresh tightOptions).separates .value value = true)
include hsep

theorem singleEntry_file :
    ((singleEntry key value).vlogFile 1).bytes = encodeEntries [(key, value)] := by
  have hfile := @vlogFile_write (fresh tightOptions) (by decide) .value key value 1
  rw [vlogBytes_eq, appended, if_pos hsep] at hfile
  exact hfile

theorem singleEntry_check (hbig : 64 * 2 ^ 10 ≤ kEntryHeaderSize + key.length + value.length) :
    ((fresh tightOptions).writeEntry .value key value).step .gcCheck =
      some (singleEntry key value) := by
  have hfile : (((fresh tightOptions).writeEntry .value key value).vlogFile 1).bytes =
      encodeEntries [(key, value)] := singleEntry_file hsep
  have hneed : ((fresh tightOptions).writeEntry .value key value).vlogGcNeeded = true := by
    change (decide (64 * 2 ^ 10 ≤
      (((fresh tightOptions).writeEntry .value key value).vlogFile 1).bytes.length)) = true
    rw [hfile]
    simpa [encodeEntries, length_encodeEntry] using hbig
  change (if _ then some (singleEntry key value) else none) = _
  rw [hneed]
  rfl

theorem singleEntry_life (hbig : 64 * 2 ^ 10 ≤ kEntryHeaderSize + key.length + value.length) :
    Machine.run stepLife (fresh tightOptions) [.op (.put key value), .op .gcCheck] =
      some (singleEntry key value) := by
  have hput : stepLife (fresh tightOptions) (.op (.put key value)) =
      some ((fresh tightOptions).writeEntry .value key value) := rfl
  have hcheck : stepLife ((fresh tightOptions).writeEntry .value key value) (.op .gcCheck) =
      some (singleEntry key value) := singleEntry_check hsep hbig
  rw [Machine.run_cons]
  exact ⟨_, hput, Machine.run_cons.mpr ⟨_, hcheck, rfl⟩⟩

theorem singleEntry_items (hfit : key.length + value.length ≤ kPreadMax) :
    (singleEntry key value).gcItems [1] = [⟨1, ⟨key, value, 0⟩⟩] := by
  have hscan : scanEntries (encodeEntries [(key, value)]) = [⟨key, value, 0⟩] :=
    scanEntries_entries fun e he => (mem_singleton.mp he) ▸ hfit
  simp [gcItems, singleEntry_file hsep, hscan]

theorem singleEntry_live :
    (singleEntry key value).isLive ⟨1, ⟨key, value, 0⟩⟩ = true := by
  have hput : (fresh tightOptions).step (.put key value) =
      some ((fresh tightOptions).writeEntry .value key value) := rfl
  have hlook := (step_core hput).lookup_write (Lsm.fresh_inv tightOptions) rfl key
  have hval : entryView.val ((fresh tightOptions).record .value key value) =
      some (encodeValuePointer ⟨1, 0, value.length % 2 ^ 32⟩) := by
    change some ((fresh tightOptions).slot .value value) = _
    rw [slot, if_pos hsep]
    rfl
  rw [if_pos (show ((fresh tightOptions).record .value key value).user = key from rfl),
    hval] at hlook
  refine isLive_iff.mpr ⟨_, _, hlook, decode_encodeValuePointer ⟨by simp, by simp, ?_⟩, rfl, rfl⟩
  exact Nat.mod_lt _ (by decide)

/-- The pass has switched to the second generation, and is to look at the entry. -/
def singleStarted (key value : Bytes) : DB :=
  (singleEntry key value).gcSwitch.perform (singleEntry key value).gcStartEffects

/-- The entry is written again. -/
def singleRewritten (key value : Bytes) : DB :=
  { (singleStarted key value).writeEntry .value key value with
    gc := .scanning 2 [1] [] (0 + value.length) true }

variable (hfit : key.length + value.length ≤ kPreadMax)
include hfit

omit hsep in
/-- The store holds the two pointers, and nothing else. -/
theorem single_fits (pl : Platform) : (singleEntry key value).Fits pl ∧
    (singleStarted key value).Fits pl ∧ (singleRewritten key value).Fits pl := by
  have hkey : key.length < 2 ^ 32 := by
    have : kPreadMax < 2 ^ 32 := by decide
    omega
  have hinv := Lsm.fresh_inv tightOptions
  have hput : (singleEntry key value).Fits pl :=
    (Lsm.fresh_fits pl tightOptions).writeEntry hinv (by decide) hkey .value _
  have hstarted : (singleStarted key value).Fits pl :=
    ⟨hput.small, hput.snapshots, hput.mem, hput.imm, hput.files⟩
  exact ⟨hput, hstarted,
    hstarted.writeEntry (CoreStep.takeNumber.inv (Lsm.writeEntry_inv hinv .value key _))
      (show 2 < 2 ^ 56 by decide) hkey .value _⟩

theorem singleStarted_gc : (singleStarted key value).gc =
      .scanning 2 [1] [⟨1, ⟨key, value, 0⟩⟩] 0 false :=
  congrArg (GcStage.scanning 2 [1] · 0 false) (singleEntry_items hsep hfit)

theorem singleStarted_step :
    (singleStarted key value).step .gcEntry = some (singleRewritten key value) := by
  have hlive : (singleStarted key value).isLive ⟨1, ⟨key, value, 0⟩⟩ = true := singleEntry_live hsep
  simp only [DB.step, DB.gcEntry, singleStarted_gc hsep hfit, hlive, if_true]
  rfl

theorem singleEntry_pass : ∃ s₂ s₃,
      (singleEntry key value).step .gcStart = some (singleStarted key value) ∧
      Machine.run step (singleStarted key value) [.gcEntry, .gcDrain] = some s₂ ∧
      s₂.step .gcRetire = some s₃ ∧ s₂.core.snapshots = [] :=
  ⟨_, _, rfl, Machine.run_cons.mpr ⟨_, singleStarted_step hsep hfit, rfl⟩, rfl, rfl⟩

theorem single_always (hbig : 64 * 2 ^ 10 ≤ kEntryHeaderSize + key.length + value.length)
    (pl : Platform) :
    Machine.Always (stepLifeBytes pl) (Fits pl) (fresh tightOptions)
      [.op (.put key value), .op .gcCheck] ∧
    (∃ h, (singleStarted key value).core.Inv h) ∧
    Machine.Always (stepBytes pl) (Fits pl) (singleStarted key value) [.gcEntry, .gcDrain] := by
  obtain ⟨hput, hstarted, hagain⟩ := single_fits hfit pl
  have hinv : ∃ h, (singleStarted key value).core.Inv h :=
    ⟨_, CoreStep.takeNumber.inv (Lsm.writeEntry_inv (Lsm.fresh_inv _) .value key _)⟩
  refine ⟨always_life_bytes ⟨Lsm.fresh_fits pl _, fun s hs => ?_⟩, hinv,
    always_bytes hinv ⟨hstarted, fun s hs => ?_⟩⟩
  · have hs' : some ((fresh tightOptions).writeEntry .value key value) = some s := hs
    obtain rfl := Option.some.inj hs'
    refine ⟨hput, fun s hs => ?_⟩
    obtain rfl := Option.some.inj ((singleEntry_check hsep hbig).symm.trans hs)
    exact hput
  · obtain rfl := Option.some.inj ((singleStarted_step hsep hfit).symm.trans hs)
    refine ⟨hagain, fun s hs => ?_⟩
    have hs' : some { singleRewritten key value with
        gc := .scanning 2 [1] [] (0 + value.length) false } = some s := hs
    obtain rfl := Option.some.inj hs'
    exact hagain

theorem singleEntry_below :
    (singleEntry key value).BelowTrigger ↔
      kEntryHeaderSize + key.length + value.length < max (64 * 2 ^ 10) (2 * value.length) := by
  have hlive : (singleEntry key value).liveItems = [⟨1, ⟨key, value, 0⟩⟩] := by
    change ((singleEntry key value).gcItems [1]).filter _ = _
    rw [singleEntry_items hsep hfit, filter_cons_of_pos (singleEntry_live hsep)]
    rfl
  have hsep' : (singleEntry key value).separates .value value = true := hsep
  have hsize : (singleEntry key value).vlogGcSize = 64 * 2 ^ 10 := rfl
  unfold BelowTrigger
  rw [hlive, hsize]
  simp [separatedBytes, valueBytes, hsep']

end Single

theorem gcRetire_fits {pl : Platform} (hs : s.step .gcRetire = some s') (hf : s.Fits pl) :
    s'.core.Fits pl := by
  obtain ⟨fx, hnext⟩ := step_cases hs
  cases hnext <;> exact hf

/-- **A pass and its successor.**  Along every lifetime in which the sizes fit: after
a pass that retired the old generations with no user write since its start,
`VlogGcNeeded` is false and stays so through all background work and snapshots,
exactly if the live data that the pass found stays below the trigger it sets.  File
numbers are below 2^64.  There is no restart behind the pass: it would set the floor
back to zero. -/
theorem gcPass_fixpoint_iff {pl : Platform} {opt : Options} {life : List Life} {s₁ s₂ s₃ : DB}
    {tr : List Op} (hsize : Machine.Always (stepLifeBytes pl) (Fits pl) (fresh opt) life)
    (hlife : Machine.run (stepLifeBytes pl) (fresh opt) life = some s)
    (hnum : s.core.nextFileNumber < 2 ^ 64)
    (hstart : s.step .gcStart = some s₁) (hnone : s.core.snapshots = [])
    (hfits : Machine.Always (stepBytes pl) (Fits pl) s₁ tr)
    (hpass : Machine.run (stepBytes pl) s₁ tr = some s₂)
    (htr : ∀ op ∈ tr, userWrite op = false ∧ op ≠ .gcStart)
    (hretire : s₂.step .gcRetire = some s₃) (hnone₂ : s₂.core.snapshots = []) :
    (∀ after s₄, (∀ op ∈ after, userWrite op = false) →
      Machine.Always (stepBytes pl) (Fits pl) s₃ after →
      Machine.run (stepBytes pl) s₃ after = some s₄ → s₄.vlogGcNeeded = false) ↔
        s.BelowTrigger := by
  have hfits₂ := hfits.last hpass
  rw [run_life_of_bytes hsize] at hlife
  obtain ⟨h, hi⟩ := (run_lifeOk hlife).inv
  rw [run_of_bytes ⟨_, (step_core hstart).inv hi⟩ hfits] at hpass
  obtain ⟨hk, hnone₃⟩ := pass_settled hlife hnum hstart hnone hpass htr hretire hnone₂
  constructor
  · intro hall
    have hneed := hall [] s₃ (forall_mem_nil _) (gcRetire_fits hretire hfits₂) rfl
    by_contra hnot
    rw [(hk.needed_iff hnone₃).mpr hnot] at hneed
    cases hneed
  · intro hbelow after s₄ hafter hfits hrun
    rw [run_of_bytes hk.inv hfits] at hrun
    have hk₄ := run_kind hk (fun _ _ _ hk hop hs => hk.step hbelow hop hs) hafter hrun
    have hgt : ¬ max (max s.opt.vlogGcSize (64 * 2 ^ 10)) (2 * valueBytes s.liveItems) ≤
        s.separatedBytes s.liveItems := Nat.not_le_of_lt hbelow
    rw [hk₄.needed, decide_eq_false hgt, Bool.and_false]

/-- A long value under a short key: one pass is enough. -/
theorem gcPass_fixpoint_longValue : ∃ value : Bytes, ∃ s₂ s₃,
    (singleEntry [1] value).step .gcStart = some (singleStarted [1] value) ∧
    Machine.run (stepBytes Lsm.flat) (singleStarted [1] value) [.gcEntry, .gcDrain] = some s₂ ∧
    s₂.step .gcRetire = some s₃ ∧ s₃.vlogGcNeeded = false := by
  have hlen : (List.replicate 70000 (0 : UInt8)).length = 70000 := List.length_replicate
  generalize List.replicate 70000 (0 : UInt8) = value at hlen
  have hsep : (fresh tightOptions).separates .value value = true := by
    have hon : (fresh tightOptions).opt.enableValueSeparation = true := rfl
    have hthr : (fresh tightOptions).vsepThreshold = 1024 := rfl
    simp [separates, hon, hthr, hlen]
  have hkey : ([1] : Bytes).length = 1 := rfl
  have hfit : ([1] : Bytes).length + value.length ≤ kPreadMax := by
    rw [kPreadMax]
    omega
  have hbig : 64 * 2 ^ 10 ≤ kEntryHeaderSize + ([1] : Bytes).length + value.length := by
    rw [kEntryHeaderSize]
    omega
  obtain ⟨hsize, hinv, hfits⟩ := single_always hsep hfit hbig Lsm.flat
  have hlife := singleEntry_life hsep hbig
  rw [← run_life_of_bytes hsize] at hlife
  obtain ⟨s₂, s₃, hstart, hpass, hretire, hnone⟩ := singleEntry_pass hsep hfit
  rw [← run_of_bytes hinv hfits] at hpass
  have hall := (gcPass_fixpoint_iff hsize hlife (show 2 < 2 ^ 64 by decide) hstart rfl hfits hpass
    (by decide) hretire hnone).mpr ((singleEntry_below hsep hfit).mpr (by
      rw [kEntryHeaderSize]
      omega))
  exact ⟨value, s₂, s₃, hstart, hpass, hretire,
    hall [] s₃ (forall_mem_nil _) (gcRetire_fits hretire (hfits.last hpass)) rfl⟩

/-- **A long key over a short value**: the pass leaves a file above its own
trigger, and the collector starts over. -/
theorem gcPass_longKey : ∃ key : Bytes, ∃ s₂ s₃,
    Machine.run (stepLifeBytes Lsm.flat) (fresh tightOptions)
      [.op (.put key sampleShape), .op .gcCheck] = some (singleEntry key sampleShape) ∧
    (singleEntry key sampleShape).step .gcStart = some (singleStarted key sampleShape) ∧
    Machine.run (stepBytes Lsm.flat) (singleStarted key sampleShape) [.gcEntry, .gcDrain] =
      some s₂ ∧
    s₂.core.snapshots = [] ∧
    s₂.step .gcRetire = some s₃ ∧ s₃.vlogGcNeeded = true := by
  have hlen : (List.replicate 70000 (0 : UInt8)).length = 70000 := List.length_replicate
  generalize List.replicate 70000 (0 : UInt8) = key at hlen
  have hsep : (fresh tightOptions).separates .value sampleShape = true := by decide
  have hvalue : sampleShape.length = 21 := rfl
  have hfit : key.length + sampleShape.length ≤ kPreadMax := by
    rw [kPreadMax]
    omega
  have hbig : 64 * 2 ^ 10 ≤ kEntryHeaderSize + key.length + sampleShape.length := by
    rw [kEntryHeaderSize]
    omega
  obtain ⟨hsize, hinv, hfits⟩ := single_always hsep hfit hbig Lsm.flat
  have hlife := singleEntry_life hsep hbig
  obtain ⟨s₂, s₃, hstart, hpass, hretire, hnone⟩ := singleEntry_pass hsep hfit
  obtain ⟨hk, hnone₃⟩ := pass_settled hlife (show 2 < 2 ^ 64 by decide) hstart rfl hpass
    (by decide) hretire hnone
  rw [← run_life_of_bytes hsize] at hlife
  rw [← run_of_bytes hinv hfits] at hpass
  refine ⟨key, s₂, s₃, hlife, hstart, hpass, hnone, hretire,
    (hk.needed_iff hnone₃).mpr fun hbelow => ?_⟩
  have hlt := (singleEntry_below hsep hfit).mp hbelow
  rw [kEntryHeaderSize] at hlt
  omega

end DB

end BedrockKV
