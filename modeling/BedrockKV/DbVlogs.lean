/-
# `BedrockKV.DbVlogs` — the value-log generations along a run

`GensOk`: the generations ascend, every one has its file, the last is the one
being written, and the garbage collector works on those it should.  Every step
keeps it, without a condition on the step; which of them the MANIFEST names
follows from `step_publishes`.
-/
import BedrockKV.DbFiles

namespace BedrockKV

open List Keyed

namespace DB

structure GensOk (s : DB) : Prop where
  off : s.opt.enableValueSeparation = false → s.vlogs = [] ∧ s.disk.vlogs = [] ∧ s.gc = .idle
  on : s.opt.enableValueSeparation = true → s.vlogs.getLast? = some s.vlogCurrent
  ascending : (0 :: s.vlogs).Pairwise (· < ·)
  lt : ∀ n ∈ s.vlogs, n < s.core.nextFileNumber
  present : ∀ n ∈ s.vlogs, n ∈ Keyed.keys s.disk.vlogs
  gc : GcOk s.vlogs s.gc

variable {s s' : DB} {h : List Entry}

theorem fresh_gensOk (opt : Options) : (fresh opt).GensOk := by
  refine ⟨fun hoff => ?_, fun hon => ?_, ?_, ?_, ?_, trivial⟩
  · have hoff : opt.enableValueSeparation = false := hoff
    simp [fresh, hoff]
  · have hon : opt.enableValueSeparation = true := hon
    simp [fresh, hon]
  · cases hsep : opt.enableValueSeparation <;> simp [fresh, hsep]
  · cases hsep : opt.enableValueSeparation <;> simp [fresh, Lsm.fresh, hsep]
  · cases hsep : opt.enableValueSeparation <;> simp [fresh, hsep, Keyed.keys]

theorem DiskOk.gens (hd : s.DiskOk) : s.GensOk :=
  have hv := hd.vlogs
  ⟨fun hoff => ⟨(hv.off hoff).1, (hd.keeps.separation hoff).1, (hv.off hoff).2⟩, hv.on,
    hv.ascending,
    hv.lt, hv.present, hv.gc⟩

theorem GcOk.drained {vlogs : List Nat} {g : GcStage} (hg : GcOk vlogs g) :
    GcOk vlogs (GcStage.drained g) := by
  cases g <;> exact hg

theorem filter_retired {vlogs retired : List Nat} {fresh : Nat} (hv : vlogs = retired ++ [fresh])
    (hasc : (0 :: vlogs).Pairwise (· < ·)) :
    (vlogs.filter fun n => decide (n ∉ retired)) = [fresh] := by
  subst hv
  have hfresh : fresh ∉ retired := fun hmem =>
    lt_irrefl _ ((pairwise_append.mp (pairwise_cons.mp hasc).2).2.2 fresh hmem fresh
      (mem_singleton_self _))
  rw [filter_append, filter_eq_nil_iff.mpr, nil_append, filter_eq_self.mpr]
  · intro n hn
    rw [mem_singleton.mp hn]
    simpa using hfresh
  · intro n hn
    simpa using hn

section

variable (hv : s.GensOk)
include hv

theorem GensOk.vlogsOk (hnamed : s.disk.manifestState.vlogs = s.vlogs ∨
    s.disk.manifestState.vlogs = [] ∧ s.vlogs = [1]) : s.VlogsOk :=
  ⟨fun hoff => ⟨(hv.off hoff).1, (hv.off hoff).2.2⟩, hv.on, hv.ascending, hv.lt, hnamed, hv.present,
    hv.gc⟩

theorem GensOk.frame (hopt : s'.opt = s.opt) (hvlogs : s'.vlogs = s.vlogs)
    (hcur : s'.vlogCurrent = s.vlogCurrent) (hnext : s.core.nextFileNumber ≤ s'.core.nextFileNumber)
    (hoff : s.opt.enableValueSeparation = false → s'.disk.vlogs = s.disk.vlogs ∧ s'.gc = s.gc)
    (hkeys : ∀ n ∈ s.vlogs, n ∈ Keyed.keys s.disk.vlogs → n ∈ Keyed.keys s'.disk.vlogs)
    (hgc : GcOk s.vlogs s'.gc) : s'.GensOk := by
  refine ⟨?_, ?_, hvlogs ▸ hv.ascending, ?_, ?_, hvlogs ▸ hgc⟩
  · rw [hopt, hvlogs]
    intro hf
    rw [(hoff hf).1, (hoff hf).2]
    exact hv.off hf
  · rw [hopt, hvlogs, hcur]
    exact hv.on
  · rw [hvlogs]
    exact fun n hn => lt_of_lt_of_le (hv.lt n hn) hnext
  · rw [hvlogs]
    exact fun n hn => hkeys n hn (hv.present n hn)

theorem GensOk.quiet {c : Lsm} {g : GcStage} (hopt : c.opt = s.core.opt)
    (hnext : s.core.nextFileNumber ≤ c.nextFileNumber) (hg : GcOk s.vlogs g)
    (hidle : s.gc = .idle → s.opt.enableValueSeparation = false → g = .idle) :
    ({ s with core := c, gc := g } : DB).GensOk :=
  hv.frame hopt rfl rfl hnext
    (fun hoff => ⟨rfl, (hidle (hv.off hoff).2.2 hoff).trans (hv.off hoff).2.2.symm⟩)
    (fun _ _ hk => hk) hg

theorem GensOk.perform {fx : List Effect}
    (hfx : (s.disk.applyAll fx).vlogs = s.disk.vlogs) : (s.perform fx).GensOk :=
  hv.frame rfl rfl rfl le_rfl (fun _ => ⟨hfx, rfl⟩)
    (fun _ _ hk => (congrArg Keyed.keys hfx).symm ▸ hk) hv.gc

theorem rotate_gensOk : s.rotateForFlush.GensOk :=
  hv.frame rfl rfl rfl (Nat.le_add_right _ _) (fun _ => ⟨rfl, rfl⟩) (fun _ _ hk => hk) hv.gc

theorem writeEntry_gensOk (type : ValueType) (key value : Bytes) :
    (s.writeEntry type key value).GensOk := by
  obtain ⟨vlogs, hkeys, hdisk⟩ := disk_write s type key value
  refine hv.frame rfl rfl rfl le_rfl (fun hoff => ⟨?_, rfl⟩) (fun n _ hk => ?_) hv.gc
  · -- with the switch off there is no file, and none is made
    have hnil := (hv.off hoff).2.1
    rw [hnil] at hkeys ⊢
    rw [hdisk]
    exact map_eq_nil_iff.mp hkeys
  · rw [hdisk]
    exact hkeys ▸ hk

theorem put_gensOk (type : ValueType) (key value : Bytes) :
    (s.makeRoom.writeEntry type key value).GensOk := by
  refine writeEntry_gensOk ?_ type key value
  unfold makeRoom
  split
  · exact rotate_gensOk hv
  · exact hv

theorem GensOk.separation_on (hg : s.gc ≠ .idle) :
    s.opt.enableValueSeparation = true := by
  by_contra hoff
  exact hg (hv.off (by simpa using hoff)).2.2

theorem gcStart_gensOk (hnext : 0 < s.core.nextFileNumber) (hgc : s.gc = .triggered) :
    (s.gcSwitch.perform
      [.createVlog s.core.nextFileNumber, .publish s.gcSwitch.manifest]).GensOk := by
  have hon := hv.separation_on (by simp [hgc])
  set n := s.core.nextFileNumber with hn
  refine ⟨fun hoff => absurd (hon.symm.trans hoff) (by decide), fun _ => getLast?_concat, ?_,
    ?_, ?_, rfl⟩
  · change (0 :: (s.vlogs ++ [n])).Pairwise _
    rw [← cons_append]
    refine pairwise_append.mpr ⟨hv.ascending, pairwise_singleton _ _, ?_⟩
    intro a ha b hb
    rw [mem_singleton.mp hb]
    rcases mem_cons.mp ha with rfl | ha
    · exact hnext
    · exact hv.lt a ha
  · intro k hk
    rcases mem_append.mp hk with hk | hk
    · exact Nat.lt_succ_of_lt (hv.lt k hk)
    · exact (mem_singleton.mp hk) ▸ Nat.lt_succ_self n
  · intro k hk
    rcases mem_append.mp hk with hk | hk
    · obtain ⟨f, hf⟩ := mem_keys.mp (hv.present k hk)
      exact mem_keys.mpr ⟨f, mem_set.mpr (.inl ⟨hf, ne_of_lt (hv.lt k hk)⟩)⟩
    · exact mem_keys.mpr ⟨.empty, mem_set.mpr (.inr (by rw [mem_singleton.mp hk]))⟩

theorem gcRetire_gensOk {fresh rewritten : Nat} {retired : List Nat}
    (hgc : s.gc = .scanning fresh retired [] rewritten false) :
    ((s.gcDropped retired rewritten).perform
      (s.syncEffects ++ [.publish (s.gcDropped retired rewritten).manifest])).GensOk := by
  have hon := hv.separation_on (by simp [hgc])
  have hg := hv.gc
  rw [hgc] at hg
  have hfilter : (s.vlogs.filter fun n => decide (n ∉ retired)) = [fresh] :=
    filter_retired hg hv.ascending
  have hfresh : fresh ∈ s.vlogs := hg ▸ mem_append_right _ (mem_singleton_self _)
  obtain ⟨vlogs, hkeys, hdisk⟩ := syncEffects_disk s
  have hvlogs : ((s.gcDropped retired rewritten).perform
      (s.syncEffects ++ [.publish (s.gcDropped retired rewritten).manifest])).vlogs = [fresh] :=
        hfilter
  have hfiles : ((s.gcDropped retired rewritten).perform
      (s.syncEffects ++ [.publish (s.gcDropped retired rewritten).manifest])).disk.vlogs =
        vlogs := by
    unfold DB.perform
    rw [Disk.applyAll_append]
    exact (congrArg Disk.vlogs hdisk :)
  refine ⟨fun hoff => absurd (hon.symm.trans hoff) (by decide), fun _ => ?_, ?_, ?_, ?_, ?_⟩
  · have hlast := hv.on hon
    rw [hg, getLast?_concat] at hlast
    rw [hvlogs]
    exact hlast
  · rw [hvlogs]
    exact hv.ascending.sublist (List.Sublist.cons_cons _ (singleton_sublist.mpr hfresh))
  · intro n hn
    rw [hvlogs] at hn
    exact hv.lt n ((mem_singleton.mp hn).symm ▸ hfresh)
  · intro n hn
    rw [hvlogs] at hn
    rw [hfiles, hkeys]
    exact hv.present n ((mem_singleton.mp hn).symm ▸ hfresh)
  · intro n hn hmem
    have hmem' : n ∈ s.vlogs.filter fun n => decide (n ∉ retired) := hmem
    exact absurd hn (by simpa using (mem_filter.mp hmem').2)

end

theorem mem_keys_unlinkVlogs {ns : List Nat} {k : Nat} (hk : k ∉ ns) : ∀ {d : Disk},
    k ∈ Keyed.keys d.vlogs → k ∈ Keyed.keys (d.applyAll (ns.map .unlinkVlog)).vlogs := by
  induction ns with
  | nil => exact id
  | cons n ns ih =>
    intro d hmem
    obtain ⟨hne, hk⟩ := not_or.mp (mt mem_cons.mpr hk)
    obtain ⟨f, hf⟩ := mem_keys.mp hmem
    exact @ih hk (d.apply (.unlinkVlog n)) (mem_keys.mpr ⟨f, mem_erase.mpr ⟨hf, hne⟩⟩)

/-- **Every step keeps the generations.** -/
theorem GensOk.step (hi : s.core.Inv h) (hv : s.GensOk) (hnext : 0 < s.core.nextFileNumber)
    {op : Op}
    (hs : s.step op = some s') : s'.GensOk := by
  have hidle : ∀ {g : GcStage}, s.gc = g → g ≠ .idle → ∀ {g' : GcStage}, s.gc = .idle →
      s.opt.enableValueSeparation = false → g' = .idle :=
    fun hg hne _ hid _ => absurd (hg.symm.trans hid) hne
  have hgc := hv.gc
  obtain ⟨_, hn⟩ := step_cases hs
  cases hn with
  | put | delete => exact put_gensOk hv _ _ _
  | rotate => exact rotate_gensOk hv
  | flushBuilt => exact (hv.perform rfl).quiet rfl le_rfl hgc fun hid _ => hid
  | flushFailed | gcDefer | gcAbort => exact hv.quiet rfl le_rfl trivial fun _ _ => rfl
  | flushInstall hc =>
    obtain ⟨t, -, rfl⟩ := Lsm.flushInstall_cases hc
    exact (hv.perform rfl).quiet rfl le_rfl hgc fun hid _ => hid
  | flushDone =>
    refine (hv.perform rfl).quiet rfl le_rfl hgc.drained fun hid _ => ?_
    rw [show s.gc = .idle from hid]
    rfl
  | pick _ hc =>
    obtain ⟨x, -, -, -, -, rfl⟩ := Lsm.pick_cases hc
    exact hv.quiet rfl le_rfl hgc fun hid _ => hid
  | captureFloor hc =>
    obtain ⟨x, ts, -, -, rfl⟩ := Lsm.captureFloor_cases hi hc
    exact hv.quiet rfl le_rfl hgc fun hid _ => hid
  | sealOutput _ hc =>
    obtain ⟨x, floor, t, todo, outputs, -, rfl⟩ := Lsm.sealOutput_cases hc
    exact (hv.perform rfl).quiet rfl (Nat.le_succ _) hgc fun hid _ => hid
  | @installCompaction c x _ _ _ hc =>
    have hperf : (s.perform (.publish (s.installed c).manifest ::
        x.inputs.map fun r => .unlinkSst r.number)).GensOk :=
      hv.perform (unlinkSsts_frame _ _).2.1
    obtain ⟨x', floor, outputs, -, rfl⟩ := Lsm.installCompaction_cases hc
    exact hperf.quiet rfl le_rfl hgc fun hid _ => hid
  | getSnapshot | releaseSnapshot => exact hv.quiet rfl le_rfl hgc fun hid _ => hid
  | gcCheck _ _ _ _ hneed =>
    refine hv.quiet rfl le_rfl trivial fun _ hoff => ?_
    simp [vlogGcNeeded, hoff] at hneed
  | gcStart hg => exact gcStart_gensOk hv hnext hg
  | @gcRewrite _ _ _ x _ hg =>
    rw [hg] at hgc
    exact (writeEntry_gensOk hv .value x.entry.key x.entry.value).quiet rfl le_rfl hgc
      (hidle hg (by simp))
  | gcDead hg | gcDrain hg =>
    rw [hg] at hgc
    exact hv.quiet rfl le_rfl hgc (hidle hg (by simp))
  | gcRetire hg => exact gcRetire_gensOk hv hg
  | gcUnlink hg =>
    rw [hg] at hgc
    have hon := hv.separation_on (by simp [hg])
    exact hv.frame rfl rfl rfl le_rfl (fun hoff => absurd (hon.symm.trans hoff) (by decide))
      (fun n hn hk => mem_keys_unlinkVlogs (fun hr => hgc n hr hn) hk) trivial

/-! ## Restarts -/

theorem mem_openVlog (vlogs : List (Nat × File)) (n k : Nat) :
    k ∈ Keyed.keys (openVlog vlogs n) ↔ k ∈ Keyed.keys vlogs ∨ k = n := by
  unfold openVlog
  split
  · next f hget =>
    refine ⟨.inl, fun hk => hk.elim id ?_⟩
    rintro rfl
    exact Keyed.mem_keys.mpr ⟨f, Keyed.mem_of_get? hget⟩
  · next hnone =>
    rw [Keyed.set_of_notMem (Keyed.get?_eq_none.mp hnone), Keyed.keys_append, mem_append]
    exact or_congr_right mem_singleton

theorem mem_openVlogs (ns : List Nat) (k : Nat) : ∀ vlogs : List (Nat × File),
    k ∈ Keyed.keys (ns.foldl openVlog vlogs) ↔ k ∈ Keyed.keys vlogs ∨ k ∈ ns := by
  induction ns with
  | nil => simp
  | cons n ns ih =>
    intro vlogs
    rw [foldl_cons, ih, mem_openVlog, or_assoc, mem_cons]

theorem opened_gensOk {opt : Options} {d : Disk} {refs : List TableRef}
    (hasc : (0 :: d.manifestState.vlogs).Pairwise (· < ·)) : (opened opt d refs).GensOk := by
  set vlogs := liveVlogs opt d.manifestState with hv
  have hvlogs : (opened opt d refs).vlogs = vlogs := rfl
  refine ⟨fun hoff => ?_, fun hon => ?_, ?_, fun n hn => ?_, fun n hn => ?_, trivial⟩
  · have hoff : opt.enableValueSeparation = false := hoff
    have hnil : vlogs = [] := by simp [hv, liveVlogs, hoff]
    refine ⟨hnil, ?_, rfl⟩
    change (vlogs.foldl openVlog d.vlogs).filter (fun p => decide (p.1 ∈ vlogs)) = []
    simp [hnil]
  · have hon : opt.enableValueSeparation = true := hon
    have hne : vlogs ≠ [] := by
      rw [hv, liveVlogs, if_pos hon]
      split
      · exact cons_ne_nil _ _
      · assumption
    rw [hvlogs, getLast?_eq_some_getLast hne]
    change _ = some (vlogs.getLast?.getD 0)
    rw [getLast?_eq_some_getLast hne]
    rfl
  · rw [hvlogs, hv, liveVlogs]
    split
    · split
      · decide
      · exact hasc
    · exact pairwise_singleton _ _
  · refine Nat.lt_succ_of_le (le_trans (le_maxOf (.inl ?_)) (le_max_left _ _))
    exact mem_append_right _ hn
  · have hmem := (mem_openVlogs vlogs n d.vlogs).mpr (.inr hn)
    obtain ⟨f, hf⟩ := mem_keys.mp hmem
    exact mem_keys.mpr ⟨f, mem_filter.mpr ⟨hf, decide_eq_true hn⟩⟩

end DB

end BedrockKV
