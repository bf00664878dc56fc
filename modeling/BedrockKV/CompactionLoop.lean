/-
# `BedrockKV.CompactionLoop` — the loops around a compaction end

Two loops of the background thread have no bound of their own.
`PickCompaction` takes files of the output level as long as its key range
grows: `pickCompaction_closed` says that it stops, and what it has then.
`BackgroundLoop` compacts as long as `CompactionNeeded`: `compactions_return`
says that this stops as well, whatever the files turn out to be.

The sizes of files decide whether there is more to do, but they do not bound
it.  What falls with every compaction is

    weight v = Σ over the entries of v of the levels below them, and one

since each entry of `inputs_a` moves down by one level or is dropped, and
those of `inputs_b` stay on theirs or are dropped.
-/
import BedrockKV.Lib.Loop
import BedrockKV.Picked
import BedrockKV.Retention

namespace BedrockKV

open List Loop MultiVersion

/-! ## Picking -/

/-- A round of `while (changed)`. -/
def expandRound (target : List TableRef) (x : Expansion) : Expansion ⊕ Expansion :=
  if x.changed then .inr (expandPass target x) else .inl x

theorem expand_returns {target : List TableRef} {fuel : Nat} : ∀ {x : Expansion},
    x.changed = true → (x.unpicked target).length < fuel →
      Returns (expandRound target) x (expand target fuel x) := by
  induction fuel with
  | zero => exact fun _ h => absurd h (Nat.not_lt_zero _)
  | succ fuel ih =>
    intro x hx hlt
    refine .next (if_pos hx) ?_
    simp only [expand]
    split
    · next hch =>
      have hless : ((expandPass target x).unpicked target).length < (x.unpicked target).length :=
        @unpicked_foldl_lt target target { x with changed := false } (fun r hr => hr) rfl hch
      exact ih hch (by omega)
    · next hch => exact .done (if_neg hch)

/-- The files of the source level. -/
def Version.sourceFiles (v : Version) (c : Compaction) : List TableRef :=
  match c.source with
  | none => v.l0
  | some i => v.levels i

variable {opt : Options} {rs : List TableRef} {floor : ReadSeq}

/-- Where `inputs_a` comes from, and that it is not empty where a level is over its limit. -/
theorem pickCompaction_cases {v : Version} (hdue : compactionDue opt v = true) :
    (opt.l0CompactionTrigger ≤ v.l0.length ∧
      pickCompaction opt v =
        some ⟨v.l0, (expandInputs v.l0 (v.levels level1)).picked, none, level1⟩) ∨
    ∃ i out r rest, ¬ opt.l0CompactionTrigger ≤ v.l0.length ∧ out.val = i.val + 1 ∧
      v.levels i = r :: rest ∧
      pickCompaction opt v =
        some ⟨[r], (expandInputs [r] (v.levels out)).picked, some i, out⟩ := by
  unfold pickCompaction
  by_cases htrigger : opt.l0CompactionTrigger ≤ v.l0.length
  · exact .inl ⟨htrigger, if_pos htrigger⟩
  · have hsome : (overfullLevel opt v).isSome = true := by
      simpa [compactionDue, htrigger] using hdue
    obtain ⟨i, hi⟩ := Option.isSome_iff_exists.mp hsome
    obtain ⟨r, rest, hlevel⟩ := exists_cons_of_ne_nil (overfullLevel_spec hi)
    have hlt : i.val + 1 < kMaxLevels - 1 := by
      have hpred := find?_some hi
      simp only [Bool.and_eq_true, decide_eq_true_eq] at hpred
      exact hpred.1
    refine .inr ⟨i, ⟨i.val + 1, hlt⟩, r, rest, htrigger, rfl, hlevel, ?_⟩
    rw [if_neg htrigger, hi]
    dsimp only
    rw [dif_pos hlt, hlevel]
    rfl

/-- **What `PickCompaction` picks**, with every level sorted and disjoint: its loop ends; the
files of the output level are taken once each; the hull of everything taken meets no file
that is left there; and of the source level every version of a key that is taken is taken.
There is something to compact unless the trigger is zero and L0 is empty. -/
theorem pickCompaction_closed {opt : Options} {v : Version} (hok : ∀ i, LevelOk (v.levels i))
    (hdue : compactionDue opt v = true) :
    ∃ c, pickCompaction opt v = some c ∧
      (∃ x, Returns (expandRound (v.levels c.output))
        ⟨[], (inputRange c.inputsA).1, (inputRange c.inputsA).2, true⟩ x ∧ x.picked = c.inputsB) ∧
      (c.inputsA = [] ↔ opt.l0CompactionTrigger = 0 ∧ v.l0 = []) ∧
      (∀ r ∈ c.inputsB, r ∈ v.levels c.output) ∧
      (c.inputsB.map TableRef.number).Nodup ∧
      (∀ r ∈ v.levels c.output, r.number ∉ c.inputsB.map TableRef.number →
        (∀ t ∈ c.inputs, r.largest < t.smallest) ∨ ∀ t ∈ c.inputs, t.largest < r.smallest) ∧
      ∀ e ∈ levelEntries c.inputsA, ∀ x ∈ levelEntries (v.sourceFiles c),
        x.user = e.user → x ∈ levelEntries c.inputsA := by
  have hloop : ∀ inputsA target, Returns (expandRound target)
      ⟨[], (inputRange inputsA).1, (inputRange inputsA).2, true⟩ (expandInputs inputsA target) :=
    fun inputsA target => expand_returns rfl (Nat.lt_succ_of_le (List.length_filter_le _ _))
  have hapart : ∀ inputsA target, ∀ r ∈ target,
      r.number ∉ (expandInputs inputsA target).picked.map TableRef.number →
        (∀ t ∈ inputsA ++ (expandInputs inputsA target).picked, r.largest < t.smallest) ∨
        ∀ t ∈ inputsA ++ (expandInputs inputsA target).picked, t.largest < r.smallest := by
    intro inputsA target r hr hnot
    obtain ⟨-, -, lo, hi, hrange, hout⟩ := expandInputs_spec inputsA target
    rcases hout r hr hnot with hlt | hlt
    · exact Or.inl fun t ht => lt_of_lt_of_le hlt (hrange t ht).1
    · exact Or.inr fun t ht => lt_of_le_of_lt (hrange t ht).2 hlt
  rcases pickCompaction_cases hdue with
    ⟨htrigger, hpick⟩ | ⟨i, out, r, rest, htrigger, hout, hlevel, hpick⟩
  · obtain ⟨hsub, hnd, -⟩ := expandInputs_spec v.l0 (v.levels level1)
    refine ⟨_, hpick, ⟨_, hloop _ _, rfl⟩, ?_, hsub, hnd, hapart _ _, fun _ _ x hx _ => hx⟩
    constructor
    · intro hnil
      have hlen : v.l0.length = 0 := List.length_eq_zero_iff.mpr hnil
      exact ⟨by omega, hnil⟩
    · exact fun h => h.2
  · obtain ⟨hsub, hnd, -⟩ := expandInputs_spec [r] (v.levels out)
    refine ⟨_, hpick, ⟨_, hloop _ _, rfl⟩, ?_, hsub, hnd, hapart _ _, ?_⟩
    · refine iff_of_false (List.cons_ne_nil _ _) ?_
      rintro ⟨hzero, -⟩
      omega
    · -- the other files of the level begin behind the first
      intro e he x hx hu
      obtain ⟨t, ht, hxt⟩ := mem_levelEntries.mp hx
      obtain ⟨r', hr', her⟩ := mem_levelEntries.mp he
      obtain rfl := List.mem_singleton.mp hr'
      have hlevel' : v.levels i = r' :: rest := hlevel
      have ht' : t ∈ v.levels i := ht
      rw [hlevel'] at ht'
      rcases List.mem_cons.mp ht' with rfl | ht'
      · exact mem_levelEntries.mpr ⟨t, List.mem_singleton.mpr rfl, hxt⟩
      · have hlt : r'.largest < t.smallest := by
          have hi := hok i
          rw [hlevel'] at hi
          exact (List.pairwise_cons.mp hi).1 t ht'
        have hle : e.user ≤ r'.largest := Table.le_largest her
        have hge : t.smallest ≤ x.user := Table.smallest_le hxt
        exact absurd hu (ne_of_gt (lt_of_le_of_lt hle (lt_of_lt_of_le hlt hge)))

/-- One file on L0 over the first of two on L1. -/
def sampleVersion : Version where
  l0 := [⟨⟨[⟨ascii "b", 3, .value, []⟩], by decide, by decide⟩, ⟨4, 0, 3, 3, 1, 0, [], []⟩⟩]
  levels i :=
    if i = level1 then
      [⟨⟨[⟨ascii "a", 1, .value, []⟩, ⟨ascii "b", 1, .value, []⟩], by decide, by decide⟩,
        ⟨2, 1, 1, 1, 2, 0, [], []⟩⟩,
       ⟨⟨[⟨ascii "c", 2, .value, []⟩], by decide, by decide⟩, ⟨3, 1, 2, 2, 1, 0, [], []⟩⟩]
    else []

theorem pickCompaction_sampleVersion :
    ((∀ i, LevelOk (sampleVersion.levels i)) ∧
      compactionDue { plainOptions with l0CompactionTrigger := 1 } sampleVersion = true) ∧
    ∃ c, pickCompaction { plainOptions with l0CompactionTrigger := 1 } sampleVersion = some c ∧
      c.inputsA ≠ [] ∧ ∀ r ∈ sampleVersion.levels c.output,
        r.number ∉ c.inputsB.map TableRef.number →
          (∀ t ∈ c.inputs, r.largest < t.smallest) ∨ ∀ t ∈ c.inputs, t.largest < r.smallest := by
  have hok : ∀ i, LevelOk (sampleVersion.levels i) := by decide
  have hdue : compactionDue { plainOptions with l0CompactionTrigger := 1 } sampleVersion =
      true := by
    decide
  obtain ⟨c, hpick, -, hne, -, -, hapart, -⟩ := pickCompaction_closed hok hdue
  exact ⟨⟨hok, hdue⟩, c, hpick, fun hnil => absurd (hne.mp hnil).1 (by decide), hapart⟩

/-- With a trigger of zero a compaction is due and takes nothing. -/
theorem pickCompaction_nothing :
    (∀ i, LevelOk (Version.empty.levels i)) ∧
    compactionDue { plainOptions with l0CompactionTrigger := 0 } Version.empty = true ∧
    ∃ c, pickCompaction { plainOptions with l0CompactionTrigger := 0 } Version.empty = some c ∧
      c.inputsA = [] :=
  ⟨fun _ => List.Pairwise.nil, rfl, _, rfl, rfl⟩

/-! ## Compacting -/

/-- What a compaction finds and leaves beside the version: the floor, and number, level and
size of each file it writes. -/
structure CompactionOutcome where
  floor : ReadSeq
  fileMeta : Nat → FileMeta

/-- What `BackgroundLoop` compacts. -/
structure Background where
  current : Version
  compactionDisabled : Bool

def Background.compactionNeeded (opt : Options) (b : Background) : Bool :=
  BedrockKV.compactionNeeded opt b.compactionDisabled b.current

/-- `PickCompaction` and `RunCompaction`; after an error there is no further one. -/
def Background.compact (opt : Options) (o : CompactionOutcome) (b : Background) : Background :=
  match pickCompaction opt b.current with
  | none => b
  | some c =>
    match mergeTables opt o.floor c with
    | .error _ => { b with compactionDisabled := true }
    | .ok ts =>
      { b with
        current := installVersion b.current c (ts.mapIdx fun i t => ⟨t, o.fileMeta i⟩) }

/-- A round of the loop, and how many there were before it. -/
def compactRound (opt : Options) (outcomes : Nat → CompactionOutcome) :
    Nat × Background → Background ⊕ (Nat × Background)
  | (n, b) =>
    if b.compactionNeeded opt then .inr (n + 1, b.compact opt (outcomes n)) else .inl b

/-! ## The weight of a version -/

/-- The entries of some files. -/
def entryCount (rs : List TableRef) : Nat := (levelEntries rs).length

/-- Every entry counts for its level: one on the last, one more on each level above. -/
def Version.weight (v : Version) : Nat :=
  kMaxLevels * entryCount v.l0 + ∑ i, (kMaxLevels - 1 - i.val) * entryCount (v.levels i)

theorem entryCount_cons (r : TableRef) (rs : List TableRef) :
    entryCount (r :: rs) = r.entries.length + entryCount rs := by
  simp [entryCount, levelEntries]

theorem entryCount_append (rs ts : List TableRef) :
    entryCount (rs ++ ts) = entryCount rs + entryCount ts := by
  simp [entryCount, levelEntries]

theorem entryCount_pos (h : rs ≠ []) : 0 < entryCount rs := by
  obtain ⟨r, rs, rfl⟩ := exists_cons_of_ne_nil h
  have := length_pos_of_ne_nil r.table.ne
  rw [entryCount_cons]
  exact Nat.add_pos_left this _

theorem entryCount_perm {ts : List TableRef} (h : rs.Perm ts) : entryCount rs = entryCount ts :=
  (h.flatMap_right _).length_eq

theorem entryCount_sublist {ts : List TableRef} (h : rs.Sublist ts) :
    entryCount rs ≤ entryCount ts := by
  induction h with
  | slnil => exact le_rfl
  | cons r _ ih =>
    rw [entryCount_cons]
    omega
  | cons_cons r _ ih =>
    rw [entryCount_cons, entryCount_cons]
    omega

theorem entryCount_removeNumbers {level removed : List TableRef}
    (hnd : (removed.map TableRef.number).Nodup) (hsub : ∀ r ∈ removed, r ∈ level) :
    entryCount (removeNumbers level removed) + entryCount removed ≤ entryCount level := by
  have hperm : (level.filter (fun r => decide (r.number ∈ removed.map TableRef.number)) ++
      removeNumbers level removed).Perm level := by
    have h := filter_append_perm
      (fun r : TableRef => decide (r.number ∈ removed.map TableRef.number)) level
    simpa only [removeNumbers, decide_not] using h
  have hsubperm : removed.Subperm
      (level.filter fun r => decide (r.number ∈ removed.map TableRef.number)) := by
    refine (List.Nodup.of_map _ hnd).subperm fun r hr => ?_
    exact mem_filter.mpr ⟨hsub r hr, decide_eq_true (mem_map_of_mem hr)⟩
  obtain ⟨rs, hrs, hle⟩ := hsubperm
  have h₁ := entryCount_sublist hle
  have h₂ := entryCount_perm hperm
  rw [entryCount_append] at h₂
  rw [entryCount_perm hrs] at h₁
  omega

theorem entryCount_sortBySmallest (rs : List TableRef) :
    entryCount (sortBySmallest rs) = entryCount rs :=
  entryCount_perm (perm_insertionSort _ _)

/-! ## What a merge writes -/

theorem length_seal_written (st : MergeState) : st.seal.written.length = st.written.length := by
  unfold MergeState.seal Builder.finish
  split
  · rfl
  · next t ht =>
    split at ht
    · cases ht
      simp [MergeState.written, Builder.new]
    · cases ht

theorem length_enterUser_written (opt : Options) (st : MergeState) (user : Bytes) :
    (st.enterUser opt user).written.length = st.written.length := by
  unfold MergeState.enterUser
  split
  · rfl
  · dsimp only
    split
    · exact length_seal_written st
    · rfl

theorem length_mergeStep_written {bottom : Bool} {st st' : MergeState} {e : Entry}
    (h : mergeStep opt floor bottom st e = .ok st') :
    st'.written.length ≤ st.written.length + 1 := by
  have hlen := length_enterUser_written opt st e.user
  unfold mergeStep at h
  dsimp only at h
  split at h
  · split at h
    · next b hb =>
      obtain rfl := Except.ok.inj h
      have hentries : b.entries = (st.enterUser opt e.user).builder.entries ++ [e] := by
        unfold Builder.add at hb
        split at hb
        · obtain rfl := Except.ok.inj hb
          rfl
        · cases hb
      simp only [MergeState.written, hentries, length_append, length_singleton] at hlen ⊢
      omega
    · cases h
  · obtain rfl := Except.ok.inj h
    exact (Nat.le_of_eq hlen).trans (Nat.le_succ _)

theorem length_mergeLoop_written {bottom : Bool} {es : List Entry} :
    ∀ {st st' : MergeState}, mergeLoop opt floor bottom st es = .ok st' →
      st'.written.length ≤ st.written.length + es.length := by
  induction es with
  | nil =>
    intro st st' h
    obtain rfl := Except.ok.inj h
    rw [length_seal_written]
    exact Nat.le_add_right _ _
  | cons e es ih =>
    intro st st' h
    rw [mergeLoop] at h
    split at h
    · next st₁ hstep =>
      have h₁ := length_mergeStep_written hstep
      have h₂ := ih h
      rw [length_cons]
      omega
    · cases h

theorem entryCount_mapIdx (ts : List Table) (m : Nat → FileMeta) :
    entryCount (ts.mapIdx fun i t => ⟨t, m i⟩) = (ts.flatMap Table.entries).length := by
  have hmap : (ts.mapIdx fun i t => (⟨t, m i⟩ : TableRef)).map TableRef.entries =
      ts.map Table.entries := by
    refine ext_getElem? fun i => ?_
    simp only [getElem?_map, getElem?_mapIdx, Option.map_map]
    rfl
  rw [entryCount, levelEntries, flatMap_def, hmap, flatMap_def]

/-- No compaction writes more than it reads. -/
theorem entryCount_mergeTables {c : Compaction} {ts : List Table}
    (h : mergeTables opt floor c = .ok ts) (m : Nat → FileMeta) :
    entryCount (ts.mapIdx fun i t => ⟨t, m i⟩) ≤ entryCount c.inputsA + entryCount c.inputsB := by
  rw [mergeTables] at h
  cases hloop : mergeLoop opt floor c.bottom MergeState.start
      (merge (c.inputs.map TableRef.entries)) with
  | error status =>
    rw [hloop] at h
    cases h
  | ok st =>
    rw [hloop] at h
    obtain rfl := Except.ok.inj h
    have hlen := length_mergeLoop_written hloop
    rw [(perm_merge _).length_eq, ← flatMap_def] at hlen
    have hin : (c.inputs.flatMap TableRef.entries).length =
        entryCount c.inputsA + entryCount c.inputsB := entryCount_append _ _
    have hstart : MergeState.start.written.length = 0 := rfl
    have hout : (st.outputs.flatMap Table.entries).length ≤ st.written.length := by
      rw [MergeState.written, length_append]
      exact Nat.le_add_right _ _
    rw [entryCount_mapIdx]
    omega

/-! ## The loop -/

theorem weight_update (l0 : List TableRef) (levels : LevelIndex → List TableRef) (j : LevelIndex)
    (level : List TableRef) :
    Version.weight ⟨l0, Function.update levels j level⟩ +
        (kMaxLevels - 1 - j.val) * entryCount (levels j) =
      Version.weight ⟨l0, levels⟩ + (kMaxLevels - 1 - j.val) * entryCount level := by
  have hrest : ∑ i ∈ Finset.univ.erase j,
        (kMaxLevels - 1 - i.val) * entryCount (Function.update levels j level i) =
      ∑ i ∈ Finset.univ.erase j, (kMaxLevels - 1 - i.val) * entryCount (levels i) := by
    refine Finset.sum_congr rfl fun i hi => ?_
    rw [Function.update_of_ne (Finset.ne_of_mem_erase hi)]
  simp only [Version.weight]
  rw [← Finset.add_sum_erase _ _ (Finset.mem_univ j), hrest, Function.update_self,
    ← Finset.add_sum_erase Finset.univ (fun i : LevelIndex =>
      (kMaxLevels - 1 - i.val) * entryCount (levels i)) (Finset.mem_univ j)]
  omega

theorem weight_l0 (l0 l0' : List TableRef) (levels : LevelIndex → List TableRef) :
    Version.weight ⟨l0, levels⟩ + kMaxLevels * entryCount l0' =
      Version.weight ⟨l0', levels⟩ + kMaxLevels * entryCount l0 := by
  simp only [Version.weight]
  omega

/-- **A compaction lets the weight fall.** -/
theorem weight_install_lt {v : Version} {c : Compaction} {ts : List Table}
    (htrigger : 1 ≤ opt.l0CompactionTrigger) (hdue : compactionDue opt v = true)
    (hpick : pickCompaction opt v = some c) (hmerge : mergeTables opt floor c = .ok ts)
    (m : Nat → FileMeta) :
    (installVersion v c (ts.mapIdx fun i t => ⟨t, m i⟩)).weight < v.weight := by
  have hwrite := entryCount_mergeTables hmerge m
  generalize (ts.mapIdx fun i t => (⟨t, m i⟩ : TableRef)) = outs at hwrite ⊢
  rcases pickCompaction_cases hdue with ⟨hl0, heq⟩ | ⟨i, out, r, rest, -, hout, hcons, heq⟩
  · obtain rfl := Option.some.inj (hpick.symm.trans heq)
    obtain ⟨hsub, hnd, -⟩ := expandInputs_spec v.l0 (v.levels level1)
    have hrem := entryCount_removeNumbers hnd hsub
    have hpos : 0 < entryCount v.l0 := by
      refine entryCount_pos fun hnil => ?_
      rw [hnil] at hl0
      exact absurd hl0 (Nat.not_le_of_lt htrigger)
    have hnil : removeNumbers v.l0 v.l0 = [] := by
      refine filter_eq_nil_iff.mpr fun r hr => ?_
      simpa using ⟨r, hr, rfl⟩
    have hlevels := weight_update (removeNumbers v.l0 v.l0) v.levels level1
      (sortBySmallest (removeNumbers (v.levels level1)
        (expandInputs v.l0 (v.levels level1)).picked ++ outs))
    have htop := weight_l0 (removeNumbers v.l0 v.l0) v.l0 v.levels
    rw [entryCount_sortBySmallest, entryCount_append] at hlevels
    have hzero : entryCount (removeNumbers v.l0 v.l0) = 0 := by rw [hnil]; rfl
    have hw : kMaxLevels - 1 - level1.val = 6 := rfl
    have hw' : kMaxLevels = 7 := rfl
    rw [hw] at hlevels
    rw [hw'] at htop
    dsimp only at hwrite
    have hinstall : installVersion v
        ⟨v.l0, (expandInputs v.l0 (v.levels level1)).picked, none, level1⟩ outs =
        ⟨removeNumbers v.l0 v.l0, Function.update v.levels level1
          (sortBySmallest (removeNumbers (v.levels level1)
            (expandInputs v.l0 (v.levels level1)).picked ++ outs))⟩ := rfl
    rw [hinstall]
    show _ < Version.weight ⟨v.l0, v.levels⟩
    omega
  · obtain rfl := Option.some.inj (hpick.symm.trans heq)
    obtain ⟨hsub, hnd, -⟩ := expandInputs_spec [r] (v.levels out)
    have hne : out ≠ i := fun h => by rw [h] at hout; omega
    have hrem := entryCount_removeNumbers hnd hsub
    have hpos : 0 < entryCount [r] := entryCount_pos (cons_ne_nil _ _)
    have hvictim := @entryCount_removeNumbers (v.levels i) [r] (nodup_singleton _) fun t ht => by
      rw [mem_singleton.mp ht, hcons]
      exact mem_cons_self
    have hsource := weight_update v.l0 v.levels i (removeNumbers (v.levels i) [r])
    have hlevels := weight_update v.l0 (Function.update v.levels i (removeNumbers (v.levels i) [r]))
      out (sortBySmallest (removeNumbers (v.levels out)
        (expandInputs [r] (v.levels out)).picked ++ outs))
    rw [entryCount_sortBySmallest, entryCount_append, Function.update_of_ne hne] at hlevels
    dsimp only at hwrite
    have hinstall : installVersion v ⟨[r], (expandInputs [r] (v.levels out)).picked, some i, out⟩
        outs = ⟨v.l0, Function.update (Function.update v.levels i (removeNumbers (v.levels i) [r]))
          out (sortBySmallest (removeNumbers (v.levels out)
            (expandInputs [r] (v.levels out)).picked ++ outs))⟩ := by
      simp only [installVersion, Function.update_of_ne hne]
    rw [hinstall]
    -- an entry weighs one less on the level below
    obtain ⟨w, hw⟩ : ∃ w, kMaxLevels - 1 - out.val = w := ⟨_, rfl⟩
    have hw' : kMaxLevels - 1 - i.val = w + 1 := by omega
    rw [hw] at hlevels
    rw [hw'] at hsource
    show _ < Version.weight ⟨v.l0, v.levels⟩
    nlinarith

theorem compact_measure (htrigger : 1 ≤ opt.l0CompactionTrigger) (o : CompactionOutcome)
    {b : Background} (h : b.compactionNeeded opt = true) :
    (b.compact opt o).compactionDisabled = true ∨
      (b.compact opt o).current.weight < b.current.weight := by
  obtain ⟨-, hdue⟩ := Bool.and_eq_true_iff.mp h
  unfold Background.compact
  cases hpick : pickCompaction opt b.current with
  | none =>
    rcases pickCompaction_cases hdue with ⟨-, heq⟩ | ⟨_, _, _, _, -, -, -, heq⟩ <;>
      cases hpick.symm.trans heq
  | some c =>
    dsimp only
    cases hmerge : mergeTables opt o.floor c with
    | error status => exact .inl rfl
    | ok ts => exact .inr (weight_install_lt htrigger hdue hpick hmerge o.fileMeta)

/-- **Compactions come to an end**: from any version, whatever floors the compactions find and
whatever files they write, after finitely many of them none is needed. -/
theorem compactions_return {opt : Options} (htrigger : 1 ≤ opt.l0CompactionTrigger)
    (outcomes : Nat → CompactionOutcome) (v : Version) :
    ∃ b, Returns (compactRound opt outcomes) (0, ⟨v, false⟩) b ∧
      b.compactionNeeded opt = false := by
  -- what is left to do: nothing once compaction is disabled
  let left (s : Nat × Background) : Nat :=
    if s.2.compactionDisabled then 0 else s.2.current.weight + 1
  have hround : ∀ s s', compactRound opt outcomes s = .inr s' → left s' < left s := by
    rintro ⟨n, b⟩ s' hs
    rw [compactRound] at hs
    split at hs
    · next hneeded =>
        obtain rfl := Sum.inr.inj hs
        have henabled : b.compactionDisabled = false := by
          simpa using (Bool.and_eq_true_iff.mp hneeded).1
        have hleft : left (n, b) = b.current.weight + 1 := by
          show (if b.compactionDisabled = true then _ else _) = _
          rw [henabled]
          rfl
        rw [hleft]
        show (if (b.compact opt (outcomes n)).compactionDisabled = true then _ else _) < _
        split
        · exact Nat.succ_pos _
        · next hgo =>
            exact Nat.succ_lt_succ
              ((compact_measure htrigger (outcomes n) hneeded).resolve_left hgo)
    · cases hs
  obtain ⟨b, hb⟩ := exists_returns hround (0, ⟨v, false⟩)
  refine ⟨b, hb, ?_⟩
  obtain ⟨⟨n, b'⟩, hexit⟩ := hb.exists_exit
  rw [compactRound] at hexit
  split at hexit
  · cases hexit
  · next hno =>
      obtain rfl := Sum.inl.inj hexit
      exact Bool.eq_false_iff.mpr hno

/-- A trigger of one, over a version that needs a compaction. -/
theorem compactions_sampleVersion :
    (Background.mk sampleVersion false).compactionNeeded
      { plainOptions with l0CompactionTrigger := 1 } = true ∧
    ∃ b, Returns (compactRound { plainOptions with l0CompactionTrigger := 1 }
        fun n => ⟨kMaxSeq, fun i => ⟨5 + n + i, 1, 0, 0, 0, 0, [], []⟩⟩)
        (0, ⟨sampleVersion, false⟩) b ∧
      b.compactionNeeded { plainOptions with l0CompactionTrigger := 1 } = false :=
  ⟨by decide, compactions_return (by decide) _ _⟩

end BedrockKV
