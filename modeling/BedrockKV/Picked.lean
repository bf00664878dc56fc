/-
# `BedrockKV.Picked` — what a compaction takes, and the version it leaves

`Picked v c` is what the rest of the development needs to know about the
inputs: where they come from, and that every file of the output level that
was not taken lies outside the key range of those that were.  That last part
is the work of the range-expansion loop (`expandInputs_spec`).

`installVersion_ok` then says that replacing the inputs by files built from
their entries keeps every source newer than the ones below it and every level
free of overlaps.
-/
import BedrockKV.Compaction

namespace BedrockKV

open List MultiVersion

/-! ## The range-expansion loop -/

/-- What every round of the loop keeps: the picked files come from `target` and
lie in the range, and the range only grows. -/
structure Expansion.Inside (target : List TableRef) (lo hi : Bytes) (x : Expansion) : Prop where
  sub : ∀ r ∈ x.picked, r ∈ target
  nodup : (x.picked.map TableRef.number).Nodup
  inside : ∀ r ∈ x.picked, x.lo ≤ r.smallest ∧ r.largest ≤ x.hi
  lo_le : x.lo ≤ lo
  le_hi : hi ≤ x.hi

section Expand

variable {target l : List TableRef} {lo hi : Bytes} {x : Expansion} {r : TableRef}

theorem expandStep_cases (x : Expansion) (r : TableRef) :
    (expandStep x r = x ∧ (x.has r ∨ ¬ x.overlaps r)) ∨
      (expandStep x r = x.add r ∧ ¬ x.has r) := by
  unfold expandStep
  split
  · next hhas => exact .inl ⟨rfl, .inl hhas⟩
  · next hhas =>
    split
    · exact .inr ⟨rfl, hhas⟩
    · next hov => exact .inl ⟨rfl, .inr hov⟩

theorem Expansion.Inside.add (h : x.Inside target lo hi) (hr : r ∈ target) (hhas : ¬ x.has r) :
    (x.add r).Inside target lo hi where
  sub := by
    intro t ht
    rcases mem_append.mp ht with ht | ht
    · exact h.sub t ht
    · rwa [mem_singleton.mp ht]
  nodup := by
    have hmap : (x.add r).picked.map TableRef.number =
        x.picked.map TableRef.number ++ [r.number] := by simp [Expansion.add]
    rw [hmap]
    refine nodup_append.mpr ⟨h.nodup, nodup_singleton _, ?_⟩
    rintro a ha b hb rfl
    rw [mem_singleton.mp hb] at ha
    exact hhas ha
  inside := by
    intro t ht
    rcases mem_append.mp ht with ht | ht
    · obtain ⟨h₁, h₂⟩ := h.inside t ht
      exact ⟨(min_le_left _ _).trans h₁, h₂.trans (le_max_left _ _)⟩
    · rw [mem_singleton.mp ht]
      exact ⟨min_le_right _ _, le_max_right _ _⟩
  lo_le := (min_le_left _ _).trans h.lo_le
  le_hi := h.le_hi.trans (le_max_left _ _)

theorem Expansion.Inside.foldl (hl : ∀ r ∈ l, r ∈ target) (h : x.Inside target lo hi) :
    (l.foldl expandStep x).Inside target lo hi := by
  induction l generalizing x with
  | nil => exact h
  | cons r l ih =>
    obtain ⟨hr, hl⟩ := forall_mem_cons.mp hl
    rw [foldl_cons]
    rcases expandStep_cases x r with ⟨heq, -⟩ | ⟨heq, hhas⟩ <;> rw [heq]
    · exact ih hl h
    · exact ih hl (h.add hr hhas)

theorem Expansion.Inside.expand {fuel : Nat} (h : x.Inside target lo hi) :
    (expand target fuel x).Inside target lo hi := by
  induction fuel generalizing x with
  | zero => exact h
  | succ fuel ih =>
    have hpass : (expandPass target x).Inside target lo hi :=
      Expansion.Inside.foldl (fun _ hr => hr) ⟨h.sub, h.nodup, h.inside, h.lo_le, h.le_hi⟩
    simp only [BedrockKV.expand]
    split
    · exact ih hpass
    · exact hpass

theorem changed_foldl (h : x.changed = true) : (l.foldl expandStep x).changed = true := by
  induction l generalizing x with
  | nil => exact h
  | cons r l ih =>
    rw [foldl_cons]
    rcases expandStep_cases x r with ⟨heq, -⟩ | ⟨heq, -⟩ <;> rw [heq]
    · exact ih h
    · exact ih rfl

/-- A round without a change left everything outside the range unpicked. -/
theorem foldl_quiet (h : (l.foldl expandStep x).changed = false) :
    l.foldl expandStep x = x ∧ ∀ r ∈ l, x.has r ∨ ¬ x.overlaps r := by
  induction l with
  | nil => exact ⟨rfl, nofun⟩
  | cons r l ih =>
    rw [foldl_cons] at h ⊢
    rcases expandStep_cases x r with ⟨heq, hr⟩ | ⟨heq, -⟩ <;> rw [heq] at h ⊢
    · exact ⟨(ih h).1, forall_mem_cons.mpr ⟨hr, (ih h).2⟩⟩
    · rw [changed_foldl rfl] at h
      cases h

/-- The files of `target` a further round could still pick. -/
def Expansion.unpicked (target : List TableRef) (x : Expansion) : List TableRef :=
  target.filter fun r => decide (¬ x.has r)

theorem unpicked_add_lt (hr : r ∈ target) (hhas : ¬ x.has r) :
    ((x.add r).unpicked target).length < (x.unpicked target).length := by
  have hsub : (x.add r).unpicked target =
      (x.unpicked target).filter fun t => decide (¬ (x.add r).has t) := by
    unfold Expansion.unpicked
    rw [filter_filter]
    refine filter_congr ?_
    intro t _
    simp only [Expansion.has, Expansion.add, map_append, mem_append]
    by_cases h : t.number ∈ x.picked.map TableRef.number <;> simp [h]
  rw [hsub]
  refine length_filter_lt_length_iff_exists.mpr ⟨r, ?_, ?_⟩
  · exact mem_filter.mpr ⟨hr, by simpa using hhas⟩
  · simp [Expansion.has, Expansion.add]

theorem unpicked_foldl_le (hl : ∀ r ∈ l, r ∈ target) :
    ((l.foldl expandStep x).unpicked target).length ≤ (x.unpicked target).length := by
  induction l generalizing x with
  | nil => exact le_rfl
  | cons r l ih =>
    obtain ⟨hr, hl⟩ := forall_mem_cons.mp hl
    rw [foldl_cons]
    rcases expandStep_cases x r with ⟨heq, -⟩ | ⟨heq, hhas⟩ <;> rw [heq]
    · exact ih hl
    · exact le_trans (ih hl) (le_of_lt (unpicked_add_lt hr hhas))

/-- A round that changed something picked a file. -/
theorem unpicked_foldl_lt (hl : ∀ r ∈ l, r ∈ target) (hx : x.changed = false)
    (h : (l.foldl expandStep x).changed = true) :
    ((l.foldl expandStep x).unpicked target).length < (x.unpicked target).length := by
  induction l with
  | nil => rw [foldl_nil, hx] at h; cases h
  | cons r l ih =>
    obtain ⟨hr, hl⟩ := forall_mem_cons.mp hl
    rw [foldl_cons] at h ⊢
    rcases expandStep_cases x r with ⟨heq, -⟩ | ⟨heq, hhas⟩ <;> rw [heq] at h ⊢
    · exact ih hl h
    · exact lt_of_le_of_lt (unpicked_foldl_le hl) (unpicked_add_lt hr hhas)

/-- With fuel above the number of unpicked files the loop ends by itself. -/
theorem expand_fixpoint {fuel : Nat} (h : (x.unpicked target).length < fuel) :
    ∀ r ∈ target, (expand target fuel x).has r ∨ ¬ (expand target fuel x).overlaps r := by
  induction fuel generalizing x with
  | zero => exact absurd h (Nat.not_lt_zero _)
  | succ fuel ih =>
    simp only [expand]
    split
    · next hch =>
      have hlt : ((expandPass target x).unpicked target).length < (x.unpicked target).length :=
        unpicked_foldl_lt (x := { x with changed := false }) (fun r hr => hr) rfl hch
      exact ih (lt_of_lt_of_le hlt (Nat.le_of_lt_succ h))
    · next hch =>
      obtain ⟨heq, hq⟩ := foldl_quiet (Bool.not_eq_true _ ▸ hch)
      intro r hr
      have hpass : expandPass target x = { x with changed := false } := heq
      rw [hpass]
      exact hq r hr

end Expand

theorem foldl_range {rs : List TableRef} : ∀ {p : Bytes × Bytes},
    let q := rs.foldl (fun p t => (min p.1 t.smallest, max p.2 t.largest)) p
    (q.1 ≤ p.1 ∧ p.2 ≤ q.2) ∧ ∀ r ∈ rs, q.1 ≤ r.smallest ∧ r.largest ≤ q.2 := by
  induction rs with
  | nil => exact ⟨⟨le_refl _, le_refl _⟩, nofun⟩
  | cons t rs ih =>
    intro p
    obtain ⟨⟨hlo, hhi⟩, hall⟩ := ih (p := (min p.1 t.smallest, max p.2 t.largest))
    refine ⟨⟨hlo.trans (min_le_left _ _), (le_max_left _ _).trans hhi⟩, ?_⟩
    exact forall_mem_cons.mpr ⟨⟨hlo.trans (min_le_right _ _), (le_max_right _ _).trans hhi⟩, hall⟩

theorem inputRange_spec {rs : List TableRef} {r : TableRef} (hr : r ∈ rs) :
    (inputRange rs).1 ≤ r.smallest ∧ r.largest ≤ (inputRange rs).2 := by
  cases rs with
  | nil => cases hr
  | cons t rs =>
    obtain ⟨⟨hlo, hhi⟩, hall⟩ := @foldl_range rs (t.smallest, t.largest)
    rcases mem_cons.mp hr with rfl | hr
    · exact ⟨hlo, hhi⟩
    · exact hall r hr

/-- **The loop separates**: the picked files come from the target level, each of them once,
and one range holds all inputs and meets no file whose number was not picked. -/
theorem expandInputs_spec (inputsA target : List TableRef) :
    (∀ r ∈ (expandInputs inputsA target).picked, r ∈ target) ∧
    ((expandInputs inputsA target).picked.map TableRef.number).Nodup ∧
    ∃ lo hi,
      (∀ r ∈ inputsA ++ (expandInputs inputsA target).picked, lo ≤ r.smallest ∧ r.largest ≤ hi) ∧
      ∀ r ∈ target, r.number ∉ (expandInputs inputsA target).picked.map TableRef.number →
        r.largest < lo ∨ hi < r.smallest := by
  set x := expandInputs inputsA target with hx
  have hin : x.Inside target (inputRange inputsA).1 (inputRange inputsA).2 :=
    Expansion.Inside.expand ⟨by simp, by simp, by simp, le_refl _, le_refl _⟩
  refine ⟨hin.sub, hin.nodup, x.lo, x.hi, ?_, ?_⟩
  · intro r hr
    rcases mem_append.mp hr with hr | hr
    · obtain ⟨h₁, h₂⟩ := inputRange_spec hr
      exact ⟨hin.lo_le.trans h₁, h₂.trans hin.le_hi⟩
    · exact hin.inside r hr
  · intro r hr hnot
    have hfix : x.has r ∨ ¬ x.overlaps r :=
      expand_fixpoint (Nat.lt_succ_of_le (length_filter_le _ _)) r hr
    have hov := hfix.resolve_left hnot
    rcases lt_or_ge r.largest x.lo with h | h
    · exact .inl h
    · exact .inr (not_le.mp fun hle => hov ⟨h, hle⟩)

/-- Files in different places have different numbers. -/
def NumbersInjective (rs : List TableRef) : Prop :=
  ∀ r ∈ rs, ∀ t ∈ rs, r.number = t.number → r = t

theorem expandInputs_apart (inputsA : List TableRef) {target : List TableRef}
    (hn : NumbersInjective target) :
    (∀ r ∈ (expandInputs inputsA target).picked, r ∈ target) ∧
    (expandInputs inputsA target).picked.Nodup ∧
    ∃ lo hi,
      (∀ r ∈ inputsA ++ (expandInputs inputsA target).picked, lo ≤ r.smallest ∧ r.largest ≤ hi) ∧
      ∀ r ∈ target, r ∉ (expandInputs inputsA target).picked →
        r.largest < lo ∨ hi < r.smallest := by
  obtain ⟨hsub, hnd, lo, hi, hrange, hout⟩ := expandInputs_spec inputsA target
  refine ⟨hsub, List.Nodup.of_map _ hnd, lo, hi, hrange, fun r hr hnot => hout r hr ?_⟩
  intro hhas
  obtain ⟨t, ht, hnum⟩ := mem_map.mp hhas
  exact hnot (hn t (hsub t ht) r hr hnum ▸ ht)

/-! ## Where the inputs come from -/

/-- The source of a compaction: all of L0 into L1, or one file of `levels[i]`
into the next level. -/
inductive FromSource (v : Version) (c : Compaction) : Prop where
  | l0 : c.source = none → c.inputsA = v.l0 → c.output = level1 → FromSource v c
  | level (i : LevelIndex) (r : TableRef) : c.source = some i → c.output.val = i.val + 1 →
      r ∈ v.levels i → c.inputsA = [r] → FromSource v c

structure Picked (v : Version) (c : Compaction) : Prop where
  source : FromSource v c
  sub : ∀ r ∈ c.inputsB, r ∈ v.levels c.output
  nodup : c.inputsB.Nodup
  apart : ∃ lo hi, (∀ r ∈ c.inputs, lo ≤ r.smallest ∧ r.largest ≤ hi) ∧
    ∀ r ∈ v.levels c.output, r ∉ c.inputsB → r.largest < lo ∨ hi < r.smallest

theorem mem_levelIndices (i : LevelIndex) : i ∈ levelIndices := mem_finRange i

namespace Version

variable {v : Version} {r t : TableRef} {i j : LevelIndex}

theorem mem_tables : r ∈ v.tables ↔ r ∈ v.l0 ∨ ∃ i, r ∈ v.levels i := by
  simp [tables, mem_levelIndices]

theorem mem_tables_of_level (h : r ∈ v.levels i) : r ∈ v.tables :=
  mem_tables.mpr (.inr ⟨i, h⟩)

theorem numbersInjective (hn : v.numbers.Nodup) : NumbersInjective v.tables :=
  fun _ hr _ ht h => inj_on_of_nodup_map hn hr ht h

theorem level_unique (hn : v.numbers.Nodup) (hi : r ∈ v.levels i) (hj : r ∈ v.levels j) :
    i = j := by
  have hnd : (levelIndices.flatMap v.levels).Nodup := (nodup_append.mp (List.Nodup.of_map _ hn)).2.1
  by_contra hne
  have : Std.Symm (Function.onFun List.Disjoint v.levels) := ⟨fun _ _ h a ha hb => h hb ha⟩
  exact (nodup_flatMap.mp hnd).2.forall (mem_levelIndices i) (mem_levelIndices j) hne hi hj

theorem l0_not_level (hn : v.numbers.Nodup) (h : r ∈ v.l0) (hi : r ∈ v.levels i) : False := by
  have hnd := nodup_append.mp (List.Nodup.of_map _ hn)
  exact hnd.2.2 r h r (mem_flatMap.mpr ⟨i, mem_levelIndices i, hi⟩) rfl

end Version

theorem overfullLevel_spec {opt : Options} {v : Version} {i : LevelIndex}
    (h : overfullLevel opt v = some i) : v.levels i ≠ [] := by
  intro hnil
  have hpred := find?_some h
  simp only [Bool.and_eq_true, decide_eq_true_eq] at hpred
  have hsize : levelSize v i = 0 := by simp [levelSize, hnil]
  rw [hsize] at hpred
  exact absurd hpred.2 (Nat.not_lt_zero _)

/-- **What `PickCompaction` picks.** -/
theorem pickCompaction_picked {opt : Options} {v : Version} {c : Compaction}
    (hn : v.numbers.Nodup) (h : pickCompaction opt v = some c) : Picked v c := by
  have hinj : ∀ i, NumbersInjective (v.levels i) := fun i r hr t ht =>
    Version.numbersInjective hn r (Version.mem_tables_of_level hr) t
      (Version.mem_tables_of_level ht)
  unfold pickCompaction at h
  split at h
  · cases h
    obtain ⟨hsub, hnd, hapart⟩ := expandInputs_apart v.l0 (hinj level1)
    exact ⟨.l0 rfl rfl rfl, hsub, hnd, hapart⟩
  · split at h
    · cases h
    · next i hi =>
      split at h
      · next hlt =>
        cases h
        obtain ⟨hsub, hnd, hapart⟩ :=
          expandInputs_apart (v.levels i).head?.toList (hinj ⟨i.val + 1, hlt⟩)
        refine ⟨?_, hsub, hnd, hapart⟩
        obtain ⟨r, rest, hlevel⟩ := exists_cons_of_ne_nil (overfullLevel_spec hi)
        refine .level i r rfl rfl ?_ ?_
        · rw [hlevel]
          exact mem_cons_self
        · simp [hlevel]
      · cases h

/-! ## The installed version -/

/-- A file stays unless its number is that of an input. -/
def Compaction.keeps (c : Compaction) (r : TableRef) : Bool :=
  decide (r.number ∉ c.inputs.map TableRef.number)

section Install

variable {v : Version} {c : Compaction} {outs : List TableRef} {r t : TableRef}

theorem Picked.mem_tables (hp : Picked v c) (h : r ∈ c.inputs) : r ∈ v.tables := by
  rcases mem_append.mp h with h | h
  · cases hp.source with
    | l0 _ hA _ =>
      rw [hA] at h
      exact Version.mem_tables.mpr (.inl h)
    | level i t _ _ ht hA =>
      rw [hA, mem_singleton] at h
      exact Version.mem_tables_of_level (h ▸ ht)
  · exact Version.mem_tables_of_level (hp.sub r h)

theorem Picked.keeps_iff (hp : Picked v c) (hn : v.numbers.Nodup) (hr : r ∈ v.tables) :
    c.keeps r = true ↔ r ∉ c.inputs := by
  simp only [Compaction.keeps, decide_eq_true_eq, mem_map, not_exists, not_and]
  constructor
  · exact fun h hmem => h r hmem rfl
  · intro h t ht hnum
    exact h (Version.numbersInjective hn t (hp.mem_tables ht) r hr hnum ▸ ht)

theorem removeNumbers_eq_filter {level removed : List TableRef} (hsub : ∀ r ∈ removed, r ∈ c.inputs)
    (h : ∀ r ∈ level, ∀ t ∈ c.inputs, r.number = t.number → t ∈ removed) :
    removeNumbers level removed = level.filter c.keeps := by
  refine filter_congr ?_
  intro r hr
  simp only [Compaction.keeps, decide_eq_decide, mem_map, not_iff_not]
  constructor
  · rintro ⟨t, ht, hnum⟩
    exact ⟨t, hsub t ht, hnum⟩
  · rintro ⟨t, ht, hnum⟩
    exact ⟨t, h r hr t ht hnum.symm, hnum⟩

theorem Picked.number_eq (hp : Picked v c) (hn : v.numbers.Nodup) (hr : r ∈ v.tables)
    (ht : t ∈ c.inputs) (h : r.number = t.number) : r = t :=
  Version.numbersInjective hn r hr t (hp.mem_tables ht) h

theorem Picked.install_l0 (hp : Picked v c) (hn : v.numbers.Nodup) :
    (installVersion v c outs).l0 = v.l0.filter c.keeps := by
  cases hp.source with
  | l0 hs hA _ =>
    simp only [installVersion, hs]
    refine removeNumbers_eq_filter (fun r hr => mem_append_left _ hr) ?_
    intro r hr t ht hnum
    rw [hA, ← hp.number_eq hn (Version.mem_tables.mpr (.inl hr)) ht hnum]
    exact hr
  | level i x hs _ hx hA =>
    simp only [installVersion, hs]
    refine (filter_eq_self.mpr ?_).symm
    intro r hr
    refine (hp.keeps_iff hn (Version.mem_tables.mpr (.inl hr))).mpr ?_
    intro hmem
    rcases mem_append.mp hmem with hmem | hmem
    · rw [hA, mem_singleton] at hmem
      exact Version.l0_not_level hn hr (hmem ▸ hx)
    · exact Version.l0_not_level hn hr (hp.sub r hmem)

theorem Picked.install_level_output (hp : Picked v c) (hn : v.numbers.Nodup) :
    (installVersion v c outs).levels c.output =
      sortBySmallest ((v.levels c.output).filter c.keeps ++ outs) := by
  -- the source level is another one, and L0 is not a level
  have hsame : removeNumbers (v.levels c.output) c.inputsB =
      (v.levels c.output).filter c.keeps := by
    refine removeNumbers_eq_filter (fun r hr => mem_append_right _ hr) ?_
    intro r hr t ht hnum
    obtain rfl := hp.number_eq hn (Version.mem_tables_of_level hr) ht hnum
    rcases mem_append.mp ht with ht | ht
    · exfalso
      cases hp.source with
      | l0 _ hA _ => exact Version.l0_not_level hn (hA ▸ ht) hr
      | level i x _ hout hx hA =>
        rw [hA, mem_singleton] at ht
        have heq := Version.level_unique hn (ht ▸ hx) hr
        rw [← heq] at hout
        omega
    · exact ht
  cases hp.source with
  | l0 hs _ _ => simp only [installVersion, hs, Function.update_self, hsame]
  | level i x hs hout _ _ =>
    have hne : c.output ≠ i := fun heq => by rw [heq] at hout; omega
    simp only [installVersion, hs, Function.update_self, Function.update_of_ne hne, hsame]

theorem Picked.install_level_ne (hp : Picked v c) (hn : v.numbers.Nodup) {j : LevelIndex}
    (hj : j ≠ c.output) : (installVersion v c outs).levels j = (v.levels j).filter c.keeps := by
  -- away from the source and the output there is no input to remove
  have haway : (∀ x ∈ c.inputsA, x ∉ v.levels j) → v.levels j = (v.levels j).filter c.keeps := by
    intro hA
    refine (filter_eq_self.mpr ?_).symm
    intro r hr
    refine (hp.keeps_iff hn (Version.mem_tables_of_level hr)).mpr ?_
    intro hmem
    rcases mem_append.mp hmem with hmem | hmem
    · exact hA r hmem hr
    · exact hj (Version.level_unique hn hr (hp.sub r hmem))
  cases hp.source with
  | l0 hs hA _ =>
    simp only [installVersion, hs, Function.update_of_ne hj]
    exact haway fun x hx hxj => Version.l0_not_level hn (hA ▸ hx) hxj
  | level i x hs _ hx hA =>
    simp only [installVersion, hs, Function.update_of_ne hj]
    by_cases hji : j = i
    · subst hji
      rw [Function.update_self]
      refine removeNumbers_eq_filter (fun r hr => mem_append_left _ hr) ?_
      intro r hr t ht hnum
      obtain rfl := hp.number_eq hn (Version.mem_tables_of_level hr) ht hnum
      rcases mem_append.mp ht with ht | ht
      · exact ht
      · exact absurd (Version.level_unique hn hr (hp.sub r ht)) hj
    · rw [Function.update_of_ne hji]
      refine haway ?_
      intro y hy hyj
      rw [hA, mem_singleton] at hy
      exact hji (Version.level_unique hn hyj (hy ▸ hx))

theorem mem_sortBySmallest {l : List TableRef} : r ∈ sortBySmallest l ↔ r ∈ l :=
  (perm_insertionSort _ l).mem_iff

theorem Picked.mem_install_level (hp : Picked v c) (hn : v.numbers.Nodup) {j : LevelIndex} :
    r ∈ (installVersion v c outs).levels j ↔
      (r ∈ v.levels j ∧ r ∉ c.inputs) ∨ (j = c.output ∧ r ∈ outs) := by
  have hkeep : r ∈ (v.levels j).filter c.keeps ↔ r ∈ v.levels j ∧ r ∉ c.inputs := by
    rw [mem_filter]
    refine and_congr_right ?_
    exact fun hr => hp.keeps_iff hn (Version.mem_tables_of_level hr)
  by_cases hj : j = c.output
  · subst hj
    rw [hp.install_level_output hn, mem_sortBySmallest, mem_append, hkeep]
    simp
  · rw [hp.install_level_ne hn hj, hkeep]
    simp [hj]

theorem Picked.mem_install_l0 (hp : Picked v c) (hn : v.numbers.Nodup) :
    r ∈ (installVersion v c outs).l0 ↔ r ∈ v.l0 ∧ r ∉ c.inputs := by
  rw [hp.install_l0 hn, mem_filter]
  exact and_congr_right fun hr => hp.keeps_iff hn (Version.mem_tables.mpr (.inl hr))

/-- **What an install does to the set of files.** -/
theorem Picked.mem_install_tables (hp : Picked v c) (hn : v.numbers.Nodup) :
    r ∈ (installVersion v c outs).tables ↔ (r ∈ v.tables ∧ r ∉ c.inputs) ∨ r ∈ outs := by
  simp only [Version.mem_tables, hp.mem_install_l0 hn, hp.mem_install_level hn]
  constructor
  · rintro (⟨h, hi⟩ | ⟨j, ⟨h, hi⟩ | ⟨-, h⟩⟩)
    · exact .inl ⟨.inl h, hi⟩
    · exact .inl ⟨.inr ⟨j, h⟩, hi⟩
    · exact .inr h
  · rintro (⟨h | ⟨j, h⟩, hi⟩ | h)
    · exact .inl ⟨h, hi⟩
    · exact .inr ⟨j, .inl ⟨h, hi⟩⟩
    · exact .inr ⟨c.output, .inr ⟨rfl, h⟩⟩

theorem flatMap_perm_append {ι α : Type*} {idx : List ι} {f g : ι → List α} {j : ι} {extra : List α}
    (hnd : idx.Nodup) (hj : j ∈ idx) (hne : ∀ i ∈ idx, i ≠ j → g i = f i)
    (hperm : (g j).Perm (f j ++ extra)) : (idx.flatMap g).Perm (idx.flatMap f ++ extra) := by
  induction idx with
  | nil => cases hj
  | cons i idx ih =>
    obtain ⟨hi, hnd⟩ := nodup_cons.mp hnd
    rw [flatMap_cons, flatMap_cons, append_assoc]
    by_cases hij : i = j
    · subst hij
      have hrest : idx.flatMap g = idx.flatMap f :=
        flatMap_congr fun x hx => hne x (mem_cons_of_mem _ hx) fun h => hi (h ▸ hx)
      rw [hrest]
      refine (hperm.append_right _).trans ?_
      rw [append_assoc]
      exact perm_append_comm.append_left _
    · rw [hne i mem_cons_self hij]
      have hj' : j ∈ idx := (mem_cons.mp hj).resolve_left fun h => hij h.symm
      exact (ih hnd hj' fun x hx => hne x (mem_cons_of_mem _ hx)).append_left _

theorem Picked.install_tables_perm (hp : Picked v c) (hn : v.numbers.Nodup) :
    (installVersion v c outs).tables.Perm (v.tables.filter c.keeps ++ outs) := by
  unfold Version.tables
  rw [filter_append, hp.install_l0 hn, append_assoc]
  refine List.Perm.append_left _ ?_
  rw [filter_flatMap]
  refine flatMap_perm_append (nodup_finRange _) (mem_levelIndices c.output)
    (fun i _ hi => hp.install_level_ne hn hi) ?_
  rw [hp.install_level_output hn]
  exact perm_insertionSort _ _

theorem Picked.install_numbers (hp : Picked v c) (hn : v.numbers.Nodup)
    (houts : (outs.map TableRef.number).Nodup) (hfresh : ∀ r ∈ outs, r.number ∉ v.numbers) :
    (installVersion v c outs).numbers.Nodup := by
  refine ((hp.install_tables_perm hn).map TableRef.number).nodup_iff.mpr ?_
  rw [map_append]
  refine nodup_append.mpr ⟨hn.sublist (filter_sublist.map _), houts, ?_⟩
  intro a ha b hb hab
  obtain ⟨t, ht, rfl⟩ := mem_map.mp ha
  obtain ⟨r, hr, rfl⟩ := mem_map.mp hb
  exact hfresh r hr (hab ▸ mem_map_of_mem (mem_of_mem_filter ht))

/-- The outputs hold entries of the inputs only, in files that do not overlap. -/
structure BuiltFrom (c : Compaction) (outs : List TableRef) : Prop where
  sub : ∀ r ∈ outs, ∀ e ∈ r.entries, ∃ t ∈ c.inputs, e ∈ t.entries
  level_ok : LevelOk outs

/-- Two files without a common user key, in either order. -/
def Apart (a b : TableRef) : Prop := a.largest < b.smallest ∨ b.largest < a.smallest

theorem Apart.symm {a b : TableRef} (h : Apart a b) : Apart b a := Or.symm h

theorem LevelOk.apart {level : List TableRef} (h : LevelOk level) (hr : r ∈ level)
    (ht : t ∈ level) (hne : r ≠ t) : Apart r t := by
  have : Std.Symm Apart := ⟨fun _ _ => Apart.symm⟩
  have hpair : level.Pairwise Apart := h.imp .inl
  exact hpair.forall hr ht hne

theorem Apart.newer {a b : TableRef} (h : Apart a b) : entryView.Newer a.entries b.entries := by
  intro x hx y hy hk
  exfalso
  have hxy : x.user = y.user := hk
  rcases h with h | h
  · exact absurd (hxy ▸ Table.le_largest hx) (not_le.mpr (lt_of_lt_of_le h (Table.smallest_le hy)))
  · exact absurd (hxy ▸ Table.smallest_le hx) (not_le.mpr (lt_of_le_of_lt (Table.le_largest hy) h))

theorem levelOk_sortBySmallest {l : List TableRef} (h : l.Pairwise Apart) :
    LevelOk (sortBySmallest l) := by
  have hapart : (sortBySmallest l).Pairwise Apart :=
    (perm_insertionSort _ l).symm.pairwise h fun hab => hab.symm
  have hsorted : (sortBySmallest l).Pairwise fun a b => a.smallest ≤ b.smallest := by
    have : Std.Total fun a b : TableRef => a.smallest ≤ b.smallest := ⟨fun a b => le_total _ _⟩
    have : IsTrans TableRef fun a b => a.smallest ≤ b.smallest := ⟨fun _ _ _ => le_trans⟩
    exact pairwise_insertionSort _ l
  refine (hapart.and hsorted).imp ?_
  rintro a b ⟨h | h, hle⟩
  · exact h
  · exact absurd (hle.trans b.table.smallest_le_largest) (not_le.mpr h)

/-- Which side of an input another file is on: nothing below the output level,
and nothing that shares a key on the two levels themselves. -/
theorem Picked.input_newer (hp : Picked v c) (hok : v.Ok) {j : LevelIndex} (hj : c.output < j)
    (hr : r ∈ c.inputs) (ht : t ∈ v.levels j) : entryView.Newer r.entries t.entries := by
  rcases mem_append.mp hr with hr | hr
  · cases hp.source with
    | l0 _ hA _ => exact hok.l0_newer r (hA ▸ hr) j t ht
    | level i x _ hout hx hA =>
      rw [hA, mem_singleton] at hr
      exact hok.level_newer i j (lt_trans (Fin.lt_def.mpr (by omega)) hj) r (hr ▸ hx) t ht
  · exact hok.level_newer _ j hj r (hp.sub r hr) t ht

/-- Every file at or above the output level that is not an input is newer than
the inputs, or shares no key with them. -/
theorem Picked.newer_input_of_level (hp : Picked v c) (hok : v.Ok) {i : LevelIndex}
    (hi : i ≤ c.output) (ht : t ∈ v.levels i) (hnot : t ∉ c.inputs) (hr : r ∈ c.inputs) :
    entryView.Newer t.entries r.entries := by
  obtain ⟨lo, hi', hrange, hout⟩ := hp.apart
  rcases lt_or_eq_of_le hi with hlt | rfl
  · rcases mem_append.mp hr with hr | hr
    · cases hp.source with
      | l0 _ _ h1 =>
        rw [h1] at hlt
        exact absurd (Fin.lt_def.mp hlt) (Nat.not_lt_zero _)
      | level k x _ hk hx hA =>
        rw [hA, mem_singleton] at hr
        subst hr
        have hle : i ≤ k := Fin.le_def.mpr (by have := Fin.lt_def.mp hlt; omega)
        rcases lt_or_eq_of_le hle with hik | rfl
        · exact hok.level_newer i k hik t ht r hx
        · -- another file of the source level
          refine (LevelOk.apart (hok.level_ok i) ht hx ?_).newer
          rintro rfl
          exact hnot (mem_append_left _ (hA ▸ mem_singleton_self _))
    · exact hok.level_newer i _ hlt t ht r (hp.sub r hr)
  · -- a file of the output level that was left lies outside the range of the inputs
    have hB : t ∉ c.inputsB := fun h => hnot (mem_append_right _ h)
    refine Apart.newer ?_
    rcases hout t ht hB with h | h
    · exact .inl (lt_of_lt_of_le h (hrange r hr).1)
    · exact .inr (lt_of_le_of_lt (hrange r hr).2 h)

theorem Picked.newer_input_of_l0 (hp : Picked v c) (hok : v.Ok) (ht : t ∈ v.l0)
    (hnot : t ∉ c.inputs) (hr : r ∈ c.inputs) : entryView.Newer t.entries r.entries := by
  cases hp.source with
  | l0 _ hA _ => exact absurd (mem_append_left _ (hA ▸ ht)) hnot
  | level i x _ _ hx hA =>
    rcases mem_append.mp hr with hr | hr
    · rw [hA, mem_singleton] at hr
      exact hok.l0_newer t ht i r (hr ▸ hx)
    · exact hok.l0_newer t ht _ r (hp.sub r hr)

/-- At the bottom level nothing but newer versions is left of the inputs' keys. -/
theorem Picked.newer_input_of_bottom (hp : Picked v c) (hok : v.Ok) (hb : c.bottom = true)
    (ht : t ∈ v.tables) (hnot : t ∉ c.inputs) (hr : r ∈ c.inputs) :
    entryView.Newer t.entries r.entries := by
  rcases Version.mem_tables.mp ht with ht | ⟨i, ht⟩
  · exact hp.newer_input_of_l0 hok ht hnot hr
  · have hlast : c.output.val + 1 = kMaxLevels - 1 := of_decide_eq_true hb
    exact hp.newer_input_of_level hok (Fin.le_def.mpr (by have := i.isLt; omega)) ht hnot hr

theorem Version.Ok.newer_or_newer (hok : v.Ok) (hr : r ∈ v.tables) (ht : t ∈ v.tables)
    (hne : r ≠ t) :
    entryView.Newer r.entries t.entries ∨ entryView.Newer t.entries r.entries := by
  rcases Version.mem_tables.mp hr with hr | ⟨i, hr⟩ <;>
    rcases Version.mem_tables.mp ht with ht | ⟨j, ht⟩
  · have : Std.Symm fun a b : TableRef =>
        entryView.Newer a.entries b.entries ∨ entryView.Newer b.entries a.entries :=
      ⟨fun _ _ => Or.symm⟩
    have hpair : v.l0.Pairwise fun a b : TableRef =>
        entryView.Newer a.entries b.entries ∨ entryView.Newer b.entries a.entries :=
      hok.l0_ordered.imp .inl
    exact hpair.forall hr ht hne
  · exact .inl (hok.l0_newer r hr j t ht)
  · exact .inr (hok.l0_newer t ht i r hr)
  · rcases lt_trichotomy i j with hij | rfl | hij
    · exact .inl (hok.level_newer i j hij r hr t ht)
    · exact .inl (LevelOk.apart (hok.level_ok i) hr ht hne).newer
    · exact .inr (hok.level_newer j i hij t ht r hr)

theorem Picked.inputs_nodup (hp : Picked v c) (hn : v.numbers.Nodup) : c.inputs.Nodup := by
  have htables : v.tables.Nodup := List.Nodup.of_map _ hn
  cases hp.source with
  | l0 _ hA _ =>
    refine nodup_append.mpr ⟨hA ▸ (nodup_append.mp htables).1, hp.nodup, ?_⟩
    rintro a ha b hb rfl
    exact Version.l0_not_level hn (hA ▸ ha) (hp.sub a hb)
  | level i x _ hout hx hA =>
    refine nodup_append.mpr ⟨hA ▸ nodup_singleton _, hp.nodup, ?_⟩
    rintro a ha b hb rfl
    rw [hA, mem_singleton] at ha
    have heq := Version.level_unique hn (ha ▸ hx) (hp.sub a hb)
    rw [← heq] at hout
    omega

theorem Picked.inputs_newer (hp : Picked v c) (hn : v.numbers.Nodup) (hok : v.Ok) :
    (c.inputs.map TableRef.entries).Pairwise
      fun a b => entryView.Newer a b ∨ entryView.Newer b a := by
  refine pairwise_map.mpr ((hp.inputs_nodup hn).imp_of_mem ?_)
  exact fun ha hb hne => hok.newer_or_newer (hp.mem_tables ha) (hp.mem_tables hb) hne

theorem BuiltFrom.newer_right (hb : BuiltFrom c outs) (hr : r ∈ outs)
    (h : ∀ x ∈ c.inputs, entryView.Newer t.entries x.entries) :
    entryView.Newer t.entries r.entries := by
  intro x hx y hy
  obtain ⟨z, hz, hyz⟩ := hb.sub r hr y hy
  exact h z hz x hx y hyz

theorem BuiltFrom.newer_left (hb : BuiltFrom c outs) (hr : r ∈ outs)
    (h : ∀ x ∈ c.inputs, entryView.Newer x.entries t.entries) :
    entryView.Newer r.entries t.entries := by
  intro x hx y hy
  obtain ⟨z, hz, hxz⟩ := hb.sub r hr x hx
  exact h z hz x hxz y hy

theorem BuiltFrom.within {lo hi : Bytes} (hb : BuiltFrom c outs) (hr : r ∈ outs)
    (h : ∀ x ∈ c.inputs, lo ≤ x.smallest ∧ x.largest ≤ hi) : lo ≤ r.smallest ∧ r.largest ≤ hi := by
  constructor
  · obtain ⟨e, he, hs⟩ := r.table.exists_smallest
    obtain ⟨t, ht, het⟩ := hb.sub r hr e he
    exact ((h t ht).1.trans (Table.smallest_le het)).trans_eq hs
  · obtain ⟨e, he, hs⟩ := r.table.exists_largest
    obtain ⟨t, ht, het⟩ := hb.sub r hr e he
    exact hs.symm.trans_le ((Table.le_largest het).trans (h t ht).2)

theorem Picked.install_level_ok (hp : Picked v c) (hn : v.numbers.Nodup) (hok : v.Ok)
    (hb : BuiltFrom c outs) (j : LevelIndex) : LevelOk ((installVersion v c outs).levels j) := by
  by_cases hj : j = c.output
  · subst hj
    rw [hp.install_level_output hn]
    refine levelOk_sortBySmallest (pairwise_append.mpr ⟨?_, hb.level_ok.imp .inl, ?_⟩)
    · exact ((hok.level_ok _).filter _).imp .inl
    · -- what was left is outside the range, what is new inside
      intro a ha b hb'
      obtain ⟨lo, hi, hrange, hout⟩ := hp.apart
      obtain ⟨hav, hkeep⟩ := mem_filter.mp ha
      have hnot := (hp.keeps_iff hn (Version.mem_tables_of_level hav)).mp hkeep
      obtain ⟨hlo, hhi⟩ := hb.within hb' hrange
      rcases hout a hav fun h => hnot (mem_append_right _ h) with h | h
      · exact .inl (lt_of_lt_of_le h hlo)
      · exact .inr (lt_of_le_of_lt hhi h)
  · rw [hp.install_level_ne hn hj]
    exact (hok.level_ok j).filter _

/-- **An install keeps the version in order.** -/
theorem Picked.install_ok (hp : Picked v c) (hn : v.numbers.Nodup) (hok : v.Ok)
    (hb : BuiltFrom c outs) : (installVersion v c outs).Ok where
  l0_ordered := by
    rw [hp.install_l0 hn]
    exact hok.l0_ordered.filter _
  l0_newer := by
    intro r hr i t ht
    obtain ⟨hr, hnot⟩ := (hp.mem_install_l0 hn).mp hr
    rcases (hp.mem_install_level hn).mp ht with ⟨ht, -⟩ | ⟨-, ht⟩
    · exact hok.l0_newer r hr i t ht
    · exact hb.newer_right ht fun x hx => hp.newer_input_of_l0 hok hr hnot hx
  level_newer := by
    intro i j hij r hr t ht
    rcases (hp.mem_install_level hn).mp hr with ⟨hr', hnot⟩ | ⟨rfl, hr'⟩
    · rcases (hp.mem_install_level hn).mp ht with ⟨ht', -⟩ | ⟨rfl, ht'⟩
      · exact hok.level_newer i j hij r hr' t ht'
      · exact hb.newer_right ht' fun x hx =>
          hp.newer_input_of_level hok (le_of_lt hij) hr' hnot hx
    · rcases (hp.mem_install_level hn).mp ht with ⟨ht', -⟩ | ⟨rfl, -⟩
      · exact hb.newer_left hr' fun x hx => hp.input_newer hok hij hx ht'
      · exact absurd hij (lt_irrefl _)
  level_ok := hp.install_level_ok hn hok hb

end Install

end BedrockKV
