/-
# `BedrockKV.Scan` — the range scan, and that it agrees with `Get`

`DB::Scan` is another algorithm over the same state: it merges every source
that can hold keys of `[begin, end)`, files of L1 and below pruned by their
ranges, seeks to the first visible version of `begin`, and walks.  For each
user key it stops at the first version that the read point sees.

    scanLoop_spec     the walk calls once for each key, with its first visible version
    scan_matches      over any state that keeps the invariant, that is what `Get` returns

The merged walk may show one version twice (the pending memtable and the L0
file its flush has just installed); the loop's flag makes that harmless.
-/
import BedrockKV.LsmInv

namespace BedrockKV

open List MultiVersion

/-- The files of one level that can hold keys of `[first, last)`. -/
def filesInRange (smallest largest : TableRef → Bytes) (first last : Bytes) :
    List TableRef → List TableRef
  | [] => []
  | r :: rs =>
    if largest r < first then filesInRange smallest largest first last rs
    else if last ≤ smallest r then []
    else r :: filesInRange smallest largest first last rs

def scanLevel (first last : Bytes) (level : List TableRef) : List (List Entry) :=
  (filesInRange TableRef.smallest TableRef.largest first last level).map TableRef.entries

/-- The loop of `DB::Scan`: what `fn` is called with, and the status at the end.
`current` is `current_user`, absent until the first key. -/
def scanLoop (resolve : Bytes → Except Status Bytes) (last : Bytes) (S : ReadSeq) :
    Option Bytes → Bool → List Entry → List (Bytes × Bytes) × Except Status Unit
  | _, _, [] => ([], .ok ())
  | current, emitted, e :: rest =>
    if last ≤ e.user then ([], .ok ())
    else
      let emitted := if current = some e.user then emitted else false
      if emitted = false ∧ WithTop.some e.seq ≤ S then
        match e.type with
        | .deletion => scanLoop resolve last S (some e.user) true rest
        | .value =>
          match resolve e.value with
          | .error status => ([], .error status)
          | .ok value =>
            let r := scanLoop resolve last S (some e.user) true rest
            ((e.user, value) :: r.1, r.2)
      else scanLoop resolve last S (some e.user) emitted rest

namespace Lsm

/-- `children`: the sources of the merge, in the order they are pushed. -/
def scanChildren (s : Lsm) (first last : Bytes) : List (List Entry) :=
  s.mem.entries :: s.imm.toList.map MemTable.entries ++ s.current.l0.map TableRef.entries ++
    levelIndices.flatMap fun i => scanLevel first last (s.current.levels i)

/-- `DB::Scan` at the read point `S`. -/
def scanWith (resolve : Bytes → Except Status Bytes) (s : Lsm) (first last : Bytes)
    (S : ReadSeq) : List (Bytes × Bytes) × Except Status Unit :=
  scanLoop resolve last S none false
    (merge ((s.scanChildren first last).map fun es => seek es ⟨first, targetTag S⟩))

end Lsm

/-- A scan of `[first, last)` succeeded and called once, in strictly increasing
order, for each key that `m` has a value for. -/
structure ScanReturns (first last : Bytes) (m : Bytes → Option Bytes)
    (r : List (Bytes × Bytes) × Except Status Unit) : Prop where
  status : r.2 = .ok ()
  increasing : r.1.Pairwise fun a b => a.1 < b.1
  calls : ∀ k v, (k, v) ∈ r.1 ↔ first ≤ k ∧ k < last ∧ m k = some v

/-! ## The walk -/

section Walk

variable {resolve : Bytes → Except Status Bytes} {last : Bytes} {S : ReadSeq}

/-- The first visible version of `k` that the walk shows. -/
def firstVisible (es : List Entry) (k : Bytes) (S : ReadSeq) : Option Entry :=
  es.find? fun e => decide (entryView.Visible k S e)

/-- What one key contributes to the calls. -/
def Shows (resolve : Bytes → Except Status Bytes) (e : Entry) (v : Bytes) : Prop :=
  e.type = .value ∧ resolve e.value = .ok v

/-- The walk's guarantee from a state of its loop. -/
structure LoopReturns (resolve : Bytes → Except Status Bytes) (last : Bytes) (S : ReadSeq)
    (current : Option Bytes) (emitted : Bool) (es : List Entry)
    (r : List (Bytes × Bytes) × Except Status Unit) : Prop where
  status : r.2 = .ok ()
  increasing : r.1.Pairwise fun a b => a.1 < b.1
  above : ∀ c ∈ r.1, ∀ u ∈ current, u ≤ c.1 ∧ (emitted = true → u < c.1)
  calls : ∀ k v, (k, v) ∈ r.1 ↔ k < last ∧ (current = some k → emitted = false) ∧
    ∃ e, firstVisible es k S = some e ∧ Shows resolve e v

variable {e : Entry} {es : List Entry} {k : Bytes} {current : Option Bytes} {emitted : Bool}
  {r : List (Bytes × Bytes) × Except Status Unit}

theorem firstVisible_cons_of_not (h : ¬ entryView.Visible k S e) :
    firstVisible (e :: es) k S = firstVisible es k S := by
  simp [firstVisible, h]

theorem firstVisible_cons_self (h : WithTop.some e.seq ≤ S) :
    firstVisible (e :: es) e.user S = some e := by
  have : entryView.Visible e.user S e := ⟨rfl, h⟩
  simp [firstVisible, this]

theorem firstVisible_eq_some (h : firstVisible es k S = some e) :
    e ∈ es ∧ entryView.Visible k S e :=
  ⟨mem_of_find?_eq_some h, by simpa using find?_some h⟩

theorem user_le_of_not_less {a b : Entry} (h : ¬ b.internalKey.less a.internalKey) :
    a.user ≤ b.user :=
  not_lt.mp fun hlt => h (InternalKey.less_of_user_lt hlt)

section

variable (hcur : ∀ u ∈ current, u ≤ e.user) (hes : ∀ x ∈ es, e.user ≤ x.user)
include hcur hes

/-- A key that comes after `e` is not the one the walk was in before `e`. -/
theorem ne_current_of_later {x : Entry} (hk : k ≠ e.user) (hx : firstVisible es k S = some x) :
    current ≠ some k := by
  obtain ⟨hmem, hv⟩ := firstVisible_eq_some hx
  have hxk : x.user = k := hv.1
  exact fun hck => hk (le_antisymm (hcur k hck) (hxk ▸ hes x hmem))

theorem LoopReturns.skip
    (hskip : (if current = some e.user then emitted else false) = true ∨ ¬ WithTop.some e.seq ≤ S)
    (h : LoopReturns resolve last S (some e.user)
      (if current = some e.user then emitted else false) es r) :
    LoopReturns resolve last S current emitted (e :: es) r where
  status := h.status
  increasing := h.increasing
  above := by
    intro c hc u hu
    obtain ⟨hle, hlt⟩ := h.above c hc e.user rfl
    refine ⟨(hcur u hu).trans hle, fun hem => ?_⟩
    by_cases hsame : current = some e.user
    · obtain rfl : u = e.user := Option.some.inj (hu.symm.trans hsame)
      exact hlt (by rw [if_pos hsame, hem])
    · have hne : u ≠ e.user := fun heq => hsame (heq ▸ hu)
      exact lt_of_lt_of_le (lt_of_le_of_ne (hcur u hu) hne) hle
  calls := by
    intro k v
    rw [h.calls k v]
    refine and_congr_right fun _ => ?_
    by_cases hk : k = e.user
    · subst hk
      rcases hskip with hem | hinv
      · -- the key is done
        have hsame : current = some e.user := by
          by_contra hne
          simp [hne] at hem
        rw [if_pos hsame] at hem ⊢
        simp [hsame, hem]
      · rw [firstVisible_cons_of_not fun hv => hinv hv.2]
        refine and_congr_left fun _ => ?_
        by_cases hsame : current = some e.user <;> simp [hsame]
    · -- a later key: it cannot be the one the walk was in before
      rw [firstVisible_cons_of_not fun hv => hk hv.1.symm]
      refine and_congr_left ?_
      rintro ⟨x, hx, -⟩
      exact iff_of_true (fun h => absurd (Option.some.inj h).symm hk)
        fun hck => absurd hck (ne_current_of_later hcur hes hk hx)

/-- After the first visible version of a key, the key contributes nothing more. -/
theorem LoopReturns.calls_rest
    (h : LoopReturns resolve last S (some e.user) true es r) (emitted : Bool) (k v : Bytes) :
    (k, v) ∈ r.1 ↔ k ≠ e.user ∧ k < last ∧ (current = some k → emitted = false) ∧
      ∃ x, firstVisible (e :: es) k S = some x ∧ Shows resolve x v := by
  rw [h.calls k v]
  by_cases hk : k = e.user
  · simp [hk]
  · rw [firstVisible_cons_of_not fun hv => hk hv.1.symm]
    simp only [ne_eq, hk, not_false_eq_true, true_and]
    refine and_congr_right fun _ => and_congr_left ?_
    rintro ⟨x, hx, -⟩
    exact iff_of_true (fun h => absurd (Option.some.inj h).symm hk)
      fun hck => absurd hck (ne_current_of_later hcur hes hk hx)

end

theorem LoopReturns.tombstone (h : LoopReturns resolve last S (some e.user) true es r)
    (hcur : ∀ u ∈ current, u ≤ e.user) (hes : ∀ x ∈ es, e.user ≤ x.user)
    (hseq : WithTop.some e.seq ≤ S) (ht : e.type = .deletion) :
    LoopReturns resolve last S current emitted (e :: es) r where
  status := h.status
  increasing := h.increasing
  above := by
    intro c hc u hu
    have hlt := lt_of_le_of_lt (hcur u hu) ((h.above c hc e.user rfl).2 rfl)
    exact ⟨le_of_lt hlt, fun _ => hlt⟩
  calls := by
    intro k v
    rw [h.calls_rest hcur hes emitted k v]
    refine and_iff_right_of_imp ?_
    rintro ⟨-, -, x, hx, hshow⟩ rfl
    obtain rfl : e = x := Option.some.inj ((firstVisible_cons_self hseq).symm.trans hx)
    exact absurd (hshow.1.symm.trans ht) (by decide)

theorem LoopReturns.emit {value : Bytes} (h : LoopReturns resolve last S (some e.user) true es r)
    (hcur : ∀ u ∈ current, u ≤ e.user) (hes : ∀ x ∈ es, e.user ≤ x.user)
    (hem : (if current = some e.user then emitted else false) = false)
    (hseq : WithTop.some e.seq ≤ S) (hin : e.user < last) (hshow : Shows resolve e value) :
    LoopReturns resolve last S current emitted (e :: es) ((e.user, value) :: r.1, r.2) where
  status := h.status
  increasing := pairwise_cons.mpr ⟨fun c hc => (h.above c hc e.user rfl).2 rfl, h.increasing⟩
  above := by
    have hstrict : ∀ u ∈ current, emitted = true → u < e.user := by
      intro u hu hemu
      refine lt_of_le_of_ne (hcur u hu) fun heq => ?_
      subst heq
      rw [if_pos (Option.mem_def.mp hu), hemu] at hem
      cases hem
    intro c hc u hu
    rcases mem_cons.mp hc with rfl | hc
    · exact ⟨hcur u hu, hstrict u hu⟩
    · have hlt := lt_of_le_of_lt (hcur u hu) ((h.above c hc e.user rfl).2 rfl)
      exact ⟨le_of_lt hlt, fun _ => hlt⟩
  calls := by
    intro k v
    rw [mem_cons, h.calls_rest hcur hes emitted k v, Prod.mk.injEq]
    by_cases hk : k = e.user
    · subst hk
      rw [firstVisible_cons_self hseq]
      have hemk : current = some e.user → emitted = false := by
        intro hsame
        rwa [if_pos hsame] at hem
      constructor
      · rintro (⟨-, rfl⟩ | ⟨hne, -⟩)
        · exact ⟨hin, hemk, e, rfl, hshow⟩
        · exact absurd rfl hne
      · rintro ⟨-, -, x, hx, hx'⟩
        cases hx
        exact .inl ⟨rfl, Except.ok.inj (hx'.2.symm.trans hshow.2)⟩
    · simp [hk]

/-- The versions the walk has still to emit resolve. -/
def Resolvable (resolve : Bytes → Except Status Bytes) (last : Bytes) (S : ReadSeq)
    (current : Option Bytes) (emitted : Bool) (es : List Entry) : Prop :=
  ∀ k < last, (current = some k → emitted = false) → ∀ e, firstVisible es k S = some e →
    e.type = .value → ∃ v, resolve e.value = .ok v

theorem Resolvable.tail {emitted' : Bool} (hcur : ∀ u ∈ current, u ≤ e.user)
    (hes : ∀ x ∈ es, e.user ≤ x.user)
    (hem : emitted' = true ∨ ((current = some e.user → emitted = false) ∧ ¬ WithTop.some e.seq ≤ S))
    (h : Resolvable resolve last S current emitted (e :: es)) :
    Resolvable resolve last S (some e.user) emitted' es := by
  intro k hk hact x hx
  by_cases hke : k = e.user
  · subst hke
    obtain ⟨hemit, hinv⟩ := hem.resolve_left (by rw [hact rfl]; decide)
    exact h _ hk hemit x (by rw [firstVisible_cons_of_not fun hv => hinv hv.2]; exact hx)
  · refine h k hk (fun hck => absurd hck (ne_current_of_later hcur hes hke hx)) x ?_
    rw [firstVisible_cons_of_not fun hv => hke hv.1.symm]
    exact hx

/-- **One walk** over entries in internal-key order. -/
theorem scanLoop_spec (hsorted : es.Pairwise fun a b => ¬ b.internalKey.less a.internalKey) :
    ∀ {current : Option Bytes} {emitted : Bool}, (∀ u ∈ current, ∀ e ∈ es, u ≤ e.user) →
      Resolvable resolve last S current emitted es →
      LoopReturns resolve last S current emitted es
        (scanLoop resolve last S current emitted es) := by
  induction es with
  | nil =>
    intro current emitted _ _
    exact ⟨rfl, List.Pairwise.nil, by simp [scanLoop], by simp [scanLoop, firstVisible]⟩
  | cons e es ih =>
    intro current emitted hcur hres
    obtain ⟨hhead, htail⟩ := pairwise_cons.mp hsorted
    have hes : ∀ x ∈ es, e.user ≤ x.user := fun x hx => user_le_of_not_less (hhead x hx)
    have hcure : ∀ u ∈ current, u ≤ e.user := fun u hu => hcur u hu e mem_cons_self
    have hnext : ∀ {emitted'}, Resolvable resolve last S (some e.user) emitted' es →
        LoopReturns resolve last S (some e.user) emitted' es
          (scanLoop resolve last S (some e.user) emitted' es) :=
      ih htail fun u hu x hx => Option.some.inj hu ▸ hes x hx
    rw [scanLoop]
    split
    · -- at the end of the range: no key of the rest is inside
      next hlast =>
        refine ⟨rfl, List.Pairwise.nil, by simp, fun k v => ?_⟩
        refine iff_of_false (by simp) ?_
        rintro ⟨hk, -, x, hx, -⟩
        obtain ⟨hmem, hv⟩ := firstVisible_eq_some hx
        have hle : e.user ≤ x.user := by
          rcases mem_cons.mp hmem with rfl | hmem
          · exact le_refl _
          · exact hes x hmem
        exact absurd (hlast.trans (hle.trans (le_of_eq hv.1))) (not_le.mpr hk)
    · next hin =>
      have hin := not_le.mp hin
      dsimp only
      by_cases hshow : (if current = some e.user then emitted else false) = false ∧
          WithTop.some e.seq ≤ S
      · rw [if_pos hshow]
        have hdone := hnext (hres.tail hcure hes (.inl rfl))
        cases ht : e.type with
        | deletion => exact hdone.tombstone hcure hes hshow.2 ht
        | value =>
          have hact : current = some e.user → emitted = false := by
            intro hsame
            simpa [hsame] using hshow.1
          obtain ⟨v, hv⟩ := hres e.user hin hact e (firstVisible_cons_self hshow.2) ht
          rw [hv]
          exact hdone.emit hcure hes hshow.1 hshow.2 hin ⟨ht, hv⟩
      · rw [if_neg hshow]
        rw [not_and_or, Bool.not_eq_false] at hshow
        refine (hnext (hres.tail hcure hes ?_)).skip hcure hes hshow
        by_cases hsame : current = some e.user
        · rw [if_pos hsame] at hshow ⊢
          cases emitted <;> simp_all
        · rw [if_neg hsame] at hshow ⊢
          exact .inr ⟨fun h => absurd h hsame, hshow.resolve_left (by simp)⟩

theorem scanLoop_nil :
    ∀ {es : List Entry}, (∀ x ∈ es, last ≤ x.user) →
      scanLoop resolve last S current emitted es = ([], .ok ())
  | [], _ => rfl
  | e :: es, h => by
      rw [scanLoop, if_pos (h e mem_cons_self)]

/-- **A walk stops at a version that does not resolve**: nothing is called from its key on. -/
theorem scanLoop_stops {key : Bytes}
    (hsorted : es.Pairwise fun a b => ¬ b.internalKey.less a.internalKey) (hkey : key < last) :
    ∀ {current : Option Bytes} {emitted : Bool} {e : Entry} {status : Status},
      (current = some key → emitted = false) → firstVisible es key S = some e → e.type = .value →
      resolve e.value = .error status →
      (scanLoop resolve last S current emitted es).1 =
        (scanLoop resolve key S current emitted es).1 := by
  induction es with
  | nil => exact fun _ _ _ _ => rfl
  | cons x es ih =>
    intro current emitted e status hact he ht hr
    obtain ⟨hhead, htail⟩ := pairwise_cons.mp hsorted
    have hes : ∀ y ∈ es, x.user ≤ y.user := fun y hy => user_le_of_not_less (hhead y hy)
    obtain ⟨hmem, hv⟩ := firstVisible_eq_some he
    have hxe : x.user ≤ key := by
      rcases mem_cons.mp hmem with rfl | hmem
      · exact le_of_eq hv.1
      · exact hv.1 ▸ hes e hmem
    have hin : ¬ last ≤ x.user := not_le.mpr (lt_of_le_of_lt hxe hkey)
    rcases lt_or_eq_of_le hxe with hlt | rfl
    · -- before the key both walks do the same
      have hrest : firstVisible es key S = some e := by
        rwa [firstVisible_cons_of_not fun hx => absurd hx.1 (ne_of_lt hlt)] at he
      have hnext : ∀ emitted', (scanLoop resolve last S (some x.user) emitted' es).1 =
          (scanLoop resolve key S (some x.user) emitted' es).1 := fun emitted' =>
        ih htail (fun hsame => absurd (Option.some.inj hsame) (ne_of_lt hlt)) hrest ht hr
      rw [scanLoop, scanLoop, if_neg hin, if_neg (not_le.mpr hlt)]
      dsimp only
      generalize (if current = some x.user then emitted else false) = shown
      split
      · cases x.type with
        | deletion => exact hnext true
        | value =>
          cases resolve x.value with
          | error _ => rfl
          | ok value => exact congrArg (List.cons (x.user, value)) (hnext true)
      · exact hnext _
    · -- at the key: a version that is not visible yet is passed by
      rw [scanLoop_nil (forall_mem_cons.mpr ⟨le_refl _, hes⟩), scanLoop, if_neg hin]
      have hidle : (if current = some x.user then emitted else false) = false := by
        split_ifs with hsame
        · exact hact hsame
        · rfl
      dsimp only
      rw [hidle]
      by_cases hvis : WithTop.some x.seq ≤ S
      · rw [firstVisible_cons_self hvis] at he
        cases he
        rw [if_pos ⟨rfl, hvis⟩, ht]
        simp only [hr]
      · rw [firstVisible_cons_of_not fun hx => hvis hx.2] at he
        rw [if_neg fun hx => hvis hx.2, ih htail (fun _ => rfl) he ht hr, scanLoop_nil hes]

theorem firstVisible_isNewest (hsorted : es.Pairwise fun a b => ¬ b.internalKey.less a.internalKey)
    (h : firstVisible es k S = some e) : entryView.IsNewest es k S e := by
  obtain ⟨hmem, hv⟩ := firstVisible_eq_some h
  refine ⟨hmem, hv, fun x hx hxv => ?_⟩
  obtain ⟨-, left, right, rfl, hleft⟩ := find?_eq_some_iff_append.mp h
  rcases mem_append.mp hx with hx | hx
  · exact absurd hxv (by simpa using hleft x hx)
  · rcases mem_cons.mp hx with rfl | hx
    · exact le_rfl
    · have hge := (pairwise_cons.mp (pairwise_append.mp hsorted).2.1).1 x hx
      rw [InternalKey.less_iff_tag (hxv.1.trans hv.1.symm), not_lt] at hge
      exact Entry.seq_le_of_tag_le (WithTop.coe_le_coe.mp hge)

theorem firstVisible_eq_none (h : firstVisible es k S = none) : entryView.Silent es k S :=
  fun x hx hv => absurd hv (by simpa using find?_eq_none.mp h x hx)

theorem firstVisible_iff_reads {slot : Bytes}
    (hsorted : es.Pairwise fun a b => ¬ b.internalKey.less a.internalKey)
    (hd : entryView.Distinct es) :
    (∃ e, firstVisible es k S = some e ∧ e.type = .value ∧ e.value = slot) ↔
      entryView.Reads es k S (some slot) := by
  cases hf : firstVisible es k S with
  | none =>
    have hs := firstVisible_eq_none hf
    simp [hs.reads_iff]
  | some e =>
    have hn := firstVisible_isNewest hsorted hf
    simp only [hn.reads_iff hd, Option.some.injEq, exists_eq_left']
    cases ht : e.type <;> simp [entryView, ht, eq_comm]

end Walk

/-! ## The sources of a scan -/

theorem mem_seek {es : List Entry} (hinc : Increasing es) {target : InternalKey} {x : Entry} :
    x ∈ seek es target ↔ x ∈ es ∧ ¬ x.internalKey.less target := by
  induction es with
  | nil => simp [seek]
  | cons e es ih =>
    obtain ⟨hhead, htail⟩ := pairwise_cons.mp hinc
    by_cases he : e.internalKey.less target
    · have hdrop : seek (e :: es) target = seek es target := by simp [seek, he]
      rw [hdrop, ih htail, mem_cons, or_and_right]
      refine ⟨.inr, fun h => h.resolve_left ?_⟩
      rintro ⟨rfl, hx⟩
      exact hx he
    · have hdrop : seek (e :: es) target = e :: es := by simp [seek, he]
      rw [hdrop]
      refine ⟨fun hx => ⟨hx, ?_⟩, And.left⟩
      rcases mem_cons.mp hx with rfl | hx
      · exact he
      · exact fun hlt => he (InternalKey.less_trans (hhead x hx) hlt)

theorem mem_scanLevel {first last : Bytes} {level : List TableRef} (hok : LevelOk level)
    {x : Entry} (hlo : first ≤ x.user) (hhi : x.user < last) :
    (∃ c ∈ scanLevel first last level, x ∈ c) ↔ x ∈ levelEntries level := by
  induction level with
  | nil => simp [scanLevel, filesInRange, levelEntries]
  | cons r rs ih =>
    obtain ⟨hhead, htail⟩ := pairwise_cons.mp hok
    have ih := ih htail
    rw [mem_levelEntries] at ih ⊢
    rw [scanLevel, filesInRange]
    split
    · next hleft =>
      rw [← scanLevel, ih]
      refine ⟨fun ⟨t, ht, hx⟩ => ⟨t, mem_cons_of_mem _ ht, hx⟩, ?_⟩
      rintro ⟨t, ht, hx⟩
      rcases mem_cons.mp ht with rfl | ht
      · exact absurd (hlo.trans (Table.le_largest hx)) (not_le.mpr hleft)
      · exact ⟨t, ht, hx⟩
    · split
      · next hright =>
        -- the file and all behind it start at or right of the end
        refine iff_of_false (by simp) ?_
        rintro ⟨t, ht, hx⟩
        have hle : r.smallest ≤ t.smallest := by
          rcases mem_cons.mp ht with rfl | ht
          · exact le_refl _
          · exact r.table.smallest_le_largest.trans (le_of_lt (hhead t ht))
        exact absurd ((hright.trans hle).trans (Table.smallest_le hx)) (not_le.mpr hhi)
      · rw [map_cons, ← scanLevel]
        simp only [mem_cons, exists_eq_or_imp, ih]

theorem filesInRange_subset {smallest largest : TableRef → Bytes} {first last : Bytes}
    (level : List TableRef) : filesInRange smallest largest first last level ⊆ level := by
  induction level with
  | nil => exact List.Subset.refl _
  | cons r rs ih =>
    rw [filesInRange]
    split
    · exact subset_cons_of_subset r ih
    · split
      · exact nil_subset _
      · exact cons_subset_cons r ih

theorem filesInRange_congr {smallest largest : TableRef → Bytes} {level : List TableRef}
    (h : ∀ r ∈ level, smallest r = r.smallest ∧ largest r = r.largest) (first last : Bytes) :
    filesInRange smallest largest first last level =
      filesInRange TableRef.smallest TableRef.largest first last level := by
  induction level with
  | nil => rfl
  | cons r rs ih =>
    obtain ⟨hr, hrs⟩ := forall_mem_cons.mp h
    rw [filesInRange, filesInRange, hr.1, hr.2, ih hrs]

namespace Lsm

variable {h : List Entry} {s : Lsm} {first last : Bytes} {S : ReadSeq}

theorem scanChildren_increasing : ∀ c ∈ s.scanChildren first last, Increasing c := by
  intro c hc
  simp only [scanChildren, mem_append, mem_cons, mem_map, mem_flatMap] at hc
  rcases hc with ((rfl | ⟨m, -, rfl⟩) | ⟨r, -, rfl⟩) | ⟨i, -, hc⟩
  · exact s.mem.increasing
  · exact m.increasing
  · exact r.table.increasing
  · obtain ⟨r, -, rfl⟩ := mem_map.mp hc
    exact r.table.increasing

variable {x : Entry} {k slot : Bytes} {resolve : Bytes → Except Status Bytes}

/-- The pending memtable counts once, itself or as the file it became. -/
theorem mem_imm_or_version (hi : s.Inv h) :
    ((∃ m ∈ s.imm, x ∈ m.entries) ∨ x ∈ s.current.entries) ↔
      x ∈ s.pending ++ s.current.entries := by
  rw [mem_append]
  by_cases hfl : s.flush = .installed
  · obtain ⟨m, r, rest, hm, hl0, hr⟩ := hi.installed hfl
    have hpe : s.pending = [] := by simp [pending, hfl]
    have hsub : x ∈ m.entries → x ∈ s.current.entries := fun hx =>
      Version.mem_entries.mpr ⟨r, Version.mem_tables.mpr (.inl (by simp [hl0])), hr ▸ hx⟩
    simp only [hpe, hm, Option.mem_def, Option.some.injEq, exists_eq_left', not_mem_nil, false_or]
    exact or_iff_right_of_imp hsub
  · have hpe : s.pending = (s.imm.toList.flatMap MemTable.entries) := by
      unfold pending
      cases s.imm <;> split <;> simp_all
    rw [hpe]
    cases s.imm <;> simp

theorem mem_scanChildren (hi : s.Inv h) (hlo : first ≤ x.user) (hhi : x.user < last) :
    (∃ c ∈ s.scanChildren first last, x ∈ c) ↔ x ∈ s.stored := by
  have hlevels : (∃ c ∈ levelIndices.flatMap fun i => scanLevel first last (s.current.levels i),
      x ∈ c) ↔ ∃ i, x ∈ levelEntries (s.current.levels i) := by
    simp only [mem_flatMap]
    constructor
    · rintro ⟨c, ⟨i, -, hc⟩, hx⟩
      exact ⟨i, (mem_scanLevel (hi.contents.version.level_ok i) hlo hhi).mp ⟨c, hc, hx⟩⟩
    · rintro ⟨i, hx⟩
      obtain ⟨c, hc, hx⟩ := (mem_scanLevel (hi.contents.version.level_ok i) hlo hhi).mpr hx
      exact ⟨c, ⟨i, mem_finRange i, hc⟩, hx⟩
  have hversion : x ∈ s.current.entries ↔ (∃ r ∈ s.current.l0, x ∈ r.entries) ∨
      ∃ i, x ∈ levelEntries (s.current.levels i) := by
    rw [← mem_version_sources]
    simp [Version.sources, levelIndices]
  rw [stored, mem_append, ← mem_imm_or_version hi, hversion, ← hlevels]
  simp only [scanChildren, mem_append, mem_cons, mem_map, or_and_right, exists_or,
    Option.mem_toList, Option.mem_def]
  simp only [exists_eq_left, exists_exists_and_eq_and, or_assoc]

/-- What the walk of a scan shows of a key in the range is what is stored. -/
theorem reads_scan (hi : s.Inv h) (hlo : first ≤ k) (hhi : k < last) {r : Option Bytes} :
    entryView.Reads (merge ((s.scanChildren first last).map fun es =>
      seek es ⟨first, targetTag S⟩)) k S r ↔ entryView.Reads s.stored k S r := by
  refine View.reads_visible_congr fun x hv => ?_
  obtain rfl : x.user = k := hv.1
  have hseek : ¬ x.internalKey.less ⟨first, targetTag S⟩ := by
    rcases lt_or_eq_of_le hlo with hlt | heq
    · exact fun hless => absurd (InternalKey.less_user_le hless) (not_le.mpr hlt)
    · exact (not_less_target_iff heq.symm).mpr ⟨heq.symm, hv.2⟩
  rw [mem_merge, ← mem_scanChildren hi hlo hhi]
  constructor
  · rintro ⟨d, hd, hx⟩
    obtain ⟨c, hc, rfl⟩ := mem_map.mp hd
    exact ⟨c, hc, ((mem_seek (scanChildren_increasing c hc)).mp hx).1⟩
  · rintro ⟨c, hc, hx⟩
    exact ⟨_, mem_map.mpr ⟨c, hc, rfl⟩, (mem_seek (scanChildren_increasing c hc)).mpr ⟨hx, hseek⟩⟩

theorem mem_stored_of_scan (hi : s.Inv h)
    (hx : x ∈ merge ((s.scanChildren first last).map fun es => seek es ⟨first, targetTag S⟩)) :
    x ∈ s.stored := by
  obtain ⟨d, hd, hx⟩ := mem_merge.mp hx
  obtain ⟨c, hc, rfl⟩ := mem_map.mp hd
  replace hx := ((mem_seek (scanChildren_increasing c hc)).mp hx).1
  rw [stored, mem_append, ← mem_imm_or_version hi]
  simp only [scanChildren, mem_append, mem_cons, mem_map, mem_flatMap, Option.mem_toList] at hc
  rcases hc with ((rfl | ⟨m, hm, rfl⟩) | ⟨r, hr, rfl⟩) | ⟨i, -, hc⟩
  · exact .inl hx
  · exact .inr (.inl ⟨m, hm, hx⟩)
  · exact .inr (.inr (Version.mem_entries.mpr ⟨r, Version.mem_tables.mpr (.inl hr), hx⟩))
  · obtain ⟨r, hr, rfl⟩ := mem_map.mp hc
    exact .inr (.inr (Version.mem_entries.mpr
      ⟨r, Version.mem_tables_of_level (filesInRange_subset _ hr), hx⟩))

theorem first_le_of_scan
    (hx : x ∈ merge ((s.scanChildren first last).map fun es => seek es ⟨first, targetTag S⟩)) :
    first ≤ x.user := by
  obtain ⟨d, hd, hx⟩ := mem_merge.mp hx
  obtain ⟨c, hc, rfl⟩ := mem_map.mp hd
  have hge := ((mem_seek (scanChildren_increasing c hc)).mp hx).2
  exact not_lt.mp fun hlt => hge (InternalKey.less_of_user_lt hlt)

theorem lookup_eq_found (hi : s.Inv h) :
    s.lookup k S = .found slot ↔ entryView.Reads s.stored k S (some slot) := by
  have hreads := (lookup_answers hi k S).reads
  have hd : entryView.Distinct s.stored := hi.contents.distinct.mono hi.contents.sub
  constructor
  · intro hl
    rw [hl] at hreads
    exact hreads
  · intro hslot
    have := hreads.unique hd hslot
    cases hl : s.lookup k S <;> simp_all [Lookup.toOption]

theorem getWith_eq_ok {v : Bytes} :
    s.getWith resolve k S = .ok v ↔ ∃ slot, s.lookup k S = .found slot ∧ resolve slot = .ok v := by
  rw [getWith]
  cases s.lookup k S <;> simp

/-- What the scan of `[first, last)` walks over. -/
def walk (s : Lsm) (first last : Bytes) (S : ReadSeq) : List Entry :=
  merge ((s.scanChildren first last).map fun es => seek es ⟨first, targetTag S⟩)

theorem walk_sorted (s : Lsm) (first last : Bytes) (S : ReadSeq) :
    (s.walk first last S).Pairwise fun a b => ¬ b.internalKey.less a.internalKey := by
  refine merge_sorted fun c hc => ?_
  obtain ⟨es, hes, rfl⟩ := mem_map.mp hc
  exact (scanChildren_increasing es hes).sublist (dropWhile_sublist _)

/-- Inside the range the walk and the store read alike. -/
theorem found_iff_firstVisible (hi : s.Inv h) (hlo : first ≤ k) (hhi : k < last) :
    s.lookup k S = .found slot ↔
      ∃ e, firstVisible (s.walk first last S) k S = some e ∧ e.type = .value ∧ e.value = slot := by
  have hsorted := s.walk_sorted first last S
  have hd : entryView.Distinct (s.walk first last S) := hi.contents.distinct.mono fun x hx =>
    hi.contents.sub x (mem_stored_of_scan hi hx)
  rw [lookup_eq_found hi, ← reads_scan hi hlo hhi]
  exact (firstVisible_iff_reads hsorted hd).symm

/-- The walk of a scan of `[first, last)`, stopped at `bound`, agrees with `Get` up to there, at any
read point where every slot that a `Get` finds before `bound` resolves. -/
theorem walk_matches (hi : s.Inv h) {first last bound : Bytes} (hbound : bound ≤ last)
    (hres : ∀ k slot, first ≤ k → k < bound → s.lookup k S = .found slot →
      ∃ v, resolve slot = .ok v) :
    ScanReturns first bound (fun k => (s.getWith resolve k S).toOption)
      (scanLoop resolve bound S none false (s.walk first last S)) := by
  have hsorted := s.walk_sorted first last S
  have hd : entryView.Distinct (s.walk first last S) := hi.contents.distinct.mono fun x hx =>
    hi.contents.sub x (mem_stored_of_scan hi hx)
  have hfirst : ∀ x ∈ s.walk first last S, first ≤ x.user := fun x hx => first_le_of_scan hx
  have hwalk : LoopReturns resolve bound S none false (s.walk first last S)
      (scanLoop resolve bound S none false (s.walk first last S)) := by
    refine scanLoop_spec hsorted (by simp) ?_
    intro k hk _ e he ht
    obtain ⟨hmem, hv⟩ := firstVisible_eq_some he
    have hlo : first ≤ k := hv.1 ▸ hfirst e hmem
    exact hres k e.value hlo hk ((found_iff_firstVisible hi hlo (lt_of_lt_of_le hk hbound)).mpr
      ⟨e, he, ht, rfl⟩)
  refine ⟨hwalk.status, hwalk.increasing, fun k v => ?_⟩
  have hok : (s.getWith resolve k S).toOption = some v ↔ s.getWith resolve k S = .ok v := by
    cases s.getWith resolve k S <;> simp [Except.toOption]
  rw [hwalk.calls k v, hok, getWith_eq_ok]
  constructor
  · rintro ⟨hk, -, e, he, hshow⟩
    obtain ⟨hmem, hv⟩ := firstVisible_eq_some he
    have hlo : first ≤ k := hv.1 ▸ hfirst e hmem
    exact ⟨hlo, hk, e.value, (found_iff_firstVisible hi hlo (lt_of_lt_of_le hk hbound)).mpr
      ⟨e, he, hshow.1, rfl⟩, hshow.2⟩
  · rintro ⟨hlo, hk, slot, hslot, hr⟩
    obtain ⟨e, he, ht, rfl⟩ := (found_iff_firstVisible hi hlo (lt_of_lt_of_le hk hbound)).mp hslot
    exact ⟨hk, by simp, e, he, ht, hr⟩

/-- `Get` finds a slot for the key that does not resolve. -/
def Damaged (resolve : Bytes → Except Status Bytes) (s : Lsm) (S : ReadSeq) (key : Bytes) : Prop :=
  ∃ slot status, s.lookup key S = .found slot ∧ resolve slot = .error status

theorem resolves_of_not_damaged (h : ¬ s.Damaged resolve S k) (hslot : s.lookup k S = .found slot) :
    ∃ v, resolve slot = .ok v := by
  cases hr : resolve slot with
  | error status => exact absurd ⟨slot, status, hslot, hr⟩ h
  | ok v => exact ⟨v, rfl⟩

theorem exists_first_damaged (hi : s.Inv h) {first last key : Bytes} (hlo : first ≤ key)
    (hhi : key < last) (hkey : s.Damaged resolve S key) :
    ∃ key', first ≤ key' ∧ key' < last ∧ s.Damaged resolve S key' ∧
      ∀ k, first ≤ k → k < key' → ¬ s.Damaged resolve S k := by
  classical
  -- the damaged keys are among those of the walk, which are finitely many
  have hwalk : ∀ k, first ≤ k → k < last → s.Damaged resolve S k →
      k ∈ ((s.walk first last S).map Entry.user).toFinset := by
    rintro k hk hk' ⟨slot, status, hslot, -⟩
    obtain ⟨e, he, -⟩ := (found_iff_firstVisible hi hk hk').mp hslot
    obtain ⟨hmem, hv⟩ := firstVisible_eq_some he
    exact mem_toFinset.mpr (mem_map.mpr ⟨e, hmem, hv.1⟩)
  let D := ((s.walk first last S).map Entry.user).toFinset.filter fun k =>
    first ≤ k ∧ k < last ∧ s.Damaged resolve S k
  have hD : ∀ {k}, k ∈ D ↔ first ≤ k ∧ k < last ∧ s.Damaged resolve S k := by
    intro k
    refine ⟨fun hk => (Finset.mem_filter.mp hk).2, fun hk => Finset.mem_filter.mpr ⟨?_, hk⟩⟩
    exact hwalk k hk.1 hk.2.1 hk.2.2
  obtain ⟨key', hmem, hmin⟩ := Finset.exists_min_image D id ⟨key, hD.mpr ⟨hlo, hhi, hkey⟩⟩
  obtain ⟨hlo', hhi', hkey'⟩ := hD.mp hmem
  refine ⟨key', hlo', hhi', hkey', fun k hk hlt hdam => ?_⟩
  exact absurd (hmin k (hD.mpr ⟨hk, hlt.trans hhi', hdam⟩)) (not_le.mpr hlt)

/-- **A scan calls for the keys before the first damaged one**, and no further. -/
theorem scan_stops (hi : s.Inv h) {first last key : Bytes} (hlo : first ≤ key) (hhi : key < last)
    (hkey : s.Damaged resolve S key) (hbefore : ∀ k, first ≤ k → k < key → ¬ s.Damaged resolve S k)
    (k v : Bytes) :
    (k, v) ∈ (s.scanWith resolve first last S).1 ↔
      first ≤ k ∧ k < key ∧ s.getWith resolve k S = .ok v := by
  obtain ⟨slot, status, hslot, hr⟩ := hkey
  obtain ⟨e, he, ht, rfl⟩ := (found_iff_firstVisible hi hlo hhi).mp hslot
  have hstop : (s.scanWith resolve first last S).1 =
      (scanLoop resolve key S none false (s.walk first last S)).1 :=
    scanLoop_stops (s.walk_sorted first last S) hhi (by simp) he ht hr
  have hwalk : ScanReturns first key (fun k => (s.getWith resolve k S).toOption)
      (scanLoop resolve key S none false (s.walk first last S)) :=
    walk_matches hi (le_of_lt hhi) fun k slot hk hlt => resolves_of_not_damaged (hbefore k hk hlt)
  rw [hstop, hwalk.calls k v]
  cases s.getWith resolve k S <;> simp [Except.toOption]

/-- **Scan agrees with `Get`**, at any read point where every slot that a `Get`
finds resolves. -/
theorem scan_matches (hi : s.Inv h)
    (hres : ∀ k slot, s.lookup k S = .found slot → ∃ v, resolve slot = .ok v) (first last : Bytes) :
    ScanReturns first last (fun k => (s.getWith resolve k S).toOption)
      (s.scanWith resolve first last S) :=
  walk_matches hi (le_refl last) fun k slot _ _ => hres k slot

end Lsm

end BedrockKV
