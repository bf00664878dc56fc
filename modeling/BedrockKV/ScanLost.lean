/-
# `BedrockKV.ScanLost` — scans over values that a power cut took

A pointer into the torn end of a value log reads as `kNotFound`.  `Get` passes
that on, and the key looks missing, as `docs/vlog-format.md` says.  `Scan`
passes it on as well, from the middle of its walk: the keys behind the first
such pointer are not visited (`Lsm.scan_stops`).  So a scan leaves out no more
than the lost keys exactly when there is nothing to be read behind them.
-/
import BedrockKV.CrashLife

namespace BedrockKV

namespace DB

/-- The scan calls for the keys that `Get` has a value for, and leaves out
exactly those for which `Get` returns `kNotFound`. -/
structure PassesOver (pl : Platform) (s : DB) (first last : Bytes) (S : ReadSeq) : Prop where
  calls : ∀ key value, (key, value) ∈ (s.scanBytes pl first last S).1 ↔
    first ≤ key ∧ key < last ∧ s.getBytes pl key S = .ok value
  omits : ∀ key, first ≤ key → key < last →
    ((∀ value, (key, value) ∉ (s.scanBytes pl first last S).1) ↔
      ∃ status, s.getBytes pl key S = .error status ∧ status.code = .notFound)

/-- In the range, what does not resolve is missing, and stands behind all that can be read. -/
def LostLast (pl : Platform) (s : DB) (first last : Bytes) (S : ReadSeq) : Prop :=
  ∀ key slot status, first ≤ key → key < last → s.core.lookupBytes pl key S = .ok (.found slot) →
    s.resolve slot = .error status → status.code = .notFound ∧
      ∀ key' value, key < key' → key' < last → s.getBytes pl key' S ≠ .ok value

variable {pl : Platform} {s : DB} {first last : Bytes} {S : ReadSeq}

theorem get_eq_error {key : Bytes} {status : Status} (h : s.get key S = .error status) :
    (∃ slot, s.core.lookup key S = .found slot ∧ s.resolve slot = .error status) ∨
      status.code = .notFound := by
  unfold DB.get Lsm.getWith at h
  cases hl : s.core.lookup key S with
  | found slot =>
    rw [hl] at h
    exact .inl ⟨slot, rfl, h⟩
  | deleted | missing =>
    rw [hl] at h
    cases h
    exact .inr rfl

theorem get_of_unresolved {key slot : Bytes} {status : Status}
    (hslot : s.core.lookup key S = .found slot) (hr : s.resolve slot = .error status) :
    s.get key S = .error status := by
  unfold DB.get Lsm.getWith
  rw [hslot]
  exact hr

theorem passesOver_of_calls (hscan : s.scanBytes pl first last S = s.scan first last S)
    (hget : ∀ key, s.getBytes pl key S = s.get key S)
    (hcalls : ∀ key value, (key, value) ∈ (s.scan first last S).1 ↔
      first ≤ key ∧ key < last ∧ s.get key S = .ok value)
    (hcode : ∀ key slot status, first ≤ key → key < last → s.core.lookup key S = .found slot →
      s.resolve slot = .error status → status.code = .notFound) :
    s.PassesOver pl first last S := by
  refine ⟨fun key value => ?_, fun key hlo hhi => ?_⟩
  · rw [hscan, hget]
    exact hcalls key value
  rw [hscan, hget]
  refine ⟨fun hnone => ?_, ?_⟩
  · cases hkey : s.get key S with
    | ok value => exact absurd ((hcalls key value).mpr ⟨hlo, hhi, hkey⟩) (hnone value)
    | error status =>
      refine ⟨status, rfl, ?_⟩
      rcases get_eq_error hkey with ⟨slot, hslot, hr⟩ | hcode'
      · exact hcode key slot status hlo hhi hslot hr
      · exact hcode'
  · rintro ⟨status, hkey, -⟩ value hmem
    have hok := ((hcalls key value).mp hmem).2.2
    rw [hkey] at hok
    cases hok

theorem passesOver_iff {h : List Entry} (hi : s.core.Inv h) (hf : s.Fits pl)
    (hS : ∀ q : Nat, S = WithTop.some q → q < 2 ^ 56) (hfirst : first.length < 2 ^ 32) :
    s.PassesOver pl first last S ↔ s.LostLast pl first last S := by
  have hscan := scanBytes_eq hi hf hS hfirst last
  have hget := getBytes_eq hi hf hS
  have hlook := Lsm.lookupBytes_eq hi hf hS
  constructor
  · intro hp key slot status hlo hhi hslot hr
    rw [hlook, Except.ok.injEq] at hslot
    have hcalls : ∀ key value, (key, value) ∈ (s.scan first last S).1 ↔
        first ≤ key ∧ key < last ∧ s.get key S = .ok value := fun key value => by
      rw [← hscan, ← hget]
      exact hp.calls key value
    have hkey := get_of_unresolved hslot hr
    have hnone : ∀ value, (key, value) ∉ (s.scanBytes pl first last S).1 := fun value hmem => by
      have hok := ((hcalls key value).mp (hscan ▸ hmem)).2.2
      rw [hkey] at hok
      cases hok
    obtain ⟨status', hkey', hcode⟩ := (hp.omits key hlo hhi).mp hnone
    rw [hget] at hkey'
    obtain rfl := Except.error.inj (hkey.symm.trans hkey')
    refine ⟨hcode, fun key' value hlt hhi' hok => ?_⟩
    rw [hget] at hok
    -- the walk has stopped before `key'`
    obtain ⟨stop, hlo', hlast, hdam, hbefore⟩ :=
      Lsm.exists_first_damaged hi hlo hhi ⟨slot, status, hslot, hr⟩
    have hmem := (hcalls key' value).mpr ⟨hlo.trans (le_of_lt hlt), hhi', hok⟩
    have hstop := ((Lsm.scan_stops hi hlo' hlast hdam hbefore key' value).mp hmem).2.1
    exact hbefore key hlo (hlt.trans hstop) ⟨slot, status, hslot, hr⟩
  · intro hlost
    have hlost' : ∀ key slot status, first ≤ key → key < last →
        s.core.lookup key S = .found slot → s.resolve slot = .error status →
        status.code = .notFound ∧
          ∀ key' value, key < key' → key' < last → s.getBytes pl key' S ≠ .ok value :=
      fun key slot status hlo hhi hslot => hlost key slot status hlo hhi (by rw [hlook, hslot])
    refine passesOver_of_calls hscan hget (fun key value => ?_)
      fun key slot status hlo hhi hslot hr => (hlost' key slot status hlo hhi hslot hr).1
    by_cases hany : ∃ k, first ≤ k ∧ k < last ∧ s.core.Damaged s.resolve S k
    · obtain ⟨k, hlo, hhi, hdam⟩ := hany
      obtain ⟨stop, hlo', hlast, ⟨slot, status, hslot, hr⟩, hbefore⟩ :=
        Lsm.exists_first_damaged hi hlo hhi hdam
      rw [DB.scan, Lsm.scan_stops hi hlo' hlast ⟨slot, status, hslot, hr⟩ hbefore]
      refine ⟨fun hc => ⟨hc.1, hc.2.1.trans hlast, hc.2.2⟩, fun hc => ⟨hc.1, ?_, hc.2.2⟩⟩
      rcases lt_trichotomy key stop with hlt | rfl | hgt
      · exact hlt
      · have hkey := get_of_unresolved hslot hr
        rw [hc.2.2] at hkey
        cases hkey
      · have hread := (hlost' stop slot status hlo' hlast hslot hr).2 key value hgt hc.2.1
        rw [hget] at hread
        exact absurd hc.2.2 hread
    · have hwalk := Lsm.walk_matches hi (le_refl last) fun k slot hlo hhi =>
        Lsm.resolves_of_not_damaged fun hdam => hany ⟨k, hlo, hhi, hdam⟩
      refine (hwalk.calls key value).trans ?_
      rw [DB.get]
      cases s.core.getWith s.resolve key S <;> simp [Except.toOption]

variable {r : DB} {opt opt' : Options} {tr : List Hard} {op : Op} {n : Nat} {loss : Loss}

/-- **Scans after a power cut.**  After any life, with power cuts whose torn logs were mended, and
a power cut at any point of any step, with any loss: the scan of a range of the recovered database
leaves out exactly the lost keys if and only if nothing in the range can be read behind one. -/
theorem run_scanLost
    (hmeets : Machine.Meets stepHard (fun s ev => s.Fits pl ∧ s.Mended ev) (fresh opt) tr)
    (hrun : Machine.run stepHard (fresh opt) tr = some s) (hr : s.recover op n loss opt' = some r)
    (hf : r.Fits pl) (hS : ∀ q : Nat, S = WithTop.some q → q < 2 ^ 56)
    (hfirst : first.length < 2 ^ 32) (last : Bytes) :
    r.PassesOver pl first last S ↔ r.LostLast pl first last S := by
  obtain ⟨h, hi⟩ := (run_hard (hmeets.imp fun _ _ => And.right) hrun).recover hr
  exact passesOver_iff hi hf hS hfirst

/-- Values of this length go to the value log, and nothing is synced. -/
def separateOptions : Options :=
  { Lsm.smallOptions with
    syncMode := .kSyncNever
    enableValueSeparation := true
    valueSeparationThreshold := 64 }

/-- A long value and a short one behind it. -/
def sampleLoss : List Hard :=
  [.life (.op (.put [1] (List.replicate 64 7))), .life (.op (.put [2] [20]))]

/-- All of the log is left, and nothing of the value log. -/
def tornVlog : Loss := ⟨fun _ => 1000, fun _ => 0, fun _ => false⟩

theorem sampleLoss_recovers :
    ∃ s r, Machine.run stepHard (fresh separateOptions) sampleLoss = some s ∧
      s.recover .getSnapshot 0 tornVlog separateOptions = some r ∧ r.Fits Lsm.flat ∧
      (r.getBytes Lsm.flat [1] kMaxSeq).mapError Status.code = .error .notFound ∧
      r.getBytes Lsm.flat [2] kMaxSeq = .ok [20] ∧
      (r.scanBytes Lsm.flat [1] [9] kMaxSeq).1 = [] := by
  have hobs : (Machine.run stepHard (fresh separateOptions) sampleLoss).bind (fun s =>
      (s.recover .getSnapshot 0 tornVlog separateOptions).map fun r =>
        ((r.getBytes Lsm.flat [1] kMaxSeq).mapError Status.code,
          (r.getBytes Lsm.flat [2] kMaxSeq).toOption,
          (r.scanBytes Lsm.flat [1] [9] kMaxSeq).1)) = some (.error .notFound, some [20], []) := by
    decide +kernel
  have hfits : (Machine.run stepHard (fresh separateOptions) sampleLoss).bind (fun s =>
      (s.recover .getSnapshot 0 tornVlog separateOptions).map fun r =>
        decide (r.Fits Lsm.flat)) = some true := by
    decide +kernel
  obtain ⟨s, hs, hrec⟩ := Option.bind_eq_some_iff.mp hobs
  obtain ⟨r, hr, hseen⟩ := Option.map_eq_some_iff.mp hrec
  obtain ⟨hget₁, hseen⟩ := Prod.mk.inj hseen
  obtain ⟨hget₂, hscan⟩ := Prod.mk.inj hseen
  rw [hs, Option.bind_some, hr, Option.map_some, Option.some.injEq, decide_eq_true_iff] at hfits
  exact ⟨s, r, hs, hr, hfits, hget₁, eq_ok_of_toOption hget₂, hscan⟩

/-- At a run in which the lost value stands before the other. -/
theorem run_scanLost_sampleLoss :
    ∃ s r, Machine.run stepHard (fresh separateOptions) sampleLoss = some s ∧
      s.recover .getSnapshot 0 tornVlog separateOptions = some r ∧
      (r.PassesOver Lsm.flat [1] [9] kMaxSeq ↔ r.LostLast Lsm.flat [1] [9] kMaxSeq) := by
  obtain ⟨s, r, hs, hr, hfits, -⟩ := sampleLoss_recovers
  have hmeets : Machine.Meets stepHard (fun s ev => s.Fits Lsm.flat ∧ s.Mended ev)
      (fresh separateOptions) sampleLoss := by
    refine ⟨⟨Lsm.fresh_fits _ _, trivial⟩, fun s' hs' => ?_⟩
    obtain rfl := Option.some.inj hs'
    exact ⟨⟨by decide +kernel, trivial⟩, fun _ _ => trivial⟩
  exact ⟨s, r, hs, hr, run_scanLost hmeets hs hr hfits kMaxSeq_bound (by decide) [9]⟩

/-- `Get` reads the second key, and the scan never comes to it. -/
theorem run_scanLost_hidden :
    ∃ s r, Machine.run stepHard (fresh separateOptions) sampleLoss = some s ∧
      s.recover .getSnapshot 0 tornVlog separateOptions = some r ∧
      (r.getBytes Lsm.flat [1] kMaxSeq).mapError Status.code = .error .notFound ∧
      r.getBytes Lsm.flat [2] kMaxSeq = .ok [20] ∧
      (r.scanBytes Lsm.flat [1] [9] kMaxSeq).1 = [] ∧
      ¬ r.PassesOver Lsm.flat [1] [9] kMaxSeq := by
  obtain ⟨s, r, hs, hr, -, hlost, hget, hscan⟩ := sampleLoss_recovers
  refine ⟨s, r, hs, hr, hlost, hget, hscan, fun hp => ?_⟩
  have hmem := (hp.calls [2] [20]).mpr ⟨by decide, by decide, hget⟩
  rw [hscan] at hmem
  exact absurd hmem List.not_mem_nil

end DB

end BedrockKV
