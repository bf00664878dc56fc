/-
# `BedrockKV.SwitchOn` — turning value separation on for an old database

With separation off a stored value is the value, whatever its bytes.  With it
on, a slot of 21 bytes that starts with `0xFF` is a pointer.  `Open` accepts a
directory without value logs under either setting, so every such directory has
two readings; they differ exactly in the slots with that shape
(`openDb_switch_iff`), and generation 1, which the switch creates, is empty, so
none of them can be resolved.
-/
import BedrockKV.DbStep

namespace BedrockKV

/-- The same options with value separation on. -/
def Options.separated (opt : Options) : Options := { opt with enableValueSeparation := true }

/-! ## Scans under two ways to resolve -/

section Scan

variable {resolve : Bytes → Except Status Bytes} {last : Bytes} {S : ReadSeq}

/-- A scan that resolves every slot to itself shows the slots; another way to
resolve shows the same exactly if it agrees on them. -/
theorem scanLoop_eq_iff (hne : ∀ slot v, resolve slot = .ok v → v = slot) (es : List Entry) :
    ∀ (current : Option Bytes) (emitted : Bool),
      scanLoop resolve last S current emitted es = scanLoop .ok last S current emitted es ↔
      ∀ x ∈ (scanLoop .ok last S current emitted es).1, resolve x.2 = .ok x.2 := by
  induction es with
  | nil => simp [scanLoop]
  | cons e es ih =>
    intro current emitted
    simp only [scanLoop]
    by_cases hlast : last ≤ e.user
    · simp [hlast]
    · simp only [if_neg hlast]
      by_cases hshow : (if current = some e.user then emitted else false) = false ∧
          WithTop.some e.seq ≤ S
      · simp only [if_pos hshow]
        cases htype : e.type with
        | deletion => exact ih (some e.user) true
        | value =>
          dsimp only
          cases hres : resolve e.value with
          | error status =>
            -- the scan breaks off before the call for this key
            refine iff_of_false (fun heq => ?_) (fun hall => ?_)
            · have := congrArg (fun r => r.1.length) heq
              simp at this
            · have := hall (e.user, e.value) List.mem_cons_self
              rw [hres] at this
              cases this
          | ok v =>
            obtain rfl := hne e.value v hres
            rw [Prod.mk.injEq, List.cons.injEq, List.forall_mem_cons, ← ih (some e.user) true]
            constructor
            · rintro ⟨⟨-, h₁⟩, h₂⟩
              exact ⟨hres, Prod.ext h₁ h₂⟩
            · rintro ⟨-, heq⟩
              rw [heq]
              exact ⟨⟨rfl, rfl⟩, rfl⟩
      · simp only [if_neg hshow]
        exact ih (some e.user) _

end Scan

namespace DB

/-- A slot that a latest `Get` or `Scan` comes to. -/
def Exposed (s : DB) (slot : Bytes) : Prop :=
  (∃ key, s.core.lookup key kMaxSeq = .found slot) ∨
    ∃ first last key, (key, slot) ∈ (s.core.scanWith .ok first last kMaxSeq).1

theorem openDb_off {opt : Options} {d : Disk} {s : DB} (hoff : opt.enableValueSeparation = false)
    (h : openDb opt d = .ok s) :
    ∃ refs, d.manifestState.Valid ∧ openTables d d.manifestState.files = .ok refs ∧ d.vlogs = [] ∧
      d.manifestState.vlogs = [] ∧ s = opened opt d refs := by
  obtain ⟨refs, hvalid, hrefs, hv, hs⟩ := openDb_eq_ok.mp h
  exact ⟨refs, hvalid, hrefs, (hv hoff).1, (hv hoff).2, hs⟩

section Switch

variable {opt : Options} {d : Disk} {refs : List TableRef}

theorem opened_lookup (opt opt' : Options) (key : Bytes) (S : ReadSeq) :
    (opened opt d refs).core.lookup key S = (opened opt' d refs).core.lookup key S := rfl

theorem opened_scanWith (opt opt' : Options) (resolve : Bytes → Except Status Bytes)
    (first last : Bytes) (S : ReadSeq) :
    (opened opt d refs).core.scanWith resolve first last S =
      (opened opt' d refs).core.scanWith resolve first last S := rfl

theorem opened_off_resolve (hoff : opt.enableValueSeparation = false) (slot : Bytes) :
    (opened opt d refs).resolve slot = .ok slot := by
  have hopt : (opened opt d refs).opt.enableValueSeparation = false := hoff
  simp [resolve, hopt]

theorem opened_separated_vlogs (opt : Options) (refs : List TableRef) (hv : d.vlogs = [])
    (hm : d.manifestState.vlogs = []) :
    (opened opt.separated d refs).vlogs = [1] ∧
      (opened opt.separated d refs).disk.vlogs = [(1, .empty)] := by
  have hlive : liveVlogs opt.separated d.manifestState = [1] := by
    simp [liveVlogs, Options.separated, hm]
  refine ⟨hlive, ?_⟩
  simp only [opened, hlive, hv]
  rfl

theorem readValue_nil (number offset size : Nat) :
    ∃ status, readValue number [] offset size = .error status := by
  rw [readValue, if_pos (.inr (by simp [kEntryHeaderSize]))]
  exact ⟨_, rfl⟩

theorem opened_separated_resolve (opt : Options) (refs : List TableRef) (hv : d.vlogs = [])
    (hm : d.manifestState.vlogs = []) (slot : Bytes) :
    (opened opt.separated d refs).resolve slot = .ok slot ∧ pointerShaped slot = false ∨
      (∃ status, (opened opt.separated d refs).resolve slot = .error status) ∧
        pointerShaped slot = true := by
  obtain ⟨hvlogs, hdisk⟩ := opened_separated_vlogs opt refs hv hm
  have hon : (opened opt.separated d refs).opt.enableValueSeparation = true := rfl
  cases hshape : pointerShaped slot with
  | false => simp [resolve, hon, decodeValuePointer, hshape]
  | true =>
    refine .inr ⟨?_, rfl⟩
    simp only [resolve, hon, if_true, decodeValuePointer, hshape, hvlogs, List.mem_singleton]
    split
    · next hone =>
      have hfile : ((opened opt.separated d refs).vlogFile
          (getFixed64 (slot.drop 1))).bytes = [] := by
        rw [vlogFile, hdisk, hone]
        rfl
      rw [hfile]
      exact readValue_nil _ _ _
    · exact ⟨_, rfl⟩

end Switch

/-- **When the switch changes nothing**: `Open` with separation on accepts what
`Open` with separation off accepts, and then all latest `Get`s and `Scan`s
return the same if and only if no slot they come to is shaped like a pointer. -/
theorem openDb_switch_iff {opt : Options} {d : Disk} {s : DB}
    (hoff : opt.enableValueSeparation = false) (h : openDb opt d = .ok s) :
    ∃ s', openDb opt.separated d = .ok s' ∧ s'.vlogs = [1] ∧
      (((∀ key, s'.get key kMaxSeq = s.get key kMaxSeq) ∧
        ∀ first last, s'.scan first last kMaxSeq = s.scan first last kMaxSeq) ↔
      ∀ slot, s.Exposed slot → pointerShaped slot = false) := by
  obtain ⟨refs, hvalid, hrefs, hv, hm, rfl⟩ := openDb_off hoff h
  have hopen : openDb opt.separated d = .ok (opened opt.separated d refs) := by
    rw [openDb, if_neg (not_not.mpr hvalid), hrefs]
    simp [Options.separated]
  refine ⟨_, hopen, (opened_separated_vlogs opt refs hv hm).1, ?_⟩
  have hself : (opened opt d refs).resolve = .ok := funext (opened_off_resolve hoff)
  have hres := opened_separated_resolve opt refs hv hm
  have hshape : ∀ slot, (opened opt.separated d refs).resolve slot = .ok slot ↔
      pointerShaped slot = false := by
    intro slot
    rcases hres slot with ⟨hok, hno⟩ | ⟨⟨status, herr⟩, hyes⟩
    · exact iff_of_true hok hno
    · rw [herr, hyes]
      exact iff_of_false (fun hc => by cases hc) (fun hc => by cases hc)
  have honly : ∀ slot v, (opened opt.separated d refs).resolve slot = .ok v → v = slot := by
    intro slot v hv'
    rcases hres slot with ⟨hok, -⟩ | ⟨⟨status, herr⟩, -⟩
    · rw [hok] at hv'
      exact (Except.ok.inj hv').symm
    · rw [herr] at hv'
      cases hv'
  have hget : ∀ key, (opened opt.separated d refs).get key kMaxSeq =
      (opened opt d refs).get key kMaxSeq ↔
      ∀ slot, (opened opt d refs).core.lookup key kMaxSeq = .found slot →
        pointerShaped slot = false := by
    intro key
    simp only [get, Lsm.getWith, hself, opened_lookup opt.separated opt]
    cases hl : (opened opt d refs).core.lookup key kMaxSeq with
    | found slot => simp [hshape]
    | deleted => simp
    | missing => simp
  have hscan : ∀ first last, (opened opt.separated d refs).scan first last kMaxSeq =
      (opened opt d refs).scan first last kMaxSeq ↔
      ∀ x ∈ ((opened opt d refs).core.scanWith .ok first last kMaxSeq).1,
        pointerShaped x.2 = false := by
    intro first last
    rw [scan, scan, hself, opened_scanWith opt.separated opt, Lsm.scanWith, Lsm.scanWith,
      scanLoop_eq_iff honly]
    simp only [hshape]
  simp only [hget, hscan, Exposed]
  constructor
  · rintro ⟨hg, hs⟩ slot (⟨key, hk⟩ | ⟨first, last, key, hk⟩)
    · exact hg key slot hk
    · exact hs first last _ hk
  · intro hall
    exact ⟨fun key slot hk => hall slot (Or.inl ⟨key, hk⟩),
      fun first last x hx => hall x.2 (Or.inr ⟨first, last, x.1, hx⟩)⟩

/-- A table-less database with separation off, after one `Put`. -/
def onePut (value : Bytes) : Option DB := (fresh Lsm.smallOptions).step (.put [107] value)

theorem openDb_switch_plain :
    ∃ s, openDb Lsm.smallOptions (((onePut [1, 2]).getD (fresh Lsm.smallOptions)).disk) = .ok s ∧
      s.core.lookup [107] kMaxSeq = .found [1, 2] ∧
      ∃ s', openDb Lsm.smallOptions.separated
          (((onePut [1, 2]).getD (fresh Lsm.smallOptions)).disk) = .ok s' ∧ s'.vlogs = [1] ∧
        (((∀ key, s'.get key kMaxSeq = s.get key kMaxSeq) ∧
          ∀ first last, s'.scan first last kMaxSeq = s.scan first last kMaxSeq) ↔
        ∀ slot, s.Exposed slot → pointerShaped slot = false) := by
  have hsome : ((openDb Lsm.smallOptions
      (((onePut [1, 2]).getD (fresh Lsm.smallOptions)).disk)).toOption).map
        (fun s => s.core.lookup [107] kMaxSeq) = some (.found [1, 2]) := by decide +kernel
  obtain ⟨s, hs, hl⟩ := Option.map_eq_some_iff.mp hsome
  have hopen := eq_ok_of_toOption hs
  exact ⟨s, hopen, hl, openDb_switch_iff rfl hopen⟩

/-- 21 bytes that start with `0xFF`. -/
def shapedValue : Bytes := 255 :: List.replicate 20 7

/-- The value is returned before the switch and lost after it. -/
theorem openDb_switch_loses :
    ((openDb Lsm.smallOptions
      ((onePut shapedValue).getD (fresh Lsm.smallOptions)).disk).toOption).map
        (fun s => (s.get [107] kMaxSeq).toOption) = some (some shapedValue) ∧
    ((openDb Lsm.smallOptions.separated
        ((onePut shapedValue).getD (fresh Lsm.smallOptions)).disk).toOption).map
        (fun s => (s.get [107] kMaxSeq).toOption) = some none := by
  decide +kernel

end DB

end BedrockKV
