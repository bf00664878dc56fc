/-
# `BedrockKV.InternalKey` — versions, their order, and the point lookup

A stored version is a user key with a tag `(seq << 8) | type` and a value.
Internal keys order by user key ascending, then by tag DESCENDING, so that
the newest version of a key sorts first and a point lookup is one seek.

`lookupEntries` is what `MemTable::Get` and `Table::Get` both do over their
entries in order: seek to `(key, (max_seq << 8) | 0xff)`, take the entry
there, and compare its user key.  `Answers` says what the result means, in
the words of `MultiVersion`, and `lookupEntries_answers` connects the two.

Sequence numbers are unbounded here, and `kMaxSeq` (`~0` in the source, the
bound of a latest read) is the top of the bounds.
-/
import BedrockKV.Encoding
import BedrockKV.Lib.MultiVersion

namespace BedrockKV

open MultiVersion

/-- `kTypeDeletion` and `kTypeValue`. -/
inductive ValueType where
  | deletion
  | value
  deriving DecidableEq, Repr

def ValueType.code : ValueType → Nat
  | .deletion => 0x0
  | .value => 0x1

/-- A `max_seq`: only versions at most this recent are considered. -/
abbrev ReadSeq := WithTop Nat

def kMaxSeq : ReadSeq := ⊤

/-- One version of a user key. -/
structure Entry where
  user : Bytes
  seq : Nat
  type : ValueType
  value : Bytes
  deriving DecidableEq, Repr

/-- The tag `(seq << 8) | type`. -/
def Entry.tag (e : Entry) : Nat := e.seq * 256 + e.type.code

structure InternalKey where
  user : Bytes
  tag : WithTop Nat

def Entry.internalKey (e : Entry) : InternalKey := ⟨e.user, WithTop.some e.tag⟩

/-- The tag a read bounded by `max_seq` seeks to. -/
def targetTag : ReadSeq → WithTop Nat
  | none => ⊤
  | some s => WithTop.some (s * 256 + 0xff)

/-! ## The comparator -/

namespace InternalKey

/-- `InternalKeyComparator`: user key ascending, tag descending. -/
def less (a b : InternalKey) : Prop :=
  if a.user ≠ b.user then a.user < b.user else b.tag < a.tag

instance (a b : InternalKey) : Decidable (less a b) :=
  inferInstanceAs (Decidable (if a.user ≠ b.user then a.user < b.user else b.tag < a.tag))

/-- The same order as a lexicographic product, where the order lemmas live. -/
def asLex (a : InternalKey) : Bytes ×ₗ (WithTop Nat)ᵒᵈ := toLex (a.user, OrderDual.toDual a.tag)

variable {a b c : InternalKey}

theorem less_iff_asLex : a.less b ↔ a.asLex < b.asLex := by
  rw [Prod.Lex.lt_iff]
  simp only [less, asLex, ofLex_toLex, OrderDual.toDual_lt_toDual]
  by_cases h : a.user = b.user
  · simp [h]
  · simp [h]

theorem less_trans (h : a.less b) (h' : b.less c) : a.less c :=
  less_iff_asLex.mpr (lt_trans (less_iff_asLex.mp h) (less_iff_asLex.mp h'))

theorem less_irrefl (a : InternalKey) : ¬ a.less a :=
  fun h => lt_irrefl _ (less_iff_asLex.mp h)

theorem less_asymm (h : a.less b) : ¬ b.less a :=
  fun h' => less_irrefl a (less_trans h h')

theorem eq_of_not_less (h : ¬ a.less b) (h' : ¬ b.less a) : a = b := by
  rw [less_iff_asLex, not_lt] at h h'
  have := le_antisymm h' h
  cases a; cases b
  simpa [asLex] using this

theorem less_of_less_of_not_less (h : a.less b) (h' : ¬ c.less b) : a.less c := by
  rw [less_iff_asLex] at h h' ⊢
  exact lt_of_lt_of_le h (not_lt.mp h')

theorem less_user_le (h : a.less b) : a.user ≤ b.user := by
  unfold less at h
  split at h
  · exact le_of_lt h
  · next he => exact le_of_eq (not_not.mp he)

theorem less_of_user_lt (h : a.user < b.user) : a.less b := by
  unfold less
  rw [if_pos (ne_of_lt h)]
  exact h

theorem less_iff_tag (h : a.user = b.user) : a.less b ↔ b.tag < a.tag := by
  unfold less
  rw [if_neg (not_not.mpr h)]

end InternalKey

theorem ValueType.code_le (t : ValueType) : t.code ≤ 1 := by cases t <;> decide

theorem Entry.seq_le_of_tag_le {a b : Entry} (h : a.tag ≤ b.tag) : a.seq ≤ b.seq := by
  have ha := a.type.code_le
  have hb := b.type.code_le
  simp only [Entry.tag] at h
  omega

theorem Entry.tag_lt_of_seq_lt {a b : Entry} (h : a.seq < b.seq) : a.tag < b.tag := by
  have ha := a.type.code_le
  simp only [Entry.tag]
  omega

variable {S : ReadSeq} {e : Entry} {es : List Entry} {key : Bytes}

/-- The target tag bounds exactly the visible versions. -/
theorem Entry.tag_le_targetTag : WithTop.some e.tag ≤ targetTag S ↔ WithTop.some e.seq ≤ S := by
  have he := e.type.code_le
  induction S using WithTop.recTopCoe with
  | top => exact ⟨fun _ => le_top, fun _ => le_top⟩
  | coe s =>
    change WithTop.some e.tag ≤ WithTop.some (s * 256 + 0xff) ↔ _
    rw [WithTop.coe_le_coe, WithTop.coe_le_coe, Entry.tag]
    omega

/-- Entries in the strict internal-key order every source keeps them in. -/
abbrev Increasing (es : List Entry) : Prop :=
  es.Pairwise fun a b => a.internalKey.less b.internalKey

/-! ## Versions as the store reads them -/

/-- A tombstone is a version without a value. -/
def entryView : View Entry Bytes Bytes where
  key := Entry.user
  seq := Entry.seq
  val e := match e.type with
    | .value => some e.value
    | .deletion => none

/-- `MemTable::Lookup`; `kFound` carries the value slot. -/
inductive Lookup where
  | found (value : Bytes)
  | deleted
  | missing
  deriving DecidableEq, Repr

variable {a : Lookup}

/-- Seek to the first entry at or after the target. -/
def seek (es : List Entry) (target : InternalKey) : List Entry :=
  es.dropWhile fun e => decide (e.internalKey.less target)

/-- The entry the seek landed on decides, if it is a version of `key` at all. -/
def decodeFound (key : Bytes) : Option Entry → Lookup
  | none => .missing
  | some e =>
    if e.user = key then
      match e.type with
      | .value => .found e.value
      | .deletion => .deleted
    else .missing

/-- `MemTable::Get` and `Table::Get`, over the entries of the source in order. -/
def lookupEntries (es : List Entry) (key : Bytes) (maxSeq : ReadSeq) : Lookup :=
  decodeFound key (seek es ⟨key, targetTag maxSeq⟩).head?

/-- What the answer of a source says about its entries. -/
def Answers (es : List Entry) (key : Bytes) (S : ReadSeq) : Lookup → Prop
  | .found v => ∃ e, entryView.IsNewest es key S e ∧ e.type = .value ∧ e.value = v
  | .deleted => ∃ e, entryView.IsNewest es key S e ∧ e.type = .deletion
  | .missing => entryView.Silent es key S

/-- The outcome of a read, as `DB::Get` reports it: a value or nothing. -/
def Lookup.toOption : Lookup → Option Bytes
  | .found v => some v
  | .deleted => none
  | .missing => none

theorem Answers.reads (h : Answers es key S a) : entryView.Reads es key S a.toOption := by
  cases a with
  | found v =>
    obtain ⟨e, he, ht, hv⟩ := h
    exact .inl ⟨e, he, by simp [entryView, ht, hv, Lookup.toOption]⟩
  | deleted =>
    obtain ⟨e, he, ht⟩ := h
    exact .inl ⟨e, he, by simp [entryView, ht, Lookup.toOption]⟩
  | missing => exact .inr ⟨h, rfl⟩

theorem Answers.congr {es' : List Entry} (h : ∀ x, entryView.Visible key S x → (x ∈ es ↔ x ∈ es'))
    (ha : Answers es key S a) : Answers es' key S a := by
  have hnew : ∀ {e}, entryView.IsNewest es key S e → entryView.IsNewest es' key S e := by
    rintro e ⟨he, hv, hmax⟩
    exact ⟨(h e hv).mp he, hv, fun x hx hxv => hmax x ((h x hxv).mpr hx) hxv⟩
  cases a with
  | found v | deleted =>
    obtain ⟨e, he, hrest⟩ := ha
    exact ⟨e, hnew he, hrest⟩
  | missing => exact fun x hx hv => ha x ((h x hv).mpr hx) hv

theorem Answers.congr_bound {S' : ReadSeq}
    (h : ∀ x ∈ es, entryView.Visible key S x ↔ entryView.Visible key S' x)
    (ha : Answers es key S a) :
    Answers es key S' a := by
  have hnew : ∀ {e}, entryView.IsNewest es key S e → entryView.IsNewest es key S' e := by
    rintro e ⟨he, hv, hmax⟩
    exact ⟨he, (h e he).mp hv, fun x hx hxv => hmax x hx ((h x hx).mpr hxv)⟩
  cases a with
  | found v | deleted =>
    obtain ⟨e, he, hrest⟩ := ha
    exact ⟨e, hnew he, hrest⟩
  | missing => exact fun x hx hv => ha x hx ((h x hx).mpr hv)

theorem Answers.unique {b : Lookup} (hd : entryView.Distinct es) (ha : Answers es key S a)
    (hb : Answers es key S b) : a = b := by
  cases a with
  | found v =>
    obtain ⟨e, he, ht, rfl⟩ := ha
    cases b with
    | found w =>
      obtain ⟨x, hx, -, rfl⟩ := hb
      rw [he.unique hd hx]
    | deleted =>
      obtain ⟨x, hx, htx⟩ := hb
      rw [he.unique hd hx, htx] at ht
      cases ht
    | missing => exact absurd hb he.not_silent
  | deleted =>
    obtain ⟨e, he, ht⟩ := ha
    cases b with
    | found w =>
      obtain ⟨x, hx, htx, -⟩ := hb
      rw [he.unique hd hx, htx] at ht
      cases ht
    | deleted => rfl
    | missing => exact absurd hb he.not_silent
  | missing =>
    cases b with
    | found w | deleted =>
      obtain ⟨x, hx, -⟩ := hb
      exact absurd ha hx.not_silent
    | missing => rfl

theorem visible_iff :
    entryView.Visible key S e ↔ e.user = key ∧ WithTop.some e.seq ≤ S := Iff.rfl

instance (key : Bytes) (S : ReadSeq) : DecidablePred (entryView.Visible key S) := fun e =>
  inferInstanceAs (Decidable (e.user = key ∧ WithTop.some e.seq ≤ S))

theorem not_less_target_iff (h : e.user = key) :
    ¬ e.internalKey.less ⟨key, targetTag S⟩ ↔ entryView.Visible key S e := by
  rw [InternalKey.less_iff_tag (by exact h), visible_iff, ← Entry.tag_le_targetTag, not_lt]
  exact ⟨fun hle => ⟨h, hle⟩, fun hv => hv.2⟩

theorem Answers.skip (he : ¬ entryView.Visible key S e) (h : Answers es key S a) :
    Answers (e :: es) key S a := by
  refine h.congr ?_
  intro x hv
  rw [List.mem_cons]
  exact ⟨.inr, fun hx => hx.resolve_left fun hxe => he (hxe ▸ hv)⟩

/-- **The seek answers the read**: on entries in internal-key order the entry
it lands on is the newest visible version of the key, if there is one. -/
theorem lookupEntries_answers (hs : Increasing es) (key : Bytes) (S : ReadSeq) :
    Answers es key S (lookupEntries es key S) := by
  induction es with
  | nil => exact nofun
  | cons e es ih =>
    obtain ⟨hhead, htail⟩ := List.pairwise_cons.mp hs
    by_cases hless : e.internalKey.less ⟨key, targetTag S⟩
    · -- the seek passes `e`, which the read cannot see
      have hskip : lookupEntries (e :: es) key S = lookupEntries es key S := by
        simp [lookupEntries, seek, hless]
      rw [hskip]
      refine Answers.skip ?_ (ih htail)
      intro hv
      exact (not_less_target_iff hv.1).mpr hv hless
    · have hland : lookupEntries (e :: es) key S = decodeFound key (some e) := by
        simp [lookupEntries, seek, hless]
      rw [hland]
      by_cases huser : e.user = key
      · -- later versions of the key carry smaller tags
        have hnew : entryView.IsNewest (e :: es) key S e := by
          refine ⟨List.mem_cons_self, (not_less_target_iff huser).mp hless, ?_⟩
          intro x hx hv
          rcases List.mem_cons.mp hx with rfl | hx
          · exact le_rfl
          · have hlt := hhead x hx
            rw [InternalKey.less_iff_tag (by exact huser.trans hv.1.symm)] at hlt
            exact Entry.seq_le_of_tag_le (le_of_lt (WithTop.coe_lt_coe.mp hlt))
        simp only [decodeFound, if_pos huser]
        cases ht : e.type with
        | value => exact ⟨e, hnew, ht, rfl⟩
        | deletion => exact ⟨e, hnew, ht⟩
      · -- the seek landed beyond every version of the key
        simp only [decodeFound, if_neg huser]
        have hgt : key < e.user := by
          rcases lt_trichotomy e.user key with h | h | h
          · exact absurd (InternalKey.less_of_user_lt (by exact h)) hless
          · exact absurd h huser
          · exact h
        intro x hx hv
        rcases List.mem_cons.mp hx with rfl | hx
        · exact huser hv.1
        · have hle : e.user ≤ x.user := InternalKey.less_user_le (hhead x hx)
          exact absurd hv.1 (ne_of_gt (lt_of_lt_of_le hgt hle))

end BedrockKV
