/-
# `BedrockKV.Lib.MultiVersion` — reading the newest visible version

A multi-version store keeps every item it is given, each with a key and a
stamp, and a read at the bound `S` answers with the newest item of its key
whose stamp is at most `S`.  Nothing here knows how the items are laid out:
the list is only a finite set of items, and a `View` says how an item is read
as a version (its value is `none` when the item is a tombstone).

    IsNewest l k S e     e is what a read of k at S sees in l
    Silent l k S         nothing in l is visible to that read
    Reads l k S r        the outcome: the newest item's value, `none` if silent

The three facts a layered store rests on:

    a source newer than the rest decides the read            (`IsNewest.append_newer`)
    a fresh item decides the reads that see it, and no other  (`reads_insert`)
    replacing a group by one that covers it changes no read   (`reads_replace`)
-/
import Mathlib

namespace MultiVersion

open List

/-- How a stored item is read as a version. -/
structure View (α κ ν : Type*) where
  key : α → κ
  seq : α → Nat
  val : α → Option ν

namespace View

variable {α κ ν : Type*} (w : View α κ ν)

/-- The item is a version of `k` stamped at most `S`. -/
def Visible (k : κ) (S : WithTop Nat) (e : α) : Prop :=
  w.key e = k ∧ WithTop.some (w.seq e) ≤ S

def IsNewest (l : List α) (k : κ) (S : WithTop Nat) (e : α) : Prop :=
  e ∈ l ∧ w.Visible k S e ∧ ∀ x ∈ l, w.Visible k S x → w.seq x ≤ w.seq e

def Silent (l : List α) (k : κ) (S : WithTop Nat) : Prop :=
  ∀ x ∈ l, ¬ w.Visible k S x

/-- The outcome of a read.  A tombstone and a silent store read alike. -/
def Reads (l : List α) (k : κ) (S : WithTop Nat) (r : Option ν) : Prop :=
  (∃ e, w.IsNewest l k S e ∧ w.val e = r) ∨ (w.Silent l k S ∧ r = none)

/-- A key and a stamp determine the item. -/
def Distinct (l : List α) : Prop :=
  ∀ x ∈ l, ∀ y ∈ l, w.key x = w.key y → w.seq x = w.seq y → x = y

/-- For every key, `a` holds only versions newer than those of `b`. -/
def Newer (a b : List α) : Prop :=
  ∀ x ∈ a, ∀ y ∈ b, w.key x = w.key y → w.seq y < w.seq x

variable {w} {l l' a b : List α} {k : κ} {S T : WithTop Nat} {e x : α} {r r' : Option ν}

/-! ## One list of versions -/

theorem isNewest_or_silent (l : List α) (k : κ) (S : WithTop Nat) :
    (∃ e, w.IsNewest l k S e) ∨ w.Silent l k S := by
  induction l with
  | nil => exact .inr (nofun)
  | cons y l ih =>
    by_cases hy : w.Visible k S y
    · rcases ih with ⟨e, he, hv, hmax⟩ | hs
      · -- the head competes with the newest of the tail
        rcases Nat.le_total (w.seq y) (w.seq e) with hle | hle
        · refine .inl ⟨e, mem_cons_of_mem _ he, hv, ?_⟩
          intro x hx hxv
          rcases mem_cons.mp hx with rfl | hx
          · exact hle
          · exact hmax x hx hxv
        · refine .inl ⟨y, mem_cons_self, hy, ?_⟩
          intro x hx hxv
          rcases mem_cons.mp hx with rfl | hx
          · exact le_rfl
          · exact le_trans (hmax x hx hxv) hle
      · refine .inl ⟨y, mem_cons_self, hy, ?_⟩
        intro x hx hxv
        rcases mem_cons.mp hx with rfl | hx
        · exact le_rfl
        · exact absurd hxv (hs x hx)
    · rcases ih with ⟨e, he, hv, hmax⟩ | hs
      · refine .inl ⟨e, mem_cons_of_mem _ he, hv, ?_⟩
        intro x hx hxv
        rcases mem_cons.mp hx with rfl | hx
        · exact absurd hxv hy
        · exact hmax x hx hxv
      · refine .inr ?_
        intro x hx
        rcases mem_cons.mp hx with rfl | hx
        · exact hy
        · exact hs x hx

theorem IsNewest.not_silent (h : w.IsNewest l k S e) : ¬ w.Silent l k S :=
  fun hs => hs e h.1 h.2.1

theorem IsNewest.unique (hd : w.Distinct l) (h : w.IsNewest l k S e)
    (h' : w.IsNewest l k S x) : e = x := by
  refine hd e h.1 x h'.1 (h.2.1.1.trans h'.2.1.1.symm) ?_
  exact le_antisymm (h'.2.2 e h.1 h.2.1) (h.2.2 x h'.1 h'.2.1)

theorem IsNewest.reads_iff (hd : w.Distinct l) (h : w.IsNewest l k S e) :
    w.Reads l k S r ↔ w.val e = r := by
  constructor
  · rintro (⟨x, hx, hr⟩ | ⟨hs, -⟩)
    · exact (h.unique hd hx) ▸ hr
    · exact absurd hs h.not_silent
  · exact fun hr => .inl ⟨e, h, hr⟩

theorem Silent.reads_iff (h : w.Silent l k S) : w.Reads l k S r ↔ r = none := by
  constructor
  · rintro (⟨x, hx, -⟩ | ⟨-, hr⟩)
    · exact absurd h hx.not_silent
    · exact hr
  · exact fun hr => .inr ⟨h, hr⟩

theorem Reads.unique (hd : w.Distinct l) (h : w.Reads l k S r) (h' : w.Reads l k S r') :
    r = r' := by
  rcases w.isNewest_or_silent l k S with ⟨e, he⟩ | hs
  · exact ((he.reads_iff hd).mp h).symm.trans ((he.reads_iff hd).mp h')
  · exact (hs.reads_iff.mp h).trans (hs.reads_iff.mp h').symm

theorem reads_getLast [DecidablePred (w.Visible k S)]
    (h : l.Pairwise fun a b => w.seq a < w.seq b) :
    w.Reads l k S ((l.filter fun e => decide (w.Visible k S e)).getLast?.bind w.val) := by
  cases hlast : (l.filter fun e => decide (w.Visible k S e)).getLast? with
  | none =>
    refine .inr ⟨?_, rfl⟩
    intro x hx hv
    have hmem : x ∈ l.filter fun e => decide (w.Visible k S e) :=
      mem_filter.mpr ⟨hx, decide_eq_true hv⟩
    rw [getLast?_eq_none_iff.mp hlast] at hmem
    cases hmem
  | some e =>
    obtain ⟨he, hv⟩ := mem_filter.mp (mem_of_getLast? hlast)
    refine .inl ⟨e, ⟨he, of_decide_eq_true hv, ?_⟩, rfl⟩
    intro x hx hxv
    have hmem : x ∈ l.filter fun e => decide (w.Visible k S e) :=
      mem_filter.mpr ⟨hx, decide_eq_true hxv⟩
    obtain ⟨init, hinit⟩ := getLast?_eq_some_iff.mp hlast
    have hsorted := h.filter fun e => decide (w.Visible k S e)
    rw [hinit] at hmem hsorted
    rcases mem_append.mp hmem with hmem | hmem
    · exact le_of_lt ((pairwise_append.mp hsorted).2.2 x hmem e mem_cons_self)
    · rw [mem_singleton.mp hmem]

/-! ## Reads depend on the members only -/

theorem reads_visible_congr (h : ∀ x, w.Visible k S x → (x ∈ l ↔ x ∈ l')) :
    w.Reads l k S r ↔ w.Reads l' k S r := by
  have hnew : ∀ e, w.IsNewest l k S e ↔ w.IsNewest l' k S e := by
    intro e
    constructor
    · rintro ⟨he, hv, hmax⟩
      exact ⟨(h e hv).mp he, hv, fun x hx hxv => hmax x ((h x hxv).mpr hx) hxv⟩
    · rintro ⟨he, hv, hmax⟩
      exact ⟨(h e hv).mpr he, hv, fun x hx hxv => hmax x ((h x hxv).mp hx) hxv⟩
  have hsil : w.Silent l k S ↔ w.Silent l' k S :=
    ⟨fun hs x hx hv => hs x ((h x hv).mpr hx) hv, fun hs x hx hv => hs x ((h x hv).mp hx) hv⟩
  simp only [Reads, hnew, hsil]

theorem reads_congr (h : ∀ x, x ∈ l ↔ x ∈ l') : w.Reads l k S r ↔ w.Reads l' k S r :=
  reads_visible_congr fun x _ => h x

theorem Distinct.mono (hd : w.Distinct l) (h : ∀ x ∈ l', x ∈ l) : w.Distinct l' :=
  fun x hx y hy hk hs => hd x (h x hx) y (h y hy) hk hs

theorem reads_bound_congr (h : ∀ x ∈ l, w.Visible k S x ↔ w.Visible k T x) :
    w.Reads l k S r ↔ w.Reads l k T r := by
  have hnew : ∀ e, w.IsNewest l k S e ↔ w.IsNewest l k T e := by
    intro e
    constructor
    · rintro ⟨he, hv, hmax⟩
      exact ⟨he, (h e he).mp hv, fun x hx hxv => hmax x hx ((h x hx).mpr hxv)⟩
    · rintro ⟨he, hv, hmax⟩
      exact ⟨he, (h e he).mpr hv, fun x hx hxv => hmax x hx ((h x hx).mp hxv)⟩
  have hsil : w.Silent l k S ↔ w.Silent l k T :=
    ⟨fun hs x hx hv => hs x hx ((h x hx).mpr hv), fun hs x hx hv => hs x hx ((h x hx).mp hv)⟩
  simp only [Reads, hnew, hsil]

theorem reads_below (h : ∀ x, x ∈ l' ↔ x ∈ l ∧ (WithTop.some (w.seq x) : WithTop Nat) ≤ S) :
    w.Reads l' k ⊤ r ↔ w.Reads l k S r := by
  have hbelow : ∀ x ∈ l', w.Visible k ⊤ x ↔ w.Visible k S x := fun x hx =>
    and_congr_right fun _ => iff_of_true le_top ((h x).mp hx).2
  rw [reads_bound_congr hbelow]
  refine reads_visible_congr fun x hx => ?_
  rw [h x]
  exact and_iff_left hx.2

/-! ## Sources in recency order -/

theorem silent_append : w.Silent (a ++ b) k S ↔ w.Silent a k S ∧ w.Silent b k S := by
  simp only [Silent, mem_append, or_imp, forall_and]

theorem IsNewest.append_newer (hn : w.Newer a b) (h : w.IsNewest a k S e) :
    w.IsNewest (a ++ b) k S e := by
  refine ⟨mem_append_left _ h.1, h.2.1, ?_⟩
  intro x hx hv
  rcases mem_append.mp hx with hx | hx
  · exact h.2.2 x hx hv
  · exact le_of_lt (hn e h.1 x hx (h.2.1.1.trans hv.1.symm))

theorem IsNewest.append_silent (hs : w.Silent a k S) (h : w.IsNewest b k S e) :
    w.IsNewest (a ++ b) k S e := by
  refine ⟨mem_append_right _ h.1, h.2.1, ?_⟩
  intro x hx hv
  rcases mem_append.mp hx with hx | hx
  · exact absurd hv (hs x hx)
  · exact h.2.2 x hx hv

/-! ## A fresh version -/

theorem isNewest_insert (hmem : ∀ x, x ∈ l' ↔ x = e ∨ x ∈ l) (hfresh : ∀ x ∈ l, w.seq x < w.seq e)
    (hv : w.Visible k S e) : w.IsNewest l' k S e := by
  refine ⟨(hmem e).mpr (.inl rfl), hv, ?_⟩
  intro x hx _
  rcases (hmem x).mp hx with rfl | hx
  · exact le_rfl
  · exact le_of_lt (hfresh x hx)

theorem reads_insert_hidden (hmem : ∀ x, x ∈ l' ↔ x = e ∨ x ∈ l)
    (hv : ¬ w.Visible k S e) : w.Reads l' k S r ↔ w.Reads l k S r := by
  refine reads_visible_congr ?_
  intro x hxv
  rw [hmem]
  exact ⟨fun hx => hx.resolve_left fun hxe => hv (hxe ▸ hxv), .inr⟩

theorem Distinct.insert (hd : w.Distinct l) (hmem : ∀ x, x ∈ l' ↔ x = e ∨ x ∈ l)
    (hfresh : ∀ x ∈ l, w.seq x < w.seq e) : w.Distinct l' := by
  intro x hx y hy hk hs
  rcases (hmem x).mp hx with rfl | hx' <;> rcases (hmem y).mp hy with rfl | hy'
  · rfl
  · exact absurd hs (Nat.ne_of_gt (hfresh y hy'))
  · exact absurd hs (Nat.ne_of_lt (hfresh x hx'))
  · exact hd x hx' y hy' hk hs

theorem reads_insert {h h' : List α} (hl : ∀ x, x ∈ l' ↔ x = e ∨ x ∈ l)
    (hh : ∀ x, x ∈ h' ↔ x = e ∨ x ∈ h) (hsub : ∀ x ∈ l, x ∈ h) (hd : w.Distinct h)
    (hfresh : ∀ x ∈ h, w.seq x < w.seq e) (hread : w.Reads l k S r ↔ w.Reads h k S r) :
    w.Reads l' k S r ↔ w.Reads h' k S r := by
  by_cases hv : w.Visible k S e
  · have hfl : ∀ x ∈ l, w.seq x < w.seq e := fun x hx => hfresh x (hsub x hx)
    rw [(isNewest_insert hl hfl hv).reads_iff ((hd.mono hsub).insert hl hfl),
      (isNewest_insert hh hfresh hv).reads_iff (hd.insert hh hfresh)]
  · rw [reads_insert_hidden hl hv, reads_insert_hidden hh hv, hread]

/-! ## Replacing a group of versions -/

/-- `O` stands in for `I` before a read of `k` at `S`, beside the rest `R`: it
keeps the newest version, or that version is a tombstone with nothing under it. -/
def Covers (w : View α κ ν) (R I O : List α) (k : κ) (S : WithTop Nat) : Prop :=
  ∀ e, w.IsNewest I k S e →
    w.IsNewest O k S e ∨
      (w.val e = none ∧ w.Silent O k S ∧ ∀ x ∈ R, w.Visible k S x → w.seq e < w.seq x)

section Replace

variable {R I O : List α}

theorem isNewest_replace (hsub : ∀ x ∈ O, x ∈ I) (hd : w.Distinct (R ++ I))
    (hI : w.IsNewest I k S e) (hO : w.IsNewest O k S e) (x : α) :
    w.IsNewest (R ++ I) k S x ↔ w.IsNewest (R ++ O) k S x := by
  simp only [IsNewest, mem_append]
  constructor
  · rintro ⟨hx, hv, hmax⟩
    refine ⟨?_, hv, fun y hy => hmax y (hy.imp_right (hsub y))⟩
    rcases hx with hx | hx
    · exact .inl hx
    · -- an item of `I` that is newest overall is the newest of `I`, which `O` kept
      have hseq : w.seq x = w.seq e := le_antisymm (hI.2.2 x hx hv) (hmax e (.inr hI.1) hI.2.1)
      have hxe : x = e := hd x (by simp [hx]) e (by simp [hI.1]) (hv.1.trans hI.2.1.1.symm) hseq
      exact .inr (hxe ▸ hO.1)
  · rintro ⟨hx, hv, hmax⟩
    refine ⟨hx.imp_right (hsub x), hv, ?_⟩
    rintro y (hy | hy) hyv
    · exact hmax y (.inl hy) hyv
    · exact le_trans (hI.2.2 y hy hyv) (hmax e (.inr hO.1) hO.2.1)

/-- **Replacement changes no read**, when `O ⊆ I` covers `I` beside the rest. -/
theorem reads_replace (hsub : ∀ x ∈ O, x ∈ I) (hd : w.Distinct (R ++ I))
    (hcov : w.Covers R I O k S) :
    w.Reads (R ++ I) k S r ↔ w.Reads (R ++ O) k S r := by
  have hd' : w.Distinct (R ++ O) := by
    refine hd.mono ?_
    intro x hx
    exact mem_append.mpr ((mem_append.mp hx).imp_right (hsub x))
  rcases w.isNewest_or_silent I k S with ⟨e, he⟩ | hsI
  · rcases hcov e he with hO | ⟨htomb, hsO, hup⟩
    · have hsil : w.Silent (R ++ I) k S ↔ w.Silent (R ++ O) k S := by
        simp only [silent_append]
        exact ⟨fun h => absurd h.2 he.not_silent, fun h => absurd h.2 hO.not_silent⟩
      simp only [Reads, isNewest_replace hsub hd he hO, hsil]
    · rcases w.isNewest_or_silent R k S with ⟨a, ha⟩ | hsR
      · -- a newer version above the dropped tombstone decides both reads
        have hleft : w.IsNewest (R ++ I) k S a := by
          refine ⟨mem_append_left _ ha.1, ha.2.1, ?_⟩
          intro x hx hv
          rcases mem_append.mp hx with hx | hx
          · exact ha.2.2 x hx hv
          · exact le_trans (he.2.2 x hx hv) (le_of_lt (hup a ha.1 ha.2.1))
        have hright : w.IsNewest (R ++ O) k S a := by
          refine ⟨mem_append_left _ ha.1, ha.2.1, ?_⟩
          intro x hx hv
          rcases mem_append.mp hx with hx | hx
          · exact ha.2.2 x hx hv
          · exact absurd hv (hsO x hx)
        rw [hleft.reads_iff hd, hright.reads_iff hd']
      · have hleft : w.IsNewest (R ++ I) k S e := he.append_silent hsR
        have hright : w.Silent (R ++ O) k S := silent_append.mpr ⟨hsR, hsO⟩
        rw [hleft.reads_iff hd, hright.reads_iff, htomb]
        exact eq_comm
  · have hsO : w.Silent O k S := fun x hx => hsI x (hsub x hx)
    refine reads_visible_congr ?_
    intro x hv
    simp only [mem_append]
    exact ⟨fun hx => .inl (hx.resolve_right fun hxI => hsI x hxI hv),
      fun hx => .inl (hx.resolve_right fun hxO => hsO x hxO hv)⟩

end Replace

end View

end MultiVersion
