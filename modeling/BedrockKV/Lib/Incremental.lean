/-
# `BedrockKV.Lib.Incremental` — readers that look at a growing buffer

An incremental reader keeps a state and a buffer of units it has not used.
One look at the buffer is a `Move`: ask for more, fail, or use up the first
`n` units, change state and emit.  `Reads` is any number of uses in a row, and
a *session* is what happens when the input arrives in chunks and the reader
looks, after each, until it asks for more.

A reader is `Settled` when a look that uses units depends on those units only
and a failure stays a failure; what such a reader emits cannot depend on the
chunks.  The second half is about a reader that also fails when too much has
arrived and it still has to ask (`Guarded`): it agrees with itself over all
ways of cutting a stream exactly if, wherever the stream trips the guard,
nothing more is emitted and the reading fails anyway (`agree_iff`).
-/
import Mathlib

namespace Incremental

open List

variable {σ β ρ : Type*}

/-- What one look at the buffer decides. -/
inductive Move (σ ρ : Type*) where
  | more
  | fail
  | take (n : Nat) (s : σ) (out : List ρ)

/-- Uses in a row: from state and buffer to state and buffer, with what they emit. -/
inductive Reads (move : σ → List β → Move σ ρ) : σ → List β → List ρ → σ → List β → Prop where
  | refl (s : σ) (b : List β) : Reads move s b [] s b
  | take {s s' s'' : σ} {b r : List β} {n : Nat} {out outs : List ρ} :
      move s b = .take n s' out → Reads move s' (b.drop n) outs s'' r →
      Reads move s b (out ++ outs) s'' r

/-- The reader has nothing to use. -/
def Stuck (move : σ → List β → Move σ ρ) (s : σ) (b : List β) : Prop :=
  ∀ n s' out, move s b ≠ .take n s' out

/-- The input arrives in chunks, behind the buffer; after each the reader uses
what it can.  The flag says that it failed, and then the rest is not looked at. -/
inductive Session (move : σ → List β → Move σ ρ) :
    σ → List β → List (List β) → List ρ → σ → List β → Bool → Prop where
  | done (s : σ) (b : List β) : Session move s b [] [] s b false
  | fails {s s' : σ} {b r c : List β} {chunks : List (List β)} {outs : List ρ} :
      Reads move s (b ++ c) outs s' r → move s' r = .fail →
      Session move s b (c :: chunks) outs s' r true
  | waits {s s' s'' : σ} {b r r' c : List β} {chunks : List (List β)} {outs outs' : List ρ}
      {failed : Bool} :
      Reads move s (b ++ c) outs s' r → move s' r = .more →
      Session move s' r chunks outs' s'' r' failed →
      Session move s b (c :: chunks) (outs ++ outs') s'' r' failed

section Reads

variable {move : σ → List β → Move σ ρ} {s s' s'' : σ} {b c r r' : List β} {outs outs' : List ρ}

theorem Reads.trans (h : Reads move s b outs s' r) (h' : Reads move s' r outs' s'' r') :
    Reads move s b (outs ++ outs') s'' r' := by
  induction h with
  | refl => exact h'
  | take hm _ ih =>
    rw [append_assoc]
    exact .take hm (ih h')

theorem Reads.single {n : Nat} {out : List ρ} (hm : move s b = .take n s' out) :
    Reads move s b out s' (b.drop n) := by
  have h := Reads.take hm (.refl s' (b.drop n))
  rwa [append_nil] at h

/-- A look is a function, so two readings of one buffer lie on one line. -/
theorem Reads.to_stuck (h : Reads move s b outs s' r) (h' : Reads move s b outs' s'' r')
    (hstuck : Stuck move s'' r') : ∃ tail, outs' = outs ++ tail ∧ Reads move s' r tail s'' r' := by
  induction h generalizing outs' with
  | refl => exact ⟨outs', rfl, h'⟩
  | take hm _ ih =>
    cases h' with
    | refl => exact absurd hm (hstuck _ _ _)
    | take hm' h' =>
      cases hm.symm.trans hm'
      obtain ⟨tail, rfl, htail⟩ := ih h'
      exact ⟨tail, (append_assoc _ _ _).symm, htail⟩

theorem Reads.stuck_unique (h : Reads move s b outs s' r) (h' : Reads move s b outs' s'' r')
    (hs : Stuck move s' r) (hs' : Stuck move s'' r') : outs = outs' ∧ s' = s'' ∧ r = r' := by
  obtain ⟨tail, rfl, htail⟩ := h.to_stuck h' hs'
  cases htail with
  | refl => exact ⟨(append_nil _).symm, rfl, rfl⟩
  | take hm => exact absurd hm (hs _ _ _)

theorem stuck_of_more (h : move s b = .more) : Stuck move s b := by
  intro n s' out ht
  rw [h] at ht
  cases ht

theorem stuck_of_fail (h : move s b = .fail) : Stuck move s b := by
  intro n s' out ht
  rw [h] at ht
  cases ht

end Reads

theorem Session.unique {move : σ → List β → Move σ ρ} {s s₁ s₂ : σ} {b r₁ r₂ : List β}
    {chunks : List (List β)} {outs outs' : List ρ} {failed failed' : Bool}
    (h : Session move s b chunks outs s₁ r₁ failed)
    (h' : Session move s b chunks outs' s₂ r₂ failed') : outs = outs' ∧ failed = failed' := by
  induction h generalizing outs' with
  | done =>
    cases h'
    exact ⟨rfl, rfl⟩
  | fails hread hfail =>
    cases h' with
    | fails hread' hfail' =>
      exact ⟨(hread.stuck_unique hread' (stuck_of_fail hfail) (stuck_of_fail hfail')).1, rfl⟩
    | waits hread' hmore' =>
      obtain ⟨-, rfl, rfl⟩ := hread.stuck_unique hread' (stuck_of_fail hfail) (stuck_of_more hmore')
      cases hfail.symm.trans hmore'
  | waits hread hmore _ ih =>
    cases h' with
    | fails hread' hfail' =>
      obtain ⟨-, rfl, rfl⟩ := hread.stuck_unique hread' (stuck_of_more hmore) (stuck_of_fail hfail')
      cases hmore.symm.trans hfail'
    | waits hread' hmore' hrest' =>
      obtain ⟨rfl, rfl, rfl⟩ :=
        hread.stuck_unique hread' (stuck_of_more hmore) (stuck_of_more hmore')
      obtain ⟨rfl, hf⟩ := ih hrest'
      exact ⟨rfl, hf⟩

/-- A use is decided by the units it uses, and a failure by what is there. -/
structure Settled (move : σ → List β → Move σ ρ) : Prop where
  take_pos : ∀ {s b n s' out}, move s b = .take n s' out → 0 < n ∧ n ≤ b.length
  take_own : ∀ {s b n s' out}, move s b = .take n s' out → ∀ c,
    move s (b.take n ++ c) = .take n s' out
  fail_stays : ∀ {s b}, move s b = .fail → ∀ c, move s (b ++ c) = .fail

section Settled

variable {move : σ → List β → Move σ ρ} {s s' : σ} {b r : List β} {outs : List ρ}

theorem Settled.used (hm : Settled move) (h : Reads move s b outs s' r) :
    ∃ p, b = p ++ r ∧ ∀ c, Reads move s (p ++ c) outs s' c := by
  induction h with
  | refl s b => exact ⟨[], rfl, fun c => .refl s c⟩
  | @take s s' s'' b r n out outs ht _ ih =>
    obtain ⟨p, hp, hread⟩ := ih
    refine ⟨b.take n ++ p, ?_, fun c => ?_⟩
    · rw [append_assoc, ← hp, take_append_drop]
    · rw [append_assoc]
      refine .take (hm.take_own ht (p ++ c)) ?_
      rw [drop_left' (length_take_of_le (hm.take_pos ht).2)]
      exact hread c

theorem Settled.extend (hm : Settled move) (h : Reads move s b outs s' r) (c : List β) :
    Reads move s (b ++ c) outs s' (r ++ c) := by
  obtain ⟨p, rfl, hread⟩ := hm.used h
  rw [append_assoc]
  exact hread (r ++ c)

end Settled

/-! ## What a reader emits -/

/-- The pieces stand in the text in this order, and none of them overlaps another. -/
inductive CutFrom : List (List β) → List β → Prop where
  | nil (text : List β) : CutFrom [] text
  | cons {piece text : List β} {pieces : List (List β)} (gap : List β) :
      CutFrom pieces text → CutFrom (piece :: pieces) (gap ++ (piece ++ text))

section CutFrom

variable {ps qs : List (List β)} {t u : List β}

theorem CutFrom.append_text (h : CutFrom ps t) (u : List β) : CutFrom ps (t ++ u) := by
  induction h with
  | nil => exact .nil _
  | cons gap _ ih =>
    rw [append_assoc, append_assoc]
    exact .cons gap ih

theorem CutFrom.append_front (h : CutFrom ps t) (u : List β) : CutFrom ps (u ++ t) := by
  cases h with
  | nil => exact .nil _
  | cons gap h =>
    rw [← append_assoc]
    exact .cons (u ++ gap) h

theorem CutFrom.append (h : CutFrom ps t) (h' : CutFrom qs u) : CutFrom (ps ++ qs) (t ++ u) := by
  induction h with
  | nil text => exact h'.append_front text
  | cons gap _ ih =>
    rw [append_assoc, append_assoc]
    exact .cons gap ih

theorem CutFrom.left (h : CutFrom (ps ++ qs) t) : CutFrom ps t := by
  induction ps generalizing t with
  | nil => exact .nil _
  | cons p ps ih =>
    cases h with
    | cons gap h => exact .cons gap (ih h)

theorem cutFrom_one (gap piece text : List β) : CutFrom [piece] (gap ++ (piece ++ text)) :=
  .cons gap (.nil text)

end CutFrom

/-- A reader that only passes on what it uses: with `held` what it has kept for later and
`pieces` what it emits, each use cuts some new pieces out of the units it uses. -/
def Cuts (move : σ → List β → Move σ ρ) (held : σ → List (List β)) (pieces : ρ → List (List β)) :
    Prop :=
  ∀ {s b n s' out}, move s b = .take n s' out →
    ∃ new, CutFrom new (b.take n) ∧ held s ++ new = out.flatMap pieces ++ held s'

/-- **A reading cuts what it emits and what it keeps out of what it uses.** -/
theorem Cuts.reads {move : σ → List β → Move σ ρ} {held : σ → List (List β)}
    {pieces : ρ → List (List β)} (hm : Cuts move held pieces) {s s' : σ} {b r : List β}
    {outs : List ρ} (h : Reads move s b outs s' r) :
    ∃ used new, b = used ++ r ∧ CutFrom new used ∧
      held s ++ new = outs.flatMap pieces ++ held s' := by
  induction h with
  | refl s b => exact ⟨[], [], rfl, .nil _, by rw [append_nil]; rfl⟩
  | @take s s' s'' b r n out outs ht _ ih =>
    obtain ⟨used, new, hb, hcut, heq⟩ := ih
    obtain ⟨first, hfirst, heq'⟩ := hm ht
    refine ⟨b.take n ++ used, first ++ new, ?_, hfirst.append hcut, ?_⟩
    · rw [append_assoc, ← hb, take_append_drop]
    · rw [← append_assoc, heq', append_assoc, heq, flatMap_append, append_assoc]

/-! ## A reader with a guard -/

/-- `real` looks like `lax`, but fails where `lax` would ask for more and the
buffer is `Over`. -/
structure Guarded (lax real : σ → List β → Move σ ρ) (Over : σ → List β → Prop) : Prop where
  settled : Settled lax
  agrees : ∀ {s b}, lax s b ≠ .more → real s b = lax s b
  guard : ∀ {s b}, lax s b = .more → real s b = .more ∨ (real s b = .fail ∧ Over s b)
  over_stays : ∀ {s b}, Over s b → ∀ c, Over s (b ++ c)
  over_trips : ∀ {s b}, Over s b → ∃ p c, b = p ++ c ∧ lax s p = .more ∧ real s p = .fail

section Guarded

variable {lax real : σ → List β → Move σ ρ} {Over : σ → List β → Prop}
  {s s' : σ} {b r : List β} {outs : List ρ} {chunks : List (List β)} {failed : Bool}

section

variable (g : Guarded lax real Over)
include g

theorem Guarded.real_take {n : Nat} {out : List ρ} :
    real s b = .take n s' out ↔ lax s b = .take n s' out := by
  constructor
  · intro h
    by_cases hmore : lax s b = .more
    · rcases g.guard hmore with h' | ⟨h', -⟩ <;> rw [h'] at h <;> cases h
    · rw [← g.agrees hmore, h]
  · intro h
    rw [g.agrees (by rw [h]; exact fun hc => by cases hc), h]

theorem Guarded.reads_iff :
    Reads real s b outs s' r ↔ Reads lax s b outs s' r := by
  constructor
  · intro h
    induction h with
    | refl s b => exact .refl s b
    | take hm _ ih => exact .take (g.real_take.mp hm) ih
  · intro h
    induction h with
    | refl s b => exact .refl s b
    | take hm _ ih => exact .take (g.real_take.mpr hm) ih

theorem Guarded.lax_more (h : real s b = .more) :
    lax s b = .more := by
  by_contra hne
  exact hne ((g.agrees hne).symm.trans h)

theorem Guarded.stuck_iff : Stuck real s b ↔ Stuck lax s b := by
  simp only [Stuck, ne_eq, g.real_take]

theorem Guarded.fail_cases (h : real s b = .fail) :
    lax s b = .fail ∨ Over s b := by
  by_cases hmore : lax s b = .more
  · rcases g.guard hmore with h' | ⟨-, ho⟩
    · rw [h'] at h
      cases h
    · exact .inr ho
  · exact .inl ((g.agrees hmore).symm.trans h)

theorem Guarded.session_reads (hb : real s b = .more)
    (h : Session real s b chunks outs s' r failed) :
    ∃ seen unseen, b ++ chunks.flatten = seen ++ unseen ∧ Reads lax s seen outs s' r ∧
      ((failed = true ∧ real s' r = .fail) ∨
        (failed = false ∧ unseen = [] ∧ real s' r = .more)) := by
  induction h with
  | done s b => exact ⟨b, [], by simp, .refl s b, .inr ⟨rfl, rfl, hb⟩⟩
  | @fails s s' b r c chunks outs hread hfail =>
    exact ⟨b ++ c, chunks.flatten, by simp, g.reads_iff.mp hread, .inl ⟨rfl, hfail⟩⟩
  | @waits s s' s'' b r r' c chunks outs outs' failed hread hmore hrest ih =>
    obtain ⟨seen, unseen, heq, hr, hend⟩ := ih hmore
    obtain ⟨p, hp, huse⟩ := g.settled.used (g.reads_iff.mp hread)
    refine ⟨p ++ seen, unseen, ?_, (huse seen).trans hr, hend⟩
    rw [flatten_cons, ← append_assoc, hp, append_assoc, heq, append_assoc]

/-- Wherever the stream trips the guard, nothing more is emitted and the reading fails. -/
def Harmless (lax real : σ → List β → Move σ ρ) (Over : σ → List β → Prop) (s : σ)
    (b : List β) : Prop :=
  ∀ outs s' r, Reads lax s b outs s' r → Over s' r →
    ∃ s'' r', Reads lax s' r [] s'' r' ∧ real s'' r' = .fail

/-- Where the guard does no harm, a session reads what the whole stream holds. -/
theorem Guarded.session_whole (hb : real s [] = .more)
    (hharm : Harmless lax real Over s chunks.flatten)
    (h : Session real s [] chunks outs s' r failed) :
    ∃ s'' r', Reads lax s chunks.flatten outs s'' r' ∧ Stuck lax s'' r' ∧
      (failed = true ↔ real s'' r' = .fail) := by
  obtain ⟨seen, unseen, heq, hread, ⟨hf, hfail⟩ | ⟨hf, hnil, hmore⟩⟩ := g.session_reads hb h
  · rw [nil_append] at heq
    have hall : Reads lax s chunks.flatten outs s' (r ++ unseen) := by
      rw [heq]
      exact g.settled.extend hread unseen
    rcases g.fail_cases hfail with hlax | hover
    · -- a failure of the lax reader is there in the whole stream too
      have hlax' := g.settled.fail_stays hlax unseen
      have hreal : real s' (r ++ unseen) = .fail := by
        rw [g.agrees (by rw [hlax']; exact fun hc => by cases hc), hlax']
      exact ⟨s', r ++ unseen, hall, stuck_of_fail hlax', by simp [hf, hreal]⟩
    · obtain ⟨s'', r', hrest, hend⟩ := hharm _ _ _ hall (g.over_stays hover unseen)
      refine ⟨s'', r', ?_, g.stuck_iff.mp (stuck_of_fail hend), by simp [hf, hend]⟩
      have htrans := hall.trans hrest
      rwa [append_nil] at htrans
  · rw [nil_append, hnil, append_nil] at heq
    refine ⟨s', r, heq ▸ hread, stuck_of_more (g.lax_more hmore), ?_⟩
    rw [hf, hmore]
    simp

/-- Two sessions over the same stream emit the same and end alike. -/
def Agree (real : σ → List β → Move σ ρ) (s : σ) (b : List β) : Prop :=
  ∀ chunks chunks' outs outs' s₁ s₂ r₁ r₂ failed failed',
    chunks.flatten = b → chunks'.flatten = b →
    Session real s [] chunks outs s₁ r₁ failed →
    Session real s [] chunks' outs' s₂ r₂ failed' →
    outs = outs' ∧ (failed = true ↔ failed' = true)

theorem Guarded.agree_of_harmless (hb : real s [] = .more)
    (hharm : Harmless lax real Over s b) : Agree real s b := by
  intro chunks chunks' outs outs' s₁ s₂ r₁ r₂ failed failed' hc hc' hs hs'
  subst hc
  obtain ⟨t, u, hread, hstuck, hend⟩ := g.session_whole hb hharm hs
  obtain ⟨t', u', hread', hstuck', hend'⟩ := g.session_whole hb (hc' ▸ hharm) hs'
  rw [hc'] at hread'
  obtain ⟨rfl, rfl, rfl⟩ := hread.stuck_unique hread' hstuck hstuck'
  exact ⟨rfl, hend.trans hend'.symm⟩

end

theorem Settled.exists_stuck (hm : Settled lax) (s : σ) (b : List β) :
    ∃ outs s' r, Reads lax s b outs s' r ∧ Stuck lax s' r := by
  -- every use shortens the buffer
  induction hn : b.length using Nat.strong_induction_on generalizing s b with
  | _ n ih =>
    cases hmove : lax s b with
    | more => exact ⟨[], s, b, .refl s b, stuck_of_more hmove⟩
    | fail => exact ⟨[], s, b, .refl s b, stuck_of_fail hmove⟩
    | take k s' out =>
      obtain ⟨hpos, hle⟩ := hm.take_pos hmove
      obtain ⟨outs, s'', r, hread, hstuck⟩ :=
        ih (b.drop k).length (by rw [length_drop]; omega) s' (b.drop k) rfl
      exact ⟨out ++ outs, s'', r, .take hmove hread, hstuck⟩

theorem Guarded.session_one (g : Guarded lax real Over) (s : σ) (b : List β) :
    ∃ outs s' r failed, Session real s [] [b] outs s' r failed ∧
      Reads lax s b outs s' r ∧ Stuck lax s' r ∧ (failed = true ↔ real s' r = .fail) := by
  obtain ⟨outs, s', r, hread, hstuck⟩ := g.settled.exists_stuck s b
  have hreal := g.reads_iff.mpr hread
  cases hend : real s' r with
  | more =>
    refine ⟨outs, s', r, false, ?_, hread, hstuck, by simp [hend]⟩
    have h := Session.waits (b := []) hreal hend (.done s' r)
    rwa [append_nil] at h
  | fail => exact ⟨outs, s', r, true, .fails (b := []) hreal hend, hread, hstuck, by simp [hend]⟩
  | take n t out => exact absurd (g.real_take.mp hend) (hstuck _ _ _)

theorem Guarded.harmless_of_agree (g : Guarded lax real Over) (hagree : Agree real s b) :
    Harmless lax real Over s b := by
  intro outs s' r hread hover
  obtain ⟨p, c, rfl, hlax, hreal⟩ := g.over_trips hover
  obtain ⟨q, rfl, huse⟩ := g.settled.used hread
  -- the cut right behind the units that trip the guard
  have hcut : Session real s [] [q ++ p, c] outs s' p true :=
    .fails (b := []) (g.reads_iff.mpr (huse p)) hreal
  obtain ⟨outs', t, u, failed, hwhole, hread', hstuck, hend⟩ := g.session_one s (q ++ (p ++ c))
  obtain ⟨rfl, hfailed⟩ := hagree _ _ _ _ _ _ _ _ _ _ (by simp) (by simp) hcut hwhole
  obtain ⟨tail, htail, hrest⟩ := hread.to_stuck hread' hstuck
  rw [self_eq_append_right] at htail
  exact ⟨t, u, htail ▸ hrest, hend.mp (hfailed.mp rfl)⟩

/-- **A guarded reader is independent of the cuts exactly if its guard is harmless.** -/
theorem Guarded.agree_iff (g : Guarded lax real Over) (hb : real s [] = .more) :
    Agree real s b ↔ Harmless lax real Over s b :=
  ⟨g.harmless_of_agree, g.agree_of_harmless hb⟩

end Guarded

end Incremental
