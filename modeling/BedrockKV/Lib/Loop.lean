/-
# `BedrockKV.Lib.Loop` — loops without a bound of their own

A `for (;;)` is a round `round : σ → ρ ⊕ σ`, which returns or goes on from a new
state.  `Returns round s out` says that the loop started in `s` ends, and with
`out`.  A function that counts its rounds down computes the loop as long as a
measure of the state stays below the count (`returns_of_measure`).

The loop that is written most often walks an iterator to its end; `Walks` says
what it shows, one position at a time (`walks_cons`, `Walks.eq_cons`), and a `walk` of
enough steps computes it.
-/
import Mathlib

namespace Loop

variable {σ ρ : Type*} {round : σ → ρ ⊕ σ}

/-- The loop ends with `out`, after finitely many rounds. -/
inductive Returns (round : σ → ρ ⊕ σ) : σ → ρ → Prop
  | done {s : σ} {out : ρ} : round s = .inl out → Returns round s out
  | next {s s' : σ} {out : ρ} : round s = .inr s' → Returns round s' out → Returns round s out

theorem Returns.unique {s : σ} {out out' : ρ} (h : Returns round s out)
    (h' : Returns round s out') : out = out' := by
  induction h with
  | done hr =>
    cases h' with
    | done hr' => exact Sum.inl.inj (hr.symm.trans hr')
    | next hr' _ => cases hr.symm.trans hr'
  | next hr _ ih =>
    cases h' with
    | done hr' => cases hr.symm.trans hr'
    | next hr' h' => exact ih (Sum.inr.inj (hr.symm.trans hr') ▸ h')

theorem Returns.exists_exit {s : σ} {out : ρ} (h : Returns round s out) :
    ∃ s', round s' = .inl out := by
  induction h with
  | done hr => exact ⟨_, hr⟩
  | next _ _ ih => exact ih

/-- **A loop with a decreasing measure returns**, with what a count of rounds
above the measure computes.  The measure may rest on an invariant of the loop. -/
theorem returns_of_measure {f : Nat → σ → ρ} {μ : σ → Nat} {I : σ → Prop}
    (hf : ∀ n s, f (n + 1) s = Sum.elim id (f n) (round s))
    (hround : ∀ s s', I s → round s = .inr s' → I s' ∧ μ s' < μ s) :
    ∀ {n : Nat} {s : σ}, I s → μ s < n → Returns round s (f n s) := by
  intro n
  induction n with
  | zero =>
    intro s _ hlt
    omega
  | succ n ih =>
    intro s hs hlt
    rw [hf]
    cases hr : round s with
    | inl out => exact .done hr
    | inr s' =>
      obtain ⟨hs', hlt'⟩ := hround s s' hs hr
      exact .next hr (ih hs' (by omega))

theorem exists_returns {μ : σ → Nat} (hround : ∀ s s', round s = .inr s' → μ s' < μ s) (s : σ) :
    ∃ out, Returns round s out := by
  induction hn : μ s using Nat.strong_induction_on generalizing s with
  | _ n ih =>
    cases hr : round s with
    | inl out => exact ⟨out, .done hr⟩
    | inr s' =>
      obtain ⟨out, hout⟩ := ih (μ s') (hn ▸ hround s s' hr) s' rfl
      exact ⟨out, .next hr hout⟩

/-! ## Walks -/

section Walk

variable {ι ε : Type*} (valid : ι → Bool) (shows : ι → ε) (next : ι → ι)

/-- One round of a walk: what the iterator shows is kept, and it moves on. -/
def walkRound : List ε × ι → List ε ⊕ (List ε × ι)
  | (shown, it) => if valid it then .inr (shown ++ [shows it], next it) else .inl shown

/-- A walk from here to the end shows these. -/
def Walks (it : ι) (xs : List ε) : Prop := Returns (walkRound valid shows next) ([], it) xs

/-- What a walk of at most so many steps shows. -/
def walk : Nat → ι → List ε
  | 0, _ => []
  | n + 1, it => if valid it then shows it :: walk n (next it) else []

variable {valid shows next} {it : ι} {xs : List ε}

theorem Walks.after (h : Walks valid shows next it xs) (shown : List ε) :
    Returns (walkRound valid shows next) (shown, it) (shown ++ xs) := by
  have hgen : ∀ {s out}, Returns (walkRound valid shows next) s out →
      Returns (walkRound valid shows next) (shown ++ s.1, s.2) (shown ++ out) := by
    intro s out hrun
    induction hrun with
    | @done s out hround =>
      obtain ⟨front, it⟩ := s
      simp only [walkRound] at hround
      split at hround
      · cases hround
      · next hinvalid =>
        refine .done ?_
        rw [walkRound, if_neg hinvalid, Sum.inl.inj hround]
    | @next s s' out hround _ ih =>
      obtain ⟨front, it⟩ := s
      simp only [walkRound] at hround
      split at hround
      · next hvalid =>
        rw [← Sum.inr.inj hround, ← List.append_assoc] at ih
        refine .next ?_ ih
        rw [walkRound, if_pos hvalid]
      · cases hround
  have hrun := hgen h
  rwa [List.append_nil] at hrun

theorem exists_walks {shown out : List ε}
    (h : Returns (walkRound valid shows next) (shown, it) out) :
    ∃ xs, out = shown ++ xs ∧ Walks valid shows next it xs := by
  have hgen : ∀ {s out}, Returns (walkRound valid shows next) s out →
      ∃ xs, out = s.1 ++ xs ∧ Walks valid shows next s.2 xs := by
    intro s out hrun
    induction hrun with
    | @done s out hround =>
      obtain ⟨front, it⟩ := s
      simp only [walkRound] at hround
      split at hround
      · cases hround
      · next hinvalid =>
        refine ⟨[], by rw [List.append_nil, Sum.inl.inj hround], .done ?_⟩
        rw [walkRound, if_neg hinvalid]
    | @next s s' out hround _ ih =>
      obtain ⟨front, it⟩ := s
      simp only [walkRound] at hround
      split at hround
      · next hvalid =>
        rw [← Sum.inr.inj hround] at ih
        obtain ⟨xs, rfl, hxs⟩ := ih
        refine ⟨shows it :: xs, List.append_assoc _ _ _, ?_⟩
        have hround : walkRound valid shows next ([], it) = .inr ([shows it], next it) := by
          rw [walkRound, if_pos hvalid]
          rfl
        exact .next hround (hxs.after [shows it])
      · cases hround
  exact hgen h

theorem walks_nil (h : valid it = false) : Walks valid shows next it [] := by
  refine .done ?_
  rw [walkRound, h]
  rfl

theorem walks_cons (h : valid it = true) (hrest : Walks valid shows next (next it) xs) :
    Walks valid shows next it (shows it :: xs) := by
  have hround : walkRound valid shows next ([], it) = .inr ([shows it], next it) := by
    rw [walkRound, h]
    rfl
  exact .next hround (hrest.after [shows it])

theorem Walks.eq_nil (h : Walks valid shows next it xs) (hinvalid : valid it = false) : xs = [] :=
  h.unique (walks_nil hinvalid)

theorem Walks.eq_cons (h : Walks valid shows next it xs) (hvalid : valid it = true) :
    ∃ ys, xs = shows it :: ys ∧ Walks valid shows next (next it) ys := by
  cases h with
  | done hround =>
    rw [walkRound, hvalid] at hround
    cases hround
  | next hround hrun =>
    rw [walkRound, hvalid] at hround
    rw [← Sum.inr.inj hround] at hrun
    exact exists_walks hrun

theorem Walks.walk_eq : ∀ {n : Nat} {it : ι} {xs : List ε}, Walks valid shows next it xs →
    xs.length ≤ n → walk valid shows next n it = xs := by
  intro n
  induction n with
  | zero =>
    intro it xs _ hlen
    exact (List.length_eq_zero_iff.mp (Nat.le_zero.mp hlen)).symm
  | succ n ih =>
    intro it xs h hlen
    rw [walk]
    cases hvalid : valid it with
    | false => exact (h.eq_nil hvalid).symm
    | true =>
      obtain ⟨ys, rfl, hys⟩ := h.eq_cons hvalid
      rw [List.length_cons] at hlen
      rw [ih hys (by omega)]
      rfl

end Walk

end Loop
