/-
# `BedrockKV.Lib.Run` — partial labelled machines and what their runs preserve

A machine is a partial step function `step : σ → ι → Option σ`: `none` says
that the label is not enabled in that state.  A run is a list of labels, and
every safety statement about runs is one of four inductions, all packaged
here once:

    an invariant of state and trace, kept by every enabled step   (`run_invariant`)
    the same, about what the steps have emitted so far            (`emitted_invariant`)
    the first, when each step also meets a side condition         (`meets_invariant`)
    both at once                                                  (`meets_emitted`)

The last two are the ones for a machine that is right only along some of its
runs: `Meets` asks the condition of the state *before* each step.  `Always`
asks one of every state; two machines that agree where it holds have such runs
in common (`always_congr`).
-/
import Mathlib

namespace Machine

variable {σ ι : Type*} {step : σ → ι → Option σ}

/-- The state after the labels of `tr`, in order. -/
def run (step : σ → ι → Option σ) : σ → List ι → Option σ
  | s, [] => some s
  | s, i :: tr => (step s i).bind fun s' => run step s' tr

/-- Every step of the run from `s` along `tr` meets `C` in the state it starts from. -/
def Meets (step : σ → ι → Option σ) (C : σ → ι → Prop) : σ → List ι → Prop
  | _, [] => True
  | s, i :: tr => C s i ∧ ∀ s', step s i = some s' → Meets step C s' tr

@[simp] theorem run_nil (s : σ) : run step s [] = some s := rfl

/-- A condition that can be evaluated can be evaluated along a run. -/
instance decidableMeets (C : σ → ι → Prop) [∀ s i, Decidable (C s i)] :
    ∀ (s : σ) (tr : List ι), Decidable (Meets step C s tr)
  | _, [] => .isTrue trivial
  | s, i :: tr =>
    match h : step s i with
    | none => decidable_of_iff (C s i) ⟨fun hC => ⟨hC, fun _ hs => by rw [h] at hs; cases hs⟩,
        And.left⟩
    | some s' =>
      have := decidableMeets C s' tr
      decidable_of_iff (C s i ∧ Meets step C s' tr)
        ⟨fun ⟨hC, hm⟩ => ⟨hC, fun _ hs => Option.some.inj (h.symm.trans hs) ▸ hm⟩,
          fun ⟨hC, hm⟩ => ⟨hC, hm s' h⟩⟩

variable {i : ι} {s s' s₀ : σ} {tr : List ι} {β : Type*} {C : σ → ι → Prop}

theorem run_cons :
    run step s (i :: tr) = some s' ↔ ∃ m, step s i = some m ∧ run step m tr = some s' := by
  simp only [run, Option.bind_eq_some_iff]

theorem run_append {tr' : List ι} :
    run step s (tr ++ tr') = some s' ↔
      ∃ m, run step s tr = some m ∧ run step m tr' = some s' := by
  induction tr generalizing s with
  | nil => simp
  | cons i tr ih =>
    simp only [List.cons_append, run_cons, ih]
    constructor
    · rintro ⟨m, hm, m', hm', h⟩
      exact ⟨m', ⟨m, hm, hm'⟩, h⟩
    · rintro ⟨m', ⟨m, hm, hm'⟩, h⟩
      exact ⟨m, hm, m', hm', h⟩

theorem run_concat :
    run step s (tr ++ [i]) = some s' ↔
      ∃ m, run step s tr = some m ∧ step m i = some s' := by
  simp only [run_append, run_cons, run_nil, Option.some.injEq, exists_eq_right]

/-- **The run rule.**  The invariant may speak about the trace so far, so that
a specification computed from the labels can be compared with the state. -/
theorem run_invariant (Inv : List ι → σ → Prop) (h₀ : Inv [] s₀)
    (hstep : ∀ tr s i s', Inv tr s → step s i = some s' → Inv (tr ++ [i]) s') :
    ∀ {tr : List ι} {s : σ}, run step s₀ tr = some s → Inv tr s := by
  intro tr
  induction tr using List.reverseRecOn with
  | nil =>
    intro s h
    cases h
    exact h₀
  | append_singleton tr i ih =>
    intro s h
    obtain ⟨m, hm, hs⟩ := run_concat.mp h
    exact hstep tr m i s (ih hm) hs

/-- What the steps of a run emit, in order. -/
def emitted {β : Type*} (step : σ → ι → Option σ) (out : σ → ι → List β) :
    σ → List ι → List β
  | _, [] => []
  | s, i :: tr => out s i ++ (step s i).elim [] fun s' => emitted step out s' tr

theorem emitted_concat {out : σ → ι → List β} {m : σ} (h : run step s tr = some m) :
    emitted step out s (tr ++ [i]) = emitted step out s tr ++ out m i := by
  induction tr generalizing s with
  | nil =>
    obtain rfl : s = m := Option.some.inj h
    cases hs : step s i <;> simp [emitted, hs]
  | cons j tr ih =>
    obtain ⟨s', hs', hrun⟩ := run_cons.mp h
    simp only [List.cons_append, emitted, hs', Option.elim_some, ih hrun, List.append_assoc]

/-- **The run rule for what has been emitted.** -/
theorem emitted_invariant {out : σ → ι → List β} (Inv : List β → σ → Prop) (h₀ : Inv [] s₀)
    (hstep : ∀ h s i s', Inv h s → step s i = some s' → Inv (h ++ out s i) s')
    (hrun : run step s₀ tr = some s) : Inv (emitted step out s₀ tr) s := by
  refine (run_invariant
    (fun tr s => run step s₀ tr = some s ∧ Inv (emitted step out s₀ tr) s) ⟨rfl, h₀⟩ ?_ hrun).2
  rintro tr m i s' ⟨hm, hinv⟩ hs
  refine ⟨run_concat.mpr ⟨m, hm, hs⟩, ?_⟩
  rw [emitted_concat hm]
  exact hstep _ m i s' hinv hs

theorem meets_append {tr' : List ι} (h : Meets step C s (tr ++ tr')) :
    Meets step C s tr ∧ ∀ m, run step s tr = some m → Meets step C m tr' := by
  induction tr generalizing s with
  | nil =>
    refine ⟨trivial, ?_⟩
    intro m hm
    cases hm
    exact h
  | cons i tr ih =>
    obtain ⟨hC, hrest⟩ := h
    refine ⟨⟨hC, fun s' hs' => (ih (hrest s' hs')).1⟩, ?_⟩
    intro m hm
    obtain ⟨s', hs', hrun⟩ := run_cons.mp hm
    exact (ih (hrest s' hs')).2 m hrun

theorem Meets.imp {C' : σ → ι → Prop} (himp : ∀ s i, C s i → C' s i) (h : Meets step C s tr) :
    Meets step C' s tr := by
  induction tr generalizing s with
  | nil => exact trivial
  | cons i tr ih => exact ⟨himp s i h.1, fun s' hs' => ih (h.2 s' hs')⟩

/-- **The run rule under a side condition** on each step's starting state. -/
theorem meets_invariant (Inv : List ι → σ → Prop) (h₀ : Inv [] s₀)
    (hstep : ∀ tr s i s', Inv tr s → C s i → step s i = some s' → Inv (tr ++ [i]) s') :
    ∀ {tr : List ι} {s : σ}, Meets step C s₀ tr → run step s₀ tr = some s → Inv tr s := by
  intro tr
  induction tr using List.reverseRecOn with
  | nil =>
    intro s _ h
    cases h
    exact h₀
  | append_singleton tr i ih =>
    intro s hmeets h
    obtain ⟨m, hm, hs⟩ := run_concat.mp h
    obtain ⟨hpre, hpost⟩ := meets_append hmeets
    exact hstep tr m i s (ih hpre hm) (hpost m hm).1 hs

/-- **The run rule under a side condition, for what has been emitted.** -/
theorem meets_emitted {out : σ → ι → List β} (Inv : List ι → List β → σ → Prop) (h₀ : Inv [] [] s₀)
    (hstep : ∀ tr h s i s', Inv tr h s → C s i → step s i = some s' →
      Inv (tr ++ [i]) (h ++ out s i) s')
    (hmeets : Meets step C s₀ tr) (hrun : run step s₀ tr = some s) :
    Inv tr (emitted step out s₀ tr) s := by
  refine (meets_invariant
    (fun tr s => run step s₀ tr = some s ∧ Inv tr (emitted step out s₀ tr) s) ⟨rfl, h₀⟩ ?_
    hmeets hrun).2
  rintro tr m i s' ⟨hm, hinv⟩ hC hs
  refine ⟨run_concat.mpr ⟨m, hm, hs⟩, ?_⟩
  rw [emitted_concat hm]
  exact hstep tr _ m i s' hinv hC hs

/-! ## Conditions on every state -/

/-- Every state of the run from `s` along `tr` has `P`, the last one included. -/
def Always (step : σ → ι → Option σ) (P : σ → Prop) : σ → List ι → Prop
  | s, [] => P s
  | s, i :: tr => P s ∧ ∀ s', step s i = some s' → Always step P s' tr

instance decidableAlways (P : σ → Prop) [DecidablePred P] :
    ∀ (s : σ) (tr : List ι), Decidable (Always step P s tr)
  | s, [] => inferInstanceAs (Decidable (P s))
  | s, i :: tr =>
    match h : step s i with
    | none => decidable_of_iff (P s) ⟨fun hP => ⟨hP, fun _ hs => by rw [h] at hs; cases hs⟩,
        And.left⟩
    | some s' =>
      have := decidableAlways P s' tr
      decidable_of_iff (P s ∧ Always step P s' tr)
        ⟨fun ⟨hP, hm⟩ => ⟨hP, fun _ hs => Option.some.inj (h.symm.trans hs) ▸ hm⟩,
          fun ⟨hP, hm⟩ => ⟨hP, hm s' h⟩⟩

section Always

variable {P : σ → Prop}

theorem Always.first (h : Always step P s tr) : P s := by
  cases tr with
  | nil => exact h
  | cons i tr => exact h.1

theorem Always.last (h : Always step P s tr) (hrun : run step s tr = some s') : P s' := by
  induction tr generalizing s with
  | nil =>
    cases hrun
    exact h
  | cons i tr ih =>
    obtain ⟨m, hm, hrun⟩ := run_cons.mp hrun
    exact ih (h.2 m hm) hrun

theorem Always.concat (h : Always step P s₀ (tr ++ [i])) (hrun : run step s₀ tr = some s)
    (hs : step s i = some s') : P s ∧ P s' := by
  refine ⟨?_, h.last (run_concat.mpr ⟨s, hrun, hs⟩)⟩
  induction tr generalizing s₀ with
  | nil =>
    cases hrun
    exact h.1
  | cons j tr ih =>
    obtain ⟨m, hm, hrun⟩ := run_cons.mp hrun
    exact ih (h.2 m hm) hrun

/-- **Two machines along a run.**  Where they take the same steps from states with `P`, a run
through such states is one of both. -/
theorem always_congr {step' : σ → ι → Option σ} (Inv : σ → Prop)
    (hstep : ∀ s i, Inv s → P s → step s i = step' s i)
    (hinv : ∀ s i s', Inv s → P s → step s i = some s' → Inv s') :
    ∀ {tr : List ι} {s : σ}, Inv s → Always step P s tr →
      run step s tr = run step' s tr ∧ Always step' P s tr := by
  intro tr
  induction tr with
  | nil => exact fun _ h => ⟨rfl, h⟩
  | cons i tr ih =>
    intro s hs h
    have heq := hstep s i hs h.1
    rw [run, run, ← heq]
    refine ⟨?_, h.1, fun m hm => ?_⟩
    · cases hm : step s i with
      | none => rfl
      | some m => exact (ih (hinv s i m hs h.1 hm) (h.2 m hm)).1
    · rw [← heq] at hm
      exact (ih (hinv s i m hs h.1 hm) (h.2 m hm)).2

end Always

end Machine
