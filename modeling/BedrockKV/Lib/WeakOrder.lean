/-
# `BedrockKV.Lib.WeakOrder` — comparators

What C++ asks of a comparator: it is irreflexive and transitive, and not being
comparable is transitive as well.  Different elements may be equivalent, so
that a list can increase strictly although two of its elements are.
-/
import Mathlib

/-- A strict weak order, as a comparator computes it. -/
structure StrictWeakOrder {α : Type*} (less : α → α → Bool) : Prop where
  irrefl : ∀ a, less a a = false
  trans : ∀ {a b c}, less a b = true → less b c = true → less a c = true
  cotrans : ∀ {a b c}, less a c = true → less a b = true ∨ less b c = true

namespace StrictWeakOrder

variable {α : Type*} {less : α → α → Bool} {a b c : α}

section

variable (h : StrictWeakOrder less)
include h

theorem asymm (hab : less a b = true) : less b a = false := by
  by_contra hba
  have haa := h.trans hab ((Bool.not_eq_false _).mp hba)
  rw [h.irrefl] at haa
  cases haa

theorem less_of_less_of_not_less (hab : less a b = true)
    (hcb : less c b = false) : less a c = true := by
  refine (h.cotrans hab).resolve_right ?_
  rw [hcb]
  decide

theorem less_of_not_less_of_less (hba : less b a = false)
    (hbc : less b c = true) : less a c = true := by
  refine (h.cotrans hbc).resolve_left ?_
  rw [hba]
  decide

theorem not_less_trans (hba : less b a = false) (hcb : less c b = false) : less c a = false := by
  by_contra hca
  rcases h.cotrans ((Bool.not_eq_false _).mp hca) with hcb' | hba'
  · rw [hcb] at hcb'
    cases hcb'
  · rw [hba] at hba'
    cases hba'

theorem comap {β : Type*} (f : β → α) :
    StrictWeakOrder fun x y => less (f x) (f y) where
  irrefl x := h.irrefl (f x)
  trans := h.trans
  cotrans := h.cotrans

end

end StrictWeakOrder
