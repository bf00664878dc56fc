/-
# `BedrockKV.Lib.Chunks` — an ordered list in pieces, found by their last elements

A list in which a property holds up to some place and not after it
(`Upto p xs`) is cut into pieces that are not empty.  To find where the
property ends it is enough to look at the last element of each piece, and then
into one piece:

    (all of them).dropWhile p = c.dropWhile p ++ (all after c)

for the first piece `c` whose last element does not have the property
(`dropWhile_flatMap`).  `lowerBound` is `std::lower_bound` on such a list.
-/
import Mathlib

namespace Chunks

open List

variable {α β : Type}

/-- Where `p` holds of an element it holds of all before it. -/
def Upto (p : α → Bool) (xs : List α) : Prop := xs.Pairwise fun a b => p b = true → p a = true

/-- The first position whose element does not have `p`. -/
def lowerBound (p : α → Bool) (xs : List α) : Nat := xs.findIdx fun x => !p x

theorem lowerBound_eq (p : α → Bool) (xs : List α) :
    lowerBound p xs = (xs.takeWhile p).length := by
  induction xs with
  | nil => rfl
  | cons x xs ih =>
    simp only [lowerBound] at ih
    rw [lowerBound, findIdx_cons, takeWhile_cons]
    cases hx : p x with
    | true => simp [ih]
    | false => rfl

theorem lowerBound_map (p : β → Bool) (f : α → β) (xs : List α) :
    lowerBound p (xs.map f) = (xs.takeWhile fun x => p (f x)).length := by
  rw [lowerBound_eq, takeWhile_map, length_map]
  rfl

theorem drop_length_takeWhile (p : α → Bool) (xs : List α) :
    xs.drop (xs.takeWhile p).length = xs.dropWhile p := by
  have h := @drop_left _ (xs.takeWhile p) (xs.dropWhile p)
  rwa [takeWhile_append_dropWhile] at h

variable {p : α → Bool} {xs ys : List α}

theorem upto_append (h : Upto p (xs ++ ys)) : Upto p xs ∧ Upto p ys :=
  ⟨(pairwise_append.mp h).1, (pairwise_append.mp h).2.1⟩

theorem Upto.all {x : α} (h : Upto p xs) (hlast : xs.getLast? = some x) (hx : p x = true) :
    ∀ y ∈ xs, p y = true := by
  obtain ⟨ys, rfl⟩ := getLast?_eq_some_iff.mp hlast
  intro y hy
  rcases mem_append.mp hy with hy | hy
  · exact (pairwise_append.mp h).2.2 y hy x mem_cons_self hx
  · rw [mem_singleton.mp hy]
    exact hx

theorem dropWhile_append_of_all (h : ∀ x ∈ xs, p x = true) :
    (xs ++ ys).dropWhile p = ys.dropWhile p := by
  induction xs with
  | nil => rfl
  | cons x xs ih =>
    obtain ⟨hx, hxs⟩ := forall_mem_cons.mp h
    rw [cons_append, dropWhile_cons_of_pos hx, ih hxs]

theorem dropWhile_append_of_exists (h : ∃ x ∈ xs, p x = false) :
    (xs ++ ys).dropWhile p = xs.dropWhile p ++ ys := by
  induction xs with
  | nil =>
    obtain ⟨x, hx, -⟩ := h
    cases hx
  | cons x xs ih =>
    cases hx : p x with
    | true =>
      have h' : ∃ y ∈ xs, p y = false := by
        obtain ⟨y, hy, hpy⟩ := h
        rcases mem_cons.mp hy with rfl | hy
        · rw [hx] at hpy
          cases hpy
        · exact ⟨y, hy, hpy⟩
      rw [cons_append, dropWhile_cons_of_pos hx, dropWhile_cons_of_pos hx, ih h']
    | false => simp [hx]

section Pieces

variable {p : α → Bool} {f : β → List α} {q : β → Bool} {cs : List β}

theorem dropWhile_flatMap_of_all (hlast : ∀ c ∈ cs, ∃ x, (f c).getLast? = some x ∧ q c = p x)
    (h : Upto p (cs.flatMap f)) (hall : cs.dropWhile q = []) : (cs.flatMap f).dropWhile p = [] := by
  have hcs := dropWhile_eq_nil_iff.mp hall
  rw [dropWhile_eq_nil_iff]
  intro x hx
  obtain ⟨c, hc, hxc⟩ := mem_flatMap.mp hx
  obtain ⟨y, hy, hq⟩ := hlast c hc
  have hupto : Upto p (f c) := h.sublist (sublist_flatten_of_mem (mem_map_of_mem hc))
  exact hupto.all hy (hq ▸ hcs c hc) x hxc

/-- **One piece is enough**: nothing before the first piece whose last element lacks the
property, and everything after it. -/
theorem dropWhile_flatMap {c : β} {after : List β}
    (hlast : ∀ c ∈ cs, ∃ x, (f c).getLast? = some x ∧ q c = p x) (h : Upto p (cs.flatMap f))
    (hc : cs.dropWhile q = c :: after) :
    (cs.flatMap f).dropWhile p = (f c).dropWhile p ++ after.flatMap f ∧ (f c).dropWhile p ≠ [] := by
  induction cs with
  | nil => cases hc
  | cons c₀ cs ih =>
    obtain ⟨⟨y, hy, hq⟩, hcs⟩ := forall_mem_cons.mp hlast
    rw [flatMap_cons] at h ⊢
    obtain ⟨hhead, htail⟩ := upto_append h
    cases hp : q c₀ with
    | true =>
      rw [dropWhile_cons, if_pos hp] at hc
      rw [dropWhile_append_of_all (hhead.all hy (hq ▸ hp))]
      exact ih hcs htail hc
    | false =>
      rw [dropWhile_cons, if_neg (Bool.eq_false_iff.mp hp)] at hc
      obtain ⟨rfl, rfl⟩ := List.cons.inj hc
      have hex : ∃ x ∈ f c₀, p x = false := ⟨y, mem_of_getLast? hy, hq ▸ hp⟩
      refine ⟨dropWhile_append_of_exists hex, fun hnil => ?_⟩
      obtain ⟨x, hx, hpx⟩ := hex
      exact Bool.eq_false_iff.mp hpx (dropWhile_eq_nil_iff.mp hnil x hx)

end Pieces

/-- What the property does not hold of comes last, so that leaving out a beginning is
leaving out all that have it. -/
theorem Upto.dropWhile_eq_filter (h : Upto p xs) : xs.dropWhile p = xs.filter fun x => !p x := by
  induction xs with
  | nil => rfl
  | cons x xs ih =>
    obtain ⟨hx, hxs⟩ := pairwise_cons.mp h
    rw [dropWhile_cons, filter_cons]
    cases hp : p x with
    | true => exact ih hxs
    | false =>
      have hrest : ∀ y ∈ xs, (!p y) = true := by
        intro y hy
        cases hpy : p y with
        | true => exact absurd (hx y hy hpy) (Bool.eq_false_iff.mp hp)
        | false => rfl
      rw [filter_eq_self.mpr hrest]
      rfl

theorem dropWhile_congr {q : α → Bool} (h : ∀ x ∈ xs, p x = q x) :
    xs.dropWhile p = xs.dropWhile q := by
  induction xs with
  | nil => rfl
  | cons x xs ih =>
    obtain ⟨hx, hxs⟩ := forall_mem_cons.mp h
    rw [dropWhile_cons, dropWhile_cons, hx, ih hxs]

theorem getElem?_takeWhile (p : α → Bool) (xs : List α) :
    xs[(xs.takeWhile p).length]? = (xs.dropWhile p).head? := by
  rw [← drop_length_takeWhile, head?_drop]

theorem getElem?_of_forall₂ {R : α → β → Prop} {ys : List β} (h : List.Forall₂ R xs ys) :
    ∀ i : Nat, (xs[i]? = none ∧ ys[i]? = none) ∨
      ∃ x y, xs[i]? = some x ∧ ys[i]? = some y ∧ R x y := by
  induction h with
  | nil => exact fun _ => .inl ⟨rfl, rfl⟩
  | cons hxy _ ih =>
    intro i
    cases i with
    | zero => exact .inr ⟨_, _, rfl, rfl, hxy⟩
    | succ i => exact ih i

end Chunks
