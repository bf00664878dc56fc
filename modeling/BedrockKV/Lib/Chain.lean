/-
# `BedrockKV.Lib.Chain` — singly linked lists

Nodes are known by their names, and `next` is what their pointers hold.
`Links next x ys` says that the pointers lead from `x` through `ys` to null.  A
write to one pointer keeps every chain that does not pass through it
(`Links.congr`), and the two writes that splice a node in, its own pointer and
its predecessor's, add it to the chain at that place (`Links.insert`).
-/
import Mathlib

namespace Chain

open List

variable {ν : Type*} {next next' : ν → Option ν}

/-- From `x` the pointers lead through `ys` to null. -/
def Links (next : ν → Option ν) : ν → List ν → Prop
  | x, [] => next x = none
  | x, y :: ys => next x = some y ∧ Links next y ys

/-- Follow the pointers, `fuel` of them at most. -/
def walk (next : ν → Option ν) : Nat → Option ν → List ν
  | 0, _ => []
  | _ + 1, none => []
  | fuel + 1, some x => x :: walk next fuel (next x)

theorem Links.head? : ∀ {x : ν} {ys : List ν}, Links next x ys → next x = ys.head?
  | _, [], h => h
  | _, _ :: _, h => h.1

theorem Links.walk {fuel : Nat} : ∀ {x : ν} {ys : List ν}, Links next x ys → ys.length ≤ fuel →
    Chain.walk next fuel (next x) = ys := by
  induction fuel with
  | zero =>
    intro x ys _ hlen
    rw [Chain.walk, length_eq_zero_iff.mp (Nat.le_zero.mp hlen)]
  | succ fuel ih =>
    intro x ys h hlen
    cases ys with
    | nil =>
      rw [show next x = none from h]
      rfl
    | cons y ys => rw [h.1, Chain.walk, ih h.2 (Nat.le_of_succ_le_succ hlen)]

theorem Links.congr : ∀ {x : ν} {ys : List ν}, Links next x ys →
    (∀ z ∈ x :: ys, next' z = next z) → Links next' x ys
  | x, [], h, heq => (heq x mem_cons_self).trans h
  | x, _ :: _, h, heq =>
    ⟨(heq x mem_cons_self).trans h.1, h.2.congr fun z hz => heq z (mem_cons_of_mem _ hz)⟩

theorem Links.rest {ys : List ν} : ∀ {x : ν} {pre : List ν}, Links next x (pre ++ ys) →
    Links next (pre.getLastD x) ys
  | _, [], h => h
  | _, _ :: _, h => by
      rw [getLastD_cons]
      exact h.2.rest

/-- **Splicing a node in** behind the last node of `pre`. -/
theorem Links.insert {n : ν} {post : List ν} : ∀ {x : ν} {pre : List ν},
    Links next x (pre ++ post) → (x :: (pre ++ post)).Nodup → n ∉ x :: (pre ++ post) →
    next' (pre.getLastD x) = some n → next' n = next (pre.getLastD x) →
    (∀ z, z ≠ pre.getLastD x → z ≠ n → next' z = next z) → Links next' x (pre ++ n :: post)
  | x, [], h, hnodup, hn, hlast, hnext, hother => by
      have hne : ∀ z ∈ post, z ≠ x ∧ z ≠ n := by
        intro z hz
        refine ⟨fun heq => (nodup_cons.mp hnodup).1 (heq ▸ hz), fun heq => hn ?_⟩
        exact heq ▸ mem_cons_of_mem _ hz
      refine ⟨hlast, ?_⟩
      cases post with
      | nil => exact hnext.trans h
      | cons y ys =>
        refine ⟨hnext.trans h.1, h.2.congr fun z hz => ?_⟩
        exact hother z (hne z hz).1 (hne z hz).2
  | x, a :: pre, h, hnodup, hn, hlast, hnext, hother => by
      rw [getLastD_cons] at hlast hnext hother
      have hx : x ≠ pre.getLastD a := by
        intro heq
        have hlast : pre.getLastD a ∈ a :: pre := getLastD_mem_cons
        exact (nodup_cons.mp hnodup).1 (heq ▸ mem_append_left post hlast)
      have hxn : x ≠ n := fun heq => hn (heq ▸ mem_cons_self)
      refine ⟨(hother x hx hxn).trans h.1, ?_⟩
      exact h.2.insert (nodup_cons.mp hnodup).2 (fun hmem => hn (mem_cons_of_mem _ hmem))
        hlast hnext hother

end Chain
