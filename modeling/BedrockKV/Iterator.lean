/-
# `BedrockKV.Iterator` — the k-way merge

A child iterator is the list of entries it has still to show.
`MergingIterator` keeps the children in order, and after every move looks for
the child with the smallest current key by a linear scan, a later child
winning only when strictly less: the library's merge, at internal-key order.
`merge` is what a full walk shows:

    a permutation of the children's entries            (`perm_merge`)
    in internal-key order, weakly                      (`merge_sorted`)
    strictly, when no internal key occurs twice        (`merge_increasing`)
-/
import BedrockKV.Lib.Merge
import BedrockKV.Sources

namespace BedrockKV

open MultiVersion

/-- The comparison of `FindSmallest`: internal-key order. -/
def entryLess (a b : Entry) : Bool := decide (a.internalKey.less b.internalKey)

/-- What a full walk of the `MergingIterator` over these children shows: `Merge.findSmallest`
is `FindSmallest`, `Merge.advance` is `Next`. -/
def merge (children : List (List Entry)) : List Entry :=
  (Merge.merge entryLess children).map Prod.snd

theorem entryLess_weakOrder : StrictWeakOrder entryLess where
  irrefl a := decide_eq_false (InternalKey.less_irrefl _)
  trans hab hbc :=
    decide_eq_true (InternalKey.less_trans (of_decide_eq_true hab) (of_decide_eq_true hbc))
  cotrans {a b c} hac := by
    by_cases hbc : b.internalKey.less c.internalKey
    · exact .inr (decide_eq_true hbc)
    · exact .inl (decide_eq_true (InternalKey.less_of_less_of_not_less (of_decide_eq_true hac) hbc))

/-! ## A full walk -/

theorem perm_merge (children : List (List Entry)) : (merge children).Perm children.flatten := by
  rw [← Merge.map_snd_taggedFrom 0]
  exact (Merge.merge_perm entryLess_weakOrder children).map Prod.snd

theorem mem_merge {children : List (List Entry)} {e : Entry} :
    e ∈ merge children ↔ ∃ c ∈ children, e ∈ c := by
  rw [(perm_merge children).mem_iff, List.mem_flatten]

theorem merge_sorted {children : List (List Entry)} (h : ∀ c ∈ children, Increasing c) :
    (merge children).Pairwise fun a b => ¬ b.internalKey.less a.internalKey := by
  have hsorted : ∀ c ∈ children, c.Pairwise fun a b => entryLess a b = true :=
    fun c hc => (h c hc).imp fun hab => decide_eq_true hab
  rw [merge, List.pairwise_map]
  refine (Merge.merge_pairwise entryLess_weakOrder hsorted).imp ?_
  rintro x y (hxy | ⟨hyx, -⟩)
  · exact InternalKey.less_asymm (of_decide_eq_true hxy)
  · exact of_decide_eq_false hyx

theorem merge_increasing {children : List (List Entry)} (h : ∀ c ∈ children, Increasing c)
    (hd : children.flatten.Pairwise fun a b => a.internalKey ≠ b.internalKey) :
    Increasing (merge children) := by
  have hne : (merge children).Pairwise fun a b => a.internalKey ≠ b.internalKey :=
    (perm_merge children).symm.pairwise hd fun hab => hab.symm
  refine ((merge_sorted h).and hne).imp ?_
  rintro a b ⟨hle, hne⟩
  by_contra hlt
  exact hne (InternalKey.eq_of_not_less hlt hle)

end BedrockKV
