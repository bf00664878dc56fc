/-
# `BedrockKV.Merging` — the merging iterator, move by move

`MergingIterator` of `iterator.h` over children that keep the contract of the
interface: each shows a frozen, strictly increasing sequence of internal keys.
`SeekToFirst` and `Seek` move all children, `Next` only the current one, and
after every move the smallest child is looked for again.

`merging_yields` says what a walk shows.  Every entry is reported with the
number of the child it comes from, which is what `current_` points at; so the
order of equal keys is part of the statement.  A scan and a compaction walk
encoded pairs with it; `merge_pairs` of `BedrockKV.LsmBytes` takes that walk to
the merge of the versions, by `Merge.merge_map`.
-/
import BedrockKV.Lib.Loop
import BedrockKV.Lib.Merge
import BedrockKV.SstBuild

namespace BedrockKV

open List Chunks Loop Merge

theorem internalKeyLess_weakOrder : StrictWeakOrder internalKeyLess where
  irrefl a := by
    rw [← Bool.not_eq_true, Sst.internalKeyLess_iff]
    exact InternalKey.less_irrefl _
  trans := by
    simp only [Sst.internalKeyLess_iff]
    exact InternalKey.less_trans
  cotrans {a b c} := by
    simp only [Sst.internalKeyLess_iff]
    intro hac
    by_cases hbc : (Sst.parsedKey b).less (Sst.parsedKey c)
    · exact .inr hbc
    · exact .inl (InternalKey.less_of_less_of_not_less hac hbc)

/-- The comparator, on keys with their values. -/
def pairLess (a b : Bytes × Bytes) : Bool := internalKeyLess a.1 b.1

theorem pairLess_weakOrder : StrictWeakOrder pairLess := internalKeyLess_weakOrder.comap Prod.fst

/-- An `Iterator` that keeps its contract: what it shows from `SeekToFirst` on, and what it has
still to show from where it is. -/
structure SortedIterator where
  entries : List (Bytes × Bytes)
  increasing : entries.Pairwise fun a b => pairLess a b = true
  rest : List (Bytes × Bytes)

namespace SortedIterator

def seekToFirst (c : SortedIterator) : SortedIterator := { c with rest := c.entries }

/-- On the first entry that is not less than the target. -/
def seek (target : Bytes) (c : SortedIterator) : SortedIterator :=
  { c with rest := c.entries.dropWhile fun kv => internalKeyLess kv.1 target }

def next (c : SortedIterator) : SortedIterator := { c with rest := c.rest.tail }

/-- The entries from the target on. -/
def entriesFrom (target : Bytes) (c : SortedIterator) : List (Bytes × Bytes) :=
  c.entries.filter fun kv => !internalKeyLess kv.1 target

theorem seek_rest (target : Bytes) (c : SortedIterator) :
    (c.seek target).rest = c.entriesFrom target := by
  have hupto : Upto (fun kv : Bytes × Bytes => internalKeyLess kv.1 target) c.entries :=
    c.increasing.imp fun hab hb => internalKeyLess_weakOrder.trans hab hb
  exact hupto.dropWhile_eq_filter

end SortedIterator

/-- `current_` is the number of a child. -/
structure MergingIterator where
  children : List SortedIterator
  current : Option Nat

namespace MergingIterator

def rests (it : MergingIterator) : List (List (Bytes × Bytes)) :=
  it.children.map SortedIterator.rest

def valid (it : MergingIterator) : Bool := it.current.isSome

def findSmallest (it : MergingIterator) : MergingIterator :=
  { it with current := (Merge.findSmallest pairLess it.rests).map Prod.fst }

def seekToFirst (it : MergingIterator) : MergingIterator :=
  findSmallest { it with children := it.children.map SortedIterator.seekToFirst }

def seek (it : MergingIterator) (target : Bytes) : MergingIterator :=
  findSmallest { it with children := it.children.map (SortedIterator.seek target) }

def next (it : MergingIterator) : MergingIterator :=
  match it.current with
  | none => it.findSmallest
  | some i => findSmallest { it with children := it.children.modify i SortedIterator.next }

/-- The current child's number, with `key()` and `value()`. -/
def shows (it : MergingIterator) : Option (Nat × (Bytes × Bytes)) :=
  it.current.bind fun i => (it.rests[i]?.bind List.head?).map (Prod.mk i)

/-- One round of a walk. -/
def walkRound : List (Nat × (Bytes × Bytes)) × MergingIterator →
    List (Nat × (Bytes × Bytes)) ⊕ (List (Nat × (Bytes × Bytes)) × MergingIterator)
  | (shown, it) =>
    if it.valid then .inr (shown ++ it.shows.toList, it.next) else .inl shown

/-- A walk from here until `Valid()` fails shows these entries. -/
def Yields (it : MergingIterator) (kvs : List (Nat × (Bytes × Bytes))) : Prop :=
  Returns walkRound ([], it) kvs

/-! ## A walk is a merge -/

variable {it : MergingIterator}

/-- The iterator has looked for the smallest child. -/
def Settled (it : MergingIterator) : Prop :=
  it.current = (Merge.findSmallest pairLess it.rests).map Prod.fst

theorem shows_of_settled (h : it.Settled) : it.shows = Merge.findSmallest pairLess it.rests := by
  rw [shows, h]
  cases hs : Merge.findSmallest pairLess it.rests with
  | none => rfl
  | some r =>
    obtain ⟨⟨rest, hget⟩, -⟩ := findSmallest_spec pairLess_weakOrder hs
    change (it.rests[r.1]?.bind List.head?).map (Prod.mk r.1) = some r
    rw [hget]
    rfl

theorem next_of_settled (h : it.Settled) {i : Nat} {e : Bytes × Bytes}
    (hs : Merge.findSmallest pairLess it.rests = some (i, e)) :
    it.next.Settled ∧ it.next.rests = Merge.advance it.rests i := by
  have hcur : it.current = some i := by rw [h, hs]; rfl
  rw [next, hcur]
  refine ⟨rfl, ?_⟩
  change (it.children.modify i SortedIterator.next).map SortedIterator.rest =
    (it.children.map SortedIterator.rest).modify i List.tail
  refine ext_getElem? fun j => ?_
  rw [getElem?_map, getElem?_modify, getElem?_modify, getElem?_map]
  cases it.children[j]? with
  | none => rfl
  | some c => by_cases hij : i = j <;> simp [hij, SortedIterator.next]

theorem returns_drain (fuel : Nat) : ∀ {it : MergingIterator}
    (shown : List (Nat × (Bytes × Bytes))),
    it.Settled → it.rests.flatten.length ≤ fuel →
      Returns walkRound (shown, it) (shown ++ Merge.drain pairLess fuel it.rests) := by
  -- a settled iterator without a current child has nothing left to show
  have hdone : ∀ {it : MergingIterator} (shown : List (Nat × (Bytes × Bytes))), it.Settled →
      Merge.findSmallest pairLess it.rests = none → Returns walkRound (shown, it) shown := by
    intro it shown h hs
    refine .done ?_
    have hcur : it.current = none := by rw [h, hs]; rfl
    rw [walkRound, valid, hcur]
    rfl
  induction fuel with
  | zero =>
    intro it shown h hfuel
    rw [Merge.drain, append_nil]
    refine hdone shown h (findSmallest_eq_none.mpr (flatten_eq_nil_iff.mp ?_))
    exact length_eq_zero_iff.mp (Nat.le_zero.mp hfuel)
  | succ fuel ih =>
    intro it shown h hfuel
    cases hs : Merge.findSmallest pairLess it.rests with
    | none =>
      simp only [Merge.drain, hs, append_nil]
      exact hdone shown h hs
    | some r =>
      obtain ⟨i, e⟩ := r
      obtain ⟨⟨rest, hget⟩, -⟩ := findSmallest_spec pairLess_weakOrder hs
      have hlen := length_advance hget
      obtain ⟨hnext, hrests⟩ := next_of_settled h hs
      have hround : walkRound (shown, it) = .inr (shown ++ [(i, e)], it.next) := by
        have hcur : it.current = some i := by rw [h, hs]; rfl
        rw [walkRound, valid, hcur, shows_of_settled h, hs]
        rfl
      have hrun := ih (shown ++ [(i, e)]) hnext (by rw [hrests]; omega)
      simp only [Merge.drain, hs]
      rw [hrests, append_assoc] at hrun
      exact .next hround hrun

theorem yields_merge (h : it.Settled) : it.Yields (Merge.merge pairLess it.rests) := by
  have hrun := returns_drain _ [] h le_rfl
  rwa [nil_append] at hrun

theorem rests_seekToFirst (it : MergingIterator) :
    it.seekToFirst.rests = it.children.map SortedIterator.entries := by
  change (it.children.map SortedIterator.seekToFirst).map SortedIterator.rest = _
  rw [map_map]
  rfl

theorem rests_seek (it : MergingIterator) (target : Bytes) :
    (it.seek target).rests = it.children.map (SortedIterator.entriesFrom target) := by
  change (it.children.map (SortedIterator.seek target)).map SortedIterator.rest = _
  rw [map_map]
  exact map_congr_left fun c _ => c.seek_rest target

/-- What a walk over the children's `lists` has to show. -/
def Merges (shown : List (Nat × (Bytes × Bytes))) (lists : List (List (Bytes × Bytes))) : Prop :=
  shown.Perm (taggedFrom 0 lists) ∧ shown.Pairwise (Before pairLess)

/-- **A walk shows the children's entries**, each once, in order, those of equal keys in the order
of the children: all of them after `SeekToFirst`, those from the target on after `Seek`. -/
theorem merging_yields (it : MergingIterator) :
    (∃ shown, it.seekToFirst.Yields shown ∧
      Merges shown (it.children.map SortedIterator.entries)) ∧
    ∀ target, ∃ shown, (it.seek target).Yields shown ∧
      Merges shown (it.children.map (SortedIterator.entriesFrom target)) := by
  refine ⟨⟨_, yields_merge rfl, ?_⟩, fun target => ⟨_, yields_merge rfl, ?_⟩⟩
  · rw [rests_seekToFirst]
    refine ⟨merge_perm pairLess_weakOrder _, merge_pairwise pairLess_weakOrder fun c hc => ?_⟩
    obtain ⟨d, -, rfl⟩ := List.mem_map.mp hc
    exact d.increasing
  · rw [rests_seek]
    refine ⟨merge_perm pairLess_weakOrder _, merge_pairwise pairLess_weakOrder fun c hc => ?_⟩
    obtain ⟨d, -, rfl⟩ := List.mem_map.mp hc
    exact d.increasing.filter _

end MergingIterator

end BedrockKV
