/-
# `BedrockKV.Lib.Extent` — writes at explicit offsets, and their order

A file is a list.  `writeAt` overwrites and extends, and a gap that it leaves
reads as `z`.  A `Dir` maps names to files; an `Extent` is a write to one of
them, and `pwrite` carries it out.

    ext_getD         a file is its length and what each position reads as
    pwrite_comm      writes that do not overlap commute
    settle_early     of pairwise disjoint pending writes, any may be done first
    writeAt_length   a write at the end appends

`settle` is what a directory comes to when every pending write is carried out
in order; `settle_early` says that it does not change when the writes are
carried out one by one in any order.
-/
import Mathlib

namespace Extents

open List

variable {α κ : Type*}

/-- A file with a gap at the end, so that it reaches `n`. -/
def padded (z : α) (f : List α) (n : Nat) : List α := f ++ List.replicate (n - f.length) z

/-- Overwrite from `offset` on.  Writing nothing does not extend the file. -/
def writeAt (z : α) (f : List α) (offset : Nat) (data : List α) : List α :=
  if data.isEmpty then f
  else (padded z f offset).take offset ++ data ++ f.drop (offset + data.length)

theorem ext_getD {z : α} {f g : List α} (hlen : f.length = g.length)
    (h : ∀ i, f.getD i z = g.getD i z) : f = g := by
  refine ext_getElem hlen fun i hi hi' => ?_
  have := h i
  rwa [getD_eq_getElem _ _ hi, getD_eq_getElem _ _ hi'] at this

theorem length_writeAt (z : α) (f : List α) (offset : Nat) {data : List α} (h : data ≠ []) :
    (writeAt z f offset data).length = max f.length (offset + data.length) := by
  have hne : data.isEmpty = false := by simpa using h
  simp only [writeAt, hne, padded, length_append, length_take, length_replicate,
    length_drop, Bool.false_eq_true, if_false]
  omega

theorem getD_padded (z : α) (f : List α) (n i : Nat) : (padded z f n).getD i z = f.getD i z := by
  simp only [padded, getD_eq_getElem?_getD, getElem?_append, getElem?_replicate]
  by_cases hi : i < f.length
  · rw [if_pos hi]
  · rw [if_neg hi, getElem?_eq_none (Nat.le_of_not_lt hi)]
    split <;> rfl

theorem getD_writeAt (z : α) (f : List α) (offset : Nat) (data : List α) (i : Nat) :
    (writeAt z f offset data).getD i z =
      if offset ≤ i ∧ i < offset + data.length then data.getD (i - offset) z else f.getD i z := by
  cases data with
  | nil => simp [writeAt, show ¬ (offset ≤ i ∧ i < offset) by omega]
  | cons b data =>
    have hpad : ((padded z f offset).take offset).length = offset := by
      simp only [padded, length_take, length_append, length_replicate]
      omega
    simp only [writeAt, isEmpty_cons, Bool.false_eq_true, if_false, append_assoc,
      getD_eq_getElem?_getD, getElem?_append, hpad, getElem?_drop]
    by_cases hlt : i < offset
    · rw [if_pos hlt, if_neg (by omega), getElem?_take, if_pos hlt,
        ← getD_eq_getElem?_getD, getD_padded, getD_eq_getElem?_getD]
    · rw [if_neg hlt]
      by_cases hin : i < offset + (b :: data).length
      · rw [if_pos (by omega), if_pos ⟨by omega, hin⟩]
      · rw [if_neg (by omega), if_neg (by omega)]
        congr 2
        omega

theorem writeAt_length (z : α) (f data : List α) : writeAt z f f.length data = f ++ data := by
  cases data with
  | nil => simp [writeAt]
  | cons b data => simp [writeAt, padded]

theorem writeAt_comm (z : α) (f : List α) {o o' : Nat} {d d' : List α}
    (h : o + d.length ≤ o' ∨ o' + d'.length ≤ o) :
    writeAt z (writeAt z f o d) o' d' = writeAt z (writeAt z f o' d') o d := by
  by_cases hd : d = []
  · simp [hd, writeAt]
  · by_cases hd' : d' = []
    · simp [hd', writeAt]
    · refine ext_getD (z := z) ?_ fun i => ?_
      · simp only [length_writeAt z _ _ hd, length_writeAt z _ _ hd']
        omega
      · simp only [getD_writeAt]
        by_cases hi : o ≤ i ∧ i < o + d.length <;> by_cases hi' : o' ≤ i ∧ i < o' + d'.length
        · omega
        · rw [if_neg hi', if_pos hi, if_pos hi]
        · rw [if_pos hi', if_neg hi, if_pos hi']
        · rw [if_neg hi', if_neg hi, if_neg hi, if_neg hi']

/-! ## Directories -/

/-- What each file holds. -/
abbrev Dir (κ α : Type*) := κ → Option (List α)

/-- A write that is to be done. -/
structure Extent (κ α : Type*) where
  file : κ
  offset : Nat
  data : List α

def Extent.last (e : Extent κ α) : Nat := e.offset + e.data.length

/-- Two writes that do not overlap. -/
def Extent.Apart (e e' : Extent κ α) : Prop :=
  e.file = e'.file → e.last ≤ e'.offset ∨ e'.last ≤ e.offset

variable [DecidableEq κ]

def pwrite (z : α) (dir : Dir κ α) (e : Extent κ α) : Dir κ α := fun k =>
  if k = e.file then (dir k).map fun f => writeAt z f e.offset e.data else dir k

/-- The directory when the pending writes have been carried out. -/
def settle (z : α) (dir : Dir κ α) (pending : List (Extent κ α)) : Dir κ α :=
  pending.foldl (pwrite z) dir

variable {z : α} {dir : Dir κ α} {e e' : Extent κ α} {l l' : List (Extent κ α)}

theorem pwrite_comm (h : e.Apart e') :
    pwrite z (pwrite z dir e) e' = pwrite z (pwrite z dir e') e := by
  funext k
  simp only [pwrite]
  by_cases hk : k = e.file <;> by_cases hk' : k = e'.file
  · simp only [if_pos hk, if_pos hk', Option.map_map]
    congr 1
    funext f
    exact writeAt_comm z f (h (hk.symm.trans hk'))
  · simp only [if_pos hk, if_neg hk']
  · simp only [if_neg hk, if_pos hk']
  · simp only [if_neg hk, if_neg hk']

theorem settle_append : settle z dir (l ++ l') = settle z (settle z dir l) l' := foldl_append

/-- Of pending writes, one that overlaps none of the earlier ones may be done first. -/
theorem settle_early (h : ∀ v ∈ l, v.Apart e) :
    settle z (pwrite z dir e) (l ++ l') = settle z dir (l ++ e :: l') := by
  induction l generalizing dir with
  | nil => rfl
  | cons v l ih =>
    obtain ⟨hv, hl⟩ := forall_mem_cons.mp h
    show settle z (pwrite z (pwrite z dir e) v) (l ++ l') = settle z (pwrite z dir v) (l ++ e :: l')
    rw [← pwrite_comm hv]
    exact ih hl

theorem getD_pwrite {k : κ} {f : List α} (hf : dir k = some f) {p : Nat}
    (hp : k = e.file → p < e.offset ∨ e.last ≤ p) :
    ∃ f', pwrite z dir e k = some f' ∧ f'.getD p z = f.getD p z := by
  by_cases hk : k = e.file
  · refine ⟨writeAt z f e.offset e.data, by rw [pwrite, if_pos hk, hf]; rfl, ?_⟩
    have := hp hk
    rw [getD_writeAt, if_neg (by rw [Extent.last] at this; omega)]
  · exact ⟨f, by rw [pwrite, if_neg hk, hf], rfl⟩

end Extents
