/-
# `BedrockKV.Lib.Keyed` — finite maps as lists of pairs, in insertion order

A directory of files, looked up by key and listed in the order the keys were
added.  `get?` finds the first pair of a key; `modify`, `erase` and `set`
change one key.  The first group of lemmas says what `get?` returns after
each; the second what each does to a list whose last key is the one changed,
which is how a file that is appended to stands in its directory.
-/
import Mathlib

namespace Keyed

open List

variable {κ α : Type*} [DecidableEq κ]

def keys (m : List (κ × α)) : List κ := m.map Prod.fst

def get? (m : List (κ × α)) (k : κ) : Option α :=
  (m.find? fun p => decide (p.1 = k)).map Prod.snd

def modify (m : List (κ × α)) (k : κ) (f : α → α) : List (κ × α) :=
  m.map fun p => if p.1 = k then (p.1, f p.2) else p

def erase (m : List (κ × α)) (k : κ) : List (κ × α) := m.filter fun p => decide (p.1 ≠ k)

def set (m : List (κ × α)) (k : κ) (a : α) : List (κ × α) := erase m k ++ [(k, a)]

variable {m : List (κ × α)} {k j : κ} {a : α} {f : α → α}

@[simp] theorem get?_nil : get? ([] : List (κ × α)) k = none := rfl

theorem get?_cons (p : κ × α) (m : List (κ × α)) :
    get? (p :: m) k = if p.1 = k then some p.2 else get? m k := by
  by_cases h : p.1 = k <;> simp [get?, h]

theorem get?_eq_none : get? m k = none ↔ k ∉ keys m := by
  induction m with
  | nil => simp [keys]
  | cons p m ih =>
    rw [get?_cons]
    by_cases h : p.1 = k
    · simp [h, keys]
    · rw [if_neg h, ih]
      simp [keys, Ne.symm h]

theorem mem_of_get? (h : get? m k = some a) : (k, a) ∈ m := by
  induction m with
  | nil => simp at h
  | cons p m ih =>
    rw [get?_cons] at h
    split at h
    · next hp =>
      obtain rfl : p.2 = a := Option.some.inj h
      exact mem_cons.mpr (.inl (by rw [← hp]))
    · exact mem_cons_of_mem _ (ih h)

theorem get?_of_mem (hnd : (keys m).Nodup) (h : (k, a) ∈ m) : get? m k = some a := by
  induction m with
  | nil => cases h
  | cons p m ih =>
    obtain ⟨hp, hm⟩ := nodup_cons.mp hnd
    rw [get?_cons]
    rcases mem_cons.mp h with rfl | h
    · simp
    · rw [if_neg, ih hm h]
      rintro rfl
      exact hp (mem_map.mpr ⟨_, h, rfl⟩)

theorem get?_append (m m' : List (κ × α)) : get? (m ++ m') k = (get? m k).or (get? m' k) := by
  induction m with
  | nil => simp
  | cons p m ih =>
    rw [cons_append, get?_cons, get?_cons, ih]
    split <;> simp

theorem get?_modify (m : List (κ × α)) (k j : κ) (f : α → α) :
    get? (modify m k f) j = if j = k then (get? m j).map f else get? m j := by
  induction m with
  | nil => simp [modify]
  | cons p m ih =>
    have hcons : modify (p :: m) k f = (if p.1 = k then (p.1, f p.2) else p) :: modify m k f := rfl
    rw [hcons, get?_cons, get?_cons, ih]
    by_cases hp : p.1 = k <;> by_cases hj : p.1 = j <;> by_cases hjk : j = k <;> simp_all

theorem get?_erase (m : List (κ × α)) (k j : κ) :
    get? (erase m k) j = if j = k then none else get? m j := by
  induction m with
  | nil => simp [erase]
  | cons p m ih =>
    by_cases hp : p.1 = k
    · have hcons : erase (p :: m) k = erase m k := by simp [erase, hp]
      rw [hcons, ih, get?_cons]
      by_cases hj : j = k
      · simp [hj]
      · rw [if_neg hj, if_neg hj, if_neg (fun h => hj (h.symm.trans hp))]
    · have hcons : erase (p :: m) k = p :: erase m k := by simp [erase, hp]
      rw [hcons, get?_cons, get?_cons, ih]
      by_cases hj : j = k
      · simp [hj, hp]
      · simp [hj]

theorem get?_set (m : List (κ × α)) (k j : κ) (a : α) :
    get? (set m k a) j = if j = k then some a else get? m j := by
  rw [set, get?_append, get?_erase, get?_cons]
  by_cases hj : j = k
  · simp [hj]
  · simp [hj, Ne.symm hj]

theorem get?_map {β : Type*} (m : List (κ × α)) (g : κ → α → β) :
    get? (m.map fun p => (p.1, g p.1 p.2)) k = (get? m k).map (g k) := by
  induction m with
  | nil => rfl
  | cons p m ih =>
    rw [map_cons, get?_cons, get?_cons, ih]
    by_cases h : p.1 = k
    · simp [h]
    · simp [h]

theorem get?_filter (m : List (κ × α)) (q : κ → Bool) :
    get? (m.filter fun p => q p.1) k = if q k then get? m k else none := by
  induction m with
  | nil => simp
  | cons p m ih =>
    rw [get?_cons]
    by_cases hp : p.1 = k
    · subst hp
      by_cases hq : q p.1 = true
      · simp [hq, get?_cons]
      · simp [hq, ih]
    · by_cases hq : q p.1 = true
      · simp [hq, hp, get?_cons, ih]
      · simp [hq, hp, ih]

/-! ## Members -/

theorem mem_modify {p : κ × α} :
    p ∈ modify m k f ↔ ∃ a, (p.1, a) ∈ m ∧ p.2 = if p.1 = k then f a else a := by
  obtain ⟨j, b⟩ := p
  simp only [modify, mem_map, Prod.exists]
  constructor
  · rintro ⟨i, a, hmem, heq⟩
    split at heq
    · next hi =>
      obtain ⟨rfl, rfl⟩ := Prod.mk.inj heq
      exact ⟨a, hmem, (if_pos hi).symm⟩
    · next hi =>
      obtain ⟨rfl, rfl⟩ := Prod.mk.inj heq
      exact ⟨_, hmem, (if_neg hi).symm⟩
  · rintro ⟨a, hmem, heq⟩
    refine ⟨j, a, hmem, ?_⟩
    split
    · next hi => rw [if_pos hi] at heq; rw [heq]
    · next hi => rw [if_neg hi] at heq; rw [heq]

theorem mem_erase {p : κ × α} : p ∈ erase m k ↔ p ∈ m ∧ p.1 ≠ k := by
  simp [erase]

theorem mem_set {p : κ × α} : p ∈ set m k a ↔ (p ∈ m ∧ p.1 ≠ k) ∨ p = (k, a) := by
  rw [set, mem_append, mem_erase, mem_singleton]

theorem cons_erase_perm (hnd : (keys m).Nodup) (h : get? m k = some a) :
    ((k, a) :: erase m k).Perm m := by
  induction m with
  | nil => cases h
  | cons p m ih =>
    obtain ⟨hp, hm⟩ := nodup_cons.mp hnd
    rw [get?_cons] at h
    by_cases hk : p.1 = k
    · have hrest : erase m k = m := by
        refine filter_eq_self.mpr fun q hq => decide_eq_true fun hqk => hp ?_
        exact mem_map.mpr ⟨q, hq, hqk.trans hk.symm⟩
      rw [if_pos hk] at h
      have hcons : erase (p :: m) k = erase m k := by simp [erase, hk]
      rw [hcons, hrest, ← Option.some.inj h, ← hk]
    · rw [if_neg hk] at h
      have hcons : erase (p :: m) k = p :: erase m k := by simp [erase, hk]
      rw [hcons]
      exact (List.Perm.swap _ _ _).trans ((ih hm h).cons p)

/-! ## Keys -/

omit [DecidableEq κ] in
theorem mem_keys : k ∈ keys m ↔ ∃ a, (k, a) ∈ m := by
  simp [keys]

theorem exists_get? (h : k ∈ keys m) : ∃ a, get? m k = some a := by
  cases hg : get? m k with
  | none => exact absurd h (get?_eq_none.mp hg)
  | some a => exact ⟨a, rfl⟩

@[simp] theorem keys_modify (m : List (κ × α)) (k : κ) (f : α → α) :
    keys (modify m k f) = keys m := by
  rw [keys, keys, modify, map_map]
  refine map_congr_left fun p _ => ?_
  simp only [Function.comp_apply]
  split <;> rfl

theorem keys_erase (m : List (κ × α)) (k : κ) :
    keys (erase m k) = (keys m).filter fun j => decide (j ≠ k) := by
  rw [keys, keys, erase, filter_map]
  rfl

omit [DecidableEq κ] in
@[simp] theorem keys_append (m m' : List (κ × α)) : keys (m ++ m') = keys m ++ keys m' :=
  map_append

section

variable (h : k ∉ keys m)
include h

theorem erase_of_notMem : erase m k = m := by
  refine filter_eq_self.mpr fun p hp => ?_
  have : p.1 ∈ keys m := mem_map.mpr ⟨p, hp, rfl⟩
  exact decide_eq_true fun hk => h (hk ▸ this)

theorem erase_concat : erase (m ++ [(k, a)]) k = m := by
  have : erase (m ++ [(k, a)]) k = erase m k := by simp [erase]
  rw [this, erase_of_notMem h]

theorem set_of_notMem : set m k a = m ++ [(k, a)] := by
  rw [set, erase_of_notMem h]

theorem modify_of_notMem : modify m k f = m := by
  refine (map_congr_left fun p hp => if_neg fun hk => h ?_).trans (map_id m)
  exact hk ▸ mem_map.mpr ⟨p, hp, rfl⟩

theorem modify_concat : modify (m ++ [(k, a)]) k f = m ++ [(k, f a)] := by
  have : modify (m ++ [(k, a)]) k f = modify m k f ++ [(k, f a)] := by simp [modify]
  rw [this, modify_of_notMem h]

theorem get?_concat : get? (m ++ [(k, a)]) k = some a := by
  rw [get?_append, get?_eq_none.mpr h, get?_cons]
  simp

end

end Keyed
