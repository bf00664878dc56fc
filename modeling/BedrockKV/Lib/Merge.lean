/-
# `BedrockKV.Lib.Merge` — the merge of sorted lists by a linear scan

The lists are kept in order.  Each round looks at their heads from the first
list to the last and takes a later one only when it is strictly less than the
best so far; the list it comes from loses its head.  Every element taken is
reported with the number of its list, so that the result says on its own where
equivalent elements come from:

    a permutation of all elements, each with the number of its list    (`merge_perm`)
    in order, and among equivalent elements in the order of the lists  (`merge_pairwise`)

What stands for the elements does not matter, as long as it is in the same order (`merge_map`).
-/
import BedrockKV.Lib.WeakOrder

namespace Merge

open List

variable {α : Type*} (less : α → α → Bool)

/-- One look at a list: the best head so far, with its number. -/
def consider (i : Nat) (current : Option (Nat × α)) (c : List α) : Option (Nat × α) :=
  match c, current with
  | [], _ => current
  | e :: _, none => some (i, e)
  | e :: _, some (j, x) => if less e x then some (i, e) else some (j, x)

def findSmallestFrom (i : Nat) (current : Option (Nat × α)) : List (List α) → Option (Nat × α)
  | [] => current
  | c :: cs => findSmallestFrom (i + 1) (consider less i current c) cs

def findSmallest (lists : List (List α)) : Option (Nat × α) := findSmallestFrom less 0 none lists

def advance (lists : List (List α)) (i : Nat) : List (List α) := lists.modify i List.tail

/-- As many rounds as there is fuel. -/
def drain : Nat → List (List α) → List (Nat × α)
  | 0, _ => []
  | fuel + 1, lists =>
    match findSmallest less lists with
    | none => []
    | some (i, e) => (i, e) :: drain fuel (advance lists i)

def merge (lists : List (List α)) : List (Nat × α) := drain less lists.flatten.length lists

/-- All elements, each with the number of its list. -/
def taggedFrom : Nat → List (List α) → List (Nat × α)
  | _, [] => []
  | i, c :: cs => c.map (Prod.mk i) ++ taggedFrom (i + 1) cs

/-- `x` comes before `y`: it is less, or equivalent and from an earlier list. -/
def Before (x y : Nat × α) : Prop :=
  less x.2 y.2 = true ∨ (less y.2 x.2 = false ∧ x.1 < y.1)

variable {less}

/-! ## Finding the smallest -/

variable {i : Nat} {lists : List (List α)} {e : α}

theorem consider_eq_none {cur : Option (Nat × α)} {c : List α} :
    consider less i cur c = none ↔ cur = none ∧ c = [] := by
  cases c with
  | nil => simp [consider]
  | cons e es =>
    cases cur with
    | none => simp [consider]
    | some x =>
      simp only [consider]
      split <;> simp

/-- The best so far is kept or becomes the head; it comes before the other of the two. -/
theorem consider_spec {cur : Option (Nat × α)} {c : List α} {r : Nat × α}
    (hcur : ∀ x ∈ cur, x.1 < i) (hr : consider less i cur c = some r) :
    (cur = some r ∨ (r.1 = i ∧ ∃ rest, c = r.2 :: rest)) ∧
    (∀ x ∈ cur, x = r ∨ Before less r x) ∧ ∀ e ∈ c.head?, (i, e) = r ∨ Before less r (i, e) := by
  cases c with
  | nil =>
    obtain rfl : cur = some r := hr
    exact ⟨.inl rfl, fun x hx => .inl (Option.some.inj hx).symm, fun e he => by cases he⟩
  | cons e es =>
    cases cur with
    | none =>
      obtain rfl : (i, e) = r := Option.some.inj hr
      refine ⟨.inr ⟨rfl, es, rfl⟩, fun x hx => (by cases hx), fun x hx => .inl ?_⟩
      rw [Option.some.inj hx]
    | some m =>
      simp only [consider] at hr
      split at hr
      · next hlt =>
        obtain rfl : (i, e) = r := Option.some.inj hr
        refine ⟨.inr ⟨rfl, es, rfl⟩, fun x hx => .inr (.inl ?_), fun x hx => .inl ?_⟩
        · rw [← Option.some.inj hx]
          exact hlt
        · rw [Option.some.inj hx]
      · next hge =>
        obtain rfl : m = r := Option.some.inj hr
        refine ⟨.inl rfl, fun x hx => .inl (Option.some.inj hx).symm, fun x hx => ?_⟩
        obtain rfl : e = x := Option.some.inj hx
        exact .inr (.inr ⟨(Bool.not_eq_true _).mp hge, hcur m rfl⟩)

theorem findSmallestFrom_eq_none :
    ∀ {i : Nat} {cur : Option (Nat × α)},
      findSmallestFrom less i cur lists = none ↔ cur = none ∧ ∀ c ∈ lists, c = [] := by
  induction lists with
  | nil => simp [findSmallestFrom]
  | cons c cs ih =>
    intro i cur
    simp only [findSmallestFrom, ih, consider_eq_none, forall_mem_cons, and_assoc]

theorem findSmallest_eq_none : findSmallest less lists = none ↔ ∀ c ∈ lists, c = [] := by
  simp [findSmallest, findSmallestFrom_eq_none]

theorem Before.trans (h : StrictWeakOrder less) {x y z : Nat × α} (hxy : Before less x y)
    (hyz : Before less y z) : Before less x z := by
  rcases hxy with hxy | ⟨hxy, hi⟩
  · rcases hyz with hyz | ⟨hyz, -⟩
    · exact .inl (h.trans hxy hyz)
    · exact .inl (h.less_of_less_of_not_less hxy hyz)
  · rcases hyz with hyz | ⟨hyz, hj⟩
    · exact .inl (h.less_of_not_less_of_less hxy hyz)
    · exact .inr ⟨h.not_less_trans hxy hyz, hi.trans hj⟩

/-- The scan's invariant: the result is what it started from or the head of a list, and it comes
before everything else the scan has seen. -/
theorem findSmallestFrom_spec (h : StrictWeakOrder less) :
    ∀ {i : Nat} {cur : Option (Nat × α)} {r : Nat × α}, (∀ x ∈ cur, x.1 < i) →
      findSmallestFrom less i cur lists = some r →
      (cur = some r ∨ ∃ j rest, r.1 = i + j ∧ lists[j]? = some (r.2 :: rest)) ∧
      (∀ x ∈ cur, x = r ∨ Before less r x) ∧
      ∀ j c, lists[j]? = some c → ∀ e ∈ c.head?, (i + j, e) = r ∨ Before less r (i + j, e) := by
  induction lists with
  | nil =>
    intro i cur r hcur hr
    obtain rfl : cur = some r := hr
    exact ⟨.inl rfl, fun x hx => .inl (Option.some.inj hx).symm, fun j c hc => by simp at hc⟩
  | cons c cs ih =>
    intro i cur r hcur hr
    have hmid : ∀ x ∈ consider less i cur c, x.1 < i + 1 := by
      intro x hx
      rcases (consider_spec hcur hx).1 with hx | ⟨hx, -⟩
      · exact Nat.lt_succ_of_lt (hcur x hx)
      · omega
    obtain ⟨hfrom, hbest, hrest⟩ := ih hmid hr
    have hhead : ∀ e ∈ c.head?, (i, e) = r ∨ Before less r (i, e) := by
      intro e he
      cases hm : consider less i cur c with
      | none =>
        obtain ⟨-, rfl⟩ := consider_eq_none.mp hm
        cases he
      | some m =>
        have hmr := hbest m hm
        rcases (consider_spec hcur hm).2.2 e he with rfl | hme
        · exact hmr
        · rcases hmr with rfl | hmr
          · exact .inr hme
          · exact .inr (hmr.trans h hme)
    refine ⟨?_, ?_, ?_⟩
    · rcases hfrom with hfrom | ⟨j, rest, hj, hget⟩
      · rcases (consider_spec hcur hfrom).1 with hr' | ⟨hi, rest, hc⟩
        · exact .inl hr'
        · exact .inr ⟨0, rest, hi, by rw [hc]; rfl⟩
      · exact .inr ⟨j + 1, rest, by omega, hget⟩
    · intro x hx
      cases hm : consider less i cur c with
      | none =>
        obtain ⟨rfl, -⟩ := consider_eq_none.mp hm
        cases hx
      | some m =>
        have hmr := hbest m hm
        rcases (consider_spec hcur hm).2.1 x hx with rfl | hmx
        · exact hmr
        · rcases hmr with rfl | hmr
          · exact .inr hmx
          · exact .inr (hmr.trans h hmx)
    · intro j d hd e he
      cases j with
      | zero =>
        obtain rfl : c = d := Option.some.inj hd
        exact hhead e he
      | succ j =>
        have hj := hrest j d hd e he
        rwa [Nat.add_right_comm] at hj

theorem findSmallest_spec (h : StrictWeakOrder less) (hs : findSmallest less lists = some (i, e)) :
    (∃ rest, lists[i]? = some (e :: rest)) ∧
    ∀ j c, lists[j]? = some c → ∀ x ∈ c.head?, (j, x) = (i, e) ∨ Before less (i, e) (j, x) := by
  obtain ⟨hfrom, -, hheads⟩ := findSmallestFrom_spec h (by simp) hs
  obtain ⟨j, rest, hj, hget⟩ := hfrom.resolve_left (by simp)
  obtain rfl : i = j := by simpa using hj
  refine ⟨⟨rest, hget⟩, fun j c hc x hx => ?_⟩
  have hx := hheads j c hc x hx
  rwa [Nat.zero_add] at hx

/-! ## All rounds -/

theorem map_snd_taggedFrom (i : Nat) (lists : List (List α)) :
    (taggedFrom i lists).map Prod.snd = lists.flatten := by
  induction lists generalizing i with
  | nil => rfl
  | cons c cs ih =>
    rw [taggedFrom, map_append, map_map, ih, flatten_cons]
    exact congrArg (· ++ cs.flatten) (map_id c)

theorem mem_taggedFrom {x : Nat × α} : ∀ {i : Nat},
    x ∈ taggedFrom i lists ↔ ∃ j c, x.1 = i + j ∧ lists[j]? = some c ∧ x.2 ∈ c := by
  induction lists with
  | nil =>
    intro i
    simp [taggedFrom]
  | cons c cs ih =>
    intro i
    rw [taggedFrom, mem_append, ih]
    constructor
    · rintro (hx | ⟨j, d, hj, hd, hx⟩)
      · obtain ⟨e, he, rfl⟩ := mem_map.mp hx
        exact ⟨0, c, rfl, rfl, he⟩
      · exact ⟨j + 1, d, by omega, hd, hx⟩
    · rintro ⟨j, d, hj, hd, hx⟩
      cases j with
      | zero =>
        obtain rfl : c = d := Option.some.inj hd
        exact .inl (mem_map.mpr ⟨x.2, hx, Prod.ext hj.symm rfl⟩)
      | succ j => exact .inr ⟨j, d, by omega, hd, hx⟩

theorem taggedFrom_perm_advance {rest : List α} :
    ∀ {i k : Nat}, lists[i]? = some (e :: rest) →
      (taggedFrom k lists).Perm ((k + i, e) :: taggedFrom k (advance lists i)) := by
  induction lists with
  | nil =>
    intro i k h
    simp at h
  | cons c cs ih =>
    intro i k h
    cases i with
    | zero =>
      obtain rfl : c = e :: rest := Option.some.inj h
      exact List.Perm.refl _
    | succ i =>
      have hp := ih (k := k + 1) (show cs[i]? = some (e :: rest) from h)
      rw [advance, modify_succ_cons, taggedFrom, taggedFrom, ← advance, ← Nat.add_assoc,
        Nat.add_right_comm]
      exact (List.Perm.append_left _ hp).trans perm_middle

theorem length_advance {rest : List α} (h : lists[i]? = some (e :: rest)) :
    (advance lists i).flatten.length + 1 = lists.flatten.length := by
  have hlen := (taggedFrom_perm_advance (k := 0) h).length_eq
  rw [length_cons, ← length_map Prod.snd, map_snd_taggedFrom,
    ← length_map Prod.snd, map_snd_taggedFrom] at hlen
  exact hlen.symm

theorem advance_pairwise (h : ∀ c ∈ lists, c.Pairwise fun a b => less a b = true) :
    ∀ c ∈ advance lists i, c.Pairwise fun a b => less a b = true := by
  intro c hc
  obtain ⟨j, hj⟩ := mem_iff_getElem?.mp hc
  simp only [advance, getElem?_modify] at hj
  obtain ⟨d, hd, hdc⟩ := Option.map_eq_some_iff.mp hj
  split at hdc
  · obtain rfl := hdc
    exact (h d (mem_of_getElem? hd)).tail
  · obtain rfl := hdc
    exact h d (mem_of_getElem? hd)

section

variable (h : StrictWeakOrder less)
include h

theorem findSmallest_before (hsorted : ∀ c ∈ lists, c.Pairwise fun a b => less a b = true)
    (hs : findSmallest less lists = some (i, e)) :
    ∀ x ∈ taggedFrom 0 (advance lists i), Before less (i, e) x := by
  obtain ⟨⟨rest, hget⟩, hheads⟩ := findSmallest_spec h hs
  rintro ⟨j, x⟩ hx
  obtain ⟨j', c, hj, hc, hxc⟩ := mem_taggedFrom.mp hx
  obtain rfl : j = j' := by simpa using hj
  simp only [advance, getElem?_modify] at hc
  obtain ⟨d, hd, hdc⟩ := Option.map_eq_some_iff.mp hc
  split at hdc
  · next hij =>
    -- its own list, behind its head
    subst hij hdc
    obtain rfl : e :: rest = d := Option.some.inj (hget.symm.trans hd)
    exact .inl ((pairwise_cons.mp (hsorted _ (mem_of_getElem? hd))).1 x hxc)
  · next hij =>
    obtain rfl := hdc
    cases d with
    | nil => cases hxc
    | cons y ys =>
      have hy : Before less (i, e) (j, y) :=
        (hheads j _ hd y rfl).resolve_left fun heq => hij (congrArg Prod.fst heq).symm
      rcases mem_cons.mp hxc with rfl | hxc
      · exact hy
      · have hyx := (pairwise_cons.mp (hsorted _ (mem_of_getElem? hd))).1 x hxc
        rcases hy with hy | ⟨hy, -⟩
        · exact .inl (h.trans hy hyx)
        · exact .inl (h.less_of_not_less_of_less hy hyx)

theorem drain_perm (fuel : Nat) : ∀ {lists : List (List α)},
    lists.flatten.length ≤ fuel → (drain less fuel lists).Perm (taggedFrom 0 lists) := by
  induction fuel with
  | zero =>
    intro lists hfuel
    have hnil : taggedFrom 0 lists = [] := by
      rw [← map_eq_nil_iff (f := Prod.snd), map_snd_taggedFrom]
      exact length_eq_zero_iff.mp (Nat.le_zero.mp hfuel)
    rw [hnil]
    exact List.Perm.refl _
  | succ fuel ih =>
    intro lists hfuel
    cases hs : findSmallest less lists with
    | none =>
      have hnil : taggedFrom 0 lists = [] := by
        rw [← map_eq_nil_iff (f := Prod.snd), map_snd_taggedFrom]
        exact flatten_eq_nil_iff.mpr (findSmallest_eq_none.mp hs)
      simp only [drain, hs, hnil]
      exact List.Perm.refl _
    | some r =>
      obtain ⟨i, e⟩ := r
      obtain ⟨⟨rest, hget⟩, -⟩ := findSmallest_spec h hs
      have hp := taggedFrom_perm_advance (k := 0) hget
      have hlen := length_advance hget
      rw [Nat.zero_add] at hp
      simp only [drain, hs]
      exact ((ih (by omega)).cons (i, e)).trans hp.symm

theorem drain_pairwise (fuel : Nat) : ∀ {lists : List (List α)},
    lists.flatten.length ≤ fuel → (∀ c ∈ lists, c.Pairwise fun a b => less a b = true) →
    (drain less fuel lists).Pairwise (Before less) := by
  induction fuel with
  | zero =>
    intro lists _ _
    exact List.Pairwise.nil
  | succ fuel ih =>
    intro lists hfuel hsorted
    cases hs : findSmallest less lists with
    | none =>
      simp only [drain, hs]
      exact List.Pairwise.nil
    | some r =>
      obtain ⟨i, e⟩ := r
      obtain ⟨⟨rest, hget⟩, -⟩ := findSmallest_spec h hs
      have hlen := length_advance hget
      have hfuel' : (advance lists i).flatten.length ≤ fuel := by omega
      simp only [drain, hs]
      refine pairwise_cons.mpr ⟨?_, ih hfuel' (advance_pairwise hsorted)⟩
      intro x hx
      exact findSmallest_before h hsorted hs x ((drain_perm h fuel hfuel').mem_iff.mp hx)

/-- **Every element is reported once**, with the number of its list. -/
theorem merge_perm (lists : List (List α)) :
    (merge less lists).Perm (taggedFrom 0 lists) :=
  drain_perm h _ le_rfl

/-- **In order**, and among equivalent elements in the order of the lists. -/
theorem merge_pairwise (hsorted : ∀ c ∈ lists, c.Pairwise fun a b => less a b = true) :
    (merge less lists).Pairwise (Before less) :=
  drain_pairwise h _ le_rfl hsorted

end

/-! ## Other elements in the same order -/

section Map

variable {β : Type*} {less' : β → β → Bool} {f : α → β} {P : α → Prop}
  (hless : ∀ a b, P a → P b → less' (f a) (f b) = less a b)
include hless

theorem consider_map {cur : Option (Nat × α)} {c : List α} (hcur : ∀ x ∈ cur, P x.2)
    (hc : ∀ a ∈ c, P a) :
    consider less' i (cur.map (Prod.map id f)) (c.map f) =
      (consider less i cur c).map (Prod.map id f) ∧ ∀ x ∈ consider less i cur c, P x.2 := by
  cases c with
  | nil => exact ⟨rfl, hcur⟩
  | cons e es =>
    have he := hc e mem_cons_self
    cases cur with
    | none => exact ⟨rfl, fun x hx => Option.some.inj hx ▸ he⟩
    | some m =>
      have hm := hcur m rfl
      simp only [consider, map_cons, Option.map_some, Prod.map, id_eq, hless e m.2 he hm]
      split
      · exact ⟨rfl, fun x hx => Option.some.inj hx ▸ he⟩
      · exact ⟨rfl, fun x hx => Option.some.inj hx ▸ hm⟩

theorem findSmallestFrom_map : ∀ {i : Nat} {cur : Option (Nat × α)}, (∀ x ∈ cur, P x.2) →
    (∀ c ∈ lists, ∀ a ∈ c, P a) →
    findSmallestFrom less' i (cur.map (Prod.map id f)) (lists.map (List.map f)) =
      (findSmallestFrom less i cur lists).map (Prod.map id f) := by
  induction lists with
  | nil => exact fun _ _ => rfl
  | cons c cs ih =>
    intro i cur hcur hall
    obtain ⟨hc, hcs⟩ := forall_mem_cons.mp hall
    obtain ⟨heq, hcur'⟩ := consider_map hless hcur hc
    rw [map_cons, findSmallestFrom, heq, ih hcur' hcs]
    rfl

theorem drain_map (fuel : Nat) : ∀ {lists : List (List α)}, (∀ c ∈ lists, ∀ a ∈ c, P a) →
    drain less' fuel (lists.map (List.map f)) = (drain less fuel lists).map (Prod.map id f) := by
  induction fuel with
  | zero => exact fun _ => rfl
  | succ fuel ih =>
    intro lists hall
    have hfind : findSmallest less' (lists.map (List.map f)) =
        (findSmallest less lists).map (Prod.map id f) :=
      findSmallestFrom_map hless (fun _ (h : _ ∈ (none : Option (Nat × α))) => nomatch h) hall
    rw [drain, drain, hfind]
    cases findSmallest less lists with
    | none => rfl
    | some r =>
      have hadvance : ∀ c ∈ advance lists r.1, ∀ a ∈ c, P a := by
        intro c hc a ha
        obtain ⟨j, hj⟩ := mem_iff_getElem?.mp hc
        simp only [advance, getElem?_modify] at hj
        obtain ⟨d, hd, rfl⟩ := Option.map_eq_some_iff.mp hj
        refine hall d (mem_of_getElem? hd) a ?_
        split at ha
        · exact mem_of_mem_tail ha
        · exact ha
      have hmap : advance (lists.map (List.map f)) r.1 = (advance lists r.1).map (List.map f) := by
        refine ext_getElem? fun j => ?_
        simp only [advance, getElem?_modify, getElem?_map]
        cases lists[j]? with
        | none => rfl
        | some c => by_cases hj : r.1 = j <;> simp [hj]
      refine congrArg ((r.1, f r.2) :: ·) ?_
      rw [id_eq, hmap]
      exact ih hadvance

/-- **A merge of images in the same order** is the image of the merge. -/
theorem merge_map (hall : ∀ c ∈ lists, ∀ a ∈ c, P a) :
    merge less' (lists.map (List.map f)) = (merge less lists).map (Prod.map id f) := by
  have hlen : (lists.map (List.map f)).flatten.length = lists.flatten.length := by
    rw [← map_flatten, length_map]
  rw [merge, hlen]
  exact drain_map hless _ hall

end Map

end Merge
