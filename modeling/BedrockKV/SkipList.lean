/-
# `BedrockKV.SkipList` — the skiplist, between any two of its stores

`skiplist.h`, for any keys and any comparator.  Nodes live in an arena
(`nodes_`) and are known by their number, the sentinel `head_` being number 0;
a node's height is the length of its array of pointers, and how the coin falls
is an argument of `insert`.

An insertion is not one step.  `FindGreaterOrEqual` looks for the place, the
node is allocated, and then every level takes two stores: the node's own
pointer, and the one of its predecessor, which links it.  Readers may come in
between any two stores, so `step` makes one store at a time and every state of
a run counts:

    each level is sorted and contained in the one below     (`Ordered`)
    a node is on the levels it has been linked on           (`Levels`)
    what the writer has still to link has its place         (`Pending.Placed`)

`run_skipList` puts together what a reader and the next `Insert` see.
-/
import BedrockKV.Lib.Chain
import BedrockKV.Lib.WeakOrder

namespace BedrockKV

open List Chain

structure SkipList.Node (κ : Type) where
  key : κ
  next : List (Option Nat)

def SkipList.Node.height {κ : Type} (n : SkipList.Node κ) : Nat := n.next.length

/-- `nodes_` and `size_`. -/
structure SkipList (κ : Type) where
  nodes : List (SkipList.Node κ)
  size : Nat

namespace SkipList

def kMaxLevel : Nat := 12

/-- A tower height that `RandomLevel` may return. -/
abbrev Height := { h : Nat // 1 ≤ h ∧ h ≤ kMaxLevel }

section Defs

variable {κ : Type} [Inhabited κ] (less : κ → κ → Bool)

def new : SkipList κ := ⟨[⟨default, List.replicate kMaxLevel none⟩], 0⟩

def head : Nat := 0

def key (s : SkipList κ) (x : Nat) : κ := (s.nodes[x]?.map Node.key).getD default

def height (s : SkipList κ) (x : Nat) : Nat := (s.nodes[x]?.map Node.height).getD 0

def next (s : SkipList κ) (level x : Nat) : Option Nat :=
  (s.nodes[x]?.bind fun n => n.next[level]?).join

def setNext (s : SkipList κ) (level x : Nat) (y : Option Nat) : SkipList κ :=
  { s with nodes := s.nodes.modify x fun n => { n with next := n.next.set level y } }

/-- `new Node(key, height)`. -/
def alloc (s : SkipList κ) (key : κ) (height : Nat) : SkipList κ :=
  { s with nodes := s.nodes ++ [⟨key, List.replicate height none⟩] }

def equal (a b : κ) : Bool := !less a b && !less b a

/-- The node to step forward to on this level, if there is one before the key. -/
def forward (s : SkipList κ) (target : κ) (level x : Nat) : Option Nat :=
  (s.next level x).filter fun y => less (s.key y) target

/-- The loop of `FindGreaterOrEqual`; `prev` grows from the top level down, so that it ends with
level 0 in front. -/
def findLoop (s : SkipList κ) (target : κ) : Nat → Nat → Nat → List Nat →
    Option (Option Nat × List Nat)
  | 0, _, _, _ => none
  | fuel + 1, x, level, prev =>
    match s.forward less target level x with
    | some y => findLoop s target fuel y level prev
    | none =>
      match level with
      | 0 => some (s.next 0 x, x :: prev)
      | level + 1 => findLoop s target fuel x level (x :: prev)

/-- No level has more nodes than the arena. -/
def findGreaterOrEqual (s : SkipList κ) (target : κ) : Option (Option Nat × List Nat) :=
  s.findLoop less target (kMaxLevel * (s.nodes.length + 1)) head (kMaxLevel - 1) []

def contains (s : SkipList κ) (target : κ) : Bool :=
  match s.findGreaterOrEqual less target with
  | some (some x, _) => equal less (s.key x) target
  | _ => false

/-- What an iterator on this level shows. -/
def level (s : SkipList κ) (l : Nat) : List κ :=
  (walk (s.next l) s.nodes.length (s.next l head)).map s.key

end Defs

/-- An `Insert` under way: the node, its predecessors, the level being linked, and whether the
node's own pointer on that level is stored already. -/
structure Pending where
  node : Nat
  prev : List Nat
  level : Nat
  stored : Bool

/-- The list and the one writer. -/
structure Writer (κ : Type) where
  list : SkipList κ
  pending : Option Pending

inductive Call (κ : Type) where
  | insert (key : κ) (height : Height)
  | store

section Step

variable {κ : Type} [Inhabited κ] (less : κ → κ → Bool)

def Writer.new : Writer κ := ⟨.new, none⟩

/-- `Insert` up to its first store. -/
def Writer.insert (w : Writer κ) (key : κ) (height : Nat) : Writer κ × Option Bool :=
  match w.list.findGreaterOrEqual less key with
  | none => (w, none)
  | some (existing, prev) =>
    if existing.any fun x => equal less (w.list.key x) key then (w, some false)
    else (⟨w.list.alloc key height, some ⟨w.list.nodes.length, prev, 0, false⟩⟩, none)

/-- The next store of the insertion under way. -/
def Writer.store (w : Writer κ) (p : Pending) : Writer κ × Option Bool :=
  let q := p.prev.getD p.level head
  if p.stored then
    let list := w.list.setNext p.level q (some p.node)
    if p.level + 1 < w.list.height p.node then
      (⟨list, some { p with level := p.level + 1, stored := false }⟩, none)
    else (⟨{ list with size := list.size + 1 }, none⟩, some true)
  else
    (⟨w.list.setNext p.level p.node (w.list.next p.level q), some { p with stored := true }⟩, none)

/-- One step of the writer, and what `Insert` returns if it returns.  There is one writer, so that
the next insertion waits for the end of this one. -/
def Writer.step (w : Writer κ) : Call κ → Writer κ × Option Bool
  | .insert key height =>
    match w.pending with
    | none => w.insert less key height.1
    | some _ => (w, none)
  | .store =>
    match w.pending with
    | none => (w, none)
    | some p => w.store p

/-- The key of the insertion that returned `true` in this step, if one did. -/
def Writer.returned (w : Writer κ) (c : Call κ) : List κ :=
  if (w.step less c).2 = some true then (w.pending.map fun p => w.list.key p.node).toList else []

/-- A run, with the keys of all insertions that have returned `true`. -/
def run : List (Call κ) → Writer κ × List κ
  | [] => (.new, [])
  | c :: calls =>
    let w := run calls
    ((w.1.step less c).1, w.1.returned less c ++ w.2)

/-- The steps of `calls`, the last of them first. -/
def Writer.after (w : Writer κ) (calls : List (Call κ)) : Writer κ :=
  calls.foldr (fun c w => (w.step less c).1) w

theorem run_append (calls calls' : List (Call κ)) :
    (run less (calls' ++ calls)).1 = (run less calls).1.after less calls' := by
  induction calls' with
  | nil => rfl
  | cons c calls' ih =>
    rw [cons_append, run, ih]
    rfl

/-- The key of an insertion that has not returned and is linked on level 0. -/
def Writer.linking (w : Writer κ) : List κ :=
  match w.pending with
  | none => []
  | some p => if 0 < p.level then [w.list.key p.node] else []

end Step

/-! ## Stores and allocations -/

section Frame

variable {κ : Type} (s : SkipList κ) (level x : Nat) (y : Option Nat)

@[simp] theorem length_setNext : (s.setNext level x y).nodes.length = s.nodes.length :=
  length_modify ..

theorem getElem?_setNext (z : Nat) : (s.setNext level x y).nodes[z]? =
    s.nodes[z]?.map fun n => if x = z then { n with next := n.next.set level y } else n := by
  rw [setNext, getElem?_modify]
  rfl

@[simp] theorem height_setNext : (s.setNext level x y).height = s.height := by
  funext z
  rw [height, height, getElem?_setNext]
  cases s.nodes[z]? with
  | none => rfl
  | some n => by_cases hxz : x = z <;> simp [hxz, Node.height]

variable {z : Nat} {p : Pending} {w : Writer κ}

theorem next_setNext_of_ne {l : Nat} (h : l ≠ level ∨ z ≠ x) :
    (s.setNext level x y).next l z = s.next l z := by
  rw [next, next, getElem?_setNext]
  cases s.nodes[z]? with
  | none => rfl
  | some n =>
    by_cases hxz : x = z
    · have hl : level ≠ l := by
        rcases h with h | h
        · exact Ne.symm h
        · exact absurd hxz.symm h
      simp [hxz, hl]
    · simp [hxz]

theorem next_setNext (h : level < s.height x) : (s.setNext level x y).next level x = y := by
  rw [height] at h
  rw [next, getElem?_setNext]
  cases hx : s.nodes[x]? with
  | none => simp [hx] at h
  | some n =>
    have hlen : level < n.next.length := by simpa [hx, Node.height] using h
    simp [hlen]

variable (k : κ) (h : Nat)

@[simp] theorem length_alloc : (s.alloc k h).nodes.length = s.nodes.length + 1 := by
  simp [alloc]

theorem getElem?_alloc (hz : z < s.nodes.length) :
    (s.alloc k h).nodes[z]? = s.nodes[z]? := getElem?_append_left hz

theorem height_alloc (hz : z < s.nodes.length) : (s.alloc k h).height z = s.height z := by
  rw [height, height, getElem?_alloc s k h hz]

@[simp] theorem height_alloc_self : (s.alloc k h).height s.nodes.length = h := by
  simp [height, alloc, Node.height]

theorem next_alloc (l : Nat) (hz : z < s.nodes.length) : (s.alloc k h).next l z = s.next l z := by
  rw [next, next, getElem?_alloc s k h hz]

theorem Writer.store_own (hstored : p.stored = false) : w.store p =
    (⟨w.list.setNext p.level p.node (w.list.next p.level (p.prev.getD p.level head)),
      some { p with stored := true }⟩, none) := by
  rw [Writer.store, hstored]
  rfl

theorem Writer.store_more (hstored : p.stored = true) (hmore : p.level + 1 < w.list.height p.node) :
    w.store p =
    (⟨w.list.setNext p.level (p.prev.getD p.level head) (some p.node),
      some { p with level := p.level + 1, stored := false }⟩, none) := by
  rw [Writer.store, if_pos hstored, if_pos hmore]

theorem Writer.store_last (hstored : p.stored = true)
    (hlast : ¬ p.level + 1 < w.list.height p.node) :
    w.store p =
    (⟨{ w.list.setNext p.level (p.prev.getD p.level head) (some p.node) with
        size := w.list.size + 1 }, none⟩, some true) := by
  rw [Writer.store, if_pos hstored, if_neg hlast]
  rfl

variable [Inhabited κ]

@[simp] theorem key_setNext : (s.setNext level x y).key = s.key := by
  funext z
  rw [key, key, getElem?_setNext]
  cases s.nodes[z]? with
  | none => rfl
  | some n => by_cases hxz : x = z <;> simp [hxz]

theorem key_alloc (hz : z < s.nodes.length) : (s.alloc k h).key z = s.key z := by
  rw [key, key, getElem?_alloc s k h hz]

@[simp] theorem key_alloc_self : (s.alloc k h).key s.nodes.length = k := by
  simp [key, alloc]

end Frame

/-! ## The search -/

section Search

variable {κ : Type} [Inhabited κ] {less : κ → κ → Bool}

/-- The keys increase along a level. -/
def Sorted (less : κ → κ → Bool) (s : SkipList κ) (c : List Nat) : Prop :=
  c.Pairwise fun a b => less (s.key a) (s.key b) = true

/-- Every level is a sorted chain from the head, and contained in the one below. -/
structure Ordered (less : κ → κ → Bool) (s : SkipList κ) (chain : Nat → List Nat) : Prop where
  links : ∀ l < kMaxLevel, Links (s.next l) head (chain l)
  sorted : ∀ l < kMaxLevel, Sorted less s (chain l)
  below : ∀ l, l + 1 < kMaxLevel → chain (l + 1) ⊆ chain l
  nodes : ∀ l < kMaxLevel, ∀ x ∈ chain l, head < x ∧ x < s.nodes.length

/-- `q` is the last node of the front part of a level: what is in it is less than the key, what
is behind it is not. -/
def Splits (less : κ → κ → Bool) (s : SkipList κ) (target : κ) (c : List Nat) (q : Nat) : Prop :=
  ∃ pre post, c = pre ++ post ∧ q = pre.getLastD head ∧
    (∀ y ∈ pre, less (s.key y) target = true) ∧ ∀ y ∈ post, less (s.key y) target = false

variable {s : SkipList κ} {chain : Nat → List Nat} {target : κ}

theorem Sorted.nodup (horder : StrictWeakOrder less) {c : List Nat} (h : Sorted less s c) :
    c.Nodup := by
  refine h.imp ?_
  rintro a b hab rfl
  rw [horder.irrefl] at hab
  cases hab

variable {l : Nat} {post pre : List Nat}

theorem Ordered.length_le (h : Ordered less s chain) (horder : StrictWeakOrder less)
    (hl : l < kMaxLevel) : (chain l).length ≤ s.nodes.length := by
  have hsub : (chain l) ⊆ List.range s.nodes.length :=
    fun x hx => mem_range.mpr (h.nodes l hl x hx).2
  have hle := ((h.sorted l hl).nodup horder).subperm hsub
  simpa using hle.length_le

theorem Sorted.not_less (horder : StrictWeakOrder less) {y : Nat} {ys : List Nat}
    (h : Sorted less s (y :: ys)) (hy : less (s.key y) target = false) :
    ∀ z ∈ y :: ys, less (s.key z) target = false := by
  intro z hz
  rcases mem_cons.mp hz with rfl | hz
  · exact hy
  · by_contra hlt
    have hyz := (pairwise_cons.mp h).1 z hz
    rw [horder.trans hyz ((Bool.not_eq_false _).mp hlt)] at hy
    cases hy

variable (h : Ordered less s chain)
include h

theorem Ordered.descend (horder : StrictWeakOrder less) (hl : l + 1 < kMaxLevel)
    (hchain : chain (l + 1) = pre ++ post) (hpre : ∀ y ∈ pre, less (s.key y) target = true) :
    ∃ pre' post', chain l = pre' ++ post' ∧ pre.getLastD head = pre'.getLastD head ∧
      ∀ y ∈ pre', less (s.key y) target = true := by
  rcases eq_nil_or_concat' pre with rfl | ⟨front, x, rfl⟩
  · exact ⟨[], chain l, rfl, rfl, nofun⟩
  · have hx : x ∈ chain l := h.below l hl (by simp [hchain])
    obtain ⟨a, b, hab⟩ := append_of_mem hx
    refine ⟨a ++ [x], b, by rw [hab, append_assoc]; rfl, by simp, fun y hy => ?_⟩
    have hxt := hpre x (by simp)
    rcases mem_append.mp hy with hy | hy
    · have hsorted := h.sorted l (by omega)
      rw [hab] at hsorted
      have hyx := (pairwise_append.mp hsorted).2.2 y hy x mem_cons_self
      exact horder.trans hyx hxt
    · rwa [mem_singleton.mp hy]

theorem Ordered.forward (hl : l < kMaxLevel) (hchain : chain l = pre ++ post) :
    s.forward less target l (pre.getLastD head) =
      post.head?.filter fun y => less (s.key y) target := by
  have hlinks := h.links l hl
  rw [hchain] at hlinks
  rw [SkipList.forward, hlinks.rest.head?]

theorem Ordered.splits (horder : StrictWeakOrder less) (hl : l < kMaxLevel)
    (hchain : chain l = pre ++ post) (hpre : ∀ y ∈ pre, less (s.key y) target = true)
    (hstop : (post.head?.filter fun y => less (s.key y) target) = none) :
    (∀ y ∈ post, less (s.key y) target = false) ∧
      Splits less s target (chain l) (pre.getLastD head) := by
  have hpost : ∀ y ∈ post, less (s.key y) target = false := by
    cases post with
    | nil => exact nofun
    | cons z zs =>
      have hsorted := h.sorted l hl
      rw [hchain] at hsorted
      refine Sorted.not_less horder (pairwise_append.mp hsorted).2.1 ?_
      simpa [Option.filter_eq_none_iff] using hstop
  exact ⟨hpost, pre, post, hchain, rfl, hpre, hpost⟩

/-- The loop, from a place on level `l`: it ends, at the first node of level 0 that is not before
the key, and with a predecessor for every level. -/
theorem Ordered.findLoop (horder : StrictWeakOrder less) (fuel : Nat) :
    ∀ (prev : List Nat) {l : Nat} {pre post : List Nat}, l < kMaxLevel → chain l = pre ++ post →
      (∀ y ∈ pre, less (s.key y) target = true) →
      post.length + l * (s.nodes.length + 1) < fuel →
      ∃ out, s.findLoop less target fuel (pre.getLastD head) l prev =
          some ((chain 0).find? fun y => !less (s.key y) target, out ++ prev) ∧
        out.length = l + 1 ∧
        ∀ j ≤ l, ∃ q, out[j]? = some q ∧ Splits less s target (chain j) q := by
  induction fuel with
  | zero =>
    intro prev l pre post _ _ _ hfuel
    omega
  | succ fuel ih =>
    intro prev l pre post hl hchain hpre hfuel
    unfold SkipList.findLoop
    rw [h.forward hl hchain]
    cases hstop : (post.head?.filter fun y => less (s.key y) target) with
    | some y =>
      -- a step forward on this level
      obtain ⟨hy, hless⟩ := Option.filter_eq_some_iff.mp hstop
      obtain ⟨rest, rfl⟩ : ∃ rest, post = y :: rest := head?_eq_some_iff.mp hy
      have hpre' : ∀ z ∈ pre ++ [y], less (s.key z) target = true := by
        intro z hz
        rcases mem_append.mp hz with hz | hz
        · exact hpre z hz
        · rwa [mem_singleton.mp hz]
      have hrun := ih prev hl (by rw [hchain, append_assoc]; rfl) hpre'
        (by rw [length_cons] at hfuel; omega)
      rwa [getLastD_concat] at hrun
    | none =>
      obtain ⟨hpost, hsplit⟩ := h.splits horder hl hchain hpre hstop
      cases l with
      | zero =>
        have hfind : (chain 0).find? (fun y => !less (s.key y) target) =
            s.next 0 (pre.getLastD head) := by
          have hlinks := h.links 0 hl
          rw [hchain] at hlinks ⊢
          rw [hlinks.rest.head?, find?_append, find?_eq_none.mpr (by simpa using hpre),
            Option.none_or]
          cases post with
          | nil => rfl
          | cons z zs => rw [find?_cons_of_pos (by simp [hpost z]), head?_cons]
        refine ⟨[pre.getLastD head], by rw [hfind]; rfl, rfl, fun j hj => ?_⟩
        obtain rfl := Nat.le_zero.mp hj
        exact ⟨_, rfl, hsplit⟩
      | succ l =>
        obtain ⟨pre', post', hchain', hlast, hpre'⟩ := h.descend horder hl hchain hpre
        have hlen := h.length_le horder (show l < kMaxLevel by omega)
        rw [hchain', length_append] at hlen
        obtain ⟨out, hrun, hout, hsplits⟩ := ih (pre.getLastD head :: prev) (by omega)
          hchain' hpre' (by rw [Nat.succ_mul] at hfuel; omega)
        refine ⟨out ++ [pre.getLastD head], ?_, by rw [length_append, hout]; rfl, ?_⟩
        · dsimp only
          rw [append_assoc, hlast]
          rwa [hlast] at hrun
        · intro j hj
          rcases Nat.lt_or_ge l j with hlj | hlj
          · obtain rfl : j = l + 1 := by omega
            exact ⟨_, by rw [← hout, getElem?_concat_length], hsplit⟩
          · obtain ⟨q, hq, hqs⟩ := hsplits j hlj
            exact ⟨q, by rw [getElem?_append_left (by omega), hq], hqs⟩

/-- **`FindGreaterOrEqual` ends**, at the first node of level 0 that is not before the key. -/
theorem Ordered.findGreaterOrEqual (horder : StrictWeakOrder less) (target : κ) :
    ∃ prev, s.findGreaterOrEqual less target =
        some ((chain 0).find? fun y => !less (s.key y) target, prev) ∧
      ∀ l < kMaxLevel, ∃ q, prev[l]? = some q ∧ Splits less s target (chain l) q := by
  have hlen := h.length_le horder (show kMaxLevel - 1 < kMaxLevel by decide)
  obtain ⟨out, hrun, -, hsplits⟩ := h.findLoop horder (kMaxLevel * (s.nodes.length + 1)) []
    (show kMaxLevel - 1 < kMaxLevel by decide) (nil_append _).symm
    (nofun) (by simp only [kMaxLevel] at hlen ⊢; omega)
  rw [append_nil] at hrun
  exact ⟨out, hrun, fun l hl => hsplits l (by omega)⟩

end Search

/-! ## The invariant -/

section Invariant

variable {κ : Type} [Inhabited κ] {less : κ → κ → Bool}

/-- The levels of the list: node `y` is on the first `linked y` of them. -/
structure Levels (less : κ → κ → Bool) (s : SkipList κ) (chain : Nat → List Nat)
    (linked : Nat → Nat) : Prop where
  links : ∀ l < kMaxLevel, Links (s.next l) head (chain l)
  sorted : ∀ l < kMaxLevel, Sorted less s (chain l)
  mem : ∀ l < kMaxLevel, ∀ y, y ∈ chain l ↔ head < y ∧ y < s.nodes.length ∧ l < linked y
  linked_le : ∀ y, linked y ≤ s.height y
  head_height : s.height head = kMaxLevel

variable {s : SkipList κ} {chain : Nat → List Nat} {linked : Nat → Nat}

theorem Levels.ordered (h : Levels less s chain linked) : Ordered less s chain where
  links := h.links
  sorted := h.sorted
  below l hl y hy := by
    obtain ⟨hpos, hlt, hlinked⟩ := (h.mem (l + 1) hl y).mp hy
    exact (h.mem l (by omega) y).mpr ⟨hpos, hlt, by omega⟩
  nodes l hl y hy := by
    obtain ⟨hpos, hlt, -⟩ := (h.mem l hl y).mp hy
    exact ⟨hpos, hlt⟩

theorem Levels.length_pos (h : Levels less s chain linked) : 0 < s.nodes.length := by
  have hhead := h.head_height
  rw [height] at hhead
  cases hs : s.nodes with
  | nil =>
    rw [hs] at hhead
    cases hhead
  | cons n ns => exact Nat.succ_pos _

theorem levels_new : Levels less (new : SkipList κ) (fun _ => []) (new : SkipList κ).height where
  links l hl := by
    have hnone : (List.replicate kMaxLevel (none : Option Nat))[l]? = some none := by
      rw [getElem?_replicate, if_pos hl]
    change (((new : SkipList κ).nodes[0]?).bind fun n => n.next[l]?).join = none
    rw [new, getElem?_cons_zero, Option.bind_some, hnone]
    rfl
  sorted l hl := List.Pairwise.nil
  mem l hl y := by
    refine iff_of_false not_mem_nil ?_
    rintro ⟨hpos, hlt, -⟩
    exact absurd hlt (not_lt.mpr hpos)
  linked_le y := le_rfl
  head_height := rfl

section

variable (h : Levels less s chain linked)
include h

theorem Levels.withSize (n : Nat) :
    Levels less ⟨s.nodes, n⟩ chain linked :=
  ⟨h.links, h.sorted, h.mem, h.linked_le, h.head_height⟩

theorem Levels.alloc (k : κ) (n : Nat)
    (hlinked : linked s.nodes.length = 0) : Levels less (s.alloc k n) chain linked := by
  have hlt : ∀ l < kMaxLevel, ∀ y ∈ SkipList.head :: chain l, y < s.nodes.length := by
    intro l hl y hy
    rcases mem_cons.mp hy with rfl | hy
    · exact h.length_pos
    · exact ((h.mem l hl y).mp hy).2.1
  refine ⟨fun l hl => ?_, fun l hl => ?_, fun l hl y => ?_, fun y => ?_, ?_⟩
  · exact (h.links l hl).congr fun z hz => next_alloc s k n l (hlt l hl z hz)
  · refine (h.sorted l hl).imp_of_mem fun {a b} ha hb hab => ?_
    rw [key_alloc s k n (hlt l hl a (mem_cons_of_mem _ ha)),
      key_alloc s k n (hlt l hl b (mem_cons_of_mem _ hb))]
    exact hab
  · rw [h.mem l hl y, length_alloc]
    constructor
    · rintro ⟨hpos, hy, hl'⟩
      exact ⟨hpos, by omega, hl'⟩
    · rintro ⟨hpos, hy, hl'⟩
      refine ⟨hpos, ?_, hl'⟩
      by_contra hge
      obtain rfl : y = s.nodes.length := by omega
      omega
  · rcases Nat.lt_trichotomy y s.nodes.length with hy | rfl | hy
    · rw [height_alloc s k n hy]
      exact h.linked_le y
    · rw [hlinked]
      exact Nat.zero_le _
    · have hle := h.linked_le y
      have hzero : s.height y = 0 := by
        rw [height, getElem?_eq_none (by omega)]
        rfl
      omega
  · rw [height_alloc s k n (show SkipList.head < _ from h.length_pos)]
    exact h.head_height

theorem Levels.setNext_unlinked {level x : Nat} (v : Option Nat) (hx : SkipList.head < x)
    (hlinked : linked x ≤ level) : Levels less (s.setNext level x v) chain linked := by
  refine ⟨fun l hl => ?_, fun l hl => ?_, fun l hl y => ?_, fun y => ?_, ?_⟩
  · refine (h.links l hl).congr fun z hz => next_setNext_of_ne s level x v ?_
    by_cases hl' : l = level
    · right
      rintro rfl
      rcases mem_cons.mp hz with rfl | hz
      · exact absurd hx (lt_irrefl _)
      · have := ((h.mem l hl z).mp hz).2.2
        omega
    · exact .inl hl'
  · simpa only [Sorted, key_setNext] using h.sorted l hl
  · rw [h.mem l hl y, length_setNext]
  · rw [height_setNext]
    exact h.linked_le y
  · rw [height_setNext]
    exact h.head_height

/-- **Linking a node on one more level**: its own pointer there has been stored, and `pre` and
`post` are its place. -/
theorem Levels.link (horder : StrictWeakOrder less) {level x : Nat} {pre post : List Nat}
    (hlevel : level < kMaxLevel) (hx : SkipList.head < x ∧ x < s.nodes.length)
    (hlinked : linked x = level) (hheight : level < s.height x) (hchain : chain level = pre ++ post)
    (hstored : s.next level x = s.next level (pre.getLastD SkipList.head))
    (hpre : ∀ y ∈ pre, less (s.key y) (s.key x) = true)
    (hpost : ∀ y ∈ post, less (s.key x) (s.key y) = true) :
    Levels less (s.setNext level (pre.getLastD SkipList.head) (some x))
      (Function.update chain level (pre ++ x :: post)) (Function.update linked x (level + 1)) := by
  have hxc : ∀ l < kMaxLevel, level ≤ l → x ∉ chain l := by
    intro l hl hle hmem
    have := ((h.mem l hl x).mp hmem).2.2
    omega
  have hhead : ∀ l < kMaxLevel, SkipList.head ∉ chain l := by
    intro l hl hmem
    exact absurd ((h.mem l hl _).mp hmem).1 (lt_irrefl _)
  -- the predecessor reaches up to this level
  have hq : level < s.height (pre.getLastD SkipList.head) := by
    rcases eq_nil_or_concat' pre with rfl | ⟨front, q, rfl⟩
    · rw [getLastD_nil, h.head_height]
      exact hlevel
    · rw [getLastD_concat]
      have hq := ((h.mem level hlevel q).mp (by simp [hchain])).2.2
      exact lt_of_lt_of_le hq (h.linked_le q)
  have hmem : ∀ y, y ∈ pre ++ x :: post ↔ y = x ∨ y ∈ chain level := by
    intro y
    rw [hchain]
    simp only [mem_append, mem_cons]
    tauto
  refine ⟨fun l hl => ?_, fun l hl => ?_, fun l hl y => ?_, fun y => ?_, ?_⟩
  · by_cases hl' : l = level
    · subst hl'
      have hlinks := h.links l hl
      have hnodup := (h.sorted l hl).nodup horder
      have hout := hxc l hl (Nat.le_refl l)
      have hhead := hhead l hl
      rw [Function.update_self]
      rw [hchain] at hlinks hnodup hout hhead
      refine hlinks.insert (nodup_cons.mpr ⟨hhead, hnodup⟩) ?_ (next_setNext s l _ _ hq) ?_ ?_
      · rintro (_ | ⟨_, hmem⟩)
        · exact absurd hx.1 (lt_irrefl _)
        · exact hout hmem
      · rw [next_setNext_of_ne s l _ _ (.inr ?_)]
        · exact hstored
        · intro heq
          have hlast : pre.getLastD SkipList.head ∈ SkipList.head :: pre := getLastD_mem_cons
          rcases mem_cons.mp (heq ▸ hlast) with hmem | hmem
          · exact absurd hx.1 (hmem ▸ lt_irrefl _)
          · exact hout (mem_append_left _ hmem)
      · intro z hz _
        exact next_setNext_of_ne s l _ _ (.inr hz)
    · rw [Function.update_of_ne hl']
      exact (h.links l hl).congr fun z _ => next_setNext_of_ne s level _ _ (.inl hl')
  · by_cases hl' : l = level
    · subst hl'
      rw [Function.update_self]
      have hsorted := h.sorted l hl
      rw [hchain] at hsorted
      obtain ⟨hp, hq, hpq⟩ := pairwise_append.mp hsorted
      simp only [Sorted, key_setNext]
      refine pairwise_append.mpr ⟨hp, pairwise_cons.mpr ⟨hpost, hq⟩, fun a ha b hb => ?_⟩
      rcases mem_cons.mp hb with rfl | hb
      · exact hpre a ha
      · exact hpq a ha b hb
    · rw [Function.update_of_ne hl']
      simpa only [Sorted, key_setNext] using h.sorted l hl
  · rw [length_setNext]
    by_cases hyx : y = x
    · subst hyx
      rw [Function.update_self]
      by_cases hl' : l = level
      · subst hl'
        rw [Function.update_self, hmem]
        simp [hx]
      · rw [Function.update_of_ne hl', h.mem l hl, hlinked]
        omega
    · rw [Function.update_of_ne hyx]
      by_cases hl' : l = level
      · subst hl'
        rw [Function.update_self, hmem, h.mem l hl]
        simp [hyx]
      · rw [Function.update_of_ne hl', h.mem l hl]
  · rw [height_setNext]
    by_cases hyx : y = x
    · subst hyx
      rw [Function.update_self]
      omega
    · rw [Function.update_of_ne hyx]
      exact h.linked_le y
  · rw [height_setNext]
    exact h.head_height

end

/-- How many levels a node is on: all of its own, or those the writer has come to. -/
def Writer.levelsOf (w : Writer κ) (y : Nat) : Nat :=
  match w.pending with
  | none => w.list.height y
  | some p => if y = p.node then p.level else w.list.height y

/-- The insertion under way: the node is the last one of the arena, and on every level it is not
yet on its predecessor stands where it belongs. -/
structure Pending.Placed (less : κ → κ → Bool) (p : Pending) (s : SkipList κ)
    (chain : Nat → List Nat) : Prop where
  last : p.node + 1 = s.nodes.length
  pos : head < p.node
  level : p.level < s.height p.node
  height : s.height p.node ≤ kMaxLevel
  stored : p.stored = true → s.next p.level p.node = s.next p.level (p.prev.getD p.level head)
  places : ∀ l, p.level ≤ l → l < s.height p.node → ∃ pre post, chain l = pre ++ post ∧
    p.prev.getD l head = pre.getLastD head ∧ (∀ y ∈ pre, less (s.key y) (s.key p.node) = true) ∧
    ∀ y ∈ post, less (s.key p.node) (s.key y) = true

/-- **The invariant** of a run: the levels, the insertion under way, and that level 0 holds the
keys of all finished insertions and of this one, once it is linked there. -/
structure Inv (less : κ → κ → Bool) (w : Writer κ) (done : List κ) (chain : Nat → List Nat) :
    Prop where
  levels : Levels less w.list chain w.levelsOf
  placed : ∀ p, w.pending = some p → p.Placed less w.list chain
  keys : ((chain 0).map w.list.key).Perm (w.linking ++ done)

theorem inv_new : Inv less (Writer.new : Writer κ) [] fun _ => [] :=
  ⟨levels_new, fun p hp => (by cases hp), List.Perm.refl _⟩

variable {w : Writer κ} {done : List κ}

/-- The nodes that are not before a key are behind it, if the first of them is not equivalent. -/
theorem Ordered.less_of_not_equal (h : Ordered less s chain) (horder : StrictWeakOrder less) {k : κ}
    (hne : ∀ x, ((chain 0).find? fun y => !less (s.key y) k) = some x →
      equal less (s.key x) k = false) :
    ∀ y ∈ chain 0, less (s.key y) k = false → less k (s.key y) = true := by
  intro y hy hyk
  cases hfind : ((chain 0).find? fun y => !less (s.key y) k) with
  | none =>
    have := find?_eq_none.mp hfind y hy
    rw [hyk] at this
    exact absurd rfl this
  | some x =>
    have hxk : less k (s.key x) = true := by
      have hx := find?_some hfind
      have hequal := hne x hfind
      simp only [equal, Bool.not_eq_true'] at hx hequal
      simpa [hx] using hequal
    obtain ⟨-, front, back, hchain, hfront⟩ := find?_eq_some_iff_append.mp hfind
    have hsorted := h.sorted 0 (by decide)
    rw [hchain] at hy hsorted
    rcases mem_append.mp hy with hy | hy
    · have := hfront y hy
      rw [hyk] at this
      cases this
    · rcases mem_cons.mp hy with rfl | hy
      · exact hxk
      · have hxy := (pairwise_cons.mp (pairwise_append.mp hsorted).2.1).1 y hy
        exact horder.trans hxk hxy

theorem Inv.insert (h : Inv less w done chain) (horder : StrictWeakOrder less)
    (hidle : w.pending = none) (k : κ) (n : Height) :
    Inv less (w.insert less k n.1).1 done chain := by
  obtain ⟨prev, hfind, hsplits⟩ := h.levels.ordered.findGreaterOrEqual horder k
  rw [Writer.insert, hfind]
  dsimp only
  split
  · exact h
  · next hnew =>
    have hn := h.levels.length_pos
    have hlt : ∀ l < kMaxLevel, ∀ y ∈ chain l, y < w.list.nodes.length :=
      fun l hl y hy => (h.levels.ordered.nodes l hl y hy).2
    have hkey : ∀ l < kMaxLevel, ∀ y ∈ chain l, (w.list.alloc k n.1).key y = w.list.key y :=
      fun l hl y hy => key_alloc _ _ _ (hlt l hl y hy)
    have hbehind := h.levels.ordered.less_of_not_equal horder (k := k) fun x hx => by
      simpa [hx] using hnew
    have hold : w.levelsOf = w.list.height := by
      funext y
      rw [Writer.levelsOf, hidle]
    refine ⟨?_, fun p hp => ?_, ?_⟩
    · -- the node is on no level, and the others are where they were
      have hzero : ∀ y, w.list.nodes.length ≤ y → w.list.height y = 0 := by
        intro y hy
        rw [height, getElem?_eq_none hy]
        rfl
      have hlevels := h.levels
      rw [hold] at hlevels
      have hnew' : (fun y => if y = w.list.nodes.length then 0 else (w.list.alloc k n.1).height y) =
          w.list.height := by
        funext y
        rcases Nat.lt_trichotomy y w.list.nodes.length with hy | rfl | hy
        · rw [if_neg (Nat.ne_of_lt hy), height_alloc _ _ _ hy]
        · rw [if_pos rfl, hzero _ le_rfl]
        · rw [if_neg (Nat.ne_of_gt hy), hzero y hy.le, height,
            getElem?_eq_none (by rw [length_alloc]; omega)]
          rfl
      change Levels less (w.list.alloc k n.1) chain
        fun y => if y = w.list.nodes.length then 0 else (w.list.alloc k n.1).height y
      rw [hnew']
      exact hlevels.alloc k n.1 (hzero _ le_rfl)
    · cases hp
      refine ⟨by simp, hn, ?_, by simpa using n.2.2, fun hs => (by cases hs), ?_⟩
      · rw [height_alloc_self]
        exact n.2.1
      intro l _ hl
      have hl : l < kMaxLevel := lt_of_lt_of_le (by simpa using hl) n.2.2
      obtain ⟨q, hq, pre, post, hchain, hlast, hpre, hpost⟩ := hsplits l hl
      have hsub : chain l ⊆ chain 0 := by
        intro y hy
        obtain ⟨hpos, hy', hl'⟩ := (h.levels.mem l hl y).mp hy
        exact (h.levels.mem 0 (by decide) y).mpr ⟨hpos, hy', by omega⟩
      refine ⟨pre, post, hchain, ?_, fun y hy => ?_, fun y hy => ?_⟩
      · rw [getD_eq_getElem?_getD, hq]
        exact hlast
      · rw [key_alloc_self, hkey l hl y (by simp [hchain, hy])]
        exact hpre y hy
      · have hmem : y ∈ chain l := by simp [hchain, hy]
        rw [key_alloc_self, hkey l hl y hmem]
        exact hbehind y (hsub hmem) (hpost y hy)
    · have hkeys := h.keys
      rw [Writer.linking, hidle] at hkeys
      rw [map_congr_left (hkey 0 (by decide))]
      exact hkeys

variable {p : Pending}

theorem Writer.returned_store (hp : w.pending = some p) : w.returned less .store =
    if (w.store p).2 = some true then [w.list.key p.node] else [] := by
  rw [Writer.returned, Writer.step, hp]
  rfl

theorem Inv.store_own (h : Inv less w done chain) (hp : w.pending = some p)
    (hstored : p.stored = false) : Inv less (w.store p).1 done chain := by
  have hplaced := h.placed p hp
  have hlevel : p.level < kMaxLevel := lt_of_lt_of_le hplaced.level hplaced.height
  have hlevels := h.levels
  have hold : w.levelsOf = fun y => if y = p.node then p.level else w.list.height y := by
    funext y
    rw [Writer.levelsOf, hp]
  rw [hold] at hlevels
  have hset := hlevels.setNext_unlinked (w.list.next p.level (p.prev.getD p.level head)) hplaced.pos
    (Nat.le_of_eq (if_pos rfl))
  rw [Writer.store_own hstored]
  refine ⟨?_, fun p' hp' => ?_, ?_⟩
  · change Levels less _ chain
      fun y => if y = p.node then p.level else (w.list.setNext p.level p.node _).height y
    simp only [height_setNext]
    exact hset
  · cases hp'
    refine ⟨by simpa using hplaced.last, hplaced.pos, by simpa using hplaced.level,
      by simpa using hplaced.height, fun _ => ?_, ?_⟩
    · -- the predecessor is another node
      have hq : p.prev.getD p.level head ≠ p.node := by
        obtain ⟨pre, post, hchain, hlast, -⟩ := hplaced.places p.level le_rfl hplaced.level
        have hmem : pre.getLastD head ∈ head :: pre := getLastD_mem_cons
        intro heq
        rw [← hlast, heq] at hmem
        rcases mem_cons.mp hmem with hmem | hmem
        · exact absurd hplaced.pos (hmem ▸ lt_irrefl _)
        · have hlt := ((hlevels.mem p.level hlevel p.node).mp (by simp [hchain, hmem])).2.2
          rw [if_pos rfl] at hlt
          exact absurd hlt (lt_irrefl _)
      dsimp only
      rw [next_setNext _ _ _ _ hplaced.level, next_setNext_of_ne _ _ _ _ (.inr hq)]
    · simpa using hplaced.places
  · have hkeys := h.keys
    rw [Writer.linking, hp] at hkeys
    simpa [Writer.linking] using hkeys

/-- The link: the node's place on this level is taken, and the insertion goes up or returns. -/
theorem Inv.store_link (h : Inv less w done chain) (horder : StrictWeakOrder less)
    (hp : w.pending = some p) (hstored : p.stored = true) :
    ∃ chain', Inv less (w.store p).1 (w.returned less .store ++ done) chain' := by
  have hplaced := h.placed p hp
  have hlevel : p.level < kMaxLevel := lt_of_lt_of_le hplaced.level hplaced.height
  obtain ⟨pre, post, hchain, hlast, hpre, hpost⟩ := hplaced.places p.level le_rfl hplaced.level
  have hown : w.levelsOf p.node = p.level := by
    rw [Writer.levelsOf, hp]
    exact if_pos rfl
  have hlink := h.levels.link horder hlevel ⟨hplaced.pos, by have := hplaced.last; omega⟩ hown
    hplaced.level hchain (hlast ▸ hplaced.stored hstored) hpre hpost
  rw [← hlast] at hlink
  have hother : ∀ y, y ≠ p.node → w.levelsOf y = w.list.height y := by
    intro y hy
    rw [Writer.levelsOf, hp]
    exact if_neg hy
  -- level 0 has the new key now, if it had not before
  have hkeys : ((Function.update chain p.level (pre ++ p.node :: post) 0).map w.list.key).Perm
      (w.list.key p.node :: done) := by
    have hold := h.keys
    rw [Writer.linking, hp] at hold
    dsimp only at hold
    by_cases hzero : p.level = 0
    · rw [hzero, Function.update_self]
      rw [if_neg (by omega), nil_append, ← hzero, hchain] at hold
      exact (perm_middle.map _).trans (hold.cons _)
    · rw [Function.update_of_ne (Ne.symm hzero)]
      rwa [if_pos (by omega)] at hold
  refine ⟨Function.update chain p.level (pre ++ p.node :: post), ?_⟩
  rw [Writer.returned_store hp]
  by_cases hmore : p.level + 1 < w.list.height p.node
  · rw [Writer.store_more hstored hmore]
    refine ⟨?_, fun p' hp' => ?_, by simpa [Writer.linking] using hkeys⟩
    · have hlevels : (fun y => if y = p.node then p.level + 1 else w.list.height y) =
          Function.update w.levelsOf p.node (p.level + 1) := by
        funext y
        by_cases hy : y = p.node
        · rw [if_pos hy, hy, Function.update_self]
        · rw [if_neg hy, Function.update_of_ne hy, hother y hy]
      change Levels less _ _ fun y =>
        if y = p.node then p.level + 1 else (w.list.setNext p.level _ (some p.node)).height y
      rw [height_setNext, hlevels]
      exact hlink
    · cases hp'
      refine ⟨by simpa using hplaced.last, hplaced.pos, by simpa using hmore,
        by simpa using hplaced.height, fun hs => (by cases hs), fun l hl hl' => ?_⟩
      dsimp only at hl hl'
      rw [height_setNext] at hl'
      rw [Function.update_of_ne (by omega), key_setNext]
      exact hplaced.places l (by omega) hl'
  · rw [Writer.store_last hstored hmore]
    refine ⟨?_, fun p' hp' => (by cases hp'), ?_⟩
    · have hheight := hplaced.level
      have hlevels : w.list.height = Function.update w.levelsOf p.node (p.level + 1) := by
        funext y
        by_cases hy : y = p.node
        · rw [hy, Function.update_self]
          omega
        · rw [Function.update_of_ne hy, hother y hy]
      change Levels less ⟨_, w.list.size + 1⟩ _ (w.list.setNext p.level _ (some p.node)).height
      rw [height_setNext, hlevels]
      exact hlink.withSize _
    · change (List.map (w.list.setNext p.level _ (some p.node)).key _).Perm _
      rw [key_setNext]
      exact hkeys

theorem Inv.step (h : Inv less w done chain) (horder : StrictWeakOrder less) (c : Call κ) :
    ∃ chain', Inv less (w.step less c).1 (w.returned less c ++ done) chain' := by
  cases c with
  | insert k n =>
    cases hp : w.pending with
    | some p =>
      have hstep : w.step less (.insert k n) = (w, none) := by rw [Writer.step, hp]
      rw [Writer.returned, hstep]
      exact ⟨chain, h⟩
    | none =>
      have hstep : w.step less (.insert k n) = w.insert less k n.1 := by rw [Writer.step, hp]
      rw [Writer.returned, hp, hstep]
      refine ⟨chain, ?_⟩
      simpa using h.insert horder hp k n
  | store =>
    cases hp : w.pending with
    | none =>
      have hstep : w.step less .store = (w, none) := by rw [Writer.step, hp]
      rw [Writer.returned, hstep]
      exact ⟨chain, h⟩
    | some p =>
      have hstep : w.step less .store = w.store p := by rw [Writer.step, hp]
      rw [hstep]
      cases hs : p.stored with
      | true => exact h.store_link horder hp hs
      | false =>
        rw [Writer.returned_store hp, Writer.store_own hs]
        have hown := h.store_own hp hs
        rw [Writer.store_own hs] at hown
        exact ⟨chain, hown⟩

theorem run_inv (horder : StrictWeakOrder less) (calls : List (Call κ)) :
    ∃ chain, Inv less (run less calls).1 (run less calls).2 chain := by
  induction calls with
  | nil => exact ⟨_, inv_new⟩
  | cons c calls ih =>
    obtain ⟨chain, h⟩ := ih
    exact h.step horder c

end Invariant

/-! ## What readers and the next `Insert` see -/

section Results

variable {κ : Type} [Inhabited κ] {less : κ → κ → Bool}
variable {w : Writer κ} {done : List κ} {chain : Nat → List Nat}

variable {l : Nat} {k : κ}

theorem Inv.level_eq (h : Inv less w done chain) (horder : StrictWeakOrder less)
    (hl : l < kMaxLevel) : w.list.level l = (chain l).map w.list.key := by
  rw [level, (h.levels.links l hl).walk (h.levels.ordered.length_le horder hl)]

theorem Inv.level_sublist (h : Inv less w done chain) (horder : StrictWeakOrder less)
    (hl : l + 1 < kMaxLevel) : (w.list.level (l + 1)).Sublist (w.list.level l) := by
  have : Std.Antisymm fun a b => less (w.list.key a) (w.list.key b) = true :=
    ⟨fun a b hab hba => absurd hba (by rw [horder.asymm hab]; decide)⟩
  have hsorted := h.levels.sorted
  have hsub := ((hsorted (l + 1) hl).nodup horder).subperm (h.levels.ordered.below l hl)
  rw [h.level_eq horder hl, h.level_eq horder (by omega)]
  exact (sublist_of_subperm_of_pairwise hsub (hsorted _ hl) (hsorted l (by omega))).map _

theorem Inv.findGreaterOrEqual (h : Inv less w done chain) (horder : StrictWeakOrder less)
    (target : κ) : ∃ x prev, w.list.findGreaterOrEqual less target = some (x, prev) ∧
      x.map w.list.key = (w.list.level 0).find? fun k => !less k target := by
  obtain ⟨prev, hfind, -⟩ := h.levels.ordered.findGreaterOrEqual horder target
  refine ⟨_, prev, hfind, ?_⟩
  rw [h.level_eq horder (by decide), find?_map]
  rfl

omit [Inhabited κ] in
/-- In a sorted list, an equivalent key is the first that is not less. -/
theorem any_equal_find? (horder : StrictWeakOrder less) {ks : List κ}
    (hsorted : ks.Pairwise fun a b => less a b = true) (target : κ) :
    ((ks.find? fun k => !less k target).any fun k => equal less k target) = true ↔
      ∃ k ∈ ks, equal less k target = true := by
  constructor
  · intro hany
    obtain ⟨k, hk, hequal⟩ := (Option.any_eq_true _ _).mp hany
    exact ⟨k, mem_of_find?_eq_some hk, hequal⟩
  · rintro ⟨k, hk, hequal⟩
    have hnot : less k target = false ∧ less target k = false := by
      simpa [equal] using hequal
    cases hfind : ks.find? fun k => !less k target with
    | none =>
      have := find?_eq_none.mp hfind k hk
      rw [hnot.1] at this
      exact absurd rfl this
    | some x =>
      have hx : less x target = false := by simpa using find?_some hfind
      obtain ⟨-, front, back, rfl, hfront⟩ := find?_eq_some_iff_append.mp hfind
      rw [Option.any_some, equal, hx]
      rcases mem_append.mp hk with hk | hk
      · have := hfront k hk
        rw [hnot.1] at this
        cases this
      · rcases mem_cons.mp hk with rfl | hk
        · rw [hnot.2]
          rfl
        · have hxk := (pairwise_cons.mp (pairwise_append.mp hsorted).2.1).1 k hk
          rw [Bool.not_false, Bool.true_and, Bool.not_eq_true']
          by_contra htx
          have htk := horder.trans ((Bool.not_eq_false _).mp htx) hxk
          rw [hnot.2] at htk
          cases htk

section

variable (h : Inv less w done chain) (horder : StrictWeakOrder less)
include h horder

theorem Inv.sorted_level
    (hl : l < kMaxLevel) : (w.list.level l).Pairwise fun a b => less a b = true := by
  rw [h.level_eq horder hl]
  exact pairwise_map.mpr (h.levels.sorted l hl)

theorem Inv.contains (target : κ) :
    w.list.contains less target = true ↔ ∃ k ∈ w.list.level 0, equal less k target = true := by
  obtain ⟨x, prev, hfind, hx⟩ := h.findGreaterOrEqual horder target
  rw [← any_equal_find? horder (h.sorted_level horder (by decide)), ← hx, SkipList.contains, hfind]
  cases x with
  | none | some x => exact Iff.rfl

theorem Inv.insert_present (hk : ∃ k' ∈ w.list.level 0, equal less k' k = true) (n : Nat) :
    w.insert less k n = (w, some false) := by
  obtain ⟨x, prev, hfind, hx⟩ := h.findGreaterOrEqual horder k
  have hany := (any_equal_find? horder (h.sorted_level horder (by decide)) k).mpr hk
  rw [← hx, Option.any_map] at hany
  rw [Writer.insert, hfind]
  exact if_pos hany

theorem Inv.insert_absent (hk : ¬ ∃ k' ∈ w.list.level 0, equal less k' k = true) (n : Nat) :
    ∃ prev, w.insert less k n =
      (⟨w.list.alloc k n, some ⟨w.list.nodes.length, prev, 0, false⟩⟩, none) := by
  obtain ⟨x, prev, hfind, hx⟩ := h.findGreaterOrEqual horder k
  have hany := mt (any_equal_find? horder (h.sorted_level horder (by decide)) k).mp hk
  rw [← hx, Option.any_map] at hany
  refine ⟨prev, ?_⟩
  rw [Writer.insert, hfind]
  exact if_neg hany

end

/-- The stores an insertion under way has still to make. -/
def Pending.left (p : Pending) (s : SkipList κ) : Nat :=
  2 * (s.height p.node - p.level) - if p.stored then 1 else 0

theorem run_stores (less : κ → κ → Bool) (n : Nat) : ∀ (calls : List (Call κ)) (p : Pending),
    (run less calls).1.pending = some p → p.level < (run less calls).1.list.height p.node →
    p.left (run less calls).1.list = n →
    (run less (List.replicate n .store ++ calls)).1.pending = none ∧
      (run less (List.replicate n .store ++ calls)).2 =
        (run less calls).1.list.key p.node :: (run less calls).2 := by
  induction n with
  | zero =>
    intro calls p hp hlevel hleft
    rw [Pending.left] at hleft
    split at hleft <;> omega
  | succ n ih =>
    intro calls p hp hlevel hleft
    have hrun : run less (.store :: calls) = (((run less calls).1.store p).1,
        (run less calls).1.returned less .store ++ (run less calls).2) := by
      rw [run, Writer.step, hp]
    have hreplicate : List.replicate (n + 1) (Call.store : Call κ) ++ calls =
        List.replicate n .store ++ (.store :: calls) := by
      rw [replicate_succ', append_assoc]
      rfl
    rw [hreplicate]
    rw [Writer.returned_store hp] at hrun
    rw [Pending.left] at hleft
    cases hs : p.stored with
    | false =>
      rw [Writer.store_own hs] at hrun
      simp only [hs, Bool.false_eq_true, if_false, Nat.sub_zero] at hleft
      have hstep := ih (.store :: calls) { p with stored := true }
      rw [hrun] at hstep
      simpa using hstep rfl (by simpa using hlevel) (by simp [Pending.left]; omega)
    | true =>
      simp only [hs, if_true] at hleft
      by_cases hmore : p.level + 1 < (run less calls).1.list.height p.node
      · rw [Writer.store_more hs hmore] at hrun
        have hstep := ih (.store :: calls) { p with level := p.level + 1, stored := false }
        rw [hrun] at hstep
        simpa using hstep rfl (by simpa using hmore) (by simp [Pending.left]; omega)
      · rw [Writer.store_last hs hmore] at hrun
        obtain rfl : n = 0 := by omega
        rw [replicate_zero, nil_append, hrun]
        exact ⟨rfl, rfl⟩

/-- `Insert` and all the stores it makes for a key that is not there. -/
def insertCalls (k : κ) (n : Height) : List (Call κ) :=
  List.replicate (2 * n.1) .store ++ [.insert k n]

theorem run_insertCalls (horder : StrictWeakOrder less) {calls : List (Call κ)}
    (hidle : (run less calls).1.pending = none)
    (hk : ¬ ∃ k' ∈ (run less calls).1.list.level 0, equal less k' k = true) (n : Height) :
    (run less (insertCalls k n ++ calls)).1.pending = none ∧
      (run less (insertCalls k n ++ calls)).2 = k :: (run less calls).2 := by
  obtain ⟨chain, h⟩ := run_inv horder calls
  obtain ⟨prev, hinsert⟩ := h.insert_absent horder hk n.1
  have hrun : run less (.insert k n :: calls) = (⟨(run less calls).1.list.alloc k n.1,
        some ⟨(run less calls).1.list.nodes.length, prev, 0, false⟩⟩, (run less calls).2) := by
    have hstep : (run less calls).1.step less (.insert k n) = _ :=
      (by rw [Writer.step, hidle] : _ = (run less calls).1.insert less k n.1).trans hinsert
    rw [run, Writer.returned, hstep]
    rfl
  have hstores := run_stores less (2 * n.1) (.insert k n :: calls)
    ⟨(run less calls).1.list.nodes.length, prev, 0, false⟩
  rw [hrun] at hstores
  rw [insertCalls, append_assoc]
  have hpos : 0 < n.1 := n.2.1
  simpa using hstores rfl (by simpa using hpos) (by simp [Pending.left])

/-- What a reader finds in a list, whose insertions of `done` have returned: every level increases
strictly and is a sub-list of the level below; the search shows the first key of level 0 that is
not less than the target; and level 0 has all of `done`, and the key being inserted at most. -/
structure Reads (less : κ → κ → Bool) (w : Writer κ) (done : List κ) : Prop where
  increasing : ∀ l < kMaxLevel, (w.list.level l).Pairwise fun a b => less a b = true
  sublist : ∀ l, l + 1 < kMaxLevel → (w.list.level (l + 1)).Sublist (w.list.level l)
  search : ∀ target, ∃ x prev, w.list.findGreaterOrEqual less target = some (x, prev) ∧
    x.map w.list.key = (w.list.level 0).find? fun k => !less k target
  contains : ∀ target, w.list.contains less target = true ↔
    ∃ k ∈ w.list.level 0, equal less k target = true
  kept : (w.list.level 0).Perm (w.linking ++ done)

theorem Inv.reads (h : Inv less w done chain) (horder : StrictWeakOrder less) :
    Reads less w done where
  increasing _ hl := h.sorted_level horder hl
  sublist _ hl := h.level_sublist horder hl
  search := h.findGreaterOrEqual horder
  contains := h.contains horder
  kept := by
    rw [h.level_eq horder (by decide)]
    exact h.keys

/-- **The skiplist**, for every strict weak order, after any stores of any insertions with any
heights.  Readers find what `Reads` says.  When no insertion is under way, `Insert` of a key with
an equivalent one in the list returns `false` and changes nothing, and `Insert` of any other key
makes its stores, returns `true`, and no insertion is under way. -/
theorem run_skipList (horder : StrictWeakOrder less) (calls : List (Call κ)) :
    Reads less (run less calls).1 (run less calls).2 ∧
    ((run less calls).1.pending = none → ∀ (k : κ) (n : Height),
      ((∃ k' ∈ (run less calls).1.list.level 0, equal less k' k = true) →
        (run less calls).1.step less (.insert k n) = ((run less calls).1, some false)) ∧
      ((¬ ∃ k' ∈ (run less calls).1.list.level 0, equal less k' k = true) →
        ((run less calls).1.step less (.insert k n)).2 = none ∧
        (run less (insertCalls k n ++ calls)).1.pending = none ∧
        (run less (insertCalls k n ++ calls)).2 = k :: (run less calls).2)) := by
  obtain ⟨chain, h⟩ := run_inv horder calls
  refine ⟨h.reads horder, fun hidle k n => ⟨fun hk => ?_, fun hk => ⟨?_, ?_⟩⟩⟩
  · rw [Writer.step, hidle]
    exact h.insert_present horder hk n.1
  · obtain ⟨prev, hinsert⟩ := h.insert_absent horder hk n.1
    rw [Writer.step, hidle]
    exact congrArg Prod.snd hinsert
  · exact run_insertCalls horder hidle hk n

theorem natLess_weakOrder : StrictWeakOrder fun a b : Nat => decide (a < b) where
  irrefl a := by simp
  trans := by
    intro a b c hab hbc
    simp only [decide_eq_true_eq] at hab hbc ⊢
    omega
  cotrans := by
    intro a b c hab
    simp only [decide_eq_true_eq] at hab ⊢
    omega

/-- Three insertions are done, and a fourth stands between its two links. -/
theorem run_skipList_between :
    let calls := [.store, .store, .store, .insert 4 ⟨2, by decide⟩] ++
      insertCalls 7 ⟨1, by decide⟩ ++ insertCalls 2 ⟨3, by decide⟩ ++ insertCalls 5 ⟨2, by decide⟩
    let r := run (fun a b : Nat => decide (a < b)) calls
    r.1.list.level 0 = [2, 4, 5, 7] ∧ r.1.list.level 1 = [2, 5] ∧ r.2 = [7, 2, 5] ∧
      Reads (fun a b : Nat => decide (a < b)) r.1 r.2 :=
  ⟨by decide +kernel, by decide +kernel, by decide +kernel,
    (run_skipList natLess_weakOrder _).1⟩

end Results

end SkipList

end BedrockKV
