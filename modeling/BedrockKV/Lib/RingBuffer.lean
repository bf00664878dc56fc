/-
# `BedrockKV.Lib.RingBuffer` — rings with free-running indices

A ring of `2 ^ a` slots whose indices only ever grow.  They are kept in 32 bits
and masked at each access, so that the `i`-th element of all that was ever put
in is in the slot of `i` modulo both.  Two parties agree on what lies between
their indices as long as no more than a ring's length does:

    the difference of two indices is the number of elements between them  (`toNat_sub_ofNat`)
    the slots of such elements differ                                      (`slot_ne`)
    an element is put in without touching the others                       (`Holds.push`)
-/
import Mathlib

namespace RingBuffer

variable {α : Type*} {mask : UInt32} {a : Nat}

/-- The slot of the index `i`. -/
def slot (mask : UInt32) (i : Nat) : UInt32 := UInt32.ofNat i &&& mask

theorem toNat_slot (hmask : mask.toNat = 2 ^ a - 1) (ha : a ≤ 32) (i : Nat) :
    (slot mask i).toNat = i % 2 ^ a := by
  rw [slot, UInt32.toNat_and, hmask, Nat.and_two_pow_sub_one_eq_mod, UInt32.toNat_ofNat',
    Nat.mod_mod_of_dvd _ (Nat.pow_dvd_pow 2 ha)]

theorem slot_ne (hmask : mask.toNat = 2 ^ a - 1) (ha : a ≤ 32) {i j : Nat} (hlt : i < j)
    (hnear : j < i + 2 ^ a) : slot mask i ≠ slot mask j := by
  intro heq
  have hmod : i ≡ j [MOD 2 ^ a] := by
    rw [Nat.ModEq, ← toNat_slot hmask ha, ← toNat_slot hmask ha, heq]
  have hdvd := (Nat.modEq_iff_dvd' hlt.le).mp hmod
  have := Nat.le_of_dvd (by omega) hdvd
  omega

theorem toNat_sub_ofNat {i j : Nat} (hle : i ≤ j) (hnear : j < i + 2 ^ 32) :
    (UInt32.ofNat j - UInt32.ofNat i).toNat = j - i := by
  rw [UInt32.toNat_sub, UInt32.toNat_ofNat', UInt32.toNat_ofNat']
  omega

theorem ofNat_inj {i j : Nat} (hle : i ≤ j) (hnear : j < i + 2 ^ 32)
    (h : UInt32.ofNat i = UInt32.ofNat j) : i = j := by
  have hsub := toNat_sub_ofNat hle hnear
  rw [h, UInt32.sub_self] at hsub
  have : j - i = 0 := hsub.symm
  omega

theorem ofNat_succ (i : Nat) : UInt32.ofNat i + 1 = UInt32.ofNat (i + 1) := by
  rw [UInt32.ofNat_add]
  rfl

/-- From the index `lo` on, the elements of `xs` are in their slots. -/
def Holds (mask : UInt32) (mem : UInt32 → α) (xs : List α) (lo : Nat) : Prop :=
  ∀ i x, lo ≤ i → xs[i]? = some x → mem (slot mask i) = x

variable {mem : UInt32 → α} {xs : List α} {lo : Nat}

theorem Holds.advance {lo' : Nat} (h : Holds mask mem xs lo) (hle : lo ≤ lo') :
    Holds mask mem xs lo' := fun i x hi => h i x (hle.trans hi)

/-- **Putting an element in** leaves those that are still there. -/
theorem Holds.push (h : Holds mask mem xs lo) (hmask : mask.toNat = 2 ^ a - 1) (ha : a ≤ 32)
    (hroom : xs.length < lo + 2 ^ a) (x : α) :
    Holds mask (Function.update mem (slot mask xs.length) x) (xs ++ [x]) lo := by
  intro i y hi hy
  rcases Nat.lt_or_ge i xs.length with hlt | hge
  · rw [Function.update_of_ne (slot_ne hmask ha hlt (by omega))]
    rw [List.getElem?_append_left hlt] at hy
    exact h i y hi hy
  · rw [List.getElem?_append_right hge, List.getElem?_singleton] at hy
    split_ifs at hy with hzero
    obtain rfl : i = xs.length := by omega
    rw [Function.update_self]
    exact Option.some.inj hy

end RingBuffer
