/-
# `BedrockKV.Encoding` — bytes, fixed-width integers, statuses

`std::string` is a list of bytes compared as unsigned characters, which is
the lexicographic order of `List UInt8`.  `PutFixed32`/`PutFixed64` write the
low 32 or 64 bits little-endian; `GetFixed32`/`GetFixed64` read them back.
A C++ read past the end of a buffer is undefined; the getters here take the
bytes that are there and count the missing ones as zero, and every caller
checks its bounds first, as the source does.
-/
import Mathlib

namespace BedrockKV

open List

abbrev Bytes := List UInt8

instance byteLinearOrder : LinearOrder UInt8 where
  le_refl := UInt8.le_refl
  le_trans _ _ _ := UInt8.le_trans
  lt_iff_le_not_ge a b := by
    rw [UInt8.lt_iff_toNat_lt, UInt8.le_iff_toNat_le, UInt8.le_iff_toNat_le]
    omega
  le_antisymm _ _ := UInt8.le_antisymm
  le_total := UInt8.le_total
  toDecidableLE := inferInstance

/-- `Status::Code` without `kOk`: an operation that succeeds returns a value. -/
inductive Code where
  | notFound
  | corruption
  | ioError
  | invalidArgument
  deriving DecidableEq, Repr

/-- An error status: the code and the message. -/
structure Status where
  code : Code
  message : Bytes
  deriving DecidableEq, Repr

/-- The bytes of an ASCII message. -/
def ascii (s : String) : Bytes := s.toList.map fun c => UInt8.ofNat c.toNat

/-! ## Little-endian integers -/

/-- The `n` low bytes of `v`, least significant first. -/
def putFixed : Nat → Nat → Bytes
  | 0, _ => []
  | n + 1, v => UInt8.ofNat v :: putFixed n (v / 256)

/-- The integer the first `n` bytes stand for. -/
def getFixed : Nat → Bytes → Nat
  | 0, _ => 0
  | _ + 1, [] => 0
  | n + 1, b :: bs => b.toNat + 256 * getFixed n bs

def putFixed32 (v : Nat) : Bytes := putFixed 4 v
def putFixed64 (v : Nat) : Bytes := putFixed 8 v
def getFixed32 (bs : Bytes) : Nat := getFixed 4 bs
def getFixed64 (bs : Bytes) : Nat := getFixed 8 bs

theorem length_putFixed (n v : Nat) : (putFixed n v).length = n := by
  induction n generalizing v with
  | zero => rfl
  | succ n ih => simp [putFixed, ih]

@[simp] theorem length_putFixed32 (v : Nat) : (putFixed32 v).length = 4 := length_putFixed 4 v

@[simp] theorem length_putFixed64 (v : Nat) : (putFixed64 v).length = 8 := length_putFixed 8 v

theorem getFixed_lt (n : Nat) (bs : Bytes) : getFixed n bs < 256 ^ n := by
  induction n generalizing bs with
  | zero => simp [getFixed]
  | succ n ih =>
    cases bs with
    | nil => exact Nat.pow_pos (by decide)
    | cons b bs =>
      have hb : b.toNat < 256 := b.toNat_lt
      have := ih bs
      simp only [getFixed, Nat.pow_succ]
      omega

theorem getFixed_putFixed (n v : Nat) (rest : Bytes) :
    getFixed n (putFixed n v ++ rest) = v % 256 ^ n := by
  induction n generalizing v with
  | zero => simp [getFixed, Nat.mod_one]
  | succ n ih =>
    have hb : (UInt8.ofNat v).toNat = v % 256 := by simp
    simp only [putFixed, cons_append, getFixed, ih, hb]
    rw [Nat.pow_succ', Nat.mod_mul]

theorem getFixed32_putFixed32 {v : Nat} (h : v < 2 ^ 32) (rest : Bytes) :
    getFixed32 (putFixed32 v ++ rest) = v := by
  rw [getFixed32, putFixed32, getFixed_putFixed]
  exact Nat.mod_eq_of_lt (by omega)

theorem getFixed64_putFixed64 {v : Nat} (h : v < 2 ^ 64) (rest : Bytes) :
    getFixed64 (putFixed64 v ++ rest) = v := by
  rw [getFixed64, putFixed64, getFixed_putFixed]
  exact Nat.mod_eq_of_lt (by omega)

theorem getFixed_append {n : Nat} {bs : Bytes} (h : n ≤ bs.length) (rest : Bytes) :
    getFixed n (bs ++ rest) = getFixed n bs := by
  induction n generalizing bs with
  | zero => rfl
  | succ n ih =>
    cases bs with
    | nil => simp at h
    | cons b bs =>
      simp only [cons_append, getFixed]
      rw [ih (by simpa using h)]

theorem getFixed_take {n m : Nat} {bs : Bytes} (h : n ≤ m) :
    getFixed n (bs.take m) = getFixed n bs := by
  induction n generalizing m bs with
  | zero => rfl
  | succ n ih =>
    cases bs with
    | nil => simp
    | cons b bs =>
      obtain ⟨m, rfl⟩ : ∃ k, m = k + 1 := ⟨m - 1, by omega⟩
      simp only [take_succ_cons, getFixed, ih (Nat.le_of_succ_le_succ h)]

theorem getFixed_injective {n : Nat} {bs bs' : Bytes} (hlen : bs.length = n)
    (hlen' : bs'.length = n) (h : getFixed n bs = getFixed n bs') : bs = bs' := by
  induction n generalizing bs bs' with
  | zero => rw [length_eq_zero_iff.mp hlen, length_eq_zero_iff.mp hlen']
  | succ n ih =>
    obtain ⟨b, bs, rfl⟩ := exists_cons_of_length_eq_add_one hlen
    obtain ⟨b', bs', rfl⟩ := exists_cons_of_length_eq_add_one hlen'
    have hb := b.toNat_lt
    have hb' := b'.toNat_lt
    simp only [getFixed] at h
    have hhead : b = b' := UInt8.toNat_inj.mp (by omega)
    have htail : bs = bs' := ih (Nat.succ.inj hlen) (Nat.succ.inj hlen') (by omega)
    rw [hhead, htail]

theorem putFixed_mod (n v : Nat) : putFixed n (v % 256 ^ n) = putFixed n v := by
  refine getFixed_injective (length_putFixed n _) (length_putFixed n v) ?_
  rw [← append_nil (putFixed n _), ← append_nil (putFixed n v), getFixed_putFixed,
    getFixed_putFixed, Nat.mod_mod]

theorem putFixed_getFixed {n : Nat} {bs : Bytes} (h : n ≤ bs.length) :
    putFixed n (getFixed n bs) = bs.take n := by
  have htake : (bs.take n).length = n := length_take_of_le h
  refine getFixed_injective (length_putFixed n _) htake ?_
  have hput := getFixed_putFixed n (getFixed n bs) []
  rw [append_nil, Nat.mod_eq_of_lt (getFixed_lt n bs)] at hput
  rw [hput, getFixed_take (Nat.le_refl n)]

end BedrockKV
