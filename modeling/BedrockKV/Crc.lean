/-
# `BedrockKV.Crc` — what the CRC tells apart

One byte of input moves the register `c` to `crcStep (c ^ byte)`.  The shift is
linear over xor (`crcBit_xor`) and loses nothing, since the bit that is shifted
out comes back as the top bit of the polynomial (`crcBit_eq_zero`).  So a step
is injective in the register (`crcByte_left_injective`).  The register is four
bytes wide: up to four bytes of input can be put into it before the first step
(`foldl_crcByte_word`), so that these are injective in the bytes as well, and
two inputs that differ within four bytes have different CRCs
(`crc32_burst_ne`).  A CRC taken in pieces is that of the whole
(`crc32_append`).
-/
import BedrockKV.Log

namespace BedrockKV

open List

/-! ## Shifts -/

theorem and_one_eq_one_iff (c : UInt32) : c &&& 1 = 1 ↔ c.toNat % 2 = 1 := by
  rw [← UInt32.toNat_inj, UInt32.toNat_and]
  change c.toNat &&& 1 = 1 ↔ _
  rw [Nat.and_one_is_mod]

theorem toNat_shiftRight_one (c : UInt32) : (c >>> 1).toNat = c.toNat / 2 := by
  rw [UInt32.toNat_shiftRight]
  exact Nat.shiftRight_eq_div_pow c.toNat 1

theorem crcBit_odd {c : UInt32} (h : c.toNat % 2 = 1) :
    crcBit c = (0xEDB88320 : UInt32) ^^^ (c >>> 1) := by
  rw [crcBit, if_pos ((and_one_eq_one_iff c).mpr h)]

theorem crcBit_even {c : UInt32} (h : c.toNat % 2 = 0) : crcBit c = c >>> 1 := by
  rw [crcBit, if_neg]
  rw [and_one_eq_one_iff]
  omega

/-- **A shift is linear.** -/
theorem crcBit_xor (a b : UInt32) : crcBit (a ^^^ b) = crcBit a ^^^ crcBit b := by
  have hlow : (a ^^^ b).toNat % 2 = (a.toNat + b.toNat) % 2 := by
    rw [UInt32.toNat_xor, Nat.xor_mod_two_eq]
  have hcancel : ∀ p x y : UInt32, (p ^^^ x) ^^^ (p ^^^ y) = x ^^^ y := by
    intro p x y
    rw [UInt32.xor_comm p x, UInt32.xor_assoc, ← UInt32.xor_assoc p p y, UInt32.xor_self,
      UInt32.zero_xor]
  rcases Nat.mod_two_eq_zero_or_one a.toNat with ha | ha <;>
    rcases Nat.mod_two_eq_zero_or_one b.toNat with hb | hb
  · rw [crcBit_even ha, crcBit_even hb, crcBit_even (by omega), UInt32.shiftRight_xor]
  · rw [crcBit_even ha, crcBit_odd hb, crcBit_odd (by omega), UInt32.shiftRight_xor,
      ← UInt32.xor_assoc, ← UInt32.xor_assoc, UInt32.xor_comm (a >>> 1)]
  · rw [crcBit_odd ha, crcBit_even hb, crcBit_odd (by omega), UInt32.shiftRight_xor,
      UInt32.xor_assoc]
  · rw [crcBit_odd ha, crcBit_odd hb, crcBit_even (by omega), UInt32.shiftRight_xor, hcancel]

/-- **A shift loses nothing**: the polynomial has the top bit, which no shifted register has. -/
theorem crcBit_eq_zero {c : UInt32} (h : crcBit c = 0) : c = 0 := by
  rw [← UInt32.toNat_inj]
  change c.toNat = 0
  rcases Nat.mod_two_eq_zero_or_one c.toNat with hc | hc
  · rw [crcBit_even hc, ← UInt32.toNat_inj, toNat_shiftRight_one] at h
    change c.toNat / 2 = 0 at h
    omega
  · rw [crcBit_odd hc, UInt32.xor_eq_zero_iff, ← UInt32.toNat_inj, toNat_shiftRight_one] at h
    have hlt := c.toNat_lt
    change 0xEDB88320 = c.toNat / 2 at h
    omega

theorem crcTable_xor (a b : UInt32) : crcTable (a ^^^ b) = crcTable a ^^^ crcTable b := by
  simp only [crcTable, crcBit_xor]

theorem crcTable_injective {a b : UInt32} (h : crcTable a = crcTable b) : a = b := by
  rw [← UInt32.xor_eq_zero_iff, ← crcTable_xor, crcTable] at h
  rw [← UInt32.xor_eq_zero_iff]
  exact crcBit_eq_zero (crcBit_eq_zero (crcBit_eq_zero (crcBit_eq_zero (crcBit_eq_zero
    (crcBit_eq_zero (crcBit_eq_zero (crcBit_eq_zero h)))))))

theorem toNat_shiftLeft_eight {w : UInt32} (h : w.toNat < 2 ^ 24) :
    (w <<< 8).toNat = w.toNat * 256 := by
  rw [UInt32.toNat_shiftLeft]
  change w.toNat <<< 8 % 2 ^ 32 = _
  rw [Nat.shiftLeft_eq]
  omega

theorem crcTable_shiftLeft {w : UInt32} (h : w.toNat < 2 ^ 24) : crcTable (w <<< 8) = w := by
  -- a shift of an even number halves it
  have hhalf : ∀ {c : UInt32} {n : Nat}, c.toNat = 2 * n → (crcBit c).toNat = n := by
    intro c n hc
    rw [crcBit_even (by omega), toNat_shiftRight_one]
    omega
  rw [← UInt32.toNat_inj]
  unfold crcTable
  refine hhalf (hhalf (hhalf (hhalf (hhalf (hhalf (hhalf (hhalf ?_)))))))
  rw [toNat_shiftLeft_eight h]
  omega

/-! ## Bytes -/

/-- What a byte does to the register, once it is in it. -/
def crcStep (x : UInt32) : UInt32 := crcTable (x &&& 0xFF) ^^^ (x >>> 8)

theorem toNat_shiftRight_eight (x : UInt32) : (x >>> 8).toNat = x.toNat / 256 := by
  rw [UInt32.toNat_shiftRight]
  exact Nat.shiftRight_eq_div_pow x.toNat 8

theorem toNat_and_low (x : UInt32) : (x &&& 0xFF).toNat = x.toNat % 256 := by
  rw [UInt32.toNat_and]
  exact Nat.and_two_pow_sub_one_eq_mod x.toNat 8

theorem crcByte_eq (c : UInt32) (b : UInt8) : crcByte c b = crcStep (c ^^^ b.toUInt32) := by
  have hb : b.toUInt32 >>> 8 = 0 := by
    rw [← UInt32.toNat_inj, toNat_shiftRight_eight]
    have := b.toNat_lt
    change b.toNat / 256 = 0
    omega
  rw [crcByte, crcStep, UInt32.shiftRight_xor, hb, UInt32.xor_zero]

theorem crcStep_xor (x y : UInt32) : crcStep (x ^^^ y) = crcStep x ^^^ crcStep y := by
  have hlow : (x ^^^ y) &&& 0xFF = (x &&& 0xFF) ^^^ (y &&& 0xFF) := by
    rw [← UInt32.toNat_inj, UInt32.toNat_xor, toNat_and_low, toNat_and_low, toNat_and_low,
      UInt32.toNat_xor]
    exact Nat.xor_mod_two_pow (n := 8)
  rw [crcStep, crcStep, crcStep, hlow, crcTable_xor, UInt32.shiftRight_xor]
  ac_rfl

/-- **A step loses nothing**: the low byte goes through the table and the other three are shifted
into its place, so for the two to cancel both must be zero. -/
theorem crcStep_eq_zero {d : UInt32} (h : crcStep d = 0) : d = 0 := by
  have hd := d.toNat_lt
  have hw : (d >>> 8).toNat < 2 ^ 24 := by
    rw [toNat_shiftRight_eight]
    omega
  have hlow : d &&& (0xFF : UInt32) = (d >>> 8) <<< 8 := by
    rw [crcStep, UInt32.xor_eq_zero_iff] at h
    exact crcTable_injective (h.trans (crcTable_shiftLeft hw).symm)
  rw [← UInt32.toNat_inj, toNat_and_low, toNat_shiftLeft_eight hw, toNat_shiftRight_eight] at hlow
  rw [← UInt32.toNat_inj]
  change d.toNat = 0
  omega

theorem crcStep_injective {x y : UInt32} (h : crcStep x = crcStep y) : x = y := by
  rw [← UInt32.xor_eq_zero_iff, ← crcStep_xor] at h
  exact UInt32.xor_eq_zero_iff.mp (crcStep_eq_zero h)

theorem crcByte_left_injective {c d : UInt32} {b : UInt8} (h : crcByte c b = crcByte d b) :
    c = d := by
  rw [crcByte_eq, crcByte_eq] at h
  exact (UInt32.xor_left_inj _).mp (crcStep_injective h)

/-! ## Whole inputs -/

theorem crc32_append (a b : Bytes) (c : UInt32) : crc32 (a ++ b) c = crc32 b (crc32 a c) := by
  simp only [crc32, foldl_append]
  rw [UInt32.xor_assoc _ 0xFFFFFFFF 0xFFFFFFFF, UInt32.xor_self, UInt32.xor_zero]

theorem foldl_crcByte_injective {c d : UInt32} :
    ∀ zs : Bytes, zs.foldl crcByte c = zs.foldl crcByte d → c = d := by
  intro zs
  induction zs generalizing c d with
  | nil => exact id
  | cons b zs ih =>
    intro h
    exact crcByte_left_injective (ih h)

theorem crcStep_shiftLeft {w : UInt32} (h : w.toNat < 2 ^ 24) : crcStep (w <<< 8) = w := by
  have hlow : (w <<< 8) &&& (0xFF : UInt32) = 0 := by
    rw [← UInt32.toNat_inj, toNat_and_low, toNat_shiftLeft_eight h]
    exact Nat.mul_mod_left _ _
  have hhigh : (w <<< 8) >>> 8 = w := by
    rw [← UInt32.toNat_inj, toNat_shiftRight_eight, toNat_shiftLeft_eight h]
    exact Nat.mul_div_cancel _ (by decide)
  rw [crcStep, hlow, hhigh, show crcTable 0 = 0 by decide, UInt32.zero_xor]

theorem toNat_ofNat_getFixed {n : Nat} (hn : n ≤ 4) (ys : Bytes) :
    (UInt32.ofNat (getFixed n ys)).toNat = getFixed n ys :=
  UInt32.toNat_ofNat_of_lt'
    (lt_of_lt_of_le (getFixed_lt n ys) (Nat.pow_le_pow_right (by decide) hn))

theorem ofNat_getFixed_cons {n : Nat} (b : UInt8) (ys : Bytes) (hn : n ≤ 3) :
    UInt32.ofNat (getFixed (n + 1) (b :: ys)) =
      b.toUInt32 ^^^ (UInt32.ofNat (getFixed n ys) <<< 8) := by
  have hlt : getFixed n ys < 2 ^ 24 :=
    lt_of_lt_of_le (getFixed_lt n ys) (Nat.pow_le_pow_right (by decide) hn)
  have hb := b.toNat_lt
  have hword := toNat_ofNat_getFixed (show n ≤ 4 by omega) ys
  have hshift : (UInt32.ofNat (getFixed n ys) <<< 8).toNat = getFixed n ys * 256 := by
    rw [toNat_shiftLeft_eight (by rw [hword]; exact hlt), hword]
  rw [← UInt32.toNat_inj, UInt32.toNat_xor, hshift, toNat_ofNat_getFixed (by omega)]
  change b.toNat + 256 * getFixed n ys = b.toNat ^^^ getFixed n ys * 256
  have hmod : (b.toNat ^^^ getFixed n ys * 256) % 2 ^ 8 = b.toNat := by
    rw [Nat.xor_mod_two_pow, Nat.mod_eq_of_lt hb, Nat.mul_mod_left, Nat.xor_zero]
  have hdiv : (b.toNat ^^^ getFixed n ys * 256) / 2 ^ 8 = getFixed n ys := by
    rw [Nat.xor_div_two_pow, Nat.div_eq_of_lt hb, Nat.mul_div_cancel _ (by decide), Nat.zero_xor]
  have := Nat.div_add_mod (b.toNat ^^^ getFixed n ys * 256) (2 ^ 8)
  omega

/-- **Up to four bytes are one word**: they are in the register before the first step. -/
theorem foldl_crcByte_word (ys : Bytes) (c : UInt32) (h : ys.length ≤ 4) :
    ys.foldl crcByte c = crcStep^[ys.length] (c ^^^ UInt32.ofNat (getFixed ys.length ys)) := by
  induction ys generalizing c with
  | nil => exact (UInt32.xor_zero).symm
  | cons b ys ih =>
    have hn : ys.length ≤ 3 := Nat.le_of_succ_le_succ h
    have hword : (UInt32.ofNat (getFixed ys.length ys)).toNat < 2 ^ 24 := by
      rw [toNat_ofNat_getFixed (by omega)]
      exact lt_of_lt_of_le (getFixed_lt _ ys) (Nat.pow_le_pow_right (by decide) hn)
    rw [foldl_cons, ih _ (by omega), length_cons, Function.iterate_succ_apply,
      ofNat_getFixed_cons b ys hn, ← UInt32.xor_assoc, crcStep_xor, crcStep_shiftLeft hword,
      crcByte_eq]

theorem foldl_crcByte_right_injective {ys ys' : Bytes} {c : UInt32} (hlen : ys.length = ys'.length)
    (h4 : ys.length ≤ 4) (h : ys.foldl crcByte c = ys'.foldl crcByte c) : ys = ys' := by
  have hinj : Function.Injective crcStep^[ys.length] :=
    Function.Injective.iterate (fun _ _ => crcStep_injective) _
  rw [foldl_crcByte_word ys c h4, foldl_crcByte_word ys' c (hlen ▸ h4), ← hlen] at h
  have hword := congrArg UInt32.toNat ((UInt32.xor_right_inj _).mp (hinj h))
  rw [toNat_ofNat_getFixed h4, toNat_ofNat_getFixed h4] at hword
  exact getFixed_injective rfl hlen.symm hword

/-- **Two inputs that differ within four bytes have different CRCs.** -/
theorem crc32_burst_ne {ys ys' : Bytes} (hne : ys ≠ ys') (hlen : ys.length = ys'.length)
    (h4 : ys.length ≤ 4) (xs zs : Bytes) (c : UInt32) :
    crc32 (xs ++ ys ++ zs) c ≠ crc32 (xs ++ ys' ++ zs) c := by
  intro heq
  have hfold := (UInt32.xor_left_inj _).mp heq
  simp only [foldl_append] at hfold
  exact hne (foldl_crcByte_right_injective hlen h4 (foldl_crcByte_injective zs hfold))

/-- **Two inputs that differ in one byte have different CRCs.** -/
theorem crc32_ne {b b' : UInt8} (h : b ≠ b') (xs zs : Bytes) (c : UInt32) :
    crc32 (xs ++ b :: zs) c ≠ crc32 (xs ++ b' :: zs) c := by
  have hne : [b] ≠ [b'] := fun heq => h (head_eq_of_cons_eq heq)
  have hcrc := crc32_burst_ne hne rfl (by simp) xs zs c
  rwa [append_assoc, append_assoc] at hcrc

end BedrockKV
