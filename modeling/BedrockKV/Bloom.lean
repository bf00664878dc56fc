/-
# `BedrockKV.Bloom` — the filter of a data block

`bloom.h`: a bit array with the number of probes in its last byte.  Each key
sets the bits that its hash walks over; a lookup walks the same way and says no
at the first bit that is clear.  A set bit is never cleared, so a key that was
added is never denied (`keyMayMatch_buildFilter`), whatever the number of
probes is.
-/
import BedrockKV.Log

namespace BedrockKV.Bloom

open List

def hash (key : Bytes) : UInt32 := crc32 key 0xbc9f1d34

/-- The hash turned by 17 bits, added between probes. -/
def delta (h : UInt32) : UInt32 := (h >>> 17) ||| (h <<< 15)

def bitMask (bitpos : Nat) : UInt8 := UInt8.ofNat (2 ^ (bitpos % 8))

def setBit (filter : Bytes) (bitpos : Nat) : Bytes :=
  filter.modify (bitpos / 8) fun b => b ||| bitMask bitpos

def testBit (filter : Bytes) (bitpos : Nat) : Bool :=
  filter.getD (bitpos / 8) 0 &&& bitMask bitpos ≠ 0

/-- `k = static_cast<int>(bits_per_key * 0.69)`, clamped to `[1, 30]`.  A product that no
`int` holds converts to whatever the platform makes of it, `wild`. -/
def probes (wild : Int) (bitsPerKey : Nat) : Nat :=
  let k : Int := if bitsPerKey * 69 / 100 < 2 ^ 31 then (bitsPerKey * 69 / 100 : Nat) else wild
  let k := if k < 1 then 1 else k
  let k := if 30 < k then 30 else k
  k.toNat

/-- The loop of one key: `k` probes from `h` on. -/
def addProbes (bits : Nat) (step : UInt32) : Nat → UInt32 → Bytes → Bytes
  | 0, _, filter => filter
  | k + 1, h, filter => addProbes bits step k (h + step) (setBit filter (h.toNat % bits))

def addKey (bits k : Nat) (filter key : Bytes) : Bytes :=
  addProbes bits (delta (hash key)) k (hash key) filter

/-- The bytes of the bit array, in `size_t`: at least 64 bits, in whole bytes. -/
def filterBytes (n bitsPerKey : Nat) : Nat :=
  let bits := n * bitsPerKey % 2 ^ 64
  let bits := if bits < 64 then 64 else bits
  (bits + 7) % 2 ^ 64 / 8

def buildFilter (wild : Int) (keys : List Bytes) (bitsPerKey : Nat) : Bytes :=
  if keys = [] then []
  else
    let bytes := filterBytes keys.length bitsPerKey
    let k := probes wild bitsPerKey
    keys.foldl (addKey (bytes * 8) k) (List.replicate bytes 0) ++ [UInt8.ofNat k]

def testProbes (filter : Bytes) (bits : Nat) (step : UInt32) : Nat → UInt32 → Bool
  | 0, _ => true
  | k + 1, h =>
    if testBit filter (h.toNat % bits) then testProbes filter bits step k (h + step) else false

def keyMayMatch (filter key : Bytes) : Bool :=
  if filter.length < 2 then true
  else
    let k := (filter.getLastD 0).toNat
    testProbes filter ((filter.length - 1) * 8) (delta (hash key)) k (hash key)

/-! ## Bits -/

theorem bitMask_ne_zero (i : Nat) : bitMask i ≠ 0 := by
  have h : i % 8 < 8 := Nat.mod_lt _ (by decide)
  unfold bitMask
  interval_cases i % 8 <;> decide

@[simp] theorem length_setBit (filter : Bytes) (i : Nat) :
    (setBit filter i).length = filter.length :=
  length_modify _ _ _

theorem testBit_setBit_self {filter : Bytes} {i : Nat} (h : i / 8 < filter.length) :
    testBit (setBit filter i) i = true := by
  have hget : (setBit filter i).getD (i / 8) 0 = filter.getD (i / 8) 0 ||| bitMask i := by
    simp [setBit, getD_eq_getElem?_getD, getElem?_eq_getElem h]
  rw [testBit, hget, decide_eq_true_eq]
  intro hzero
  have hmask : (filter.getD (i / 8) 0 ||| bitMask i) &&& bitMask i = bitMask i := by
    rw [← UInt8.toBitVec_inj]
    simp only [UInt8.toBitVec_and, UInt8.toBitVec_or]
    ext j
    simpa using .inr
  exact bitMask_ne_zero i (hmask.symm.trans hzero)

theorem testBit_setBit {filter : Bytes} {i : Nat} (j : Nat) (h : testBit filter i = true) :
    testBit (setBit filter j) i = true := by
  rw [testBit, decide_eq_true_eq] at h ⊢
  have hget : ∃ m, (setBit filter j).getD (i / 8) 0 = filter.getD (i / 8) 0 ||| m := by
    simp only [setBit, getD_eq_getElem?_getD, getElem?_modify]
    cases hi : filter[i / 8]? with
    | none =>
      refine ⟨0, ?_⟩
      split <;> simp
    | some b =>
      split
      · exact ⟨bitMask j, rfl⟩
      · exact ⟨0, by simp⟩
  obtain ⟨m, hm⟩ := hget
  intro hzero
  refine h ?_
  rw [hm] at hzero
  rw [← UInt8.toBitVec_inj] at hzero ⊢
  simp only [UInt8.toBitVec_and, UInt8.toBitVec_or] at hzero ⊢
  ext k hk
  have hk' := congrArg (fun v => v.getLsbD k) hzero
  simp only [BitVec.getLsbD_and, BitVec.getLsbD_or] at hk'
  simp_all

/-! ## No false negatives -/

/-- `g` has every bit that `f` has. -/
def Keeps (f g : Bytes) : Prop := f.length = g.length ∧ ∀ i, testBit f i = true → testBit g i = true

theorem Keeps.refl (f : Bytes) : Keeps f f := ⟨rfl, fun _ => id⟩

theorem Keeps.trans {f g h : Bytes} (hfg : Keeps f g) (hgh : Keeps g h) : Keeps f h :=
  ⟨hfg.1.trans hgh.1, fun i hi => hgh.2 i (hfg.2 i hi)⟩

theorem keeps_setBit (f : Bytes) (i : Nat) : Keeps f (setBit f i) :=
  ⟨(length_setBit f i).symm, fun _ => testBit_setBit i⟩

theorem keeps_addProbes (bits : Nat) (step : UInt32) (k : Nat) :
    ∀ (h : UInt32) (f : Bytes), Keeps f (addProbes bits step k h f) := by
  induction k with
  | zero => exact fun _ f => Keeps.refl f
  | succ k ih => exact fun h f => (keeps_setBit f _).trans (ih (h + step) _)

theorem keeps_foldl (bits k : Nat) (keys : List Bytes) :
    ∀ f : Bytes, Keeps f (keys.foldl (addKey bits k) f) := by
  induction keys with
  | nil => exact Keeps.refl
  | cons key keys ih => exact fun f => (keeps_addProbes _ _ _ _ f).trans (ih _)

theorem testProbes_of_keeps {bits : Nat} {step : UInt32} {g : Bytes} (hpos : 0 < bits) (k : Nat) :
    ∀ {h : UInt32} {f : Bytes}, bits ≤ f.length * 8 → Keeps (addProbes bits step k h f) g →
      testProbes g bits step k h = true := by
  induction k with
  | zero => exact fun _ _ => rfl
  | succ k ih =>
    intro h f hbits hkeeps
    have hlt : h.toNat % bits / 8 < f.length := by
      have := Nat.mod_lt h.toNat hpos
      omega
    have hset : testBit g (h.toNat % bits) = true :=
      ((keeps_addProbes bits step k (h + step) _).trans hkeeps).2 _ (testBit_setBit_self hlt)
    rw [testProbes, if_pos hset]
    exact ih (by rwa [length_setBit]) hkeeps

theorem exists_keeps {bits k : Nat} {key : Bytes} {keys : List Bytes} (hkey : key ∈ keys) :
    ∀ f : Bytes, ∃ f', f'.length = f.length ∧
      Keeps (addKey bits k f' key) (keys.foldl (addKey bits k) f) := by
  induction keys with
  | nil => cases hkey
  | cons x keys ih =>
    intro f
    rcases mem_cons.mp hkey with rfl | hkey
    · exact ⟨f, rfl, keeps_foldl bits k keys _⟩
    · obtain ⟨f', hlen, hkeeps⟩ := ih hkey (addKey bits k f x)
      exact ⟨f', hlen.trans (keeps_addProbes _ _ _ _ f).1.symm, hkeeps⟩

theorem testBit_append {f : Bytes} {i : Nat} (rest : Bytes) (h : i < f.length * 8) :
    testBit (f ++ rest) i = testBit f i := by
  have hi : i / 8 < f.length := by omega
  rw [testBit, testBit, getD_append _ _ _ _ hi]

theorem testProbes_append {bits : Nat} {step : UInt32} {f : Bytes} (rest : Bytes) (hpos : 0 < bits)
    (hbits : bits ≤ f.length * 8) (k : Nat) :
    ∀ h : UInt32, testProbes (f ++ rest) bits step k h = testProbes f bits step k h := by
  induction k with
  | zero => exact fun _ => rfl
  | succ k ih =>
    intro h
    have := Nat.mod_lt h.toNat hpos
    rw [testProbes, testProbes, testBit_append rest (by omega), ih]

theorem probes_le (wild : Int) (bitsPerKey : Nat) : probes wild bitsPerKey ≤ 30 := by
  unfold probes
  dsimp only
  split_ifs <;> omega

theorem length_buildFilter {wild : Int} {keys : List Bytes} {bitsPerKey : Nat} (hne : keys ≠ []) :
    (buildFilter wild keys bitsPerKey).length = filterBytes keys.length bitsPerKey + 1 := by
  rw [buildFilter, if_neg hne]
  dsimp only
  rw [length_append, ← (keeps_foldl _ _ keys _).1, length_replicate, length_singleton]

/-- **A key that was added is not denied**, whatever the number of bits.  A product with the
number of keys that wraps to none leaves a filter of its last byte, which denies nothing. -/
theorem keyMayMatch_buildFilter {wild : Int} {keys : List Bytes} {bitsPerKey : Nat} {key : Bytes}
    (hkey : key ∈ keys) : keyMayMatch (buildFilter wild keys bitsPerKey) key = true := by
  have hne : keys ≠ [] := ne_nil_of_mem hkey
  have hlen : (buildFilter wild keys bitsPerKey).length =
      filterBytes keys.length bitsPerKey + 1 := length_buildFilter hne
  have hk := probes_le wild bitsPerKey
  by_cases hpos : filterBytes keys.length bitsPerKey = 0
  · rw [keyMayMatch, if_pos (by omega)]
  rw [keyMayMatch, if_neg (by omega), hlen, Nat.add_sub_cancel]
  rw [buildFilter, if_neg hne]
  dsimp only
  set bytes := filterBytes keys.length bitsPerKey
  set k := probes wild bitsPerKey
  obtain ⟨f, hf, hkeeps⟩ := @exists_keeps (bytes * 8) k key keys hkey (List.replicate bytes 0)
  rw [length_replicate] at hf
  have hkeep := (keeps_foldl (bytes * 8) k keys (List.replicate bytes 0)).1
  rw [length_replicate] at hkeep
  rw [getLastD_concat, UInt8.toNat_ofNat_of_lt' (lt_of_le_of_lt hk (by decide)),
    testProbes_append [UInt8.ofNat k] (by omega) (Nat.le_of_eq (by rw [← hkeep]))]
  exact testProbes_of_keeps (by omega) k (Nat.le_of_eq (by rw [hf])) hkeeps

end BedrockKV.Bloom
