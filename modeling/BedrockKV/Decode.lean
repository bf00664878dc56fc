/-
# `BedrockKV.Decode` — the decoders accept what the encoders write, and nothing else

Three record formats, each with a writer and a parser: the payload of a
write-ahead record, the MANIFEST record of a table, and the value pointer.
That a parser takes back what its writer has written is `Wal`, `ManifestFile`
and `VLog`.  Here is the other direction: what a parser accepts is what the
writer makes of the result.

`ParseRecord` is the one to look at.  Its sums with the key length are of 32
bits, and for a key of nearly 2^32 bytes the check in front of the value length
lets a read past the end of the string through.  The first byte there is the
zero that ends every `std::string`, and what follows is whatever memory holds
(`parseRecordIn`).  It does no harm: the length that the last check asks for
has no zero byte in that place (`parseRecordIn_eq`).
-/
import BedrockKV.ManifestFile

namespace BedrockKV

open List

/-! ## Fixed-width fields -/

variable {bs behind p : Bytes} {k : Nat}

theorem drop_eq_putFixed {n : Nat} (h : k + n ≤ bs.length) :
    bs.drop k = putFixed n (getFixed n (bs.drop k)) ++ bs.drop (k + n) := by
  rw [putFixed_getFixed (by rw [length_drop]; omega), ← drop_drop, take_append_drop]

theorem drop_eq_putFixed32 (h : k + 4 ≤ bs.length) :
    bs.drop k = putFixed32 (getFixed32 (bs.drop k)) ++ bs.drop (k + 4) :=
  drop_eq_putFixed h

theorem drop_eq_putFixed64 (h : k + 8 ≤ bs.length) :
    bs.drop k = putFixed64 (getFixed64 (bs.drop k)) ++ bs.drop (k + 8) :=
  drop_eq_putFixed h

theorem drop_eq_cons (h : k < bs.length) : bs.drop k = (bs.drop k).headD 0 :: bs.drop (k + 1) := by
  rw [drop_eq_getElem_cons h]
  rfl

theorem drop_eq_take {n : Nat} : bs.drop k = (bs.drop k).take n ++ bs.drop (k + n) := by
  rw [← drop_drop, take_append_drop]

/-! ## Write-ahead records -/

/-- `ParseRecord` with the memory its pointers reach: the string, the zero that ends it, and
`behind`.  Everything up to the key is inside the string. -/
def parseRecordIn (behind payload : Bytes) : Option Entry :=
  let memory := payload ++ 0 :: behind
  if payload.length < 8 + 1 + 4 then none
  else
    let seq := getFixed64 payload
    let type := (payload.drop 8).headD 0
    let klen := getFixed32 (payload.drop 9)
    if payload.length - 13 < klen then none
    else
      let key := (payload.drop 13).take klen
      if type = ValueType.value.byte then
        if payload.length < (13 + klen + 4) % 2 ^ 32 then none
        else
          let vlen := getFixed32 (memory.drop (13 + klen))
          if payload.length ≠ (13 + klen + 4) % 2 ^ 32 + vlen then none
          else some ⟨key, seq, .value, (memory.drop (17 + klen)).take vlen⟩
      else if type = ValueType.deletion.byte then
        if payload.length ≠ (13 + klen) % 2 ^ 32 then none
        else some ⟨key, seq, .deletion, []⟩
      else none

theorem getFixed_append_div (xs rest : Bytes) (n : Nat) :
    getFixed (xs.length + n) (xs ++ rest) / 256 ^ xs.length = getFixed n rest := by
  induction xs with
  | nil => rw [length_nil, Nat.zero_add, pow_zero, Nat.div_one, nil_append]
  | cons b xs ih =>
    have hb := b.toNat_lt
    rw [length_cons, Nat.add_right_comm, cons_append, getFixed, Nat.pow_succ',
      ← Nat.div_div_eq_div_mul, show (b.toNat + 256 * getFixed (xs.length + n) (xs ++ rest)) / 256 =
        getFixed (xs.length + n) (xs ++ rest) by omega, ih]

/-- None of the last four numbers of 32 bits has a zero byte where the string ends. -/
theorem getFixed32_ne_of_zero {xs : Bytes} (hlen : xs.length < 4) :
    getFixed32 (xs ++ 0 :: behind) ≠ 2 ^ 32 - 4 + xs.length := by
  have hzero : getFixed32 (xs ++ 0 :: behind) / 256 ^ xs.length % 256 = 0 := by
    obtain ⟨n, hn⟩ : ∃ n, xs.length + (n + 1) = 4 := ⟨3 - xs.length, by omega⟩
    rw [getFixed32, ← hn, getFixed_append_div, getFixed]
    change (0 + 256 * getFixed n behind) % 256 = 0
    rw [Nat.zero_add, Nat.mul_mod_right]
  intro h
  rw [h] at hzero
  generalize xs.length = d at hlen hzero
  revert hlen hzero
  revert d
  decide

theorem getFixed_concat_zero (n : Nat) (bs : Bytes) : getFixed n (bs ++ [0]) = getFixed n bs := by
  induction n generalizing bs with
  | zero => rfl
  | succ n ih =>
    cases bs with
    | nil =>
      cases n with
      | zero | succ n => rfl
    | cons b bs => rw [cons_append, getFixed, ih, getFixed]

/-- **The value length is read inside the string**, in every record that passes the checks behind
it: were the first sum to wrap, the length would have to be one of the last four numbers. -/
theorem sum_lt_of_length {payload : Bytes} {klen : Nat} (hlen : payload.length < 2 ^ 32)
    (hklen : 13 + klen ≤ payload.length)
    (hend : payload.length = (13 + klen + 4) % 2 ^ 32 +
      getFixed32 (payload.drop (13 + klen) ++ 0 :: behind)) :
    13 + klen + 4 < 2 ^ 32 := by
  by_contra hsum
  have hd : (payload.drop (13 + klen)).length = payload.length - (13 + klen) := length_drop
  have hne : getFixed32 (payload.drop (13 + klen) ++ 0 :: behind) ≠ _ :=
    getFixed32_ne_of_zero (by omega)
  omega

theorem parseRecordIn_eq (behind : Bytes) {payload : Bytes} (h : payload.length < 2 ^ 32) :
    parseRecordIn behind payload = parseRecord payload := by
  unfold parseRecordIn parseRecord
  dsimp only
  by_cases hshort : payload.length < 8 + 1 + 4
  · rw [if_pos hshort, if_pos hshort]
  rw [if_neg hshort, if_neg hshort]
  generalize getFixed32 (payload.drop 9) = klen
  by_cases hklen : payload.length - 13 < klen
  · rw [if_pos hklen, if_pos hklen]
  have hmemory : ∀ k ≤ payload.length,
      (payload ++ 0 :: behind).drop k = payload.drop k ++ 0 :: behind :=
    fun k hk => drop_append_of_le_length hk
  have hzero : getFixed32 (payload.drop (13 + klen) ++ [0]) =
    getFixed32 (payload.drop (13 + klen)) :=
    getFixed_concat_zero 4 _
  rw [if_neg hklen, if_neg hklen, hmemory _ (by omega), ← hzero]
  rcases Nat.lt_or_ge (13 + klen + 4) (2 ^ 32) with hsum | hsum
  · -- no sum wraps, and the value is inside the string
    rw [Nat.mod_eq_of_lt hsum]
    by_cases hroom : payload.length < 13 + klen + 4
    · rw [if_pos hroom, if_pos hroom]
    have hvlen : ∀ zs, getFixed32 (payload.drop (13 + klen) ++ zs) =
        getFixed32 (payload.drop (13 + klen)) :=
      getFixed_append (by rw [length_drop]; omega)
    rw [if_neg hroom, if_neg hroom, hvlen, hvlen]
    by_cases hend : payload.length ≠ 13 + klen + 4 + getFixed32 (payload.drop (13 + klen))
    · rw [if_pos hend, if_pos hend]
    rw [if_neg hend, if_neg hend, hmemory _ (by omega),
      take_append_of_le_length (by rw [length_drop]; omega)]
  · have hend : ∀ zs : Bytes, payload.length ≠ (13 + klen + 4) % 2 ^ 32 +
        getFixed32 (payload.drop (13 + klen) ++ 0 :: zs) :=
      fun zs hend => absurd (sum_lt_of_length h (by omega) hend) (not_lt.mpr hsum)
    rw [if_pos (hend behind), if_pos (hend [])]

/-- What a write is made of in the source: `seq` has 64 bits, and a deletion no value. -/
def Entry.Written (e : Entry) : Prop :=
  e.seq < 2 ^ 64 ∧ (e.type = .deletion → e.value = [])

theorem payload_eq {klen : Nat} (hklen : getFixed32 (p.drop 9) = klen)
    (hlen : 13 + klen ≤ p.length) :
    p = putFixed64 (getFixed64 p) ++ ([(p.drop 8).headD 0] ++
      (putFixed32 ((p.drop 13).take klen).length ++
        ((p.drop 13).take klen ++ p.drop (13 + klen)))) := by
  have hkey : ((p.drop 13).take klen).length = klen :=
    length_take_of_le (by rw [length_drop]; omega)
  have h₉ : p.drop 9 = putFixed32 (getFixed32 (p.drop 9)) ++ p.drop 13 :=
    drop_eq_putFixed32 (by omega)
  have h₈ : p.drop 8 = (p.drop 8).headD 0 :: p.drop 9 := drop_eq_cons (by omega)
  have h₀ : p = putFixed64 (getFixed64 p) ++ p.drop 8 :=
    drop_eq_putFixed64 (show 0 + 8 ≤ p.length by omega)
  rw [hkey, ← drop_eq_take, ← hklen, ← h₉, singleton_append, ← h₈, ← h₀]

/-- **An accepted payload is the one that is written.** -/
theorem encodePayload_of_parseRecord {e : Entry} (hlen : p.length < 2 ^ 32)
    (h : parseRecord p = some e) : p = encodePayload e ∧ e.Written := by
  have hseq : getFixed64 p < 2 ^ 64 := getFixed_lt 8 p
  unfold parseRecord at h
  dsimp only at h
  generalize hklen : getFixed32 (p.drop 9) = klen at h
  split_ifs at h with hshort hkey htype hroom hend hdel hend'
  · -- a value
    have hfront := payload_eq hklen (by omega)
    have hzero : getFixed32 (p.drop (13 + klen) ++ [0]) = getFixed32 (p.drop (13 + klen)) :=
      getFixed_concat_zero 4 _
    have hsum := sum_lt_of_length hlen (by omega) (hzero ▸ not_not.mp hend)
    rw [Nat.mod_eq_of_lt hsum] at hroom hend
    have hvalue : p.drop (13 + klen) = putFixed32 (getFixed32 (p.drop (13 + klen))) ++
        p.drop (13 + klen + 4) := drop_eq_putFixed32 (by omega)
    have hvlen : (p.drop (17 + klen)).length = getFixed32 (p.drop (13 + klen)) := by
      rw [length_drop]
      omega
    cases h
    refine ⟨?_, hseq, fun hc => by cases hc⟩
    rw [htype, hvalue, ← hvlen, Nat.add_right_comm] at hfront
    rw [← hvlen, take_length]
    exact hfront
  · -- a deletion
    have hfront := payload_eq hklen (by omega)
    have hnil : p.drop (13 + klen) = [] := drop_eq_nil_of_le (by omega)
    cases h
    refine ⟨?_, hseq, fun _ => rfl⟩
    rw [hdel, hnil] at hfront
    exact hfront

theorem parseRecordIn_eq_some {e : Entry} (hlen : p.length < 2 ^ 32) :
    parseRecordIn behind p = some e ↔ p = encodePayload e ∧ e.Written := by
  rw [parseRecordIn_eq behind hlen]
  refine ⟨encodePayload_of_parseRecord hlen, ?_⟩
  rintro ⟨rfl, hseq, hdel⟩
  rw [length_encodePayload] at hlen
  obtain ⟨user, seq, type, value⟩ := e
  cases type with
  | value =>
    dsimp only at hlen
    refine parseRecord_encodePayload_of_sum hseq ?_ ?_ ?_ hdel <;> dsimp only <;> omega
  | deletion =>
    obtain rfl : value = [] := hdel rfl
    dsimp only at hlen
    refine parseRecord_encodePayload_of_sum hseq ?_ ?_ ?_ hdel
    · dsimp only
      omega
    · rintro ⟨⟩
    · exact Nat.two_pow_pos 32

/-! ## Table records -/

theorem parseFileMetaRecord_tag (tag tag' : UInt8) (r : Bytes) :
    parseFileMetaRecord (tag :: r) = parseFileMetaRecord (tag' :: r) := by
  have hdrop : ∀ k, 0 < k → (tag :: r).drop k = (tag' :: r).drop k := by
    intro k hk
    obtain ⟨k, rfl⟩ := Nat.exists_eq_succ_of_ne_zero hk.ne'
    rfl
  unfold parseFileMetaRecord
  dsimp only
  simp (disch := omega) only [length_cons, hdrop]

/-- **An accepted table record is the one that is written**, whatever its tag is. -/
theorem encodeFileMeta_of_parseFileMetaRecord {m : FileMeta} (h : parseFileMetaRecord p = some m) :
    m.Fits ∧ ∃ tag, p = tag :: (encodeFileMeta m).tail := by
  unfold parseFileMetaRecord at h
  dsimp only at h
  generalize hslen : getFixed32 (p.drop 45) = slen at h
  generalize hllen : getFixed32 (p.drop (49 + slen)) = llen at h
  split_ifs at h with hshort hroom hend
  cases h
  have hskey : ((p.drop 49).take slen).length = slen :=
    length_take_of_le (by rw [length_drop]; omega)
  have hrest : (p.drop (49 + slen + 4)).length = llen := by
    rw [length_drop]
    omega
  have hlkey : (p.drop (49 + slen + 4)).take llen = p.drop (49 + slen + 4) :=
    take_of_length_le hrest.le
  -- the fields, one behind the other
  have h₀ : p = p.headD 0 :: p.drop 1 := drop_eq_cons (show 0 < p.length by omega)
  have h₁ : p.drop 1 = putFixed64 _ ++ p.drop 9 := drop_eq_putFixed64 (by omega)
  have h₉ : p.drop 9 = putFixed32 _ ++ p.drop 13 := drop_eq_putFixed32 (by omega)
  have h₁₃ : p.drop 13 = putFixed64 _ ++ p.drop 21 := drop_eq_putFixed64 (by omega)
  have h₂₁ : p.drop 21 = putFixed64 _ ++ p.drop 29 := drop_eq_putFixed64 (by omega)
  have h₂₉ : p.drop 29 = putFixed64 _ ++ p.drop 37 := drop_eq_putFixed64 (by omega)
  have h₃₇ : p.drop 37 = putFixed64 _ ++ p.drop 45 := drop_eq_putFixed64 (by omega)
  have h₄₅ : p.drop 45 = putFixed32 _ ++ p.drop 49 := drop_eq_putFixed32 (by omega)
  have hkey : p.drop (49 + slen) = putFixed32 _ ++ p.drop (49 + slen + 4) :=
    drop_eq_putFixed32 (by omega)
  refine ⟨⟨getFixed_lt 8 _, getFixed_lt 4 _, getFixed_lt 8 _, getFixed_lt 8 _, getFixed_lt 8 _,
    getFixed_lt 8 _, ?_, ?_⟩, p.headD 0, ?_⟩
  · rw [hskey, ← hslen]
    exact getFixed_lt 4 _
  · rw [hlkey, hrest, ← hllen]
    exact getFixed_lt 4 _
  · unfold encodeFileMeta
    dsimp only [tail_cons]
    rw [hskey, hlkey, hrest, ← hllen, ← hkey, ← drop_eq_take, ← hslen, ← h₄₅, ← h₃₇, ← h₂₉, ← h₂₁,
      ← h₁₃, ← h₉, ← h₁, ← h₀]

theorem parseFileMetaRecord_eq_some {m : FileMeta} :
    parseFileMetaRecord p = some m ↔ m.Fits ∧ ∃ tag, p = tag :: (encodeFileMeta m).tail := by
  refine ⟨encodeFileMeta_of_parseFileMetaRecord, ?_⟩
  rintro ⟨hfits, tag, rfl⟩
  rw [parseFileMetaRecord_tag tag kManifestTagSstFile]
  exact parseFileMetaRecord_encode hfits

/-! ## Value pointers -/

theorem decodeValuePointer_eq_some {q : ValuePointer} :
    decodeValuePointer p = some q ↔ p = encodeValuePointer q ∧ q.Fits := by
  constructor
  · intro h
    unfold decodeValuePointer at h
    split_ifs at h with hshape
    rw [pointerShaped, Bool.and_eq_true, decide_eq_true_iff, decide_eq_true_iff] at hshape
    obtain ⟨hlen, htag⟩ := hshape
    simp only [kValuePointerSize] at hlen
    cases h
    refine ⟨?_, getFixed_lt 8 _, getFixed_lt 8 _, getFixed_lt 4 _⟩
    have h₀ : p = p.headD 0 :: p.drop 1 := drop_eq_cons (show 0 < p.length by omega)
    have h₁ : p.drop 1 = putFixed64 _ ++ p.drop 9 := drop_eq_putFixed64 (by omega)
    have h₉ : p.drop 9 = putFixed64 _ ++ p.drop 17 := drop_eq_putFixed64 (by omega)
    have h₁₇ : p.drop 17 = putFixed32 _ ++ p.drop 21 := drop_eq_putFixed32 (by omega)
    have hend : p.drop 21 = [] := drop_eq_nil_of_le hlen.le
    rw [hend, append_nil] at h₁₇
    have htag' : p.headD 0 = kValuePointerTag := by rw [headD_eq_head?_getD, htag]; rfl
    unfold encodeValuePointer
    dsimp only
    rw [drop_drop, drop_drop, ← h₁₇, ← h₉, ← h₁, ← htag', ← h₀]
  · rintro ⟨rfl, hfits⟩
    exact decode_encodeValuePointer hfits

/-! ## All three -/

/-- **The decoders accept exactly what the encoders write.** -/
theorem decoders_exact (behind : Bytes) {p : Bytes} (h : p.length < 2 ^ 32) :
    (∀ e, parseRecordIn behind p = some e ↔ p = encodePayload e ∧ e.Written) ∧
    (∀ m, parseFileMetaRecord p = some m ↔ m.Fits ∧ ∃ tag, p = tag :: (encodeFileMeta m).tail) ∧
    ∀ q, decodeValuePointer p = some q ↔ p = encodeValuePointer q ∧ q.Fits :=
  ⟨fun _ => parseRecordIn_eq_some h, fun _ => parseFileMetaRecord_eq_some,
    fun _ => decodeValuePointer_eq_some⟩

/-- A record of 14 bytes that `WriteEntry` makes for the deletion of a key of one byte. -/
theorem decoders_exact_deletion :
    parseRecordIn [7, 7] [5, 0, 0, 0, 0, 0, 0, 0, 0, 1, 0, 0, 0, 9] =
      some ⟨[9], 5, .deletion, []⟩ :=
  ((decoders_exact [7, 7] (by decide)).1 _).mpr ⟨by decide, by decide, fun _ => rfl⟩

end BedrockKV
