/-
# `BedrockKV.Damage` — damage to a few bytes in a row

Every byte that matters is under a CRC: the body of a table's file, the key
and value of a value-log entry, the type and payload of a log fragment.  By
`BedrockKV.Crc` no damage within four consecutive bytes leaves a CRC as it
was, and the three readers compare:

    Burst.openFile        `Table::Open` refuses the file
    Burst.readValue       `VLog::ReadValue` reports corruption
    Burst.physAt          `ReadPhysicalRecord` reports corruption

For a fragment there is one more way out to close.  The reader passes over a
header of zeros without a look at any CRC, so damage to the type of an empty
fragment could make one; but then the stored CRC would have to be zero too, and
no single byte has that CRC.
-/
import BedrockKV.LogZeroed
import BedrockKV.SstFlip
import BedrockKV.VLog

namespace BedrockKV

open List

/-- `F'` is `F` with other bytes in a place of at most four bytes inside `[lo, hi)`. -/
def Burst (lo hi : Nat) (F F' : Bytes) : Prop :=
  ∃ xs ys ys' zs, F = xs ++ ys ++ zs ∧ F' = xs ++ ys' ++ zs ∧ ys ≠ ys' ∧
    ys.length = ys'.length ∧ ys.length ≤ 4 ∧ lo ≤ xs.length ∧ xs.length + ys.length ≤ hi

namespace Burst

variable {lo hi : Nat} {F F' : Bytes}

section

variable (h : Burst lo hi F F')
include h

theorem length : F'.length = F.length := by
  obtain ⟨xs, ys, ys', zs, rfl, rfl, -, hlen, -⟩ := h
  simp only [length_append, hlen]

theorem crc_ne (s : UInt32) : crc32 F s ≠ crc32 F' s := by
  obtain ⟨xs, ys, ys', zs, rfl, rfl, hne, hlen, h4, -⟩ := h
  exact crc32_burst_ne hne hlen h4 xs zs s

theorem outside {k n : Nat} (hk : k + n ≤ lo ∨ hi ≤ k) :
    (F'.drop k).take n = (F.drop k).take n := by
  obtain ⟨xs, ys, ys', zs, rfl, rfl, -, hlen, -, hlo, hhi⟩ := h
  rcases hk with hk | hk
  · rw [append_assoc, append_assoc, drop_append_of_le_length (by omega),
      drop_append_of_le_length (by omega), take_append_of_le_length (by simp; omega),
      take_append_of_le_length (by simp; omega)]
  · have hdrop : ∀ vs : Bytes, (xs ++ vs).length ≤ k →
        (xs ++ vs ++ zs).drop k = zs.drop (k - (xs ++ vs).length) := by
      intro vs hvs
      rw [drop_append, drop_eq_nil_of_le hvs, nil_append]
    rw [hdrop ys' (by simp; omega), hdrop ys (by simp; omega)]
    simp only [length_append, hlen]

theorem drop {k : Nat} (hk : hi ≤ k) : F'.drop k = F.drop k := by
  have htake := h.outside (k := k) (n := F.length) (.inr hk)
  rwa [take_of_length_le (by rw [length_drop, h.length]; omega),
    take_of_length_le (by rw [length_drop]; omega)] at htake

theorem window {k n : Nat} (hk : k ≤ lo) (hn : hi ≤ k + n) :
    Burst 0 n ((F.drop k).take n) ((F'.drop k).take n) := by
  obtain ⟨xs, ys, ys', zs, rfl, rfl, hne, hlen, h4, hlo, hhi⟩ := h
  have hcut : ∀ vs : Bytes, vs.length = ys.length → ((xs ++ vs ++ zs).drop k).take n =
      xs.drop k ++ vs ++ zs.take (n - (xs.length - k + ys.length)) := by
    intro vs hvs
    rw [append_assoc, drop_append_of_le_length (by omega), ← append_assoc,
      take_append, take_of_length_le (by simp; omega)]
    simp only [length_append, length_drop, hvs]
  refine ⟨xs.drop k, ys, ys', _, hcut ys rfl, hcut ys' hlen.symm, hne, hlen, h4, Nat.zero_le _, ?_⟩
  rw [length_drop]
  omega

theorem getFixed {k n : Nat} (hk : k + n ≤ lo ∨ hi ≤ k) :
    getFixed n (F'.drop k) = getFixed n (F.drop k) := by
  rw [← getFixed_take (Nat.le_refl n), h.outside hk, getFixed_take (Nat.le_refl n)]

end

/-! ## The body of a table -/

section Table

open Sst Sst.Table

/-- **`Open` notices damage to the body of a table.** -/
theorem openFile {fileNumber : Nat} {path : Bytes} {t : Sst.Table}
    (h : Burst 0 (footerStart F) F F') (hopen : openFile fileNumber path F = .ok t) :
    openFile fileNumber path F' = .error (fail path "whole-file CRC mismatch") := by
  have hstart : F'.length - kFooterSize = F.length - kFooterSize := by rw [h.length]
  have hfooter : F'.drop (F.length - kFooterSize) = F.drop (F.length - kFooterSize) := h.drop le_rfl
  have hcrc : crc32 (F.take (F.length - kFooterSize)) 0 ≠
      crc32 (F'.take (F.length - kFooterSize)) 0 :=
    (h.window (Nat.le_refl 0) (Nat.zero_add _).ge).crc_ne 0
  unfold Sst.Table.openFile at hopen ⊢
  dsimp only at hopen ⊢
  rw [hstart, hfooter, h.length]
  split_ifs at hopen with hshort hmagic hrange hstored hblock
  rw [if_neg hshort, if_neg hmagic, if_neg hrange, if_pos]
  intro hstored'
  exact hcrc (UInt32.toNat_inj.mp ((not_not.mp hstored).trans hstored'.symm))

end Table

/-! ## The key and value of a value-log entry -/

/-- **`ReadValue` notices damage to the key or the value.** -/
theorem readValue {number o size : Nat} {value : Bytes}
    (h : Burst (o + kEntryHeaderSize) (o + kEntryHeaderSize +
      (getFixed32 (F.drop (o + 4)) + getFixed32 (F.drop (o + 8)))) F F')
    (hread : readValue number F o size = .ok value) :
    readValue number F' o size =
      .error ⟨.corruption, ascii "vlog entry CRC mismatch in " ++ vlogFileName number⟩ := by
  have hcrc : getFixed32 (F'.drop o) = getFixed32 (F.drop o) :=
    h.getFixed (.inl (by simp only [kEntryHeaderSize]; omega))
  have hklen : getFixed32 (F'.drop (o + 4)) = getFixed32 (F.drop (o + 4)) :=
    h.getFixed (.inl (by simp only [kEntryHeaderSize]; omega))
  have hvsize : getFixed32 (F'.drop (o + 8)) = getFixed32 (F.drop (o + 8)) :=
    h.getFixed (.inl (by simp only [kEntryHeaderSize]; omega))
  have hsizes : (F'.drop (o + 4)).take 8 = (F.drop (o + 4)).take 8 :=
    h.outside (.inl (by simp only [kEntryHeaderSize]; omega))
  have hne := (h.window le_rfl le_rfl).crc_ne (crc32 ((F.drop (o + 4)).take 8) 0)
  unfold BedrockKV.readValue at hread ⊢
  dsimp only at hread ⊢
  rw [h.length, hklen, hvsize, hsizes, hcrc]
  split_ifs at hread with hshort htorn hsize hpread hstored
  have hmax := le_kPreadMax hpread
  rw [pread_eq hmax] at hstored
  rw [if_neg hshort, if_neg htorn, if_neg hsize, pread_eq hmax, if_neg, if_neg]
  · intro hstored'
    exact hne (UInt32.toNat_inj.mp (hstored.trans hstored'.symm))
  · rwa [length_take, length_drop, h.length, ← length_drop, ← length_take, ← pread_eq hmax]

/-! ## The type and payload of a log fragment -/

section Log

open BedrockKV.Log

theorem fragmentCrc_nil_ne (type : UInt8) : fragmentCrc type [] ≠ 0 := by
  have hbyte : ∀ b : UInt8, fragmentCrc b [] ≠ 0 := by decide +kernel
  exact hbyte type

theorem fragmentCrc_at {G : Bytes} {s : Nat} (hroom : s + kHeaderSize ≤ G.length) :
    fragmentCrc (headerAt G s).type (fragmentAt G s) =
      (crc32 ((G.drop (s + 8)).take (1 + (headerAt G s).length)) 0).toNat := by
  simp only [kHeaderSize] at hroom
  have hdrop : G.drop (s + 8) = (headerAt G s).type :: G.drop (s + kHeaderSize) := by
    have htype : (headerAt G s).type = G[s + 8] := by
      change (G.drop (s + 8)).headD 0 = _
      rw [drop_eq_getElem_cons (by omega)]
      rfl
    rw [htype]
    exact drop_eq_getElem_cons (by omega)
  rw [hdrop, Nat.add_comm 1, take_succ_cons, ← fragmentAt, fragmentCrc, ← crc32_append]
  rfl

/-- Where a physical record stands, and that a file with the same bytes before it is read on from
there as well. -/
theorem physAt_reach {o e : Nat} {type : UInt8} {f : Bytes} (hp : physAt F o = .ok type f e) :
    ∃ s, o ≤ s ∧ s + kHeaderSize + f.length = e ∧ f.length = (headerAt F s).length ∧
      ¬ Skips F s ∧ Intact F s ∧
      ∀ G : Bytes, G.length = F.length →
        (∀ k n, k + n ≤ s → (G.drop k).take n = (F.drop k).take n) → physAt G o = physAt G s := by
  induction o using physAt.induct F with
  | case1 o hskip hle ih =>
    rw [physAt, if_pos hskip, if_pos hle] at hp
    obtain ⟨s, hos, he, hlen, hs, hint, hG⟩ := ih hp
    have hlt := lt_blockEnd o
    refine ⟨s, by omega, he, hlen, hs, hint, fun G hGlen hsame => ?_⟩
    have hskipG : Skips G o := by
      rw [Skips, bufferEnd, hGlen]
      by_cases hroom : bufferEnd F o < o + kHeaderSize
      · exact .inl hroom
      · -- the zero header ends inside the block, and so before `s`
        have hend : o + kHeaderSize ≤ blockEnd o :=
          le_trans (Nat.le_of_not_lt hroom) (Nat.min_le_left _ _)
        right
        rw [← Log.window le_rfl, hsame o kHeaderSize (by omega), Log.window le_rfl]
        exact hskip.resolve_left hroom
    rw [physAt, if_pos hskipG, if_pos (hGlen ▸ hle)]
    exact hG G hGlen hsame
  | case2 o hskip hle =>
    rw [physAt, if_pos hskip, if_neg hle] at hp
    cases hp
  | case3 o hskip hint =>
    rw [physAt, if_neg hskip, if_pos hint] at hp
    obtain ⟨-, rfl, rfl⟩ := Phys.ok.inj hp
    have hlen : (fragmentAt F o).length = (headerAt F o).length := by
      have hfit := le_trans hint.2.1 (Nat.min_le_right _ _)
      rw [fragmentAt, length_take, length_drop]
      omega
    exact ⟨o, Nat.le_refl o, by rw [hlen], hlen, hskip, hint, fun _ _ _ => rfl⟩
  | case4 o hskip hint =>
    rw [physAt, if_neg hskip, if_neg hint] at hp
    cases hp

/-- **The reader notices damage to the type or the payload** of a fragment it could read. -/
theorem physAt {o e : Nat} {type : UInt8} {f : Bytes} (hp : physAt F o = .ok type f e)
    (h : Burst (e - f.length - 1) e F F') : physAt F' o = .corruption := by
  obtain ⟨s, -, he, hlen, hskip, hint, hreach⟩ := physAt_reach hp
  simp only [kHeaderSize] at he
  have hbufferEnd : bufferEnd F' s = bufferEnd F s := by rw [bufferEnd, bufferEnd, h.length]
  have hroom : s + kHeaderSize ≤ bufferEnd F s := by
    by_contra hroom
    exact hskip (.inl (Nat.lt_of_not_le hroom))
  have hroomF : s + kHeaderSize ≤ F.length := le_trans hroom (Nat.min_le_right _ _)
  have hlength : (headerAt F' s).length = (headerAt F s).length := h.getFixed (.inl (by omega))
  have hcrc : (headerAt F' s).crc = (headerAt F s).crc := h.getFixed (.inl (by omega))
  have hne :=
    (h.window (k := s + 8) (n := 1 + (headerAt F s).length) (by omega) (by omega)).crc_ne 0
  rw [hreach F' h.length fun k n hk => h.outside (.inl (by omega))]
  refine physAt_corruption ?_ (hbufferEnd ▸ hroom) ?_
  · -- a header of zeros would have the CRC of the one type byte there was
    intro hzero
    have hlength₀ : f.length = 0 := by rw [hlen, ← hlength, hzero]; rfl
    have hcrc₀ : (headerAt F s).crc = 0 := by rw [← hcrc, hzero]; rfl
    have hfragment : fragmentAt F s = [] := by
      rw [fragmentAt, ← hlen, hlength₀, take_zero]
    refine fragmentCrc_nil_ne (headerAt F s).type ?_
    rw [← hfragment, hint.2.2, hcrc₀]
  · rintro ⟨-, -, hok⟩
    have hold := hint.2.2
    rw [fragmentCrc_at hroomF] at hold
    rw [fragmentCrc_at (h.length ▸ hroomF), hlength, hcrc] at hok
    exact hne (UInt32.toNat_inj.mp (hold.trans hok.symm))

end Log

end Burst

/-! ## Together -/

open BedrockKV.Log

/-- **No damage within four bytes of what is under a CRC goes unnoticed**, by the law that lets the
callers take a CRC in pieces. -/
theorem burst_detected :
    (∀ (a b : Bytes) (s : UInt32), crc32 (a ++ b) s = crc32 b (crc32 a s)) ∧
    (∀ (F F' : Bytes) (s : UInt32), Burst 0 F.length F F' → crc32 F s ≠ crc32 F' s) ∧
    (∀ (F F' path : Bytes) (fileNumber : Nat) (t : Sst.Table),
      Sst.Table.openFile fileNumber path F = .ok t → Burst 0 (Sst.footerStart F) F F' →
      Sst.Table.openFile fileNumber path F' =
        .error (Sst.Table.fail path "whole-file CRC mismatch")) ∧
    (∀ (F F' value : Bytes) (number o size : Nat), readValue number F o size = .ok value →
      Burst (o + kEntryHeaderSize) (o + kEntryHeaderSize +
        (getFixed32 (F.drop (o + 4)) + getFixed32 (F.drop (o + 8)))) F F' →
      readValue number F' o size =
        .error ⟨.corruption, ascii "vlog entry CRC mismatch in " ++ vlogFileName number⟩) ∧
    (∀ (F F' f : Bytes) (o e : Nat) (type : UInt8) (r r' : Reader), At F o r → At F' o r' →
      r.readPhysicalRecord.1 = .ok type f e → Burst (e - f.length - 1) e F F' →
      r'.readPhysicalRecord.1 = .corruption) := by
  refine ⟨crc32_append, fun F F' s h => h.crc_ne s, fun F F' path fileNumber t hopen h =>
    h.openFile hopen, fun F F' value number o size hread h => h.readValue hread, ?_⟩
  intro F F' f o e type r r' hr hr' hok h
  have hret := readPhysicalRecord_returned hr
  have hp : physAt F o = .ok type f e := by
    generalize physAt F o = p at hret ⊢
    cases p with
    | ok t f' e' =>
        obtain ⟨heq, -⟩ := hret
        rw [hok] at heq
        obtain ⟨rfl, rfl, rfl⟩ := PhysResult.ok.inj heq
        rfl
    | eof q => cases hok.symm.trans hret.1
    | corruption => cases hok.symm.trans hret.1
  have hret' := readPhysicalRecord_returned hr'
  rw [Burst.physAt hp h] at hret'
  exact hret'.1

def overwrite (F : Bytes) (p : Nat) (ys : Bytes) : Bytes := F.take p ++ ys ++ F.drop (p + ys.length)

theorem burst_overwrite {F ys : Bytes} {p lo hi : Nat} (hne : (F.drop p).take ys.length ≠ ys)
    (hfit : p + ys.length ≤ F.length) (h4 : ys.length ≤ 4) (hlo : lo ≤ p)
    (hhi : p + ys.length ≤ hi) :
    Burst lo hi F (overwrite F p ys) := by
  have hlen : ((F.drop p).take ys.length).length = ys.length := by
    rw [length_take, length_drop]
    omega
  have htake : (F.take p).length = p := length_take_of_le (by omega)
  refine ⟨F.take p, (F.drop p).take ys.length, ys, F.drop (p + ys.length), ?_, rfl, hne, hlen, ?_⟩
  · rw [append_assoc, ← drop_drop, take_append_drop, take_append_drop]
  · rw [hlen, htake]
    exact ⟨h4, hlo, hhi⟩

/-- Damage to the first entry of a table, to the value of an entry, and to all of a fragment. -/
theorem burst_detected_samples :
    Sst.Table.openFile 7 [] (overwrite Sst.sampleFile 0 [1, 2, 3, 4]) =
        .error (Sst.Table.fail [] "whole-file CRC mismatch") ∧
      readValue 1 (overwrite (encodeEntry [1] [2, 3]) 13 [0, 0]) 0 2 =
        .error ⟨.corruption, ascii "vlog entry CRC mismatch in " ++ vlogFileName 1⟩ ∧
      (Reader.new (overwrite (encodeRecord [7, 8] 0) 8 [0, 0, 0])).readPhysicalRecord.1 =
        .corruption := by
  obtain ⟨-, -, hsst, hvlog, hwal⟩ := burst_detected
  refine ⟨?_, ?_, ?_⟩
  · obtain ⟨b, hadd, hfile⟩ := Sst.table_shows
      ⟨Sst.sampleEntries, by decide, Sst.increasing_sampleEntries⟩ Sst.small_sampleEntries
      Sst.fits_sampleEntries
    obtain ⟨-, t, hopen, -⟩ := hfile ⟨0, 0, 0, 0, 0, 0, [], []⟩ 7 []
    rw [Sst.finish_sampleEntries hadd] at hopen
    exact hsst _ _ _ _ t hopen (burst_overwrite (by decide +kernel) (by decide +kernel) (by decide)
      (Nat.le_refl 0) (by decide +kernel))
  · exact hvlog (encodeEntry [1] [2, 3]) _ [2, 3] _ _ _ (by decide +kernel)
      (burst_overwrite (by decide +kernel) (by decide +kernel) (by decide) (by decide)
        (by decide +kernel))
  · exact hwal (encodeRecord [7, 8] 0) _ [7, 8] 0 11 1 _ _ (at_new _) (at_new _) (by decide +kernel)
      (burst_overwrite (by decide +kernel) (by decide +kernel) (by decide) (by decide) (by decide))

end BedrockKV
