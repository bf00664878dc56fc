/-
# `BedrockKV.LogRecover` — appending to a log after recovery

`DB::Open` cuts a log at damage, not at its end: a tail that the reader takes
for the end of the file (a header that is not all there, or a zero one) stays,
and the writer goes on behind it.  What the reader then makes of the file
depends on where the tail lies in its block:

    the reader stopped at the last byte               everything is read back
    the writer must pad to the end of the block,
      and the tail with the padding is skipped         everything is read back
    otherwise                                          the first record is lost

The last line is `records_nil_of_tail`: behind such a tail the reader finds no
record at all, whatever the tail's bytes are.
-/
import BedrockKV.Wal

namespace BedrockKV

open List Log

/-- A `log::Writer` attached at the end of a file. -/
def appendRecords (file : Bytes) (payloads : List Bytes) : Bytes :=
  file ++ encodeRecords file.length payloads

/-- The bytes from `q` on, which the reader took for the end of the file, are
passed over also when more follows. -/
def TailOk (F : Bytes) (q : Nat) : Prop :=
  q = F.length ∨
  kBlockSize - F.length % kBlockSize < kHeaderSize ∧
    (kBlockSize - q % kBlockSize < kHeaderSize ∨ ∀ b ∈ (F.drop q).take kHeaderSize, b = 0)

/-- The file is cut by recovery, at a damaged or senseless record, or the tail
that its reader leaves is one that is passed over. -/
def TailClean (F : Bytes) : Prop :=
  (∃ r ∈ (contents F).records, parseRecord r.1 = none) ∨
  match (contents F).stop with
  | .corruption => True
  | .eof q => TailOk F q

/-! ## The records replayed -/

section Replay

variable {F G : Bytes} {o q : Nat} {records done more : List (Bytes × Nat)} {stop : Stop}

theorem lastEnd_bounds (h : contentsFrom F o = ⟨done ++ more, stop⟩) (ho : o ≤ F.length) :
    o ≤ lastEnd o done ∧ lastEnd o done ≤ F.length ∧ ∀ r ∈ done, r.2 ≤ lastEnd o done := by
  induction done generalizing o with
  | nil => exact ⟨le_rfl, ho, by simp⟩
  | cons r done ih =>
    obtain ⟨hlt, hle, hnext⟩ := contentsFrom_cons h
    obtain ⟨h₁, h₂, h₃⟩ := ih hnext hle
    exact ⟨le_trans (le_of_lt hlt) h₁, h₂, forall_mem_cons.mpr ⟨h₁, h₃⟩⟩

/-- **A file cut behind some of its records** reads as those, to its end. -/
theorem contents_take_lastEnd (h : contents F = ⟨done ++ more, stop⟩) :
    contents (F.take (lastEnd 0 done)) = ⟨done, .eof (lastEnd 0 done)⟩ := by
  obtain ⟨-, hle, hends⟩ := lastEnd_bounds h (Nat.zero_le _)
  have hlen : (F.take (lastEnd 0 done)).length = lastEnd 0 done := length_take_of_le hle
  have hagree : Agree (lastEnd 0 done) F (F.take (lastEnd 0 done)) :=
    ⟨by rw [take_take, Nat.min_self], hle, hlen.ge⟩
  rw [contents, (contentsFrom_agree hagree h hends).2, contentsFrom_end hlen.le]
  simp [Contents.prepend]

/-- Replay applies every record, or a first part of them and cuts the file there. -/
theorem replayContents_cases (good : Nat) (records : List (Bytes × Nat)) (stop : Stop) :
    ((∀ r ∈ records, parseRecord r.1 ≠ none) ∧ (∃ q, stop = .eof q) ∧
      (replayContents good records stop).truncatedAt = none ∧
      (replayContents good records stop).records.map Prod.fst = records.map Prod.fst) ∨
    (((∃ r ∈ records, parseRecord r.1 = none) ∨ stop = .corruption) ∧
      ∃ done more, records = done ++ more ∧
        (replayContents good records stop).truncatedAt = some (lastEnd good done) ∧
        (replayContents good records stop).records.map Prod.fst = done.map Prod.fst) := by
  induction records generalizing good with
  | nil =>
    cases stop with
    | eof q => exact .inl ⟨by simp, ⟨q, rfl⟩, rfl, rfl⟩
    | corruption => exact .inr ⟨.inr rfl, [], [], rfl, rfl, rfl⟩
  | cons r records ih =>
    obtain ⟨p, e⟩ := r
    cases hp : parseRecord p with
    | none =>
      refine .inr ⟨.inl ⟨(p, e), by simp, hp⟩, [], (p, e) :: records, rfl, ?_, ?_⟩ <;>
        simp [replayContents, hp, lastEnd]
    | some entry =>
      rcases ih e with ⟨hall, hstop, hcut, hmap⟩ | ⟨hwhy, done, more, hsplit, hcut, hmap⟩
      · refine .inl ⟨forall_mem_cons.mpr ⟨by simp [hp], hall⟩, hstop, ?_, ?_⟩
        · simpa [replayContents, hp] using hcut
        · simpa [replayContents, hp] using hmap
      · refine .inr ⟨?_, (p, e) :: done, more, by rw [hsplit]; rfl, ?_, ?_⟩
        · rcases hwhy with ⟨r, hr, hbad⟩ | hwhy
          · exact .inl ⟨r, by simp [hr], hbad⟩
          · exact .inr hwhy
        · simpa [replayContents, hp, lastEnd] using hcut
        · simpa [replayContents, hp] using hmap

theorem eof_of_assemble {s : Stream} : ∀ {scratch : Option Bytes},
    assemble scratch s = ⟨[], .eof q⟩ → scratch = none ∧ s = .eof q := by
  induction s with
  | eof q' =>
    intro scratch h
    cases scratch <;> simp_all [assemble]
  | corruption =>
    intro scratch h
    cases scratch <;> simp [assemble] at h
  | frag t f e rest ih =>
    intro scratch h
    rw [assemble_frag] at h
    cases hasm : assembleFragment scratch t f with
    | record payload => simp [hasm, Contents.cons] at h
    | more bytes =>
      simp only [hasm] at h
      exact absurd (ih h).1 (by simp)
    | fail => simp [hasm] at h

theorem physAt_of_contentsFrom_nil (h : contentsFrom F o = ⟨[], .eof q⟩) :
    physAt F o = .eof q := by
  have hs := (eof_of_assemble h).2
  cases hp : physAt F o with
  | eof q' =>
    rw [stream_eof hp] at hs
    cases hs
    rfl
  | corruption =>
    rw [stream_corruption hp] at hs
    cases hs
  | ok t f e =>
    rw [stream_ok hp] at hs
    cases hs

/-- Where the reader gives up, it is in the last block, and a longer file
brings it there too. -/
theorem physAt_eof (h : physAt F o = .eof q) (ho : o ≤ F.length) :
    Skips F q ∧ F.length < blockEnd q ∧ q ≤ F.length ∧
      ∀ {G : Bytes}, Agree F.length F G → physAt G o = physAt G q := by
  induction o using physAt.induct F with
  | case1 o hskip hle ih =>
    rw [physAt, if_pos hskip, if_pos hle] at h
    obtain ⟨h₁, h₂, h₃, h₄⟩ := ih h hle
    refine ⟨h₁, h₂, h₃, fun hG => ?_⟩
    have := hG.right
    rw [physAt, if_pos (hG.skips hle hskip), if_pos (by omega)]
    exact h₄ hG
  | case2 o hskip hle =>
    rw [physAt, if_pos hskip, if_neg hle] at h
    cases h
    exact ⟨hskip, Nat.lt_of_not_le hle, ho, fun _ => rfl⟩
  | case3 o hskip hint =>
    rw [physAt, if_neg hskip, if_pos hint] at h
    cases h
  | case4 o hskip hint =>
    rw [physAt, if_neg hskip, if_neg hint] at h
    cases h

theorem agree_append (F X : Bytes) : Agree F.length F (F ++ X) :=
  ⟨by simp, le_rfl, by simp⟩

end Replay

/-! ## Behind a tail that is passed over -/

section Tail

variable {F G X : Bytes} {q : Nat}

theorem getFixed_eq_zero (n : Nat) :
    ∀ bs : Bytes, getFixed n bs = 0 ↔ ∀ i < n, bs.getD i 0 = 0 := by
  induction n with
  | zero => simp [getFixed]
  | succ n ih =>
    intro bs
    cases bs with
    | nil => simp [getFixed]
    | cons b bs =>
      have hb : b.toNat = 0 ↔ b = 0 := by
        rw [← UInt8.toNat_inj]
        rfl
      simp only [getFixed, Nat.add_eq_zero_iff, Nat.mul_eq_zero, hb, ih bs]
      constructor
      · rintro ⟨rfl, h⟩ i hi
        cases i with
        | zero => rfl
        | succ i => simpa using (h.resolve_left (by decide)) i (by omega)
      · intro h
        exact ⟨by simpa using h 0 (by omega), .inr fun i hi => by simpa using h (i + 1) (by omega)⟩

theorem headerAt_eq_zero {o : Nat} :
    headerAt F o = zeroHeader ↔ ∀ i < kHeaderSize, F.getD (o + i) 0 = 0 := by
  have hd : ∀ p i : Nat, (F.drop p).getD i 0 = F.getD (p + i) 0 := by
    intro p i
    simp [getD_eq_getElem?_getD]
  have hlast : (F.drop (o + 8)).headD 0 = F.getD (o + 8) 0 := by
    rw [← Nat.add_zero (o + 8), ← hd, Nat.add_zero]
    cases F.drop (o + 8) <;> rfl
  simp only [headerAt, zeroHeader, Header.mk.injEq, getFixed32, getFixed_eq_zero, hd, hlast,
    kHeaderSize, kZeroType]
  constructor
  · rintro ⟨h₀, h₄, h₈⟩ i hi
    rcases Nat.lt_or_ge i 4 with h | h
    · exact h₀ i h
    · rcases Nat.lt_or_ge i 8 with h' | h'
      · have := h₄ (i - 4) (by omega)
        rwa [show o + 4 + (i - 4) = o + i by omega] at this
      · rwa [show i = 8 by omega]
  · intro h
    refine ⟨fun i hi => h i (by omega), fun i hi => ?_, h 8 (by omega)⟩
    rw [Nat.add_assoc]
    exact h (4 + i) (by omega)

theorem headerAt_eq_zero_iff {o : Nat} :
    headerAt F o = zeroHeader ↔ ∀ b ∈ (F.drop o).take kHeaderSize, b = 0 := by
  rw [headerAt_eq_zero, forall_mem_iff_getElem]
  constructor
  · intro h i hi
    rw [length_take] at hi
    have := h i (by omega)
    rw [getElem_take, getElem_drop]
    rwa [getD_eq_getElem] at this
  · intro h i hi
    by_cases hlt : o + i < F.length
    · rw [getD_eq_getElem _ _ hlt]
      have := h i (by simp; omega)
      rwa [getElem_take, getElem_drop] at this
    · exact getD_eq_default _ _ (by omega)

theorem blockEnd_tail (hq : q ≤ F.length) (hlt : F.length < blockEnd q) :
    blockEnd F.length = blockEnd q := by
  simp only [blockEnd, kBlockSize] at *
  omega

theorem encodeRecord_pad {p : Bytes} {n : Nat} (h : kBlockSize - n % kBlockSize < kHeaderSize) :
    ∃ X, encodeRecord p n = List.replicate (kBlockSize - n % kBlockSize) 0 ++ X := by
  rw [encodeRecord, encodeFrom]
  simp only [if_pos h, append_assoc]
  exact ⟨_, rfl⟩

theorem blockEnd_eq (n : Nat) : blockEnd n = n + (kBlockSize - n % kBlockSize) := by
  simp only [blockEnd, kBlockSize]
  omega

/-- The tail, completed to a block with zeros, holds no header. -/
theorem skips_padded (hq : q ≤ F.length) (hlt : F.length < blockEnd q)
    (hok : kBlockSize - q % kBlockSize < kHeaderSize ∨ ∀ b ∈ (F.drop q).take kHeaderSize, b = 0) :
    Skips (F ++ (List.replicate (kBlockSize - F.length % kBlockSize) 0 ++ X)) q := by
  have hbq := blockEnd_eq q
  have hbF := blockEnd_eq F.length
  have hb := blockEnd_tail hq hlt
  by_cases hroom : kBlockSize - q % kBlockSize < kHeaderSize
  · refine .inl ?_
    simp only [bufferEnd]
    omega
  · refine .inr (headerAt_eq_zero_iff.mpr ?_)
    rw [drop_append_of_le_length hq, take_append]
    intro b hmem
    rcases mem_append.mp hmem with hmem | hmem
    · exact (hok.resolve_left hroom) b hmem
    · -- the rest of the header lies in the padding
      rw [length_drop, take_append_of_le_length (by
        rw [length_replicate]
        omega)] at hmem
      exact eq_of_mem_replicate (mem_of_mem_take hmem)

/-- **Behind a tail that is passed over, the appended records are read.** -/
theorem contentsFrom_tailOk (hskip : Skips F q) (hq : q ≤ F.length) (hlt : F.length < blockEnd q)
    (hok : TailOk F q) (ps : List Bytes) :
    (contentsFrom (appendRecords F ps) q).records.map Prod.fst = ps := by
  have hread : (contentsFrom (appendRecords F ps) F.length).records.map Prod.fst = ps := by
    rw [contentsFrom_encodeRecords (X := []) ps (by simp [appendRecords]),
      contentsFrom_end (by simp [appendRecords])]
    simp [Contents.prepend, map_fst_placed]
  rcases hok with rfl | ⟨hpad, hok⟩
  · exact hread
  · cases ps with
    | nil =>
      have heof : physAt F q = .eof q := by rw [physAt, if_pos hskip, if_neg (by omega)]
      simp [appendRecords, encodeRecords, contentsFrom, stream_eof heof, assemble]
    | cons p ps =>
      have hbF := blockEnd_eq F.length
      have hb := blockEnd_tail hq hlt
      obtain ⟨X, hX⟩ := encodeRecord_pad (p := p) hpad
      have hG : appendRecords F (p :: ps) =
          F ++ (List.replicate (kBlockSize - F.length % kBlockSize) 0 ++
            (X ++ encodeRecords (F.length + (encodeRecord p F.length).length) ps)) := by
        simp only [appendRecords, encodeRecords]
        rw [hX, append_assoc]
      have hlen : F.length + (kBlockSize - F.length % kBlockSize) ≤
          (appendRecords F (p :: ps)).length := by
        rw [hG]
        simp only [length_append, length_replicate]
        omega
      have hskipG : Skips (appendRecords F (p :: ps)) q := hG ▸ skips_padded hq hlt hok
      have hmod : 0 < F.length % kBlockSize := by
        simp only [kBlockSize, kHeaderSize] at hpad ⊢
        omega
      have hsame : physAt (appendRecords F (p :: ps)) q =
          physAt (appendRecords F (p :: ps)) F.length := by
        rw [physAt_pad hmod hpad hlen, physAt, if_pos hskipG, ← hb, hbF, if_pos hlen]
      rw [contentsFrom, stream_congr hsame]
      exact hread

/-! ## Behind any other tail -/

theorem assembleFragment_unknown {t : UInt8} (f : Bytes)
    (h : t ∉ [kFullType, kFirstType, kMiddleType, kLastType]) :
    assembleFragment none t f = .fail := by
  simp only [mem_cons, not_mem_nil, or_false, not_or] at h
  obtain ⟨h₁, h₂, h₃, h₄⟩ := h
  simp [assembleFragment, h₁, h₂, h₃, h₄]

theorem records_nil_of_type (hlast : G.length ≤ blockEnd q ∨ ¬ Skips G q)
    (htype : ¬ Skips G q → (headerAt G q).type ∉ [kFullType, kFirstType, kMiddleType, kLastType]) :
    (contentsFrom G q).records = [] := by
  have hstream : (∃ q', physAt G q = .eof q') ∨ physAt G q = .corruption ∨
      ∃ f e, physAt G q = .ok (headerAt G q).type f e ∧ ¬ Skips G q := by
    rw [physAt]
    split
    · next hskip =>
      split
      · exact .inl ⟨_, physAt_end (hlast.resolve_right (not_not.mpr hskip))⟩
      · exact .inl ⟨_, rfl⟩
    · next hskip =>
      split
      · exact .inr (.inr ⟨_, _, rfl, hskip⟩)
      · exact .inr (.inl rfl)
  rcases hstream with ⟨q', h⟩ | h | ⟨f, e, h, hskip⟩
  · simp [contentsFrom, stream_eof h, assemble]
  · simp [contentsFrom, stream_corruption h, assemble]
  · rw [contentsFrom, stream_ok h, assemble_frag, assembleFragment_unknown f (htype hskip)]

/-- The record of an empty payload, in a block with room for it. -/
def emptyRecord : Bytes := encodeHeader kFullType []

/-- None of its bytes but the last can be taken for the type of a fragment. -/
theorem emptyRecord_byte : ∀ k < 8,
    (emptyRecord.drop k).headD 0 ∉ [kFullType, kFirstType, kMiddleType, kLastType] := by
  have hbytes : emptyRecord = [0, 0, 0, 0, 0x1B, 0xDF, 0x05, 0xA5, 1] := by decide
  rw [hbytes]
  decide

theorem appendRecords_empty (F : Bytes) : appendRecords F [[]] =
    F ++ ((if kBlockSize - F.length % kBlockSize < kHeaderSize then
      List.replicate (kBlockSize - F.length % kBlockSize) 0 else []) ++ emptyRecord) := by
  simp [appendRecords, encodeRecords, encodeRecord, encodeFrom, fragmentType, emptyRecord]

theorem headerAt_tail (hskip : Skips F q) (hlt : F.length < blockEnd q)
    (hroom : q + kHeaderSize ≤ F.length) : headerAt F q = zeroHeader := by
  refine hskip.resolve_left fun h => ?_
  simp only [bufferEnd] at h
  omega

/-- **Behind any other tail, no record is found.** -/
theorem records_nil_of_tail (hskip : Skips F q) (hq : q ≤ F.length) (hlt : F.length < blockEnd q)
    (hno : ¬ TailOk F q) : (contentsFrom (appendRecords F [[]]) q).records = [] := by
  obtain ⟨hne, hno⟩ := not_or.mp hno
  have hbq := blockEnd_eq q
  have hbF := blockEnd_eq F.length
  have hb := blockEnd_tail hq hlt
  have hE : emptyRecord.length = kHeaderSize := length_encodeHeader _ _
  rw [appendRecords_empty]
  by_cases hpad : kBlockSize - F.length % kBlockSize < kHeaderSize
  · -- the block is completed with zeros, and the tail now starts with a header
    obtain ⟨hroom, hnz⟩ := not_or.mp fun h => hno ⟨hpad, h⟩
    rw [if_pos hpad]
    generalize hm : kBlockSize - F.length % kBlockSize = m at *
    have hshort : F.length < q + kHeaderSize := by
      by_contra hge
      have hge := Nat.le_of_not_lt hge
      exact hnz (headerAt_eq_zero_iff.mp (headerAt_tail hskip hlt hge))
    have hlen : (F ++ (List.replicate m 0 ++ emptyRecord)).length = F.length + m + kHeaderSize := by
      simp only [length_append, length_replicate, hE]
      omega
    have hskipG : ¬ Skips (F ++ (List.replicate m 0 ++ emptyRecord)) q := by
      rintro (h | h)
      · simp only [bufferEnd, hlen] at h
        omega
      · refine hnz fun b hb => headerAt_eq_zero_iff.mp h b ?_
        rw [drop_append_of_le_length hq, take_append]
        exact mem_append_left _ hb
    refine records_nil_of_type (.inr hskipG) fun _ => ?_
    have htype : (headerAt (F ++ (List.replicate m 0 ++ emptyRecord)) q).type = 0 := by
      obtain ⟨k, hk⟩ : ∃ k, m - (q + 8 - F.length) = k + 1 := ⟨m - (q + 8 - F.length) - 1, by
        simp only [kHeaderSize] at *
        omega⟩
      simp only [headerAt]
      rw [drop_append, drop_eq_nil_of_le (by simp only [kHeaderSize] at *; omega),
        nil_append, drop_append_of_le_length (by rw [length_replicate]; omega),
        drop_replicate, hk]
      rfl
    rw [htype]
    decide
  · -- the record is written right behind the tail, whose header it completes
    rw [if_neg hpad, nil_append]
    refine records_nil_of_type (.inl ?_) fun hskipG => ?_
    · rw [length_append, hE]
      omega
    · have hshort : F.length < q + kHeaderSize := by
        by_contra hge
        have hge := Nat.le_of_not_lt hge
        refine hskipG (.inr ?_)
        rw [← (agree_append F emptyRecord).headerAt hge]
        exact headerAt_tail hskip hlt hge
      simp only [headerAt]
      rw [drop_append, drop_eq_nil_of_le (by simp only [kHeaderSize] at *; omega), nil_append]
      exact emptyRecord_byte _ (by omega)

end Tail

/-! ## Recovery, then appending -/

/-- A file cut behind some of its records reads as those, then what is appended. -/
theorem readLog_cut {F : Bytes} {done more : List (Bytes × Nat)} {stop : Stop}
    (h : contents F = ⟨done ++ more, stop⟩) (ps : List Bytes) :
    readLog (appendRecords (F.take (lastEnd 0 done)) ps) = done.map Prod.fst ++ ps := by
  obtain ⟨-, hle, hends⟩ := lastEnd_bounds h (Nat.zero_le _)
  have hlen : (F.take (lastEnd 0 done)).length = lastEnd 0 done := length_take_of_le hle
  have hagree : Agree (lastEnd 0 done) F (appendRecords (F.take (lastEnd 0 done)) ps) := by
    refine ⟨?_, hle, ?_⟩
    · rw [appendRecords, take_left' hlen]
    · rw [appendRecords, length_append]
      omega
  have hdrop : (appendRecords (F.take (lastEnd 0 done)) ps).drop (lastEnd 0 done) =
      encodeRecords (lastEnd 0 done) ps ++ [] := by
    rw [appendRecords, drop_left' hlen, hlen, append_nil]
  rw [readLog_eq, contents, (contentsFrom_agree hagree h hends).2,
    contentsFrom_encodeRecords ps hdrop, contentsFrom_end (by simp [appendRecords, hlen])]
  simp [Contents.prepend, map_fst_placed]

/-- A file read to its end, with records appended: the reader goes on at `q`. -/
theorem readLog_append_eof {F : Bytes} {records : List (Bytes × Nat)} {q : Nat}
    (hc : contents F = ⟨records, .eof q⟩) :
    Skips F q ∧ q ≤ F.length ∧ F.length < blockEnd q ∧
      ∀ ps, readLog (appendRecords F ps) = records.map Prod.fst ++
        (contentsFrom (appendRecords F ps) q).records.map Prod.fst := by
  have hagree := fun ps => agree_append F (encodeRecords F.length ps)
  have hc' : contentsFrom F 0 = ⟨records ++ [], .eof q⟩ := by
    rw [append_nil]
    exact hc
  have hends := lastEnd_bounds hc' (Nat.zero_le _)
  have hread := fun ps => contentsFrom_agree (hagree ps) hc' fun r hr =>
    le_trans (hends.2.2 r hr) hends.2.1
  have hstop := physAt_of_contentsFrom_nil (hread []).1
  obtain ⟨hskip, hlt, hq, hsame⟩ := physAt_eof hstop hends.2.1
  refine ⟨hskip, hq, hlt, fun ps => ?_⟩
  have hlog : contents (appendRecords F ps) = _ := (hread ps).2
  have hstream := stream_congr (hsame (hagree ps))
  rw [readLog_eq, hlog, Contents.prepend, map_append, contentsFrom, hstream]
  rfl

theorem readLog_recovered {F : Bytes} (h : TailClean F) (ps : List Bytes) :
    readLog (appendRecords (recoveredFile F) ps) = (replayLog F).records.map Prod.fst ++ ps := by
  have hfile := replayLog_eq F
  unfold TailClean at h
  unfold recoveredFile
  rw [hfile]
  cases hc : contents F with
  | mk records stop =>
    rw [hc] at h
    dsimp only
    rcases replayContents_cases 0 records stop with
      ⟨hall, ⟨q, rfl⟩, hcut, hmap⟩ | ⟨-, done, more, hsplit, hcut, hmap⟩
    · -- not cut: the reader stands at `q` when the appended records come
      rw [hcut, hmap]
      obtain ⟨hskip, hq, hlt, happend⟩ := readLog_append_eof hc
      rcases h with ⟨r, hr, hbad⟩ | hok
      · exact absurd hbad (hall r hr)
      · rw [happend ps, contentsFrom_tailOk hskip hq hlt hok]
    · rw [hcut, hmap]
      subst hsplit
      exact readLog_cut hc ps

/-- **Appending after recovery.**  What is appended is read back behind the
replayed records, for every list of payloads, exactly if recovery cuts the
file or the tail it leaves is passed over. -/
theorem recover_append_iff (F : Bytes) :
    TailClean F ↔ ∀ payloads : List Bytes,
      readLog (appendRecords (recoveredFile F) payloads) =
        (replayLog F).records.map Prod.fst ++ payloads := by
  refine ⟨readLog_recovered, fun h => ?_⟩
  have h := h [[]]
  have hfile := replayLog_eq F
  unfold recoveredFile at h
  unfold TailClean
  rw [hfile] at h
  cases hc : contents F with
  | mk records stop =>
      rw [hc] at h
      dsimp only at h ⊢
      rcases replayContents_cases 0 records stop with
        ⟨-, ⟨q, rfl⟩, hcut, hmap⟩ | ⟨hwhy, -⟩
      · rw [hcut, hmap] at h
        obtain ⟨hskip, hq, hlt, happend⟩ := readLog_append_eof hc
        refine Or.inr (by_contra fun hno => ?_)
        rw [happend, records_nil_of_tail hskip hq hlt hno] at h
        simp at h
      · rcases hwhy with hbad | rfl
        · exact Or.inl hbad
        · exact Or.inr trivial

/-- One stray zero byte is enough: the record appended behind it is lost. -/
theorem recover_append_stray_byte :
    readLog (appendRecords (recoveredFile [0]) [[]]) ≠
      (replayLog [0]).records.map Prod.fst ++ [[]] := by
  decide

end BedrockKV
