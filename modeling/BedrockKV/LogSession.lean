/-
# `BedrockKV.LogSession` — a reader called until it has no more records

`Reads F ps last r`: the calls of `ReadRecord` on a file `F` return the payloads
`ps`, then `last`, and leave the reader `r`.  No loop of the reader has a bound
in the source; each ends because every round takes bytes off what is left
(`readPhysicalRecord_returns`, `readRecord_returns`, and `Reads` itself is the
loop of the callers).

    a log cut anywhere reads as the records that are all there     (`session_cut`)
    any file, cut at `last_good_end`, reads as before, to its end   (`session_truncated`)
-/
import BedrockKV.Lib.Loop
import BedrockKV.LogWriter

namespace BedrockKV.Log

open List Loop

/-! ## Rounds -/

/-- One round of `ReadPhysicalRecord`. -/
def Reader.physicalRound (r : Reader) : (PhysResult × Reader) ⊕ Reader :=
  if r.buffer.length < r.pos + kHeaderSize then
    if r.eof then .inl (.eof, r)
    else
      let block := r.rest.take kBlockSize
      let eof := decide (block.length < kBlockSize)
      if block = [] then .inl (.eof, { r with pos := r.buffer.length, eof := eof })
      else .inr
        { r with
          rest := r.rest.drop kBlockSize
          buffer := block
          pos := 0
          eof := eof
          bytesRead := r.bytesRead + block.length }
  else
    let header := headerAt r.buffer r.pos
    let pos := r.pos + kHeaderSize
    if header = zeroHeader then .inr { r with pos := r.buffer.length }
    else if kBlockSize - kHeaderSize < header.length ∨ r.buffer.length < pos + header.length then
      .inl (.corruption, { r with pos := pos })
    else
      let fragment := (r.buffer.drop pos).take header.length
      let r' := { r with pos := pos + header.length }
      if fragmentCrc header.type fragment = header.crc then
        .inl (.ok header.type fragment
          (r.bytesRead - r.buffer.length + (pos + header.length)), r')
      else .inl (.corruption, r')

/-- One round of `ReadRecord`. -/
def Reader.recordRound : Reader × Option Bytes → (ReadResult × Reader) ⊕ (Reader × Option Bytes)
  | (r, scratch) =>
    match r.readPhysicalRecord with
    | (.eof, r') =>
      match scratch with
      | some _ => .inl (.corruption r'.lastGoodEnd, r')
      | none => .inl (.eof, r')
    | (.corruption, r') => .inl (.corruption r'.lastGoodEnd, r')
    | (.ok type fragment endOffset, r') =>
      match assembleFragment scratch type fragment with
      | .record payload => .inl (.ok payload, { r' with lastGoodEnd := endOffset })
      | .more bytes => .inr (r', some bytes)
      | .fail => .inl (.corruption r'.lastGoodEnd, r')

/-- One round of the loop that reads a file: the payloads so far, and the reader. -/
def Reader.sessionRound :
    List Bytes × Reader → (List Bytes × ReadResult × Reader) ⊕ (List Bytes × Reader)
  | (payloads, r) =>
    match r.readRecord with
    | (.ok payload, r') => .inr (payloads ++ [payload], r')
    | (.eof, r') => .inl (payloads, .eof, r')
    | (.corruption offset, r') => .inl (payloads, .corruption offset, r')

/-- Reading `file` returns `payloads`, then `last`, and leaves the reader `r`. -/
def Reads (file : Bytes) (payloads : List Bytes) (last : ReadResult) (r : Reader) : Prop :=
  Returns Reader.sessionRound ([], Reader.new file) (payloads, last, r)

/-- The same loop, keeping of each record what `g` makes of its payload and of
the `last_good_end_` behind it. -/
def Reader.collectRound {γ : Type} (g : Bytes → Nat → γ) :
    List γ × Reader → (List γ × ReadResult × Reader) ⊕ (List γ × Reader)
  | (found, r) =>
    match r.readRecord with
    | (.ok payload, r') => .inr (found ++ [g payload r'.lastGoodEnd], r')
    | (.eof, r') => .inl (found, .eof, r')
    | (.corruption offset, r') => .inl (found, .corruption offset, r')

/-- The calls on a file return these records, each ending at its offset. -/
def ReadsAt (file : Bytes) (records : List (Bytes × Nat)) (last : ReadResult) (r : Reader) : Prop :=
  Returns (Reader.collectRound Prod.mk) ([], Reader.new file) (records, last, r)

/-! ## Every call returns -/

theorem readPhysical_succ (fuel : Nat) (r : Reader) :
    r.readPhysical (fuel + 1) = Sum.elim id (Reader.readPhysical fuel) r.physicalRound := by
  rw [Reader.readPhysical, Reader.physicalRound]
  split_ifs <;> first | rfl | (dsimp only; split_ifs <;> rfl)

theorem readFragments_succ (fuel : Nat) (r : Reader) (scratch : Option Bytes) :
    r.readFragments (fuel + 1) scratch =
      Sum.elim id (fun s => s.1.readFragments fuel s.2) (Reader.recordRound (r, scratch)) := by
  rw [Reader.readFragments, Reader.recordRound]
  rcases r.readPhysicalRecord with ⟨_ | _ | _, r'⟩
  · dsimp only
    cases assembleFragment scratch _ _ <;> rfl
  · cases scratch <;> rfl
  · rfl

/-- The bytes in front of the reader. -/
def Reader.left (r : Reader) : Nat := r.rest.length + (r.buffer.length - r.pos)

theorem physicalRound_next {r r' : Reader} (h : r.physicalRound = .inr r') :
    r'.rounds < r.rounds ∧ r'.left ≤ r.left ∧ r'.lastGoodEnd = r.lastGoodEnd := by
  rw [Reader.physicalRound] at h
  split_ifs at h with hshort heof
  · dsimp only at h
    split_ifs at h with hnil
    cases h
    have hne : r.rest ≠ [] := by
      rintro hrest
      exact hnil (by rw [hrest, take_nil])
    refine ⟨?_, ?_, rfl⟩
    · have hrounds : r.rounds = 2 * r.rest.length + 1 := by rw [Reader.rounds, if_pos hshort]
      rw [hrounds]
      exact Reader.rounds_refill hne
    · simp only [Reader.left, length_drop, length_take]
      omega
  · dsimp only at h
    split_ifs at h
    cases h
    refine ⟨?_, ?_, rfl⟩
    · have hpos : r.buffer.length < r.buffer.length + kHeaderSize :=
        Nat.lt_add_of_pos_right (by decide)
      simp only [Reader.rounds, if_neg hshort, if_pos hpos]
      omega
    · simp only [Reader.left]
      omega

theorem physicalRound_return {r : Reader} {out : PhysResult × Reader}
    (h : r.physicalRound = .inl out) :
    (out.2.left ≤ r.left ∧ out.2.lastGoodEnd = r.lastGoodEnd) ∧
      ∀ t f e, out.1 = .ok t f e → out.2.left < r.left := by
  rw [Reader.physicalRound] at h
  split_ifs at h with hshort heof
  · cases h
    simp
  · dsimp only at h
    split_ifs at h
    cases h
    simp [Reader.left]
  · dsimp only at h
    split_ifs at h with hzero hbad hcrc <;> cases h
    · simp only [Reader.left, kHeaderSize]
      exact ⟨⟨by omega, trivial⟩, by simp⟩
    · simp only [kHeaderSize] at hshort hbad
      refine ⟨⟨?_, rfl⟩, fun _ _ _ _ => ?_⟩ <;> simp only [Reader.left, kHeaderSize] <;> omega
    · simp only [Reader.left, kHeaderSize]
      exact ⟨⟨by omega, trivial⟩, by simp⟩

theorem readPhysical_left (fuel : Nat) : ∀ (r : Reader),
    ((r.readPhysical fuel).2.left ≤ r.left ∧
      (r.readPhysical fuel).2.lastGoodEnd = r.lastGoodEnd) ∧
      ∀ t f e, (r.readPhysical fuel).1 = .ok t f e → (r.readPhysical fuel).2.left < r.left := by
  induction fuel with
  | zero =>
    intro r
    simp [Reader.readPhysical]
  | succ fuel ih =>
    intro r
    rw [readPhysical_succ]
    cases hround : r.physicalRound with
    | inl out => exact physicalRound_return hround
    | inr r' =>
      obtain ⟨-, hleft, hgood⟩ := physicalRound_next hround
      obtain ⟨⟨hleft', hgood'⟩, hok⟩ := ih r'
      exact ⟨⟨hleft'.trans hleft, hgood'.trans hgood⟩, fun t f e h => (hok t f e h).trans_le hleft⟩

/-- **`ReadPhysicalRecord` returns**, from any state of the reader. -/
theorem readPhysicalRecord_returns (r : Reader) :
    Returns Reader.physicalRound r r.readPhysicalRecord := by
  have hpos : ∀ r : Reader, 0 < r.rounds := by
    intro r
    rw [Reader.rounds]
    split <;> omega
  refine @returns_of_measure _ _ _ Reader.readPhysical (fun r => r.rounds - 1) (fun _ => True)
    readPhysical_succ ?_ _ _ trivial ?_
  · intro s s' _ h
    have := (physicalRound_next h).1
    have := hpos s'
    exact ⟨trivial, by omega⟩
  · rw [Reader.rounds]
    split <;> omega

theorem recordRound_next {s s' : Reader × Option Bytes} (h : Reader.recordRound s = .inr s') :
    s'.1.left < s.1.left ∧ s'.1.lastGoodEnd = s.1.lastGoodEnd := by
  obtain ⟨r, scratch⟩ := s
  obtain ⟨⟨-, hgood⟩, hok⟩ := readPhysical_left (2 * r.rest.length + 2) r
  rw [Reader.recordRound] at h
  rw [← Reader.readPhysicalRecord] at hgood hok
  generalize r.readPhysicalRecord = phys at h hgood hok
  obtain ⟨type | _ | _, r'⟩ := phys
  · dsimp only at h
    split at h <;> cases h
    exact ⟨hok _ _ _ rfl, hgood⟩
  · cases scratch <;> cases h
  · cases h

theorem recordRound_return {s : Reader × Option Bytes} {out : ReadResult × Reader}
    (h : Reader.recordRound s = .inl out) (hout : ∀ p, out.1 ≠ .ok p) :
    out.2.lastGoodEnd = s.1.lastGoodEnd := by
  obtain ⟨r, scratch⟩ := s
  obtain ⟨⟨-, hgood⟩, -⟩ := readPhysical_left (2 * r.rest.length + 2) r
  rw [Reader.recordRound] at h
  rw [← Reader.readPhysicalRecord] at hgood
  generalize r.readPhysicalRecord = phys at h hgood
  obtain ⟨type | _ | _, r'⟩ := phys
  · dsimp only at h
    split at h <;> cases h
    · exact absurd rfl (hout _)
    · exact hgood
  · cases scratch <;> cases h <;> exact hgood
  · cases h
    exact hgood

/-- **`ReadRecord` returns**, from any state of the reader. -/
theorem readRecord_returns (r : Reader) :
    Returns Reader.recordRound (r, none) r.readRecord := by
  refine @returns_of_measure _ _ _ (fun n s => s.1.readFragments n s.2) (fun s => s.1.left)
    (fun _ => True) (fun n s => readFragments_succ n s.1 s.2)
    (fun _ _ _ h => ⟨trivial, (recordRound_next h).1⟩) _ (r, none) trivial ?_
  simp only [Reader.left]
  omega

theorem lastGoodEnd_of_returns {s : Reader × Option Bytes} {out : ReadResult × Reader}
    (h : Returns Reader.recordRound s out) (hout : ∀ p, out.1 ≠ .ok p) :
    out.2.lastGoodEnd = s.1.lastGoodEnd := by
  induction h with
  | done hround => exact recordRound_return hround hout
  | next hround _ ih => exact (ih hout).trans (recordRound_next hround).2

/-! ## A session reads the contents -/

/-- What the last call returns, when the records before it end at `good`. -/
def Stop.result (good : Nat) : Stop → ReadResult
  | .eof _ => .eof
  | .corruption => .corruption good

/-- The calls from the offset `o` on return the records there and end as the
contents do. -/
theorem collect_contentsFrom {γ : Type} (g : Bytes → Nat → γ) {F : Bytes} {stop : Stop}
    {records : List (Bytes × Nat)} :
    ∀ {o : Nat} {r : Reader} {before : List γ}, At F o r → contentsFrom F o = ⟨records, stop⟩ →
      ∃ r', Returns (Reader.collectRound g) (before, r)
        (before ++ records.map (fun x => g x.1 x.2),
          stop.result (lastEnd r.lastGoodEnd records), r') ∧
        r'.lastGoodEnd = lastEnd r.lastGoodEnd records := by
  induction records with
  | nil =>
    intro o r before hat hc
    have hret := readRecord_returned hat
    have hgood := lastGoodEnd_of_returns (readRecord_returns r)
    rw [hc] at hret
    generalize hres : r.readRecord = res at hret hgood
    obtain ⟨res, r'⟩ := res
    cases stop with
    | eof q =>
      obtain rfl : res = .eof := hret
      refine ⟨r', .done ?_, hgood (by simp)⟩
      simp [Reader.collectRound, hres, Stop.result]
    | corruption =>
      obtain rfl : res = .corruption r.lastGoodEnd := hret
      refine ⟨r', .done ?_, hgood (by simp)⟩
      simp [Reader.collectRound, hres, Stop.result, lastEnd]
  | cons record records ih =>
    obtain ⟨p, e⟩ := record
    intro o r before hat hc
    have hret := readRecord_returned hat
    rw [hc] at hret
    obtain ⟨hp, hat', hgood, hrest⟩ := hret
    obtain ⟨r', hr', hend⟩ := @ih e r.readRecord.2 (before ++ [g p e]) hat' hrest
    rw [hgood] at hr' hend
    have hround : Reader.collectRound g (before, r) = .inr (before ++ [g p e], r.readRecord.2) := by
      rw [Reader.collectRound, show r.readRecord = (.ok p, r.readRecord.2) from Prod.ext hp rfl]
      simp only [hgood]
    refine ⟨r', .next hround ?_, hend⟩
    simpa [lastEnd] using hr'

/-- **A session reads the contents of the file.** -/
theorem reads_contents (F : Bytes) :
    ∃ r, Reads F ((contents F).records.map Prod.fst)
        ((contents F).stop.result (lastEnd 0 (contents F).records)) r ∧
      r.lastGoodEnd = lastEnd 0 (contents F).records :=
  @collect_contentsFrom _ (fun payload _ => payload) F _ _ 0 (Reader.new F) [] (at_new F) rfl

theorem readsAt_contents (F : Bytes) :
    ∃ last r, ReadsAt F (contents F).records last r := by
  obtain ⟨r, hr, -⟩ := @collect_contentsFrom _ Prod.mk F _ _ 0 (Reader.new F) [] (at_new F) rfl
  simp only [nil_append, map_id'] at hr
  exact ⟨_, r, hr⟩

/-! ## Cut logs -/

theorem placed_append (ps qs : List Bytes) : ∀ o : Nat,
    placed o (ps ++ qs) = placed o ps ++ placed (o + (encodeRecords o ps).length) qs := by
  induction ps with
  | nil => exact fun _ => rfl
  | cons p ps ih =>
    intro o
    simp only [cons_append, placed, ih, encodeRecords, length_append, Nat.add_assoc]

theorem lt_of_mem_placed {ps : List Bytes} :
    ∀ {offset : Nat}, ∀ r ∈ placed offset ps, offset < r.2 := by
  induction ps with
  | nil => simp [placed]
  | cons p ps ih =>
    intro offset r hr
    have hpos := encodeRecord_ne_nil p offset
    rcases mem_cons.mp hr with rfl | hr
    · exact Nat.lt_add_of_pos_right hpos
    · have := ih r hr
      omega

theorem takeWhile_placed (ps : List Bytes) (n : Nat) : ∀ offset : Nat,
    ((placed offset ps).takeWhile fun r => r.2 ≤ n) =
      (placed offset ps).filter fun r => r.2 ≤ n := by
  induction ps with
  | nil => exact fun _ => rfl
  | cons p ps ih =>
    intro offset
    simp only [placed, takeWhile_cons, filter_cons, ih]
    split
    · rfl
    · next hgt =>
      refine (filter_eq_nil_iff.mpr fun r hr => ?_).symm
      have := lt_of_mem_placed r hr
      simp only [decide_eq_true_eq] at hgt ⊢
      omega

theorem le_of_mem_placed {ps : List Bytes} : ∀ {offset : Nat}, ∀ r ∈ placed offset ps,
    r.2 ≤ offset + (encodeRecords offset ps).length := by
  induction ps with
  | nil => simp [placed]
  | cons p ps ih =>
    intro offset r hr
    simp only [encodeRecords, length_append]
    rcases mem_cons.mp hr with rfl | hr
    · dsimp only
      omega
    · have := ih r hr
      omega

/-- **A cut log.**  The first `n` bytes of a log read as the payloads whose
records lie inside them, then as the end or as damage, and `last_good_end` is
the end of the last of them; the whole log reads as all of them and ends. -/
theorem session_cut (ps : List Bytes) (n : Nat) :
    (∃ last r, Reads ((encodeRecords 0 ps).take n)
        (((placed 0 ps).filter fun p => p.2 ≤ n).map Prod.fst) last r ∧
      r.lastGoodEnd = lastEnd 0 ((placed 0 ps).filter fun p => p.2 ≤ n) ∧
      (last = .eof ∨ last = .corruption r.lastGoodEnd)) ∧
    ∃ r, Reads (encodeRecords 0 ps) ps .eof r := by
  constructor
  · have hagree : Agree ((encodeRecords 0 ps).take n).length (encodeRecords 0 ps)
        ((encodeRecords 0 ps).take n) := by
      refine ⟨?_, List.length_take_le' _ _, Nat.le_refl _⟩
      rw [List.take_length, List.length_take, ← List.take_eq_take_min]
    have hwhole := congrArg Contents.records (contents_encodeRecords ps)
    have hrecords : (contents ((encodeRecords 0 ps).take n)).records =
        (placed 0 ps).filter fun p => p.2 ≤ n := by
      rw [contents, records_of_agree hagree hwhole, takeWhile_placed]
      refine List.filter_congr fun p hp => ?_
      have := le_of_mem_placed p hp
      simp only [List.length_take, decide_eq_decide]
      omega
    obtain ⟨r, hr, hgood⟩ := reads_contents ((encodeRecords 0 ps).take n)
    rw [hrecords] at hr hgood
    refine ⟨_, r, hr, hgood, ?_⟩
    rw [hgood]
    cases (contents ((encodeRecords 0 ps).take n)).stop with
    | eof q => exact Or.inl rfl
    | corruption => exact Or.inr rfl
  · obtain ⟨r, hr, -⟩ := reads_contents (encodeRecords 0 ps)
    rw [contents_encodeRecords, map_fst_placed] at hr
    exact ⟨r, hr⟩

/-- **Any file.**  Every call of the reader returns and there are finitely many
of them; cut at the `last_good_end` they leave, the file reads as the same
payloads, and then as its end. -/
theorem session_truncated (F : Bytes) :
    (∀ r : Reader, Returns Reader.physicalRound r r.readPhysicalRecord ∧
      Returns Reader.recordRound (r, none) r.readRecord) ∧
    ∃ payloads last r, Reads F payloads last r ∧
      ∃ r', Reads (F.take r.lastGoodEnd) payloads .eof r' := by
  refine ⟨fun r => ⟨readPhysicalRecord_returns r, readRecord_returns r⟩, ?_⟩
  obtain ⟨r, hr, hgood⟩ := reads_contents F
  have hc : contents F = ⟨(contents F).records ++ [], (contents F).stop⟩ := by
    rw [List.append_nil]
  obtain ⟨r', hr', -⟩ := reads_contents (F.take (lastEnd 0 (contents F).records))
  rw [contents_take_lastEnd hc] at hr'
  exact ⟨_, _, r, hr, r', hgood ▸ hr'⟩

end BedrockKV.Log
