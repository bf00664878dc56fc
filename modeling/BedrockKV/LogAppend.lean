/-
# `BedrockKV.LogAppend` — reading back what was written, and what follows it

Two facts about a file's contents, each for a file with anything after it:

    records inside the bytes two files share are read alike     (`contentsFrom_agree`)
    a record encoded at its offset is read back, and reading
    goes on at its end                                          (`contentsFrom_encodeRecords`)

Neither says anything about a tail that is not a whole record; that is the
subject of `BedrockKV.LogRecover`.
-/
import BedrockKV.LogStream

namespace BedrockKV

open List

namespace Log

/-! ## Files that agree on their first bytes -/

structure Agree (n : Nat) (F G : Bytes) : Prop where
  take : F.take n = G.take n
  left : n ≤ F.length
  right : n ≤ G.length

section Agree

variable {F G : Bytes} {n o e : Nat}

theorem Agree.headerAt (h : Agree n F G) (ho : o + kHeaderSize ≤ n) :
    headerAt F o = headerAt G o := by
  rw [← headerAt_take ho, h.take, headerAt_take ho]

theorem Agree.fragmentAt (h : Agree n F G)
    (ho : o + kHeaderSize + (Log.headerAt F o).length ≤ n) : fragmentAt F o = fragmentAt G o := by
  have hcut : ∀ H : Bytes, (H.drop (o + kHeaderSize)).take (Log.headerAt F o).length =
      ((H.take n).drop (o + kHeaderSize)).take (Log.headerAt F o).length := by
    intro H
    rw [drop_take, take_take, min_eq_left (by omega)]
  rw [Log.fragmentAt, Log.fragmentAt, ← h.headerAt (by omega), hcut F, hcut G, h.take]

theorem Agree.skips (h : Agree n F G) (hle : blockEnd o ≤ n) (hs : Skips F o) : Skips G o := by
  have hl := h.left
  have hr := h.right
  rcases hs with hs | hs
  · refine .inl ?_
    simp only [bufferEnd] at hs ⊢
    omega
  · by_cases hroom : o + kHeaderSize ≤ blockEnd o
    · exact .inr ((h.headerAt (by omega)).symm.trans hs)
    · refine .inl ?_
      simp only [bufferEnd]
      omega

theorem physAt_agree {t : UInt8} {f : Bytes} (h : Agree n F G) (hp : physAt F o = .ok t f e)
    (he : e ≤ n) : physAt G o = .ok t f e := by
  have hl := h.left
  have hr := h.right
  induction o using physAt.induct F with
  | case1 o hskip hle ih =>
    rw [physAt, if_pos hskip, if_pos hle] at hp
    have hb := physAt_bounds hp
    rw [physAt, if_pos (h.skips (by omega) hskip), if_pos (by omega)]
    exact ih hp
  | case2 o hskip hle =>
    rw [physAt, if_pos hskip, if_neg hle] at hp
    cases hp
  | case3 o hskip hint =>
    rw [physAt, if_neg hskip, if_pos hint] at hp
    obtain ⟨rfl, rfl, rfl⟩ := Phys.ok.inj hp
    have hhead := h.headerAt (show o + kHeaderSize ≤ n by omega)
    have hfrag := h.fragmentAt he
    obtain ⟨hlen, hfit, hcrc⟩ := hint
    have hbuf : o + kHeaderSize + (Log.headerAt F o).length ≤ bufferEnd G o := by
      simp only [bufferEnd] at hfit ⊢
      omega
    have hskipG : ¬ Skips G o := by
      rintro (hs | hs)
      · omega
      · exact hskip (.inr (hhead.trans hs))
    have hintG : Intact G o := by
      refine ⟨hhead ▸ hlen, hhead ▸ hbuf, ?_⟩
      rw [← hhead, ← hfrag]
      exact hcrc
    rw [physAt, if_neg hskipG, if_pos hintG, ← hhead, ← hfrag]
  | case4 o hskip hint =>
    rw [physAt, if_neg hskip, if_neg hint] at hp
    cases hp

theorem Agree.symm (h : Agree n F G) : Agree n G F := ⟨h.take.symm, h.right, h.left⟩

theorem Agree.refl (F : Bytes) : Agree F.length F F := ⟨rfl, le_rfl, le_rfl⟩

theorem Contents.cons_inj {p p' : Bytes} {e e' : Nat} {c c' : Contents}
    (h : c.cons p e = c'.cons p' e') : p = p' ∧ e = e' ∧ c = c' := by
  cases c; cases c'
  simp_all [Contents.cons]

/-- The first record of a stream ends beyond where the stream starts, inside the file, and
is read alike in a file that shares its bytes. -/
theorem assemble_agree (h : Agree n F G) :
    ∀ {o : Nat} {scratch : Option Bytes} {p : Bytes} {e : Nat} {c : Contents},
      assemble scratch (stream F o) = c.cons p e →
      (o < e ∧ e ≤ F.length) ∧ (e ≤ n → c = contentsFrom F e ∧
        assemble scratch (stream G o) = (contentsFrom G e).cons p e) := by
  intro o
  induction o using stream.induct F with
  | case1 o q hp =>
    intro scratch p e c hc
    rw [stream_eof hp] at hc
    cases scratch <;> simp [assemble, Contents.cons] at hc
  | case2 o hp =>
    intro scratch p e c hc
    rw [stream_corruption hp] at hc
    cases scratch <;> simp [assemble, Contents.cons] at hc
  | case3 o t f e₁ hp ih =>
    intro scratch p e c hc
    have hb := physAt_bounds hp
    rw [stream_ok hp, assemble_frag] at hc
    cases hasm : assembleFragment scratch t f with
    | record payload =>
      simp only [hasm] at hc
      obtain ⟨rfl, rfl, rfl⟩ := Contents.cons_inj hc
      refine ⟨hb, fun hn => ⟨rfl, ?_⟩⟩
      rw [stream_ok (physAt_agree h hp hn), assemble_frag, hasm]
      rfl
    | more bytes =>
      -- the record goes on from the end of this fragment
      simp only [hasm] at hc
      obtain ⟨⟨hlt, hle⟩, hrest⟩ := ih hc
      refine ⟨⟨lt_trans hb.1 hlt, hle⟩, fun hn => ⟨(hrest hn).1, ?_⟩⟩
      rw [stream_ok (physAt_agree h hp (by omega)), assemble_frag, hasm]
      exact (hrest hn).2
    | fail =>
      simp only [hasm] at hc
      simp [Contents.cons] at hc

theorem contentsFrom_cons {p : Bytes} {records : List (Bytes × Nat)} {stop : Stop}
    (h : contentsFrom F o = ⟨(p, e) :: records, stop⟩) :
    o < e ∧ e ≤ F.length ∧ contentsFrom F e = ⟨records, stop⟩ := by
  have hcons : assemble none (stream F o) = Contents.cons p e ⟨records, stop⟩ := h
  obtain ⟨⟨hlt, hle⟩, hrest⟩ := assemble_agree (Agree.refl F) hcons
  exact ⟨hlt, hle, (hrest hle).1.symm⟩

/-- Where reading stands after `records`, having started at `o`. -/
def lastEnd : Nat → List (Bytes × Nat) → Nat
  | o, [] => o
  | _, (_, e) :: records => lastEnd e records

def Contents.prepend (records : List (Bytes × Nat)) (c : Contents) : Contents :=
  ⟨records ++ c.records, c.stop⟩

/-- **Shared bytes are read alike**: the records that end inside them are the
same in both files, and reading stands at the same offset after them. -/
theorem contentsFrom_agree {records more : List (Bytes × Nat)} {stop : Stop}
    (h : Agree n F G) : ∀ {o : Nat}, contentsFrom F o = ⟨records ++ more, stop⟩ →
      (∀ r ∈ records, r.2 ≤ n) →
      contentsFrom F (lastEnd o records) = ⟨more, stop⟩ ∧
      contentsFrom G o = (contentsFrom G (lastEnd o records)).prepend records := by
  induction records with
  | nil => exact fun hc _ => ⟨hc, rfl⟩
  | cons r records ih =>
    obtain ⟨p, e⟩ := r
    intro o hc hle
    obtain ⟨he, hle⟩ := forall_mem_cons.mp hle
    have hcons : contentsFrom F o = Contents.cons p e ⟨records ++ more, stop⟩ := hc
    obtain ⟨hF, hG⟩ := (assemble_agree h hcons).2 he
    obtain ⟨hF', hG'⟩ := ih hF.symm hle
    refine ⟨hF', ?_⟩
    rw [contentsFrom, hG, hG']
    rfl

theorem cons_of_agree (h : Agree G.length F G) {p : Bytes} {c : Contents}
    (hG : contentsFrom G o = c.cons p e) :
    e ≤ G.length ∧ contentsFrom F o = (contentsFrom F e).cons p e :=
  have hagree := assemble_agree h.symm hG
  ⟨hagree.1.2, (hagree.2 hagree.1.2).2⟩

theorem Contents.eq_cons {c : Contents} {r : Bytes × Nat} {records : List (Bytes × Nat)}
    (h : c.records = r :: records) : c = Contents.cons r.1 r.2 ⟨records, c.stop⟩ := by
  cases c
  simp_all [Contents.cons]

/-- **A reader of the first bytes of a file** gets the records that end inside them. -/
theorem records_of_agree (h : Agree G.length F G) {records : List (Bytes × Nat)} :
    ∀ {o : Nat}, (contentsFrom F o).records = records →
      (contentsFrom G o).records = records.takeWhile fun r => r.2 ≤ G.length := by
  induction records with
  | nil =>
    intro o hF
    refine eq_nil_iff_forall_not_mem.mpr fun r hr => ?_
    obtain ⟨r', records', hG⟩ := exists_cons_of_ne_nil (ne_nil_of_mem hr)
    have := (cons_of_agree h (Contents.eq_cons hG)).2
    rw [this] at hF
    simp [Contents.cons] at hF
  | cons r records ih =>
    intro o hF
    have hcons := Contents.eq_cons hF
    by_cases hle : r.2 ≤ G.length
    · obtain ⟨hF', hG⟩ := (assemble_agree h hcons).2 hle
      rw [contentsFrom, hG, takeWhile_cons_of_pos (by simpa using hle)]
      exact congrArg (r :: ·) (ih (congrArg Contents.records hF'.symm))
    · rw [takeWhile_cons_of_neg (by simpa using hle)]
      refine eq_nil_iff_forall_not_mem.mpr fun r' hr' => ?_
      obtain ⟨r₁, records', hG⟩ := exists_cons_of_ne_nil (ne_nil_of_mem hr')
      obtain ⟨hle', hF'⟩ := cons_of_agree h (Contents.eq_cons hG)
      rw [hF'] at hcons
      exact hle ((Contents.cons_inj hcons).2.1 ▸ hle')

end Agree

/-! ## Writing and reading back -/

section Write

variable {G X : Bytes} {o : Nat}

theorem headerAt_encodeHeader {t : UInt8} {f : Bytes} (hlen : f.length < 2 ^ 32)
    (hG : G.drop o = encodeHeader t f ++ X) : headerAt G o = ⟨f.length, fragmentCrc t f, t⟩ := by
  have hcrc : fragmentCrc t f < 2 ^ 32 := UInt32.toNat_lt _
  have h4 : G.drop (o + 4) = putFixed32 (fragmentCrc t f) ++ ([t] ++ X) := by
    rw [← drop_drop, hG, encodeHeader, append_assoc, append_assoc, drop_left' (length_putFixed32 _)]
  have h8 : G.drop (o + 8) = [t] ++ X := by
    rw [← drop_drop, hG, encodeHeader, append_assoc, drop_left' (by simp)]
  have h0 : G.drop o = putFixed32 f.length ++ (putFixed32 (fragmentCrc t f) ++ ([t] ++ X)) := by
    rw [hG, encodeHeader, append_assoc, append_assoc]
  rw [headerAt, h0, h4, h8, getFixed32_putFixed32 hlen, getFixed32_putFixed32 hcrc]
  rfl

theorem length_encodeHeader (t : UInt8) (f : Bytes) : (encodeHeader t f).length = kHeaderSize := by
  simp [encodeHeader, kHeaderSize]

theorem physAt_encode {t : UInt8} {f : Bytes} (ht : t ≠ kZeroType)
    (hfit : o % kBlockSize + kHeaderSize + f.length ≤ kBlockSize)
    (hG : G.drop o = encodeHeader t f ++ (f ++ X)) :
    physAt G o = .ok t f (o + kHeaderSize + f.length) := by
  have hhead := headerAt_encodeHeader (f := f) (by simp only [kBlockSize] at hfit; omega) hG
  have hlen : o + kHeaderSize + f.length ≤ G.length := by
    have := congrArg List.length hG
    rw [length_drop, length_append, length_encodeHeader, length_append] at this
    simp only [kHeaderSize] at *
    omega
  have hbuf : o + kHeaderSize + f.length ≤ bufferEnd G o := by
    simp only [bufferEnd, blockEnd, kBlockSize, kHeaderSize] at *
    omega
  have hfrag : fragmentAt G o = f := by
    rw [fragmentAt, hhead, ← drop_drop, hG, drop_left' (length_encodeHeader t f)]
    exact take_left' rfl
  have hskip : ¬ Skips G o := by
    rintro (hs | hs)
    · omega
    · rw [hhead] at hs
      exact ht (congrArg Header.type hs)
  have hint : Intact G o := by
    rw [Intact, hhead, hfrag]
    exact ⟨by simp only [kBlockSize, kHeaderSize] at *; omega, hbuf, rfl⟩
  rw [physAt, if_neg hskip, if_pos hint, hhead, hfrag]

theorem physAt_pad (hpos : 0 < o % kBlockSize) (hshort : kBlockSize - o % kBlockSize < kHeaderSize)
    (hlen : o + (kBlockSize - o % kBlockSize) ≤ G.length) :
    physAt G o = physAt G (o + (kBlockSize - o % kBlockSize)) := by
  have hb : blockEnd o = o + (kBlockSize - o % kBlockSize) := by
    simp only [blockEnd, kBlockSize] at *
    omega
  have hskip : Skips G o := by
    refine .inl ?_
    simp only [bufferEnd]
    omega
  rw [physAt, if_pos hskip, hb, if_pos hlen]

theorem stream_congr {o' : Nat} (h : physAt G o = physAt G o') : stream G o = stream G o' := by
  cases hp : physAt G o' with
  | eof q => rw [stream_eof (h.trans hp), stream_eof hp]
  | corruption => rw [stream_corruption (h.trans hp), stream_corruption hp]
  | ok t f e => rw [stream_ok (h.trans hp), stream_ok hp]

theorem assembleFragment_fragmentType {scratch : Option Bytes} {first : Bool}
    (h : scratch.isSome = !first) (last : Bool) (f : Bytes) :
    assembleFragment scratch (fragmentType first last) f =
      if last then .record (scratch.getD [] ++ f) else .more (scratch.getD [] ++ f) := by
  cases first <;> cases last <;> cases scratch <;>
    simp_all [assembleFragment, fragmentType, kFullType, kFirstType, kMiddleType, kLastType]

theorem fragmentType_ne_zero (first last : Bool) : fragmentType first last ≠ kZeroType := by
  cases first <;> cases last <;> decide

/-- The position in the block: the offset's own, or a block just filled. -/
def InPosition (o off : Nat) : Prop :=
  off = o % kBlockSize ∨ (off = kBlockSize ∧ o % kBlockSize = 0)

theorem stream_skip_pad {off : Nat} (hpos : InPosition o off)
    (hG : G.drop o = (if kBlockSize - off < kHeaderSize then
      List.replicate (kBlockSize - off) 0 else []) ++ X) :
    ∃ o', stream G o = stream G o' ∧ G.drop o' = X ∧
      o' = o + (if kBlockSize - off < kHeaderSize then kBlockSize - off else 0) ∧
      o' % kBlockSize = (if kBlockSize - off < kHeaderSize then 0 else off) := by
  by_cases hshort : kBlockSize - off < kHeaderSize
  · simp only [if_pos hshort] at hG ⊢
    rcases hpos with rfl | ⟨rfl, hz⟩
    · have hmod : o % kBlockSize < kBlockSize := Nat.mod_lt _ (by decide)
      have hlen : o + (kBlockSize - o % kBlockSize) ≤ G.length := by
        have := congrArg List.length hG
        rw [length_drop, length_append, length_replicate] at this
        omega
      refine ⟨o + (kBlockSize - o % kBlockSize), stream_congr (physAt_pad ?_ hshort hlen), ?_, rfl,
        ?_⟩
      · simp only [kBlockSize, kHeaderSize] at *
        omega
      · rw [← drop_drop, hG, drop_left' (by simp)]
      · simp only [kBlockSize] at *
        omega
    · exact ⟨o, rfl, by simpa using hG, by simp, hz⟩
  · simp only [if_neg hshort] at hG ⊢
    refine ⟨o, rfl, hG, rfl, ?_⟩
    rcases hpos with rfl | ⟨rfl, -⟩
    · rfl
    · simp [kHeaderSize] at hshort

/-- One round of `EncodeRecord` writes one fragment, and the next begins with the
next block. -/
theorem stream_encodeFrom {fuel off : Nat} {first : Bool} {payload : Bytes}
    (hpos : InPosition o off)
    (hfuel : payload.length + (if kBlockSize - off = kHeaderSize then 2 else 1) ≤ fuel + 1)
    (hG : G.drop o = encodeFrom (fuel + 1) off first payload ++ X) :
    ∃ f rest e, payload = f ++ rest ∧ (off = kBlockSize → payload ≠ [] → f ≠ []) ∧
      stream G o = .frag (fragmentType first (decide (rest = []))) f e (stream G e) ∧
      (rest = [] → e = o + (encodeFrom (fuel + 1) off first payload).length) ∧
      (rest ≠ [] → InPosition e kBlockSize ∧ rest.length + 1 ≤ fuel ∧
        G.drop e = encodeFrom fuel kBlockSize false rest ++ X ∧
        e + (encodeFrom fuel kBlockSize false rest).length =
          o + (encodeFrom (fuel + 1) off first payload).length) := by
  simp only [encodeFrom] at hG ⊢
  set short : Prop := kBlockSize - off < kHeaderSize with hshort
  set start := if short then 0 else off with hstart
  set avail := kBlockSize - start - kHeaderSize with havail
  set f := payload.take avail with hf
  set rest := payload.drop avail with hrest
  set tail := if rest = [] then [] else
    encodeFrom fuel (start + kHeaderSize + f.length) false rest with htail
  obtain ⟨o', hstream, hdrop, ho', hmod⟩ := stream_skip_pad (G := G)
    (X := encodeHeader (fragmentType first (decide (rest = []))) f ++ (f ++ (tail ++ X)))
    hpos (by simpa only [append_assoc] using hG)
  replace hmod : o' % kBlockSize = start := hmod
  have hroom : start + kHeaderSize ≤ kBlockSize ∧
      (kBlockSize - off ≠ kHeaderSize → start + kHeaderSize < kBlockSize) := by
    rw [hstart]
    split
    · exact ⟨by decide, fun _ => by decide⟩
    · next hs =>
      have : kHeaderSize ≤ kBlockSize - off := Nat.le_of_not_lt hs
      simp only [kBlockSize, kHeaderSize] at *
      omega
  have hflen : f.length ≤ avail := by
    rw [hf, length_take]
    exact Nat.min_le_left _ _
  have hphys := physAt_encode (fragmentType_ne_zero first (decide (rest = [])))
    (by rw [hmod]; omega) hdrop
  have hlen : o + ((if short then List.replicate (kBlockSize - off) 0 else []) ++
      encodeHeader (fragmentType first (decide (rest = []))) f ++ f ++ tail).length =
      o' + kHeaderSize + f.length + tail.length := by
    simp only [length_append, length_encodeHeader]
    rw [ho']
    split <;> simp <;> omega
  refine ⟨f, rest, o' + kHeaderSize + f.length, (take_append_drop _ _).symm, fun hoff hne => ?_,
    hstream.trans (stream_ok hphys), fun hnil => ?_, fun hnil => ?_⟩
  · -- at the start of a block there is room
    have havail' : 0 < avail := by
      have := hroom.2 (by rw [hoff]; decide)
      omega
    rw [hf, ne_eq, take_eq_nil_iff, not_or]
    exact ⟨by omega, hne⟩
  · rw [hlen, htail, if_pos hnil]
    rfl
  · have hlt : avail < payload.length := by
      rw [hrest, ne_eq, drop_eq_nil_iff] at hnil
      omega
    have hfull : f.length = avail := by
      rw [hf, length_take]
      omega
    have hrlen : rest.length = payload.length - avail := by rw [hrest, length_drop]
    have hoff : start + kHeaderSize + f.length = kBlockSize := by omega
    have htail' : tail = encodeFrom fuel kBlockSize false rest := by
      rw [htail, if_neg hnil, hoff]
    refine ⟨.inr ⟨rfl, ?_⟩, ?_, ?_, by rw [hlen, htail']⟩
    · rw [Nat.add_assoc, Nat.add_mod, hmod]
      simp only [kBlockSize, kHeaderSize] at hoff hroom ⊢
      omega
    · -- a round without room for a byte is followed by one with room
      split at hfuel
      · omega
      · next hne =>
        have := hroom.2 hne
        omega
    · rw [Nat.add_assoc, ← drop_drop, hdrop, ← append_assoc, htail',
        drop_left' (by rw [length_append, length_encodeHeader])]

/-- **A record is read back where it was written**, whatever follows it. -/
theorem assemble_encodeFrom (fuel : Nat) :
    ∀ {o off : Nat} {first : Bool} {payload : Bytes} {scratch : Option Bytes},
      InPosition o off → payload.length + (if kBlockSize - off = kHeaderSize then 2 else 1) ≤ fuel →
      scratch.isSome = !first → G.drop o = encodeFrom fuel off first payload ++ X →
      assemble scratch (stream G o) =
        (contentsFrom G (o + (encodeFrom fuel off first payload).length)).cons
          (scratch.getD [] ++ payload) (o + (encodeFrom fuel off first payload).length) := by
  induction fuel with
  | zero =>
    intro o off first payload scratch _ hfuel
    split at hfuel <;> omega
  | succ fuel ih =>
    intro o off first payload scratch hpos hfuel hscr hG
    obtain ⟨f, rest, e, rfl, -, hstream, hlast, hmore⟩ := stream_encodeFrom hpos hfuel hG
    rw [hstream, assemble_frag, assembleFragment_fragmentType hscr]
    by_cases hnil : rest = []
    · rw [← hlast hnil, decide_eq_true hnil, hnil, append_nil]
      rfl
    · obtain ⟨hpos', hfuel', hG', hlen⟩ := hmore hnil
      have hscr' : (some (scratch.getD [] ++ f)).isSome = !false := rfl
      rw [← hlen, decide_eq_false hnil]
      have hnext := ih hpos' (by simpa [kHeaderSize] using hfuel') hscr' hG'
      simpa [append_assoc] using hnext

theorem contentsFrom_encodeRecord {p : Bytes} (hG : G.drop o = encodeRecord p o ++ X) :
    contentsFrom G o = (contentsFrom G (o + (encodeRecord p o).length)).cons p
      (o + (encodeRecord p o).length) := by
  refine assemble_encodeFrom (p.length + 2) (.inl rfl) ?_ rfl hG
  split <;> omega

/-- The payloads with the end offsets their records get. -/
def placed (offset : Nat) : List Bytes → List (Bytes × Nat)
  | [] => []
  | p :: ps =>
    let endOffset := offset + (encodeRecord p offset).length
    (p, endOffset) :: placed endOffset ps

/-- **Records written one after another are read back**, whatever follows. -/
theorem contentsFrom_encodeRecords (ps : List Bytes) :
    ∀ {o : Nat}, G.drop o = encodeRecords o ps ++ X →
      contentsFrom G o =
        (contentsFrom G (o + (encodeRecords o ps).length)).prepend (placed o ps) := by
  induction ps with
  | nil => exact fun _ => rfl
  | cons p ps ih =>
    intro o hG
    simp only [encodeRecords] at hG ⊢
    rw [append_assoc] at hG
    rw [contentsFrom_encodeRecord hG]
    have hnext : G.drop (o + (encodeRecord p o).length) =
        encodeRecords (o + (encodeRecord p o).length) ps ++ X := by
      rw [← drop_drop, hG, drop_left' rfl]
    rw [ih hnext, length_append, ← Nat.add_assoc]
    rfl

theorem map_fst_placed (offset : Nat) (ps : List Bytes) :
    (placed offset ps).map Prod.fst = ps := by
  induction ps generalizing offset with
  | nil => rfl
  | cons p ps ih => simp [placed, ih]

theorem contentsFrom_end (h : G.length ≤ o) : contentsFrom G o = ⟨[], .eof o⟩ := by
  rw [contentsFrom, stream_eof (physAt_end h)]
  rfl

theorem contents_encodeRecords (ps : List Bytes) :
    contents (encodeRecords 0 ps) = ⟨placed 0 ps, .eof (encodeRecords 0 ps).length⟩ := by
  have h := contentsFrom_encodeRecords (G := encodeRecords 0 ps) (X := []) ps (o := 0) (by simp)
  rw [contents, h, Nat.zero_add, contentsFrom_end le_rfl]
  simp [Contents.prepend]

end Write

end Log

end BedrockKV
