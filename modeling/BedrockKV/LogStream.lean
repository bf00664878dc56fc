/-
# `BedrockKV.LogStream` — what a reader returns for a whole file

`physAt F o` is the physical record a reader at offset `o` of the file `F`
returns next, `stream F o` all of them up to the end or the first that is
damaged, and `contents F` the logical records they make, each with its end
offset.  No buffer and no flag: only offsets into `F`.

`Reader.readRecord_returned` is the link to the reader of the source: one
call returns the head of the contents from its offset on.

An `eof` carries the offset at which the reader gave up.  The source throws
it away, and that is where a tail of the file can be skipped without notice.
-/
import BedrockKV.Log

namespace BedrockKV

open List

namespace Log

/-- The end of the block that holds offset `o`. -/
def blockEnd (o : Nat) : Nat := (o / kBlockSize + 1) * kBlockSize

theorem lt_blockEnd (o : Nat) : o < blockEnd o := by
  unfold blockEnd
  have h := Nat.div_add_mod o kBlockSize
  have hlt := Nat.mod_lt o (show kBlockSize > 0 by decide)
  rw [Nat.add_mul, Nat.one_mul, Nat.mul_comm]
  omega

/-- The bytes of the block that the file has. -/
def bufferEnd (F : Bytes) (o : Nat) : Nat := min (blockEnd o) F.length

/-- No record starts at `o`: no room for a header, or a zero one. -/
def Skips (F : Bytes) (o : Nat) : Prop :=
  bufferEnd F o < o + kHeaderSize ∨ headerAt F o = zeroHeader

instance (F : Bytes) (o : Nat) : Decidable (Skips F o) := inferInstanceAs (Decidable (_ ∨ _))

def fragmentAt (F : Bytes) (o : Nat) : Bytes :=
  (F.drop (o + kHeaderSize)).take (headerAt F o).length

/-- The header's length stays in the block and its CRC is right. -/
def Intact (F : Bytes) (o : Nat) : Prop :=
  (headerAt F o).length ≤ kBlockSize - kHeaderSize ∧
  o + kHeaderSize + (headerAt F o).length ≤ bufferEnd F o ∧
  fragmentCrc (headerAt F o).type (fragmentAt F o) = (headerAt F o).crc

instance (F : Bytes) (o : Nat) : Decidable (Intact F o) := inferInstanceAs (Decidable (_ ∧ _ ∧ _))

inductive Phys where
  | ok (type : UInt8) (fragment : Bytes) (endOffset : Nat)
  | eof (stopped : Nat)
  | corruption

/-- The next physical record from `o` on. -/
def physAt (F : Bytes) (o : Nat) : Phys :=
  if Skips F o then
    if blockEnd o ≤ F.length then physAt F (blockEnd o) else .eof o
  else if Intact F o then
    .ok (headerAt F o).type (fragmentAt F o) (o + kHeaderSize + (headerAt F o).length)
  else .corruption
termination_by F.length - o
decreasing_by
  have := lt_blockEnd o
  omega

/-- The physical records of a file, up to where its reader stops. -/
inductive Stream where
  | eof (stopped : Nat)
  | corruption
  | frag (type : UInt8) (fragment : Bytes) (endOffset : Nat) (rest : Stream)

theorem physAt_bounds {F : Bytes} {o e : Nat} {t : UInt8} {f : Bytes}
    (h : physAt F o = .ok t f e) : o < e ∧ e ≤ F.length := by
  induction o using physAt.induct F with
  | case1 o hskip hle ih =>
    rw [physAt, if_pos hskip, if_pos hle] at h
    obtain ⟨hlt, hle'⟩ := ih h
    exact ⟨lt_trans (lt_blockEnd o) hlt, hle'⟩
  | case2 o hskip hle =>
    rw [physAt, if_pos hskip, if_neg hle] at h
    cases h
  | case3 o hskip hint =>
    rw [physAt, if_neg hskip, if_pos hint] at h
    obtain ⟨-, -, rfl⟩ := Phys.ok.inj h
    refine ⟨?_, le_trans hint.2.1 (Nat.min_le_right _ _)⟩
    simp only [kHeaderSize]
    omega
  | case4 o hskip hint =>
    rw [physAt, if_neg hskip, if_neg hint] at h
    cases h

def stream (F : Bytes) (o : Nat) : Stream :=
  match _h : physAt F o with
  | .eof q => .eof q
  | .corruption => .corruption
  | .ok t f e => .frag t f e (stream F e)
termination_by F.length - o
decreasing_by
  have := physAt_bounds _h
  omega

theorem stream_ok {F : Bytes} {o e : Nat} {t : UInt8} {f : Bytes}
    (h : physAt F o = .ok t f e) : stream F o = .frag t f e (stream F e) := by
  rw [stream]
  split <;> simp_all

theorem stream_eof {F : Bytes} {o q : Nat} (h : physAt F o = .eof q) : stream F o = .eof q := by
  rw [stream]
  split <;> simp_all

theorem stream_corruption {F : Bytes} {o : Nat} (h : physAt F o = .corruption) :
    stream F o = .corruption := by
  rw [stream]
  split <;> simp_all

/-- How the reading of a file ends. -/
inductive Stop where
  | eof (stopped : Nat)
  | corruption
  deriving DecidableEq

/-- The logical records of a file, each with its end offset, and how reading ends. -/
structure Contents where
  records : List (Bytes × Nat)
  stop : Stop

def Contents.cons (payload : Bytes) (endOffset : Nat) (c : Contents) : Contents :=
  ⟨(payload, endOffset) :: c.records, c.stop⟩

/-- `ReadRecord`'s assembly of fragments, over the whole stream. -/
def assemble : Option Bytes → Stream → Contents
  | none, .eof q => ⟨[], .eof q⟩
  | some _, .eof _ => ⟨[], .corruption⟩
  | _, .corruption => ⟨[], .corruption⟩
  | scratch, .frag type f e rest =>
    match assembleFragment scratch type f with
    | .record payload => (assemble none rest).cons payload e
    | .more bytes => assemble (some bytes) rest
    | .fail => ⟨[], .corruption⟩

theorem assemble_frag (scratch : Option Bytes) (type : UInt8) (f : Bytes) (e : Nat)
    (rest : Stream) :
    assemble scratch (.frag type f e rest) =
      match assembleFragment scratch type f with
      | .record payload => (assemble none rest).cons payload e
      | .more bytes => assemble (some bytes) rest
      | .fail => ⟨[], .corruption⟩ := by
  cases scratch <;> rw [assemble]

def contentsFrom (F : Bytes) (o : Nat) : Contents := assemble none (stream F o)

def contents (F : Bytes) : Contents := contentsFrom F 0

/-! ## The reader of the source -/

/-- The reader holds the block of `F` that starts at `start`. -/
structure InBlock (F : Bytes) (start : Nat) (r : Reader) : Prop where
  aligned : start % kBlockSize = 0
  start_lt : start < F.length
  buffer : r.buffer = (F.drop start).take kBlockSize
  rest : r.rest = F.drop (start + kBlockSize)
  bytesRead : r.bytesRead = start + r.buffer.length
  eof : r.eof = decide (r.buffer.length < kBlockSize)
  pos_le : r.pos ≤ r.buffer.length

section Reader

variable {F : Bytes} {start : Nat} {r : Reader}

theorem InBlock.length (h : InBlock F start r) :
    r.buffer.length = min kBlockSize (F.length - start) := by
  rw [h.buffer, length_take, length_drop]

theorem InBlock.rest_length (h : InBlock F start r) :
    r.rest.length = F.length - (start + kBlockSize) := by
  rw [h.rest, length_drop]

theorem blockEnd_of_aligned {p : Nat} (h : start % kBlockSize = 0) (hp : p < kBlockSize) :
    blockEnd (start + p) = start + kBlockSize := by
  simp only [blockEnd, kBlockSize] at *
  omega

theorem InBlock.bufferEnd (h : InBlock F start r) (hp : r.pos < kBlockSize) :
    bufferEnd F (start + r.pos) = start + r.buffer.length := by
  have hlen := h.length
  have hlt := h.start_lt
  rw [Log.bufferEnd, blockEnd_of_aligned h.aligned hp, hlen]
  omega

theorem headerAt_take {bs : Bytes} {n p : Nat} (h : p + kHeaderSize ≤ n) :
    headerAt (bs.take n) p = headerAt bs p := by
  simp only [kHeaderSize] at h
  simp only [headerAt, getFixed32, drop_take]
  rw [getFixed_take (by omega), getFixed_take (by omega)]
  congr 1
  obtain ⟨m, hm⟩ : ∃ m, n - (p + 8) = m + 1 := ⟨n - (p + 8) - 1, by omega⟩
  rw [hm]
  cases bs.drop (p + 8) <;> rfl

theorem headerAt_drop {bs : Bytes} {s p : Nat} : headerAt (bs.drop s) p = headerAt bs (s + p) := by
  simp only [headerAt, drop_drop, Nat.add_assoc]

theorem InBlock.headerAt (h : InBlock F start r) (hp : r.pos + kHeaderSize ≤ r.buffer.length) :
    Log.headerAt r.buffer r.pos = Log.headerAt F (start + r.pos) := by
  have hlen := h.length
  rw [h.buffer, headerAt_take (by omega), headerAt_drop]

theorem InBlock.fragmentAt (h : InBlock F start r) (hp : r.pos + kHeaderSize ≤ r.buffer.length)
    (hfit : r.pos + kHeaderSize + (Log.headerAt r.buffer r.pos).length ≤ r.buffer.length) :
    (r.buffer.drop (r.pos + kHeaderSize)).take (Log.headerAt r.buffer r.pos).length =
      Log.fragmentAt F (start + r.pos) := by
  have hlen := h.length
  rw [Log.fragmentAt, ← h.headerAt hp]
  generalize (Log.headerAt r.buffer r.pos).length = n at hfit ⊢
  rw [h.buffer, drop_take, take_take, drop_drop, min_eq_left (by omega), Nat.add_assoc]

/-- The next block of the file. -/
def Reader.refill (r : Reader) : Reader :=
  { r with
    rest := r.rest.drop kBlockSize
    buffer := r.rest.take kBlockSize
    pos := 0
    eof := decide ((r.rest.take kBlockSize).length < kBlockSize)
    bytesRead := r.bytesRead + (r.rest.take kBlockSize).length }

theorem InBlock.refill (h : InBlock F start r) (hfull : r.buffer.length = kBlockSize)
    (hne : r.rest ≠ []) : InBlock F (start + kBlockSize) r.refill := by
  have hlen := h.rest_length
  have hpos : 0 < r.rest.length := length_pos_iff.mpr hne
  refine ⟨?_, by omega, ?_, ?_, ?_, rfl, Nat.zero_le _⟩
  · have := h.aligned
    simp only [kBlockSize] at *
    omega
  · rw [Reader.refill, h.rest]
  · rw [Reader.refill, h.rest, drop_drop]
  · rw [Reader.refill, h.bytesRead, hfull]

/-- A reader positioned at offset `o`: in some block, or before the first. -/
inductive At (F : Bytes) (o : Nat) (r : Reader) : Prop where
  | inBlock (start : Nat) : InBlock F start r → o = start + r.pos → At F o r
  | unread : o = 0 → r.rest = F → r.buffer = [] → r.pos = 0 → r.eof = false →
      r.bytesRead = 0 → At F o r

/-- The call returned what `p` says, and left the last good end alone. -/
def Returned (F : Bytes) (good : Nat) (res : PhysResult × Reader) : Phys → Prop
  | .ok t f e => res.1 = .ok t f e ∧ At F e res.2 ∧ res.2.lastGoodEnd = good
  | .eof _ => res.1 = .eof ∧ res.2.lastGoodEnd = good
  | .corruption => res.1 = .corruption ∧ res.2.lastGoodEnd = good

theorem physAt_end {o : Nat} (h : F.length ≤ o) : physAt F o = .eof o := by
  have hskip : Skips F o := by
    refine .inl ?_
    simp only [bufferEnd, kHeaderSize]
    omega
  have := lt_blockEnd o
  rw [physAt, if_pos hskip, if_neg (by omega)]

theorem InBlock.physAt_next (h : InBlock F start r) (hfull : r.buffer.length = kBlockSize)
    (hskip : r.pos < kBlockSize → Skips F (start + r.pos)) :
    physAt F (start + r.pos) = physAt F (start + kBlockSize) := by
  have hlen := h.length
  have hle := h.pos_le
  by_cases hp : r.pos < kBlockSize
  · have hb := blockEnd_of_aligned h.aligned hp
    rw [physAt, if_pos (hskip hp), hb, if_pos (by omega)]
  · rw [show r.pos = kBlockSize by omega]

theorem InBlock.physAt_short (h : InBlock F start r) (hshort : r.buffer.length < kBlockSize)
    (hskip : Skips F (start + r.pos)) : physAt F (start + r.pos) = .eof (start + r.pos) := by
  have hlen := h.length
  have hle := h.pos_le
  have hb := blockEnd_of_aligned h.aligned (show r.pos < kBlockSize by omega)
  rw [physAt, if_pos hskip, hb, if_neg (by omega)]

/-- The fuel one call needs. -/
def Reader.rounds (r : Reader) : Nat :=
  2 * r.rest.length + if r.buffer.length < r.pos + kHeaderSize then 1 else 2

theorem readPhysical_refill {fuel : Nat} (h : InBlock F start r)
    (hshort : r.buffer.length < r.pos + kHeaderSize) (hfull : r.buffer.length = kBlockSize)
    (hne : r.rest ≠ []) : r.readPhysical (fuel + 1) = r.refill.readPhysical fuel := by
  have hblock : r.rest.take kBlockSize ≠ [] := by
    rw [ne_eq, take_eq_nil_iff, not_or]
    exact ⟨by decide, hne⟩
  have heof : r.eof = false := by
    rw [h.eof, hfull]
    simp
  rw [Reader.readPhysical, if_pos hshort, heof]
  simp only [Bool.false_eq_true, if_false, if_neg hblock, Reader.refill]

theorem Reader.rounds_refill (hne : r.rest ≠ []) : r.refill.rounds < 2 * r.rest.length + 1 := by
  have hpos : 0 < r.rest.length := length_pos_iff.mpr hne
  have hdrop : (r.rest.drop kBlockSize).length + 1 ≤ r.rest.length := by
    rw [length_drop]
    simp only [kBlockSize]
    omega
  unfold Reader.rounds Reader.refill
  dsimp only
  split <;> omega

theorem readPhysical_header {fuel : Nat} (h : InBlock F start r)
    (hroom : r.pos + kHeaderSize ≤ r.buffer.length)
    (hzero : Log.headerAt r.buffer r.pos ≠ zeroHeader) :
    Returned F r.lastGoodEnd (r.readPhysical (fuel + 1)) (physAt F (start + r.pos)) := by
  have hlen := h.length
  have hbend := h.bufferEnd (show r.pos < kBlockSize by simp only [kHeaderSize] at hroom; omega)
  have hhead := h.headerAt hroom
  have hskip : ¬ Skips F (start + r.pos) := by
    rintro (hs | hs)
    · rw [hbend] at hs
      omega
    · exact hzero (hhead ▸ hs)
  rw [physAt, if_neg hskip, Reader.readPhysical, if_neg (Nat.not_lt_of_le hroom)]
  dsimp only
  rw [if_neg hzero]
  split
  · next hbad =>
    have hint : ¬ Intact F (start + r.pos) := by
      rintro ⟨h₁, h₂, -⟩
      rw [← hhead] at h₁ h₂
      rw [hbend] at h₂
      rcases hbad with hbad | hbad <;> omega
    rw [if_neg hint]
    exact ⟨rfl, rfl⟩
  · next hgood =>
    obtain ⟨hl, hfit⟩ := not_or.mp hgood
    rw [h.fragmentAt hroom (Nat.le_of_not_lt hfit), hhead]
    rw [hhead] at hl hfit
    split
    · next hcrc =>
      have hint : Intact F (start + r.pos) := by
        refine ⟨Nat.le_of_not_lt hl, ?_, hcrc⟩
        rw [hbend]
        omega
      have hbytes := h.bytesRead
      rw [if_pos hint]
      refine ⟨?_, .inBlock start ⟨h.aligned, h.start_lt, h.buffer, h.rest, h.bytesRead, h.eof,
        Nat.le_of_not_lt hfit⟩ ?_, rfl⟩
      · dsimp only
        congr 1
        omega
      · dsimp only
        omega
    · next hcrc =>
      rw [if_neg fun hint : Intact F (start + r.pos) => hcrc hint.2.2]
      exact ⟨rfl, rfl⟩

/-- **One physical record**: the loop and `physAt` agree. -/
theorem readPhysical_returned (fuel : Nat) : ∀ {start : Nat} {r : Reader}, InBlock F start r →
    r.rounds ≤ fuel →
    Returned F r.lastGoodEnd (r.readPhysical fuel) (physAt F (start + r.pos)) := by
  induction fuel with
  | zero =>
    intro start r _ hfuel
    unfold Reader.rounds at hfuel
    split at hfuel <;> omega
  | succ fuel ih =>
    intro start r h hfuel
    have hlen := h.length
    have hrest := h.rest_length
    have hle := h.pos_le
    by_cases hshort : r.buffer.length < r.pos + kHeaderSize
    · rw [Reader.rounds, if_pos hshort] at hfuel
      have hskip : r.pos < kBlockSize → Skips F (start + r.pos) := by
        intro hp
        refine .inl ?_
        rw [h.bufferEnd hp]
        omega
      by_cases hfull : r.buffer.length = kBlockSize
      · rw [h.physAt_next hfull hskip]
        by_cases hne : r.rest = []
        · -- the file ends with its last block
          rw [physAt_end (by rw [hne] at hrest; simp at hrest; omega), Reader.readPhysical,
            if_pos hshort, h.eof, hfull]
          simp only [lt_irrefl, decide_false, Bool.false_eq_true, if_false, hne, take_nil, if_true]
          exact ⟨rfl, rfl⟩
        · rw [readPhysical_refill h hshort hfull hne]
          exact ih (h.refill hfull hne) (by have := Reader.rounds_refill hne; omega)
      · rw [h.physAt_short (by omega) (hskip (by omega)), Reader.readPhysical, if_pos hshort,
          h.eof, decide_eq_true (show r.buffer.length < kBlockSize by omega)]
        exact ⟨rfl, rfl⟩
    · by_cases hzero : Log.headerAt r.buffer r.pos = zeroHeader
      · -- the next round finds the buffer used up, at the same physical record
        rw [Reader.rounds, if_neg hshort] at hfuel
        have hskip : Skips F (start + r.pos) := .inr (h.headerAt (Nat.le_of_not_lt hshort) ▸ hzero)
        have hnext : InBlock F start { r with pos := r.buffer.length } :=
          ⟨h.aligned, h.start_lt, h.buffer, h.rest, h.bytesRead, h.eof, le_rfl⟩
        have hround : Reader.rounds { r with pos := r.buffer.length } ≤ fuel := by
          rw [Reader.rounds, if_pos (by simp [kHeaderSize])]
          change 2 * r.rest.length + 1 ≤ fuel
          omega
        have hret : Returned F r.lastGoodEnd _ (physAt F (start + r.buffer.length)) :=
          ih hnext hround
        rw [Reader.readPhysical, if_neg hshort]
        simp only [if_pos hzero]
        by_cases hfull : r.buffer.length = kBlockSize
        · rw [h.physAt_next hfull fun _ => hskip, ← hfull]
          exact hret
        · rw [physAt_end (by omega)] at hret
          rw [h.physAt_short (by omega) hskip]
          exact hret
      · exact readPhysical_header h (Nat.le_of_not_lt hshort) hzero

theorem readPhysicalRecord_returned {o : Nat} (h : At F o r) :
    Returned F r.lastGoodEnd r.readPhysicalRecord (physAt F o) := by
  unfold Reader.readPhysicalRecord
  cases h with
  | inBlock start h ho =>
    rw [ho]
    refine readPhysical_returned _ h ?_
    unfold Reader.rounds
    split <;> omega
  | unread ho hrest hbuf hpos heof hbytes =>
    subst ho hrest
    have hshort : r.buffer.length < r.pos + kHeaderSize := by simp [hbuf, kHeaderSize]
    by_cases hne : r.rest = []
    · rw [Reader.readPhysical, if_pos hshort, heof, physAt_end (by simp [hne])]
      simp only [Bool.false_eq_true, if_false, hne, take_nil, if_true]
      exact ⟨rfl, rfl⟩
    · have hblock : r.rest.take kBlockSize ≠ [] := by
        rw [ne_eq, take_eq_nil_iff, not_or]
        exact ⟨by decide, hne⟩
      have hstep : r.readPhysical (2 * r.rest.length + 1 + 1) =
          r.refill.readPhysical (2 * r.rest.length + 1) := by
        rw [Reader.readPhysical, if_pos hshort, heof]
        simp only [Bool.false_eq_true, if_false, if_neg hblock, Reader.refill]
      have hin : InBlock r.rest 0 r.refill := by
        refine ⟨rfl, length_pos_iff.mpr hne, rfl, ?_, ?_, rfl, Nat.zero_le _⟩
        · simp only [Reader.refill, Nat.zero_add]
        · simp only [Reader.refill, hbytes]
      rw [hstep]
      exact readPhysical_returned _ hin (le_of_lt (Reader.rounds_refill hne))

theorem At.le {o : Nat} (h : At F o r) : o ≤ F.length := by
  cases h with
  | inBlock start h ho =>
    have := h.length
    have := h.pos_le
    have := h.start_lt
    omega
  | unread ho _ _ _ _ _ => omega

/-- What a call of `ReadRecord` returned, against the contents from its offset on. -/
def RecordReturned (F : Bytes) (good : Nat) (res : ReadResult × Reader) (c : Contents) : Prop :=
  match c.records, c.stop with
  | (p, e) :: records, stop => res.1 = .ok p ∧ At F e res.2 ∧ res.2.lastGoodEnd = e ∧
      contentsFrom F e = ⟨records, stop⟩
  | [], .eof _ => res.1 = .eof
  | [], .corruption => res.1 = .corruption good

theorem At.setGood {o e : Nat} (h : At F o r) : At F o { r with lastGoodEnd := e } := by
  cases h with
  | inBlock start h ho =>
    exact .inBlock start ⟨h.aligned, h.start_lt, h.buffer, h.rest, h.bytesRead, h.eof, h.pos_le⟩ ho
  | unread ho hrest hbuf hpos heof hbytes => exact .unread ho hrest hbuf hpos heof hbytes

theorem readFragments_returned (fuel : Nat) : ∀ {o : Nat} {r : Reader} {scratch : Option Bytes},
    At F o r → F.length < o + fuel →
    RecordReturned F r.lastGoodEnd (r.readFragments fuel scratch)
      (assemble scratch (stream F o)) := by
  induction fuel with
  | zero =>
    intro o r scratch h hfuel
    have := h.le
    omega
  | succ fuel ih =>
    intro o r scratch h hfuel
    have hret := readPhysicalRecord_returned h
    rw [Reader.readFragments]
    generalize hres : r.readPhysicalRecord = res at hret
    obtain ⟨res, r'⟩ := res
    cases hp : physAt F o with
    | eof q =>
      rw [hp] at hret
      obtain ⟨rfl, hgood⟩ := hret
      rw [stream_eof hp]
      cases scratch with
      | none => rfl
      | some bytes => exact congrArg _ hgood
    | corruption =>
      rw [hp] at hret
      obtain ⟨rfl, hgood⟩ := hret
      rw [stream_corruption hp]
      cases scratch <;> exact congrArg _ hgood
    | ok t f e =>
      rw [hp] at hret
      obtain ⟨rfl, hat, hgood⟩ := hret
      have hbounds := physAt_bounds hp
      rw [stream_ok hp]
      rw [assemble_frag]
      simp only
      cases assembleFragment scratch t f with
      | record payload => exact ⟨rfl, hat.setGood, rfl, rfl⟩
      | more bytes => exact hgood ▸ ih hat (by omega)
      | fail => exact congrArg _ hgood

/-- **`ReadRecord` returns the next of the file's contents.** -/
theorem readRecord_returned {o : Nat} (h : At F o r) :
    RecordReturned F r.lastGoodEnd r.readRecord (contentsFrom F o) := by
  refine readFragments_returned _ h ?_
  cases h with
  | inBlock start h ho =>
    have := h.length
    have := h.rest_length
    omega
  | unread ho hrest hbuf _ _ _ => rw [ho, hrest, hbuf]; simp

theorem at_new (F : Bytes) : At F 0 (Reader.new F) := .unread rfl rfl rfl rfl rfl rfl

end Reader

end Log

end BedrockKV
