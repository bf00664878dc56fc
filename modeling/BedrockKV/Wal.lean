/-
# `BedrockKV.Wal` — write-ahead records and their replay

The payload `WriteEntry` hands to the log, `ParseRecord` that takes it apart
again, and the replay loop of `DB::Open` over one log file: it stops at the
end, or cuts the file at the first record that is damaged or makes no sense.

`ParseRecord` adds the key length to small constants in `uint32_t`, so a key
of nearly 2^32 bytes wraps there.  `Fits` is what keeps a record clear of it,
and of the casts in the writer; `parseRecord_encodePayload` is the round trip.
-/
import BedrockKV.LogAppend
import BedrockKV.InternalKey

namespace BedrockKV

open List Log

def ValueType.byte (t : ValueType) : UInt8 := UInt8.ofNat t.code

/-- The payload of `WriteEntry`: sequence number, type, key, and for a value
its length and bytes. -/
def encodePayload (e : Entry) : Bytes :=
  putFixed64 e.seq ++ ([e.type.byte] ++ (putFixed32 e.user.length ++ (e.user ++
    match e.type with
    | .value => putFixed32 e.value.length ++ e.value
    | .deletion => [])))

/-- `ParseRecord`.  The sums with `klen` are of type `uint32_t`. -/
def parseRecord (payload : Bytes) : Option Entry :=
  if payload.length < 8 + 1 + 4 then none
  else
    let seq := getFixed64 payload
    let type := (payload.drop 8).headD 0
    let klen := getFixed32 (payload.drop 9)
    if payload.length - 13 < klen then none
    else
      let key := (payload.drop 13).take klen
      if type = ValueType.value.byte then
        if payload.length < (13 + klen + 4) % 2 ^ 32 then none
        else
          let vlen := getFixed32 (payload.drop (13 + klen))
          if payload.length ≠ (13 + klen + 4) % 2 ^ 32 + vlen then none
          else some ⟨key, seq, .value, (payload.drop (17 + klen)).take vlen⟩
      else if type = ValueType.deletion.byte then
        if payload.length ≠ (13 + klen) % 2 ^ 32 then none
        else some ⟨key, seq, .deletion, []⟩
      else none

/-- The record's numbers are not cut by the format or by `ParseRecord`. -/
structure Entry.Fits (e : Entry) : Prop where
  seq : e.seq < 2 ^ 64
  user : e.user.length + 17 < 2 ^ 32
  value : e.value.length < 2 ^ 32
  deletion : e.type = .deletion → e.value = []

/-! ## Round trip -/

section Payload

variable (e : Entry)

theorem length_encodePayload : (encodePayload e).length = 13 + e.user.length +
    match e.type with
    | .value => 4 + e.value.length
    | .deletion => 0 := by
  unfold encodePayload
  cases e.type <;> simp <;> omega

theorem drop8_encodePayload : (encodePayload e).drop 8 = [e.type.byte] ++
    (putFixed32 e.user.length ++ (e.user ++
      match e.type with
      | .value => putFixed32 e.value.length ++ e.value
      | .deletion => [])) :=
  drop_left' (length_putFixed64 _)

theorem drop9_encodePayload : (encodePayload e).drop 9 = putFixed32 e.user.length ++ (e.user ++
    match e.type with
    | .value => putFixed32 e.value.length ++ e.value
    | .deletion => []) := by
  rw [show 9 = 8 + 1 from rfl, ← drop_drop, drop8_encodePayload]
  rfl

theorem drop13_encodePayload : (encodePayload e).drop 13 = e.user ++
    match e.type with
    | .value => putFixed32 e.value.length ++ e.value
    | .deletion => [] := by
  rw [show 13 = 9 + 4 from rfl, ← drop_drop, drop9_encodePayload, drop_left' (length_putFixed32 _)]

end Payload

/-- A payload is parsed back when the sum in front of its last check does not wrap. -/
theorem parseRecord_encodePayload_of_sum {e : Entry} (hseq : e.seq < 2 ^ 64)
    (hsum : e.user.length + 13 < 2 ^ 32) (hsum' : e.type = .value → e.user.length + 17 < 2 ^ 32)
    (hvalue : e.value.length < 2 ^ 32) (hdel : e.type = .deletion → e.value = []) :
    parseRecord (encodePayload e) = some e := by
  have hlen := length_encodePayload e
  have hs : getFixed64 (encodePayload e) = e.seq := getFixed64_putFixed64 hseq _
  have ht : ((encodePayload e).drop 8).headD 0 = e.type.byte := by
    rw [drop8_encodePayload]
    rfl
  have hk : getFixed32 ((encodePayload e).drop 9) = e.user.length := by
    rw [drop9_encodePayload, getFixed32_putFixed32 (by omega)]
  have hd := drop13_encodePayload e
  have hkey : ((encodePayload e).drop 13).take e.user.length = e.user := by
    rw [hd, take_left' rfl]
  unfold parseRecord
  simp only [hs, ht, hk, hkey]
  rw [if_neg (by omega), if_neg (by omega)]
  obtain ⟨user, seq, type, value⟩ := e
  cases type with
  | value =>
    have hsum := hsum' rfl
    dsimp only at *
    have hd' : (encodePayload ⟨user, seq, .value, value⟩).drop (13 + user.length) =
        putFixed32 value.length ++ value := by
      rw [← drop_drop, hd, drop_left' rfl]
    have hd'' : (encodePayload ⟨user, seq, .value, value⟩).drop (17 + user.length) = value := by
      rw [show 17 + user.length = 13 + user.length + 4 by omega, ← drop_drop, hd',
        drop_left' (length_putFixed32 _)]
    rw [if_pos rfl, if_neg (by omega), hd', getFixed32_putFixed32 hvalue, if_neg (by omega), hd'',
      take_length]
  | deletion =>
    have hnil : value = [] := hdel rfl
    dsimp only at *
    rw [if_neg (by decide), if_pos rfl, if_neg (by omega), hnil]

/-- **What was logged is what is replayed.** -/
theorem parseRecord_encodePayload {e : Entry} (h : e.Fits) :
    parseRecord (encodePayload e) = some e := by
  have huser := h.user
  exact parseRecord_encodePayload_of_sum h.seq (by omega) (fun _ => huser) h.value h.deletion

/-! ## Replay of one log -/

/-- What the replay of a log did: the payloads applied, with what they parse
to, and where the file was cut, if it was. -/
structure Replay where
  records : List (Bytes × Entry)
  truncatedAt : Option Nat

/-- The inner loop of step 5 of `DB::Open`. -/
def replayLoop : Nat → Reader → Nat → Replay
  | 0, _, _ => ⟨[], none⟩
  | fuel + 1, reader, appliedEnd =>
    match reader.readRecord with
    | (.eof, _) => ⟨[], none⟩
    | (.corruption corruptionOffset, _) => ⟨[], some corruptionOffset⟩
    | (.ok record, reader') =>
      match parseRecord record with
      | none => ⟨[], some appliedEnd⟩
      | some e =>
        let rest := replayLoop fuel reader' reader'.lastGoodEnd
        ⟨(record, e) :: rest.records, rest.truncatedAt⟩

/-- A record takes at least a byte, so the file's length bounds the rounds. -/
def replayLog (file : Bytes) : Replay := replayLoop (file.length + 1) (Reader.new file) 0

/-- The file after recovery. -/
def recoveredFile (file : Bytes) : Bytes :=
  match (replayLog file).truncatedAt with
  | none => file
  | some n => file.take n

/-- The loop every user of `log::Reader` runs: records until it has no more. -/
def readLoop : Nat → Reader → List Bytes
  | 0, _ => []
  | fuel + 1, reader =>
    match reader.readRecord with
    | (.ok record, reader') => record :: readLoop fuel reader'
    | (.eof, _) => []
    | (.corruption _, _) => []

def readLog (file : Bytes) : List Bytes := readLoop (file.length + 1) (Reader.new file)

/-! ## Replay, over the contents of the file -/

/-- The replay of records that start at `good`. -/
def replayContents : Nat → List (Bytes × Nat) → Stop → Replay
  | _, [], .eof _ => ⟨[], none⟩
  | good, [], .corruption => ⟨[], some good⟩
  | good, (p, endOffset) :: records, stop =>
    match parseRecord p with
    | none => ⟨[], some good⟩
    | some e =>
      let rest := replayContents endOffset records stop
      ⟨(p, e) :: rest.records, rest.truncatedAt⟩

section Reader

variable {F : Bytes}

theorem replayLoop_eq (fuel : Nat) : ∀ {o : Nat} {r : Reader}, At F o r → F.length < o + fuel →
    replayLoop fuel r r.lastGoodEnd =
      replayContents r.lastGoodEnd (contentsFrom F o).records (contentsFrom F o).stop := by
  induction fuel with
  | zero =>
    intro o r h hfuel
    have := h.le
    omega
  | succ fuel ih =>
    intro o r h hfuel
    have hret := readRecord_returned h
    rw [replayLoop]
    generalize hres : r.readRecord = res at hret
    obtain ⟨res, r'⟩ := res
    generalize hc : contentsFrom F o = c at hret
    match c, hc with
    | ⟨[], .eof q⟩, hc =>
      obtain rfl : res = .eof := hret
      rfl
    | ⟨[], .corruption⟩, hc =>
      obtain rfl : res = .corruption _ := hret
      rfl
    | ⟨(p, e) :: records, stop⟩, hc =>
      obtain ⟨rfl, hat, hgood, hnext⟩ := hret
      have hlt := (contentsFrom_cons hc).1
      dsimp only at hat hgood ⊢
      rw [replayContents]
      cases parseRecord p with
      | none => rfl
      | some entry =>
        have hrest := ih hat (by omega)
        rw [hnext, hgood] at hrest
        simp only [hgood, hrest]

theorem readLoop_eq (fuel : Nat) : ∀ {o : Nat} {r : Reader}, At F o r → F.length < o + fuel →
    readLoop fuel r = (contentsFrom F o).records.map Prod.fst := by
  induction fuel with
  | zero =>
    intro o r h hfuel
    have := h.le
    omega
  | succ fuel ih =>
    intro o r h hfuel
    have hret := readRecord_returned h
    rw [readLoop]
    generalize hres : r.readRecord = res at hret
    obtain ⟨res, r'⟩ := res
    generalize hc : contentsFrom F o = c at hret
    match c, hc with
    | ⟨[], .eof q⟩, hc =>
      obtain rfl : res = .eof := hret
      rfl
    | ⟨[], .corruption⟩, hc =>
      obtain rfl : res = .corruption _ := hret
      rfl
    | ⟨(p, e) :: records, stop⟩, hc =>
      obtain ⟨rfl, hat, hgood, hnext⟩ := hret
      have hlt := (contentsFrom_cons hc).1
      dsimp only at hat ⊢
      rw [ih hat (by omega), hnext]
      rfl

/-- **Recovery reads the contents of the file.** -/
theorem replayLog_eq (F : Bytes) :
    replayLog F = replayContents 0 (contents F).records (contents F).stop :=
  replayLoop_eq (F.length + 1) (at_new F) (by omega)

theorem readLog_eq (F : Bytes) : readLog F = (contents F).records.map Prod.fst :=
  readLoop_eq (F.length + 1) (at_new F) (by omega)

end Reader

end BedrockKV
