/-
# `BedrockKV.LogWriter` — `AddRecord` over writes that may be short or fail

`WriteAll` goes on after a short write and gives up at a failing one, and
`AddRecord` then leaves `file_offset_` where it was.  The descriptor appends,
so what the failing call has written stays in the file and the next record goes
behind it, laid out for an offset that is no longer the end.

A call keeps the file in order exactly if its writes take the whole record or
none of it (`addRecord_intact_iff`).
-/
import BedrockKV.WalFile

namespace BedrockKV.Log

open List

/-- What one `::write` does: it takes up to `n` bytes, is interrupted, or fails. -/
inductive WriteResult where
  | wrote (n : Nat)
  | interrupted
  | failed
  deriving DecidableEq, Repr

/-- `WriteAll`: the bytes that reach the file, and whether it returned `Ok`.
Writes beyond the listed ones take everything. -/
def writeAll : List WriteResult → Bytes → Bytes × Bool
  | _, [] => ([], true)
  | [], data => (data, true)
  | .interrupted :: ws, data => writeAll ws data
  | .failed :: _, _ => ([], false)
  | .wrote n :: ws, data =>
    let r := writeAll ws (data.drop n)
    (data.take n ++ r.1, r.2)

/-- How many bytes the writes take before one fails; `none` if none fails. -/
def capacity : List WriteResult → Option Nat
  | [] => none
  | .interrupted :: ws => capacity ws
  | .failed :: _ => some 0
  | .wrote n :: ws => (capacity ws).map (· + n)

theorem writeAll_none {ws : List WriteResult} (h : capacity ws = none) (data : Bytes) :
    writeAll ws data = (data, true) := by
  induction ws generalizing data with
  | nil => cases data <;> rfl
  | cons w ws ih =>
    cases data with
    | nil => rfl
    | cons b data =>
      cases w with
      | interrupted => exact ih h (b :: data)
      | failed => cases h
      | wrote n => simp only [writeAll, ih (Option.map_eq_none_iff.mp h), take_append_drop]

theorem writeAll_some {ws : List WriteResult} {c : Nat} (h : capacity ws = some c) (data : Bytes) :
    writeAll ws data = (data.take c, decide (data.length ≤ c)) := by
  induction ws generalizing data c with
  | nil => cases h
  | cons w ws ih =>
    cases data with
    | nil => simp [writeAll]
    | cons b data =>
      cases w with
      | interrupted => exact ih h (b :: data)
      | failed =>
        cases h
        simp [writeAll]
      | wrote n =>
        obtain ⟨c', hc', rfl⟩ := Option.map_eq_some_iff.mp h
        simp only [writeAll, ih hc', Prod.mk.injEq, decide_eq_decide, length_drop]
        refine ⟨?_, by omega⟩
        rw [Nat.add_comm c' n, take_add]

/-! ## `Writer` -/

/-- A `Writer` with its file, and the payloads whose `AddRecord` returned `Ok`. -/
structure Writer where
  file : Bytes
  fileOffset : Nat
  acked : List Bytes

def Writer.new : Writer := ⟨[], 0, []⟩

/-- `AddRecord`, on a descriptor that appends. -/
def Writer.addRecord (w : Writer) (call : Bytes × List WriteResult) : Writer :=
  let buf := encodeRecord call.1 w.fileOffset
  match writeAll call.2 buf with
  | (written, true) => ⟨w.file ++ written, w.fileOffset + buf.length, w.acked ++ [call.1]⟩
  | (written, false) => ⟨w.file ++ written, w.fileOffset, w.acked⟩

def Writer.addRecords (w : Writer) (calls : List (Bytes × List WriteResult)) : Writer :=
  calls.foldl Writer.addRecord w

/-- `file_offset_` is the physical end of a record stream that holds what was acknowledged. -/
structure Writer.Intact (w : Writer) : Prop where
  offset : w.fileOffset = w.file.length
  read : readLog w.file = w.acked

/-- The underlying writes take the whole record, or nothing of it. -/
def Writer.AllOrNothing (w : Writer) (call : Bytes × List WriteResult) : Prop :=
  ∀ c, capacity call.2 = some c → c = 0 ∨ (encodeRecord call.1 w.fileOffset).length ≤ c

/-- The file that a writer without failures has written. -/
def Writer.Written (w : Writer) : Prop :=
  w.fileOffset = w.file.length ∧ w.file = encodeRecords 0 w.acked

theorem Writer.Written.intact {w : Writer} (h : w.Written) : w.Intact := by
  refine ⟨h.1, ?_⟩
  rw [h.2, readLog_eq, contents_encodeRecords, map_fst_placed]

theorem encodeRecord_ne_nil (p : Bytes) (o : Nat) : 0 < (encodeRecord p o).length := by
  simp only [encodeRecord, encodeFrom, length_append, length_encodeHeader, kHeaderSize]
  omega

theorem Writer.addRecord_whole {w : Writer} {call : Bytes × List WriteResult}
    (h : writeAll call.2 (encodeRecord call.1 w.fileOffset) =
      (encodeRecord call.1 w.fileOffset, true)) (hw : w.Written) : (w.addRecord call).Written := by
  have hstep : w.addRecord call = ⟨w.file ++ encodeRecord call.1 w.fileOffset,
        w.fileOffset + (encodeRecord call.1 w.fileOffset).length, w.acked ++ [call.1]⟩ := by
    simp only [addRecord, h]
  rw [hstep]
  refine ⟨by rw [hw.1, length_append], ?_⟩
  rw [encodeRecords_append, ← hw.2, Nat.zero_add, ← hw.1]
  simp [encodeRecords]

theorem Writer.Written.addRecord {w : Writer} {call : Bytes × List WriteResult} (hw : w.Written)
    (h : w.AllOrNothing call) : (w.addRecord call).Written := by
  cases hc : capacity call.2 with
  | none => exact addRecord_whole (writeAll_none hc _) hw
  | some c =>
    have hall := writeAll_some hc (encodeRecord call.1 w.fileOffset)
    rcases h c hc with rfl | hle
    · -- nothing was written, and nothing was acknowledged
      have hpos := encodeRecord_ne_nil call.1 w.fileOffset
      rw [take_zero, decide_eq_false (by omega)] at hall
      have hstep : w.addRecord call = w := by
        simp only [Writer.addRecord, hall, append_nil]
      rwa [hstep]
    · rw [take_of_length_le hle, decide_eq_true hle] at hall
      exact addRecord_whole hall hw

theorem Writer.addRecord_torn {w : Writer} {call : Bytes × List WriteResult}
    (hw : w.fileOffset = w.file.length) (h : ¬ w.AllOrNothing call) :
    (w.addRecord call).fileOffset ≠ (w.addRecord call).file.length := by
  simp only [AllOrNothing, not_forall, not_or, not_le] at h
  obtain ⟨c, hc, hpos, hlt⟩ := h
  have hall := writeAll_some hc (encodeRecord call.1 w.fileOffset)
  rw [decide_eq_false (by omega)] at hall
  simp only [addRecord, hall, length_append, length_take]
  omega

/-- **When the file stays in order**: in every state of the calls
`file_offset_` is the end of an intact record stream, and a reader returns
exactly the acknowledged payloads, if and only if each call's writes take the
whole record or nothing of it. -/
theorem addRecord_intact_iff (calls : List (Bytes × List WriteResult)) :
    (∀ done todo, calls = done ++ todo → (Writer.new.addRecords done).Intact) ↔
    ∀ done call todo, calls = done ++ call :: todo →
      (Writer.new.addRecords done).AllOrNothing call := by
  constructor
  · intro h done call todo heq
    by_contra hno
    have hbefore := h done (call :: todo) heq
    have hafter := h (done ++ [call]) todo (by simp [heq])
    rw [Writer.addRecords, List.foldl_append] at hafter
    exact Writer.addRecord_torn hbefore.offset hno hafter.offset
  · intro h done todo heq
    refine Writer.Written.intact ?_
    -- one call after another, from the empty file on
    induction done using List.reverseRecOn generalizing todo with
    | nil => exact ⟨rfl, rfl⟩
    | append_singleton done call ih =>
        have heq' : calls = done ++ call :: todo := by simp [heq]
        rw [Writer.addRecords, List.foldl_append]
        exact (ih (call :: todo) heq').addRecord (h done call todo heq')

/-- The second call writes one byte and fails; the third returns `Ok` and its
payload is gone. -/
theorem addRecord_lost :
    (Writer.new.addRecords [([97], []), ([98], [.wrote 1, .failed]), ([99], [])]).acked =
      [[97], [99]] ∧
    readLog (Writer.new.addRecords
      [([97], []), ([98], [.wrote 1, .failed]), ([99], [])]).file = [[97]] := by
  decide +kernel

end BedrockKV.Log
