/-
# `BedrockKV.Replies` — RESP2 values and their bytes

What a server may send: the values of RESP2 and how each of them is written.
A line of a simple string or an error holds no line break, which is part of
the type.  A value is a type byte, a line, and what the line announces:

    wire v = head v :: (line v ++ (crlf ++ body v))

so its end is found from its beginning (`Value.wire_append_inj`), and a
sequence of values can be read in one way only (`Value.wires_inj`).
-/
import BedrockKV.RespStream

namespace BedrockKV.Resp

open List

/-- A line without a line break. -/
structure Line where
  bytes : Bytes
  plain : ∀ c ∈ bytes, isNewline c = false

inductive Value where
  | simple (text : Line)
  | error (text : Line)
  | integer (n : Int)
  | bulk (bytes : Bytes)
  | nullBulk
  | array (elements : List Value)
  | nullArray

/-- A signed number. -/
def toDecimalInt : Int → Bytes
  | .ofNat n => toDecimal n
  | .negSucc n => 45 :: toDecimal (n + 1)

namespace Value

def head : Value → UInt8
  | .simple _ => 43
  | .error _ => 45
  | .integer _ => 58
  | .bulk _ | .nullBulk => 36
  | .array _ | .nullArray => 42

def line : Value → Bytes
  | .simple text | .error text => text.bytes
  | .integer n => toDecimalInt n
  | .bulk bytes => toDecimal bytes.length
  | .array elements => toDecimal elements.length
  | .nullBulk | .nullArray => toDecimalInt (-1)

mutual

/-- The bytes of a value. -/
def wire : Value → Bytes
  | .bulk bytes => 36 :: (toDecimal bytes.length ++ (crlf ++ (bytes ++ crlf)))
  | .array elements => 42 :: (toDecimal elements.length ++ (crlf ++ wires elements))
  | .simple text => 43 :: (text.bytes ++ crlf)
  | .error text => 45 :: (text.bytes ++ crlf)
  | .integer n => 58 :: (toDecimalInt n ++ crlf)
  | .nullBulk => 36 :: (toDecimalInt (-1) ++ crlf)
  | .nullArray => 42 :: (toDecimalInt (-1) ++ crlf)

def wires : List Value → Bytes
  | [] => []
  | v :: vs => wire v ++ wires vs

end

/-- What stands behind the line. -/
def body : Value → Bytes
  | .bulk bytes => bytes ++ crlf
  | .array elements => wires elements
  | _ => []

theorem wire_eq (v : Value) : v.wire = v.head :: (v.line ++ (crlf ++ v.body)) := by
  cases v <;> rw [wire] <;> simp only [head, line, body, append_nil]

/-! ## Lines -/

theorem toDecimal_injective {m n : Nat} (h : toDecimal m = toDecimal n) : m = n := by
  rw [← digitsValue_toDecimal m, h, digitsValue_toDecimal]

theorem toDecimal_ne_minus (m : Nat) (s : Bytes) : toDecimal m ≠ 45 :: s := by
  intro h
  have hmem : (45 : UInt8) ∈ toDecimal m := by
    rw [h]
    exact mem_cons_self
  exact absurd (isDigit_toDecimal hmem).1 (by decide)

theorem toDecimalInt_injective : ∀ {m n : Int}, toDecimalInt m = toDecimalInt n → m = n
  | .ofNat _, .ofNat _, h => congrArg Int.ofNat (toDecimal_injective h)
  | .ofNat m, .negSucc _, h => absurd h (toDecimal_ne_minus m _)
  | .negSucc _, .ofNat n, h => absurd h.symm (toDecimal_ne_minus n _)
  | .negSucc _, .negSucc _, h =>
    congrArg Int.negSucc (Nat.succ.inj (toDecimal_injective (List.cons.inj h).2))

theorem plain_toDecimal {n : Nat} {x : UInt8} (h : x ∈ toDecimal n) : x ≠ 13 :=
  (isDigit_toDecimal h).2

theorem plain_toDecimalInt : ∀ {n : Int} {x : UInt8}, x ∈ toDecimalInt n → x ≠ 13
  | .ofNat _, _, h => plain_toDecimal h
  | .negSucc _, x, h => by
      rcases mem_cons.mp h with rfl | h
      · decide
      · exact plain_toDecimal h

theorem Line.ne_cr {l : Line} {x : UInt8} (h : x ∈ l.bytes) : x ≠ 13 := by
  rintro rfl
  exact absurd (l.plain 13 h) (by decide)

theorem line_ne_cr : ∀ (v : Value) {x : UInt8}, x ∈ v.line → x ≠ 13
  | .simple _, _, h | .error _, _, h => Line.ne_cr h
  | .integer _, _, h => plain_toDecimalInt h
  | .bulk _, _, h | .array _, _, h => plain_toDecimal h
  | .nullBulk, _, h | .nullArray, _, h => by
      rw [line] at h
      exact plain_toDecimalInt h

theorem line_append_inj {s s' x y : Bytes} (h : ∀ c ∈ s, c ≠ 13) (h' : ∀ c ∈ s', c ≠ 13)
    (heq : s ++ (crlf ++ x) = s' ++ (crlf ++ y)) : s = s' ∧ x = y := by
  have hlen : s.length = s'.length := by
    have hfind := findCrlf_of_line h x
    rw [heq, findCrlf_of_line h' y] at hfind
    exact (Option.some.inj hfind).symm
  obtain ⟨rfl, hrest⟩ := append_inj heq hlen
  exact ⟨rfl, append_cancel_left hrest⟩

theorem wire_append_head {v w : Value} {x y : Bytes} (h : v.wire ++ x = w.wire ++ y) :
    v.head = w.head ∧ v.line = w.line ∧ v.body ++ x = w.body ++ y := by
  rw [wire_eq, wire_eq] at h
  simp only [cons_append, append_assoc] at h
  obtain ⟨hhead, hrest⟩ := List.cons.inj h
  obtain ⟨hline, hbody⟩ := line_append_inj (fun _ hc => line_ne_cr v hc)
    (fun _ hc => line_ne_cr w hc)
    hrest
  exact ⟨hhead, hline, hbody⟩

/-! ## Values -/

mutual

/-- **The end of a value is where its beginning says.** -/
theorem wire_append_inj : ∀ (v w : Value) {x y : Bytes}, v.wire ++ x = w.wire ++ y → v = w ∧ x = y
  | .simple s, w, x, y, h | .error s, w, x, y, h => by
      obtain ⟨hhead, hline, hbody⟩ := wire_append_head h
      cases w <;> cases hhead
      next t =>
        obtain ⟨s⟩ := s
        obtain ⟨t⟩ := t
        obtain rfl : s = t := hline
        exact ⟨rfl, hbody⟩
  | .integer n, w, x, y, h => by
      obtain ⟨hhead, hline, hbody⟩ := wire_append_head h
      cases w <;> cases hhead
      exact ⟨congrArg Value.integer (toDecimalInt_injective hline), hbody⟩
  | .bulk s, w, x, y, h => by
      obtain ⟨hhead, hline, hbody⟩ := wire_append_head h
      cases w <;> cases hhead
      · next t =>
        simp only [body, append_assoc] at hbody
        obtain ⟨rfl, hrest⟩ := append_inj hbody (toDecimal_injective hline)
        exact ⟨rfl, append_cancel_left hrest⟩
      · exact absurd hline (toDecimal_ne_minus _ _)
  | .array vs, w, x, y, h => by
      obtain ⟨hhead, hline, hbody⟩ := wire_append_head h
      cases w <;> cases hhead
      · next ws =>
        obtain ⟨rfl, hrest⟩ := wires_append_inj vs ws (toDecimal_injective hline) hbody
        exact ⟨rfl, hrest⟩
      · exact absurd hline (toDecimal_ne_minus _ _)
  | .nullBulk, w, x, y, h | .nullArray, w, x, y, h => by
      obtain ⟨hhead, hline, hbody⟩ := wire_append_head h
      cases w <;> cases hhead
      · exact absurd hline.symm (toDecimal_ne_minus _ _)
      · exact ⟨rfl, hbody⟩

theorem wires_append_inj : ∀ (vs ws : List Value) {x y : Bytes}, vs.length = ws.length →
    wires vs ++ x = wires ws ++ y → vs = ws ∧ x = y
  | [], [], _, _, _, h => ⟨rfl, h⟩
  | [], _ :: _, _, _, hlen, _ => nomatch hlen
  | _ :: _, [], _, _, hlen, _ => nomatch hlen
  | v :: vs, w :: ws, x, y, hlen, h => by
      rw [wires, wires, append_assoc, append_assoc] at h
      obtain ⟨rfl, hrest⟩ := wire_append_inj v w h
      obtain ⟨rfl, hend⟩ := wires_append_inj vs ws (Nat.succ.inj hlen) hrest
      exact ⟨rfl, hend⟩

end

theorem wire_ne_nil (v : Value) : v.wire ≠ [] := by
  rw [wire_eq]
  exact cons_ne_nil _ _

/-- **A sequence of values is read in one way.** -/
theorem wires_inj : ∀ {vs ws : List Value}, wires vs = wires ws → vs = ws
  | [], [], _ => rfl
  | [], w :: ws, h => by
      rw [wires, wires] at h
      exact absurd (append_eq_nil_iff.mp h.symm).1 (wire_ne_nil w)
  | v :: vs, [], h => by
      rw [wires, wires] at h
      exact absurd (append_eq_nil_iff.mp h).1 (wire_ne_nil v)
  | v :: vs, w :: ws, h => by
      rw [wires, wires] at h
      obtain ⟨rfl, hrest⟩ := wire_append_inj v w h
      rw [wires_inj hrest]

end Value

end BedrockKV.Resp
