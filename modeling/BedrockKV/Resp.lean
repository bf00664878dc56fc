/-
# `BedrockKV.Resp` — the request parser of the server

The code of `resp.cpp`.  `Parser` keeps the bytes that have arrived, how many
bulk strings the command in flight still lacks, and where in the buffer the
ones it has stand; `next` pulls one request out of it.

The callers are the two of interest: one that stops at the first answer that is
no request, and one that goes on while bytes are used up.
-/
import BedrockKV.Encoding

namespace BedrockKV.Resp

def kMaxMultibulk : Nat := 1024 * 1024
def kMaxInlineLine : Nat := 64 * 1024
def kMaxBulkLen : Nat := 512 * 2 ^ 20

/-- The longest number line the parser waits for. -/
def kMaxLengthLine : Nat := 32

/-- What `Next` returns, with the value it stores through its argument. -/
inductive NextStatus where
  | request (args : List Bytes)
  | needMore
  | error (message : Bytes)
  deriving DecidableEq, Repr

structure Parser where
  buf : Bytes
  multibulk : Int
  parsePos : Nat
  argSpans : List (Nat × Nat)
  deriving DecidableEq, Repr

/-! ## Lines and numbers -/

def isNewline (c : UInt8) : Bool := decide (c = 13) || decide (c = 10)
def isBlank (c : UInt8) : Bool := decide (c = 32) || decide (c = 9)
def isDigit (c : UInt8) : Bool := decide (48 ≤ c) && decide (c ≤ 57)

/-- `find("\r\n")`. -/
def findCrlf : Bytes → Option Nat
  | [] => none
  | c :: rest =>
    if c = 13 ∧ rest.head? = some 10 then some 0 else (findCrlf rest).map (· + 1)

/-- `find("\r\n", pos + 1)` with the byte at `pos` in front of `b`. -/
def lineEnd (b : Bytes) : Option Nat := (findCrlf (b.drop 1)).map (· + 1)

/-- `find('\n')`. -/
def findLf (b : Bytes) : Option Nat := b.findIdx? fun c => decide (c = 10)

/-- The digits as a number. -/
def digitsValue (s : Bytes) : Nat := s.foldl (fun n c => 10 * n + (c.toNat - 48)) 0

/-- `ParseDigits`: digits only, and a number that a `long long` holds. -/
def parseDigits (s : Bytes) : Option Nat :=
  if s.isEmpty || !s.all isDigit then none
  else if digitsValue s < 2 ^ 63 then some (digitsValue s) else none

/-- The number on the line that ends at `nl`. -/
def lineNumber (b : Bytes) (nl : Nat) : Option Nat := parseDigits ((b.drop 1).take (nl - 1))

/-- The words of an inline command; a round skips blanks and takes a word. -/
def words : Nat → Bytes → List Bytes
  | 0, _ => []
  | _ + 1, [] => []
  | fuel + 1, line =>
    let rest := line.dropWhile isBlank
    let word := rest.takeWhile fun c => !isBlank c
    (if word.isEmpty then [] else [word]) ++ words fuel (rest.drop word.length)

/-- The arguments on the line that ends at `nl`, a `\r` before it stripped. -/
def inlineArgs (b : Bytes) (nl : Nat) : List Bytes :=
  let line := if 0 < nl ∧ b[nl - 1]? = some 13 then b.take (nl - 1) else b.take nl
  words line.length line

/-! ## `Parser` -/

namespace Parser

def new : Parser := ⟨[], -1, 0, []⟩

def feed (p : Parser) (bytes : Bytes) : Parser := { p with buf := p.buf ++ bytes }

def pending (p : Parser) : Nat := p.buf.length

/-- `NextInline`. -/
def nextInline (p : Parser) : NextStatus × Parser :=
  match findLf p.buf with
  | none =>
    if kMaxInlineLine < p.buf.length then
      (.error (ascii "Protocol error: too big inline request"), p)
    else (.needMore, p)
  | some nl =>
    let args := inlineArgs p.buf nl
    let q := { p with buf := p.buf.drop (nl + 1), parsePos := 0 }
    if args.isEmpty then (.needMore, q) else (.request args, q)

/-- The multibulk header at the front of the buffer. -/
def header (p : Parser) : Parser ⊕ (NextStatus × Parser) :=
  match lineEnd p.buf with
  | none =>
    if kMaxLengthLine < p.buf.length then
      .inr (.error (ascii "Protocol error: too big multibulk length"), p)
    else .inr (.needMore, p)
  | some nl =>
    match lineNumber p.buf nl with
    | none => .inr (.error (ascii "Protocol error: invalid multibulk length"), p)
    | some n =>
      if kMaxMultibulk < n then
        .inr (.error (ascii "Protocol error: invalid multibulk length"), p)
      else if n = 0 then .inl { p with buf := p.buf.drop (nl + 2), parsePos := 0 }
      else .inl { p with multibulk := n, argSpans := [], parsePos := nl + 2 }

/-- Skip the empty lines and drop what has been parsed. -/
def compact (p : Parser) : Parser :=
  let pos := p.parsePos + ((p.buf.drop p.parsePos).takeWhile isNewline).length
  if 0 < pos then { p with buf := p.buf.drop pos, parsePos := 0 } else p

/-- A round of the loop outside a command. -/
def idleRound (p : Parser) : Parser ⊕ (NextStatus × Parser) :=
  match p.compact.buf with
  | [] => .inr (.needMore, p.compact)
  | c :: _ => if c = 42 then p.compact.header else .inr p.compact.nextInline

/-- The arguments collected so far. -/
def args (p : Parser) : List Bytes := p.argSpans.map fun x => (p.buf.drop x.1).take x.2

/-- The bulk string between `start` and its terminator is complete. -/
def pushArg (p : Parser) (start len : Nat) : Parser ⊕ (NextStatus × Parser) :=
  let q := { p with
    argSpans := p.argSpans ++ [(start, len)]
    parsePos := start + len + 2
    multibulk := p.multibulk - 1 }
  if q.multibulk = 0 then .inr (.request q.args, ⟨q.buf.drop q.parsePos, -1, 0, []⟩) else .inl q

/-- A round of the loop inside a command. -/
def bulkRound (p : Parser) : Parser ⊕ (NextStatus × Parser) :=
  match p.buf.drop p.parsePos with
  | [] => .inr (.needMore, p)
  | c :: rest =>
    if c = 36 then
      match lineEnd (c :: rest) with
      | none =>
        if kMaxLengthLine < p.buf.length - p.parsePos then
          .inr (.error (ascii "Protocol error: invalid bulk length"), p)
        else .inr (.needMore, p)
      | some nl =>
        match lineNumber (c :: rest) nl with
        | none => .inr (.error (ascii "Protocol error: invalid bulk length"), p)
        | some len =>
          let start := p.parsePos + nl + 2
          if kMaxBulkLen < len then
            .inr (.error (ascii "Protocol error: invalid bulk length"), p)
          else if p.buf.length < start + len + 2 then .inr (.needMore, p)
          else if p.buf[start + len]? = some 13 ∧ p.buf[start + len + 1]? = some 10 then
            p.pushArg start len
          else .inr (.error (ascii "Protocol error: bulk string missing terminator"), p)
    else .inr (.error (ascii "Protocol error: expected '$', got '" ++ [c] ++ ascii "'"), p)

def round (p : Parser) : Parser ⊕ (NextStatus × Parser) :=
  if p.multibulk < 0 then p.idleRound else p.bulkRound

def nextLoop : Nat → Parser → NextStatus × Parser
  | 0, p => (.needMore, p)
  | fuel + 1, p =>
    match p.round with
    | .inl q => nextLoop fuel q
    | .inr r => r

/-- `Next`; a round that goes on has passed at least one byte. -/
def next (p : Parser) : NextStatus × Parser := nextLoop (p.buf.length + 1) p

end Parser

/-! ## Callers -/

namespace Parser

/-- Call `next` until it fails, or asks for more without having used up a byte. -/
def drain : Nat → Parser → List (List Bytes) × Option Bytes × Parser
  | 0, p => ([], none, p)
  | fuel + 1, p =>
    match p.next with
    | (.request args, q) =>
      let r := drain fuel q
      (args :: r.1, r.2)
    | (.error message, q) => ([], some message, q)
    | (.needMore, q) => if q.pending < p.pending then drain fuel q else ([], none, q)

/-- Call `next` until it returns no request. -/
def pull : Nat → Parser → List (List Bytes) × Option Bytes × Parser
  | 0, p => ([], none, p)
  | fuel + 1, p =>
    match p.next with
    | (.request args, q) =>
      let r := pull fuel q
      (args :: r.1, r.2)
    | (.error message, q) => ([], some message, q)
    | (.needMore, q) => ([], none, q)

/-- Feed the chunks one by one and let `serve` call `next` after each; an error
closes the connection. -/
def feedAll (serve : Nat → Parser → List (List Bytes) × Option Bytes × Parser) :
    Parser → List Bytes → List (List Bytes) × Option Bytes × Parser
  | p, [] => ([], none, p)
  | p, chunk :: chunks =>
    match serve ((p.feed chunk).pending + 1) (p.feed chunk) with
    | (requests, some message, q) => (requests, some message, q)
    | (requests, none, q) =>
      let r := feedAll serve q chunks
      (requests ++ r.1, r.2)

end Parser

/-! ## Encoders -/

/-- `std::to_string`. -/
def toDecimal (n : Nat) : Bytes := (Nat.toDigits 10 n).map fun c => UInt8.ofNat c.toNat

def crlf : Bytes := [13, 10]

def bulkString (s : Bytes) : Bytes := 36 :: (toDecimal s.length ++ (crlf ++ (s ++ crlf)))
def arrayHeader (n : Nat) : Bytes := 42 :: (toDecimal n ++ crlf)
def simpleString (s : Bytes) : Bytes := 43 :: (s ++ crlf)
def integer (n : Nat) : Bytes := 58 :: (toDecimal n ++ crlf)
def nullBulk : Bytes := ascii "$-1\r\n"

/-- `Error`: a line break in the message would end the reply early. -/
def error (msg : Bytes) : Bytes := 45 :: (msg.map (fun c => if isNewline c then 32 else c) ++ crlf)

/-! ## Decimal numbers -/

theorem toNat_digit {n : Nat} {c : Char} (h : c ∈ Nat.toDigits 10 n) :
    (UInt8.ofNat c.toNat).toNat = c.toNat ∧ 48 ≤ c.toNat ∧ c.toNat ≤ 57 := by
  have hd := Nat.isDigit_of_mem_toDigits (by decide) (by decide) h
  simp only [Char.isDigit, ge_iff_le, Bool.and_eq_true, decide_eq_true_eq, UInt32.le_iff_toNat_le]
    at hd
  have hlo : 48 ≤ c.toNat := hd.1
  have hhi : c.toNat ≤ 57 := hd.2
  refine ⟨?_, hlo, hhi⟩
  rw [UInt8.toNat_ofNat']
  exact Nat.mod_eq_of_lt (by omega)

theorem isDigit_toDecimal {n : Nat} {x : UInt8} (h : x ∈ toDecimal n) :
    isDigit x = true ∧ x ≠ 13 := by
  obtain ⟨c, hc, rfl⟩ := List.mem_map.mp h
  obtain ⟨heq, hlo, hhi⟩ := toNat_digit hc
  refine ⟨?_, ?_⟩
  · simp only [isDigit, Bool.and_eq_true, decide_eq_true_eq, UInt8.le_iff_toNat_le, heq]
    exact ⟨hlo, hhi⟩
  · intro h13
    have := congrArg UInt8.toNat h13
    rw [heq] at this
    change c.toNat = 13 at this
    omega

theorem digitsValue_toDecimal (n : Nat) : digitsValue (toDecimal n) = n := by
  have hfold : ∀ (cs : List Char) (acc : Nat), (∀ c ∈ cs, c ∈ Nat.toDigits 10 n) →
      (cs.map fun c => UInt8.ofNat c.toNat).foldl (fun n c => 10 * n + (c.toNat - 48)) acc =
        Nat.ofDigitChars 10 cs acc := by
    intro cs
    induction cs with
    | nil => exact fun _ _ => rfl
    | cons c cs ih =>
      intro acc hcs
      obtain ⟨hc, hrest⟩ := List.forall_mem_cons.mp hcs
      rw [List.map_cons, List.foldl_cons, (toNat_digit hc).1, ih _ hrest, Nat.ofDigitChars_cons]
      rfl
  rw [digitsValue, toDecimal, hfold _ 0 (fun c hc => hc), Nat.ofDigitChars_ten_toDigits]

end BedrockKV.Resp
