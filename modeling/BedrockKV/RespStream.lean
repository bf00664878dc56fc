/-
# `BedrockKV.RespStream` — whole streams of requests, in any chunks

Two statements about the server's input, both over every way of cutting it:

    requests_encoded   what the encoders of a client write is read back
    requests_agree_iff which streams are read alike in all cuts

The second is not all of them.  A number line of more than 32 bytes, or an
inline command of more than 64 KiB, is accepted if it arrives with its line end
and refused if it does not; the two readings agree exactly where nothing more
would have come of the stream.
-/
import BedrockKV.RespNext

namespace BedrockKV.Resp

open List Incremental

/-! ## Numbers -/

variable {n : Nat} {b : Bytes} {outs : List (List Bytes)} {s : Mode}

theorem parseDigits_toDecimal (h : n < 2 ^ 63) : parseDigits (toDecimal n) = some n := by
  have hne : (toDecimal n).isEmpty = false := by
    simp [toDecimal, Nat.toDigits_ne_nil]
  have hall : (toDecimal n).all isDigit = true :=
    all_eq_true.mpr fun x hx => (isDigit_toDecimal hx).1
  rw [parseDigits, if_neg (by simp [hne, hall]), digitsValue_toDecimal, if_pos h]

theorem length_toDecimal_le (h : n < 10 ^ 9) : (toDecimal n).length ≤ 9 := by
  rw [toDecimal, length_map]
  exact (Nat.length_toDigits_le_iff (by decide) (by decide)).mpr h

/-! ## A number line -/

theorem findCrlf_of_line {ds : Bytes} (h : ∀ x ∈ ds, x ≠ 13) (X : Bytes) :
    findCrlf (ds ++ (crlf ++ X)) = some ds.length := by
  induction ds with
  | nil => simp [crlf, findCrlf]
  | cons d ds ih =>
    obtain ⟨hd, hds⟩ := forall_mem_cons.mp h
    rw [cons_append, findCrlf, if_neg (fun hc => hd hc.1), ih hds]
    rfl

theorem lineEnd_number (c : UInt8) (n : Nat) (X : Bytes) :
    lineEnd (c :: (toDecimal n ++ (crlf ++ X))) = some ((toDecimal n).length + 1) := by
  rw [lineEnd, drop_one, tail_cons, findCrlf_of_line (fun x hx => (isDigit_toDecimal hx).2)]
  rfl

theorem lineNumber_number (c : UInt8) (h : n < 2 ^ 63) (X : Bytes) :
    lineNumber (c :: (toDecimal n ++ (crlf ++ X))) ((toDecimal n).length + 1) = some n := by
  rw [lineNumber, drop_one, tail_cons, Nat.add_sub_cancel, take_left' rfl, parseDigits_toDecimal h]

theorem drop_number (c : UInt8) (n : Nat) (X : Bytes) :
    (c :: (toDecimal n ++ (crlf ++ X))).drop ((toDecimal n).length + 1 + 2) = X := by
  rw [show (toDecimal n).length + 1 + 2 = (toDecimal n).length + 2 + 1 from rfl, drop_succ_cons,
    ← append_assoc, drop_left' (by rw [length_append]; rfl)]

theorem not_long_number (c : UInt8) (h : n < 10 ^ 9) (X : Bytes) :
    ¬ Long lineEnd kMaxLengthLine (c :: (toDecimal n ++ (crlf ++ X))) := by
  rintro ⟨hlen, hnone⟩
  have hnl := lineEnd_number c n X
  have hle := length_toDecimal_le h
  have hlong : kMaxLengthLine = 32 := rfl
  rw [hlong] at hlen hnone
  have hs : Same ((toDecimal n).length + 1 + 2) (c :: (toDecimal n ++ (crlf ++ X)))
      ((c :: (toDecimal n ++ (crlf ++ X))).take (32 + 1)) := by
    refine ⟨(lineEnd_spec hnl).2.1, ?_⟩
    rw [take_take, min_eq_left (by omega)]
  rw [hs.lineEnd hnl] at hnone
  cases hnone

/-! ## Encoded commands -/

/-- A command the parser has room for. -/
structure Admitted (command : List Bytes) : Prop where
  nonempty : command ≠ []
  length_le : command.length ≤ kMaxMultibulk
  arg_le : ∀ a ∈ command, a.length ≤ kMaxBulkLen

def encodeCommand (command : List Bytes) : Bytes :=
  arrayHeader command.length ++ command.flatMap bulkString

def encodeCommands (commands : List (List Bytes)) : Bytes := commands.flatMap encodeCommand

/-- The parser is inside an encoded stream: `outs` are the commands to come. -/
inductive Inside : Mode → Bytes → List (List Bytes) → Prop where
  | idle {commands : List (List Bytes)} : (∀ c ∈ commands, Admitted c) →
      Inside .idle (encodeCommands commands) commands
  | bulk {args todo : List Bytes} {a : Bytes} {commands : List (List Bytes)} :
      (∀ x ∈ a :: todo, x.length ≤ kMaxBulkLen) → (∀ c ∈ commands, Admitted c) →
      Inside (.bulk (todo.length + 1) args)
        (bulkString a ++ (todo.flatMap bulkString ++ encodeCommands commands))
        ((args ++ a :: todo) :: commands)

theorem encodeCommands_cons (c : List Bytes) (commands : List (List Bytes)) :
    encodeCommands (c :: commands) =
      42 :: (toDecimal c.length ++
        (crlf ++ (c.flatMap bulkString ++ encodeCommands commands))) := by
  simp [encodeCommands, encodeCommand, arrayHeader]

theorem bulkString_append (a X : Bytes) :
    bulkString a ++ X = 36 :: (toDecimal a.length ++ (crlf ++ (a ++ (crlf ++ X)))) := by
  simp [bulkString]

theorem move_header {c : List Bytes} (h : Admitted c) (X : Bytes) :
    move false .idle (42 :: (toDecimal c.length ++ (crlf ++ X))) =
      .take ((toDecimal c.length).length + 1 + 2) (.bulk c.length []) [] := by
  have hlt : c.length < 2 ^ 63 := h.length_le.trans_lt (by decide)
  have hpos : c.length ≠ 0 := mt length_eq_zero_iff.mp h.nonempty
  change headerMove false _ = _
  simp only [headerMove, atLine, lineEnd_number, lineNumber_number 42 hlt,
    if_neg (not_lt.mpr h.length_le), if_neg hpos]

theorem argMove_bulk (left : Nat) (args : List Bytes) (c : UInt8) (a X : Bytes) :
    argMove left args (c :: (toDecimal a.length ++ (crlf ++ (a ++ (crlf ++ X)))))
        ((toDecimal a.length).length + 1) a.length =
      if left = 1 then
        .take ((toDecimal a.length).length + 1 + 2 + a.length + 2) .idle [args ++ [a]]
      else .take ((toDecimal a.length).length + 1 + 2 + a.length + 2)
        (.bulk (left - 1) (args ++ [a])) [] := by
  have hdrop := drop_number c a.length (a ++ (crlf ++ X))
  have hget : ∀ i, (c :: (toDecimal a.length ++ (crlf ++ (a ++ (crlf ++ X)))))[
      (toDecimal a.length).length + 1 + 2 + i]? = (a ++ (crlf ++ X))[i]? := by
    intro i
    rw [← getElem?_drop, hdrop]
  have hcr : (c :: (toDecimal a.length ++ (crlf ++ (a ++ (crlf ++ X)))))[
      (toDecimal a.length).length + 1 + 2 + a.length]? = some 13 := by
    rw [hget]
    simp [crlf]
  have hlf : (c :: (toDecimal a.length ++ (crlf ++ (a ++ (crlf ++ X)))))[
      (toDecimal a.length).length + 1 + 2 + a.length + 1]? = some 10 := by
    rw [Nat.add_assoc _ a.length 1, hget]
    simp [crlf]
  rw [argMove, if_neg (by simp [crlf]; omega), if_pos ⟨hcr, hlf⟩, hdrop, take_left' rfl]

theorem move_bulk {a : Bytes} (h : a.length ≤ kMaxBulkLen) (left : Nat) (args : List Bytes)
    (X : Bytes) :
    move false (.bulk left args) (bulkString a ++ X) =
      if left = 1 then
        .take ((toDecimal a.length).length + 1 + 2 + a.length + 2) .idle [args ++ [a]]
      else .take ((toDecimal a.length).length + 1 + 2 + a.length + 2)
        (.bulk (left - 1) (args ++ [a])) [] := by
  have hlt : a.length < 2 ^ 63 := h.trans_lt (by decide)
  rw [bulkString_append]
  change bulkMove left args false _ = _
  rw [bulkMove_line (lineEnd_number 36 a.length _), lineNumber_number 36 hlt]
  dsimp only
  rw [if_neg (not_lt.mpr h), argMove_bulk]

theorem drop_bulkString (a X : Bytes) :
    (bulkString a ++ X).drop ((toDecimal a.length).length + 1 + 2 + a.length + 2) = X := by
  rw [drop_left']
  simp [bulkString, crlf]
  omega

theorem Inside.step {s' : Mode} {out : List (List Bytes)} (h : Inside s b outs)
    (hm : move false s b = .take n s' out) :
    ∃ outs', outs = out ++ outs' ∧ Inside s' (b.drop n) outs' := by
  cases h with
  | idle hall =>
    cases outs with
    | nil => cases hm
    | cons c commands =>
      obtain ⟨hc, hrest⟩ := forall_mem_cons.mp hall
      rw [encodeCommands_cons, move_header hc] at hm
      cases hm
      refine ⟨c :: commands, rfl, ?_⟩
      rw [encodeCommands_cons, drop_number]
      obtain ⟨a, todo, rfl⟩ := exists_cons_of_ne_nil hc.nonempty
      rw [flatMap_cons, append_assoc]
      exact .bulk hc.arg_le hrest
  | @bulk args todo a commands hargs hall =>
    obtain ⟨ha, htodo⟩ := forall_mem_cons.mp hargs
    rw [move_bulk ha] at hm
    cases todo with
    | nil =>
      rw [if_pos (by simp)] at hm
      cases hm
      refine ⟨commands, rfl, ?_⟩
      rw [drop_bulkString]
      exact .idle hall
    | cons x todo =>
      rw [if_neg (by simp)] at hm
      cases hm
      refine ⟨(args ++ a :: x :: todo) :: commands, rfl, ?_⟩
      rw [drop_bulkString, flatMap_cons, append_assoc,
        show args ++ a :: x :: todo = (args ++ [a]) ++ x :: todo by simp]
      exact .bulk htodo hall

theorem Inside.reads {s' : Mode} {r : Bytes} {o : List (List Bytes)}
    (hr : Reads (move false) s b o s' r) (h : Inside s b outs) :
    ∃ outs', outs = o ++ outs' ∧ Inside s' r outs' := by
  induction hr generalizing outs with
  | refl => exact ⟨outs, rfl, h⟩
  | take hm _ ih =>
    obtain ⟨outs₁, rfl, h₁⟩ := h.step hm
    obtain ⟨outs₂, rfl, h₂⟩ := ih h₁
    exact ⟨outs₂, (append_assoc _ _ _).symm, h₂⟩

theorem Inside.stuck (h : Inside s b outs) (hs : Stuck (move false) s b) :
    s = .idle ∧ b = [] ∧ outs = [] := by
  cases h with
  | idle hall =>
    cases outs with
    | nil => exact ⟨rfl, rfl, rfl⟩
    | cons c commands =>
      rw [encodeCommands_cons] at hs
      exact absurd (move_header (hall c mem_cons_self) _) (hs _ _ _)
  | @bulk args todo a commands hargs hall =>
    have hm := move_bulk (hargs a mem_cons_self) (todo.length + 1) args
      (todo.flatMap bulkString ++ encodeCommands commands)
    split at hm <;> exact absurd hm (hs _ _ _)

theorem Inside.not_over (h : Inside s b outs) : ¬ Over s b := by
  cases h with
  | idle hall =>
    cases outs with
    | nil => exact fun hf => hf
    | cons c commands =>
      have hlt : c.length < 10 ^ 9 := (hall c mem_cons_self).length_le.trans_lt (by decide)
      rw [encodeCommands_cons]
      exact not_long_number 42 hlt _
  | @bulk args todo a commands hargs hall =>
    have hlt : a.length < 10 ^ 9 := (hargs a mem_cons_self).trans_lt (by decide)
    rw [bulkString_append]
    exact fun hf => not_long_number 36 hlt _ hf.2

theorem Inside.no_inline {c : UInt8} (h : Inside .idle (c :: b) outs) : c = 42 := by
  generalize hb : c :: b = b' at h
  cases h with
  | idle hall =>
    cases outs with
    | nil => cases hb
    | cons x commands =>
      rw [encodeCommands_cons] at hb
      exact (List.cons.inj hb).1

/-! ## Sessions -/

theorem Inside.session {commands : List (List Bytes)} (hin : Inside .idle b commands)
    {chunks : List Bytes} {r : Bytes} {failed : Bool} (hchunks : chunks.flatten = b)
    (h : Session (move true) .idle [] chunks outs s r failed) :
    outs = commands ∧ failed = false ∧ s = .idle ∧ r = [] := by
  obtain ⟨seen, unseen, heq, hread, hend⟩ := move_guarded.session_reads rfl h
  rw [nil_append, hchunks] at heq
  have hall := move_guarded.settled.extend hread unseen
  rw [← heq] at hall
  obtain ⟨outs', rfl, hin'⟩ := hin.reads hall
  rcases hend with ⟨-, hfail⟩ | ⟨rfl, rfl, hmore⟩
  · rcases move_guarded.fail_cases hfail with hlax | hover
    · have hlax' := move_guarded.settled.fail_stays hlax unseen
      obtain ⟨rfl, hnil, -⟩ := hin'.stuck (stuck_of_fail hlax')
      rw [hnil] at hlax'
      cases hlax'
    · exact absurd (move_guarded.over_stays hover unseen) hin'.not_over
  · rw [append_nil] at hin'
    obtain ⟨rfl, rfl, rfl⟩ := hin'.stuck (stuck_of_more (move_guarded.lax_more hmore))
    exact ⟨(append_nil _).symm, rfl, rfl, rfl⟩

/-- **What a client's encoders write is read back**, however it is cut: the
requests are the commands, no call fails, and nothing stays in the buffer. -/
theorem requests_encoded {commands : List (List Bytes)} (hall : ∀ c ∈ commands, Admitted c)
    {chunks : List Bytes} (hchunks : chunks.flatten = encodeCommands commands) :
    (Parser.feedAll Parser.pull Parser.new chunks).1 = commands ∧
    (Parser.feedAll Parser.pull Parser.new chunks).2.1 = none ∧
    (Parser.feedAll Parser.pull Parser.new chunks).2.2.pending = 0 := by
  have hin : Inside .idle (encodeCommands commands) commands := .idle hall
  have hserve : ∀ (q : Parser) fed c rest outs, chunks = fed ++ c :: rest → q.Ok →
      Reads (move false) Parser.new.mode (Parser.new.rest ++ (fed ++ [c]).flatten) outs
        (q.feed c).mode (q.feed c).rest →
      (q.feed c).Drained (Parser.pull ((q.feed c).pending + 1) (q.feed c)) := by
    intro q fed c rest outs heq hq hread
    refine Parser.pull_drained (Parser.feed_ok hq c) ?_ (Nat.lt_succ_self _)
    -- the points of this call lie inside the stream, where no inline command is
    intro outs' x b hx
    have hpoint := move_guarded.settled.extend
      (hread.trans (move_guarded.reads_iff.mp hx)) rest.flatten
    have hstream : Parser.new.rest ++ (fed ++ [c]).flatten ++ rest.flatten =
        encodeCommands commands := by
      rw [← hchunks, heq]
      simp [Parser.new, Parser.rest]
    rw [hstream] at hpoint
    obtain ⟨outs'', -, hin'⟩ := hin.reads hpoint
    exact Or.inr hin'.no_inline
  obtain ⟨hsession, hok⟩ := Parser.feedAll_session Parser.new_ok hserve
  obtain ⟨houts, hfailed, hmode, hrest⟩ := hin.session hchunks hsession
  refine ⟨houts, Option.not_isSome_iff_eq_none.mp (by rw [hfailed]; exact Bool.false_ne_true), ?_⟩
  generalize (Parser.feedAll Parser.pull Parser.new chunks).2.2 = q at hok hmode hrest
  have hneg : q.multibulk < 0 := by
    by_contra hpos
    rw [Parser.mode, if_neg hpos] at hmode
    cases hmode
  rw [Parser.rest_idle hok hneg] at hrest
  rw [Parser.pending, hrest]
  rfl

/-- `PING` and a `SET` whose value holds a line end, cut inside both line ends. -/
theorem requests_encoded_sample :
    (Parser.feedAll Parser.pull Parser.new
      [[42, 49, 13], [10, 36, 52, 13, 10, 80, 73, 78, 71, 13, 10, 42, 50, 13, 10, 36, 49, 13, 10,
        83, 13, 10, 36, 52, 13, 10, 13], [10, 42, 36, 13, 10]]).1 =
      [[[80, 73, 78, 71]], [[83], [13, 10, 42, 36]]] := by
  have hall : ∀ c ∈ [[[80, 73, 78, 71]], [[83], [13, 10, 42, 36]]], Admitted c := by
    intro c hc
    simp only [List.mem_cons, List.not_mem_nil, or_false] at hc
    rcases hc with rfl | rfl <;> exact ⟨by decide, by decide, by decide⟩
  exact (requests_encoded hall (by decide)).1

/-- The stream's overlong lines do no harm: wherever the reading of `F` comes to
a line that the limits do not wait for, the rest holds no request and fails. -/
def LinesHarmless (F : Bytes) : Prop := Harmless (move false) (move true) Over .idle F

theorem feedAll_drain (chunks : List Bytes) :
    ∃ s r, Session (move true) .idle [] chunks (Parser.feedAll Parser.drain Parser.new chunks).1
      s r (Parser.feedAll Parser.drain Parser.new chunks).2.1.isSome := by
  refine ⟨_, _, (Parser.feedAll_session Parser.new_ok ?_).1⟩
  intro q fed c rest outs _ hq _
  exact Parser.drain_drained (Parser.feed_ok hq c) (Nat.lt_succ_self _)

/-- **Which streams are read alike in all cuts**: those whose overlong lines are
harmless, and no others. -/
theorem requests_agree_iff (F : Bytes) :
    (∀ chunks chunks' : List Bytes, chunks.flatten = F → chunks'.flatten = F →
      (Parser.feedAll Parser.drain Parser.new chunks).1 =
        (Parser.feedAll Parser.drain Parser.new chunks').1 ∧
      ((Parser.feedAll Parser.drain Parser.new chunks).2.1.isSome ↔
        (Parser.feedAll Parser.drain Parser.new chunks').2.1.isSome)) ↔
    LinesHarmless F := by
  rw [LinesHarmless, ← move_guarded.agree_iff rfl]
  constructor
  · intro h chunks chunks' outs outs' s₁ s₂ r₁ r₂ failed failed' hc hc' hs hs'
    obtain ⟨t, u, ht⟩ := feedAll_drain chunks
    obtain ⟨t', u', ht'⟩ := feedAll_drain chunks'
    obtain ⟨rfl, rfl⟩ := hs.unique ht
    obtain ⟨rfl, rfl⟩ := hs'.unique ht'
    exact h chunks chunks' hc hc'
  · intro h chunks chunks' hc hc'
    obtain ⟨t, u, ht⟩ := feedAll_drain chunks
    obtain ⟨t', u', ht'⟩ := feedAll_drain chunks'
    exact h _ _ _ _ _ _ _ _ _ _ hc hc' ht ht'

/-- A multibulk header padded with zeros: read whole it starts a command, cut
in the number it is refused. -/
def paddedHeader : Bytes :=
  42 :: (List.replicate 32 48 ++ [49, 13, 10, 36, 49, 13, 10, 120, 13, 10])

theorem requests_depend_on_cuts :
    (Parser.feedAll Parser.drain Parser.new [paddedHeader]).1 = [[[120]]] ∧
    (Parser.feedAll Parser.drain Parser.new [paddedHeader]).2.1 = none ∧
    (Parser.feedAll Parser.drain Parser.new [paddedHeader.take 33, paddedHeader.drop 33]).1 = [] ∧
    (Parser.feedAll Parser.drain Parser.new [paddedHeader.take 33, paddedHeader.drop 33]).2.1 =
      some (ascii "Protocol error: too big multibulk length") := by
  decide +kernel

end BedrockKV.Resp
