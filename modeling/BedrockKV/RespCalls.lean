/-
# `BedrockKV.RespCalls` — any calls of the parser

`Feed`, `Next` and `Reset` in any order, with any bytes.  Two statements:

    calls_sound        every `Next` ends; its offsets stay inside the buffer; and the
                       arguments it has returned stand in the bytes fed, one behind
                       the other
    needMore_stays_iff when a `Next` that has asked for more goes on doing so

The second does not always hold.  A line of blanks is no command, and `Next`
asks for more behind it although it has not looked at what is there: a caller
that stops at the first `kNeedMore` may leave a whole command in the buffer.
-/
import BedrockKV.Lib.Loop
import BedrockKV.RespNext

namespace BedrockKV.Resp

open List Incremental Loop

/-! ## Calls -/

/-- `Reset`. -/
def Parser.reset (_ : Parser) : Parser := ⟨[], -1, 0, []⟩

inductive Call where
  | feed (bytes : Bytes)
  | next
  | reset
  deriving DecidableEq, Repr

def NextStatus.requests : NextStatus → List (List Bytes)
  | .request args => [args]
  | .needMore => []
  | .error _ => []

/-- The parser, all bytes it was fed, and all requests it has returned. -/
structure History where
  parser : Parser
  fed : Bytes
  requests : List (List Bytes)

def History.call (r : History) : Call → History
  | .feed bytes => { r with parser := r.parser.feed bytes, fed := r.fed ++ bytes }
  | .next =>
    { r with
      parser := r.parser.next.2
      requests := r.requests ++ r.parser.next.1.requests }
  | .reset => { r with parser := r.parser.reset }

def runCalls (calls : List Call) : History := calls.foldl History.call ⟨Parser.new, [], []⟩

/-! ## `Next` ends -/

/-- A round of the loop of `Next`. -/
def nextRound (p : Parser) : (NextStatus × Parser) ⊕ Parser := p.round.swap

variable {p : Parser} {b : Bytes} {limited : Bool} {n : Nat} {out : List (List Bytes)} {s : Mode}

theorem nextRound_eq_inr {q : Parser} (h : nextRound p = .inr q) : p.round = .inl q := by
  rw [← Sum.swap_swap p.round, ← nextRound, h]
  rfl

theorem nextRound_eq_inl {r : NextStatus × Parser} (h : nextRound p = .inl r) :
    p.round = .inr r := by
  rw [← Sum.swap_swap p.round, ← nextRound, h]
  rfl

theorem Parser.next_returns (hp : p.Ok) : Returns nextRound p p.next := by
  have hf : ∀ n s, Parser.nextLoop (n + 1) s = Sum.elim id (Parser.nextLoop n) (nextRound s) := by
    intro n s
    rw [Parser.nextLoop, nextRound]
    cases s.round <;> rfl
  have hround : ∀ s s', Parser.Ok s → nextRound s = .inr s' →
      Parser.Ok s' ∧ s'.rest.length < s.rest.length := by
    intro s s' hs heq
    have hspec := Parser.round_spec hs
    rw [nextRound_eq_inr heq] at hspec
    exact ⟨hspec.ok, hspec.shorter⟩
  refine returns_of_measure hf hround hp ?_
  rw [Parser.rest, length_drop]
  omega

/-- A round of the loop of `NextInline`: skip blanks, take a word. -/
def wordRound : Bytes × List Bytes → List Bytes ⊕ (Bytes × List Bytes)
  | ([], args) => .inl args
  | (c :: line, args) =>
    let rest := (c :: line).dropWhile isBlank
    let word := rest.takeWhile fun c => !isBlank c
    .inr (rest.drop word.length, args ++ if word.isEmpty then [] else [word])

theorem length_wordRound (c : UInt8) (line : Bytes) :
    let rest := (c :: line).dropWhile isBlank
    (rest.drop (rest.takeWhile fun c => !isBlank c).length).length < (c :: line).length := by
  intro rest
  have hle : rest.length ≤ (c :: line).length := (dropWhile_suffix isBlank).length_le
  rw [length_drop]
  cases hc : isBlank c with
  | true =>
    have hrest : rest = line.dropWhile isBlank := dropWhile_cons_of_pos hc
    have : rest.length ≤ line.length := hrest ▸ (dropWhile_suffix isBlank).length_le
    rw [length_cons]
    omega
  | false =>
    have hrest : rest = c :: line := dropWhile_cons_of_neg (by simp [hc])
    have hword : (rest.takeWhile fun c => !isBlank c) =
        c :: (line.takeWhile fun c => !isBlank c) := by
      rw [hrest, takeWhile_cons_of_pos (by simp [hc])]
    rw [hword, length_cons]
    rw [length_cons] at hle ⊢
    omega

theorem words_returns {fuel : Nat} : ∀ {line : Bytes} {args : List Bytes}, line.length ≤ fuel →
    Returns wordRound (line, args) (args ++ words fuel line) := by
  induction fuel with
  | zero =>
    intro line args h
    obtain rfl : line = [] := length_eq_zero_iff.mp (Nat.le_zero.mp h)
    exact .done (by rw [words, append_nil]; rfl)
  | succ fuel ih =>
    intro line args h
    cases line with
    | nil => exact .done (by rw [words, append_nil]; rfl)
    | cons c line =>
      have hlen := length_wordRound c line
      refine .next rfl ?_
      rw [words, ← append_assoc]
      · exact ih (by omega)
      · exact cons_ne_nil _ _

/-! ## Offsets -/

namespace Parser

/-- Between two commands there are no spans. -/
def Tidy (p : Parser) : Prop := p.multibulk < 0 → p.argSpans = []

/-- Everything that is indexed lies in the buffer. -/
structure Sound (p : Parser) : Prop where
  pos : p.parsePos ≤ p.buf.length
  spans : ∀ x ∈ p.argSpans, x.1 + x.2 ≤ p.buf.length

variable {p : Parser}

theorem Ok.sound (h : p.Ok) (ht : p.Tidy) : p.Sound := by
  refine ⟨h.pos, fun x hx => ?_⟩
  by_cases hneg : p.multibulk < 0
  · rw [ht hneg] at hx
    cases hx
  · have hpos : 0 < p.multibulk := by
      have := h.nonzero
      omega
    exact (h.spans hpos x hx).trans h.pos

/-- What a round leaves. -/
def TidySpec : Parser ⊕ (NextStatus × Parser) → Prop
  | .inl q => q.Tidy
  | .inr r => r.2.Tidy

theorem compact_tidy (h : p.Tidy) : p.compact.Tidy := by
  unfold compact
  dsimp only
  split
  · exact h
  · exact h

theorem header_tidy (h : p.Tidy) : TidySpec p.header := by
  unfold header
  split
  · split <;> exact h
  · split
    · exact h
    · split
      · exact h
      · split
        · exact h
        · intro hneg
          exact rfl

theorem nextInline_tidy (h : p.Tidy) : p.nextInline.2.Tidy := by
  unfold nextInline
  split
  · split <;> exact h
  · dsimp only
    split <;> exact h

theorem pushArg_tidy (hpos : 0 < p.multibulk) (start len : Nat) :
    TidySpec (p.pushArg start len) := by
  unfold pushArg
  dsimp only
  split
  · exact fun _ => rfl
  · intro hneg
    dsimp only at hneg
    omega

theorem bulkRound_tidy (h : p.Tidy) (hpos : 0 < p.multibulk) : TidySpec p.bulkRound := by
  unfold bulkRound
  split
  · exact h
  · split
    · split
      · split <;> exact h
      · split
        · exact h
        · dsimp only
          split
          · exact h
          · split
            · exact h
            · split
              · exact pushArg_tidy hpos _ _
              · exact h
    · exact h

theorem round_tidy (hp : p.Ok) (h : p.Tidy) : TidySpec p.round := by
  unfold round
  split
  · unfold idleRound
    split
    · exact compact_tidy h
    · split
      · exact header_tidy (compact_tidy h)
      · exact nextInline_tidy (compact_tidy h)
  · next hneg =>
    have := hp.nonzero
    exact bulkRound_tidy h (by omega)

/-- The states that a call of `Next` goes through. -/
inductive Through (p : Parser) : Parser → Prop where
  | start : Through p p
  | round {q q' : Parser} : Through p q → q.round = .inl q' → Through p q'

theorem Through.keeps {q : Parser} (h : p.Through q) (hp : p.Ok) (ht : p.Tidy) : q.Ok ∧ q.Tidy := by
  induction h with
  | start => exact ⟨hp, ht⟩
  | round _ hround ih =>
    have hspec := round_spec ih.1
    have htidy := round_tidy ih.1 ih.2
    rw [hround] at hspec htidy
    exact ⟨hspec.ok, htidy⟩

theorem next_tidy (hp : p.Ok) (ht : p.Tidy) : p.next.2.Tidy := by
  have hreturn := next_returns hp
  generalize p.next = r at hreturn
  induction hreturn with
  | @done s out hround =>
    have htidy := round_tidy hp ht
    rw [nextRound_eq_inl hround] at htidy
    exact htidy
  | @next s s' out hround _ ih =>
    obtain ⟨hok', ht'⟩ := (Through.round .start (nextRound_eq_inr hround)).keeps hp ht
    exact ih hok' ht'

end Parser

/-! ## Arguments stand in the stream -/

/-- The arguments of the command in flight. -/
def Mode.held : Mode → List Bytes
  | .idle => []
  | .bulk _ args => args

theorem cutFrom_take {ps : List Bytes} {i j : Nat} (h : CutFrom ps (b.take i)) (hij : i ≤ j) :
    CutFrom ps (b.take j) := by
  obtain ⟨k, rfl⟩ := Nat.exists_eq_add_of_le hij
  rw [take_add]
  exact h.append_text _

theorem cutFrom_words {fuel : Nat} : ∀ line : Bytes, CutFrom (words fuel line) line := by
  induction fuel with
  | zero => exact fun line => .nil line
  | succ fuel ih =>
    intro line
    cases line with
    | nil => exact .nil _
    | cons c line =>
      rw [words]
      · generalize hrest : (c :: line).dropWhile isBlank = rest
        generalize hword : (rest.takeWhile fun c => !isBlank c) = word
        have hline : c :: line = (c :: line).takeWhile isBlank ++
            (word ++ rest.drop word.length) := by
          have hsplit : rest = word ++ rest.drop word.length := by
            obtain ⟨tail, htail⟩ : word <+: rest := hword ▸ takeWhile_prefix _
            rw [← htail, drop_left]
          rw [← hsplit, ← hrest, takeWhile_append_dropWhile]
        rw [hline]
        split
        · exact ((ih _).append_front word).append_front _
        · exact .cons _ (ih _)
      · exact cons_ne_nil _ _

theorem cutFrom_inlineArgs (b : Bytes) (nl : Nat) :
    CutFrom (inlineArgs b nl) (b.take (nl + 1)) := by
  unfold inlineArgs
  dsimp only
  split
  · exact cutFrom_take (cutFrom_words _) (by omega)
  · exact cutFrom_take (cutFrom_words _) (by omega)

theorem atLine_take {find : Bytes → Option Nat} {limit : Nat} {body : Bytes → Nat → RespMove}
    (h : atLine find limit body limited b = .take n s out) :
    ∃ nl, find b = some nl ∧ body b nl = .take n s out := by
  unfold atLine at h
  split at h
  · split at h <;> cases h
  · next nl hnl => exact ⟨nl, hnl, h⟩

theorem headerMove_take (h : headerMove limited b = .take n s out) : out = [] ∧ s.held = [] := by
  obtain ⟨nl, -, hbody⟩ := atLine_take h
  split at hbody
  · cases hbody
  · split at hbody
    · cases hbody
    · split at hbody <;> cases hbody <;> exact ⟨rfl, rfl⟩

theorem inlineMove_take (h : inlineMove limited b = .take n s out) :
    s = .idle ∧ ∃ nl, n = nl + 1 ∧
      out = if (inlineArgs b nl).isEmpty then [] else [inlineArgs b nl] := by
  obtain ⟨nl, -, hbody⟩ := atLine_take h
  cases hbody
  exact ⟨rfl, nl, rfl, rfl⟩

theorem bulkMove_take {left : Nat} {args : List Bytes}
    (h : bulkMove left args limited b = .take n s out) :
    ∃ start len, n = start + (len + 2) ∧
      args ++ [(b.drop start).take len] = out.flatMap (fun args => args) ++ s.held := by
  obtain ⟨nl, -, hbody⟩ := atLine_take h
  split at hbody
  · cases hbody
  · next len _ =>
    split at hbody
    · cases hbody
    · unfold argMove at hbody
      split at hbody
      · cases hbody
      · split at hbody
        · dsimp only at hbody
          refine ⟨nl + 2, len, ?_⟩
          split at hbody
          · cases hbody
            exact ⟨by omega, by simp [Mode.held]⟩
          · cases hbody
            exact ⟨by omega, by simp [Mode.held]⟩
        · cases hbody

/-- **A move cuts arguments out of the bytes it uses.** -/
theorem cuts_move (limited : Bool) : Cuts (move limited) Mode.held fun args => args := by
  intro s b n s' out h
  cases s with
  | idle =>
    cases b with
    | nil => cases h
    | cons c rest =>
      rw [move] at h
      split at h
      · cases h
        exact ⟨[], .nil _, rfl⟩
      · split at h
        · obtain ⟨rfl, hheld⟩ := headerMove_take h
          exact ⟨[], .nil _, by rw [hheld]; rfl⟩
        · obtain ⟨rfl, nl, rfl, rfl⟩ := inlineMove_take h
          refine ⟨inlineArgs (c :: rest) nl, cutFrom_inlineArgs _ _, ?_⟩
          split
          · next hempty => rw [List.isEmpty_iff.mp hempty]; rfl
          · simp [Mode.held]
  | bulk left args =>
    cases b with
    | nil => cases h
    | cons c rest =>
      rw [move] at h
      split at h
      · obtain ⟨start, len, rfl, heq⟩ := bulkMove_take h
        refine ⟨[((c :: rest).drop start).take len], ?_, heq⟩
        rw [take_add, take_add]
        exact cutFrom_one _ _ _
      · cases h

/-! ## Runs of calls -/

/-- What every run keeps: the buffer is the end of what was fed, and all that was returned
or is held stands before what is left to read. -/
structure History.Ok (r : History) : Prop where
  parser : r.parser.Ok
  tidy : r.parser.Tidy
  stands : ∃ used, r.fed = used ++ r.parser.rest ∧
    CutFrom (r.requests.flatten ++ r.parser.mode.held) used

theorem Parser.Returned.goes {q : Parser} {status : NextStatus} (h : p.Returned status q) :
    q.Ok ∧ p.Goes status.requests q := by
  cases h with
  | request hok hgo | waits hok hgo | blank hok hgo | error hok hgo => exact ⟨hok, hgo⟩

theorem History.Ok.call {r : History} (h : r.Ok) (c : Call) : (r.call c).Ok := by
  obtain ⟨used, hfed, hcut⟩ := h.stands
  cases c with
  | feed bytes =>
    refine ⟨Parser.feed_ok h.parser bytes, h.tidy, used, ?_, ?_⟩
    · show r.fed ++ bytes = used ++ (r.parser.feed bytes).rest
      rw [Parser.feed_rest h.parser, ← append_assoc, ← hfed]
    · show CutFrom (r.requests.flatten ++ (r.parser.feed bytes).mode.held) used
      rwa [Parser.feed_mode h.parser]
  | next =>
    obtain ⟨hok, hgo⟩ := (Parser.next_returned h.parser).goes
    obtain ⟨more, new, hrest, hnew, heq⟩ := Cuts.reads (cuts_move true) hgo
    refine ⟨hok, Parser.next_tidy h.parser h.tidy, used ++ more, ?_, ?_⟩
    · show r.fed = used ++ more ++ r.parser.next.2.rest
      rw [append_assoc, ← hrest, ← hfed]
    · show CutFrom ((r.requests ++ r.parser.next.1.requests).flatten ++
        r.parser.next.2.mode.held) (used ++ more)
      have hall := hcut.append hnew
      rw [append_assoc, heq, flatMap_id'] at hall
      rwa [flatten_append, append_assoc]
  | reset =>
    refine ⟨Parser.new_ok, fun _ => rfl, r.fed, (append_nil _).symm, ?_⟩
    show CutFrom (r.requests.flatten ++ []) r.fed
    rw [append_nil, hfed]
    exact hcut.left.append_text _

theorem runCalls_ok (calls : List Call) : (runCalls calls).Ok := by
  have hstart : History.Ok ⟨Parser.new, [], []⟩ := ⟨Parser.new_ok, fun _ => rfl, [], rfl, .nil _⟩
  unfold runCalls
  generalize History.mk Parser.new [] [] = r at hstart
  induction calls generalizing r with
  | nil => exact hstart
  | cons c calls ih => exact ih _ (hstart.call c)

/-- **The parser is sound under any calls**: `Next` returns, and so does the loop inside it;
in every state it goes through its offsets lie in the buffer; and the arguments of all
requests it has returned stand in the bytes fed, in order and apart. -/
theorem calls_sound (calls : List Call) :
    Returns nextRound (runCalls calls).parser (runCalls calls).parser.next ∧
    (∀ line, Returns wordRound (line, []) (words line.length line)) ∧
    (∀ q, (runCalls calls).parser.Through q → q.Sound) ∧
    CutFrom (runCalls calls).requests.flatten (runCalls calls).fed := by
  have hok := runCalls_ok calls
  refine ⟨Parser.next_returns hok.parser, fun line => words_returns (Nat.le_refl _), ?_, ?_⟩
  · intro q hq
    obtain ⟨hq, ht⟩ := hq.keeps hok.parser hok.tidy
    exact hq.sound ht
  · obtain ⟨used, hfed, hcut⟩ := hok.stands
    rw [hfed]
    exact hcut.left.append_text _

/-! ## Asking for more -/

/-- The bytes hold no request and no protocol error: reading on from here ends in waiting. -/
def Quiet (s : Mode) (b : Bytes) : Prop :=
  ∃ s' r, Reads (move true) s b [] s' r ∧ move true s' r = .more

namespace Parser

/-- `n` further calls of `Next`. -/
def again : Nat → Parser → Parser
  | 0, p => p
  | n + 1, p => p.next.2.again n

/-- Wherever the reading of the buffer comes to a line of blanks before it comes to a request,
there is no request and no protocol error behind that line. -/
def BlanksHarmless (p : Parser) : Prop :=
  ∀ b nl, Reads (move true) p.mode p.rest [] .idle b → BlankLine b nl →
    Quiet .idle (b.drop (nl + 1))

variable {p : Parser}

theorem next_quiet (hp : p.Ok) (h : Quiet p.mode p.rest) :
    p.next.1 = .needMore ∧ p.next.2.Ok ∧ Quiet p.next.2.mode p.next.2.rest := by
  obtain ⟨s, r, hread, hmore⟩ := h
  have hret := next_returned hp
  generalize p.next = out at hret
  obtain ⟨status, q⟩ := out
  obtain ⟨hq, hgo⟩ := hret.goes
  obtain ⟨tail, htail, hrest⟩ := hgo.to_stuck hread (stuck_of_more hmore)
  have hnil : status.requests = [] ∧ tail = [] := by simpa using htail.symm
  obtain ⟨hnone, rfl⟩ := hnil
  refine ⟨?_, hq, s, r, hrest, hmore⟩
  cases hret with
  | request => cases hnone
  | waits | blank => rfl
  | error _ _ hfail =>
    -- a parser that has failed reads no further
    obtain ⟨-, rfl, rfl⟩ :=
      (Reads.refl _ _).stuck_unique hrest (stuck_of_fail hfail) (stuck_of_more hmore)
    cases hfail.symm.trans hmore

theorem again_quiet {n : Nat} : ∀ {p : Parser}, p.Ok → Quiet p.mode p.rest →
    (p.again n).next.1 = .needMore := by
  induction n with
  | zero => exact fun hp h => (next_quiet hp h).1
  | succ n ih =>
    intro p hp h
    obtain ⟨-, hq, hquiet⟩ := next_quiet hp h
    exact ih hq hquiet

/-- A parser that only ever asks for more holds quiet bytes: each line of blanks it passes
shortens the buffer. -/
theorem quiet_of_again (hp : p.Ok) (h : ∀ n, (p.again n).next.1 = .needMore) :
    Quiet p.mode p.rest := by
  induction hlen : p.pending using Nat.strong_induction_on generalizing p with
  | _ n ih =>
    have hret := next_returned hp
    have hfirst : p.next.1 = .needMore := h 0
    have hnext : ∀ n, (p.next.2.again n).next.1 = .needMore := fun n => h (n + 1)
    rw [hfirst] at hret
    cases hret with
    | waits _ hgo hmore => exact ⟨_, _, hgo, hmore⟩
    | blank hq hgo hlt =>
      obtain ⟨s, r, hread, hmore⟩ := ih _ (hlen ▸ hlt) hq hnext rfl
      exact ⟨s, r, hgo.trans hread, hmore⟩

theorem move_blankLine {b : Bytes} {nl : Nat} (h : BlankLine b nl) :
    move true .idle b = .take (nl + 1) .idle [] := by
  obtain ⟨⟨c, r, rfl, hc, hne⟩, hline, hempty⟩ := h
  rw [move, if_neg (by simp [hc]), if_neg hne]
  simp only [inlineMove, atLine, hline, hempty, isEmpty_nil, if_true]

theorem blanksHarmless_of_quiet (h : Quiet p.mode p.rest) : p.BlanksHarmless := by
  obtain ⟨s, r, hread, hmore⟩ := h
  intro b nl hb hline
  have hpast := hb.trans (Reads.single (move_blankLine hline))
  obtain ⟨tail, htail, hrest⟩ := hpast.to_stuck hread (stuck_of_more hmore)
  rw [nil_append] at htail
  exact ⟨s, r, htail ▸ hrest, hmore⟩

end Parser

/-- **When `kNeedMore` is the last word**: after any calls, if `Next` asks for more, then all
further calls do so exactly if no line of blanks it has come to hides a request or an error. -/
theorem needMore_stays_iff (calls : List Call)
    (h : (runCalls calls).parser.next.1 = .needMore) :
    (∀ n, ((runCalls calls).parser.next.2.again n).next.1 = .needMore) ↔
      (runCalls calls).parser.BlanksHarmless := by
  have hp := (runCalls_ok calls).parser
  generalize (runCalls calls).parser = p at h hp
  constructor
  · intro hstays
    refine Parser.blanksHarmless_of_quiet (Parser.quiet_of_again hp fun n => ?_)
    cases n with
    | zero => exact h
    | succ n => exact hstays n
  · intro hharmless n
    have hret := Parser.next_returned hp
    rw [h] at hret
    cases hret with
    | waits hq _ hmore => exact Parser.again_quiet hq ⟨_, _, .refl _ _, hmore⟩
    | blank hq _ _ hread hline hmode hrest =>
        refine Parser.again_quiet hq ?_
        rw [hmode, hrest]
        exact hharmless _ _ hread hline

/-- Half a command: `Next` waits, and there is no line of blanks. -/
theorem needMore_stays_half :
    (runCalls [.feed (ascii "*1\r\n$4\r\nPI")]).parser.next.1 = .needMore ∧
    ((∀ n, ((runCalls [.feed (ascii "*1\r\n$4\r\nPI")]).parser.next.2.again n).next.1 = .needMore) ↔
      (runCalls [.feed (ascii "*1\r\n$4\r\nPI")]).parser.BlanksHarmless) := by
  have h : (runCalls [.feed (ascii "*1\r\n$4\r\nPI")]).parser.next.1 = .needMore := by
    decide +kernel
  exact ⟨h, needMore_stays_iff _ h⟩

/-- A blank before a whole command: `Next` asks for more, and the next call has the command. -/
theorem needMore_hides_request :
    (runCalls [.feed (ascii " \r\nPING\r\n")]).parser.next.1 = .needMore ∧
    (runCalls [.feed (ascii " \r\nPING\r\n")]).parser.next.2.next.1 =
      .request [ascii "PING"] := by
  decide +kernel

end BedrockKV.Resp
