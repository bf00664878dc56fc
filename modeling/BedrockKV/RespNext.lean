/-
# `BedrockKV.RespNext` — the parser's calls are rows of moves

`Parser` holds offsets into a buffer that is compacted under them; `mode` and
`rest` read off what they stand for.  A round of the loop is a row of moves of
`BedrockKV.RespMove` (`round_spec`), hence so are a call of `next`, what a
caller draws after one `Feed`, and a whole session (`feedAll_session`).
-/
import BedrockKV.RespMove

namespace BedrockKV.Resp

open List Incremental

namespace Parser

def mode (p : Parser) : Mode :=
  if p.multibulk < 0 then .idle else .bulk p.multibulk.toNat p.args

def rest (p : Parser) : Bytes := p.buf.drop p.parsePos

/-- What the parser keeps between two rounds. -/
structure Ok (p : Parser) : Prop where
  nonzero : p.multibulk ≠ 0
  idle : p.multibulk < 0 → p.parsePos = 0
  pos : p.parsePos ≤ p.buf.length
  spans : 0 < p.multibulk → ∀ x ∈ p.argSpans, x.1 + x.2 ≤ p.parsePos

/-- From `p` to `q` by moves of the code. -/
abbrev Goes (p : Parser) (outs : List (List Bytes)) (q : Parser) : Prop :=
  Reads (move true) p.mode p.rest outs q.mode q.rest

theorem new_ok : new.Ok := ⟨by decide, fun _ => rfl, le_rfl, by simp [new]⟩

variable {p : Parser} {fuel : Nat}

theorem mode_idle (h : p.multibulk < 0) : p.mode = .idle := if_pos h

theorem rest_idle (hp : p.Ok) (h : p.multibulk < 0) : p.rest = p.buf := by
  rw [rest, hp.idle h, drop_zero]

theorem args_feed (hp : p.Ok) (h : 0 < p.multibulk) (c : Bytes) : (p.feed c).args = p.args := by
  refine map_congr_left ?_
  intro x hx
  have hend := (hp.spans h x hx).trans hp.pos
  change ((p.buf ++ c).drop x.1).take x.2 = (p.buf.drop x.1).take x.2
  rw [drop_append_of_le_length (by omega), take_append_of_le_length]
  rw [length_drop]
  omega

theorem feed_ok (hp : p.Ok) (c : Bytes) : (p.feed c).Ok where
  nonzero := hp.nonzero
  idle := hp.idle
  pos := by
    change p.parsePos ≤ (p.buf ++ c).length
    rw [length_append]
    exact Nat.le_add_right_of_le hp.pos
  spans := hp.spans

theorem feed_mode (hp : p.Ok) (c : Bytes) : (p.feed c).mode = p.mode := by
  by_cases h : p.multibulk < 0
  · rw [mode_idle h, mode_idle (p := p.feed c) h]
  · have hpos : 0 < p.multibulk := by
      have := hp.nonzero
      omega
    rw [mode, mode, args_feed hp hpos]
    rfl

theorem feed_rest (hp : p.Ok) (c : Bytes) : (p.feed c).rest = p.rest ++ c :=
  drop_append_of_le_length hp.pos

/-! ## A round -/

/-- A line of blanks in front of an idle parser. -/
structure BlankLine (b : Bytes) (nl : Nat) : Prop where
  head : ∃ c r, b = c :: r ∧ isNewline c = false ∧ c ≠ 42
  line : findLf b = some nl
  empty : inlineArgs b nl = []

/-- What `Next` may return: the state it leaves, and how the moves got there. -/
inductive Returned (p : Parser) : NextStatus → Parser → Prop where
  | request {args : List Bytes} {q : Parser} : q.Ok → p.Goes [args] q →
      q.pending < p.pending → Returned p (.request args) q
  | waits {q : Parser} : q.Ok → p.Goes [] q → move true q.mode q.rest = .more →
      q.pending ≤ p.pending → Returned p .needMore q
  | blank {q : Parser} {b : Bytes} {nl : Nat} : q.Ok → p.Goes [] q → q.pending < p.pending →
      Reads (move true) p.mode p.rest [] .idle b → BlankLine b nl → q.mode = .idle →
      q.rest = b.drop (nl + 1) → Returned p .needMore q
  | error {message : Bytes} {q : Parser} : q.Ok → p.Goes [] q →
      move true q.mode q.rest = .fail → Returned p (.error message) q

/-- A round that goes on has passed bytes. -/
structure Continues (p q : Parser) : Prop where
  ok : q.Ok
  goes : p.Goes [] q
  shorter : q.rest.length < p.rest.length
  pending_le : q.pending ≤ p.pending

def RoundSpec (p : Parser) : Parser ⊕ (NextStatus × Parser) → Prop
  | .inl q => p.Continues q
  | .inr (st, q) => p.Returned st q

theorem RoundSpec.after {q : Parser} {r : Parser ⊕ (NextStatus × Parser)} (hgo : p.Goes [] q)
    (hlen : q.rest.length ≤ p.rest.length) (hle : q.pending ≤ p.pending) (h : q.RoundSpec r) :
    p.RoundSpec r := by
  cases r with
  | inl r => exact ⟨h.ok, hgo.trans h.goes, h.shorter.trans_le hlen, h.pending_le.trans hle⟩
  | inr r =>
    obtain ⟨st, r⟩ := r
    cases h with
    | request hok hg hlt => exact .request hok (hgo.trans hg) (hlt.trans_le hle)
    | waits hok hg hm hp => exact .waits hok (hgo.trans hg) hm (hp.trans hle)
    | blank hok hg hlt hb hline hmode hrest =>
      exact .blank hok (hgo.trans hg) (hlt.trans_le hle) (hgo.trans hb) hline hmode hrest
    | error hok hg hm => exact .error hok (hgo.trans hg) hm

theorem reads_skip (b : Bytes) : Reads (move true) .idle b [] .idle (b.dropWhile isNewline) := by
  induction b with
  | nil => exact .refl _ _
  | cons c b ih =>
    cases hc : isNewline c with
    | false =>
      rw [dropWhile_cons_of_neg (by simp [hc])]
      exact .refl _ _
    | true =>
      rw [dropWhile_cons_of_pos hc]
      have hmove : move true .idle (c :: b) = .take 1 .idle [] := by simp [move, hc]
      exact .take hmove ih

theorem compact_eq (hp : p.Ok) (h : p.multibulk < 0) :
    p.compact = { p with buf := p.buf.dropWhile isNewline, parsePos := 0 } := by
  have hpos := hp.idle h
  have hdrop : p.buf.drop (p.buf.takeWhile isNewline).length = p.buf.dropWhile isNewline := by
    have happ := takeWhile_append_dropWhile (p := isNewline) (l := p.buf)
    rw [← happ, drop_left' (by rw [happ]), happ]
  unfold compact
  simp only [hpos, drop_zero, Nat.zero_add]
  split
  · rw [hdrop]
  · next hz =>
    have hnil := hdrop
    rw [Nat.eq_zero_of_not_pos hz, drop_zero] at hnil
    rw [← hnil, ← hpos]

theorem dropWhile_head {b r : Bytes} {c : UInt8} (h : b.dropWhile isNewline = c :: r) :
    isNewline c = false := by
  have hne : b.dropWhile isNewline ≠ [] := by simp [h]
  have := head_dropWhile_not isNewline hne
  simpa [h] using this

section Rounds

variable {b r : Bytes} {m : Int} {k : Nat} {spans : List (Nat × Nat)} {c : UInt8}

theorem ok_of_neg (h : m < 0) : Ok ⟨b, m, 0, spans⟩ :=
  ⟨Int.ne_of_lt h, fun _ => rfl, Nat.zero_le _, fun hpos => absurd hpos (Int.not_lt.mpr h.le)⟩

variable {p : Parser}

theorem goes_of_move {q : Parser} {n : Nat} {s : Mode} {outs : List (List Bytes)}
    (h : move true p.mode p.rest = .take n s outs) (hs : q.mode = s) (hr : q.rest = p.rest.drop n) :
    p.Goes outs q := by
  rw [Goes, hs, hr]
  exact Reads.single h

theorem move_neg (h : m < 0) :
    move true (Parser.mk b m 0 spans).mode (Parser.mk b m 0 spans).rest = move true .idle b := by
  rw [mode_idle (p := Parser.mk b m 0 spans) h]
  rfl

theorem header_spec (h : m < 0) :
    (Parser.mk (42 :: b) m 0 spans).RoundSpec (Parser.mk (42 :: b) m 0 spans).header := by
  have hmove : move true (Parser.mk (42 :: b) m 0 spans).mode (Parser.mk (42 :: b) m 0 spans).rest =
      headerMove true (42 :: b) := move_neg h
  have hok : Ok ⟨42 :: b, m, 0, spans⟩ := ok_of_neg h
  unfold header
  dsimp only
  cases hnl : lineEnd (42 :: b) with
  | none =>
    simp only [headerMove, atLine, hnl, true_and] at hmove
    dsimp only
    split
    · next hlong => exact .error hok (.refl _ _) (hmove.trans (if_pos hlong))
    · next hlong => exact .waits hok (.refl _ _) (hmove.trans (if_neg hlong)) le_rfl
  | some nl =>
    have hlen := (lineEnd_spec hnl).2.1
    simp only [headerMove, atLine, hnl] at hmove
    dsimp only
    cases hn : lineNumber (42 :: b) nl with
    | none =>
      simp only [hn] at hmove
      exact .error hok (.refl _ _) hmove
    | some n =>
      simp only [hn] at hmove
      dsimp only
      split
      · next hmax => exact .error hok (.refl _ _) (hmove.trans (if_pos hmax))
      · next hmax =>
        rw [if_neg hmax] at hmove
        split
        · next hzero =>
          -- an empty command is passed over
          rw [if_pos hzero] at hmove
          refine ⟨ok_of_neg h, goes_of_move hmove (mode_idle h) rfl, ?_, ?_⟩
          · change ((42 :: b).drop (nl + 2)).length < (42 :: b).length
            rw [length_drop]
            omega
          · change ((42 :: b).drop (nl + 2)).length ≤ (42 :: b).length
            rw [length_drop]
            omega
        · next hzero =>
          rw [if_neg hzero] at hmove
          have hnpos : 0 < (n : Int) := by omega
          have hq : Ok ⟨42 :: b, n, nl + 2, []⟩ :=
            ⟨hnpos.ne', fun hneg => absurd hneg (Int.not_lt.mpr hnpos.le), hlen,
              fun _ _ hx => absurd hx not_mem_nil⟩
          refine ⟨hq, goes_of_move hmove ?_ rfl, ?_, le_rfl⟩
          · exact if_neg (Int.not_lt.mpr hnpos.le)
          · change ((42 :: b).drop (nl + 2)).length < (42 :: b).length
            rw [length_drop]
            omega

theorem nextInline_spec (h : m < 0) (hc : isNewline c = false) (hne : c ≠ 42) :
    (Parser.mk (c :: b) m 0 spans).RoundSpec (.inr (Parser.mk (c :: b) m 0 spans).nextInline) := by
  have hmove : move true (Parser.mk (c :: b) m 0 spans).mode (Parser.mk (c :: b) m 0 spans).rest =
      inlineMove true (c :: b) := by
    rw [move_neg h, move, if_neg (by simp [hc]), if_neg hne]
  have hok : Ok ⟨c :: b, m, 0, spans⟩ := ok_of_neg h
  unfold nextInline
  dsimp only
  cases hnl : findLf (c :: b) with
  | none =>
    simp only [inlineMove, atLine, hnl, true_and] at hmove
    dsimp only
    split
    · next hlong => exact .error hok (.refl _ _) (hmove.trans (if_pos hlong))
    · next hlong => exact .waits hok (.refl _ _) (hmove.trans (if_neg hlong)) le_rfl
  | some nl =>
    have hlen := (findLf_spec hnl).1
    have hlt : ((c :: b).drop (nl + 1)).length < (c :: b).length := by
      rw [length_drop]
      omega
    simp only [inlineMove, atLine, hnl] at hmove
    dsimp only
    split
    · next hempty =>
      rw [if_pos hempty] at hmove
      have hhere : Reads (move true) (Parser.mk (c :: b) m 0 spans).mode
          (Parser.mk (c :: b) m 0 spans).rest [] .idle (c :: b) := by
        rw [mode_idle (p := Parser.mk (c :: b) m 0 spans) h]
        exact .refl _ _
      exact .blank (ok_of_neg h) (goes_of_move hmove (mode_idle h) rfl) hlt hhere
        ⟨⟨c, b, rfl, hc, hne⟩, hnl, List.isEmpty_iff.mp hempty⟩ (mode_idle h) rfl
    · next hempty =>
      rw [if_neg hempty] at hmove
      exact .request (ok_of_neg h) (goes_of_move hmove (mode_idle h) rfl) hlt

theorem idleRound_spec (hp : p.Ok) (h : p.multibulk < 0) : p.RoundSpec p.idleRound := by
  obtain ⟨buf, m, pos, spans⟩ := p
  obtain rfl : pos = 0 := hp.idle h
  have hcompact := compact_eq hp h
  dsimp only at hcompact
  have hgo : (Parser.mk buf m 0 spans).Goes [] ⟨buf.dropWhile isNewline, m, 0, spans⟩ := by
    rw [Goes, mode_idle (p := Parser.mk buf m 0 spans) h,
      mode_idle (p := Parser.mk (buf.dropWhile isNewline) m 0 spans) h]
    exact reads_skip buf
  have hle : (buf.dropWhile isNewline).length ≤ buf.length := (dropWhile_suffix isNewline).length_le
  unfold idleRound
  rw [hcompact]
  dsimp only
  cases hb : buf.dropWhile isNewline with
  | nil =>
    rw [hb] at hgo
    refine .waits (ok_of_neg h) hgo ?_ (Nat.zero_le _)
    rw [move_neg h]
    rfl
  | cons c b =>
    rw [hb] at hgo hle
    have hnl := dropWhile_head hb
    refine RoundSpec.after hgo hle hle ?_
    dsimp only
    split
    · next hc =>
      subst hc
      exact header_spec h
    · next hc => exact nextInline_spec h hnl hc

theorem pushArg_spec {nl len : Nat} (hp : p.Ok) (hpos : 0 < p.multibulk)
    (hle : p.parsePos + nl + 2 + len + 2 ≤ p.buf.length)
    (hmove : move true p.mode p.rest = argMove p.multibulk.toNat p.args p.rest nl len)
    (hterm : p.rest[nl + 2 + len]? = some 13 ∧ p.rest[nl + 2 + len + 1]? = some 10) :
    p.RoundSpec (p.pushArg (p.parsePos + nl + 2) len) := by
  have hrest : p.rest.length = p.buf.length - p.parsePos := length_drop
  have harg : (p.buf.drop (p.parsePos + nl + 2)).take len = (p.rest.drop (nl + 2)).take len := by
    rw [rest, drop_drop, Nat.add_assoc]
  rw [argMove, if_neg (by omega), if_pos hterm, ← harg] at hmove
  have hend : p.buf.drop (p.parsePos + nl + 2 + len + 2) = p.rest.drop (nl + 2 + len + 2) := by
    rw [rest, drop_drop]
    congr 1
    omega
  unfold pushArg
  dsimp only
  split
  · next hzero =>
    have hone : p.multibulk.toNat = 1 := by omega
    rw [if_pos hone] at hmove
    have hargs : args { p with
        argSpans := p.argSpans ++ [(p.parsePos + nl + 2, len)]
        parsePos := p.parsePos + nl + 2 + len + 2
        multibulk := p.multibulk - 1 } =
        p.args ++ [(p.buf.drop (p.parsePos + nl + 2)).take len] := by
      simp only [args, map_append, map_cons, map_nil]
    rw [hargs]
    refine .request (ok_of_neg (by decide)) (goes_of_move hmove rfl ?_) ?_
    · exact hend
    · change (p.buf.drop (p.parsePos + nl + 2 + len + 2)).length < p.buf.length
      rw [length_drop]
      omega
  · next hzero =>
    have hone : p.multibulk.toNat ≠ 1 := by omega
    rw [if_neg hone] at hmove
    refine ⟨⟨hzero, fun hneg => absurd hneg (by change ¬ p.multibulk - 1 < 0; omega), hle, ?_⟩,
      goes_of_move hmove ?_ hend, ?_, le_rfl⟩
    · intro _ x hx
      rcases mem_append.mp hx with hx | hx
      · have := hp.spans hpos x hx
        change x.1 + x.2 ≤ p.parsePos + nl + 2 + len + 2
        omega
      · rw [mem_singleton.mp hx]
        change p.parsePos + nl + 2 + len ≤ p.parsePos + nl + 2 + len + 2
        omega
    · rw [mode, if_neg (by change ¬ p.multibulk - 1 < 0; omega)]
      simp only [args, map_append, map_cons, map_nil]
      congr 1
      omega
    · rw [hrest]
      change (p.buf.drop (p.parsePos + nl + 2 + len + 2)).length < _
      rw [length_drop]
      omega

theorem bulkRound_spec (hp : p.Ok) (hpos : 0 < p.multibulk) : p.RoundSpec p.bulkRound := by
  have hmode : p.mode = .bulk p.multibulk.toNat p.args := if_neg (by omega)
  have hlen : p.rest.length = p.buf.length - p.parsePos := length_drop
  unfold bulkRound
  cases hrest : p.rest with
  | nil =>
    rw [rest] at hrest
    rw [hrest]
    refine .waits hp (.refl _ _) ?_ le_rfl
    rw [hmode, rest, hrest]
    rfl
  | cons c b =>
    have hdrop : p.buf.drop p.parsePos = c :: b := hrest
    rw [hdrop]
    dsimp only
    by_cases hc : c = 36
    · have hmove : move true p.mode p.rest = bulkMove p.multibulk.toNat p.args true (c :: b) := by
        rw [hmode, hrest, move, if_pos hc]
      rw [if_pos hc, ← hlen, hrest]
      cases hnl : lineEnd (c :: b) with
      | none =>
        simp only [bulkMove, atLine, hnl, true_and] at hmove
        dsimp only
        split
        · next hlong => exact .error hp (.refl _ _) (hmove.trans (if_pos hlong))
        · next hlong => exact .waits hp (.refl _ _) (hmove.trans (if_neg hlong)) le_rfl
      | some nl =>
        have hnlle := (lineEnd_spec hnl).2.1
        rw [bulkMove_line hnl] at hmove
        dsimp only
        cases hnum : lineNumber (c :: b) nl with
        | none =>
          simp only [hnum] at hmove
          exact .error hp (.refl _ _) hmove
        | some len =>
          simp only [hnum] at hmove
          dsimp only
          split
          · next hmax => exact .error hp (.refl _ _) (hmove.trans (if_pos hmax))
          · next hmax =>
            rw [if_neg hmax, ← hrest] at hmove
            rw [← hrest, hlen] at hnlle
            have hget : ∀ i, p.rest[i]? = p.buf[p.parsePos + i]? := fun i => by
              rw [rest, getElem?_drop]
            split
            · next hshort =>
              refine .waits hp (.refl _ _) ?_ le_rfl
              rw [hmove, argMove, if_pos (by omega)]
            · next hlong =>
              split
              · next hterm =>
                refine pushArg_spec hp hpos (by omega) hmove ?_
                rw [hget, hget]
                simpa [Nat.add_assoc] using hterm
              · next hterm =>
                refine .error hp (.refl _ _) ?_
                rw [hmove, argMove, if_neg (by omega), if_neg]
                rw [hget, hget]
                simpa [Nat.add_assoc] using hterm
    · rw [if_neg hc]
      refine .error hp (.refl _ _) ?_
      rw [hmode, hrest, move, if_neg hc]

/-- **A round of the loop is a row of moves.** -/
theorem round_spec (hp : p.Ok) : p.RoundSpec p.round := by
  unfold round
  split
  · next h => exact idleRound_spec hp h
  · next h =>
    have := hp.nonzero
    exact bulkRound_spec hp (by omega)

end Rounds

/-! ## Calls and sessions -/

theorem nextLoop_returned (hp : p.Ok) (hfuel : p.rest.length < fuel) :
    p.Returned (nextLoop fuel p).1 (nextLoop fuel p).2 := by
  induction fuel generalizing p with
  | zero => exact absurd hfuel (Nat.not_lt_zero _)
  | succ fuel ih =>
    have hround := round_spec hp
    rw [nextLoop]
    cases hr : p.round with
    | inr r =>
      rw [hr] at hround
      exact hround
    | inl q =>
      rw [hr] at hround
      have hq := ih hround.ok (by have := hround.shorter; omega)
      exact RoundSpec.after (r := .inr (nextLoop fuel q)) hround.goes hround.shorter.le
        hround.pending_le hq

/-- **A call of `Next` is a row of moves.** -/
theorem next_returned (hp : p.Ok) : p.Returned p.next.1 p.next.2 := by
  refine nextLoop_returned hp ?_
  rw [rest, length_drop]
  omega

/-- What a caller leaves behind: it has taken every request there was. -/
structure Drained (p : Parser) (r : List (List Bytes) × Option Bytes × Parser) : Prop where
  ok : r.2.2.Ok
  goes : p.Goes r.1 r.2.2
  more : r.2.1 = none → move true r.2.2.mode r.2.2.rest = .more
  fail : r.2.1 ≠ none → move true r.2.2.mode r.2.2.rest = .fail

theorem drain_drained (hp : p.Ok) (hfuel : p.pending < fuel) : p.Drained (drain fuel p) := by
  induction fuel generalizing p with
  | zero => exact absurd hfuel (Nat.not_lt_zero _)
  | succ fuel ih =>
    have hret := next_returned hp
    rw [drain]
    generalize p.next = r at hret
    obtain ⟨st, q⟩ := r
    cases hret with
    | request hq hgo hlt =>
      have hrest := ih hq (by omega)
      exact ⟨hrest.ok, hgo.trans hrest.goes, hrest.more, hrest.fail⟩
    | error hq hgo hfail => exact ⟨hq, hgo, fun hnone => (by cases hnone), fun _ => hfail⟩
    | waits hq hgo hmore hle =>
      dsimp only
      split
      · next hlt =>
        have hrest := ih hq (hlt.trans_le (Nat.le_of_lt_succ hfuel))
        exact ⟨hrest.ok, hgo.trans hrest.goes, hrest.more, hrest.fail⟩
      · exact ⟨hq, hgo, fun _ => hmore, fun hne => absurd rfl hne⟩
    | blank hq hgo hlt =>
      dsimp only
      rw [if_pos hlt]
      have hrest := ih hq (by omega)
      exact ⟨hrest.ok, hgo.trans hrest.goes, hrest.more, hrest.fail⟩

/-- Inline commands do not occur on the way. -/
def NoInline (p : Parser) : Prop :=
  ∀ outs c b, Reads (move true) p.mode p.rest outs .idle (c :: b) → isNewline c = true ∨ c = 42

theorem pull_drained (hp : p.Ok) (hno : p.NoInline) (hfuel : p.pending < fuel) :
    p.Drained (pull fuel p) := by
  induction fuel generalizing p with
  | zero => exact absurd hfuel (Nat.not_lt_zero _)
  | succ fuel ih =>
    have hret := next_returned hp
    rw [pull]
    generalize p.next = r at hret
    obtain ⟨st, q⟩ := r
    cases hret with
    | request hq hgo hlt =>
      have hrest := ih hq (fun outs c b h => hno _ c b (hgo.trans h)) (by omega)
      exact ⟨hrest.ok, hgo.trans hrest.goes, hrest.more, hrest.fail⟩
    | error hq hgo hfail => exact ⟨hq, hgo, fun hnone => (by cases hnone), fun _ => hfail⟩
    | waits hq hgo hmore => exact ⟨hq, hgo, fun _ => hmore, fun hne => absurd rfl hne⟩
    | blank hq hgo hlt hb hline =>
      obtain ⟨c, r, rfl, hc, hne⟩ := hline.head
      rcases hno _ _ _ hb with h | h
      · rw [hc] at h
        cases h
      · exact absurd h hne

/-- **Feeding chunks is a session of moves**, for a caller that draws everything
at every point of it. -/
theorem feedAll_session {serve : Nat → Parser → List (List Bytes) × Option Bytes × Parser}
    {chunks : List Bytes} (hp : p.Ok)
    (hserve : ∀ (q : Parser) fed c rest outs, chunks = fed ++ c :: rest → q.Ok →
      Reads (move false) p.mode (p.rest ++ (fed ++ [c]).flatten) outs (q.feed c).mode
        (q.feed c).rest →
      (q.feed c).Drained (serve ((q.feed c).pending + 1) (q.feed c))) :
    Session (move true) p.mode p.rest chunks (feedAll serve p chunks).1
        (feedAll serve p chunks).2.2.mode (feedAll serve p chunks).2.2.rest
        (feedAll serve p chunks).2.1.isSome ∧
      (feedAll serve p chunks).2.2.Ok := by
  induction chunks generalizing p with
  | nil => exact ⟨.done _ _, hp⟩
  | cons c chunks ih =>
    have hstart : Reads (move false) p.mode (p.rest ++ ([] ++ [c]).flatten) [] (p.feed c).mode
        (p.feed c).rest := by
      rw [feed_mode hp, feed_rest hp]
      simp only [nil_append, flatten_cons, flatten_nil, append_nil]
      exact .refl _ _
    have hd := hserve p [] c chunks [] rfl hp hstart
    rw [feedAll]
    generalize serve ((p.feed c).pending + 1) (p.feed c) = r at hd
    obtain ⟨requests, message, q⟩ := r
    have hgo := hd.goes
    rw [Goes, feed_mode hp, feed_rest hp] at hgo
    cases message with
    | some message => exact ⟨.fails hgo (hd.fail (by simp)), hd.ok⟩
    | none =>
      obtain ⟨p', hp', huse⟩ := move_guarded.settled.used (move_guarded.reads_iff.mp hgo)
      have hrest := ih hd.ok (fun q' fed c' rest outs heq hq' hread => by
        refine hserve q' (c :: fed) c' rest (requests ++ outs) (by rw [heq]; rfl) hq' ?_
        have := (huse (q.rest ++ (fed ++ [c']).flatten)).trans hread
        rwa [← append_assoc, ← hp', append_assoc] at this)
      exact ⟨.waits hgo (hd.more rfl) hrest.1, hrest.2⟩

end Parser

end BedrockKV.Resp
