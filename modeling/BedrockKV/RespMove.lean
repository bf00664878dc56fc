/-
# `BedrockKV.RespMove` — the request parser, one look at a time

A look at the buffer is a `move` in the terms of `BedrockKV.Lib.Incremental`,
over what is left of the buffer:

    idle    a blank byte, a multibulk header, or an inline command
    bulk    one bulk string of the command in flight

`limited` switches the three limits on what may be buffered without a line
end.  Without them every move is settled (`move_guarded`); with them the moves
are those of the code: a call of `next` is a row of them (`next_returned`),
and so is what either caller does.
-/
import BedrockKV.Resp
import BedrockKV.Lib.Incremental

namespace BedrockKV.Resp

open List Incremental

/-- Where the parser is: `left` bulk strings are missing to `args`. -/
inductive Mode where
  | idle
  | bulk (left : Nat) (args : List Bytes)

abbrev RespMove := Move Mode (List Bytes)

/-- A look that waits for a line end, but not beyond `limit` bytes. -/
def atLine (find : Bytes → Option Nat) (limit : Nat) (body : Bytes → Nat → RespMove)
    (limited : Bool) (b : Bytes) : RespMove :=
  match find b with
  | none => if limited = true ∧ limit < b.length then .fail else .more
  | some nl => body b nl

def headerMove : Bool → Bytes → RespMove :=
  atLine lineEnd kMaxLengthLine fun b nl =>
    match lineNumber b nl with
    | none => .fail
    | some n =>
      if kMaxMultibulk < n then .fail
      else if n = 0 then .take (nl + 2) .idle []
      else .take (nl + 2) (.bulk n []) []

def inlineMove : Bool → Bytes → RespMove :=
  atLine findLf kMaxInlineLine fun b nl =>
    .take (nl + 1) .idle (if (inlineArgs b nl).isEmpty then [] else [inlineArgs b nl])

/-- The bulk string of `len` bytes behind the line that ends at `nl`. -/
def argMove (left : Nat) (args : List Bytes) (b : Bytes) (nl len : Nat) : RespMove :=
  if b.length < nl + 2 + len + 2 then .more
  else if b[nl + 2 + len]? = some 13 ∧ b[nl + 2 + len + 1]? = some 10 then
    let args' := args ++ [(b.drop (nl + 2)).take len]
    if left = 1 then .take (nl + 2 + len + 2) .idle [args']
    else .take (nl + 2 + len + 2) (.bulk (left - 1) args') []
  else .fail

def bulkMove (left : Nat) (args : List Bytes) : Bool → Bytes → RespMove :=
  atLine lineEnd kMaxLengthLine fun b nl =>
    match lineNumber b nl with
    | none => .fail
    | some len => if kMaxBulkLen < len then .fail else argMove left args b nl len

def move (limited : Bool) : Mode → Bytes → RespMove
  | .idle, [] => .more
  | .idle, c :: rest =>
    if isNewline c then .take 1 .idle []
    else if c = 42 then headerMove limited (c :: rest) else inlineMove limited (c :: rest)
  | .bulk _ _, [] => .more
  | .bulk left args, c :: rest =>
    if c = 36 then bulkMove left args limited (c :: rest) else .fail

/-! ## Line ends -/

section Lines

variable {b c : Bytes} {i nl : Nat}

theorem findCrlf_length (h : findCrlf b = some i) : i + 2 ≤ b.length := by
  induction b generalizing i with
  | nil => cases h
  | cons a b ih =>
    simp only [findCrlf] at h
    split at h
    · next hcr =>
      cases h
      cases b with
      | nil => cases hcr.2
      | cons => simp
    · obtain ⟨j, hj, rfl⟩ := Option.map_eq_some_iff.mp h
      have := ih hj
      simp only [length_cons]
      omega

theorem findCrlf_take (h : findCrlf b = some i) (c : Bytes) :
    findCrlf (b.take (i + 2) ++ c) = some i := by
  induction b generalizing i with
  | nil => cases h
  | cons a b ih =>
    simp only [findCrlf] at h
    split at h
    · next hcr =>
      cases h
      cases b with
      | nil => cases hcr.2
      | cons d b => simp [findCrlf, hcr.1, Option.some.inj hcr.2]
    · next hcr =>
      obtain ⟨j, hj, rfl⟩ := Option.map_eq_some_iff.mp h
      have hlen := findCrlf_length hj
      have hhead : (b.take (j + 2) ++ c).head? = b.head? := by
        cases b with
        | nil => simp at hlen
        | cons => rfl
      rw [show j + 1 + 2 = j + 2 + 1 from rfl, take_succ_cons, cons_append, findCrlf,
        hhead, if_neg hcr, ih hj]
      rfl

theorem findCrlf_append_none (h : findCrlf (b ++ c) = none) : findCrlf b = none := by
  cases hb : findCrlf b with
  | none => rfl
  | some i =>
    have hlen := findCrlf_length hb
    have happ := findCrlf_take hb (b.drop (i + 2) ++ c)
    rw [← append_assoc, take_append_drop, h] at happ
    cases happ

theorem lineEnd_spec (h : lineEnd b = some nl) :
    1 ≤ nl ∧ nl + 2 ≤ b.length ∧ ∀ c, lineEnd (b.take (nl + 2) ++ c) = some nl := by
  obtain ⟨i, hi, rfl⟩ := Option.map_eq_some_iff.mp h
  have hlen := findCrlf_length hi
  rw [length_drop] at hlen
  refine ⟨by omega, by omega, fun c => ?_⟩
  cases b with
  | nil => simp at hlen
  | cons a b =>
    have := findCrlf_take hi c
    rw [drop_one, tail_cons] at this
    rw [lineEnd, show i + 1 + 2 = i + 2 + 1 from rfl, take_succ_cons, cons_append,
      drop_one, tail_cons, this]
    rfl

theorem lineEnd_append_none (hb : b ≠ []) (h : lineEnd (b ++ c) = none) : lineEnd b = none := by
  cases b with
  | nil => exact absurd rfl hb
  | cons a b =>
    rw [lineEnd, Option.map_eq_none_iff] at h ⊢
    exact findCrlf_append_none h

theorem findLf_spec (h : findLf b = some nl) :
    nl + 1 ≤ b.length ∧ ∀ c, findLf (b.take (nl + 1) ++ c) = some nl := by
  obtain ⟨hlt, hp, hbefore⟩ := findIdx?_eq_some_iff_getElem.mp h
  refine ⟨hlt, fun c => ?_⟩
  refine findIdx?_eq_some_iff_getElem.mpr ⟨?_, ?_, ?_⟩
  · rw [length_append, length_take_of_le hlt]
    omega
  · rw [getElem_append_left (by rw [length_take_of_le hlt]; omega), getElem_take]
    exact hp
  · intro j hj
    rw [getElem_append_left (by rw [length_take_of_le hlt]; omega), getElem_take]
    exact hbefore j hj

theorem findLf_append_none (h : findLf (b ++ c) = none) : findLf b = none := by
  rw [findLf, findIdx?_eq_none_iff] at h ⊢
  intro x hx
  exact h x (mem_append_left c hx)

end Lines

/-! ## What a look depends on -/

/-- The two buffers start with the same `n` bytes. -/
structure Same (n : Nat) (b b' : Bytes) : Prop where
  length : n ≤ b.length
  take : b'.take n = b.take n

section Same

variable {n m nl len : Nat} {b b' c : Bytes}

theorem same_take (h : n ≤ b.length) (c : Bytes) : Same n b (b.take n ++ c) :=
  ⟨h, take_left' (length_take_of_le h)⟩

theorem same_append (h : n ≤ b.length) (c : Bytes) : Same n b (b ++ c) :=
  ⟨h, take_append_of_le_length h⟩

theorem Same.mono (h : Same n b b') (hm : m ≤ n) : Same m b b' := by
  refine ⟨hm.trans h.length, ?_⟩
  have := congrArg (List.take m) h.take
  rwa [take_take, take_take, min_eq_left hm] at this

theorem Same.length' (h : Same n b b') : n ≤ b'.length := by
  have := congrArg List.length h.take
  rw [length_take_of_le h.length, length_take] at this
  omega

theorem Same.eq_append (h : Same n b b') : b' = b.take n ++ b'.drop n := by
  rw [← h.take, take_append_drop]

theorem Same.slice {k : Nat} (h : Same (k + m) b b') :
    (b'.drop k).take m = (b.drop k).take m := by
  rw [take_drop, take_drop, h.take]

theorem Same.getElem? (h : Same n b b') {i : Nat} (hi : i < n) : b'[i]? = b[i]? := by
  rw [← getElem?_take_of_lt hi, h.take, getElem?_take_of_lt hi]

theorem Same.lineEnd (h : Same (nl + 2) b b') (hnl : lineEnd b = some nl) :
    lineEnd b' = some nl := by
  rw [h.eq_append]
  exact (lineEnd_spec hnl).2.2 _

theorem Same.lineNumber (h : Same (nl + 2) b b') (hpos : 1 ≤ nl) :
    lineNumber b' nl = lineNumber b nl := by
  rw [Resp.lineNumber, Resp.lineNumber, (h.mono (by omega : 1 + (nl - 1) ≤ nl + 2)).slice]

theorem Same.inlineArgs (h : Same (nl + 1) b b') : inlineArgs b' nl = inlineArgs b nl := by
  rw [Resp.inlineArgs, Resp.inlineArgs, (h.mono (Nat.le_succ nl)).take,
    (h.mono (by omega : nl - 1 ≤ nl + 1)).take, h.getElem? (by omega : nl - 1 < nl + 1)]

theorem Same.headerMove {limited : Bool} (h : Same (nl + 2) b b') (hnl : Resp.lineEnd b = some nl) :
    headerMove limited b' = headerMove limited b := by
  simp only [Resp.headerMove, atLine, h.lineEnd hnl, hnl, h.lineNumber (lineEnd_spec hnl).1]

theorem Same.inlineMove {limited : Bool} (h : Same (nl + 1) b b') (hnl : findLf b = some nl) :
    inlineMove limited b' = inlineMove limited b := by
  have hnl' : findLf b' = some nl := by
    rw [h.eq_append]
    exact (findLf_spec hnl).2 _
  simp only [Resp.inlineMove, atLine, hnl, hnl', h.inlineArgs]

theorem Same.argMove {left : Nat} {args : List Bytes} (h : Same (nl + 2 + len + 2) b b') :
    argMove left args b' nl len = argMove left args b nl len := by
  rw [Resp.argMove, Resp.argMove, if_neg (not_lt.mpr h.length),
    if_neg (not_lt.mpr h.length'), h.getElem? (by omega), h.getElem? (by omega),
    (h.mono (by omega : nl + 2 + len ≤ nl + 2 + len + 2)).slice]

end Same

/-! ## The moves without limits are settled -/

/-- A look that uses bytes depends on them only, one that fails on what is there. -/
structure Local (look : Bytes → RespMove) : Prop where
  take : ∀ {b n s out}, look b = .take n s out →
    0 < n ∧ n ≤ b.length ∧ ∀ {b'}, Same n b b' → look b' = .take n s out
  fail : ∀ {b}, look b = .fail → ∃ n, n ≤ b.length ∧ ∀ {b'}, Same n b b' → look b' = .fail

theorem headerMove_local : Local (headerMove false) where
  take := by
    intro b n s out h
    cases hnl : lineEnd b with
    | none => simp [headerMove, atLine, hnl] at h
    | some nl =>
      have hn : n = nl + 2 := by
        simp only [headerMove, atLine, hnl] at h
        split at h
        · cases h
        · split at h
          · cases h
          · split at h <;> cases h <;> rfl
      subst hn
      exact ⟨by omega, (lineEnd_spec hnl).2.1, fun hs => (hs.headerMove hnl).trans h⟩
  fail := by
    intro b h
    cases hnl : lineEnd b with
    | none => simp [headerMove, atLine, hnl] at h
    | some nl => exact ⟨nl + 2, (lineEnd_spec hnl).2.1, fun hs => (hs.headerMove hnl).trans h⟩

theorem inlineMove_local : Local (inlineMove false) where
  take := by
    intro b n s out h
    cases hnl : findLf b with
    | none => simp [inlineMove, atLine, hnl] at h
    | some nl =>
      have hn : n = nl + 1 := by
        simp only [inlineMove, atLine, hnl] at h
        cases h
        rfl
      subst hn
      exact ⟨by omega, (findLf_spec hnl).1, fun hs => (hs.inlineMove hnl).trans h⟩
  fail := by
    intro b h
    cases hnl : findLf b <;> simp [inlineMove, atLine, hnl] at h

theorem argMove_take {left n nl len : Nat} {args : List Bytes} {b : Bytes} {s : Mode}
    {out : List (List Bytes)} (h : argMove left args b nl len = .take n s out) :
    n = nl + 2 + len + 2 ∧ n ≤ b.length := by
  unfold argMove at h
  split at h
  · cases h
  · split at h
    · split at h <;> cases h <;> exact ⟨rfl, by omega⟩
    · cases h

theorem argMove_fail {left nl len : Nat} {args : List Bytes} {b : Bytes}
    (h : argMove left args b nl len = .fail) : nl + 2 + len + 2 ≤ b.length := by
  unfold argMove at h
  split at h
  · cases h
  · omega

theorem bulkMove_line {limited : Bool} {left nl : Nat} {args : List Bytes} {b : Bytes}
    (hnl : lineEnd b = some nl) :
    bulkMove left args limited b =
      match lineNumber b nl with
      | none => .fail
      | some len => if kMaxBulkLen < len then .fail else argMove left args b nl len := by
  simp only [bulkMove, atLine, hnl]

theorem bulkMove_local (left : Nat) (args : List Bytes) : Local (bulkMove left args false) where
  take := by
    intro b n s out h
    cases hnl : lineEnd b with
    | none => simp [bulkMove, atLine, hnl] at h
    | some nl =>
      have hpos := (lineEnd_spec hnl).1
      rw [bulkMove_line hnl] at h
      split at h
      · cases h
      · next len hlen =>
        split at h
        · cases h
        · next hmax =>
          obtain ⟨rfl, hle⟩ := argMove_take h
          refine ⟨by omega, hle, fun hs => ?_⟩
          have hs' := hs.mono (by omega : nl + 2 ≤ nl + 2 + len + 2)
          rw [bulkMove_line (hs'.lineEnd hnl), hs'.lineNumber hpos, hlen]
          dsimp only
          rw [if_neg hmax, hs.argMove, h]
  fail := by
    intro b h
    cases hnl : lineEnd b with
    | none => simp [bulkMove, atLine, hnl] at h
    | some nl =>
      obtain ⟨hpos, hle, -⟩ := lineEnd_spec hnl
      rw [bulkMove_line hnl] at h
      split at h
      · next hnum =>
        refine ⟨nl + 2, hle, fun hs => ?_⟩
        rw [bulkMove_line (hs.lineEnd hnl), hs.lineNumber hpos, hnum]
      · next len hlen =>
        split at h
        · next hmax =>
          refine ⟨nl + 2, hle, fun hs => ?_⟩
          rw [bulkMove_line (hs.lineEnd hnl), hs.lineNumber hpos, hlen]
          exact if_pos hmax
        · next hmax =>
          refine ⟨nl + 2 + len + 2, argMove_fail h, fun hs => ?_⟩
          have hs' := hs.mono (by omega : nl + 2 ≤ nl + 2 + len + 2)
          rw [bulkMove_line (hs'.lineEnd hnl), hs'.lineNumber hpos, hlen]
          dsimp only
          rw [if_neg hmax, hs.argMove, h]

/-! ## The limits are a guard -/

/-- More than `limit` bytes, and no line end among the first `limit + 1`. -/
def Long (find : Bytes → Option Nat) (limit : Nat) (b : Bytes) : Prop :=
  limit < b.length ∧ find (b.take (limit + 1)) = none

/-- The look switched by `limited` is guarded, by `Long`. -/
structure Limited (look : Bool → Bytes → RespMove) (LongLine : Bytes → Prop) : Prop where
  settled : Local (look false)
  agrees : ∀ {b}, look false b ≠ .more → look true b = look false b
  guard : ∀ {b}, b ≠ [] → look false b = .more →
    look true b = .more ∨ (look true b = .fail ∧ LongLine b)
  stays : ∀ {b}, LongLine b → ∀ c, LongLine (b ++ c)
  trips : ∀ {b}, LongLine b → ∃ n, 0 < n ∧ look false (b.take n) = .more ∧
    look true (b.take n) = .fail

theorem long_stays {find : Bytes → Option Nat} {limit : Nat} {b : Bytes} (h : Long find limit b)
    (c : Bytes) : Long find limit (b ++ c) := by
  refine ⟨?_, ?_⟩
  · rw [length_append]
    exact Nat.lt_add_right _ h.1
  · rw [take_append_of_le_length h.1]
    exact h.2

theorem limited_atLine {find : Bytes → Option Nat} {limit : Nat} {body : Bytes → Nat → RespMove}
    (hfind : ∀ {b c}, b ≠ [] → find (b ++ c) = none → find b = none)
    (hlocal : Local (atLine find limit body false)) :
    Limited (atLine find limit body) (Long find limit) where
  settled := hlocal
  agrees := by
    intro b h
    cases hb : find b with
    | none => simp [atLine, hb] at h
    | some nl => simp only [atLine, hb]
  guard := by
    intro b hne h
    cases hb : find b with
    | none =>
      by_cases hlen : limit < b.length
      · refine .inr ⟨by simp [atLine, hb, hlen], hlen, hfind (c := b.drop (limit + 1)) ?_ ?_⟩
        · intro hnil
          have := congrArg List.length hnil
          rw [length_take, length_nil] at this
          omega
        · rwa [take_append_drop]
      · exact .inl (by simp [atLine, hb, hlen])
    | some nl =>
      simp only [atLine, hb] at h ⊢
      exact .inl h
  stays := long_stays
  trips := by
    intro b h
    refine ⟨limit + 1, Nat.succ_pos _, by simp [atLine, h.2], ?_⟩
    have hlen : (b.take (limit + 1)).length = limit + 1 := length_take_of_le h.1
    rw [atLine, h.2]
    exact if_pos ⟨rfl, by omega⟩

theorem headerMove_limited : Limited headerMove (Long lineEnd kMaxLengthLine) :=
  limited_atLine lineEnd_append_none headerMove_local

theorem inlineMove_limited : Limited inlineMove (Long findLf kMaxInlineLine) :=
  limited_atLine (fun _ => findLf_append_none) inlineMove_local

theorem bulkMove_limited (left : Nat) (args : List Bytes) :
    Limited (bulkMove left args) (Long lineEnd kMaxLengthLine) :=
  limited_atLine lineEnd_append_none (bulkMove_local left args)

/-- The buffer starts with a line that the limits do not wait for. -/
def Over : Mode → Bytes → Prop
  | _, [] => False
  | .idle, c :: rest =>
    if isNewline c then False
    else if c = 42 then Long lineEnd kMaxLengthLine (c :: rest)
    else Long findLf kMaxInlineLine (c :: rest)
  | .bulk _ _, c :: rest => c = 36 ∧ Long lineEnd kMaxLengthLine (c :: rest)

/-- The first byte selects the look. -/
inductive Selects (s : Mode) (c : UInt8) : Prop where
  | skip : (∀ limited rest, move limited s (c :: rest) = .take 1 .idle []) →
      (∀ rest, ¬ Over s (c :: rest)) → Selects s c
  | reject : (∀ limited rest, move limited s (c :: rest) = .fail) →
      (∀ rest, ¬ Over s (c :: rest)) → Selects s c
  | look (look : Bool → Bytes → RespMove) (LongLine : Bytes → Prop) : Limited look LongLine →
      (∀ limited rest, move limited s (c :: rest) = look limited (c :: rest)) →
      (∀ rest, Over s (c :: rest) ↔ LongLine (c :: rest)) → Selects s c

theorem selects (s : Mode) (c : UInt8) : Selects s c := by
  cases s with
  | idle =>
    cases hc : isNewline c with
    | true => exact .skip (by simp [move, hc]) (by simp [Over, hc])
    | false =>
      by_cases hstar : c = 42
      · exact .look _ _ headerMove_limited (by simp [move, hstar, isNewline])
          (by simp [Over, hstar, isNewline])
      · exact .look _ _ inlineMove_limited (by simp [move, hc, hstar]) (by simp [Over, hc, hstar])
  | bulk left args =>
    by_cases hdollar : c = 36
    · exact .look _ _ (bulkMove_limited left args) (by simp [move, hdollar])
        (by simp [Over, hdollar])
    · exact .reject (by simp [move, hdollar]) (by simp [Over, hdollar])

theorem move_nil (limited : Bool) (s : Mode) : move limited s [] = .more := by cases s <;> rfl

theorem over_ne_nil {s : Mode} {b : Bytes} (h : Over s b) : ∃ c rest, b = c :: rest := by
  cases b with
  | nil => cases s <;> exact h.elim
  | cons c rest => exact ⟨c, rest, rfl⟩

theorem move_settled : Settled (move false) where
  take_pos := by
    intro s b n s' out h
    cases b with
    | nil =>
      rw [move_nil] at h
      cases h
    | cons c rest =>
      cases selects s c with
      | skip hmove =>
        rw [hmove] at h
        cases h
        simp
      | reject hmove =>
        rw [hmove] at h
        cases h
      | look look _ hlim hmove =>
        rw [hmove] at h
        exact ⟨(hlim.settled.take h).1, (hlim.settled.take h).2.1⟩
  take_own := by
    intro s b n s' out h c'
    cases b with
    | nil =>
      rw [move_nil] at h
      cases h
    | cons c rest =>
      cases selects s c with
      | skip hmove =>
        rw [hmove] at h
        cases h
        exact hmove false _
      | reject hmove =>
        rw [hmove] at h
        cases h
      | look look _ hlim hmove =>
        rw [hmove] at h
        obtain ⟨hpos, hle, hsame⟩ := hlim.settled.take h
        obtain ⟨n, rfl⟩ : ∃ m, n = m + 1 := ⟨n - 1, by omega⟩
        have hs := same_take hle c'
        rw [take_succ_cons, cons_append] at hs ⊢
        rw [hmove]
        exact hsame hs
  fail_stays := by
    intro s b h c'
    cases b with
    | nil =>
      rw [move_nil] at h
      cases h
    | cons c rest =>
      cases selects s c with
      | skip hmove =>
        rw [hmove] at h
        cases h
      | reject hmove => exact hmove false _
      | look look _ hlim hmove =>
        rw [hmove] at h
        obtain ⟨n, hle, hsame⟩ := hlim.settled.fail h
        rw [cons_append, hmove]
        exact hsame (same_append hle c')

/-- **The limits guard a settled reader.** -/
theorem move_guarded : Guarded (move false) (move true) Over where
  settled := move_settled
  agrees := by
    intro s b h
    cases b with
    | nil => exact absurd (move_nil false s) h
    | cons c rest =>
      cases selects s c with
      | skip hmove | reject hmove => rw [hmove, hmove]
      | look look _ hlim hmove =>
        rw [hmove] at h
        rw [hmove, hmove]
        exact hlim.agrees h
  guard := by
    intro s b h
    cases b with
    | nil => exact .inl (move_nil true s)
    | cons c rest =>
      cases selects s c with
      | skip hmove =>
        rw [hmove] at h
        cases h
      | reject hmove =>
        rw [hmove] at h
        cases h
      | look look _ hlim hmove hover =>
        rw [hmove] at h
        rw [hmove, hover]
        exact hlim.guard (cons_ne_nil c rest) h
  over_stays := by
    intro s b h c'
    obtain ⟨c, rest, rfl⟩ := over_ne_nil h
    cases selects s c with
    | skip _ hover | reject _ hover => exact absurd h (hover rest)
    | look look _ hlim _ hover =>
      rw [cons_append]
      exact (hover _).mpr (hlim.stays ((hover rest).mp h) c')
  over_trips := by
    intro s b h
    obtain ⟨c, rest, rfl⟩ := over_ne_nil h
    cases selects s c with
    | skip _ hover | reject _ hover => exact absurd h (hover rest)
    | look look _ hlim hmove hover =>
      obtain ⟨n, hpos, hmore, hfail⟩ := hlim.trips ((hover rest).mp h)
      obtain ⟨n, rfl⟩ : ∃ m, n = m + 1 := ⟨n - 1, by omega⟩
      rw [take_succ_cons] at hmore hfail
      refine ⟨(c :: rest).take (n + 1), (c :: rest).drop (n + 1),
        (take_append_drop _ _).symm, ?_, ?_⟩
      · rw [take_succ_cons, hmove, hmore]
      · rw [take_succ_cons, hmove, hfail]

end BedrockKV.Resp
