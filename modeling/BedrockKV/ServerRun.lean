/-
# `BedrockKV.ServerRun` — what holds along every schedule of a connection

Whatever the chunks and the short writes are, the cursor stays aligned: what
the socket has taken and what is left of `out` behind the cursor are together
the replies so far (`Aligned`), and the loop that serves a chunk ends
(`serve_returns`).  What goes wrong is not in the buffer but in
`HandleReadable`, which serves a closing connection like any other.  So the
results ask of each step that it does not do that:

    closing, and no byte is served       nothing more is done        (`run_closing`)
    refused, and no byte is served       replies, then the refusal   (`run_replies`)
    no input while closing or while the
      sent prefix is longer than L       both buffers stay bounded   (`run_memory`)
-/
import BedrockKV.Lib.Loop
import BedrockKV.Lib.Run
import BedrockKV.RespNext
import BedrockKV.Server

namespace BedrockKV

open List Resp

/-! ## The parser's buffer -/

namespace Resp.Parser

/-- The buffer of the parser that a round leaves. -/
def roundResult : Parser ⊕ (NextStatus × Parser) → Parser
  | .inl q => q
  | .inr r => r.2

theorem round_pending_le (p : Parser) : (roundResult p.round).pending ≤ p.pending := by
  have hcompact : p.compact.pending ≤ p.pending := by
    unfold compact
    dsimp only
    split
    · simp [pending]
    · exact le_rfl
  have hheader : ∀ q : Parser, (roundResult q.header).pending ≤ q.pending := by
    intro q
    unfold header
    split
    · split <;> exact le_rfl
    · split
      · exact le_rfl
      · split
        · exact le_rfl
        · split <;> simp [roundResult, pending]
  have hinline : ∀ q : Parser, q.nextInline.2.pending ≤ q.pending := by
    intro q
    unfold nextInline
    split
    · split <;> exact le_rfl
    · dsimp only
      split <;> simp [pending]
  have hpush : ∀ start len, (roundResult (p.pushArg start len)).pending ≤ p.pending := by
    intro start len
    unfold pushArg
    dsimp only
    split <;> simp [roundResult, pending]
  unfold round
  split
  · unfold idleRound
    split
    · exact hcompact
    · split
      · exact (hheader _).trans hcompact
      · exact (hinline _).trans hcompact
  · unfold bulkRound
    split
    · exact le_rfl
    · split
      · split
        · split <;> exact le_rfl
        · split
          · exact le_rfl
          · dsimp only
            split
            · exact le_rfl
            · split
              · exact le_rfl
              · split
                · exact hpush _ _
                · exact le_rfl
      · exact le_rfl

/-- **`Next` never makes the buffer longer.** -/
theorem next_pending_le (p : Parser) : p.next.2.pending ≤ p.pending := by
  have hloop : ∀ (fuel : Nat) (p : Parser), (nextLoop fuel p).2.pending ≤ p.pending := by
    intro fuel
    induction fuel with
    | zero => exact fun p => le_rfl
    | succ fuel ih =>
      intro p
      have hround := round_pending_le p
      rw [nextLoop]
      cases hr : p.round with
      | inl q =>
        rw [hr] at hround
        exact (ih q).trans hround
      | inr r =>
        rw [hr] at hround
        exact hround
  exact hloop _ p

end Resp.Parser

namespace Server

namespace Peer

variable {σ : Type} {store : Store σ} {p p' : Peer σ}

/-- The replies of what was done, in order. -/
def replies (acts : List Action) : Bytes := acts.flatMap Action.reply

/-- A refusal comes last. -/
def Orderly : List Action → Prop
  | [] => True
  | .executed _ _ :: acts => Orderly acts
  | .refused _ :: acts => acts = []

def Refused (acts : List Action) : Prop := ∃ reply, Action.refused reply ∈ acts

theorem Orderly.append {a b : List Action} (ha : ¬ Refused a) (hb : Orderly b) :
    Orderly (a ++ b) := by
  induction a with
  | nil => exact hb
  | cons x a ih =>
    cases x with
    | executed args reply => exact ih fun ⟨r, hr⟩ => ha ⟨r, mem_cons_of_mem _ hr⟩
    | refused reply => exact absurd ⟨reply, mem_cons_self⟩ ha

/-! ## Serving -/

/-- `p'` is `p` after `acts` were done for the client. -/
structure Does (p : Peer σ) (acts : List Action) (p' : Peer σ) : Prop where
  done : p'.done = p.done ++ acts
  out : p'.conn.out = p.conn.out ++ replies acts
  off : p'.conn.outOff = p.conn.outOff
  sent : p'.sent = p.sent
  closing : p.conn.closing = true → p'.conn.closing = true

theorem Does.nil (hdone : p'.done = p.done) (hout : p'.conn.out = p.conn.out)
    (hoff : p'.conn.outOff = p.conn.outOff) (hsent : p'.sent = p.sent)
    (hclosing : p.conn.closing = true → p'.conn.closing = true) : Does p [] p' :=
  ⟨by rw [hdone, append_nil], by rw [hout, replies, flatMap_nil, append_nil], hoff, hsent, hclosing⟩

theorem Does.trans {p₁ p₂ p₃ : Peer σ} {a b : List Action} (h : Does p₁ a p₂) (h' : Does p₂ b p₃) :
    Does p₁ (a ++ b) p₃ :=
  ⟨by rw [h'.done, h.done, append_assoc],
    by rw [h'.out, h.out, append_assoc, replies, replies, replies, flatMap_append],
    h'.off.trans h.off, h'.sent.trans h.sent, fun hc => h'.closing (h.closing hc)⟩

/-- What a round does, and with what it goes on. -/
inductive Round (store : Store σ) (p : Peer σ) : Peer σ ⊕ Peer σ → Prop where
  | waits {q : Parser} : p.conn.parser.next = (.needMore, q) →
      Round store p (.inl (p.withParser q))
  | refuses {q : Parser} {message : Bytes} : p.conn.parser.next = (.error message, q) →
      Round store p
        (.inl ((p.withParser q).append (.refused (error (ascii "ERR " ++ message)))).close)
  | sheds {q : Parser} {args : List Bytes} {reply : Bytes} {db : σ} :
      p.conn.parser.next = (.request args, q) → execute store args p.db = (reply, db) →
      Round store p (.inl (close { (p.withParser q).append (.executed args reply) with db := db }))
  | answers {q : Parser} {args : List Bytes} {reply : Bytes} {db : σ} :
      p.conn.parser.next = (.request args, q) → execute store args p.db = (reply, db) →
      (p.conn.out ++ reply).length - p.conn.outOff ≤ kMaxOutBytes →
      Round store p (.inr { (p.withParser q).append (.executed args reply) with db := db })

theorem serveRound_round (store : Store σ) (p : Peer σ) : Round store p (p.serveRound store) := by
  unfold serveRound
  split
  · next h => exact .waits h
  · next h => exact .refuses h
  · next args q h =>
    dsimp only
    split
    · exact .sheds h rfl
    · next hle => exact .answers h rfl (Nat.le_of_not_lt hle)

/-- **The inner loop ends**, since a request takes bytes off the parser. -/
theorem serve_returns (hp : p.conn.parser.Ok) :
    Loop.Returns (serveRound store) p (p.serve store) := by
  refine @Loop.returns_of_measure _ _ _ (serveLoop store) (fun p => p.conn.parser.pending)
    (fun p => p.conn.parser.Ok) (fun _ _ => rfl) ?_ _ p hp (Nat.lt_succ_self _)
  intro p p' hp hround
  have hr := serveRound_round store p
  rw [hround] at hr
  cases hr with
  | answers hnext =>
    have hret := Parser.next_returned hp
    rw [hnext] at hret
    cases hret with
    | request hq _ hlt => exact ⟨hq, hlt⟩

/-- What serving a chunk does: requests are answered, and a refusal ends it. -/
structure Serves (p : Peer σ) (acts : List Action) (p' : Peer σ) : Prop extends Does p acts p' where
  orderly : Orderly acts
  refused : Refused acts → p'.conn.closing = true

theorem does_append (p : Peer σ) (q : Parser) (a : Action) (db : σ) :
    Does p [a] { (p.withParser q).append a with db := db } :=
  ⟨rfl, by simp [append, withParser, replies], rfl, rfl, id⟩

theorem Does.close {acts : List Action} (h : Does p acts p') : Does p acts p'.close :=
  ⟨h.done, h.out, h.off, h.sent, fun _ => rfl⟩

theorem serveLoop_serves (store : Store σ) (fuel : Nat) :
    ∀ p : Peer σ, ∃ acts, Serves p acts (serveLoop store fuel p) := by
  induction fuel with
  | zero => exact fun p => ⟨[], .nil rfl rfl rfl rfl id, trivial,
      fun ⟨_, h⟩ => absurd h not_mem_nil⟩
  | succ fuel ih =>
    intro p
    have hround := serveRound_round store p
    rw [serveLoop]
    generalize p.serveRound store = r at hround
    cases hround with
    | waits _ => exact ⟨[], .nil rfl rfl rfl rfl id, trivial, fun ⟨_, h⟩ => absurd h not_mem_nil⟩
    | @refuses q message _ =>
      exact ⟨_, (does_append p q (.refused (error (ascii "ERR " ++ message))) p.db).close, rfl,
        fun _ => rfl⟩
    | @sheds q args reply db _ =>
      exact ⟨_, (does_append p q (.executed args reply) db).close, trivial, fun _ => rfl⟩
    | @answers q args reply db _ =>
      obtain ⟨acts, hacts⟩ := ih { (p.withParser q).append (.executed args reply) with db := db }
      refine ⟨_, (does_append p q (.executed args reply) db).trans hacts.toDoes, hacts.orderly, ?_⟩
      rintro ⟨r, hr⟩
      rcases mem_cons.mp hr with hr | hr
      · cases hr
      · exact hacts.refused ⟨r, hr⟩

theorem readLoop_serves (store : Store σ) (reads : List ReadResult) : ∀ p : Peer σ, ∃ acts,
    Serves p acts (readLoop store reads p).1 := by
  have hnone : ∀ p : Peer σ, Serves p [] p := fun p =>
    ⟨.nil rfl rfl rfl rfl id, trivial, fun ⟨_, h⟩ => absurd h not_mem_nil⟩
  induction reads with
  | nil => exact fun p => ⟨[], hnone p⟩
  | cons r reads ih =>
    intro p
    cases r with
    | eintr => exact ih p
    | eagain | eof | failed => exact ⟨[], hnone p⟩
    | data chunk =>
      rw [readLoop]
      dsimp only
      split
      · exact ⟨[], Does.nil rfl rfl rfl rfl fun _ => rfl, trivial,
          fun ⟨_, h⟩ => absurd h not_mem_nil⟩
      · obtain ⟨acts, hacts⟩ := serveLoop_serves store
          ((p.feed chunk.bytes).conn.parser.pending + 1) (p.feed chunk.bytes)
        have hfeed : Serves p acts ((p.feed chunk.bytes).serve store) :=
          ⟨⟨hacts.done, hacts.out, hacts.off, hacts.sent, hacts.closing⟩, hacts.orderly,
            hacts.refused⟩
        split
        · exact ⟨acts, hfeed⟩
        · next hopen =>
          split
          · exact ⟨acts, hfeed⟩
          · obtain ⟨acts', hacts'⟩ := ih ((p.feed chunk.bytes).serve store)
            have hno : ¬ Refused acts := fun h => hopen (hfeed.refused h)
            refine ⟨acts ++ acts', hfeed.toDoes.trans hacts'.toDoes,
              Orderly.append hno hacts'.orderly, ?_⟩
            rintro ⟨r, hr⟩
            rcases mem_append.mp hr with hr | hr
            · exact absurd ⟨r, hr⟩ hno
            · exact hacts'.refused ⟨r, hr⟩

/-! ## Flushing -/

/-- `p'` is `p` after the socket has taken `n` bytes. -/
structure Sends (p : Peer σ) (n : Nat) (p' : Peer σ) : Prop where
  parser : p'.conn.parser = p.conn.parser
  out : p'.conn.out = p.conn.out
  closing : p'.conn.closing = p.conn.closing
  off : p'.conn.outOff = p.conn.outOff + n
  sent : p'.sent = p.sent ++ (p.conn.out.drop p.conn.outOff).take n
  done : p'.done = p.done
  peakOut : p'.peakOut = p.peakOut
  peakIn : p'.peakIn = p.peakIn

theorem Sends.trans {p₁ p₂ p₃ : Peer σ} {m n : Nat} (h : Sends p₁ m p₂) (h' : Sends p₂ n p₃) :
    Sends p₁ (m + n) p₃ where
  parser := h'.parser.trans h.parser
  out := h'.out.trans h.out
  closing := h'.closing.trans h.closing
  off := by rw [h'.off, h.off, Nat.add_assoc]
  sent := by rw [h'.sent, h.sent, h.out, h.off, append_assoc, ← drop_drop, take_add]
  done := h'.done.trans h.done
  peakOut := h'.peakOut.trans h.peakOut
  peakIn := h'.peakIn.trans h.peakIn

theorem sends_take (p : Peer σ) (n : Nat) : Sends p (min n p.backlog) (p.take n) := by
  refine ⟨rfl, rfl, rfl, rfl, ?_, rfl, rfl, rfl⟩
  rw [take, take_eq_take_min, length_drop]
  rfl

/-- The loop sends a part of what is left; when it ends by itself, all of it. -/
theorem flushLoop_sends (writes : List WriteResult) : ∀ p : Peer σ,
    p.conn.outOff ≤ p.conn.out.length →
    ∃ n, Sends p n (flushLoop writes p).1 ∧ n ≤ p.backlog ∧
      ∀ p', flushLoop writes p = (p', .all) → n = p.backlog := by
  have hnone : ∀ p : Peer σ, Sends p 0 p := fun p =>
    ⟨rfl, rfl, rfl, rfl, by simp, rfl, rfl, rfl⟩
  have hend : ∀ p : Peer σ, ¬ p.conn.outOff < p.conn.out.length → 0 = p.backlog := by
    intro p h
    unfold backlog
    omega
  induction writes with
  | nil =>
    intro p _
    rw [flushLoop]
    split
    · exact ⟨0, hnone p, Nat.zero_le _, fun p' h => by cases h⟩
    · next h => exact ⟨0, hnone p, Nat.zero_le _, fun _ _ => hend p h⟩
  | cons w writes ih =>
    intro p hp
    rw [flushLoop.eq_def]
    dsimp only
    split
    · cases w with
      | eintr => exact ih p hp
      | eagain | failed => exact ⟨0, hnone p, Nat.zero_le _, fun p' h => by cases h⟩
      | wrote n =>
        have htake := sends_take p n
        have hoff : (p.take n).conn.outOff = p.conn.outOff + min n p.backlog := htake.off
        have hout : (p.take n).conn.out = p.conn.out := htake.out
        have hback : p.backlog = p.conn.out.length - p.conn.outOff := rfl
        have hback' : (p.take n).backlog =
            (p.take n).conn.out.length - (p.take n).conn.outOff := rfl
        rw [hout] at hback'
        obtain ⟨m, hm, hle, hall⟩ := ih (p.take n) (by
          rw [hout]
          omega)
        refine ⟨min n p.backlog + m, htake.trans hm, by omega, fun p' h => ?_⟩
        have := hall p' h
        omega
    · next h => exact ⟨0, hnone p, Nat.zero_le _, fun _ _ => hend p h⟩

/-- What `FlushOut` leaves: it sends a part of what is left, or all of it and
forgets it. -/
structure FlushesTo (p m p' : Peer σ) : Prop where
  sends : ∃ n, Sends p n m ∧ n ≤ p.backlog
  conn : p'.conn = m.conn ∨
    m.conn.out.length ≤ m.conn.outOff ∧ p'.conn = { m.conn with out := [], outOff := 0 }
  sent : p'.sent = m.sent
  done : p'.done = m.done
  peakOut : p'.peakOut = m.peakOut
  peakIn : p'.peakIn = m.peakIn

theorem register_frame (p : Peer σ) (out ok : Bool) : (p.register out ok).conn = p.conn ∧
    (p.register out ok).sent = p.sent ∧ (p.register out ok).done = p.done ∧
    (p.register out ok).peakOut = p.peakOut ∧ (p.register out ok).peakIn = p.peakIn := by
  unfold register
  split <;> exact ⟨rfl, rfl, rfl, rfl, rfl⟩

theorem compact_conn (h : p.conn.out.length ≤ p.conn.outOff) :
    p.compact.conn = { p.conn with out := [], outOff := 0 } := by
  unfold compact
  split
  · simp [drop_eq_nil_of_le h]
  · next hzero =>
    have hoff : p.conn.outOff = 0 := Nat.eq_zero_of_not_pos hzero
    have hout : p.conn.out = [] := eq_nil_of_length_eq_zero (by omega)
    obtain ⟨⟨parser, out, off, closing⟩, _⟩ := p
    dsimp only at hoff hout
    rw [hoff, hout]

theorem compact_frame (p : Peer σ) : p.compact.sent = p.sent ∧ p.compact.done = p.done ∧
    p.compact.peakOut = p.peakOut ∧ p.compact.peakIn = p.peakIn := by
  unfold compact
  split <;> exact ⟨rfl, rfl, rfl, rfl⟩

/-- **`FlushOut`.** -/
theorem flushOut_flushes (hp : p.conn.outOff ≤ p.conn.out.length) (writes : List WriteResult)
    (ctl : Bool) : ∃ m, FlushesTo p m (p.flushOut writes ctl) := by
  obtain ⟨n, hn, hle, hall⟩ := flushLoop_sends writes p hp
  unfold flushOut
  generalize flushLoop writes p = r at hn hall
  obtain ⟨m, e⟩ := r
  refine ⟨m, ?_⟩
  cases e with
  | broken => exact ⟨⟨n, hn, hle⟩, .inl rfl, rfl, rfl, rfl, rfl⟩
  | blocked =>
    obtain ⟨hconn, hsent, hdone, hpo, hpi⟩ := register_frame m true ctl
    exact ⟨⟨n, hn, hle⟩, .inl hconn, hsent, hdone, hpo, hpi⟩
  | all =>
    have hend : m.conn.out.length ≤ m.conn.outOff := by
      have hoff : m.conn.outOff = p.conn.outOff + n := hn.off
      have hout : m.conn.out = p.conn.out := hn.out
      have := hall m rfl
      unfold backlog at this
      rw [hout]
      omega
    obtain ⟨hsent, hdone, hpo, hpi⟩ := compact_frame m
    dsimp only
    split
    · exact ⟨⟨n, hn, hle⟩, .inr ⟨hend, compact_conn hend⟩, hsent, hdone, hpo, hpi⟩
    · obtain ⟨hconn, hsent', hdone', hpo', hpi'⟩ := register_frame m.compact false ctl
      exact ⟨⟨n, hn, hle⟩, .inr ⟨hend, hconn.trans (compact_conn hend)⟩, hsent'.trans hsent,
        hdone'.trans hdone, hpo'.trans hpo, hpi'.trans hpi⟩

/-! ## The cursor -/

/-- **No reply byte is lost, doubled or moved**: the bytes sent and those behind
the cursor are the replies. -/
structure Aligned (p : Peer σ) : Prop where
  off : p.conn.outOff ≤ p.conn.out.length
  bytes : p.sent ++ p.conn.out.drop p.conn.outOff = replies p.done

theorem accepted_aligned (db : σ) : (accepted db).Aligned := ⟨le_rfl, rfl⟩

theorem Aligned.does (ha : p.Aligned) {acts : List Action} (h : Does p acts p') : p'.Aligned := by
  refine ⟨?_, ?_⟩
  · rw [h.off, h.out, length_append]
    exact Nat.le_add_right_of_le ha.off
  · rw [h.sent, h.off, h.out, h.done, drop_append_of_le_length ha.off, ← append_assoc,
      ha.bytes, replies, replies, replies, flatMap_append]

theorem Aligned.sends (ha : p.Aligned) {n : Nat} (h : Sends p n p') (hn : n ≤ p.backlog) :
    p'.Aligned := by
  have hoff := ha.off
  unfold backlog at hn
  refine ⟨?_, ?_⟩
  · rw [h.off, h.out]
    omega
  · rw [h.sent, h.out, h.off, h.done, append_assoc, ← drop_drop, take_append_drop, ha.bytes]

theorem Aligned.flushes (ha : p.Aligned) {m : Peer σ} (h : FlushesTo p m p') : p'.Aligned := by
  obtain ⟨n, hn, hle⟩ := h.sends
  have hm := ha.sends hn hle
  rcases h.conn with hconn | ⟨hend, hconn⟩
  · refine ⟨by rw [hconn]; exact hm.off, ?_⟩
    rw [h.sent, hconn, h.done, hm.bytes]
  · refine ⟨by rw [hconn]; exact Nat.zero_le _, ?_⟩
    have hbytes := hm.bytes
    rw [drop_eq_nil_of_le hend] at hbytes
    rw [h.sent, hconn, h.done]
    exact hbytes

theorem FlushesTo.frame {m : Peer σ} (h : FlushesTo p m p') :
    p'.conn.parser = p.conn.parser ∧ p'.conn.closing = p.conn.closing ∧ p'.done = p.done ∧
      p'.peakOut = p.peakOut ∧ p'.peakIn = p.peakIn := by
  obtain ⟨n, hn, -⟩ := h.sends
  refine ⟨?_, ?_, h.done.trans hn.done, h.peakOut.trans hn.peakOut, h.peakIn.trans hn.peakIn⟩
  · rcases h.conn with hconn | ⟨-, hconn⟩ <;> rw [hconn] <;> exact hn.parser
  · rcases h.conn with hconn | ⟨-, hconn⟩ <;> rw [hconn] <;> exact hn.closing

/-! ## Events -/

section Events

variable {ev : Event σ}

/-- The connection after the part of an event that serves the client. -/
def served (store : Store σ) (p : Peer σ) : Event σ → Peer σ
  | .readable reads _ _ => (readLoop store reads p).1
  | _ => p

theorem served_serves (store : Store σ) (p : Peer σ) (ev : Event σ) :
    ∃ acts, Serves p acts (p.served store ev) := by
  have hnone : Serves p [] p :=
    ⟨.nil rfl rfl rfl rfl id, trivial, fun ⟨_, h⟩ => absurd h not_mem_nil⟩
  cases ev with
  | readable reads writes ctl => exact readLoop_serves store reads p
  | writable | hangup | other => exact ⟨[], hnone⟩

theorem flushes_refl (p : Peer σ) (h : p'.conn = p.conn ∧ p'.sent = p.sent ∧ p'.done = p.done ∧
    p'.peakOut = p.peakOut ∧ p'.peakIn = p.peakIn) : FlushesTo p p p' :=
  ⟨⟨0, ⟨rfl, rfl, rfl, rfl, by simp, rfl, rfl, rfl⟩, Nat.zero_le _⟩, Or.inl h.1, h.2.1, h.2.2.1,
    h.2.2.2.1, h.2.2.2.2⟩

/-- **An event serves the client, then flushes.** -/
theorem step_flushes (ha : p.Aligned) (hs : p.step store ev = some p') :
    ∃ m, FlushesTo (p.served store ev) m p' := by
  obtain ⟨acts, hacts⟩ := served_serves store p ev
  have hoff := (ha.does hacts.toDoes).off
  unfold step at hs
  split at hs
  · cases hs
  · cases ev with
    | readable reads writes ctl =>
      cases hs
      rw [served] at hoff ⊢
      unfold handleReadable
      generalize readLoop store reads p = r at hoff
      obtain ⟨p₁, alive⟩ := r
      cases alive with
      | true => exact flushOut_flushes hoff writes ctl
      | false => exact ⟨p₁, flushes_refl p₁ ⟨rfl, rfl, rfl, rfl, rfl⟩⟩
    | writable writes ctl =>
      dsimp only at hs
      split at hs
      · cases hs
        exact flushOut_flushes hoff writes ctl
      · cases hs
    | hangup | other db =>
      cases hs
      exact ⟨p, flushes_refl p ⟨rfl, rfl, rfl, rfl, rfl⟩⟩

theorem Aligned.step (ha : p.Aligned) (hs : p.step store ev = some p') : p'.Aligned := by
  obtain ⟨acts, hacts⟩ := served_serves store p ev
  obtain ⟨m, hm⟩ := step_flushes ha hs
  exact (ha.does hacts.toDoes).flushes hm

theorem run_aligned {db : σ} {tr : List (Event σ)}
    (hrun : Machine.run (step store) (accepted db) tr = some p) : p.Aligned :=
  Machine.run_invariant (fun _ p => p.Aligned) (accepted_aligned db)
    (fun _ _ _ _ ha hs => ha.step hs) hrun

/-! ## A closing connection -/

/-- The first bytes that the reads of an event deliver. -/
def firstChunk : List ReadResult → Option Bytes
  | .eintr :: reads => firstChunk reads
  | .data chunk :: _ => some chunk.bytes
  | _ => none

/-- The event brings nothing that would be served: no bytes, too many, or ones
after which the parser still waits. -/
def Unserved (p : Peer σ) : Event σ → Prop
  | .readable reads _ _ => ∀ bytes, firstChunk reads = some bytes →
      kMaxInBytes < (p.conn.parser.feed bytes).pending ∨
        (p.conn.parser.feed bytes).next.1 = .needMore
  | _ => True

theorem readLoop_unserved (hclosing : p.conn.closing = true) {reads : List ReadResult}
    {writes : List WriteResult} {ctl : Bool} (h : Unserved p (.readable reads writes ctl)) :
    Does p [] (readLoop store reads p).1 := by
  have hnone : Does p [] p := .nil rfl rfl rfl rfl id
  induction reads with
  | nil => exact hnone
  | cons r reads ih =>
    cases r with
    | eintr => exact ih h
    | eagain | eof | failed => exact hnone
    | data chunk =>
      rw [readLoop]
      dsimp only
      split
      · exact .nil rfl rfl rfl rfl fun _ => rfl
      · next hcap =>
        have hmore : (p.feed chunk.bytes).conn.parser.next.1 = .needMore :=
          (h chunk.bytes rfl).resolve_left hcap
        have hserve : (p.feed chunk.bytes).serve store =
            (p.feed chunk.bytes).withParser (p.feed chunk.bytes).conn.parser.next.2 := by
          have hround := serveRound_round store (p.feed chunk.bytes)
          unfold serve
          rw [serveLoop]
          generalize (p.feed chunk.bytes).serveRound store = r at hround
          cases hround with
          | waits hnext =>
            rw [hnext]
            rfl
          | refuses hnext | sheds hnext | answers hnext =>
            rw [hnext] at hmore
            cases hmore
        have hstill : ((p.feed chunk.bytes).withParser
            (p.feed chunk.bytes).conn.parser.next.2).conn.closing = true := hclosing
        rw [hserve, if_pos hstill]
        exact .nil rfl rfl rfl rfl id

theorem served_unserved (hclosing : p.conn.closing = true) (h : Unserved p ev) :
    Does p [] (p.served store ev) := by
  cases ev with
  | readable reads writes ctl => exact readLoop_unserved hclosing h
  | writable | hangup | other => exact .nil rfl rfl rfl rfl id

theorem step_unserved (ha : p.Aligned) (hclosing : p.conn.closing = true) (h : Unserved p ev)
    (hs : p.step store ev = some p') : p'.done = p.done ∧ p'.conn.closing = true := by
  have hdoes := @served_unserved _ store _ _ hclosing h
  obtain ⟨m, hm⟩ := step_flushes ha hs
  obtain ⟨-, hc, hdone, -⟩ := hm.frame
  exact ⟨by rw [hdone, hdoes.done, append_nil], hc.trans (hdoes.closing hclosing)⟩

/-- **A closing connection.**  Once `closing` is set, in every run whose events
bring a closing connection nothing that would be served: no command is executed
and no reply is appended any more. -/
theorem run_closing {db : σ} {before after : List (Event σ)}
    (hbefore : Machine.run (step store) (accepted db) before = some p)
    (hclosing : p.conn.closing = true)
    (hmeets : Machine.Meets (step store)
      (fun p ev => p.conn.closing = true → Unserved p ev) p after)
    (hafter : Machine.run (step store) p after = some p') : p'.done = p.done := by
  have hinv := Machine.meets_invariant
    (fun _ q => q.Aligned ∧ q.done = p.done ∧ q.conn.closing = true)
    ⟨run_aligned hbefore, rfl, hclosing⟩ (fun _ q ev q' hq hmeet hs => ?_) hmeets hafter
  · exact hinv.2.1
  · obtain ⟨ha, hdone, hc⟩ := hq
    obtain ⟨hdone', hc'⟩ := step_unserved ha hc (hmeet hc) hs
    exact ⟨ha.step hs, hdone'.trans hdone, hc'⟩

end Events

/-- A store with nothing in it. -/
def nullStore : Store Unit :=
  ⟨fun _ _ => (.error ⟨.notFound, []⟩, ()), fun _ _ _ => (.ok (), ()), fun _ _ => (.ok (), ())⟩

/-- A number line that is none. -/
def garbled : Chunk := ⟨ascii "*x\r\n", by decide, by decide⟩

/-- The client sends it and takes nothing of the answer. -/
def refuse : Event Unit := .readable [.data garbled] [.eagain] true

theorem unserved_of_none {σ : Type} {p : Peer σ} {reads : List ReadResult}
    {writes : List WriteResult} {ctl : Bool} (h : firstChunk reads = none) :
    Unserved p (.readable reads writes ctl) := by
  intro bytes hbytes
  rw [h] at hbytes
  cases hbytes

/-- The client lets the refusal lie, then takes it. -/
theorem run_closing_quiet : ∃ p p', Machine.run (step nullStore) (accepted ()) [refuse] = some p ∧
    p.conn.closing = true ∧
    Machine.run (step nullStore) p
      [.readable [.eintr] [.wrote 3] true, .writable [.wrote 99] true] =
      some p' ∧ p'.closed = true ∧ p'.done = p.done := by
  have hobs : (Machine.run (step nullStore) (accepted ()) [refuse]).map (fun p => p.conn.closing) =
      some true := by decide +kernel
  obtain ⟨p, hp, hclosing⟩ := Option.map_eq_some_iff.mp hobs
  have hobs' : (Machine.run (step nullStore) (accepted ()) ([refuse] ++
      [.readable [.eintr] [.wrote 3] true, .writable [.wrote 99] true])).map Peer.closed =
      some true := by decide +kernel
  obtain ⟨p', hp', hclosed⟩ := Option.map_eq_some_iff.mp hobs'
  obtain ⟨q, hq, hafter⟩ := Machine.run_append.mp hp'
  obtain rfl : p = q := Option.some.inj (hp.symm.trans hq)
  refine ⟨p, p', hp, hclosing, hafter, hclosed, run_closing hp hclosing ?_ hafter⟩
  exact ⟨fun _ => unserved_of_none rfl, fun _ _ => ⟨fun _ => trivial, fun _ _ => trivial⟩⟩

/-- **The client sends more** while its refusal waits: it is refused again. -/
theorem run_closing_again : ∃ p p',
    Machine.run (step nullStore) (accepted ()) [refuse] = some p ∧ p.conn.closing = true ∧
    Machine.run (step nullStore) p [.readable [.data garbled] [.eagain] true] = some p' ∧
    p'.done ≠ p.done := by
  have hobs : (Machine.run (step nullStore) (accepted ()) [refuse]).map
      (fun p => (p.conn.closing, p.done.length)) = some (true, 1) := by decide +kernel
  have hobs' : (Machine.run (step nullStore) (accepted ()) ([refuse] ++ [refuse])).map
      (fun p => p.done.length) = some 2 := by decide +kernel
  obtain ⟨p, hp, h⟩ := Option.map_eq_some_iff.mp hobs
  obtain ⟨p', hp', h'⟩ := Option.map_eq_some_iff.mp hobs'
  obtain ⟨q, hq, hafter⟩ := Machine.run_append.mp hp'
  obtain rfl : p = q := Option.some.inj (hp.symm.trans hq)
  obtain ⟨hclosing, hone⟩ := Prod.mk.inj h
  refine ⟨p, p', hp, hclosing, hafter, fun hdone => ?_⟩
  rw [hdone, hone] at h'
  cases h'

section Events

variable {ev : Event σ}

/-! ## Replies -/

/-- One reply for each request that the parser returned. -/
def requestReplies (acts : List Action) : Bytes :=
  acts.flatMap fun
    | .executed _ reply => reply
    | .refused _ => []

/-- The reply for the protocol error, if there was one. -/
def refusal : List Action → Bytes
  | [] => []
  | .executed _ _ :: acts => refusal acts
  | .refused reply :: _ => reply

theorem Orderly.replies {acts : List Action} (h : Orderly acts) :
    replies acts = requestReplies acts ++ refusal acts := by
  induction acts with
  | nil => rfl
  | cons a acts ih =>
    cases a with
    | executed args reply =>
      have hrest := ih h
      simp only [Peer.replies, requestReplies, flatMap_cons, refusal, Action.reply,
        append_assoc] at hrest ⊢
      rw [hrest]
    | refused reply =>
      obtain rfl : acts = [] := h
      simp [Peer.replies, requestReplies, refusal, Action.reply]

/-- In every state: the replies in order, a refusal last. -/
structure Answers (p : Peer σ) : Prop where
  aligned : p.Aligned
  orderly : Orderly p.done
  closing : Refused p.done → p.conn.closing = true

theorem Answers.step (ha : p.Answers) (hmeet : Refused p.done → Unserved p ev)
    (hs : p.step store ev = some p') : p'.Answers := by
  by_cases href : Refused p.done
  · have hc := ha.closing href
    obtain ⟨hdone, hc'⟩ := step_unserved ha.aligned hc (hmeet href) hs
    exact ⟨ha.aligned.step hs, hdone ▸ ha.orderly, fun _ => hc'⟩
  · obtain ⟨acts, hacts⟩ := served_serves store p ev
    obtain ⟨m, hm⟩ := step_flushes ha.aligned hs
    obtain ⟨-, hc, hdone, -⟩ := hm.frame
    refine ⟨ha.aligned.step hs, ?_, fun href' => ?_⟩
    · rw [hdone, hacts.done]
      exact Orderly.append href hacts.orderly
    · rw [hc]
      rw [hdone, hacts.done] at href'
      obtain ⟨reply, hreply⟩ := href'
      rcases mem_append.mp hreply with hold | hnew
      · exact absurd ⟨reply, hold⟩ href
      · exact hacts.refused ⟨reply, hnew⟩

/-- **Replies.**  In every run whose events bring nothing that would be served
once the parser has refused the input: the bytes handed to the socket are a
prefix of the replies to the requests, in order, and the refusal behind them,
and all of it whenever `out` is empty. -/
theorem run_replies {db : σ} {tr : List (Event σ)}
    (hmeets : Machine.Meets (step store) (fun p ev => Refused p.done → Unserved p ev)
      (accepted db) tr)
    (hrun : Machine.run (step store) (accepted db) tr = some p) :
    p.sent <+: requestReplies p.done ++ refusal p.done ∧
      (p.conn.out = [] → p.sent = requestReplies p.done ++ refusal p.done) := by
  have hp : p.Answers := by
    refine Machine.meets_invariant (fun _ p => p.Answers)
      ⟨accepted_aligned db, trivial, fun ⟨_, h⟩ => absurd h List.not_mem_nil⟩ ?_ hmeets hrun
    exact fun _ _ _ _ ha hmeet hs => ha.step hmeet hs
  rw [← hp.orderly.replies, ← hp.aligned.bytes]
  refine ⟨List.prefix_append _ _, fun hout => ?_⟩
  rw [hout, List.drop_nil, List.append_nil]

end Events

/-- A request and a refusal, taken in two parts. -/
def answered : List (Event Unit) :=
  [.readable [.data ⟨ascii "PING\r\n*x\r\n", by decide, by decide⟩] [.wrote 9] true,
    .writable [.wrote 99] true]

theorem run_replies_answered : ∃ p, Machine.run (step nullStore) (accepted ()) answered = some p ∧
    p.conn.out = [] ∧ p.sent = requestReplies p.done ++ refusal p.done := by
  have hobs : (Machine.run (step nullStore) (accepted ()) answered).map (fun p => p.conn.out) =
      some [] := by decide +kernel
  obtain ⟨p, hp, hout⟩ := Option.map_eq_some_iff.mp hobs
  refine ⟨p, hp, hout, (run_replies ?_ hp).2 hout⟩
  exact ⟨fun ⟨_, h⟩ => absurd h List.not_mem_nil, fun _ _ => ⟨fun _ => trivial, fun _ _ => trivial⟩⟩

/-- **Two refusals are sent** where one is due. -/
theorem run_replies_again : ∃ p, Machine.run (step nullStore) (accepted ())
      [refuse, refuse, .writable [.wrote 200] true] = some p ∧
    ¬ p.sent <+: requestReplies p.done ++ refusal p.done := by
  have hobs : (Machine.run (step nullStore) (accepted ())
      [refuse, refuse, .writable [.wrote 200] true]).map
        (fun p => decide (p.sent <+: requestReplies p.done ++ refusal p.done)) = some false := by
    decide +kernel
  obtain ⟨p, hp, h⟩ := Option.map_eq_some_iff.mp hobs
  exact ⟨p, hp, of_decide_eq_false h⟩

section Events

variable {ev : Event σ}

/-! ## Memory -/

/-- Where the two buffers are, when no more than `L` bytes stay behind the
cursor and no reply is longer than `R`. -/
structure Fits (L R : Nat) (p : Peer σ) : Prop where
  backlog : p.conn.closing = false → p.backlog ≤ kMaxOutBytes
  pending : p.conn.closing = false → p.conn.parser.pending ≤ kMaxInBytes
  out : p.conn.out.length ≤ p.peakOut
  inp : p.conn.parser.pending ≤ p.peakIn
  peakOut : p.peakOut ≤ L + kMaxOutBytes + R
  peakIn : p.peakIn ≤ kMaxInBytes + kReadBytes

section Memory

variable {L R : Nat}

/-- Input may be served: the connection is open and the cursor not too far. -/
structure Ready (L : Nat) (p : Peer σ) : Prop where
  open_ : p.conn.closing = false
  off : p.conn.outOff ≤ L

theorem Fits.append (hf : Fits L R p) (hr : Ready L p) {a : Action} (ha : a.reply.length ≤ R)
    (q : Parser) (hq : q.pending ≤ p.conn.parser.pending) (db : σ) :
    ((p.conn.out ++ a.reply).length - p.conn.outOff ≤ kMaxOutBytes →
      Fits L R { (p.withParser q).append a with db := db }) ∧
    Fits L R (close { (p.withParser q).append a with db := db }) := by
  have hback := hf.backlog hr.open_
  have hpend := hf.pending hr.open_
  have hinp := hf.inp
  have hpo := hf.peakOut
  have hoff := hr.off
  unfold Peer.backlog at hback
  have hlen : (p.conn.out ++ a.reply).length ≤ L + kMaxOutBytes + R := by
    rw [length_append]
    omega
  have hpeak : max p.peakOut (p.conn.out ++ a.reply).length ≤ L + kMaxOutBytes + R :=
    max_le hpo hlen
  refine ⟨fun hle => ⟨fun _ => hle, fun _ => hq.trans hpend, le_max_right _ _, hq.trans hinp, hpeak,
    hf.peakIn⟩, ?_⟩
  exact ⟨fun h => (by cases h), fun h => (by cases h), le_max_right _ _, hq.trans hinp, hpeak,
    hf.peakIn⟩

theorem Fits.withParser (hf : Fits L R p) {q : Parser}
    (hq : q.pending ≤ p.conn.parser.pending) : Fits L R (p.withParser q) :=
  ⟨hf.backlog, fun h => hq.trans (hf.pending h), hf.out, hq.trans hf.inp, hf.peakOut, hf.peakIn⟩

theorem serveLoop_fits (store : Store σ) (fuel : Nat) : ∀ p : Peer σ, Fits L R p → Ready L p →
    (∀ a ∈ (serveLoop store fuel p).done, a.reply.length ≤ R) →
      Fits L R (serveLoop store fuel p) := by
  induction fuel with
  | zero => exact fun p hf _ _ => hf
  | succ fuel ih =>
    intro p hf hr
    have hround := serveRound_round store p
    have hnext := Parser.next_pending_le p.conn.parser
    rw [serveLoop]
    generalize p.serveRound store = r at hround
    cases hround with
    | waits h =>
      rw [h] at hnext
      exact fun _ => hf.withParser hnext
    | refuses h =>
      rw [h] at hnext
      intro hall
      exact (hf.append hr (hall _ (mem_append_right _ (mem_singleton_self _))) _ hnext p.db).2
    | sheds h =>
      rw [h] at hnext
      intro hall
      exact (hf.append hr (hall _ (mem_append_right _ (mem_singleton_self _))) _ hnext _).2
    | @answers q args reply db h _ hle =>
      rw [h] at hnext
      intro hall
      obtain ⟨acts, hacts⟩ := serveLoop_serves store fuel
        { (p.withParser q).append (.executed args reply) with db := db }
      have hreply : (Action.executed args reply).reply.length ≤ R := by
        refine hall _ ?_
        simp only [Sum.elim_inr, hacts.done]
        exact mem_append_left _ (mem_append_right _ (mem_singleton_self _))
      exact ih _ ((hf.append hr hreply q hnext db).1 hle) ⟨hr.open_, hr.off⟩ hall

theorem Fits.feed (hf : Fits L R p) (hr : Ready L p) (chunk : Chunk) :
    (¬ kMaxInBytes < (p.feed chunk.bytes).conn.parser.pending → Fits L R (p.feed chunk.bytes)) ∧
    Fits L R (p.feed chunk.bytes).close := by
  have hpend := hf.pending hr.open_
  have hfits := chunk.fits
  have hlen : (p.conn.parser.feed chunk.bytes).pending ≤ kMaxInBytes + kReadBytes := by
    unfold Parser.pending at hpend ⊢
    rw [Parser.feed, length_append]
    omega
  have hpeak : max p.peakIn (p.conn.parser.feed chunk.bytes).pending ≤ kMaxInBytes + kReadBytes :=
    max_le hf.peakIn hlen
  refine ⟨fun hle => ⟨hf.backlog, fun _ => Nat.le_of_not_lt hle, hf.out, le_max_right _ _,
    hf.peakOut, hpeak⟩, ?_⟩
  exact ⟨fun h => (by cases h), fun h => (by cases h), hf.out, le_max_right _ _, hf.peakOut, hpeak⟩

theorem readLoop_fits (reads : List ReadResult) : ∀ p : Peer σ, Fits L R p →
    (firstChunk reads ≠ none → Ready L p) →
    (∀ a ∈ (readLoop store reads p).1.done, a.reply.length ≤ R) →
    Fits L R (readLoop store reads p).1 := by
  induction reads with
  | nil => exact fun p hf _ _ => hf
  | cons r reads ih =>
    intro p hf hr
    cases r with
    | eintr => exact ih p hf hr
    | eagain | eof | failed => exact fun _ => hf
    | data chunk =>
      have hready : Ready L p := hr (by simp [firstChunk])
      obtain ⟨hopen, hclose⟩ := hf.feed hready chunk
      rw [readLoop]
      dsimp only
      split
      · exact fun _ => hclose
      · next hcap =>
        have hready' : Ready L (p.feed chunk.bytes) := ⟨hready.open_, hready.off⟩
        obtain ⟨acts, hacts⟩ := serveLoop_serves store
          ((p.feed chunk.bytes).conn.parser.pending + 1) (p.feed chunk.bytes)
        have hserve := serveLoop_fits store
          ((p.feed chunk.bytes).conn.parser.pending + 1) _ (hopen hcap) hready'
        split
        · exact hserve
        · next hstill =>
          split
          · exact hserve
          · intro hall
            obtain ⟨acts', hacts'⟩ := readLoop_serves store reads
              ((p.feed chunk.bytes).serve store)
            refine ih _ (hserve fun a ha => hall a ?_) (fun _ => ⟨?_, ?_⟩) hall
            · rw [hacts'.done]
              exact mem_append_left _ ha
            · exact Bool.eq_false_iff.mpr hstill
            · exact hacts.off.trans_le hready.off

theorem Fits.flushes (hf : Fits L R p) (hoff : p.conn.outOff ≤ p.conn.out.length) {m : Peer σ}
    (h : FlushesTo p m p') : Fits L R p' := by
  obtain ⟨hparser, hclosing, -, hpo, hpi⟩ := h.frame
  obtain ⟨n, hn, hle⟩ := h.sends
  have hout : p'.conn.out.length ≤ p.conn.out.length ∧ p'.backlog ≤ p.backlog := by
    unfold Peer.backlog at hle ⊢
    rcases h.conn with hconn | ⟨-, hconn⟩
    · rw [hconn, hn.out, hn.off]
      omega
    · rw [hconn]
      simp
  refine ⟨fun hc => ?_, fun hc => ?_, ?_, ?_, hpo ▸ hf.peakOut, hpi ▸ hf.peakIn⟩
  · exact hout.2.trans (hf.backlog (hclosing ▸ hc))
  · rw [hparser]
    exact hf.pending (hclosing ▸ hc)
  · rw [hpo]
    exact hout.1.trans hf.out
  · rw [hparser, hpi]
    exact hf.inp

/-- Input is delivered only to an open connection with at most `L` sent bytes in `out`. -/
def Paced (L : Nat) (p : Peer σ) : Event σ → Prop
  | .readable reads _ _ => firstChunk reads ≠ none → Ready L p
  | _ => True

theorem Fits.step (hf : Fits L R p) (ha : p.Aligned) (hmeet : Paced L p ev)
    (hs : p.step store ev = some p') (hall : ∀ a ∈ p'.done, a.reply.length ≤ R) : Fits L R p' := by
  obtain ⟨acts, hacts⟩ := served_serves store p ev
  obtain ⟨m, hm⟩ := step_flushes ha hs
  have hserved : Fits L R (p.served store ev) := by
    rw [hm.frame.2.2.1] at hall
    cases ev with
    | readable reads writes ctl => exact readLoop_fits reads p hf hmeet hall
    | writable | hangup | other => exact hf
  exact hserved.flushes (ha.does hacts.toDoes).off hm

theorem accepted_fits (L R : Nat) (db : σ) : Fits L R (accepted db) :=
  ⟨fun _ => Nat.zero_le _, fun _ => Nat.zero_le _, Nat.zero_le _, Nat.zero_le _, Nat.zero_le _,
    Nat.zero_le _⟩

/-- **Memory.**  For every bound `R` on a reply and `L` on the sent prefix there
is a bound that neither buffer exceeds at any point of any run in which input is
delivered only to an open connection with at most `L` sent bytes in `out`. -/
theorem run_memory (store : Store σ) (R L : Nat) :
    ∃ B, ∀ (db : σ) (tr : List (Event σ)) (p : Peer σ),
    Machine.Meets (step store) (Paced L) (accepted db) tr →
    Machine.run (step store) (accepted db) tr = some p →
    (∀ a ∈ p.done, a.reply.length ≤ R) →
    p.conn.out.length ≤ B ∧ p.conn.parser.pending ≤ B ∧ p.peakOut ≤ B ∧ p.peakIn ≤ B := by
  refine ⟨max (L + kMaxOutBytes + R) (kMaxInBytes + kReadBytes), ?_⟩
  intro db tr p hmeets hrun hall
  have hinv := Machine.meets_invariant
    (fun _ p => p.Aligned ∧ ((∀ a ∈ p.done, a.reply.length ≤ R) → Fits L R p))
    ⟨accepted_aligned db, fun _ => accepted_fits L R db⟩
      (fun _ p ev p' hp hmeet hs => ?_) hmeets hrun
  · have hf := hinv.2 hall
    have hpo := hf.peakOut.trans (le_max_left _ (kMaxInBytes + kReadBytes))
    have hpi := hf.peakIn.trans (le_max_right (L + kMaxOutBytes + R) _)
    exact ⟨hf.out.trans hpo, hf.inp.trans hpi, hpo, hpi⟩
  · obtain ⟨ha, hf⟩ := hp
    refine ⟨ha.step hs, fun hall' => (hf fun a ha' => hall' a ?_).step ha hmeet hs hall'⟩
    -- what was done stays done, so its replies are short too
    obtain ⟨acts, hacts⟩ := served_serves store p ev
    obtain ⟨m, hm⟩ := step_flushes ha hs
    rw [hm.frame.2.2.1, hacts.done]
    exact List.mem_append_left _ ha'

end Memory

end Events

/-! ## A client that never takes the last byte -/

def ping : Chunk := ⟨ascii "PING\r\n", by decide, by decide⟩

def pong : Bytes := simpleString (ascii "PONG")

theorem next_ping : (Parser.new.feed ping.bytes).next = (.request [ascii "PING"], .new) := by
  decide +kernel

theorem execute_ping (db : Unit) : execute nullStore [ascii "PING"] db = (pong, ()) := by
  decide +kernel +revert

theorem serve_ping {p : Peer Unit} (hparser : p.conn.parser = .new) (hback : p.backlog ≤ 1) :
    (p.feed ping.bytes).serve nullStore =
      { ((p.feed ping.bytes).withParser .new).append (.executed [ascii "PING"] pong) with
        db := () } := by
  have hpend : (p.feed ping.bytes).conn.parser.pending + 1 = 5 + 2 := by
    change (p.conn.parser.feed ping.bytes).pending + 1 = 7
    rw [hparser]
    decide
  have hnext : (p.feed ping.bytes).conn.parser.next = (.request [ascii "PING"], .new) := by
    change (p.conn.parser.feed ping.bytes).next = _
    rw [hparser]
    exact next_ping
  have hlen : pong.length = 7 := by decide
  have hle : ¬ kMaxOutBytes < (p.conn.out ++ pong).length - p.conn.outOff := by
    unfold backlog at hback
    rw [length_append, kMaxOutBytes]
    omega
  unfold serve
  rw [hpend, serveLoop, serveRound, hnext]
  dsimp only
  rw [execute_ping]
  split
  · next h => exact absurd h hle
  · rfl

/-- The client asks, and takes all but one byte of what is there for it. -/
def slowRead (p : Peer Unit) : Event Unit := .readable [.data ping] [.wrote (p.backlog + 6)] true

/-- The connection is idle but for at most one byte that the client has not taken. -/
structure Slow (p : Peer Unit) : Prop where
  open_ : p.closed = false
  closing : p.conn.closing = false
  parser : p.conn.parser = .new
  off : p.conn.outOff ≤ p.conn.out.length
  backlog : p.backlog ≤ 1
  pongs : ∀ a ∈ p.done, a.reply.length ≤ 7

theorem Slow.step {p : Peer Unit} (h : Slow p) : ∃ p', p.step nullStore (slowRead p) = some p' ∧
    Slow p' ∧ p'.conn.out.length = p.conn.out.length + 7 := by
  have hlen : pong.length = 7 := by decide
  have hback : p.conn.out.length - p.conn.outOff ≤ 1 := h.backlog
  have hoff := h.off
  obtain ⟨p₂, hp₂⟩ : ∃ p₂ : Peer Unit, p₂ = { ((p.feed ping.bytes).withParser .new).append
      (.executed [ascii "PING"] pong) with db := () } := ⟨_, rfl⟩
  have hserve : (p.feed ping.bytes).serve nullStore = p₂ :=
    (serve_ping h.parser h.backlog).trans hp₂.symm
  have hout : p₂.conn.out.length = p.conn.out.length + 7 := by
    rw [hp₂]
    change (p.conn.out ++ pong).length = _
    rw [length_append, hlen]
  have hoff₂ : p₂.conn.outOff = p.conn.outOff := by rw [hp₂]; rfl
  have hclosing : p₂.conn.closing = false := by rw [hp₂]; exact h.closing
  have hread : readLoop nullStore [.data ping] p = (p₂, true) := by
    have hcap : ¬ kMaxInBytes < (p.feed ping.bytes).conn.parser.pending := by
      change ¬ kMaxInBytes < (p.conn.parser.feed ping.bytes).pending
      rw [h.parser]
      decide
    have hhalf : ¬ kMaxOutBytes / 2 < p₂.backlog := by
      unfold Peer.backlog
      rw [hout, hoff₂, kMaxOutBytes]
      omega
    rw [readLoop]
    dsimp only
    rw [if_neg hcap, hserve, hclosing, if_neg (by decide), if_neg hhalf, readLoop]
  have htake : (p₂.take (p.backlog + 6)).conn.outOff = p.conn.out.length + 6 := by
    change p₂.conn.outOff + min (p.backlog + 6) p₂.backlog = _
    unfold Peer.backlog
    rw [hout, hoff₂]
    omega
  have hflush : flushLoop [.wrote (p.backlog + 6)] p₂ = (p₂.take (p.backlog + 6), .blocked) := by
    rw [flushLoop.eq_def]
    dsimp only
    rw [if_pos (by omega), flushLoop, if_pos]
    rw [htake]
    change _ < p₂.conn.out.length
    omega
  refine ⟨{ p₂.take (p.backlog + 6) with armed := true }, ?_, ⟨?_, ?_, ?_, ?_, ?_, ?_⟩, hout⟩
  · unfold Peer.step
    rw [h.open_, if_neg (by decide)]
    change some (p.handleReadable nullStore [.data ping] [.wrote (p.backlog + 6)] true) = _
    unfold handleReadable flushOut
    rw [hread]
    dsimp only
    rw [hflush]
    rfl
  · rw [hp₂]
    exact h.open_
  · exact hclosing
  · rw [hp₂]
    rfl
  · change (p₂.take (p.backlog + 6)).conn.outOff ≤ p₂.conn.out.length
    omega
  · change p₂.conn.out.length - (p₂.take (p.backlog + 6)).conn.outOff ≤ 1
    omega
  · intro a ha
    have hdone : p₂.done = p.done ++ [.executed [ascii "PING"] pong] := by rw [hp₂]; rfl
    change a ∈ p₂.done at ha
    rw [hdone] at ha
    rcases mem_append.mp ha with ha | ha
    · exact h.pongs a ha
    · rw [mem_singleton.mp ha]
      exact hlen.le

theorem slow_run (n : Nat) : ∃ tr p, Machine.run (step nullStore) (accepted ()) tr = some p ∧
    Slow p ∧ p.conn.out.length = 7 * n := by
  induction n with
  | zero => exact ⟨[], accepted (), rfl, ⟨rfl, rfl, rfl, Nat.le_refl _, Nat.zero_le _, nofun⟩, rfl⟩
  | succ n ih =>
    obtain ⟨tr, p, hrun, hslow, hlen⟩ := ih
    obtain ⟨p', hs, hslow', hlen'⟩ := hslow.step
    exact ⟨tr ++ [slowRead p], p', Machine.run_concat.mpr ⟨p, hrun, hs⟩, hslow', by omega⟩

/-- **No bound holds for a client that reads slowly**: the sent replies stay in
`out` as long as one byte behind them is not taken. -/
theorem run_memory_slow : ¬ ∃ B, ∀ (tr : List (Event Unit)) (p : Peer Unit),
    Machine.run (step nullStore) (accepted ()) tr = some p →
    (∀ a ∈ p.done, a.reply.length ≤ 7) → p.conn.out.length ≤ B := by
  rintro ⟨B, hB⟩
  obtain ⟨tr, p, hrun, hslow, hlen⟩ := slow_run (B + 1)
  have := hB tr p hrun hslow.pongs
  omega

end Peer

end Server

end BedrockKV
