/-
# `BedrockKV.Server` — one connection of the server

The code of `server.cpp` for one client: `Execute`, the read loop with the
parser of `BedrockKV.Resp`, and `FlushOut` with its write cursor.  A connection
is driven by events, and an event carries what the kernel answers to the calls
the handler makes: any chunks, any short counts, `EINTR`, `EAGAIN`, errors.
Where the listed answers run out, the next one is `EAGAIN`.

`Peer` is the connection with what has been seen of it so far: the bytes the
socket has taken, what was done for the client, and the largest sizes its two
buffers have had.  The store behind the commands is a parameter.
-/
import BedrockKV.Resp

namespace BedrockKV.Server

open Resp

/-! ## Commands -/

/-- What `Execute` calls of the database. -/
structure Store (σ : Type) where
  get : σ → Bytes → Except Status Bytes × σ
  put : σ → Bytes → Bytes → Except Status Unit × σ
  delete : σ → Bytes → Except Status Unit × σ

/-- `Lower`. -/
def lower (s : Bytes) : Bytes := s.map fun c => if 65 ≤ c ∧ c ≤ 90 then c + 32 else c

def wrongArgs (cmd : String) : Bytes :=
  error (ascii ("ERR wrong number of arguments for '" ++ cmd ++ "' command"))

section Execute

variable {σ : Type} (store : Store σ)

/-- The loop of `del`. -/
def delKeys : List Bytes → Nat → σ → Nat × σ
  | [], removed, db => (removed, db)
  | key :: keys, removed, db =>
    match store.get db key with
    | (.error _, db) => delKeys keys removed db
    | (.ok _, db) =>
      match store.delete db key with
      | (.error _, db) => delKeys keys removed db
      | (.ok _, db) => delKeys keys (removed + 1) db

/-- The loop of `exists`. -/
def countKeys : List Bytes → Nat → σ → Nat × σ
  | [], found, db => (found, db)
  | key :: keys, found, db =>
    match store.get db key with
    | (.error _, db) => countKeys keys found db
    | (.ok _, db) => countKeys keys (found + 1) db

def executeSet (args : List Bytes) (db : σ) : Bytes × σ :=
  match args with
  | [key, value] =>
    match store.put db key value with
    | (.ok _, db) => (simpleString (ascii "OK"), db)
    | (.error s, db) => (error (ascii "ERR " ++ s.message), db)
  | _ => (wrongArgs "set", db)

def executeGet (args : List Bytes) (db : σ) : Bytes × σ :=
  match args with
  | [key] =>
    match store.get db key with
    | (.ok value, db) => (bulkString value, db)
    | (.error s, db) =>
      if s.code = .notFound then (nullBulk, db) else (error (ascii "ERR " ++ s.message), db)
  | _ => (wrongArgs "get", db)

/-- `Execute`. -/
def execute (args : List Bytes) (db : σ) : Bytes × σ :=
  match args with
  | [] => (error (ascii "ERR empty command"), db)
  | name :: args =>
    let cmd := lower name
    if cmd = ascii "ping" then
      match args with
      | [] => (simpleString (ascii "PONG"), db)
      | message :: _ => (bulkString message, db)
    else if cmd = ascii "echo" then
      match args with
      | [message] => (bulkString message, db)
      | _ => (wrongArgs "echo", db)
    else if cmd = ascii "set" then executeSet store args db
    else if cmd = ascii "get" then executeGet store args db
    else if cmd = ascii "del" then
      match args with
      | [] => (wrongArgs "del", db)
      | keys =>
        let r := delKeys store keys 0 db
        (integer r.1, r.2)
    else if cmd = ascii "exists" then
      match args with
      | [] => (wrongArgs "exists", db)
      | keys =>
        let r := countKeys store keys 0 db
        (integer r.1, r.2)
    else (error (ascii "ERR unknown command '" ++ cmd ++ ascii "'"), db)

end Execute

/-! ## The connection -/

def kMaxOutBytes : Nat := 64 * 2 ^ 20
def kMaxInBytes : Nat := 64 * 2 ^ 20

/-- The size of the buffer that `read` fills. -/
def kReadBytes : Nat := 16384

structure Conn where
  parser : Parser
  out : Bytes
  outOff : Nat
  closing : Bool

/-- What was done for the client, with the reply that went to `out`. -/
inductive Action where
  | executed (args : List Bytes) (reply : Bytes)
  | refused (reply : Bytes)
  deriving DecidableEq

def Action.reply : Action → Bytes
  | .executed _ reply => reply
  | .refused reply => reply

/-- `armed`: the connection is registered for `EPOLLOUT` too. -/
structure Peer (σ : Type) where
  conn : Conn
  armed : Bool
  closed : Bool
  db : σ
  sent : Bytes
  done : List Action
  peakOut : Nat
  peakIn : Nat

/-- What one `read` returns, a chunk being of a size that fits the buffer. -/
structure Chunk where
  bytes : Bytes
  nonempty : bytes ≠ []
  fits : bytes.length ≤ kReadBytes

inductive ReadResult where
  | data (chunk : Chunk)
  | eintr
  | eagain
  | eof
  | failed

inductive WriteResult where
  | wrote (n : Nat)
  | eintr
  | eagain
  | failed

namespace Peer

variable {σ : Type} (store : Store σ)

/-- A client that has just been accepted. -/
def accepted (db : σ) : Peer σ := ⟨⟨.new, [], 0, false⟩, false, false, db, [], [], 0, 0⟩

/-- `conn.out +=`, for something done. -/
def append (p : Peer σ) (a : Action) : Peer σ :=
  { p with
    conn := { p.conn with out := p.conn.out ++ a.reply }
    done := p.done ++ [a]
    peakOut := max p.peakOut (p.conn.out ++ a.reply).length }

def close (p : Peer σ) : Peer σ := { p with conn := { p.conn with closing := true } }

def backlog (p : Peer σ) : Nat := p.conn.out.length - p.conn.outOff

def withParser (p : Peer σ) (q : Parser) : Peer σ := { p with conn := { p.conn with parser := q } }

/-- One round of the inner loop of `HandleReadable`: a call of `Next`. -/
def serveRound (p : Peer σ) : Peer σ ⊕ Peer σ :=
  match p.conn.parser.next with
  | (.needMore, q) => .inl (p.withParser q)
  | (.error message, q) =>
    .inl ((p.withParser q).append (.refused (error (ascii "ERR " ++ message)))).close
  | (.request args, q) =>
    let r := execute store args p.db
    let p' := { (p.withParser q).append (.executed args r.1) with db := r.2 }
    if kMaxOutBytes < p'.backlog then .inl p'.close else .inr p'

def serveLoop : Nat → Peer σ → Peer σ
  | 0, p => p
  | fuel + 1, p => Sum.elim id (serveLoop fuel) (p.serveRound store)

/-- The inner loop; a request takes at least a byte off the parser. -/
def serve (p : Peer σ) : Peer σ := serveLoop store (p.conn.parser.pending + 1) p

/-- `Feed`. -/
def feed (p : Peer σ) (bytes : Bytes) : Peer σ :=
  { p.withParser (p.conn.parser.feed bytes) with
    peakIn := max p.peakIn (p.conn.parser.feed bytes).pending }

/-- The outer loop of `HandleReadable`; the flag says that it went on to `FlushOut`. -/
def readLoop : List ReadResult → Peer σ → Peer σ × Bool
  | [], p => (p, true)
  | .eagain :: _, p => (p, true)
  | .eof :: _, p => (p, false)
  | .failed :: _, p => (p, false)
  | .eintr :: reads, p => readLoop reads p
  | .data chunk :: reads, p =>
    let p₁ := p.feed chunk.bytes
    if kMaxInBytes < p₁.conn.parser.pending then (p₁.close, true)
    else
      let p₂ := p₁.serve store
      if p₂.conn.closing then (p₂, true)
      else if kMaxOutBytes / 2 < p₂.backlog then (p₂, true)
      else readLoop reads p₂

/-- How the loop of `FlushOut` ends. -/
inductive Flushed where
  | all
  | blocked
  | broken

/-- `write` has taken up to `n` bytes of what is left. -/
def take (p : Peer σ) (n : Nat) : Peer σ :=
  { p with
    conn := { p.conn with outOff := p.conn.outOff + min n p.backlog }
    sent := p.sent ++ (p.conn.out.drop p.conn.outOff).take n }

/-- The loop of `FlushOut`. -/
def flushLoop : List WriteResult → Peer σ → Peer σ × Flushed
  | [], p => if p.conn.outOff < p.conn.out.length then (p, .blocked) else (p, .all)
  | w :: writes, p =>
    if p.conn.outOff < p.conn.out.length then
      match w with
      | .eintr => flushLoop writes p
      | .eagain => (p, .blocked)
      | .failed => (p, .broken)
      | .wrote n => flushLoop writes (p.take n)
    else (p, .all)

/-- `erase` of the sent prefix. -/
def compact (p : Peer σ) : Peer σ :=
  if 0 < p.conn.outOff then
    { p with conn := { p.conn with out := p.conn.out.drop p.conn.outOff, outOff := 0 } }
  else p

/-- The caller closes a connection whose handler returned `false`. -/
def closeConn (p : Peer σ) : Peer σ := { p with closed := true }

/-- `epoll_ctl`, which may fail. -/
def register (p : Peer σ) (out ok : Bool) : Peer σ :=
  if ok then { p with armed := out } else p.closeConn

/-- `FlushOut`; `ctl` is what `epoll_ctl` answers. -/
def flushOut (p : Peer σ) (writes : List WriteResult) (ctl : Bool) : Peer σ :=
  match flushLoop writes p with
  | (p, .broken) => p.closeConn
  | (p, .blocked) => p.register true ctl
  | (p, .all) =>
    if p.compact.conn.closing then p.compact.closeConn else p.compact.register false ctl

/-- `HandleReadable`. -/
def handleReadable (p : Peer σ) (reads : List ReadResult) (writes : List WriteResult)
    (ctl : Bool) : Peer σ :=
  match readLoop store reads p with
  | (p, false) => p.closeConn
  | (p, true) => p.flushOut writes ctl

/-- What `Loop` finds for the connection, and what the rest of the program does
to the database meanwhile. -/
inductive Event (σ : Type) where
  | readable (reads : List ReadResult) (writes : List WriteResult) (ctl : Bool)
  | writable (writes : List WriteResult) (ctl : Bool)
  | hangup
  | other (db : σ)

def step (p : Peer σ) (ev : Event σ) : Option (Peer σ) :=
  if p.closed then none
  else
    match ev with
    | .readable reads writes ctl => some (p.handleReadable store reads writes ctl)
    | .writable writes ctl => if p.armed then some (p.flushOut writes ctl) else none
    | .hangup => some p.closeConn
    | .other db => some { p with db := db }

end Peer

end BedrockKV.Server
