/-
# `BedrockKV.Commands` — replies of a command sequence

`Execute` over a store that behaves as a map without errors.  What a client
should see is stated over the map alone (`Answers`): `SET`, `GET`, `DEL` and
`EXISTS` answer for the map, every other command leaves it alone.  Each reply
of a sequence is one RESP2 value, the replies together can be read in one way,
and the values are the ones the map gives.
-/
import BedrockKV.Server
import BedrockKV.Replies

namespace BedrockKV.Server

open List Resp

/-! ## The reference map -/

/-- The commands that concern the map. -/
def mapCommands : List Bytes := [ascii "set", ascii "get", ascii "del", ascii "exists"]

/-- What the map `m` answers to a command and what it becomes. -/
inductive Answers (m : Bytes → Option Bytes) :
    List Bytes → Value → (Bytes → Option Bytes) → Prop
  | set {name key value ok} (hname : lower name = ascii "set") (hok : ok.bytes = ascii "OK") :
      Answers m [name, key, value] (.simple ok) (Function.update m key (some value))
  | found {name key value} (hname : lower name = ascii "get") (h : m key = some value) :
      Answers m [name, key] (.bulk value) m
  | missing {name key} (hname : lower name = ascii "get") (h : m key = none) :
      Answers m [name, key] .nullBulk m
  | del {name key keys} (hname : lower name = ascii "del") :
      Answers m (name :: key :: keys)
        (.integer ((key :: keys).toFinset.filter fun k => (m k).isSome).card)
        fun k => if k ∈ key :: keys then none else m k
  | count {name key keys} (hname : lower name = ascii "exists") :
      Answers m (name :: key :: keys) (.integer ((key :: keys).countP fun k => (m k).isSome)) m
  | arity {name args} (text : Line)
      (h : lower name = ascii "set" ∧ args.length ≠ 2 ∨ lower name = ascii "get" ∧ args.length ≠ 1 ∨
        lower name = ascii "del" ∧ args = [] ∨ lower name = ascii "exists" ∧ args = []) :
      Answers m (name :: args) (.error text) m
  | empty (v : Value) : Answers m [] v m
  | other {name args} (v : Value) (h : lower name ∉ mapCommands) : Answers m (name :: args) v m

/-- The commands one after the other. -/
inductive AnswersAll : (Bytes → Option Bytes) → List (List Bytes) → List Value →
    (Bytes → Option Bytes) → Prop
  | nil {m} : AnswersAll m [] [] m
  | cons {m m' m'' args commands v vs} (h : Answers m args v m')
      (hs : AnswersAll m' commands vs m'') :
      AnswersAll m (args :: commands) (v :: vs) m''

/-- The calls of the store do to `contents` what they do to a map, and none of them fails. -/
structure IsMap {σ : Type} (store : Store σ) (contents : σ → Bytes → Option Bytes) : Prop where
  get_present : ∀ {db key value}, contents db key = some value → (store.get db key).1 = .ok value
  get_absent : ∀ {db key}, contents db key = none →
    ∃ s, (store.get db key).1 = .error s ∧ s.code = .notFound
  get_keeps : ∀ db key, contents (store.get db key).2 = contents db
  put_ok : ∀ db key value, (store.put db key value).1 = .ok ()
  put_sets : ∀ db key value,
    contents (store.put db key value).2 = Function.update (contents db) key (some value)
  delete_ok : ∀ db key, (store.delete db key).1 = .ok ()
  delete_clears : ∀ db key,
    contents (store.delete db key).2 = Function.update (contents db) key none

/-! ## Replies as values -/

theorem error_wire (msg : Bytes) : ∃ text, error msg = (Value.error text).wire := by
  refine ⟨⟨msg.map fun c => if isNewline c then 32 else c, ?_⟩, ?_⟩
  · intro c hc
    obtain ⟨d, -, rfl⟩ := mem_map.mp hc
    split
    · rfl
    · next h => exact Bool.eq_false_iff.mpr h
  · rw [Value.wire, error]

theorem simple_wire {s : Bytes} (h : ∀ c ∈ s, isNewline c = false) :
    simpleString s = (Value.simple ⟨s, h⟩).wire := by
  rw [Value.wire, simpleString]

theorem integer_wire (n : Nat) : integer n = (Value.integer n).wire := by
  rw [Value.wire, integer]
  rfl

theorem bulk_wire (s : Bytes) : bulkString s = (Value.bulk s).wire := by
  rw [Value.wire, bulkString]

theorem null_wire : nullBulk = Value.nullBulk.wire := by
  rw [Value.wire]
  decide +kernel

def okLine : Line := ⟨ascii "OK", by decide +kernel⟩

/-! ## One command -/

section

variable {σ : Type} {store : Store σ} {contents : σ → Bytes → Option Bytes}

theorem card_present_cons_some {m : Bytes → Option Bytes} {key : Bytes} (keys : List Bytes)
    (h : (m key).isSome) :
    ((key :: keys).toFinset.filter fun k => (m k).isSome).card =
      (keys.toFinset.filter fun k => (Function.update m key none k).isSome).card + 1 := by
  have hrest : (keys.toFinset.filter fun k => (Function.update m key none k).isSome) =
      (keys.toFinset.filter fun k => (m k).isSome).erase key := by
    ext k
    by_cases hk : k = key
    · subst hk
      simp
    · simp [hk]
  have hinsert : (key :: keys).toFinset.filter (fun k => (m k).isSome) =
      insert key ((keys.toFinset.filter fun k => (m k).isSome).erase key) := by
    rw [toFinset_cons, Finset.filter_insert, if_pos h]
    ext k
    by_cases hk : k = key <;> simp [hk]
  rw [hinsert, hrest, Finset.card_insert_of_notMem (Finset.notMem_erase _ _)]

theorem card_present_cons_none {m : Bytes → Option Bytes} {key : Bytes} (keys : List Bytes)
    (h : m key = none) :
    ((key :: keys).toFinset.filter fun k => (m k).isSome).card =
      (keys.toFinset.filter fun k => (m k).isSome).card := by
  rw [toFinset_cons, Finset.filter_insert, if_neg (by rw [h]; exact Bool.false_ne_true)]

theorem IsMap.get_cases (hmap : IsMap store contents) (db : σ) (key : Bytes) :
    ∃ db', contents db' = contents db ∧
      ((∃ s, store.get db key = (.error s, db') ∧ s.code = .notFound ∧ contents db key = none) ∨
        ∃ value, store.get db key = (.ok value, db') ∧ contents db key = some value) := by
  refine ⟨(store.get db key).2, hmap.get_keeps db key, ?_⟩
  cases hkey : contents db key with
  | none =>
    obtain ⟨s, hs, hcode⟩ := hmap.get_absent hkey
    exact .inl ⟨s, Prod.ext hs rfl, hcode, rfl⟩
  | some value => exact .inr ⟨value, Prod.ext (hmap.get_present hkey) rfl, rfl⟩

theorem delKeys_eq (hmap : IsMap store contents) (keys : List Bytes) (removed : Nat) (db : σ) :
    (delKeys store keys removed db).1 =
        removed + (keys.toFinset.filter fun k => (contents db k).isSome).card ∧
      contents (delKeys store keys removed db).2 =
        fun k => if k ∈ keys then none else contents db k := by
  induction keys generalizing removed db with
  | nil => simp [delKeys]
  | cons key keys ih =>
    obtain ⟨db', hkeep, ⟨s, hget, -, hkey⟩ | ⟨value, hget, hkey⟩⟩ := hmap.get_cases db key
    · rw [delKeys, hget, card_present_cons_none keys hkey]
      change (delKeys store keys removed db').1 = _ ∧
        contents (delKeys store keys removed db').2 = _
      rw [(ih removed db').1, (ih removed db').2, hkeep]
      refine ⟨rfl, funext fun k => ?_⟩
      by_cases hk : k = key
      · subst hk
        simp [hkey]
      · simp [hk]
    · have hdel := hmap.delete_ok db' key
      have hclear := hmap.delete_clears db' key
      rcases hdelete : store.delete db' key with ⟨r, db''⟩
      rw [hdelete] at hdel hclear
      obtain rfl : r = .ok () := hdel
      change contents db'' = Function.update (contents db') key none at hclear
      rw [hkeep] at hclear
      have hpresent : (contents db key).isSome := by rw [hkey]; rfl
      rw [delKeys, hget, card_present_cons_some keys hpresent]
      simp only [hdelete]
      rw [(ih (removed + 1) db'').1, (ih (removed + 1) db'').2, hclear]
      refine ⟨by omega, funext fun k => ?_⟩
      by_cases hk : k = key
      · subst hk
        simp
      · simp [hk]

theorem countKeys_eq (hmap : IsMap store contents) (keys : List Bytes) (found : Nat) (db : σ) :
    (countKeys store keys found db).1 = found + keys.countP (fun k => (contents db k).isSome) ∧
      contents (countKeys store keys found db).2 = contents db := by
  induction keys generalizing found db with
  | nil => exact ⟨rfl, rfl⟩
  | cons key keys ih =>
    obtain ⟨db', hkeep, ⟨s, hget, -, hkey⟩ | ⟨value, hget, hkey⟩⟩ := hmap.get_cases db key
    · rw [countKeys, hget, countP_cons_of_neg (by rw [hkey]; exact Bool.false_ne_true)]
      change (countKeys store keys found db').1 = _ ∧
        contents (countKeys store keys found db').2 = _
      rw [(ih found db').1, (ih found db').2, hkeep]
      exact ⟨rfl, rfl⟩
    · rw [countKeys, hget, countP_cons_of_pos (by rw [hkey]; rfl)]
      change (countKeys store keys (found + 1) db').1 = _ ∧
        contents (countKeys store keys (found + 1) db').2 = _
      rw [(ih (found + 1) db').1, (ih (found + 1) db').2, hkeep]
      exact ⟨by omega, rfl⟩

/-- One reply: a value, and the one the map answers. -/
def Replied (contents : σ → Bytes → Option Bytes) (args : List Bytes) (db : σ) (r : Bytes × σ) :
    Prop :=
  ∃ v, r.1 = Value.wire v ∧ Answers (contents db) args v (contents r.2)

theorem replied_arity {name : Bytes} {args : List Bytes} {db : σ} (cmd : String)
    (h : lower name = ascii "set" ∧ args.length ≠ 2 ∨ lower name = ascii "get" ∧ args.length ≠ 1 ∨
      lower name = ascii "del" ∧ args = [] ∨ lower name = ascii "exists" ∧ args = []) :
    Replied contents (name :: args) db (wrongArgs cmd, db) := by
  obtain ⟨text, htext⟩ :=
    error_wire (ascii ("ERR wrong number of arguments for '" ++ cmd ++ "' command"))
  exact ⟨.error text, htext, .arity text h⟩

theorem executeSet_replied (hmap : IsMap store contents) {name : Bytes}
    (hname : lower name = ascii "set") (args : List Bytes) (db : σ) :
    Replied contents (name :: args) db (executeSet store args db) := by
  by_cases hlen : args.length = 2
  · obtain ⟨key, value, rfl⟩ := length_eq_two.mp hlen
    have hok := hmap.put_ok db key value
    have hset := hmap.put_sets db key value
    rcases hput : store.put db key value with ⟨r, db'⟩
    rw [hput] at hok hset
    obtain rfl : r = .ok () := hok
    simp only [executeSet, hput]
    refine ⟨.simple okLine, simple_wire okLine.plain, ?_⟩
    change Answers _ _ _ (contents db')
    rw [show contents db' = _ from hset]
    exact .set hname rfl
  · have hreply : executeSet store args db = (wrongArgs "set", db) := by
      rw [executeSet]
      rintro key value rfl
      exact hlen rfl
    rw [hreply]
    exact replied_arity "set" (.inl ⟨hname, hlen⟩)

theorem executeGet_replied (hmap : IsMap store contents) {name : Bytes}
    (hname : lower name = ascii "get") (args : List Bytes) (db : σ) :
    Replied contents (name :: args) db (executeGet store args db) := by
  by_cases hlen : args.length = 1
  · obtain ⟨key, rfl⟩ := length_eq_one_iff.mp hlen
    obtain ⟨db', hkeep, ⟨s, hget, hcode, hkey⟩ | ⟨value, hget, hkey⟩⟩ := hmap.get_cases db key
    · simp only [executeGet, hget, if_pos hcode]
      refine ⟨.nullBulk, null_wire, ?_⟩
      rw [show contents db' = _ from hkeep]
      exact .missing hname hkey
    · simp only [executeGet, hget]
      refine ⟨.bulk value, bulk_wire value, ?_⟩
      rw [show contents db' = _ from hkeep]
      exact .found hname hkey
  · have hreply : executeGet store args db = (wrongArgs "get", db) := by
      rw [executeGet]
      rintro key rfl
      exact hlen rfl
    rw [hreply]
    exact replied_arity "get" (.inr (.inl ⟨hname, hlen⟩))

theorem execute_replied (hmap : IsMap store contents) (args : List Bytes) (db : σ) :
    Replied contents args db (execute store args db) := by
  cases args with
  | nil =>
    obtain ⟨text, htext⟩ := error_wire (ascii "ERR empty command")
    exact ⟨.error text, htext, .empty _⟩
  | cons name args =>
    simp only [execute]
    split_ifs with hping hecho hset hget hdel hexists
    · have hother : lower name ∉ mapCommands := by
        rw [hping]
        decide +kernel
      cases args with
      | nil => exact ⟨_, simple_wire (by decide +kernel), .other _ hother⟩
      | cons message args => exact ⟨_, bulk_wire message, .other _ hother⟩
    · have hother : lower name ∉ mapCommands := by
        rw [hecho]
        decide +kernel
      split
      · exact ⟨_, bulk_wire _, .other _ hother⟩
      · obtain ⟨text, htext⟩ := error_wire
          (ascii ("ERR wrong number of arguments for '" ++ "echo" ++ "' command"))
        exact ⟨.error text, htext, .other _ hother⟩
    · exact executeSet_replied hmap hset args db
    · exact executeGet_replied hmap hget args db
    · cases args with
      | nil => exact replied_arity "del" (.inr (.inr (.inl ⟨hdel, rfl⟩)))
      | cons key keys =>
        obtain ⟨hcount, hcleared⟩ := delKeys_eq hmap (key :: keys) 0 db
        refine ⟨_, integer_wire _, ?_⟩
        change Answers _ _ (.integer ↑(delKeys store (key :: keys) 0 db).1)
          (contents (delKeys store (key :: keys) 0 db).2)
        rw [hcount, hcleared, Nat.zero_add]
        exact .del hdel
    · cases args with
      | nil => exact replied_arity "exists" (.inr (.inr (.inr ⟨hexists, rfl⟩)))
      | cons key keys =>
        obtain ⟨hcount, hkept⟩ := countKeys_eq hmap (key :: keys) 0 db
        refine ⟨_, integer_wire _, ?_⟩
        change Answers _ _ (.integer ↑(countKeys store (key :: keys) 0 db).1)
          (contents (countKeys store (key :: keys) 0 db).2)
        rw [hcount, hkept, Nat.zero_add]
        exact .count hexists
    · obtain ⟨text, htext⟩ := error_wire (ascii "ERR unknown command '" ++ lower name ++ ascii "'")
      refine ⟨.error text, htext, .other _ ?_⟩
      simp [mapCommands, hset, hget, hdel, hexists]

/-! ## A sequence -/

/-- The commands executed in order: their replies and the store at the end. -/
def executeAll (store : Store σ) : List (List Bytes) → σ → List Bytes × σ
  | [], db => ([], db)
  | args :: commands, db =>
    let r := execute store args db
    let rest := executeAll store commands r.2
    (r.1 :: rest.1, rest.2)

theorem AnswersAll.length_eq {m m' : Bytes → Option Bytes} {commands : List (List Bytes)}
    {vs : List Value} (h : AnswersAll m commands vs m') : vs.length = commands.length := by
  induction h with
  | nil => rfl
  | cons _ _ ih => rw [length_cons, length_cons, ih]

theorem executeAll_replied (hmap : IsMap store contents) (commands : List (List Bytes)) (db : σ) :
    ∃ vs : List Value, (executeAll store commands db).1 = vs.map Value.wire ∧
      AnswersAll (contents db) commands vs (contents (executeAll store commands db).2) := by
  induction commands generalizing db with
  | nil => exact ⟨[], rfl, .nil⟩
  | cons args commands ih =>
    obtain ⟨v, hwire, hanswer⟩ := execute_replied hmap args db
    obtain ⟨vs, hwires, hanswers⟩ := ih (execute store args db).2
    refine ⟨v :: vs, ?_, .cons hanswer hanswers⟩
    rw [executeAll, hwire, hwires, map_cons]

theorem flatten_map_wire : ∀ vs : List Value, (vs.map Value.wire).flatten = Value.wires vs
  | [] => by rw [Value.wires]; rfl
  | v :: vs => by rw [map_cons, flatten_cons, flatten_map_wire vs, Value.wires]

/-- **Replies.**  Over a store that is a map, the replies to any sequence of commands are values,
one for each command, those of the reference map, and what the client reads can be taken apart in
no other way. -/
theorem executeAll_answers (hmap : IsMap store contents) (commands : List (List Bytes)) (db : σ) :
    ∃ vs : List Value, (executeAll store commands db).1 = vs.map Value.wire ∧
      vs.length = commands.length ∧
      AnswersAll (contents db) commands vs (contents (executeAll store commands db).2) ∧
      ∀ ws : List Value, Value.wires ws = (executeAll store commands db).1.flatten → ws = vs := by
  obtain ⟨vs, hwires, hanswers⟩ := executeAll_replied hmap commands db
  refine ⟨vs, hwires, hanswers.length_eq, hanswers, fun ws hws => ?_⟩
  rw [hwires, flatten_map_wire] at hws
  exact Value.wires_inj hws

end

/-- A store that is a map. -/
def mapStore : Store (Bytes → Option Bytes) where
  get m key := ((m key).elim (.error ⟨.notFound, ascii "key not found"⟩) .ok, m)
  put m key value := (.ok (), Function.update m key (some value))
  delete m key := (.ok (), Function.update m key none)

theorem isMap_mapStore : IsMap mapStore id where
  get_present := by
    intro m key value h
    change (m key).elim _ _ = _
    rw [show m key = some value from h]
    rfl
  get_absent := by
    intro m key h
    refine ⟨⟨.notFound, ascii "key not found"⟩, ?_, rfl⟩
    change (m key).elim _ _ = _
    rw [show m key = none from h]
    rfl
  get_keeps _ _ := rfl
  put_ok _ _ _ := rfl
  put_sets _ _ _ := rfl
  delete_ok _ _ := rfl
  delete_clears _ _ := rfl

/-- A key set, asked for twice, deleted twice in one command; then a name with a line break. -/
def sampleCommands : List (List Bytes) :=
  [[ascii "SET", [107], [118]], [ascii "exists", [107], [107]], [ascii "Del", [107], [107], [120]],
    [[13, 10]]]

theorem executeAll_answers_sampleCommands : IsMap mapStore id ∧
    ∃ vs : List Value, (executeAll mapStore sampleCommands fun _ => none).1 = vs.map Value.wire ∧
      vs.length = sampleCommands.length ∧
      AnswersAll (id fun _ => none) sampleCommands vs
        (id (executeAll mapStore sampleCommands fun _ => none).2) ∧
      ∀ ws : List Value,
        Value.wires ws = (executeAll mapStore sampleCommands fun _ => none).1.flatten → ws = vs :=
  ⟨isMap_mapStore, executeAll_answers isMap_mapStore sampleCommands _⟩

end BedrockKV.Server
