import Mathlib
import RedisCache.Commands.Dispatcher
import RedisCache.Storage.Threads

/-!
# What a request asks of the store

Routing, counting arguments and reading numbers happen before the first
store call. `commandOf` does that part: it turns a request into a `Command`,
a small program over the store with all its data resolved, and
`dispatch_eq` says that the dispatcher runs exactly that program. A property
of every request is then a case split over the eleven commands.
-/

namespace RedisCache.Commands

open Sections Protocol Storage

/-- A request with its arguments read. -/
inductive Command where
  | reply (r : Bytes)
  | set (key value : Bytes) (opts : SetOptions)
  | get (key : Bytes)
  | del (keys : List Bytes)
  | exist (keys : List Bytes)
  | expire (key : Bytes) (ttlMs : Int)
  | ttl (key : Bytes)
  | pttl (key : Bytes)
  | incr (key : Bytes)
  | incrby (key : Bytes) (delta : Int)
  | keys (pattern : Bytes)
  | dbsize
  | flushall

/-- How many of the keys `op` says yes to. -/
def countOf (op : Bytes → StoreProg Bool) : List Bytes → Int → StoreProg Int
  | [], n => pure n
  | k :: rest, n => do
      let b ← op k
      countOf op rest (if b then i64 (n + 1) else n)

/-- Seconds, or one of the two codes. -/
def ttlReply (ms : Int) : Bytes :=
  if ms = -2 then RespSerializer.integer (-2)
  else if ms = -1 then RespSerializer.integer (-1)
  else RespSerializer.integer (ms.tdiv 1000)

def bulkReply : Option Bytes → Bytes
  | none => RespSerializer.nullBulk
  | some v => RespSerializer.bulk v

def counterReply : Option Int → Bytes
  | none => notAnInteger
  | some n => RespSerializer.integer n

/-- The store calls a command makes, and its reply. -/
def Command.prog (P : Platform) (maxKeys : Nat) : Command → StoreProg Bytes
  | .reply r => pure r
  | .set key value opts => do
      let taken ← existsIf P opts.nx key false
      if taken then pure RespSerializer.nullBulk
      else do
        let present ← existsIf P opts.xx key true
        if !present then pure RespSerializer.nullBulk
        else do
          Store.set P maxKeys key value opts.ttlMs
          pure RespSerializer.ok
  | .get key => bulkReply <$> Store.get P key
  | .del ks => RespSerializer.integer <$> countOf (Store.del P) ks 0
  | .exist ks => RespSerializer.integer <$> countOf (Store.existsKey P) ks 0
  | .expire key ttlMs =>
      (fun ok => RespSerializer.integer (if ok then 1 else 0)) <$> Store.expire P key ttlMs
  | .ttl key => ttlReply <$> Store.ttl P key
  | .pttl key => RespSerializer.integer <$> Store.ttl P key
  | .incr key => counterReply <$> Store.incr P key
  | .incrby key delta => do
      let curStr ← Store.get P key
      if (currentOf curStr).ec ≠ none then pure notAnInteger
      else do
        Store.set P maxKeys key (Decimal.ofInt (i64 ((currentOf curStr).value + delta))) (-1)
        pure (RespSerializer.integer (i64 ((currentOf curStr).value + delta)))
  | .keys pattern => RespSerializer.array <$> Store.keys P pattern
  | .dbsize => (fun n : Nat => RespSerializer.integer (i64 n)) <$> Store.size
  | .flushall => do
      Store.flush
      pure RespSerializer.ok

/-! ## Reading the arguments -/

/-- A handler's part before the first store call. -/
abbrev Reader := List RespValue → Command

def readPing : Reader
  | _ :: msg :: _ =>
      .reply (if msg.type = .bulkString then RespSerializer.bulk msg.str
        else RespSerializer.simple (ascii "PONG"))
  | _ => .reply (RespSerializer.simple (ascii "PONG"))

def readSet : Reader
  | _ :: key :: value :: opts => .set key.str value.str (setOptions {} opts)
  | _ => .reply (wrongArgs "set")

/-- One key, `make` of it. -/
def readKey (cmd : String) (make : Bytes → Command) : Reader
  | _ :: key :: _ => make key.str
  | _ => .reply (wrongArgs cmd)

/-- One key or more. -/
def readKeys (cmd : String) (make : List Bytes → Command) : Reader
  | _ :: a :: rest => make ((a :: rest).map RespValue.str)
  | _ => .reply (wrongArgs cmd)

def readExpire (cmd : String) (toMs : Int → Int) : Reader
  | _ :: key :: amount :: _ => .expire key.str (toMs (Decimal.fromChars 0 amount.str).value)
  | _ => .reply (wrongArgs cmd)

def readIncrby : Reader
  | _ :: key :: amount :: _ =>
      if (Decimal.fromChars 0 amount.str).ec ≠ none then .reply notAnInteger
      else .incrby key.str (Decimal.fromChars 0 amount.str).value
  | _ => .reply (wrongArgs "incrby")

/-- The readers of the table. -/
def readers : List (Bytes × Reader) :=
  [(ascii "ping", readPing),
   (ascii "set", readSet),
   (ascii "get", readKey "get" .get),
   (ascii "del", readKeys "del" .del),
   (ascii "unlink", readKeys "del" .del),
   (ascii "exists", readKeys "exists" .exist),
   (ascii "expire", readExpire "expire" fun secs => i64 (secs * 1000)),
   (ascii "pexpire", readExpire "pexpire" fun ms => ms),
   (ascii "ttl", readKey "ttl" .ttl),
   (ascii "pttl", readKey "pttl" .pttl),
   (ascii "incr", readKey "incr" .incr),
   (ascii "incrby", readIncrby),
   (ascii "keys", fun args => .keys (keysPattern args)),
   (ascii "dbsize", fun _ => .dbsize),
   (ascii "flushall", fun _ => .flushall),
   (ascii "flushdb", fun _ => .flushall)]

/-- The command of a request. -/
def commandOf (req : RespValue) : Command :=
  match req.array with
  | [] => .reply invalidRequest
  | name :: args =>
      if req.type ≠ .array then .reply invalidRequest
      else
        match readers.lookup (name.str.map toLower) with
        | none => .reply (unknownCommand (name.str.map toLower))
        | some reader => reader (name :: args)

/-- The request a client sends for a line of words. -/
def requestOf (words : List String) : RespValue :=
  { type := .array
    array := words.map fun word => { type := .bulkString, str := ascii word } }

/-! ## What a command can hold -/

/-- Keys and values to be written are arguments of the request, and the options
of a `SET` are those its option loop finds. -/
def Command.From (args : List RespValue) : Command → Prop
  | .set key value o =>
      key ∈ args.map RespValue.str ∧ value ∈ args.map RespValue.str ∧
        ∃ opts, o = setOptions {} opts
  | .incr key => key ∈ args.map RespValue.str
  | .incrby key _ => key ∈ args.map RespValue.str
  | _ => True

section Readers

variable {p : Command → Prop} {args : List RespValue}

/-! What holds of an early reply and of the command a reader makes holds of
what it returns. -/

theorem readPing_ind (hreply : ∀ r, p (.reply r)) : p (readPing args) := by
  unfold readPing
  split
  · exact hreply _
  · exact hreply _

theorem readSet_ind (hreply : ∀ r, p (.reply r))
    (h : ∀ key ∈ args.map RespValue.str, ∀ value ∈ args.map RespValue.str, ∀ opts,
      p (.set key value (setOptions {} opts))) : p (readSet args) := by
  unfold readSet
  split
  · exact h _ (by simp) _ (by simp) _
  · exact hreply _

theorem readKey_ind {cmd : String} {make : Bytes → Command} (hreply : ∀ r, p (.reply r))
    (h : ∀ key ∈ args.map RespValue.str, p (make key)) : p (readKey cmd make args) := by
  unfold readKey
  split
  · exact h _ (by simp)
  · exact hreply _

theorem readKeys_ind {cmd : String} {make : List Bytes → Command} (hreply : ∀ r, p (.reply r))
    (h : ∀ keys, p (make keys)) : p (readKeys cmd make args) := by
  unfold readKeys
  split
  · exact h _
  · exact hreply _

theorem readExpire_ind {cmd : String} {toMs : Int → Int} (hreply : ∀ r, p (.reply r))
    (h : ∀ key ttlMs, p (.expire key ttlMs)) : p (readExpire cmd toMs args) := by
  unfold readExpire
  split
  · exact h _ _
  · exact hreply _

theorem readIncrby_ind (hreply : ∀ r, p (.reply r))
    (h : ∀ key ∈ args.map RespValue.str, ∀ delta, p (.incrby key delta)) : p (readIncrby args) := by
  unfold readIncrby
  split
  · split
    · exact hreply _
    · exact h _ (by simp) _
  · exact hreply _

end Readers

theorem readers_from : ∀ e ∈ readers, ∀ args, (e.2 args).From args := by
  have hreply : ∀ args r, (Command.reply r).From args := fun _ _ => trivial
  simp only [readers, List.forall_mem_cons]
  exact ⟨fun args => readPing_ind (hreply args),
    fun args => readSet_ind (hreply args) fun _ hkey _ hvalue opts => ⟨hkey, hvalue, opts, rfl⟩,
    fun args => readKey_ind (hreply args) fun _ _ => trivial,
    fun args => readKeys_ind (hreply args) fun _ => trivial,
    fun args => readKeys_ind (hreply args) fun _ => trivial,
    fun args => readKeys_ind (hreply args) fun _ => trivial,
    fun args => readExpire_ind (hreply args) fun _ _ => trivial,
    fun args => readExpire_ind (hreply args) fun _ _ => trivial,
    fun args => readKey_ind (hreply args) fun _ _ => trivial,
    fun args => readKey_ind (hreply args) fun _ _ => trivial,
    fun args => readKey_ind (hreply args) fun _ hkey => hkey,
    fun args => readIncrby_ind (hreply args) fun _ hkey _ => hkey,
    fun _ => trivial, fun _ => trivial, fun _ => trivial, fun _ => trivial, fun _ h => by cases h⟩

/-- The name a request is routed by. -/
def nameOf (req : RespValue) : Option Bytes :=
  if req.type ≠ .array then none else req.array.head?.map fun name => name.str.map toLower

/-- A request is answered at once, or read by the reader its name has in the
table. -/
theorem commandOf_cases (req : RespValue) :
    (∃ r, commandOf req = .reply r) ∨
      ∃ e ∈ readers, nameOf req = some e.1 ∧ commandOf req = e.2 req.array := by
  unfold commandOf nameOf
  cases req.array with
  | nil => exact .inl ⟨_, rfl⟩
  | cons name args =>
      by_cases htype : req.type ≠ .array
      · simp only [if_pos htype]
        exact .inl ⟨_, rfl⟩
      · simp only [if_neg htype]
        cases hreader : readers.lookup (name.str.map toLower) with
        | none => exact .inl ⟨_, rfl⟩
        | some reader =>
            obtain ⟨l₁, l₂, htable, -⟩ := List.lookup_eq_some_iff.mp hreader
            refine .inr ⟨(name.str.map toLower, reader), ?_, rfl, rfl⟩
            rw [htable]
            exact List.mem_append_right l₁ List.mem_cons_self

theorem commandOf_from (req : RespValue) : (commandOf req).From req.array := by
  rcases commandOf_cases req with ⟨r, hreply⟩ | ⟨e, he, -, hread⟩
  · rw [hreply]
    trivial
  · rw [hread]
    exact readers_from e he req.array

/-! ## The dispatcher runs the command -/

section Dispatch

variable (P : Platform) (maxKeys : Nat)

theorem countKeys_eq (op : Bytes → StoreProg Bool) (args : List RespValue) (n : Int) :
    countKeys op args n = countOf op (args.map RespValue.str) n := by
  induction args generalizing n with
  | nil => rfl
  | cons a args ih => simp only [countKeys, List.map_cons, countOf, ih]

theorem handlePing_eq (args : List RespValue) :
    handlePing args = (readPing args).prog P maxKeys := by
  match args with
  | [] | [_] => rfl
  | _ :: msg :: _ =>
      simp only [handlePing, readPing, Command.prog]
      split <;> rfl

theorem handleSet_eq (args : List RespValue) :
    handleSet P maxKeys args = (readSet args).prog P maxKeys := by
  match args with
  | [] | [_] | [_, _] | _ :: _ :: _ :: _ => rfl

theorem handleGet_eq (args : List RespValue) :
    handleGet P args = (readKey "get" .get args).prog P maxKeys := by
  match args with
  | [] | [_] => rfl
  | _ :: key :: _ =>
      simp only [handleGet, readKey, Command.prog, map_eq_pure_bind]
      congr 1
      funext val
      cases val <;> rfl

theorem countHandler_eq {cmd : String} (op : Bytes → StoreProg Bool) (make : List Bytes → Command)
    (h : ∀ ks, (make ks).prog P maxKeys = RespSerializer.integer <$> countOf op ks 0)
    (args : List RespValue) :
    countHandler cmd op args = (readKeys cmd make args).prog P maxKeys := by
  match args with
  | [] | [_] => rfl
  | _ :: a :: rest => simp only [countHandler, readKeys, h, countKeys_eq, map_eq_pure_bind]

theorem expireHandler_eq (cmd : String) (toMs : Int → Int) (args : List RespValue) :
    expireHandler P cmd toMs args = (readExpire cmd toMs args).prog P maxKeys := by
  match args with
  | [] | [_] | [_, _] => rfl
  | _ :: _ :: _ :: _ => simp only [expireHandler, readExpire, Command.prog, map_eq_pure_bind]

theorem handleTtl_eq (args : List RespValue) :
    handleTtl P args = (readKey "ttl" .ttl args).prog P maxKeys := by
  match args with
  | [] | [_] => rfl
  | _ :: key :: _ =>
      simp only [handleTtl, readKey, Command.prog, map_eq_pure_bind, ttlReply]
      congr 1
      funext ms
      split
      · rfl
      · split <;> rfl

theorem handlePttl_eq (args : List RespValue) :
    handlePttl P args = (readKey "pttl" .pttl args).prog P maxKeys := by
  match args with
  | [] | [_] => rfl
  | _ :: key :: _ => simp only [handlePttl, readKey, Command.prog, map_eq_pure_bind]

theorem handleIncr_eq (args : List RespValue) :
    handleIncr P args = (readKey "incr" .incr args).prog P maxKeys := by
  match args with
  | [] | [_] => rfl
  | _ :: key :: _ =>
      simp only [handleIncr, readKey, Command.prog, map_eq_pure_bind]
      congr 1
      funext result
      cases result <;> rfl

theorem handleIncrby_eq (args : List RespValue) :
    handleIncrby P maxKeys args = (readIncrby args).prog P maxKeys := by
  match args with
  | [] | [_] | [_, _] => rfl
  | _ :: key :: amount :: _ =>
      simp only [handleIncrby, readIncrby]
      split
      · rfl
      · rfl

theorem handleKeys_eq (args : List RespValue) :
    handleKeys P args = (Command.keys (keysPattern args)).prog P maxKeys := by
  simp only [handleKeys, Command.prog, map_eq_pure_bind]

/-- The two tables side by side. -/
theorem handlers_eq :
    handlers P maxKeys = readers.map fun e => (e.1, fun args => (e.2 args).prog P maxKeys) := by
  simp only [handlers, readers, List.map_cons, List.map_nil, ← handlePing_eq, ← handleSet_eq,
    ← handleGet_eq, ← expireHandler_eq, ← handleTtl_eq, ← handlePttl_eq, ← handleIncr_eq,
    ← handleIncrby_eq, ← handleKeys_eq,
    ← countHandler_eq P maxKeys (Store.del P) .del fun _ => rfl,
    ← countHandler_eq P maxKeys (Store.existsKey P) .exist fun _ => rfl]
  rfl

theorem lookup_readers (table : List (Bytes × Reader)) (cmd : Bytes) :
    (table.map fun e => (e.1, fun args => (e.2 args).prog P maxKeys)).lookup cmd =
      (table.lookup cmd).map fun reader args => (reader args).prog P maxKeys := by
  induction table with
  | nil => rfl
  | cons e table ih =>
      rw [List.map_cons, List.lookup_cons, List.lookup_cons]
      cases cmd == e.1 with
      | true => rfl
      | false => exact ih

/-- **The dispatcher runs the command of its request.** -/
theorem dispatch_eq (req : RespValue) :
    dispatch P maxKeys req = (commandOf req).prog P maxKeys := by
  unfold dispatch commandOf
  cases req.array with
  | nil => rfl
  | cons name args =>
      simp only
      split
      · rfl
      · rw [handlers_eq, lookup_readers]
        cases readers.lookup (name.str.map toLower) with
        | none => rfl
        | some reader => rfl

end Dispatch

/-! ## Commands keep the store valid -/

section Safety

variable (P : Platform) (maxKeys : Nat)

theorem existsIf_safe (flag : Bool) (key : Bytes) (otherwise : Bool) :
    Safe (Valid P) (existsIf P flag key otherwise) := by
  unfold existsIf
  split
  · exact Store.existsKey_safe P key
  · exact Safe.pure _

theorem countOf_safe {op : Bytes → StoreProg Bool} (h : ∀ k, Safe (Valid P) (op k))
    (ks : List Bytes) (n : Int) : Safe (Valid P) (countOf op ks n) := by
  induction ks generalizing n with
  | nil => exact Safe.pure _
  | cons k ks ih => exact Safe.bind (h k) fun _ => ih _

theorem Command.prog_safe (c : Command) : Safe (Valid P) (c.prog P maxKeys) := by
  cases c with
  | reply r => exact Safe.pure _
  | set key value opts =>
      refine Safe.bind (existsIf_safe P _ _ _) fun taken => ?_
      split
      · exact Safe.pure _
      · refine Safe.bind (existsIf_safe P _ _ _) fun present => ?_
        split
        · exact Safe.pure _
        · exact Safe.bind (Store.set_safe P maxKeys key value opts.ttlMs) fun _ => Safe.pure _
  | get key => exact (Store.get_safe P key).map
  | del ks => exact (countOf_safe P (Store.del_safe P) ks 0).map
  | exist ks => exact (countOf_safe P (Store.existsKey_safe P) ks 0).map
  | expire key ttlMs => exact (Store.expire_safe P key ttlMs).map
  | ttl key => exact (Store.ttl_safe P key).map
  | pttl key => exact (Store.ttl_safe P key).map
  | incr key => exact (Store.incr_safe P key).map
  | incrby key delta =>
      refine Safe.bind (Store.get_safe P key) fun cur => ?_
      split
      · exact Safe.pure _
      · exact Safe.bind (Store.set_safe P maxKeys key _ _) fun _ => Safe.pure _
  | keys pattern => exact (Store.keys_safe P pattern).map
  | dbsize => exact (Store.size_safe P).map
  | flushall => exact Safe.bind (Store.flush_safe P) fun _ => Safe.pure _

theorem dispatch_safe (req : RespValue) : Safe (Valid P) (dispatch P maxKeys req) := by
  rw [dispatch_eq]
  exact (commandOf req).prog_safe P maxKeys

end Safety

end RedisCache.Commands
