import Mathlib
import RedisCache.Protocol.RespSerializer
import RedisCache.Storage.Store

/-!
# The command handlers

The sixteen registered commands are fourteen functions. Each gets the
request's array, the command name first, and answers with the bytes of its
reply; what it does to the store is a program of store functions.

`std::from_chars` leaves its target alone when it fails, and most handlers
do not look at its error code: the first argument of `fromChars` is the value
the target had before.
-/

namespace RedisCache.Commands

open Sections Protocol Storage

/-- A `CommandHandler`, on `ctx.req.array`. -/
abbrev Handler := List RespValue → StoreProg Bytes

def wrongArgs (cmd : String) : Bytes :=
  RespSerializer.error
    (ascii "wrong number of arguments for '" ++ ascii cmd ++ ascii "' command")

def notAnInteger : Bytes := RespSerializer.error (ascii "value is not an integer or out of range")

/-! ## PING -/

def handlePing : Handler
  | _ :: msg :: _ =>
      if msg.type = .bulkString then pure (RespSerializer.bulk msg.str)
      else pure (RespSerializer.simple (ascii "PONG"))
  | _ => pure (RespSerializer.simple (ascii "PONG"))

/-! ## SET -/

/-- `std::toupper` on a byte, in the C locale. -/
def toUpper (c : UInt8) : UInt8 := if 97 ≤ c ∧ c ≤ 122 then c - 32 else c

structure SetOptions where
  ttlMs : Int := -1
  nx : Bool := false
  xx : Bool := false

/-- `NX` and `XX`; anything else is skipped. -/
def SetOptions.flag (o : SetOptions) (opt : Bytes) : SetOptions :=
  if opt = ascii "NX" then { o with nx := true }
  else if opt = ascii "XX" then { o with xx := true }
  else o

/-- The option loop. `EX` and `PX` take the next argument, if there is one. -/
def setOptions (o : SetOptions) : List RespValue → SetOptions
  | [] => o
  | [a] => o.flag (a.str.map toUpper)
  | a :: b :: rest =>
      if a.str.map toUpper = ascii "EX" then
        setOptions { o with ttlMs := i64 ((Decimal.fromChars 0 b.str).value * 1000) } rest
      else if a.str.map toUpper = ascii "PX" then
        setOptions { o with ttlMs := (Decimal.fromChars o.ttlMs b.str).value } rest
      else setOptions (o.flag (a.str.map toUpper)) (b :: rest)

/-- The store is asked only when the flag is set. -/
def existsIf (P : Platform) (flag : Bool) (key : Bytes) (otherwise : Bool) : StoreProg Bool :=
  if flag then Store.existsKey P key else pure otherwise

def handleSet (P : Platform) (maxKeys : Nat) : Handler
  | _ :: key :: value :: opts => do
      let taken ← existsIf P (setOptions {} opts).nx key.str false
      if taken then pure RespSerializer.nullBulk
      else do
        let present ← existsIf P (setOptions {} opts).xx key.str true
        if !present then pure RespSerializer.nullBulk
        else do
          Store.set P maxKeys key.str value.str (setOptions {} opts).ttlMs
          pure RespSerializer.ok
  | _ => pure (wrongArgs "set")

/-! ## GET -/

def handleGet (P : Platform) : Handler
  | _ :: key :: _ => do
      let val ← Store.get P key.str
      match val with
      | none => pure RespSerializer.nullBulk
      | some v => pure (RespSerializer.bulk v)
  | _ => pure (wrongArgs "get")

/-! ## DEL and EXISTS -/

/-- How many of the arguments `op` says yes to. -/
def countKeys (op : Bytes → StoreProg Bool) : List RespValue → Int → StoreProg Int
  | [], n => pure n
  | a :: rest, n => do
      let b ← op a.str
      countKeys op rest (if b then i64 (n + 1) else n)

def countHandler (cmd : String) (op : Bytes → StoreProg Bool) : Handler
  | _ :: a :: rest => do
      let n ← countKeys op (a :: rest) 0
      pure (RespSerializer.integer n)
  | _ => pure (wrongArgs cmd)

def handleDel (P : Platform) : Handler := countHandler "del" (Store.del P)

def handleExists (P : Platform) : Handler := countHandler "exists" (Store.existsKey P)

/-! ## EXPIRE and PEXPIRE -/

def expireHandler (P : Platform) (cmd : String) (toMs : Int → Int) : Handler
  | _ :: key :: amount :: _ => do
      let ok ← Store.expire P key.str (toMs (Decimal.fromChars 0 amount.str).value)
      pure (RespSerializer.integer (if ok then 1 else 0))
  | _ => pure (wrongArgs cmd)

def handleExpire (P : Platform) : Handler := expireHandler P "expire" fun secs => i64 (secs * 1000)

def handlePexpire (P : Platform) : Handler := expireHandler P "pexpire" fun ms => ms

/-! ## TTL and PTTL -/

/-- The two codes pass unchanged, a remaining time in whole seconds. -/
def handleTtl (P : Platform) : Handler
  | _ :: key :: _ => do
      let ms ← Store.ttl P key.str
      if ms = -2 then pure (RespSerializer.integer (-2))
      else if ms = -1 then pure (RespSerializer.integer (-1))
      else pure (RespSerializer.integer (ms.tdiv 1000))
  | _ => pure (wrongArgs "ttl")

def handlePttl (P : Platform) : Handler
  | _ :: key :: _ => do
      let ms ← Store.ttl P key.str
      pure (RespSerializer.integer ms)
  | _ => pure (wrongArgs "pttl")

/-! ## INCR and INCRBY -/

def handleIncr (P : Platform) : Handler
  | _ :: key :: _ => do
      let result ← Store.incr P key.str
      match result with
      | none => pure notAnInteger
      | some n => pure (RespSerializer.integer n)
  | _ => pure (wrongArgs "incr")

/-- `0` for a missing key. -/
def currentOf : Option Bytes → Decimal.Outcome
  | none => ⟨0, [], none⟩
  | some s => Decimal.fromChars 0 s

/-- Retrieve, add, store back: two store calls, and the expiry is lost. -/
def handleIncrby (P : Platform) (maxKeys : Nat) : Handler
  | _ :: key :: amount :: _ =>
      let delta := Decimal.fromChars 0 amount.str
      if delta.ec ≠ none then pure notAnInteger
      else do
        let curStr ← Store.get P key.str
        let cur := currentOf curStr
        if cur.ec ≠ none then pure notAnInteger
        else do
          Store.set P maxKeys key.str (Decimal.ofInt (i64 (cur.value + delta.value))) (-1)
          pure (RespSerializer.integer (i64 (cur.value + delta.value)))
  | _ => pure (wrongArgs "incrby")

/-! ## KEYS, DBSIZE, FLUSHALL -/

/-- The pattern, `*` when there is none. -/
def keysPattern : List RespValue → Bytes
  | _ :: pattern :: _ => pattern.str
  | _ => ascii "*"

def handleKeys (P : Platform) (args : List RespValue) : StoreProg Bytes := do
  let all ← Store.keys P (keysPattern args)
  pure (RespSerializer.array all)

def handleDbsize (_ : List RespValue) : StoreProg Bytes := do
  let n ← Store.size
  pure (RespSerializer.integer (i64 n))

def handleFlushall (_ : List RespValue) : StoreProg Bytes := do
  Store.flush
  pure RespSerializer.ok

end RedisCache.Commands
