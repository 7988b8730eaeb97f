import Mathlib
import RedisCache.Lib.Sections
import RedisCache.Storage.Shard

/-!
# The store

`Store` is sixteen shards, each behind its own `std::shared_mutex`. Every
member function is a program of lock-protected sections: the code between
taking one shard's lock and releasing it is one section, and `util::now_ms()`
is a clock reading, inside a section or between two.

The same programs run alone (`Prog.exec`, a single-threaded server at one
clock reading) and next to other threads (`Pool.run`).

* `Call` / `Call.prog` — the public functions, with their results;
* `Client` — a thread that makes one call after another, each chosen from
  the results so far.
-/

namespace RedisCache.Storage

open Sections

/-- Which shard: `SHARD_COUNT` is 16. -/
abbrev Index := Fin 16

/-- Code that works on the shards. -/
abbrev StoreProg := Prog Index Shard

/-- The contents of a store. -/
abbrev Shards := Index → Shard

/-- What `for_each` passes to its callback: key, value, deadline. -/
abbrev Record := Bytes × Bytes × Int

namespace Store

/-- The order in which every loop visits the shards. -/
def shards : List Index := List.finRange 16

def shardFor (P : Platform) (key : Bytes) : Index := Fin.ofNat 16 (P.hash key)

/-- `Store::Store`: nothing but reserved buckets. -/
def empty : Shards := fun _ => {}

/-! ## Eviction -/

/-- The shard sizes, one shared lock after the other. -/
def sizes : StoreProg (List Nat) := Prog.eachCell (fun sh => (sh.size, sh)) shards

def size : StoreProg Nat := do
  let ns ← sizes
  pure ns.sum

/-- The scan for the fullest shard: the first of the largest, shard 0 when all
were empty. -/
def fullest (ns : List Nat) : Index :=
  ((shards.zip ns).foldl (fun best e => if best.2 < e.2 then e else best) (0, 0)).1

/-- The shard is picked in one run of sections and evicted from in a later
one. -/
def maybeEvict (maxKeys : Nat) : StoreProg Unit := do
  let approx ← size
  if approx < maxKeys then
    pure ()
  else
    let ns ← sizes
    Prog.locked (fullest ns) fun _ sh => ((), sh.evict)

/-! ## The public functions -/

/-- The deadline a `set` stores; the clock is read only for a positive TTL. -/
def expiresAt (ttlMs : Int) : StoreProg Int :=
  if 0 < ttlMs then do
    let now ← Prog.now
    pure (i64 (now + ttlMs))
  else
    pure (-1)

def set (P : Platform) (maxKeys : Nat) (key value : Bytes) (ttlMs : Int) : StoreProg Unit := do
  maybeEvict maxKeys
  let deadline ← expiresAt ttlMs
  Prog.locked (shardFor P key) fun _ sh => ((), sh.setLocked key value deadline)

def get (P : Platform) (key : Bytes) : StoreProg (Option Bytes) := do
  let r ← Prog.locked (shardFor P key) fun t sh => (sh.getShared key (t 0), sh)
  match r with
  | some r => pure r
  | none => Prog.locked (shardFor P key) fun t sh => sh.getExclusive key (t 0)

def del (P : Platform) (key : Bytes) : StoreProg Bool :=
  Prog.locked (shardFor P key) fun _ sh => sh.del key

def existsKey (P : Platform) (key : Bytes) : StoreProg Bool :=
  Prog.locked (shardFor P key) fun t sh => (sh.existsKey key (t 0), sh)

def ttl (P : Platform) (key : Bytes) : StoreProg Int :=
  Prog.locked (shardFor P key) fun t sh => (sh.ttl key (t 0), sh)

def expire (P : Platform) (key : Bytes) (ttlMs : Int) : StoreProg Bool :=
  Prog.locked (shardFor P key) fun t sh => sh.expire key ttlMs (t 0) (t 1)

def incr (P : Platform) (key : Bytes) : StoreProg (Option Int) :=
  Prog.locked (shardFor P key) fun t sh => sh.incr key (t 0)

def keys (P : Platform) (pattern : Bytes) : StoreProg (List Bytes) := do
  let now ← Prog.now
  let found ← Prog.eachCell (fun sh => (sh.keys P pattern now, sh)) shards
  pure found.flatten

def flush : StoreProg Unit := do
  let _ ← Prog.eachCell (fun sh => ((), sh.flush)) shards
  pure ()

def sweepExpired : StoreProg Unit := do
  let now ← Prog.now
  let _ ← Prog.eachCell (fun sh => ((), sh.sweepExpired now)) shards
  pure ()

/-- The records in the order the callback gets them. -/
def forEach : StoreProg (List Record) := do
  let now ← Prog.now
  let found ← Prog.eachCell (fun sh => (sh.snapshot now, sh)) shards
  pure found.flatten

end Store

/-! ## Calls and clients -/

inductive Call where
  | set (key value : Bytes) (ttlMs : Int)
  | get (key : Bytes)
  | del (key : Bytes)
  | existsKey (key : Bytes)
  | ttl (key : Bytes)
  | expire (key : Bytes) (ttlMs : Int)
  | incr (key : Bytes)
  | keys (pattern : Bytes)
  | flush
  | sweepExpired
  | forEach
  | size

/-- What a call returns. -/
inductive Reply where
  | unit
  | value (v : Option Bytes)
  | flag (b : Bool)
  | number (n : Int)
  | counter (n : Option Int)
  | names (ks : List Bytes)
  | records (rs : List Record)
  | count (n : Nat)

def Call.prog (P : Platform) (maxKeys : Nat) : Call → StoreProg Reply
  | .set key value ttlMs => do
      Store.set P maxKeys key value ttlMs
      pure .unit
  | .get key => .value <$> Store.get P key
  | .del key => .flag <$> Store.del P key
  | .existsKey key => .flag <$> Store.existsKey P key
  | .ttl key => .number <$> Store.ttl P key
  | .expire key ttlMs => .flag <$> Store.expire P key ttlMs
  | .incr key => .counter <$> Store.incr P key
  | .keys pattern => .names <$> Store.keys P pattern
  | .flush => do
      Store.flush
      pure .unit
  | .sweepExpired => do
      Store.sweepExpired
      pure .unit
  | .forEach => .records <$> Store.forEach
  | .size => .count <$> Store.size

/-- A thread of the server, as the store sees it. -/
inductive Client where
  | done
  | call (c : Call) (next : Reply → Client)

def Client.prog (P : Platform) (maxKeys : Nat) : Client → StoreProg Unit
  | .done => pure ()
  | .call c next => do
      let r ← c.prog P maxKeys
      (next r).prog P maxKeys

end RedisCache.Storage
