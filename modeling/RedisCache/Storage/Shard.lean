import Mathlib
import RedisCache.Storage.LruEviction

/-!
# One shard and its sections

A shard is a hash map, an LRU list and, for each entry, a heap cell that
holds the iterator of the entry's list node (`new LruList::Node(...)`).
A cell is written once, when its node is made, so the model names it by
the node it holds; `cells` are the cells not yet deleted.

Every function here is the body of one lock-protected section of
`Store.cpp`. Using a cell or a node after it is gone is undefined
behaviour: the model records the first such use in `fault`, and the
representation invariant says that there is none.

`std::unordered_map` is Mathlib's `AList`, an association list with
distinct keys; nothing depends on its order, as nothing in the source
does.
-/

namespace RedisCache.Storage

/-- A cached value with expiry metadata and an LRU list handle. -/
structure Entry where
  value : Bytes
  expiresAtMs : Int := -1
  lruNode : Option Node := none

namespace Entry

def hasExpiry (e : Entry) : Bool := decide (0 ≤ e.expiresAtMs)

def isExpired (e : Entry) (nowMs : Int) : Bool := e.hasExpiry && decide (e.expiresAtMs ≤ nowMs)

end Entry

/-- `std::unordered_map<std::string, Entry>`. -/
abbrev Map := AList (fun _ : Bytes => Entry)

namespace Map

def find (m : Map) (key : Bytes) : Option Entry := AList.lookup key m

@[simp] theorem find_empty (key : Bytes) : find ∅ key = none := AList.lookup_empty key

@[simp] theorem find_insert (m : Map) (k k' : Bytes) (e : Entry) :
    find (m.insert k e) k' = if k' = k then some e else m.find k' := by
  by_cases h : k' = k
  · subst h
    simp [find]
  · simp [find, h, AList.lookup_insert_ne h]

@[simp] theorem find_erase (m : Map) (k k' : Bytes) :
    find (m.erase k) k' = if k' = k then none else m.find k' := by
  by_cases h : k' = k
  · subst h
    simp [find]
  · simp [find, h, AList.lookup_erase_ne h]

theorem mem_entries_iff {m : Map} {k : Bytes} {e : Entry} :
    ⟨k, e⟩ ∈ m.entries ↔ m.find k = some e := by
  rw [find, ← Option.mem_def]
  exact AList.mem_lookup_iff.symm

theorem entries_keys_nodup (m : Map) : (m.entries.map Sigma.fst).Nodup := m.nodupKeys

end Map

/-- What undefined behaviour or internal exception a section ran into: a null
handle, a deleted cell, an erased list node, eviction from an empty list. -/
inductive Fault where
  | nullNode
  | deadCell
  | deadNode
  | emptyLru
deriving DecidableEq, Repr

structure Shard where
  map : Map := ∅
  lru : LruList := {}
  cells : List Node := []
  fault : Option Fault := none

namespace Shard

/-! ## Node handles -/

/-- Keep the first fault. -/
def raise (sh : Shard) (f : Fault) : Shard := { sh with fault := sh.fault.or (some f) }

/-- `*static_cast<LruList::Node*>(e.lru_node)`, then `use` it on the list. -/
def useNode (sh : Shard) (e : Entry) (use : LruList → Node → LruList) : Shard :=
  match e.lruNode with
  | none => sh.raise .nullNode
  | some n =>
      if n ∉ sh.cells then sh.raise .deadCell
      else if n ∉ sh.lru.nodes then sh.raise .deadNode
      else { sh with lru := use sh.lru n }

/-- `delete node`; deleting a null pointer does nothing. -/
def deleteNode (sh : Shard) (e : Entry) : Shard :=
  match e.lruNode with
  | none => sh
  | some n =>
      if n ∉ sh.cells then sh.raise .deadCell
      else { sh with cells := sh.cells.erase n }

/-- The removal sequence shared by `get`, `del`, `incr` and `sweep_expired`:
list node, cell, map entry. -/
def removeEntry (sh : Shard) (key : Bytes) (e : Entry) : Shard :=
  let sh := (sh.useNode e LruList.remove).deleteNode e
  { sh with map := sh.map.erase key }

@[simp] theorem useNode_map (sh : Shard) (e : Entry) (use : LruList → Node → LruList) :
    (sh.useNode e use).map = sh.map := by
  unfold useNode
  split
  · rfl
  · split
    · rfl
    · split <;> rfl

@[simp] theorem deleteNode_map (sh : Shard) (e : Entry) : (sh.deleteNode e).map = sh.map := by
  unfold deleteNode
  split
  · rfl
  · split <;> rfl

@[simp] theorem removeEntry_map (sh : Shard) (key : Bytes) (e : Entry) :
    (sh.removeEntry key e).map = sh.map.erase key := by
  simp [removeEntry]

/-! ## The sections -/

def setLocked (sh : Shard) (key value : Bytes) (expiresAt : Int) : Shard :=
  match sh.map.find key with
  | some e =>
      { sh with
        map := sh.map.insert key { e with value := value, expiresAtMs := expiresAt } }.useNode
          e LruList.touch
  | none =>
      let (n, lru) := sh.lru.insert key
      { sh with
        map := sh.map.insert key { value := value, expiresAtMs := expiresAt, lruNode := some n }
        lru := lru
        cells := n :: sh.cells }

/-- `get` under the shared lock: `some r` returns `r`, `none` falls through to
the exclusive path. -/
def getShared (sh : Shard) (key : Bytes) (now : Int) : Option (Option Bytes) :=
  match sh.map.find key with
  | none => some none
  | some e => if e.isExpired now then none else some (some e.value)

/-- `get` under the exclusive lock: the entry is looked up again. -/
def getExclusive (sh : Shard) (key : Bytes) (now : Int) : Option Bytes × Shard :=
  match sh.map.find key with
  | none => (none, sh)
  | some e =>
      if e.isExpired now then (none, sh.removeEntry key e)
      else (some e.value, sh.useNode e LruList.touch)

def del (sh : Shard) (key : Bytes) : Bool × Shard :=
  match sh.map.find key with
  | none => (false, sh)
  | some e => (true, sh.removeEntry key e)

def existsKey (sh : Shard) (key : Bytes) (now : Int) : Bool :=
  match sh.map.find key with
  | none => false
  | some e => !e.isExpired now

def ttl (sh : Shard) (key : Bytes) (now : Int) : Int :=
  match sh.map.find key with
  | none => -2
  | some e =>
      if !e.hasExpiry then -1
      else
        let remaining := i64 (e.expiresAtMs - now)
        if 0 < remaining then remaining else -2

/-- The section reads the clock twice: for the expiry test and for the new
deadline. -/
def expire (sh : Shard) (key : Bytes) (ttlMs : Int) (now now' : Int) : Bool × Shard :=
  match sh.map.find key with
  | none => (false, sh)
  | some e =>
      if e.isExpired now then (false, sh)
      else
        (true, { sh with map := sh.map.insert key { e with expiresAtMs := i64 (now' + ttlMs) } })

/-- `++current`, store its numeral, no expiry. -/
def bump (sh : Shard) (key : Bytes) (current : Int) : Option Int × Shard :=
  let next := i64 (current + 1)
  (some next, sh.setLocked key (Decimal.ofInt next) (-1))

def incr (sh : Shard) (key : Bytes) (now : Int) : Option Int × Shard :=
  match sh.map.find key with
  | none => sh.bump key 0
  | some e =>
      if e.isExpired now then (sh.removeEntry key e).bump key 0
      else
        -- only the error code is tested, not where the parse stopped
        let r := Decimal.fromChars 0 e.value
        if r.ec ≠ none then (none, sh) else sh.bump key r.value

/-- The NUL-terminated string `c_str()` shows to a C function. -/
def cStr (s : Bytes) : Bytes := s.takeWhile (· ≠ 0)

def keys (P : Platform) (pattern : Bytes) (now : Int) (sh : Shard) : List Bytes :=
  (sh.map.entries.filter fun e =>
    !e.2.isExpired now && (pattern == ascii "*" || P.fnmatch (cStr pattern) (cStr e.1))).map
      fun e => e.1

def flush (sh : Shard) : Shard :=
  let sh := sh.map.entries.foldl (fun sh e => sh.deleteNode e.2) sh
  { sh with map := ∅, lru := sh.lru.clear }

def sweepExpired (now : Int) (sh : Shard) : Shard :=
  sh.map.entries.foldl (fun sh e => if e.2.isExpired now then sh.removeEntry e.1 e.2 else sh) sh

/-- The live entries, as `for_each` hands them to its callback. -/
def snapshot (now : Int) (sh : Shard) : List (Bytes × Bytes × Int) :=
  (sh.map.entries.filter fun e => !e.2.isExpired now).map fun e =>
    (e.1, e.2.value, e.2.expiresAtMs)

def size (sh : Shard) : Nat := sh.map.entries.length

/-- The eviction section. The list node goes first, then the cell and the
entry of the key it held. -/
def evict (sh : Shard) : Shard :=
  if sh.lru.empty then sh
  else
    match sh.lru.evictLru with
    | none => sh.raise .emptyLru
    | some (key, lru) =>
        let sh := { sh with lru := lru }
        match sh.map.find key with
        | none => sh
        | some e =>
            let sh := sh.deleteNode e
            { sh with map := sh.map.erase key }

end Shard

end RedisCache.Storage
