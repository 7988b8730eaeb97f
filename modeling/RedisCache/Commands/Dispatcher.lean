import Mathlib
import RedisCache.Commands.Handlers

/-!
# The dispatcher

Routes a request to its handler by the lower-cased first word.
-/

namespace RedisCache.Commands

open Sections Protocol Storage

/-- `std::tolower` on a byte, in the C locale. -/
def toLower (c : UInt8) : UInt8 := if 65 ≤ c ∧ c ≤ 90 then c + 32 else c

/-- The table `Dispatcher::Dispatcher` fills. -/
def handlers (P : Platform) (maxKeys : Nat) : List (Bytes × Handler) :=
  [(ascii "ping", handlePing),
   (ascii "set", handleSet P maxKeys),
   (ascii "get", handleGet P),
   (ascii "del", handleDel P),
   (ascii "unlink", handleDel P),
   (ascii "exists", handleExists P),
   (ascii "expire", handleExpire P),
   (ascii "pexpire", handlePexpire P),
   (ascii "ttl", handleTtl P),
   (ascii "pttl", handlePttl P),
   (ascii "incr", handleIncr P),
   (ascii "incrby", handleIncrby P maxKeys),
   (ascii "keys", handleKeys P),
   (ascii "dbsize", handleDbsize),
   (ascii "flushall", handleFlushall),
   (ascii "flushdb", handleFlushall)]

def invalidRequest : Bytes := RespSerializer.error (ascii "invalid request format")

/-- The name is put into the message as it came, lower-cased. -/
def unknownCommand (cmd : Bytes) : Bytes :=
  RespSerializer.error (ascii "unknown command '" ++ cmd ++ ascii "'")

/-- `Dispatcher::dispatch`. -/
def dispatch (P : Platform) (maxKeys : Nat) (req : RespValue) : StoreProg Bytes :=
  match req.array with
  | [] => pure invalidRequest
  | name :: args =>
      if req.type ≠ .array then pure invalidRequest
      else
        let cmd := name.str.map toLower
        match (handlers P maxKeys).lookup cmd with
        | none => pure (unknownCommand cmd)
        | some handler => handler (name :: args)

/-! ## The handlers of the table -/

/-- One case per handler; `unlink` and `flushdb` are second names. -/
inductive IsHandler (P : Platform) (maxKeys : Nat) : Handler → Prop
  | ping : IsHandler P maxKeys handlePing
  | set : IsHandler P maxKeys (handleSet P maxKeys)
  | get : IsHandler P maxKeys (handleGet P)
  | del : IsHandler P maxKeys (handleDel P)
  | exist : IsHandler P maxKeys (handleExists P)
  | expire : IsHandler P maxKeys (handleExpire P)
  | pexpire : IsHandler P maxKeys (handlePexpire P)
  | ttl : IsHandler P maxKeys (handleTtl P)
  | pttl : IsHandler P maxKeys (handlePttl P)
  | incr : IsHandler P maxKeys (handleIncr P)
  | incrby : IsHandler P maxKeys (handleIncrby P maxKeys)
  | keys : IsHandler P maxKeys (handleKeys P)
  | dbsize : IsHandler P maxKeys handleDbsize
  | flushall : IsHandler P maxKeys handleFlushall

/-- A lookup in the table finds one of them. -/
theorem isHandler_of_lookup {P : Platform} {maxKeys : Nat} {cmd : Bytes} {handler : Handler}
    (h : (handlers P maxKeys).lookup cmd = some handler) : IsHandler P maxKeys handler := by
  obtain ⟨l₁, l₂, htable, -⟩ := List.lookup_eq_some_iff.mp h
  have hmem : (cmd, handler) ∈ handlers P maxKeys := by
    rw [htable]
    exact List.mem_append_right l₁ List.mem_cons_self
  simp only [handlers, List.mem_cons, Prod.mk.injEq, List.not_mem_nil, or_false] at hmem
  rcases hmem with ⟨-, rfl⟩ | ⟨-, rfl⟩ | ⟨-, rfl⟩ | ⟨-, rfl⟩ | ⟨-, rfl⟩ | ⟨-, rfl⟩ | ⟨-, rfl⟩ |
    ⟨-, rfl⟩ | ⟨-, rfl⟩ | ⟨-, rfl⟩ | ⟨-, rfl⟩ | ⟨-, rfl⟩ | ⟨-, rfl⟩ | ⟨-, rfl⟩ | ⟨-, rfl⟩ |
    ⟨-, rfl⟩
  all_goals constructor

end RedisCache.Commands
