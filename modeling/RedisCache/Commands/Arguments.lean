import Mathlib
import RedisCache.Commands.Dispatcher

/-!
# What a handler reads of its arguments

Their texts. A request in which every argument has been replaced by a bulk
string of the same text runs the same handler, and every handler but `PING`
is then the same program; `PING` looks at the type of its argument, but does
not touch the store. So the rewritten request has the effect of the original
(`dispatch_asBulks`).
-/

namespace RedisCache.Commands

open Sections Protocol Storage

/-- The argument as a bulk string. Integers, nulls and arrays have an empty
text. -/
def asBulk (a : RespValue) : RespValue := { type := .bulkString, str := a.str }

/-- The request with all its arguments as bulk strings. -/
def asBulks (req : RespValue) : RespValue := { type := .array, array := req.array.map asBulk }

@[simp] theorem asBulk_str (a : RespValue) : (asBulk a).str = a.str := rfl

/-- The handler sees the texts of its arguments, nothing else. -/
def Textual (handler : Handler) : Prop := ∀ args, handler (args.map asBulk) = handler args

theorem setOptions_asBulk (o : SetOptions) (args : List RespValue) :
    setOptions o (args.map asBulk) = setOptions o args := by
  fun_induction setOptions o args with
  | case1 => rfl
  | case2 => rfl
  | case3 o a b rest hex ih =>
      rw [List.map_cons, List.map_cons, setOptions]
      exact (if_pos hex).trans ih
  | case4 o a b rest hex hpx ih =>
      rw [List.map_cons, List.map_cons, setOptions]
      exact (if_neg hex).trans ((if_pos hpx).trans ih)
  | case5 o a b rest hex hpx ih =>
      rw [List.map_cons, List.map_cons, setOptions]
      exact (if_neg hex).trans ((if_neg hpx).trans ih)

theorem countKeys_asBulk (op : Bytes → StoreProg Bool) (args : List RespValue) (n : Int) :
    countKeys op (args.map asBulk) n = countKeys op args n := by
  induction args generalizing n with
  | nil => rfl
  | cons a args ih => simp only [List.map_cons, countKeys, asBulk_str, ih]

theorem set_textual (P : Platform) (maxKeys : Nat) : Textual (handleSet P maxKeys)
  | [] | [_] | [_, _] => rfl
  | _ :: _ :: _ :: opts => by
      simp only [List.map_cons, handleSet, asBulk_str, setOptions_asBulk]

theorem get_textual (P : Platform) : Textual (handleGet P)
  | [] | [_] | _ :: _ :: _ => rfl

theorem count_textual (cmd : String) (op : Bytes → StoreProg Bool) : Textual (countHandler cmd op)
  | [] | [_] => rfl
  | _ :: a :: rest => by
      have h := countKeys_asBulk op (a :: rest) 0
      simp only [List.map_cons] at h
      simp only [List.map_cons, countHandler, h]

theorem expire_textual (P : Platform) (cmd : String) (toMs : Int → Int) :
    Textual (expireHandler P cmd toMs)
  | [] | [_] | [_, _] | _ :: _ :: _ :: _ => rfl

theorem ttl_textual (P : Platform) : Textual (handleTtl P)
  | [] | [_] | _ :: _ :: _ => rfl

theorem pttl_textual (P : Platform) : Textual (handlePttl P)
  | [] | [_] | _ :: _ :: _ => rfl

theorem incr_textual (P : Platform) : Textual (handleIncr P)
  | [] | [_] | _ :: _ :: _ => rfl

theorem incrby_textual (P : Platform) (maxKeys : Nat) : Textual (handleIncrby P maxKeys)
  | [] | [_] | [_, _] | _ :: _ :: _ :: _ => rfl

theorem keys_textual (P : Platform) : Textual (handleKeys P)
  | [] | [_] | _ :: _ :: _ => rfl

/-- `PING` touches nothing. -/
theorem ping_run (args : List RespValue) (w : World Index Shard) :
    ((handlePing args).run w).2 = w := by
  unfold handlePing
  split
  · split <;> rfl
  · rfl

/-- The same effect on the store, for every entry of the table. -/
theorem IsHandler.asBulk {P : Platform} {maxKeys : Nat} {handler : Handler}
    (h : IsHandler P maxKeys handler) (args : List RespValue) (w : World Index Shard) :
    ((handler (args.map asBulk)).run w).2 = ((handler args).run w).2 := by
  cases h with
  | ping => rw [ping_run, ping_run]
  | set => rw [set_textual P maxKeys args]
  | get => rw [get_textual P args]
  | del => rw [handleDel, count_textual _ _ args]
  | exist => rw [handleExists, count_textual _ _ args]
  | expire => rw [handleExpire, expire_textual P _ _ args]
  | pexpire => rw [handlePexpire, expire_textual P _ _ args]
  | ttl => rw [ttl_textual P args]
  | pttl => rw [pttl_textual P args]
  | incr => rw [incr_textual P args]
  | incrby => rw [incrby_textual P maxKeys args]
  | keys => rw [keys_textual P args]
  | dbsize => rfl
  | flushall => rfl

/-- **Rewriting the arguments as bulk strings keeps the effect**: the store and
the clock readings used are the same. -/
theorem dispatch_asBulks (P : Platform) (maxKeys : Nat) {req : RespValue}
    (h : req.type = .array) (w : World Index Shard) :
    ((dispatch P maxKeys (asBulks req)).run w).2 = ((dispatch P maxKeys req).run w).2 := by
  unfold dispatch asBulks
  cases req.array with
  | nil => rfl
  | cons name args =>
      simp only [List.map_cons, h, ne_eq, not_true_eq_false, if_false, asBulk_str]
      cases hl : (handlers P maxKeys).lookup (name.str.map toLower) with
      | none => rfl
      | some handler =>
          exact (isHandler_of_lookup hl).asBulk (name :: args) w

end RedisCache.Commands
