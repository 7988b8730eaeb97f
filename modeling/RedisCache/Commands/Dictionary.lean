import Mathlib
import RedisCache.Commands.Effects
import RedisCache.Commands.Runs
import RedisCache.Lib.Replay
import RedisCache.Storage.Capacity

/-!
# The server as a dictionary

At one clock reading a deadline has either come or not, so all that a client
can see of the store is which keys have which values. `values` is that
dictionary, and `Command.on` says what a command does to it, one key at a
time: no command looks at another key than the one it writes.

`values_exec` is the refinement: below the key limit, the store a command
leaves behind holds the dictionary that `Command.on` computes.
`values_playFrom` says the same of whole runs.
-/

namespace RedisCache.Commands

open Sections Protocol Storage TimedMap

/-- Keys and values at `now`. -/
def values (P : Platform) (now : Int) (s : Shards) (k : Bytes) : Option Bytes :=
  (live now (view P s) k).map Item.value

/-- Whether an entry with this deadline can still be seen. -/
def lasts (now expiresAtMs : Int) : Bool := decide (expiresAtMs < 0) || decide (now < expiresAtMs)

/-- `INCR` and `INCRBY` on one key. -/
def added (delta : Int) (x : Option Bytes) : Option Bytes :=
  if (currentOf x).ec ≠ none then x
  else some (Decimal.ofInt (i64 ((currentOf x).value + delta)))

/-- Whether `NX` or `XX` keeps a `SET` from writing. -/
def SetOptions.refuses (o : SetOptions) (x : Option Bytes) : Bool :=
  (o.nx && x.isSome) || (o.xx && !x.isSome)

/-- What a command does to the value of `k`. -/
def Command.on (now : Int) (k : Bytes) (x : Option Bytes) : Command → Option Bytes
  | .set key value o =>
      if key = k ∧ o.refuses x = false then
        if lasts now (Store.deadlineOf now o.ttlMs) then some value else none
      else x
  | .del ks => if k ∈ ks then none else x
  | .expire key ttlMs => if key = k ∧ lasts now (i64 (now + ttlMs)) = false then none else x
  | .incr key => if key = k then added 1 x else x
  | .incrby key delta => if key = k then added delta x else x
  | .flushall => none
  | .reply _ | .get _ | .exist _ | .ttl _ | .pttl _ | .keys _ | .dbsize => x

/-! ## The refinement -/

section Refinement

variable (P : Platform) (maxKeys : Nat) (now : Int)

theorem alive_item (value : Bytes) (expiresAtMs : Int) (n : Option Nat) :
    (Entry.item ⟨value, expiresAtMs, n⟩).alive now = lasts now expiresAtMs := by
  by_cases h : 0 ≤ expiresAtMs
  · have hneg : ¬ expiresAtMs < 0 := not_lt.mpr h
    simp [Entry.item, Entry.hasExpiry, Item.alive, lasts, h, hneg]
  · have hneg : expiresAtMs < 0 := not_le.mp h
    simp [Entry.item, Entry.hasExpiry, Item.alive, lasts, h, hneg]

/-- What a stored entry looks like in the dictionary. -/
theorem visible_item (value : Bytes) (expiresAtMs : Int) (n : Option Nat) :
    ((some (Entry.item ⟨value, expiresAtMs, n⟩)).filter (Item.alive now)).map Item.value =
      if lasts now expiresAtMs then some value else none := by
  rw [Option.filter_some, alive_item]
  split <;> rfl

/-- A write to one key, seen in the dictionary. -/
theorem values_of_update {s s' : Shards} {key : Bytes} {o : Option (Item Bytes)}
    (h : view P s' = Function.update (view P s) key o) (k : Bytes) :
    values P now s' k =
      if key = k then (o.filter (Item.alive now)).map Item.value else values P now s k := by
  rw [values, h, live_update]
  by_cases hk : key = k
  · subst hk
    rw [Function.update_self, if_pos rfl]
  · rw [Function.update_of_ne (Ne.symm hk), if_neg hk, values]

theorem isSome_values (s : Shards) (k : Bytes) :
    (values P now s k).isSome = (live now (view P s) k).isSome := Option.isSome_map

variable {s : Shards}

theorem values_set (hroom : Store.total s < maxKeys) (key value : Bytes) (ttlMs : Int)
    (k : Bytes) :
    values P now ((Store.set P maxKeys key value ttlMs).exec now s).2 k =
      if key = k then
        if lasts now (Store.deadlineOf now ttlMs) then some value else none
      else values P now s k := by
  rw [values_of_update P now (Store.view_set P maxKeys now hroom key value ttlMs), visible_item]

theorem values_set_command (hroom : Store.total s < maxKeys) (key value : Bytes) (o : SetOptions)
    (k : Bytes) :
    values P now (((Command.set key value o).prog P maxKeys).exec now s).2 k =
      (Command.set key value o).on now k (values P now s k) := by
  have hrefuses : o.blocks (fun _ => now) (view P s) key = o.refuses (values P now s key) := by
    rw [SetOptions.blocks, SetOptions.refuses, isSome_values]
  rw [Prog.exec_snd]
  by_cases hk : key = k
  · subst hk
    cases hblocks : o.refuses (values P now s key) with
    | true =>
        rw [(run_set_blocked P maxKeys (w := ⟨fun _ => now, s⟩) (hrefuses.trans hblocks) value).2]
        simp [Command.on, hblocks]
    | false =>
        simp only [run_set_free P maxKeys (w := ⟨fun _ => now, s⟩) (hrefuses.trans hblocks) value,
          ← Prog.exec_snd, values_set P maxKeys now hroom, if_pos, Command.on, hblocks, and_self]
  · cases hblocks : o.refuses (values P now s key) with
    | true =>
        rw [(run_set_blocked P maxKeys (w := ⟨fun _ => now, s⟩) (hrefuses.trans hblocks) value).2]
        simp [Command.on, hk]
    | false =>
        simp only [run_set_free P maxKeys (w := ⟨fun _ => now, s⟩) (hrefuses.trans hblocks) value,
          ← Prog.exec_snd, values_set P maxKeys now hroom, Command.on, hk, false_and, if_false]

/-- `get` reclaims only what cannot be seen. -/
theorem values_get (key k : Bytes) :
    values P now ((Store.get P key).exec now s).2 k = values P now s k := by
  rw [values, Store.live_get, values]

theorem values_del (ks : List Bytes) (n : Int) (k : Bytes) :
    values P now ((countOf (Store.del P) ks n).exec now s).2 k =
      if k ∈ ks then none else values P now s k := by
  rw [Prog.exec_snd, values, view_run_countOf_del, live]
  split
  · rfl
  · rfl

theorem values_expire (key : Bytes) (ttlMs : Int) (k : Bytes) :
    values P now ((Store.expire P key ttlMs).exec now s).2 k =
      if key = k ∧ lasts now (i64 (now + ttlMs)) = false then none else values P now s k := by
  have hview := Store.view_run_expire_live P ⟨fun _ => now, s⟩ key ttlMs
  rw [Prog.exec_snd]
  cases hlive : live now (view P s) key with
  | none =>
      simp only [hlive] at hview
      rw [values, hview]
      split
      · rename_i h
        rw [← h.1, hlive, Option.map_none]
      · rfl
  | some it =>
      simp only [hlive] at hview
      rw [values_of_update P now hview, visible_item]
      by_cases hk : key = k
      · subst hk
        cases hlasts : lasts now (i64 (now + ttlMs)) with
        | true => simp [values, hlive]
        | false => simp
      · simp [hk]

/-- The counter `INCR` sees is the one `INCRBY` sees. -/
theorem counterOf_eq (key : Bytes) :
    Store.counterOf now (view P s) key =
      if (currentOf (values P now s key)).ec ≠ none then none
      else some (currentOf (values P now s key)).value := by
  rw [Store.counterOf, values]
  cases live now (view P s) key with
  | none => rfl
  | some it => rfl

theorem values_incr (key k : Bytes) :
    values P now ((Store.incr P key).exec now s).2 k =
      if key = k then added 1 (values P now s k) else values P now s k := by
  have hview := Store.view_incr P now s key
  rw [counterOf_eq] at hview
  by_cases hec : (currentOf (values P now s key)).ec ≠ none
  · simp only [if_pos hec] at hview
    rw [values, hview]
    split
    · rename_i hk
      subst hk
      rw [added, if_pos hec, values]
    · rfl
  · simp only [if_neg hec] at hview
    rw [values_of_update P now hview]
    split
    · rename_i hk
      subst hk
      rw [added, if_neg hec]
      rfl
    · rfl

theorem values_incrby (hs : ∀ i, Valid P i (s i)) (hroom : Store.total s < maxKeys)
    (key : Bytes) (delta : Int) (k : Bytes) :
    values P now (((Command.incrby key delta).prog P maxKeys).exec now s).2 k =
      if key = k then added delta (values P now s k) else values P now s k := by
  have hcur : ((Store.get P key).exec now s).1 = values P now s key :=
    Store.exec_get_fst P now s key
  have hroom' : Store.total ((Store.get P key).exec now s).2 < maxKeys :=
    lt_of_le_of_lt (Store.total_run_get_le (w := ⟨fun _ => now, s⟩) hs key) hroom
  rw [Command.prog, Prog.exec_bind, hcur]
  by_cases hec : (currentOf (values P now s key)).ec ≠ none
  · rw [if_pos hec, Prog.exec_pure, values_get]
    split
    · rename_i hk
      subst hk
      rw [added, if_pos hec]
    · rfl
  · have hforever : Store.deadlineOf now (-1) = -1 :=
      Store.deadlineOf_of_nonpos (by decide) now
    rw [if_neg hec, Prog.exec_bind, Prog.exec_pure, values_set P maxKeys now hroom', hforever,
      values_get]
    split
    · rename_i hk
      subst hk
      rw [added, if_neg hec]
      rfl
    · rfl

/-- **The refinement**: below the key limit a command does to the store what
`Command.on` does to the dictionary. -/
theorem values_exec (hs : ∀ i, Valid P i (s i)) (hroom : Store.total s < maxKeys) (c : Command)
    (k : Bytes) :
    values P now ((c.prog P maxKeys).exec now s).2 k = c.on now k (values P now s k) := by
  cases c with
  | reply r => rfl
  | set key value o => exact values_set_command P maxKeys now hroom key value o k
  | get key => simp only [Command.prog, Prog.exec_map, values_get, Command.on]
  | del ks => simp only [Command.prog, Prog.exec_map, values_del, Command.on]
  | exist ks =>
      simp only [Command.prog, Prog.exec_map, Prog.exec_snd, run_countOf_exists, Command.on]
  | expire key ttlMs => simp only [Command.prog, Prog.exec_map, values_expire, Command.on]
  | ttl key => simp only [Command.prog, Prog.exec_map, Prog.exec_snd, Store.run_ttl, Command.on]
  | pttl key => simp only [Command.prog, Prog.exec_map, Prog.exec_snd, Store.run_ttl, Command.on]
  | incr key => simp only [Command.prog, Prog.exec_map, values_incr, Command.on]
  | incrby key delta => exact values_incrby P maxKeys now hs hroom key delta k
  | keys pattern =>
      simp only [Command.prog, Prog.exec_map, Prog.exec_snd, Store.run_keys, Command.on]
  | dbsize => simp only [Command.prog, Prog.exec_map, Prog.exec_snd, Store.run_size, Command.on]
  | flushall =>
      simp only [Command.prog, Prog.exec_bind, Prog.exec_pure, values, Store.view_flush, live,
        Option.filter_none, Option.map_none, Command.on]

/-! ## Runs -/

/-- Requests one after the other, the clock standing still. -/
def still (cs : List RespValue) : List Turn := cs.map fun c => ⟨fun _ => now, some c⟩

/-- Every request of the run finds fewer than `max_keys` keys. -/
def HasRoom : Shards → List RespValue → Prop
  | _, [] => True
  | s, c :: cs =>
      Store.total s < maxKeys ∧
        HasRoom (Turn.next P maxKeys s ⟨fun _ => now, some c⟩) cs

/-- What the run does to the value of `k`, request by request. -/
def updates (cs : List RespValue) (k : Bytes) : List (Option Bytes → Option Bytes) :=
  cs.map fun c x => (commandOf c).on now k x

theorem values_next (hs : ∀ i, Valid P i (s i)) (hroom : Store.total s < maxKeys) (c : RespValue)
    (k : Bytes) :
    values P now (Turn.next P maxKeys s ⟨fun _ => now, some c⟩) k =
      (commandOf c).on now k (values P now s k) := by
  rw [Turn.next_request P maxKeys rfl, ← Prog.exec_snd, values_exec P maxKeys now hs hroom]

/-- **The refinement, over a run.** -/
theorem values_playFrom (hs : ∀ i, Valid P i (s i)) {cs : List RespValue}
    (hroom : HasRoom P maxKeys now s cs) (k : Bytes) :
    values P now (playFrom P maxKeys s (still now cs)) k =
      Replay.apply (updates now cs k) (values P now s k) := by
  induction cs generalizing s with
  | nil => rfl
  | cons c cs ih =>
      obtain ⟨hlt, hrest⟩ := hroom
      have hnext := ih (Turn.next_valid P maxKeys ⟨fun _ => now, some c⟩ hs) hrest
      rw [values_next P maxKeys now hs hlt] at hnext
      exact hnext

theorem HasRoom.take {cs : List RespValue} (h : HasRoom P maxKeys now s cs) (n : Nat) :
    HasRoom P maxKeys now s (cs.take n) := by
  induction cs generalizing s n with
  | nil => rwa [List.take_nil]
  | cons c cs ih =>
      cases n with
      | zero => trivial
      | succ n => exact ⟨h.1, ih h.2 n⟩

end Refinement

end RedisCache.Commands
