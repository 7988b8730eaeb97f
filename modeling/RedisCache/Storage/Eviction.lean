import Mathlib
import RedisCache.Storage.Capacity
import RedisCache.Storage.LruOrder

/-!
# What a `set` on a full store takes away

`set` evicts before it looks for its key. On a full store it takes the entry
at the back of the list of the fullest shard, the lowest one if there are
several (`victim`).

For a new key that is as it should be: one entry goes, one comes
(`set_evicts_victim`). For a key that is there already it costs another key,
unless the victim happens to be the key itself (`overwrite_keeps_iff`).
-/

namespace RedisCache.Storage

open Sections TimedMap Recency

namespace Store

variable {P : Platform} {maxKeys : Nat} {s : Shards}

/-- The key that `maybe_evict` would take from a full store. -/
def victim (s : Shards) : Option Bytes := (s (fullest (sizesOf s))).lru.keys.getLast?

theorem evicted_keys (hfull : maxKeys ≤ total s) (i : Index) :
    (evicted maxKeys s i).lru.keys =
      if i = fullest (sizesOf s) then (s i).lru.keys.dropLast else (s i).lru.keys := by
  rw [evicted_of_le hfull]
  by_cases hi : i = fullest (sizesOf s)
  · rw [if_pos hi, hi, Function.update_self, Shard.evict_keys]
  · rw [if_neg hi, Function.update_of_ne hi]

/-- A key that `maybe_evict` leaves outside the store goes to the front of its
shard's list; the other lists stay as they are then. -/
theorem run_set_keys {w : World Index Shard} (hs : ∀ i, Valid P i (w.cells i)) {key : Bytes}
    (hkey : view P (evicted maxKeys w.cells) key = none) (value : Bytes) (ttlMs : Int)
    (i : Index) :
    (((set P maxKeys key value ttlMs).run w).2.cells i).lru.keys =
      (if i = shardFor P key then [key] else []) ++ (evicted maxKeys w.cells i).lru.keys := by
  have hvalid := evicted_valid maxKeys hs
  rw [run_set]
  by_cases hi : i = shardFor P key
  · have hall : (evicted maxKeys w.cells (shardFor P key)).lru.keys.filter (· ≠ key) =
        (evicted maxKeys w.cells (shardFor P key)).lru.keys := by
      refine List.filter_eq_self.mpr fun a ha => ?_
      have hnew : key ∉ (evicted maxKeys w.cells (shardFor P key)).lru.keys := fun hmem =>
        (mem_lru_keys hvalid key).mp hmem hkey
      simpa using ne_of_mem_of_not_mem ha hnew
    subst hi
    rw [if_pos rfl, Function.update_self, Shard.setLocked_keys (hvalid _).consistent, toFront, hall]
    rfl
  · rw [if_neg hi, Function.update_of_ne hi]
    rfl

/-- **Eviction removes exactly the right entry.** A `set` of a new key on a full
store takes away one entry: that of the key at the back of the list of the
lowest shard among those with the most entries. All other entries stay, and
so does the order of all lists; the new key is in front of its shard's list,
with its value and the deadline asked for; and the size is what it was. -/
theorem set_evicts_victim (P : Platform) (maxKeys : Nat) (hmax : 1 ≤ maxKeys)
    (w : World Index Shard) (hs : ∀ i, Valid P i (w.cells i)) (hfull : maxKeys ≤ total w.cells)
    (key value : Bytes) (ttlMs : Int) (hkey : view P w.cells key = none) :
    ∃ i gone,
      IsLeast {i | ∀ j, (w.cells j).size ≤ (w.cells i).size} i ∧
      (w.cells i).lru.keys.getLast? = some gone ∧ view P w.cells gone ≠ none ∧
      view P ((set P maxKeys key value ttlMs).run w).2.cells =
        Function.update (Function.update (view P w.cells) gone none) key
          (some (Entry.item
            ⟨value, deadlineOf (w.clock (evictReadings maxKeys w.cells)) ttlMs, none⟩)) ∧
      (∀ j, (((set P maxKeys key value ttlMs).run w).2.cells j).lru.keys =
        (if j = shardFor P key then [key] else []) ++
          if j = i then (w.cells j).lru.keys.dropLast else (w.cells j).lru.keys) ∧
      total ((set P maxKeys key value ttlMs).run w).2.cells = total w.cells := by
  obtain ⟨gone, hvictim, -, hgone, hview⟩ := view_evicted hs (by omega) hfull
  have hset := view_run_set_evicted P maxKeys w key value ttlMs
  have hvalid := evicted_valid maxKeys hs
  have hone := total_remove hs hvalid hgone hview
  have hnew : view P (evicted maxKeys w.cells) key = none := by
    rw [hview]
    by_cases heq : key = gone
    · rw [heq, Function.update_self]
    · rw [Function.update_of_ne heq, hkey]
  have hinsert := total_insert hvalid ((set_safe P maxKeys key value ttlMs).run hs) hnew hset
  refine ⟨fullest (sizesOf w.cells), gone, fullest_isLeast w.cells, hvictim, hgone,
    by rw [hset, hview], fun j => ?_, by omega⟩
  rw [run_set_keys hs hnew, evicted_keys hfull]

/-- Room for two keys, which are `a` and `b`. -/
def holdingTwo : Shards :=
  (Trace.run .concrete 2
    [(fun _ => 0, .set (ascii "a") (ascii "1") (-1)),
     (fun _ => 0, .set (ascii "b") (ascii "2") (-1))]).store

theorem holdingTwo_valid : ∀ i, Valid .concrete i (holdingTwo i) := Trace.run_valid _

/-- A third key takes the place of one of the two. -/
theorem set_evicts_of_two :
    view .concrete holdingTwo (ascii "c") = none ∧
    ∃ gone, view .concrete holdingTwo gone ≠ none ∧
      view .concrete
          ((set .concrete 2 (ascii "c") (ascii "3") 5).run ⟨fun _ => 0, holdingTwo⟩).2.cells =
        Function.update (Function.update (view .concrete holdingTwo) gone none) (ascii "c")
          (some ⟨ascii "3", some 5⟩) := by
  have hnew : view .concrete holdingTwo (ascii "c") = none :=
    Option.isNone_iff_eq_none.mp (by decide +kernel)
  obtain ⟨i, gone, -, -, hgone, hview, -, -⟩ := set_evicts_victim .concrete 2 (by decide)
    ⟨fun _ => 0, holdingTwo⟩ holdingTwo_valid (by decide +kernel) (ascii "c") (ascii "3") 5 hnew
  exact ⟨hnew, gone, hgone, hview⟩

/-- **When overwriting costs no other key.** A `set` of a key that is there
leaves the entries of all other keys as they are exactly if the store is not
full, or the key is itself the one that is evicted. -/
theorem overwrite_keeps_iff (P : Platform) (maxKeys : Nat) (w : World Index Shard)
    (hs : ∀ i, Valid P i (w.cells i)) (key value : Bytes) (ttlMs : Int)
    (hkey : view P w.cells key ≠ none) :
    (∀ k, k ≠ key →
        view P ((set P maxKeys key value ttlMs).run w).2.cells k = view P w.cells k) ↔
      total w.cells < maxKeys ∨ victim w.cells = some key := by
  rw [view_run_set_evicted]
  by_cases hlt : total w.cells < maxKeys
  · refine ⟨fun _ => .inl hlt, fun _ k hk => ?_⟩
    rw [Function.update_of_ne hk, evicted_of_lt maxKeys hlt]
  · obtain ⟨gone, hvictim, -, hgone, hview⟩ := view_evicted hs (total_pos hs hkey) (not_lt.mp hlt)
    rw [hview, victim, hvictim, Option.some.injEq]
    constructor
    · intro hkeep
      refine .inr (by_contra fun hne => hgone ?_)
      rw [← hkeep gone hne, Function.update_of_ne hne, Function.update_self]
    · rintro (hroom | rfl)
      · exact absurd hroom hlt
      · intro k hk
        rw [Function.update_of_ne hk, Function.update_of_ne hk]

/-- `a` is the victim, so writing it again costs nothing. -/
theorem overwrite_keeps_victim :
    view .concrete holdingTwo (ascii "a") ≠ none ∧
    ∀ k, k ≠ ascii "a" →
      view .concrete
          ((set .concrete 2 (ascii "a") (ascii "3") (-1)).run ⟨fun _ => 0, holdingTwo⟩).2.cells k =
        view .concrete holdingTwo k := by
  have hkey : view .concrete holdingTwo (ascii "a") ≠ none :=
    Option.isSome_iff_ne_none.mp (by decide +kernel)
  exact ⟨hkey, (overwrite_keeps_iff .concrete 2 ⟨fun _ => 0, holdingTwo⟩ holdingTwo_valid
    (ascii "a") (ascii "3") (-1) hkey).mpr (.inr (by decide +kernel))⟩

/-- Writing `b` again takes `a` away, and the store is left with one key. -/
theorem overwrite_evicts_other :
    view .concrete holdingTwo (ascii "b") ≠ none ∧ view .concrete holdingTwo (ascii "a") ≠ none ∧
    view .concrete
        ((set .concrete 2 (ascii "b") (ascii "3") (-1)).run ⟨fun _ => 0, holdingTwo⟩).2.cells
        (ascii "a") = none ∧
    total ((set .concrete 2 (ascii "b") (ascii "3") (-1)).run ⟨fun _ => 0, holdingTwo⟩).2.cells =
      1 := by
  refine ⟨Option.isSome_iff_ne_none.mp ?_, Option.isSome_iff_ne_none.mp ?_,
    Option.isNone_iff_eq_none.mp ?_, ?_⟩ <;> decide +kernel

end Store

end RedisCache.Storage
