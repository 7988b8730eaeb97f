import Mathlib
import RedisCache.Storage.Threads

/-!
# The store functions, alone

One equation for each store function that runs alone: its result and the
shards it leaves, from the shards it found and the clock readings it took.
The readings are any sequence, and `set` evicts when it has to.
-/

namespace RedisCache.Storage

open Sections

namespace Store

variable (P : Platform) (maxKeys : Nat)

theorem mem_shards (i : Index) : i ∈ shards := List.mem_finRange i

theorem shards_nodup : shards.Nodup := List.nodup_finRange 16

/-- One section on every shard. -/
theorem run_eachShard {α : Type} (body : Shard → α × Shard) (w : World Index Shard) :
    (Prog.eachCell body shards).run w =
      (shards.map fun i => (body (w.cells i)).1,
        ⟨fun n => w.clock (n + 32), fun i => (body (w.cells i)).2⟩) := by
  rw [Prog.run_eachCell body shards_nodup]
  simp [shards]

theorem run_eachShard_read {α : Type} (body : Shard → α) (w : World Index Shard) :
    (Prog.eachCell (fun sh => (body sh, sh)) shards).run w =
      (shards.map fun i => body (w.cells i), ⟨fun n => w.clock (n + 32), w.cells⟩) :=
  run_eachShard _ w

/-! ## Eviction -/

/-- The sizes of the shards of a store at rest. -/
def sizesOf (s : Shards) : List Nat := shards.map fun i => (s i).size

/-- `size()` of a store at rest. -/
def total (s : Shards) : Nat := (shards.map fun i => (s i).size).sum

theorem run_sizes (w : World Index Shard) :
    sizes.run w = (sizesOf w.cells, ⟨fun n => w.clock (n + 32), w.cells⟩) :=
  run_eachShard_read _ w

theorem run_size (w : World Index Shard) :
    size.run w = (total w.cells, ⟨fun n => w.clock (n + 32), w.cells⟩) := by
  rw [size, Prog.run_bind, run_sizes]
  rfl

/-- The store behind `maybe_evict`. -/
def evicted (s : Shards) : Shards :=
  if total s < maxKeys then s
  else Function.update s (fullest (sizesOf s)) (s (fullest (sizesOf s))).evict

/-- How many clock readings `maybe_evict` has room for. -/
def evictReadings (s : Shards) : Nat := if total s < maxKeys then 32 else 66

theorem run_maybeEvict (w : World Index Shard) :
    (maybeEvict maxKeys).run w =
      ((), ⟨fun n => w.clock (n + evictReadings maxKeys w.cells), evicted maxKeys w.cells⟩) := by
  rw [maybeEvict, Prog.run_bind, run_size]
  by_cases h : total w.cells < maxKeys
  · simp only [evictReadings, evicted, if_pos h]
    rfl
  · simp only [evictReadings, evicted, if_neg h]
    rw [Prog.run_bind, run_sizes, Prog.run_locked]

/-! ## The public functions -/

/-- The deadline a `set` at `now` asks for. -/
def deadlineOf (now ttlMs : Int) : Int := if 0 < ttlMs then i64 (now + ttlMs) else -1

theorem deadlineOf_of_nonpos {ttlMs : Int} (h : ttlMs ≤ 0) (now : Int) :
    deadlineOf now ttlMs = -1 := if_neg (not_lt.mpr h)

theorem run_expiresAt (ttlMs : Int) (w : World Index Shard) :
    ((expiresAt ttlMs).run w).1 = deadlineOf (w.clock 0) ttlMs ∧
      ((expiresAt ttlMs).run w).2.cells = w.cells := by
  by_cases h : 0 < ttlMs
  · simp only [expiresAt, deadlineOf, if_pos h]
    exact ⟨rfl, rfl⟩
  · simp only [expiresAt, deadlineOf, if_neg h]
    exact ⟨rfl, rfl⟩

theorem run_set (key value : Bytes) (ttlMs : Int) (w : World Index Shard) :
    ((set P maxKeys key value ttlMs).run w).2.cells =
      Function.update (evicted maxKeys w.cells) (shardFor P key)
        ((evicted maxKeys w.cells (shardFor P key)).setLocked key value
          (deadlineOf (w.clock (evictReadings maxKeys w.cells)) ttlMs)) := by
  obtain ⟨hdeadline, hcells⟩ := run_expiresAt ttlMs
    ⟨fun n => w.clock (n + evictReadings maxKeys w.cells), evicted maxKeys w.cells⟩
  rw [set, Prog.run_bind, run_maybeEvict, Prog.run_bind, Prog.run_locked, hdeadline, hcells]
  simp only [Nat.zero_add]

theorem run_get (key : Bytes) (w : World Index Shard) :
    (get P key).run w =
      match (w.cells (shardFor P key)).getShared key (w.clock 0) with
      | some r => (r, ⟨fun n => w.clock (n + 2), w.cells⟩)
      | none =>
          (((w.cells (shardFor P key)).getExclusive key (w.clock 2)).1,
            ⟨fun n => w.clock (n + 4), Function.update w.cells (shardFor P key)
              ((w.cells (shardFor P key)).getExclusive key (w.clock 2)).2⟩) := by
  rw [get, Prog.run_bind, Prog.run_locked_read _ fun t (sh : Shard) => sh.getShared key (t 0)]
  cases (w.cells (shardFor P key)).getShared key (w.clock 0) with
  | some r => rfl
  | none => rfl

theorem run_existsKey (key : Bytes) (w : World Index Shard) :
    (existsKey P key).run w =
      ((w.cells (shardFor P key)).existsKey key (w.clock 0),
        ⟨fun n => w.clock (n + 2), w.cells⟩) :=
  Prog.run_locked_read _ (fun t (sh : Shard) => sh.existsKey key (t 0)) w

theorem run_ttl (key : Bytes) (w : World Index Shard) :
    (ttl P key).run w =
      ((w.cells (shardFor P key)).ttl key (w.clock 0), ⟨fun n => w.clock (n + 2), w.cells⟩) :=
  Prog.run_locked_read _ (fun t (sh : Shard) => sh.ttl key (t 0)) w

theorem run_keys (pattern : Bytes) (w : World Index Shard) :
    (keys P pattern).run w =
      ((shards.map fun i => (w.cells i).keys P pattern (w.clock 0)).flatten,
        ⟨fun n => w.clock (n + 33), w.cells⟩) := by
  rw [keys, Prog.run_bind, Prog.run_now, Prog.run_bind,
    run_eachShard_read fun sh : Shard => sh.keys P pattern _]
  rfl

/-- The records of `for_each` at `now`. -/
def records (now : Int) (s : Shards) : List Record :=
  (shards.map fun i => (s i).snapshot now).flatten

theorem run_forEach (w : World Index Shard) :
    forEach.run w = (records (w.clock 0) w.cells, ⟨fun n => w.clock (n + 33), w.cells⟩) := by
  rw [forEach, Prog.run_bind, Prog.run_now, Prog.run_bind,
    run_eachShard_read fun sh : Shard => sh.snapshot _]
  rfl

theorem run_flush (w : World Index Shard) :
    flush.run w = ((), ⟨fun n => w.clock (n + 32), fun i => (w.cells i).flush⟩) := by
  rw [flush, Prog.run_bind, run_eachShard]
  rfl

theorem run_sweepExpired (w : World Index Shard) :
    sweepExpired.run w =
      ((), ⟨fun n => w.clock (n + 33), fun i => (w.cells i).sweepExpired (w.clock 0)⟩) := by
  rw [sweepExpired, Prog.run_bind, Prog.run_now, Prog.run_bind, run_eachShard]
  rfl

end Store

end RedisCache.Storage
