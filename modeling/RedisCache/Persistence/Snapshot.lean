import Mathlib
import RedisCache.Lib.Scans
import RedisCache.Persistence.Rdb

/-!
# A snapshot next to a running server

`maintenance_loop` saves while the event loop goes on. `for_each` takes one
shard lock after the other, so the file shows every shard at a moment of its
own. Two commands on two shards are enough to tear it: the first on a shard
that is already written, the second on one that is not, and the file holds the
second without the first (`snapshot_torn`).

It is the contents of one moment as long as the event loop changes no shard
that is still to be written after it has changed one that is
(`snapshot_moment`); one section at a time is always fine
(`single_section_orderly`).
-/

namespace RedisCache.Persistence.Rdb

open Sections Storage

/-- The threads of the server that work on the store. -/
inductive Thread where
  | maintenance
  | eventLoop
deriving DecidableEq, Repr

/-- The server when a save is about to begin. What the event loop has still to
do is any program, its commands so far have made the store. -/
def saving (s : Shards) (files : Files) (q : StoreProg Unit) :
    Pool Index Shard Thread (Option (Bool × Files)) where
  cells := s
  threads
    | .maintenance => some <$> save {} files
    | .eventLoop => (fun _ => none) <$> q

/-- The save has read the clock. Its sections are all still to come. -/
def begun (s : Shards) (files : Files) (q : StoreProg Unit) (clk : Nat → Int) :
    Pool Index Shard Thread (Option (Bool × Files)) :=
  (saving s files q).step .maintenance clk

/-- What a save that began at `now` can see in a shard. -/
def contents (now : Int) (sh : Shard) : Set Record := {r | r ∈ sh.snapshot now}

section

variable (s : Shards) (files : Files) (q : StoreProg Unit) (clk : Nat → Int)

theorem begun_maintenance :
    (begun s files q clk).threads .maintenance =
      Prog.scan (fun sh => sh.snapshot (clk 0)) Store.shards
        fun found => some (saved found.flatten) := by
  have hsave : (saving s files q).threads .maintenance =
      .clock fun now => Prog.scan (fun sh => sh.snapshot now) Store.shards
        fun found => some (saved found.flatten) := by
    show some <$> save {} files = _
    simp only [save_eq, Store.forEach, map_eq_pure_bind, bind_assoc, pure_bind]
    rfl
  exact Pool.step_clock hsave clk

/-- One section of the event loop during a save is orderly. -/
theorem single_section_orderly {sched : List (Thread × (Nat → Int))}
    (hone : sched.countP (fun e => decide (e.1 ≠ Thread.maintenance)) ≤ 1) :
    (begun s files q clk).Orderly .maintenance Store.shards (contents (clk 0)) sched :=
  Pool.orderly_of_single (begun_maintenance s files q clk) _ hone

/-- **When a snapshot is of one moment**: in every run in which the event loop
is orderly, the save writes exactly the live contents of the whole store at
one moment between its clock reading and its last section. -/
theorem snapshot_moment (sched : List (Thread × (Nat → Int)))
    (hdone : Store.shards.length ≤ Pool.stepsOf .maintenance sched)
    (horder : (begun s files q clk).Orderly .maintenance Store.shards (contents (clk 0)) sched) :
    ∃ rs, ((begun s files q clk).run sched).threads .maintenance = .ret (some (saved rs)) ∧
      ∃ n < sched.length,
        Pool.stepsOf .maintenance (sched.take n) < Store.shards.length ∧
        ∀ r, r ∈ rs ↔
          r ∈ Store.records (clk 0) (((begun s files q clk).run (sched.take n)).cells) := by
  obtain ⟨found, hthread, hlen, n, hn, hinside, hseen⟩ :=
    Pool.scan_moment (fun found : List Record => {r | r ∈ found})
      (begun_maintenance s files q clk) Store.shards_nodup (by decide) hdone horder
  refine ⟨found.flatten, hthread, n, hn, hinside, fun r => ?_⟩
  -- position k of the file is shard k
  have hshard : ∀ i : Index, Store.shards[i.val]? = some i := fun i => by
    simp [Store.shards]
  have hlt : ∀ k < found.length, k < 16 := fun k hk => by
    simpa [hlen, Store.shards] using hk
  rw [Store.records, List.mem_flatten, List.mem_flatten]
  constructor
  · rintro ⟨l, hl, hr⟩
    obtain ⟨k, hk, rfl⟩ := List.mem_iff_getElem.mp hl
    have hsee := hseen k ⟨k, hlt k hk⟩ (hshard ⟨k, hlt k hk⟩)
    rw [List.getElem?_eq_getElem hk, Option.map_some, Option.some.injEq] at hsee
    exact ⟨_, List.mem_map.mpr ⟨_, Store.mem_shards _, rfl⟩, (Set.ext_iff.mp hsee r).mp hr⟩
  · rintro ⟨l, hl, hr⟩
    obtain ⟨i, -, rfl⟩ := List.mem_map.mp hl
    have hsee := hseen i.val i (hshard i)
    obtain ⟨l, hl, hsame⟩ := Option.map_eq_some_iff.mp hsee
    exact ⟨l, List.mem_of_getElem? hl, (Set.ext_iff.mp hsame r).mpr hr⟩

end

/-- One `INCR` while the save is on its way. -/
theorem snapshot_moment_incr :
    ∃ rs, ((begun Store.empty {} (do let _ ← Store.incr .concrete [97]) fun _ => 0).run
        (List.replicate 2 (.maintenance, fun _ => 0) ++ [(.eventLoop, fun _ => 0)] ++
          List.replicate 14 (.maintenance, fun _ => 0))).threads .maintenance =
      .ret (some (saved rs)) := by
  obtain ⟨rs, hrs, -⟩ := snapshot_moment Store.empty {} (do let _ ← Store.incr .concrete [97])
    (fun _ => 0)
    (List.replicate 2 (.maintenance, fun _ => 0) ++ [(.eventLoop, fun _ => 0)] ++
      List.replicate 14 (.maintenance, fun _ => 0))
    (by decide) (single_section_orderly _ _ _ _ (by decide))
  exact ⟨rs, hrs⟩

/-! ## A torn snapshot -/

/-- `INCR a`, then `INCR b`. -/
def twoCounters : StoreProg Unit := do
  let _ ← Store.incr .concrete [97]
  let _ ← Store.incr .concrete [98]
  pure ()

/-- The two commands fall between the shard of `a` and the shard of `b`. -/
def tornSchedule : List (Thread × (Nat → Int)) :=
  List.replicate 2 (.maintenance, fun _ => 0) ++ List.replicate 2 (.eventLoop, fun _ => 0) ++
    List.replicate 14 (.maintenance, fun _ => 0)

theorem torn_result :
    ((begun Store.empty {} twoCounters fun _ => 0).run tornSchedule).threads .maintenance =
      .ret (some (saved [([98], [49], -1)])) := by
  rfl

/-- Whenever `b` is there, `a` is. -/
theorem torn_moments :
    ∀ n < 19, ([98], [49], -1) ∉ Store.records 0
        (((begun Store.empty {} twoCounters fun _ => 0).run (tornSchedule.take n)).cells) ∨
      ([97], [49], -1) ∈ Store.records 0
        (((begun Store.empty {} twoCounters fun _ => 0).run (tornSchedule.take n)).cells) := by
  decide

/-- **A torn snapshot**: the file holds `b` alone, and at no moment of the run
does the store hold `b` alone. -/
theorem snapshot_torn :
    ∃ rs, ((begun Store.empty {} twoCounters fun _ => 0).run tornSchedule).threads
        .maintenance = .ret (some (saved rs)) ∧
      ¬ ∃ n ≤ tornSchedule.length, ∀ r, r ∈ rs ↔ r ∈ Store.records 0
        (((begun Store.empty {} twoCounters fun _ => 0).run (tornSchedule.take n)).cells) := by
  refine ⟨_, torn_result, ?_⟩
  rintro ⟨n, hn, hsame⟩
  have hb := (hsame ([98], [49], -1)).mp (by simp)
  have ha := (torn_moments n (Nat.lt_succ_of_le hn)).resolve_left (not_not_intro hb)
  exact absurd ((hsame _).mpr ha) (by simp)

end RedisCache.Persistence.Rdb
