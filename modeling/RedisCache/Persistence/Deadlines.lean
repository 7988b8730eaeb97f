import Mathlib
import RedisCache.Persistence.Reload

/-!
# Deadlines across a restart

`Rdb::load` reads the clock once and turns each deadline of the file into the
time left; the `Store::set` of the record reads the clock again and turns that
into a deadline. The two readings differ by the time the load has taken so far,
and the deadline moves by as much. `load_deadline_iff` says, for every record
that is still in the store behind the load, when its deadline is the one in the
file.
-/

namespace RedisCache.Persistence.Rdb

open Sections Storage TimedMap

variable (P : Platform) (maxKeys : Nat)

/-- What a `set` removes is removed by its eviction; it brings no other key. -/
theorem view_run_setRecords_other {now : Int} {rs : List Record} {w : World Index Shard}
    {key : Bytes} (hkey : key ∉ rs.map Prod.fst) {it : Item Bytes}
    (h : view P ((setRecords P maxKeys now rs).run w).2.cells key = some it) :
    view P w.cells key = some it := by
  induction rs generalizing w with
  | nil => exact h
  | cons r rs ih =>
      rw [List.map_cons, List.mem_cons, not_or] at hkey
      simp only [setRecords, Prog.run_bind] at h
      have hset := ih hkey.2 h
      rw [Store.view_run_set_evicted, Function.update_of_ne hkey.1] at hset
      exact Store.view_evicted_of_some P maxKeys hset

theorem setRecords_append (now : Int) (rs rs' : List Record) :
    setRecords P maxKeys now (rs ++ rs') =
      setRecords P maxKeys now rs >>= fun _ => setRecords P maxKeys now rs' := by
  induction rs with
  | nil => rfl
  | cons r rs ih => simp only [List.cons_append, setRecords, ih, bind_assoc]

/-- The clock reading inside the `Store::set` that comes behind the records
`before`, in a load that starts with `w`. -/
def setReading (w : World Index Shard) (before : List Record) : Int :=
  let w' := ((setRecords P maxKeys (w.clock 0) before).run ⟨fun n => w.clock (n + 1), w.cells⟩).2
  w'.clock (Store.evictReadings maxKeys w'.cells)

/-- **A restart and the deadlines.** A record of the file that is in the store
behind the load has the deadline of the file exactly if the clock did not move
between the start of the load and the `set` of the record; a deadline of `0`
counts as none for `load`, and the time left has to be an `int64_t`. -/
theorem load_deadline_iff (junk : Nat → UInt8) (rest : Bytes) {w : World Index Shard}
    (hclock : ∀ n, Decimal.InRange (w.clock n)) {before after : List Record} {r : Record}
    (hfound : found (w.clock 0) junk rest = before ++ r :: after)
    (hlast : r.1 ∉ after.map Prod.fst) (h0 : 0 ≤ r.2.2) {it : Item Bytes}
    (hit : view P ((load P maxKeys junk (some (magic ++ version :: rest))).run w).2.cells r.1 =
      some it) :
    it.deadline = some r.2.2 ↔
      r.2.2 ≠ 0 ∧ setReading P maxKeys w before = w.clock 0 ∧ r.2.2 - w.clock 0 < 2 ^ 63 := by
  have hmem : r ∈ found (w.clock 0) junk rest := by simp [hfound]
  obtain ⟨hfresh, klen, f, hread⟩ := mem_readRecords hmem
  have hd : Decimal.InRange r.2.2 := by
    rw [hread]
    exact i64_inRange _
  -- the store at the `set` of the record
  set w' := ((setRecords P maxKeys (w.clock 0) before).run
    ⟨fun n => w.clock (n + 1), w.cells⟩).2 with hw'
  have hset : view P ((Store.set P maxKeys r.1 r.2.1 (ttlOf (w.clock 0) r)).run w').2.cells r.1 =
      some it := by
    obtain ⟨left, hload⟩ := load_found P maxKeys junk rest
    simp only [hload, Prog.run_bind, Prog.run_now, hfound, setRecords_append, setRecords,
      Prog.run_pure] at hit
    exact view_run_setRecords_other P maxKeys hlast hit
  rw [Store.view_run_set_evicted, Function.update_self] at hset
  obtain rfl := Option.some.inj hset
  have hreading : Decimal.InRange (w'.clock (Store.evictReadings maxKeys w'.cells)) := by
    obtain ⟨k, hk⟩ := (setRecords P maxKeys (w.clock 0) before).run_clock
      ⟨fun n => w.clock (n + 1), w.cells⟩
    rw [hk]
    exact hclock _
  exact deadlineOf_ttlOf_iff (hclock 0) hreading hd h0 hfresh

/-- The entry `k`, until `5000`. -/
def timedEntry : List Record := [(ascii "k", ascii "v", 5000)]

/-- What the store holds under `k` after a load that read the clock at `1000`,
and later at `later`. -/
def reloadedAt (later : Int) : Option (Item Bytes) :=
  view .concrete ((load .concrete 4 (fun _ => 0) (some (magic ++ version :: body timedEntry))).run
    ⟨fun n => if n = 0 then 1000 else later, Store.empty⟩).2.cells (ascii "k")

theorem load_deadline_still : ∃ it, reloadedAt 1000 = some it ∧ it.deadline = some 5000 := by
  obtain ⟨it, hit⟩ : ∃ it, reloadedAt 1000 = some it :=
    Option.isSome_iff_exists.mp (by decide +kernel)
  have hclock : ∀ n : Nat, Decimal.InRange (if n = 0 then 1000 else 1000) := by
    intro n
    rw [ite_self]
    decide
  have hfound : found 1000 (fun _ => 0) (body timedEntry) =
      [] ++ (ascii "k", ascii "v", 5000) :: [] := by decide +kernel
  have hiff := load_deadline_iff .concrete 4 (fun _ => 0) (body timedEntry)
    (w := ⟨fun n => if n = 0 then 1000 else 1000, Store.empty⟩) hclock hfound (by decide)
    (by decide) hit
  exact ⟨it, hit, hiff.mpr ⟨by decide, by decide +kernel, by decide⟩⟩

/-- One millisecond between the two readings, and the deadline is one later. -/
theorem load_moves_deadline : (reloadedAt 1001).map Item.deadline = some (some 5001) := by
  decide +kernel

end RedisCache.Persistence.Rdb
