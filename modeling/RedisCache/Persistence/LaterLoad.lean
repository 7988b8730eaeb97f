import Mathlib
import RedisCache.Persistence.Reload

/-!
# Loading a snapshot later

Time passes between a save and the next start, and while the snapshot is
loaded. `load` reads the clock once, drops the records that have run out by
then and turns the deadlines of the others into the time they have left; each
`Store::set` reads the clock again. So an item comes back with a deadline that
is put off by as long as the load had been under way (`view_load`): the store
that comes up is the saved one, `Reread` (`reread_load_saved`).
-/

namespace RedisCache.Persistence.Rdb

open Sections Storage TimedMap

/-- `load` on a snapshot of any records. -/
theorem run_load (P : Platform) (maxKeys : Nat) (junk : Nat → UInt8) {rs : List Record}
    (hfits : ∀ r ∈ rs, Fits r) (tail : Bytes) (w : World Index Shard) :
    (load P maxKeys junk (some (magic ++ version :: body rs ++ tail))).run w =
      (some ((rs.filter fun r => !stale (w.clock 0) r).length, tail),
        ((setRecords P maxKeys (w.clock 0) (rs.filter fun r => !stale (w.clock 0) r)).run
          ⟨fun n => w.clock (n + 1), w.cells⟩).2) := by
  have hlen : rs.length ≤ (body rs ++ tail).length := by
    rw [body, List.append_assoc, List.length_append]
    have := length_le_encoded rs
    omega
  rw [List.append_assoc, List.cons_append, load_eq]
  simp only [Prog.run_bind, Prog.run_now, loadLoop_eq]
  rw [readRecords_file (w.clock 0) hfits tail _ (by omega)]
  simp

/-- `0` would be a deadline for the store and none for `load`. -/
theorem stale_eq_not_alive {r : Record} (h0 : r.2.2 ≠ 0) (now : Int) :
    stale now r = !(Store.recordItem r).alive now := by
  rcases lt_or_gt_of_ne h0 with hneg | hpos
  · simp [stale, Store.recordItem, Item.alive, hneg.not_ge, hneg.le]
  · simp only [stale, Store.recordItem, Item.alive, if_pos hpos.le, decide_eq_true hpos,
      Bool.true_and, Option.all_some, ← decide_not, not_lt]

/-- The detour of a deadline while the clock goes on, past 1970 and far from the
end of `int64_t`. -/
theorem loadedAt_eq {now later : Int} (h0 : 0 ≤ now) (hlater : 0 ≤ later) {r : Record}
    (hfits : Fits r) (halive : (Store.recordItem r).alive now = true)
    (hfar : r.2.2 + (later - now) < 2 ^ 63) :
    loadedAt now later r = (Store.recordItem r).postponed (later - now) := by
  have hrange := hfits.deadline
  unfold Decimal.InRange at hrange
  by_cases hpos : 0 ≤ r.2.2
  · have hlt : now < r.2.2 := by simpa [Store.recordItem, Item.alive, hpos] using halive
    have hleft : ttlOf now r = r.2.2 - now := by
      rw [ttlOf, if_pos (by omega), i64_of_inRange ⟨by omega, by omega⟩]
    have hsum : Store.deadlineOf later (r.2.2 - now) = r.2.2 + (later - now) := by
      rw [Store.deadlineOf, if_pos (by omega), i64_of_inRange ⟨by omega, by omega⟩]
      omega
    have hexpiry : 0 ≤ r.2.2 + (later - now) := by omega
    simp [loadedAt, hleft, hsum, Entry.item, Entry.hasExpiry, Store.recordItem, Item.postponed,
      hpos, hexpiry]
  · -- no expiry on either side
    have hneg : ¬ 0 < r.2.2 := by omega
    simp [loadedAt, Store.recordItem, Entry.item, Entry.hasExpiry, Store.deadlineOf, ttlOf, hpos,
      hneg, Item.postponed]

/-- **A snapshot loaded with the clock readings `rd`**: what is alive of its
records at the first reading, each put off by the time to another one. -/
theorem view_load (P : Platform) {maxKeys : Nat} (junk : Nat → UInt8) {rd : Nat → Int}
    (h0 : ∀ n, 0 ≤ rd n) {rs : List Record} (hnd : (rs.map Prod.fst).Nodup)
    (hfits : ∀ r ∈ rs, Fits r) (hne : ∀ r ∈ rs, r.2.2 ≠ 0)
    (hfar : ∀ r ∈ rs, ∀ n, r.2.2 + (rd n - rd 0) < 2 ^ 63) (hroom : rs.length ≤ maxKeys)
    (tail : Bytes) :
    let m := view P ((load P maxKeys junk (some (magic ++ version :: body rs ++ tail))).run
      ⟨rd, Store.empty⟩).2.cells
    (∀ r ∈ rs, (Store.recordItem r).alive (rd 0) = true →
      ∃ n, m r.1 = some ((Store.recordItem r).postponed (rd n - rd 0))) ∧
    ∀ k, (∀ r ∈ rs, r.1 = k → (Store.recordItem r).alive (rd 0) = false) → m k = none := by
  intro m
  have hm : m = view P ((setRecords P maxKeys (rd 0) (rs.filter fun r => !stale (rd 0) r)).run
      ⟨fun n => rd (n + 1), Store.empty⟩).2.cells := by
    simp only [m, run_load P maxKeys junk hfits]
  have hnone : ∀ k, view P Store.empty k = none := fun k => congrFun (view_empty P) k
  have hfit : Store.total Store.empty + (rs.filter fun r => !stale (rd 0) r).length ≤ maxKeys := by
    rw [show Store.total Store.empty = 0 by decide, Nat.zero_add]
    exact (List.length_filter_le _ rs).trans hroom
  obtain ⟨hset, hrest⟩ := run_setRecords P (rd 0) (w := ⟨fun n => rd (n + 1), Store.empty⟩)
    (hnd.sublist (List.filter_sublist.map _)) (Store.empty_valid P) (fun r _ => hnone r.1) hfit
  have hmem : ∀ r, r ∈ (rs.filter fun r => !stale (rd 0) r) ↔
      r ∈ rs ∧ (Store.recordItem r).alive (rd 0) = true := by
    intro r
    rw [List.mem_filter]
    refine and_congr_right fun hr => ?_
    rw [stale_eq_not_alive (hne r hr), Bool.not_not]
  rw [hm]
  constructor
  · intro r hr halive
    obtain ⟨n, hn⟩ := hset r ((hmem r).mpr ⟨hr, halive⟩)
    exact ⟨n + 1, by rw [hn, loadedAt_eq (h0 0) (h0 (n + 1)) (hfits r hr) halive (hfar r hr _)]⟩
  · intro k hdead
    rw [hrest k ?_, hnone]
    rintro hkey
    obtain ⟨r, hr, rfl⟩ := List.mem_map.mp hkey
    obtain ⟨hrs, halive⟩ := (hmem r).mp hr
    rw [hdead r hrs rfl] at halive
    cases halive

section Whole

variable {P : Platform} {now : Int} {s : Shards}

/-- Past 1970 no deadline of a record is `0`. -/
theorem record_deadline_ne (h0 : 0 ≤ now) (hs : ∀ i, Valid P i (s i)) {r : Record}
    (hr : r ∈ Store.records now s) : r.2.2 ≠ 0 := by
  intro hzero
  have halive := (live_eq_some.mp (live_record hs hr)).2
  have hlt := Item.alive_iff.mp halive 0 (by simp [Store.recordItem, hzero])
  omega

/-- No deadline reaches the end of `int64_t` while the clock goes from `rd 0` to
another of the readings. -/
def Distant (rd : Nat → Int) (m : Bytes → Option (Item Bytes)) : Prop :=
  ∀ k it d, m k = some it → it.deadline = some d → ∀ n, d + (rd n - rd 0) < 2 ^ 63

/-- Saved alone at `now`, loaded from `rd 0` on. -/
theorem reread_load_saved (h0 : 0 ≤ now) (hs : ∀ i, Valid P i (s i)) (hsmall : Small P now s)
    {maxKeys : Nat} (hroom : (liveKeys P now s).ncard ≤ maxKeys) {rd : Nat → Int}
    (hlater : ∀ n, now ≤ rd n) (hrange : ∀ n, Decimal.InRange (rd n))
    (hfar : Distant rd (view P s)) (junk : Nat → UInt8) (tail : Bytes) :
    Reread rd (view P s) (view P ((load P maxKeys junk
      (some (magic ++ version :: body (Store.records now s) ++ tail))).run
        ⟨rd, Store.empty⟩).2.cells) := by
  have hfarRecord : ∀ r ∈ Store.records now s, ∀ n, r.2.2 + (rd n - rd 0) < 2 ^ 63 := by
    intro r hr n
    by_cases hpos : 0 ≤ r.2.2
    · exact hfar r.1 _ r.2.2 (live_eq_some.mp (live_record hs hr)).1
        (by rw [Store.recordItem, if_pos hpos]) n
    · have := (hrange n).2
      have := hlater 0
      omega
  obtain ⟨hkept, hgone⟩ := view_load P junk (fun n => h0.trans (hlater n))
    (Store.records_keys_nodup P hs now) (fun r => record_fits hs hsmall)
    (fun r => record_deadline_ne h0 hs) hfarRecord ((records_length hs).trans_le hroom) tail
  generalize view P ((load P maxKeys junk (some (magic ++ version ::
    body (Store.records now s) ++ tail))).run ⟨rd, Store.empty⟩).2.cells = m at hkept hgone ⊢
  refine Reread.congr (m := live now (view P s)) (fun k => ?_) (live_live (hlater 0) _)
  cases hlive : live (rd 0) (live now (view P s)) k with
  | none =>
      refine hgone k fun r hr hrk => ?_
      subst hrk
      by_contra halive
      cases hlive.symm.trans
        (live_eq_some.mpr ⟨live_record hs hr, Bool.eq_true_of_not_eq_false halive⟩)
  | some it =>
      obtain ⟨hsaved, halive⟩ := live_eq_some.mp hlive
      obtain ⟨r, hr, rfl, rfl⟩ := (Store.records_iff P hs now k it).mp hsaved
      exact hkept r hr halive

end Whole

end RedisCache.Persistence.Rdb
