import Mathlib
import RedisCache.Persistence.Rdb

/-!
# Saving and loading again

At one clock reading, a snapshot that is loaded into an empty store gives back
the live entries, each under its key. The deadline takes a detour: `save`
writes it as it is, `load` turns it into the time left and `Store::set` turns
that into a deadline again. `loadedItem` is where it ends up, and
`loadedItem_eq_iff` says when that is where it was. A deadline of `0`
has an expiry for `Entry::has_expiry` and none for `load`; a clock before 1970
is needed to see it (`deadline_kept`).
-/

namespace RedisCache.Persistence.Rdb

open Sections Storage TimedMap

/-! ## One record -/

/-- What the store holds for a record whose time left `load` has computed at
`now` and whose deadline `set` has computed at `later`. -/
def loadedAt (now later : Int) (r : Record) : Item Bytes :=
  Entry.item ⟨r.2.1, Store.deadlineOf later (ttlOf now r), none⟩

/-- What the store holds for a record after `load`, at one clock reading. -/
def loadedItem (now : Int) (r : Record) : Item Bytes := loadedAt now now r

/-- A deadline that comes back from `load` as it was. -/
def Kept (now d : Int) : Prop := d ≠ 0 ∧ d - now < 2 ^ 63

/-- The detour of a deadline, at two clock readings: `load` computes the time
left at `now`, `set` the deadline at `now'`. -/
theorem deadlineOf_ttlOf_iff {now now' : Int} (hnow : Decimal.InRange now)
    (hnow' : Decimal.InRange now') {r : Record} (hd : Decimal.InRange r.2.2) (h0 : 0 ≤ r.2.2)
    (hfresh : stale now r = false) :
    (Entry.item ⟨r.2.1, Store.deadlineOf now' (ttlOf now r), none⟩).deadline = some r.2.2 ↔
      r.2.2 ≠ 0 ∧ now' = now ∧ r.2.2 - now < 2 ^ 63 := by
  have hlt : 0 < r.2.2 → now < r.2.2 := by
    intro hpos
    simpa [stale, hpos] using hfresh
  rw [Entry.item_deadline_iff]
  simp only
  unfold Decimal.InRange at hnow hnow' hd
  unfold Store.deadlineOf ttlOf i64
  split_ifs <;> omega

theorem loadedItem_eq_iff {now : Int} (hnow : Decimal.InRange now) {r : Record}
    (hd : Decimal.InRange r.2.2) (halive : (Store.recordItem r).alive now = true) :
    loadedItem now r = Store.recordItem r ↔
      ∀ d, (Store.recordItem r).deadline = some d → Kept now d := by
  by_cases h0 : 0 ≤ r.2.2
  · have hlt : now < r.2.2 := by simpa [Store.recordItem, Item.alive, h0] using halive
    have hfresh : stale now r = false := by
      simp only [stale, Bool.and_eq_false_iff, decide_eq_false_iff_not]
      omega
    have hitem : Store.recordItem r = ⟨r.2.1, some r.2.2⟩ := by
      rw [Store.recordItem, if_pos h0]
    have hiff := deadlineOf_ttlOf_iff hnow hnow hd h0 hfresh
    rw [hitem]
    constructor
    · intro h d hdeadline
      obtain rfl := Option.some.inj hdeadline
      exact ⟨(hiff.mp (congrArg Item.deadline h)).1, (hiff.mp (congrArg Item.deadline h)).2.2⟩
    · intro h
      obtain ⟨hne, hfar⟩ := h r.2.2 rfl
      rw [← hiff.mpr ⟨hne, rfl, hfar⟩]
      rfl
  · -- no expiry on either side
    have hneg : ¬ 0 < r.2.2 := by omega
    simp [loadedItem, loadedAt, Store.recordItem, Entry.item, Entry.hasExpiry, Store.deadlineOf,
      ttlOf, h0, hneg]

/-- With a clock after 1970 every deadline is kept. -/
theorem deadline_kept {now d : Int} (h0 : 0 ≤ now) (hlt : now < d) (hd : d < 2 ^ 63) :
    Kept now d := ⟨by omega, by omega⟩

/-! ## All records -/

/-- Distinct new keys, set one after the other with room for all of them, while
the clock goes on. -/
theorem run_setRecords (P : Platform) {maxKeys : Nat} (now : Int) {rs : List Record}
    (hnd : (rs.map Prod.fst).Nodup) {w : World Index Shard} (hs : ∀ i, Valid P i (w.cells i))
    (hnew : ∀ r ∈ rs, view P w.cells r.1 = none)
    (hroom : Store.total w.cells + rs.length ≤ maxKeys) :
    (∀ r ∈ rs, ∃ n, view P ((setRecords P maxKeys now rs).run w).2.cells r.1 =
      some (loadedAt now (w.clock n) r)) ∧
    ∀ k, k ∉ rs.map Prod.fst →
      view P ((setRecords P maxKeys now rs).run w).2.cells k = view P w.cells k := by
  induction rs generalizing w with
  | nil => simp [setRecords]
  | cons r rs ih =>
      rw [List.map_cons, List.nodup_cons] at hnd
      rw [List.length_cons] at hroom
      have hlt : Store.total w.cells < maxKeys := by omega
      have hview := Store.view_run_set P maxKeys r.1 hlt r.2.1 (ttlOf now r)
      have htotal := Store.total_run_set P maxKeys hs (hnew r (by simp)) hlt r.2.1 (ttlOf now r)
      have hvalid := (Store.set_safe P maxKeys r.1 r.2.1 (ttlOf now r)).run hs
      have hother : ∀ r' ∈ rs, r'.1 ≠ r.1 := by
        intro r' hr' heq
        exact hnd.1 (List.mem_map.mpr ⟨r', hr', heq⟩)
      obtain ⟨hset, hrest⟩ := ih hnd.2 hvalid
        (fun r' hr' => by
          rw [hview, Function.update_of_ne (hother r' hr')]
          exact hnew r' (by simp [hr']))
        (by omega)
      simp only [setRecords, Prog.run_bind]
      refine ⟨fun r' hr' => ?_, fun k hk => ?_⟩
      · rcases List.mem_cons.mp hr' with rfl | hr'
        · refine ⟨32, ?_⟩
          rw [hrest _ hnd.1, hview, Function.update_self]
          rfl
        · obtain ⟨n, hn⟩ := hset r' hr'
          obtain ⟨d, hd⟩ := (Store.set P maxKeys r.1 r.2.1 (ttlOf now r)).run_clock w
          exact ⟨n + d, by rw [hn, hd]⟩
      · rw [List.map_cons, List.mem_cons, not_or] at hk
        rw [hrest k hk.2, hview, Function.update_of_ne hk.1]

/-- The same at one clock reading. -/
theorem exec_setRecords (P : Platform) {maxKeys : Nat} {now : Int} {rs : List Record}
    (hnd : (rs.map Prod.fst).Nodup) {s : Shards} (hs : ∀ i, Valid P i (s i))
    (hnew : ∀ r ∈ rs, view P s r.1 = none) (hroom : Store.total s + rs.length ≤ maxKeys) :
    (∀ r ∈ rs, view P ((setRecords P maxKeys now rs).exec now s).2 r.1 =
      some (loadedItem now r)) ∧
    ∀ k, k ∉ rs.map Prod.fst →
      view P ((setRecords P maxKeys now rs).exec now s).2 k = view P s k := by
  obtain ⟨hset, hrest⟩ := run_setRecords P now (w := ⟨fun _ => now, s⟩) hnd hs hnew hroom
  refine ⟨fun r hr => ?_, hrest⟩
  obtain ⟨n, hn⟩ := hset r hr
  exact hn

/-- `load` on a file that `save` wrote, with anything behind it. -/
theorem exec_load (P : Platform) (maxKeys : Nat) (junk : Nat → UInt8) {now : Int}
    {rs : List Record} (hfits : ∀ r ∈ rs, Fits r) (hfresh : ∀ r ∈ rs, stale now r = false)
    (tail : Bytes) (s : Shards) :
    (load P maxKeys junk (some (magic ++ version :: body rs ++ tail))).exec now s =
      (some (rs.length, tail), ((setRecords P maxKeys now rs).exec now s).2) := by
  have hlen : rs.length ≤ (body rs ++ tail).length := by
    rw [body, List.append_assoc, List.length_append]
    have := length_le_encoded rs
    omega
  have hall : (rs.filter fun r => !stale now r) = rs := by
    rw [List.filter_eq_self]
    exact fun r hr => by rw [hfresh r hr, Bool.not_false]
  rw [List.append_assoc, List.cons_append, load_eq]
  simp only [Prog.exec_bind, Prog.exec_now, loadLoop_eq]
  rw [readRecords_file now hfits tail _ (by omega), hall]
  simp

/-! ## The whole store -/

/-- The keys that are alive. -/
def liveKeys (P : Platform) (now : Int) (s : Shards) : Set Bytes :=
  {k | live now (view P s) k ≠ none}

/-- Keys and values whose lengths the format can tell from its end marker. -/
def Small (P : Platform) (now : Int) (s : Shards) : Prop :=
  ∀ k it, live now (view P s) k = some it →
    k.length < 2 ^ 32 - 1 ∧ it.value.length < 2 ^ 32 - 1

/-- What `load` returned and left in the store: the number of live entries of
`s`, with `tail` not read, and exactly these entries. -/
structure Reloaded (P : Platform) (now : Int) (s : Shards) (tail : Bytes)
    (out : Option (Nat × Bytes) × Shards) : Prop where
  count : out.1 = some ((liveKeys P now s).ncard, tail)
  entries : view P out.2 = live now (view P s)

section Whole

variable {P : Platform} {now : Int} {s : Shards}

theorem live_record (hs : ∀ i, Valid P i (s i)) {r : Record} (hr : r ∈ Store.records now s) :
    live now (view P s) r.1 = some (Store.recordItem r) :=
  (Store.records_iff P hs now _ _).mpr ⟨r, hr, rfl, rfl⟩

theorem record_inRange (hs : ∀ i, Valid P i (s i)) {r : Record} (hr : r ∈ Store.records now s) :
    Decimal.InRange r.2.2 := by
  obtain ⟨n, hfind, -⟩ := Store.shard_mem_snapshot.mp ((Store.mem_records P hs).mp hr)
  exact (hs _).ranged _ _ hfind

/-- What `for_each` visits at `now` is not stale at `now`. -/
theorem record_fresh (hs : ∀ i, Valid P i (s i)) {r : Record} (hr : r ∈ Store.records now s) :
    stale now r = false := by
  have halive := (live_eq_some.mp (live_record hs hr)).2
  by_cases hpos : 0 < r.2.2
  · have hlt : now < r.2.2 := by simpa [Store.recordItem, Item.alive, hpos.le] using halive
    simp [stale, hlt]
  · simp [stale, hpos]

theorem record_fits (hs : ∀ i, Valid P i (s i)) (hsmall : Small P now s) {r : Record}
    (hr : r ∈ Store.records now s) : Fits r := by
  obtain ⟨hkey, hvalue⟩ := hsmall _ _ (live_record hs hr)
  exact ⟨hkey, hvalue, record_inRange hs hr⟩

theorem liveKeys_eq (hs : ∀ i, Valid P i (s i)) :
    liveKeys P now s = (((Store.records now s).map Prod.fst).toFinset : Set Bytes) := by
  ext k
  rw [liveKeys, Set.mem_ofPred_eq, Option.ne_none_iff_exists', Finset.mem_coe, List.mem_toFinset,
    List.mem_map]
  constructor
  · rintro ⟨it, hit⟩
    obtain ⟨r, hr, hk, -⟩ := (Store.records_iff P hs now k it).mp hit
    exact ⟨r, hr, hk⟩
  · rintro ⟨r, hr, rfl⟩
    exact ⟨_, live_record hs hr⟩

theorem records_length (hs : ∀ i, Valid P i (s i)) :
    (Store.records now s).length = (liveKeys P now s).ncard := by
  rw [liveKeys_eq hs, Set.ncard_coe_finset,
    List.toFinset_card_of_nodup (Store.records_keys_nodup P hs now), List.length_map]

/-- The loaded store holds the loaded item of every record, and nothing else. -/
theorem view_loaded (hs : ∀ i, Valid P i (s i)) {maxKeys : Nat}
    (hroom : (liveKeys P now s).ncard ≤ maxKeys) (k : Bytes) (it : Item Bytes) :
    view P ((setRecords P maxKeys now (Store.records now s)).exec now Store.empty).2 k = some it ↔
      ∃ r ∈ Store.records now s, r.1 = k ∧ loadedItem now r = it := by
  have hnone : ∀ k, view P Store.empty k = none := fun k => congrFun (view_empty P) k
  have hfit : Store.total Store.empty + (Store.records now s).length ≤ maxKeys := by
    rw [show Store.total Store.empty = 0 by decide, Nat.zero_add, records_length hs]
    exact hroom
  obtain ⟨hset, hrest⟩ := exec_setRecords P (Store.records_keys_nodup P hs now)
    (Store.empty_valid P) (fun r _ => hnone r.1) hfit
  constructor
  · intro hk
    by_cases hmem : k ∈ (Store.records now s).map Prod.fst
    · obtain ⟨r, hr, rfl⟩ := List.mem_map.mp hmem
      exact ⟨r, hr, rfl, Option.some.inj ((hset r hr).symm.trans hk)⟩
    · rw [hrest k hmem, hnone] at hk
      cases hk
  · rintro ⟨r, hr, rfl, rfl⟩
    exact hset r hr

/-- The loaded store is the live part of the saved one exactly when every
deadline is kept. -/
theorem reloaded_iff (hnow : Decimal.InRange now) (hs : ∀ i, Valid P i (s i))
    (hsmall : Small P now s) {maxKeys : Nat} (hroom : (liveKeys P now s).ncard ≤ maxKeys)
    (junk : Nat → UInt8) (tail : Bytes) :
    Reloaded P now s tail ((load P maxKeys junk
        (some (magic ++ version :: body (Store.records now s) ++ tail))).exec now Store.empty) ↔
      ∀ k it d, live now (view P s) k = some it → it.deadline = some d → Kept now d := by
  rw [exec_load P maxKeys junk (fun r => record_fits hs hsmall) (fun r => record_fresh hs) tail]
  have hitem : ∀ r ∈ Store.records now s, loadedItem now r = Store.recordItem r ↔
      ∀ d, (Store.recordItem r).deadline = some d → Kept now d := fun r hr =>
    loadedItem_eq_iff hnow (record_inRange hs hr) (live_eq_some.mp (live_record hs hr)).2
  constructor
  · rintro ⟨-, hentries⟩ k it d hk hd
    obtain ⟨r, hr, rfl, rfl⟩ := (Store.records_iff P hs now k it).mp hk
    refine (hitem r hr).mp ?_ d hd
    have hloaded := (view_loaded hs hroom r.1 _).mpr ⟨r, hr, rfl, rfl⟩
    rw [hentries, hk] at hloaded
    exact (Option.some.inj hloaded).symm
  · intro hkept
    refine ⟨by rw [records_length hs], funext fun k => Option.ext fun it => ?_⟩
    rw [view_loaded hs hroom, Store.records_iff P hs now]
    refine exists_congr fun r => and_congr_right fun hr => and_congr_right fun _ => ?_
    rw [(hitem r hr).mpr fun d hd => hkept r.1 _ d (live_record hs hr) hd]

end Whole

/-- **The snapshot round trip**: `save` writes a file that `load` gives back
whole, at the same clock reading and into an empty store with room for it,
exactly when no live entry has the deadline `0` or one that is `2^63` away.
Neither happens once the clock is past 1970. -/
theorem reload_iff (P : Platform) (maxKeys : Nat) (now : Int) (s : Shards) (files : Files)
    (junk : Nat → UInt8) (tail : Bytes) (hnow : Decimal.InRange now) (hs : ∀ i, Valid P i (s i))
    (hsmall : Small P now s) (hroom : (liveKeys P now s).ncard ≤ maxKeys) :
    ∃ file, (save {} files).exec now s = ((true, ⟨some file, none⟩), s) ∧
      (Reloaded P now s tail
          ((load P maxKeys junk (some (file ++ tail))).exec now Store.empty) ↔
        ∀ k it d, live now (view P s) k = some it → it.deadline = some d → Kept now d) ∧
      (0 ≤ now → Reloaded P now s tail
        ((load P maxKeys junk (some (file ++ tail))).exec now Store.empty)) := by
  have hiff := reloaded_iff hnow hs hsmall hroom junk tail
  refine ⟨_, exec_save files now s, hiff, fun h0 => hiff.mpr fun k it d hk hd => ?_⟩
  obtain ⟨r, hr, rfl, rfl⟩ := (Store.records_iff P hs now k it).mp hk
  have halive := Item.alive_iff.mp (live_eq_some.mp hk).2 d hd
  have hrange := record_inRange hs hr
  obtain rfl : r.2.2 = d := by
    simp only [Store.recordItem] at hd
    split at hd
    · exact Option.some.inj hd
    · cases hd
  exact deadline_kept h0 halive hrange.2

/-! A store with one entry, `a` with the value `x`. -/

def oneKey (now ttlMs : Int) : Shards :=
  ((Store.set .concrete 4 [97] [120] ttlMs).exec now Store.empty).2

theorem oneKey_valid (now ttlMs : Int) : ∀ i, Valid .concrete i (oneKey now ttlMs i) :=
  (Store.set_safe .concrete 4 [97] [120] ttlMs).exec now (Store.empty_valid .concrete)

theorem oneKey_live {now ttlMs : Int} {k : Bytes} {it : Item Bytes}
    (h : live now (view .concrete (oneKey now ttlMs)) k = some it) :
    k = [97] ∧ it = Entry.item ⟨[120], Store.deadlineOf now ttlMs, none⟩ := by
  rw [oneKey, Store.view_set .concrete 4 _ (by decide), view_empty, live_eq_some] at h
  by_cases hk : k = [97]
  · rw [hk, Function.update_self] at h
    exact ⟨hk, (Option.some.inj h.1).symm⟩
  · rw [Function.update_of_ne hk] at h
    cases h.1

theorem oneKey_small (now ttlMs : Int) : Small .concrete now (oneKey now ttlMs) := by
  intro k it h
  obtain ⟨rfl, rfl⟩ := oneKey_live h
  exact ⟨by decide, (by decide : ([120] : Bytes).length < 2 ^ 32 - 1)⟩

theorem oneKey_room (now ttlMs : Int) :
    (liveKeys .concrete now (oneKey now ttlMs)).ncard ≤ 4 := by
  have hsub : liveKeys .concrete now (oneKey now ttlMs) ⊆ {[97]} := by
    intro k hk
    obtain ⟨it, hit⟩ := Option.ne_none_iff_exists'.mp hk
    exact (oneKey_live hit).1
  have hle := Set.ncard_le_ncard hsub (Set.finite_singleton _)
  rw [Set.ncard_singleton] at hle
  omega

/-- Set at `7` for five milliseconds, saved and loaded at `7`. -/
theorem reload_oneKey :
    ∃ file, (save {} {}).exec 7 (oneKey 7 5) = ((true, ⟨some file, none⟩), oneKey 7 5) ∧
      Reloaded .concrete 7 (oneKey 7 5) []
        ((load .concrete 4 (fun _ => 0) (some (file ++ []))).exec 7 Store.empty) := by
  obtain ⟨file, hfile, -, h⟩ := reload_iff .concrete 4 7 (oneKey 7 5) {} (fun _ => 0) []
    (by decide) (oneKey_valid 7 5) (oneKey_small 7 5) (oneKey_room 7 5)
  exact ⟨file, hfile, h (by decide)⟩

/-- Set at `-5` for five milliseconds: the deadline is `0`, and is lost. -/
theorem reload_zero_deadline :
    ∃ file, (save {} {}).exec (-5) (oneKey (-5) 5) =
        ((true, ⟨some file, none⟩), oneKey (-5) 5) ∧
      ¬ Reloaded .concrete (-5) (oneKey (-5) 5) []
        ((load .concrete 4 (fun _ => 0) (some (file ++ []))).exec (-5) Store.empty) := by
  refine ⟨_, exec_save _ _ _, ?_⟩
  rw [reloaded_iff (by decide) (oneKey_valid _ _) (oneKey_small _ _) (oneKey_room _ _)]
  intro hkept
  have hview : view .concrete (oneKey (-5) 5) [97] = some ⟨[120], some 0⟩ := by
    rw [oneKey, Store.view_set .concrete 4 _ (by decide), Function.update_self]
    rfl
  exact (hkept [97] ⟨[120], some 0⟩ 0 (live_eq_some.mpr ⟨hview, rfl⟩) rfl).1 rfl

end RedisCache.Persistence.Rdb
