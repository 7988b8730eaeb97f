import Mathlib
import RedisCache.Storage.Contents

/-!
# An expiry that lies in the past

`expire` stores `now + ttl_ms` in the field in which a negative number means
that there is no expiry. So a TTL of zero or less kills the key only down to a
deadline of `0`; below that the key becomes permanent.

A dead key stays dead through any run of calls that does not write it
(`Call.keeps_dead`, `live_after`): no other call brings a key back.
-/

namespace RedisCache.Storage

open Sections TimedMap

/-- The call gives `key` a value. -/
def Call.Writes (key : Bytes) : Call → Prop
  | .set k _ _ => k = key
  | .incr k => k = key
  | _ => False

section Dead

variable (P : Platform) (maxKeys : Nat) {w : World Index Shard} {now : Int} {key : Bytes}

/-- A call that does not write a dead key leaves its entry or removes it. -/
theorem Call.view_dead (hs : ∀ i, Valid P i (w.cells i)) (hclock : ∀ n, now ≤ w.clock n)
    (hdead : live now (view P w.cells) key = none) {c : Call} (hc : ¬ c.Writes key) :
    view P ((c.prog P maxKeys).run w).2.cells key = none ∨
      view P ((c.prog P maxKeys).run w).2.cells key = view P w.cells key := by
  have hlater : ∀ n, live (w.clock n) (view P w.cells) key = none := fun n =>
    live_none_of_le (hclock n) hdead
  cases c with
  | set k v ttlMs =>
      have hne : key ≠ k := fun h => hc h.symm
      cases hit : view P (Store.evicted maxKeys w.cells) key with
      | none =>
          refine Or.inl ?_
          rw [Call.prog, Prog.run_bind, Prog.run_pure, Store.view_run_set_evicted,
            Function.update_of_ne hne, hit]
      | some it =>
          refine Or.inr ?_
          rw [Call.prog, Prog.run_bind, Prog.run_pure, Store.view_run_set_evicted,
            Function.update_of_ne hne, hit, Store.view_evicted_of_some P maxKeys hit]
  | get k =>
      rw [Call.prog, Prog.run_map]
      rcases Store.tidied_run_get P w k key with hsame | ⟨hnone, -⟩
      · exact Or.inr hsame
      · exact Or.inl hnone
  | del k =>
      rw [Call.prog, Prog.run_map, Store.view_run_del]
      rcases eq_or_ne key k with rfl | hne
      · exact Or.inl (by rw [Function.update_self])
      · exact Or.inr (by rw [Function.update_of_ne hne])
  | expire k ttlMs =>
      refine Or.inr ?_
      rw [Call.prog, Prog.run_map, Store.view_run_expire_live]
      rcases eq_or_ne key k with rfl | hne
      · rw [hlater 0]
      · cases live (w.clock 0) (view P w.cells) k with
        | none => rfl
        | some it => exact Function.update_of_ne hne _ _
  | incr k =>
      have hne : key ≠ k := fun h => hc h.symm
      refine Or.inr ?_
      rw [Call.prog, Prog.run_map, Store.view_run_incr]
      cases Store.counterOf (w.clock 0) (view P w.cells) k with
      | none => rfl
      | some n => exact Function.update_of_ne hne _ _
  | flush =>
      refine Or.inl ?_
      rw [Call.prog, Prog.run_bind, Prog.run_pure, Store.view_run_flush]
  | sweepExpired =>
      refine Or.inl ?_
      rw [Call.prog, Prog.run_bind, Prog.run_pure, Store.view_run_sweepExpired P hs, hlater 0]
  | existsKey k => exact Or.inr (by rw [Call.prog, Prog.run_map, Store.run_existsKey])
  | ttl k => exact Or.inr (by rw [Call.prog, Prog.run_map, Store.run_ttl])
  | keys pattern => exact Or.inr (by rw [Call.prog, Prog.run_map, Store.run_keys])
  | forEach => exact Or.inr (by rw [Call.prog, Prog.run_map, Store.run_forEach])
  | size => exact Or.inr (by rw [Call.prog, Prog.run_map, Store.run_size])

/-- **Dead keys stay dead**: one call. -/
theorem Call.keeps_dead (hs : ∀ i, Valid P i (w.cells i)) (hclock : ∀ n, now ≤ w.clock n)
    (hdead : live now (view P w.cells) key = none) {c : Call} (hc : ¬ c.Writes key) :
    live now (view P ((c.prog P maxKeys).run w).2.cells) key = none := by
  rcases Call.view_dead P maxKeys hs hclock hdead hc with hnone | hsame
  · simp only [live, hnone, Option.filter_none]
  · rw [live, hsame]
    exact hdead

/-- The store behind a run of calls, each with its own clock readings. -/
def after (calls : List ((Nat → Int) × Call)) (s : Shards) : Shards :=
  calls.foldl (fun s e => ((e.2.prog P maxKeys).run ⟨e.1, s⟩).2.cells) s

/-- **Dead keys stay dead**: a run of calls. -/
theorem live_after {s : Shards} (hs : ∀ i, Valid P i (s i))
    (hdead : live now (view P s) key = none) {calls : List ((Nat → Int) × Call)}
    (hcalls : ∀ e ∈ calls, (∀ n, now ≤ e.1 n) ∧ ¬ e.2.Writes key) :
    (∀ i, Valid P i (after P maxKeys calls s i)) ∧
      live now (view P (after P maxKeys calls s)) key = none := by
  induction calls generalizing s with
  | nil => exact ⟨hs, hdead⟩
  | cons e calls ih =>
      obtain ⟨hclock, hwrites⟩ := hcalls e (by simp)
      exact ih (s := ((e.2.prog P maxKeys).run ⟨e.1, s⟩).2.cells)
        ((e.2.prog_safe P maxKeys).run hs)
        (Call.keeps_dead P maxKeys (w := ⟨e.1, s⟩) hs hclock hdead hwrites)
        fun e' he' => hcalls e' (by simp [he'])

end Dead

/-- No call of the store sees the key at `t`. -/
structure Unseen (P : Platform) (key : Bytes) (t : Int) (s : Shards) : Prop where
  dead : live t (view P s) key = none
  get : ((Store.get P key).exec t s).1 = none
  existsKey : ((Store.existsKey P key).exec t s).1 = false
  keys : ∀ pattern, key ∉ ((Store.keys P pattern).exec t s).1
  ttl : ((Store.ttl P key).exec t s).1 = -2

theorem Unseen.of_dead {P : Platform} {key : Bytes} {t : Int} {s : Shards}
    (hs : ∀ i, Valid P i (s i)) (ht : t < 2 ^ 63) (hdead : live t (view P s) key = none) :
    Unseen P key t s where
  dead := hdead
  get := by rw [Store.exec_get_fst, hdead, Option.map_none]
  existsKey := by rw [Store.exec_existsKey, hdead, Option.isSome_none]
  keys := by
    intro pattern hmem
    obtain ⟨ks, hks, -, hiff⟩ := Store.exec_keys P hs t pattern
    rw [hks] at hmem
    have hsome := ((hiff key).mp hmem).1
    rw [hdead] at hsome
    cases hsome
  ttl := by
    rw [Prog.exec, Store.run_ttl_view P (w := ⟨fun _ => t, s⟩) key ht hs, hdead]
    rfl

/-- **A non-positive TTL** makes a live key unseen, from then on and until it is
written again, exactly if the deadline is not negative. -/
theorem expire_kills_iff (P : Platform) (maxKeys : Nat) {s : Shards}
    (hs : ∀ i, Valid P i (s i)) {key : Bytes} {now ttlMs : Int}
    (hnow : now < 2 ^ 63) (hlive : live now (view P s) key ≠ none) (hle : ttlMs ≤ 0)
    (hrange : Decimal.InRange (now + ttlMs)) :
    (∀ calls : List ((Nat → Int) × Call),
      (∀ e ∈ calls, (∀ n, now ≤ e.1 n) ∧ ¬ e.2.Writes key) → ∀ t, now ≤ t → t < 2 ^ 63 →
        Unseen P key t (after P maxKeys calls ((Store.expire P key ttlMs).exec now s).2)) ↔
      0 ≤ now + ttlMs := by
  have hvalid := (Store.expire_safe P key ttlMs).exec now hs
  obtain ⟨it, hit⟩ := Option.ne_none_iff_exists'.mp hlive
  have hview : view P ((Store.expire P key ttlMs).exec now s).2 key =
      some (Entry.item ⟨it.value, now + ttlMs, none⟩) := by
    rw [Prog.exec_snd, Store.view_run_expire_live]
    simp only [hit, i64_of_inRange hrange, Function.update_self]
  constructor
  · intro h
    by_contra hneg
    -- a negative deadline is none at all
    have hdead := (h [] (by simp) now le_rfl hnow).dead
    simp [after, live, hview, Entry.item, Entry.hasExpiry, hneg, Item.alive,
      Option.filter_some] at hdead
  · intro h0 calls hcalls t ht ht'
    have hdead : live now (view P ((Store.expire P key ttlMs).exec now s).2) key = none := by
      have hpast : ¬ now < now + ttlMs := by omega
      simp [live, hview, Entry.item, Entry.hasExpiry, h0, Item.alive, Option.filter_some, hpast]
    obtain ⟨hvalid', hdead'⟩ := live_after P maxKeys hvalid hdead hcalls
    exact Unseen.of_dead hvalid' ht' (live_none_of_le ht hdead')

/-- A store with the key `k`, written at `1700000000000`. -/
def oneWrite : Shards :=
  ((Store.set .concrete 4 (ascii "k") (ascii "v") (-1)).exec 1700000000000 Store.empty).2

theorem oneWrite_valid : ∀ i, Valid .concrete i (oneWrite i) :=
  (Store.set_safe .concrete 4 _ _ _).exec _ (Store.empty_valid _)

/-- A second in the past. -/
theorem expire_kills_past :
    Unseen .concrete (ascii "k") 1800000000000
      ((Store.expire .concrete (ascii "k") (-1000)).exec 1700000000000 oneWrite).2 := by
  have hlive : live 1700000000000 (view .concrete oneWrite) (ascii "k") ≠ none := by
    decide +kernel
  have hrange : Decimal.InRange (1700000000000 + -1000) := by decide
  have hiff := expire_kills_iff .concrete 4 oneWrite_valid (by decide) hlive (by decide) hrange
  exact hiff.mpr (by decide) [] (by simp) 1800000000000 (by decide) (by decide)

/-- A second before 1970: the key is there for good. -/
theorem expire_revives :
    ((Store.get .concrete (ascii "k")).exec 1800000000000
      ((Store.expire .concrete (ascii "k") (-1700000001000)).exec 1700000000000 oneWrite).2).1 =
        some (ascii "v") ∧
    ((Store.ttl .concrete (ascii "k")).exec 1800000000000
      ((Store.expire .concrete (ascii "k") (-1700000001000)).exec 1700000000000 oneWrite).2).1 =
        -1 := by
  decide +kernel

end RedisCache.Storage
