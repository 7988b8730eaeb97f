import Mathlib
import RedisCache.Commands.Effects
import RedisCache.Commands.Runs
import RedisCache.Storage.Capacity

/-!
# The capacity bound

`max_keys` bounds the size of the store in every state of a run exactly as
long as no `INCR` of a missing key meets a full store: `set` makes room
before it writes, `incr` does not.
-/

namespace RedisCache.Commands

open Sections Protocol Storage TimedMap

/-! ## One command -/

section Size

variable {P : Platform} {maxKeys : Nat} {w : World Index Shard}

/-- An `INCR` of a key that is not there, on a full store. -/
def Overfills (P : Platform) (maxKeys : Nat) (s : Shards) (t : Turn) : Prop :=
  ∃ req key, t.request = some req ∧ commandOf req = .incr key ∧ view P s key = none ∧
    Store.total s = maxKeys

theorem total_incr_absent (hs : ∀ i, Valid P i (w.cells i)) {key : Bytes}
    (hkey : view P w.cells key = none) :
    Store.total ((Store.incr P key).run w).2.cells = Store.total w.cells + 1 := by
  have hcounter : Store.counterOf (w.clock 0) (view P w.cells) key = some 0 := by
    simp [Store.counterOf, live, hkey]
  have hview := Store.view_run_incr P w key
  rw [hcounter] at hview
  exact Store.total_insert hs ((Store.incr_safe P key).run hs) hkey hview

theorem total_incr_present (hs : ∀ i, Valid P i (w.cells i)) {key : Bytes}
    (hkey : view P w.cells key ≠ none) :
    Store.total ((Store.incr P key).run w).2.cells ≤ Store.total w.cells := by
  have hview := Store.view_run_incr P w key
  have hs' := (Store.incr_safe P key).run hs
  cases hc : Store.counterOf (w.clock 0) (view P w.cells) key with
  | none =>
      rw [hc] at hview
      exact Store.total_mono hs hs' fun k hk => by rwa [hview] at hk
  | some n =>
      rw [hc] at hview
      exact Store.total_overwrite hs hs' hkey hview

theorem total_expire_le (hs : ∀ i, Valid P i (w.cells i)) (key : Bytes) (ttlMs : Int) :
    Store.total ((Store.expire P key ttlMs).run w).2.cells ≤ Store.total w.cells := by
  refine Store.total_mono hs ((Store.expire_safe P key ttlMs).run hs) fun k hk => ?_
  rw [Store.view_run_expire] at hk
  by_cases hkk : k = key
  · subst hkk
    intro hnone
    simp [hnone] at hk
  · rwa [Function.update_of_ne hkk] at hk

/-- A command other than `INCR` keeps the bound; so does an `INCR` that has
room or finds its key. -/
theorem total_command_le (hs : ∀ i, Valid P i (w.cells i)) (hmax : 1 ≤ maxKeys)
    (hle : Store.total w.cells ≤ maxKeys) (c : Command)
    (hincr : ∀ key, c = .incr key → view P w.cells key = none →
      Store.total w.cells ≠ maxKeys) :
    Store.total ((c.prog P maxKeys).run w).2.cells ≤ maxKeys := by
  cases c with
  | reply r => exact hle
  | set key value o =>
      cases hblocks : o.blocks w.clock (view P w.cells) key with
      | true => rwa [(run_set_blocked P maxKeys hblocks value).2]
      | false =>
          simp only [run_set_free P maxKeys hblocks value]
          exact Store.total_run_set_le (w := ⟨fun n => w.clock (n + o.readings), w.cells⟩)
            hs hmax hle key value o.ttlMs
  | get key =>
      simp only [Command.prog, Prog.run_map]
      exact (Store.total_run_get_le hs key).trans hle
  | del ks =>
      simp only [Command.prog, Prog.run_map]
      refine (Store.total_mono hs ((countOf_safe P (Store.del_safe P) ks 0).run hs)
        fun k hk => ?_).trans hle
      rw [view_run_countOf_del] at hk
      intro hnone
      simp [hnone] at hk
  | exist ks =>
      simp only [Command.prog, Prog.run_map, run_countOf_exists]
      exact hle
  | expire key ttlMs =>
      simp only [Command.prog, Prog.run_map]
      exact (total_expire_le hs key ttlMs).trans hle
  | ttl key | pttl key =>
      simp only [Command.prog, Prog.run_map, Store.run_ttl]
      exact hle
  | incr key =>
      -- `Store::incr` inserts without `maybe_evict`: the one way past the limit
      simp only [Command.prog, Prog.run_map]
      by_cases hkey : view P w.cells key = none
      · have := total_incr_absent hs hkey
        have := hincr key rfl hkey
        omega
      · exact (total_incr_present hs hkey).trans hle
  | incrby key delta =>
      have hget := (Store.total_run_get_le hs key).trans hle
      by_cases hec : (currentOf ((Store.get P key).run w).1).ec = none
      · simp only [run_incrby_added P maxKeys hec]
        exact Store.total_run_set_le ((Store.get_safe P key).run hs) hmax hget key _ _
      · simp only [run_incrby_refused P maxKeys hec]
        exact hget
  | keys pattern =>
      simp only [Command.prog, Prog.run_map, Store.run_keys]
      exact hle
  | dbsize =>
      simp only [Command.prog, Prog.run_map, Store.run_size]
      exact hle
  | flushall =>
      simp only [Command.prog, Prog.run_bind, Prog.run_pure]
      refine (Store.total_mono hs ((Store.flush_safe P).run hs) fun k hk => ?_).trans hle
      rw [Store.view_run_flush] at hk
      exact absurd rfl hk

end Size

/-! ## Whole runs -/

section Bound

variable {P : Platform} {maxKeys : Nat} {s : Shards}

theorem total_next_le (hs : ∀ i, Valid P i (s i)) (hmax : 1 ≤ maxKeys)
    (hle : Store.total s ≤ maxKeys) {t : Turn} (ht : ¬ Overfills P maxKeys s t) :
    Store.total (t.next P maxKeys s) ≤ maxKeys := by
  cases hreq : t.request with
  | some req =>
      rw [Turn.next_request P maxKeys hreq]
      refine total_command_le (w := ⟨t.clock, s⟩) hs hmax hle _ fun key hc hkey hfull => ?_
      exact ht ⟨req, key, hreq, hc, hkey, hfull⟩
  | none =>
      rw [Turn.next_sweep P maxKeys hreq]
      refine (Store.total_mono hs ((Store.sweepExpired_safe P).run (w := ⟨t.clock, s⟩) hs)
        fun k hk => ?_).trans hle
      rw [Store.view_run_sweepExpired P (w := ⟨t.clock, s⟩) hs] at hk
      intro hnone
      simp [live, hnone] at hk

theorem total_next_overfills (hs : ∀ i, Valid P i (s i)) {t : Turn}
    (ht : Overfills P maxKeys s t) : Store.total (t.next P maxKeys s) = maxKeys + 1 := by
  obtain ⟨req, key, hreq, hc, hkey, hfull⟩ := ht
  rw [Turn.next_request P maxKeys hreq, hc, ← hfull]
  simp only [Command.prog, Prog.run_map]
  exact total_incr_absent (w := ⟨t.clock, s⟩) hs hkey

/-- **The capacity bound**: the size of the store stays within `max_keys`
through a whole run exactly if no `INCR` of a missing key meets a full
store. -/
theorem size_le_maxKeys_iff (P : Platform) {maxKeys : Nat} (hmax : 1 ≤ maxKeys)
    (turns : List Turn) :
    (∀ done, done <+: turns → Store.total (play P maxKeys done) ≤ maxKeys) ↔
      ∀ done t, done ++ [t] <+: turns → ¬ Overfills P maxKeys (play P maxKeys done) t := by
  constructor
  · intro hbound done t hrun hover
    have hsize := hbound _ hrun
    rw [play_append, total_next_overfills (play_valid P maxKeys done) hover] at hsize
    omega
  · intro hroom done
    induction done using List.reverseRecOn with
    | nil =>
        intro _
        exact Store.total_empty.le.trans (Nat.zero_le _)
    | append_singleton done t ih =>
        intro hrun
        rw [play_append]
        exact total_next_le (play_valid P maxKeys done) hmax
          (ih ((List.prefix_append done [t]).trans hrun)) (hroom done t hrun)

theorem size_le_maxKeys_one_incr :
    1 ≤ 1 ∧ ∀ done, done <+: [Turn.ofWords 0 ["INCR", "a"]] →
      Store.total (play .concrete 1 done) ≤ 1 := by
  refine ⟨le_rfl, (size_le_maxKeys_iff .concrete le_rfl _).mpr fun done t hrun hover => ?_⟩
  obtain ⟨-, -, -, -, -, hfull⟩ := hover
  have hlen := hrun.length_le
  obtain rfl : done = [] := by simpa using hlen
  exact absurd hfull (by decide)

/-- `SET a 1`, then `INCR b`, with room for one key: two keys. -/
theorem size_exceeds_maxKeys :
    ¬ ∀ done, done <+: [Turn.ofWords 0 ["SET", "a", "1"], Turn.ofWords 0 ["INCR", "b"]] →
      Store.total (play .concrete 1 done) ≤ 1 := by
  intro hbound
  exact absurd (hbound _ List.prefix_rfl) (by decide +kernel)

end Bound

end RedisCache.Commands
