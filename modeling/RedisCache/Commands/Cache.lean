import Mathlib
import RedisCache.Commands.Dictionary
import RedisCache.Commands.Sweeping
import RedisCache.Storage.Refinement

/-!
# The server as a cache

What a client may rely on, whatever else happens. The abstract cache is one
map from keys to items with deadlines. A command acts on it in one piece; only
the clock is looked at more than once, and it may move on while the command
runs. A cache may forget. This one does so only to make room: a `SET` or an
`INCRBY` that finds `max_keys` entries or more may drop one key before it
writes.

* `Command.May` — what a command does to the abstract cache and what it may
  answer;
* `Explains` — the same of a run, with sweeps in between, which do nothing;
* `Mirrors` — the store holds what the abstract cache holds, less some of what
  is dead;
* `Mirrors.command` — the step: whatever a command does to the store, the
  abstract cache can do;
* `run_explained` — every run.

`DEL` and `DBSIZE` count dead entries that are still in the store. Nothing takes
a dead item out of the abstract cache, so both numbers lie between that of its
live keys and that of all its keys.
-/

namespace RedisCache.Commands

open Sections Protocol Storage TimedMap

/-- The abstract cache. -/
abbrev Cache := Bytes → Option (Item Bytes)

/-! ## What a command may do -/

/-- If the cache is full, one key may be forgotten. -/
def Forgets (full : Prop) (m m' : Cache) : Prop :=
  m' = m ∨ full ∧ ∃ k, m' = Function.update m k none

/-- The number under a key with `delta` added, in `int64_t`, or `none` if it is
not a number. -/
def sumAt (now : Int) (m : Cache) (key : Bytes) (delta : Int) : Option Int :=
  (Store.counterOf now m key).map fun n => i64 (n + delta)

/-- How many of the keys are live, each at a clock reading of its own. -/
def liveCount (rd : Nat → Int) (m : Cache) (ks : List (Bytes × Nat)) : Nat :=
  ks.countP fun x => (live (rd x.2) m x.1).isSome

/-- A command with the clock readings `rd` may answer `r` and turn `m` into
`m'`. Where two readings matter, the second is not before the first. -/
def Command.May (P : Platform) (full : Prop) (rd : Nat → Int) (m : Cache) (r : Bytes)
    (m' : Cache) : Command → Prop
  | .reply s => r = s ∧ m' = m
  | .set key value o =>
      ∃ i j, i ≤ j ∧
        if o.refuses ((live (rd i) m key).map Item.value) then
          r = RespSerializer.nullBulk ∧ m' = m
        else r = RespSerializer.ok ∧ ∃ m₀, Forgets full m m₀ ∧
          m' = Function.update m₀ key
            (some (Entry.item ⟨value, Store.deadlineOf (rd j) o.ttlMs, none⟩))
  | .get key => ∃ i, r = bulkReply ((live (rd i) m key).map Item.value) ∧ m' = m
  | .del ks =>
      ∃ i n, r = RespSerializer.integer (i64 (n : Nat)) ∧ (found (live (rd i) m) ks).card ≤ n ∧
        n ≤ (found m ks).card ∧ m' = fun k => if ks.contains k then none else m k
  | .exist ks =>
      ∃ is : List Nat, is.length = ks.length ∧ is.Pairwise (· ≤ ·) ∧
        r = RespSerializer.integer (i64 (liveCount rd m (ks.zip is))) ∧ m' = m
  | .expire key ttlMs =>
      ∃ i j, i ≤ j ∧
        match live (rd i) m key with
        | none => r = RespSerializer.integer 0 ∧ m' = m
        | some it => r = RespSerializer.integer 1 ∧
            m' = Function.update m key
              (some (Entry.item ⟨it.value, i64 (rd j + ttlMs), none⟩))
  | .ttl key => ∃ i, r = ttlReply (Store.ttlOf (rd i) (live (rd i) m key)) ∧ m' = m
  | .pttl key =>
      ∃ i, r = RespSerializer.integer (Store.ttlOf (rd i) (live (rd i) m key)) ∧ m' = m
  | .incr key =>
      ∃ i, r = counterReply (sumAt (rd i) m key 1) ∧
        match sumAt (rd i) m key 1 with
        | none => m' = m
        | some n => m' = Function.update m key (some ⟨Decimal.ofInt n, none⟩)
  | .incrby key delta =>
      ∃ i, r = counterReply (sumAt (rd i) m key delta) ∧
        match sumAt (rd i) m key delta with
        | none => m' = m
        | some n => ∃ m₀, Forgets full m m₀ ∧
            m' = Function.update m₀ key (some ⟨Decimal.ofInt n, none⟩)
  | .keys pattern =>
      ∃ i ks, r = RespSerializer.array ks ∧ ks.Nodup ∧
        (∀ k, k ∈ ks ↔ (live (rd i) m k).isSome ∧
          (pattern = ascii "*" ∨ P.fnmatch (Shard.cStr pattern) (Shard.cStr k) = true)) ∧ m' = m
  | .dbsize =>
      ∃ i n, r = RespSerializer.integer (i64 (n : Nat)) ∧
        {k | live (rd i) m k ≠ none}.ncard ≤ n ∧ n ≤ {k | m k ≠ none}.ncard ∧ m' = m
  | .flushall => r = RespSerializer.ok ∧ m' = fun _ => none

/-! ## One command on the store -/

section Store

variable {P : Platform} {maxKeys : Nat}

/-- Eviction takes at most one key, and none below the limit. -/
theorem forgets_evicted (maxKeys : Nat) {s : Shards} (hs : ∀ i, Valid P i (s i)) :
    Forgets (maxKeys ≤ Store.total s) (view P s) (view P (Store.evicted maxKeys s)) := by
  by_cases hfull : maxKeys ≤ Store.total s
  · by_cases hpos : 0 < Store.total s
    · obtain ⟨k, -, -, -, hview⟩ := Store.view_evicted hs hpos hfull
      exact .inr ⟨hfull, k, hview⟩
    · -- there is nothing to evict
      have hnone : ∀ k, view P s k = none := by
        intro k
        by_contra hk
        exact hpos (Store.total_pos hs hk)
      refine .inl (funext fun k => ?_)
      rw [hnone k]
      by_contra hk
      obtain ⟨it, hit⟩ := Option.ne_none_iff_exists'.mp hk
      cases (Store.view_evicted_of_some P maxKeys hit).symm.trans (hnone k)
  · exact .inl (by rw [Store.evicted_of_lt maxKeys (not_le.mp hfull)])

/-- With a clock that does not go back, `NX` and `XX` might as well look at the
key at the same time. -/
theorem blocks_eq_refuses (o : SetOptions) {clock : Nat → Int} (hmono : Monotone clock)
    (m : Cache) (key : Bytes) :
    o.blocks clock m key = o.refuses ((live (clock 0) m key).map Item.value) := by
  rw [SetOptions.blocks, SetOptions.refuses, Option.isSome_map]
  cases hnx : o.nx with
  | false => simp
  | true =>
      cases hlive : live (clock 0) m key with
      | some it => simp
      | none =>
          have hlater : live (clock 2) m key = none :=
            live_none_of_le (hmono (by omega)) hlive
          simp [hlater]

theorem run_countOf_exists_fst (P : Platform) (ks : List Bytes) (rd : Nat → Int) (d : Nat)
    (s : Shards) {n : Int} (hn : Decimal.InRange n) :
    ((countOf (Store.existsKey P) ks n).run ⟨fun i => rd (i + d), s⟩).1 =
      i64 (n + liveCount rd (view P s) (ks.zip (List.range' d ks.length 2))) := by
  induction ks generalizing d n with
  | nil => simp [countOf, liveCount, i64_of_inRange hn]
  | cons k ks ih =>
      have hshift : (fun i => rd (i + 2 + d)) = fun i => rd (i + (d + 2)) := by
        funext i
        rw [Nat.add_assoc, Nat.add_comm 2 d]
      rw [countOf, Prog.run_bind, Store.run_existsKey_view]
      simp only [Nat.zero_add, hshift, List.length_cons, List.range'_succ, List.zip_cons_cons]
      cases hlive : (live (rd d) (view P s) k).isSome with
      | true =>
          rw [if_pos rfl, ih _ (i64_inRange _), liveCount, liveCount,
            List.countP_cons_of_pos (by simpa using hlive), i64_add_left]
          congr 1
          push_cast
          ring
      | false =>
          rw [if_neg (by simp), ih _ hn, liveCount, liveCount,
            List.countP_cons_of_neg (by simp [hlive])]

end Store

/-! ## Store and cache -/

/-- The store holds what the cache holds, less some of what is dead at `now`. -/
structure Mirrors (P : Platform) (now : Int) (s : Shards) (m : Cache) : Prop where
  valid : ∀ i, Valid P i (s i)
  tidied : Tidied now m (view P s)
  finite : {k | m k ≠ none}.Finite

namespace Mirrors

variable {P : Platform} {maxKeys : Nat} {now : Int} {s s' : Shards} {m : Cache} {rd : Nat → Int}

theorem of_valid (now : Int) (hs : ∀ i, Valid P i (s i)) : Mirrors P now s (view P s) :=
  ⟨hs, Tidied.refl now _, Store.support_finite hs⟩

theorem empty (P : Platform) (now : Int) : Mirrors P now Store.empty fun _ => none := by
  have h := of_valid (P := P) now (Store.empty_valid P)
  rwa [view_empty] at h

theorem refines (h : Mirrors P now s m) : Refines P now s m := ⟨h.valid, h.tidied.live_eq le_rfl⟩

theorem later {u : Int} (h : Mirrors P now s m) (hu : now ≤ u) : Mirrors P u s m :=
  ⟨h.valid, h.tidied.later hu, h.finite⟩

theorem live_key (h : Mirrors P now s m) (key : Bytes) :
    live now (view P s) key = live now m key := h.refines.live_key key

/-- Both sides write the same to one key. -/
theorem write (h : Mirrors P now s m) (hs' : ∀ i, Valid P i (s' i)) {key : Bytes}
    {o : Option (Item Bytes)} (hview : view P s' = Function.update (view P s) key o) :
    Mirrors P now s' (Function.update m key o) := by
  refine ⟨hs', hview ▸ h.tidied.update key o, (h.finite.insert key).subset fun k hk => ?_⟩
  by_cases hkey : k = key
  · exact .inl hkey
  · exact .inr fun hnone => hk (by rw [Function.update_of_ne hkey, hnone])

/-- The store drops dead entries. -/
theorem dropped (h : Mirrors P now s m) (hs' : ∀ i, Valid P i (s' i))
    (htidied : Tidied now (view P s) (view P s')) : Mirrors P now s' m :=
  ⟨hs', h.tidied.trans htidied, h.finite⟩

theorem unchanged (h : Mirrors P now s m) (hs' : ∀ i, Valid P i (s' i))
    (hview : view P s' = view P s) : Mirrors P now s' m :=
  h.dropped hs' (hview ▸ Tidied.refl now _)

/-- No entry of the store is unknown to the cache. -/
theorem total_le (h : Mirrors P now s m) : Store.total s ≤ {k | m k ≠ none}.ncard := by
  rw [Store.total_eq_ncard P h.valid]
  exact Set.ncard_le_ncard (fun k hk => h.tidied.subset hk) h.finite

/-- The live keys are among the entries of the store. -/
theorem live_le_total (h : Mirrors P now s m) :
    {k | live now m k ≠ none}.ncard ≤ Store.total s := by
  rw [Store.total_eq_ncard P h.valid, ← h.refines.agree]
  refine Set.ncard_le_ncard (fun k hk hnone => hk ?_) (Store.support_finite h.valid)
  rw [live, hnone]
  rfl

/-! ## The step -/

/-- What eviction takes from the store the abstract cache may forget. -/
theorem forgets {full : Prop} (h : Mirrors P now s m) (hs' : ∀ i, Valid P i (s' i))
    (hview : Forgets full (view P s) (view P s')) :
    ∃ m₀, Forgets full m m₀ ∧ Mirrors P now s' m₀ := by
  rcases hview with hsame | ⟨hfull, k, hgone⟩
  · exact ⟨m, .inl rfl, h.unchanged hs' hsame⟩
  · exact ⟨_, .inr ⟨hfull, k, rfl⟩, h.write hs' hgone⟩

/-- `Store::set`, with its eviction. -/
theorem set_forgets (maxKeys : Nat) {w : World Index Shard} (h : Mirrors P now w.cells m)
    (key value : Bytes) (ttlMs : Int) :
    ∃ m₀, Forgets (maxKeys ≤ Store.total w.cells) m m₀ ∧
      Mirrors P now ((Store.set P maxKeys key value ttlMs).run w).2.cells
        (Function.update m₀ key (some (Entry.item ⟨value,
          Store.deadlineOf (w.clock (Store.evictReadings maxKeys w.cells)) ttlMs, none⟩))) := by
  obtain ⟨m₀, hforgets, h₀⟩ := h.forgets (Store.evicted_valid maxKeys h.valid)
    (forgets_evicted maxKeys h.valid)
  exact ⟨m₀, hforgets, h₀.write ((Store.set_safe P maxKeys key value ttlMs).run h.valid)
    (Store.view_run_set_evicted P maxKeys w key value ttlMs)⟩

theorem get_run (h : Mirrors P (rd 0) s m) (hmono : Monotone rd) (key : Bytes) :
    ((Store.get P key).run ⟨rd, s⟩).1 = (live (rd 0) m key).map Item.value ∧
      Mirrors P (rd 0) ((Store.get P key).run ⟨rd, s⟩).2.cells m := by
  have hle : rd 0 ≤ rd 2 := hmono (by omega)
  refine ⟨by rw [Store.run_get_fst P (w := ⟨rd, s⟩) key hle, h.live_key], ?_⟩
  have hvalid := (Store.get_safe P key).run (w := ⟨rd, s⟩) h.valid
  have hview := Store.view_run_get_of_le P (w := ⟨rd, s⟩) key hle
  simp only at hview
  split at hview
  · rename_i hdead
    exact h.dropped hvalid (hview ▸ Tidied.forget hdead)
  · exact h.unchanged hvalid hview

theorem set_command (h : Mirrors P (rd 0) s m) (hmono : Monotone rd) (key value : Bytes)
    (o : SetOptions) :
    ∃ m', (Command.set key value o).May P (maxKeys ≤ Store.total s) rd m
        (((Command.set key value o).prog P maxKeys).run ⟨rd, s⟩).1 m' ∧
      Mirrors P (rd 0) (((Command.set key value o).prog P maxKeys).run ⟨rd, s⟩).2.cells m' := by
  have hblocks := blocks_eq_refuses o hmono (view P s) key
  rw [h.live_key] at hblocks
  cases hb : o.blocks rd (view P s) key with
  | true =>
      obtain ⟨hr, hcells⟩ := run_set_blocked P maxKeys (w := ⟨rd, s⟩) hb value
      refine ⟨m, ⟨0, 0, le_rfl, ?_⟩, by rwa [hcells]⟩
      rw [← hblocks, hb, if_pos rfl]
      exact ⟨hr, rfl⟩
  | false =>
      obtain ⟨m₀, hforgets, h₀⟩ :=
        set_forgets maxKeys (w := ⟨fun n => rd (n + o.readings), s⟩) h key value
          o.ttlMs
      simp only [run_set_free P maxKeys (w := ⟨rd, s⟩) hb value]
      refine ⟨Function.update m₀ key (some (Entry.item ⟨value,
        Store.deadlineOf (rd (Store.evictReadings maxKeys s + o.readings)) o.ttlMs, none⟩)),
        ⟨0, _, Nat.zero_le (Store.evictReadings maxKeys s + o.readings), ?_⟩, h₀⟩
      rw [← hblocks, hb, if_neg (by simp)]
      exact ⟨rfl, m₀, hforgets, rfl⟩

theorem counterOf_eq_current (now : Int) (m : Cache) (key : Bytes) :
    Store.counterOf now m key =
      if (currentOf ((live now m key).map Item.value)).ec ≠ none then none
      else some (currentOf ((live now m key).map Item.value)).value := by
  rw [Store.counterOf]
  cases live now m key with
  | none => rfl
  | some it => rfl

theorem incrby_command (h : Mirrors P (rd 0) s m) (hmono : Monotone rd) (key : Bytes)
    (delta : Int) :
    ∃ m', (Command.incrby key delta).May P (maxKeys ≤ Store.total s) rd m
        (((Command.incrby key delta).prog P maxKeys).run ⟨rd, s⟩).1 m' ∧
      Mirrors P (rd 0) (((Command.incrby key delta).prog P maxKeys).run ⟨rd, s⟩).2.cells m' := by
  obtain ⟨hfst, hget⟩ := get_run h hmono key
  have hcounter := counterOf_eq_current (rd 0) m key
  by_cases hec : (currentOf ((live (rd 0) m key).map Item.value)).ec = none
  · have hsum : sumAt (rd 0) m key delta =
        some (i64 ((currentOf ((live (rd 0) m key).map Item.value)).value + delta)) := by
      rw [sumAt, hcounter, if_neg (not_not.mpr hec), Option.map_some]
    simp only [run_incrby_added P maxKeys (w := ⟨rd, s⟩) (by rwa [hfst]) delta, hfst]
    generalize i64 ((currentOf ((live (rd 0) m key).map Item.value)).value + delta) = sum at hsum ⊢
    obtain ⟨m₀, hforgets, h₀⟩ := set_forgets maxKeys hget key (Decimal.ofInt sum) (-1)
    rw [Store.deadlineOf_of_nonpos (by decide)] at h₀
    -- reading the key may have made room
    have hroom : Forgets (maxKeys ≤ Store.total s) m m₀ := by
      refine hforgets.imp_right fun hfull => ⟨le_trans hfull.1 ?_, hfull.2⟩
      exact Store.total_run_get_le (w := ⟨rd, s⟩) h.valid key
    refine ⟨Function.update m₀ key (some ⟨Decimal.ofInt sum, none⟩), ⟨0, ?_, ?_⟩, h₀⟩
    · rw [hsum]
      rfl
    · rw [hsum]
      exact ⟨m₀, hroom, rfl⟩
  · have hsum : sumAt (rd 0) m key delta = none := by
      rw [sumAt, hcounter, if_pos hec, Option.map_none]
    have hrun := run_incrby_refused P maxKeys (w := ⟨rd, s⟩) (by rwa [hfst]) delta
    refine ⟨m, ⟨0, ?_, ?_⟩, by rw [hrun]; exact hget⟩
    · rw [hrun, hsum]
      rfl
    · rw [hsum]

theorem del_command (h : Mirrors P (rd 0) s m) (ks : List Bytes) :
    ∃ m', (Command.del ks).May P (maxKeys ≤ Store.total s) rd m
        (((Command.del ks).prog P maxKeys).run ⟨rd, s⟩).1 m' ∧
      Mirrors P (rd 0) (((Command.del ks).prog P maxKeys).run ⟨rd, s⟩).2.cells m' := by
  simp only [Command.prog, Prog.run_map, run_countOf_del_fst]
  refine ⟨_, ⟨0, (found (view P s) ks).card, ?_, ?_, ?_, rfl⟩,
    (countOf_safe P (Store.del_safe P) ks 0).run (w := ⟨rd, s⟩) h.valid, ?_, ?_⟩
  · rw [tally_eq _ _ (by decide), Int.zero_add]
  · rw [← h.refines.agree]
    refine Finset.card_le_card fun k hk => ?_
    simp only [found, Finset.mem_filter] at hk ⊢
    obtain ⟨it, hit⟩ := Option.isSome_iff_exists.mp hk.2
    exact ⟨hk.1, by rw [(live_eq_some.mp hit).1]; rfl⟩
  · refine Finset.card_le_card fun k hk => ?_
    simp only [found, Finset.mem_filter, Option.isSome_iff_ne_none] at hk ⊢
    exact ⟨hk.1, h.tidied.subset hk.2⟩
  · rw [view_run_countOf_del]
    intro k
    by_cases hk : k ∈ ks
    · simp [hk]
    · simpa [live, hk] using h.tidied k
  · refine h.finite.subset fun k hk hnone => hk ?_
    simp only [hnone, ite_self]

/-- **The step**: what a command does to the store, the abstract cache can do. -/
theorem command (maxKeys : Nat) (h : Mirrors P now s m) (hc : ClockFrom now rd) (c : Command) :
    ∃ m', c.May P (maxKeys ≤ Store.total s) rd m ((c.prog P maxKeys).run ⟨rd, s⟩).1 m' ∧
      Mirrors P (rd 0) ((c.prog P maxKeys).run ⟨rd, s⟩).2.cells m' := by
  replace h := h.later (hc.start 0)
  cases c with
  | reply r => exact ⟨m, ⟨rfl, rfl⟩, h⟩
  | set key value o => exact set_command h hc.mono key value o
  | get key =>
      obtain ⟨hfst, hget⟩ := get_run h hc.mono key
      simp only [Command.prog, Prog.run_map, hfst]
      exact ⟨m, ⟨0, rfl, rfl⟩, hget⟩
  | del ks => exact del_command h ks
  | exist ks =>
      have hcount := run_countOf_exists_fst P ks rd 0 s (n := 0) (by decide)
      simp only [Nat.add_zero, Int.zero_add] at hcount
      simp only [Command.prog, Prog.run_map, run_countOf_exists, hcount]
      refine ⟨m, ⟨List.range' 0 ks.length 2, List.length_range', ?_, ?_, rfl⟩, h⟩
      · have hlt : (List.range' 0 ks.length 2).Pairwise (· < ·) :=
          List.pairwise_lt_range' 2
        exact hlt.imp fun h => h.le
      · -- the readings are not before the first, where store and cache agree
        have hsame : ∀ x, live (rd x) (view P s) = live (rd x) m := fun x =>
          (h.later (hc.mono (Nat.zero_le x))).refines.agree
        simp only [liveCount, hsame]
  | expire key ttlMs =>
      have hview := Store.view_run_expire_live P ⟨rd, s⟩ key ttlMs
      have hvalid := (Store.expire_safe P key ttlMs).run (w := ⟨rd, s⟩) h.valid
      simp only [h.live_key] at hview
      simp only [Command.prog, Prog.run_map, Store.run_expire_fst, h.live_key]
      cases hl : live (rd 0) m key with
      | none =>
          simp only [hl] at hview
          refine ⟨m, ⟨0, 1, by omega, ?_⟩, h.unchanged hvalid hview⟩
          simp [hl]
      | some it =>
          simp only [hl] at hview
          refine ⟨_, ⟨0, 1, by omega, ?_⟩, h.write hvalid hview⟩
          simp [hl]
  | ttl key =>
      simp only [Command.prog, Prog.run_map,
        Store.run_ttl_view P (w := ⟨rd, s⟩) key (hc.ranged 0).2 h.valid, h.live_key]
      exact ⟨m, ⟨0, rfl, rfl⟩, h⟩
  | pttl key =>
      simp only [Command.prog, Prog.run_map,
        Store.run_ttl_view P (w := ⟨rd, s⟩) key (hc.ranged 0).2 h.valid, h.live_key]
      exact ⟨m, ⟨0, rfl, rfl⟩, h⟩
  | incr key =>
      have hview := Store.view_run_incr P ⟨rd, s⟩ key
      have hvalid := (Store.incr_safe P key).run (w := ⟨rd, s⟩) h.valid
      simp only [h.refines.counterOf_eq] at hview
      simp only [Command.prog, Prog.run_map, Store.run_incr_fst, h.refines.counterOf_eq]
      cases hn : Store.counterOf (rd 0) m key with
      | none =>
          simp only [hn] at hview
          refine ⟨m, ⟨0, ?_, ?_⟩, h.unchanged hvalid hview⟩
          · simp [sumAt, hn]
          · simp [sumAt, hn]
      | some n =>
          simp only [hn] at hview
          refine ⟨_, ⟨0, ?_, ?_⟩, h.write hvalid hview⟩
          · simp [sumAt, hn]
          · simp [sumAt, hn]
  | incrby key delta => exact incrby_command h hc.mono key delta
  | keys pattern =>
      obtain ⟨hnd, hmem⟩ := Store.run_keys_view P (w := ⟨rd, s⟩) h.valid pattern
      simp only [h.live_key] at hmem
      simp only [Command.prog, Prog.run_map]
      refine ⟨m, ⟨0, _, rfl, hnd, hmem, rfl⟩, ?_⟩
      rwa [Store.run_keys]
  | dbsize =>
      simp only [Command.prog, Prog.run_map, Store.run_size]
      exact ⟨m, ⟨0, _, rfl, h.live_le_total, h.total_le, rfl⟩, h⟩
  | flushall =>
      have hend := of_valid (rd 0) ((Store.flush_safe P).run (w := ⟨rd, s⟩) h.valid)
      rw [Store.view_run_flush] at hend
      simp only [Command.prog, Prog.run_bind, Prog.run_pure]
      exact ⟨_, ⟨rfl, rfl⟩, hend⟩

/-- A sweep is nothing to the abstract cache. -/
theorem sweep (h : Mirrors P now s m) (hc : ClockFrom now rd) :
    Mirrors P (rd 0) (Store.sweepExpired.run ⟨rd, s⟩).2.cells m := by
  refine (h.later (hc.start 0)).dropped
    ((Store.sweepExpired_safe P).run (w := ⟨rd, s⟩) h.valid) ?_
  rw [Store.view_run_sweepExpired P (w := ⟨rd, s⟩) h.valid]
  exact (Tidied.refl (rd 0) _).live

end Mirrors

/-! ## Whole runs -/

/-- A turn of a run: what was answered, and whether the store was full. -/
structure Step where
  turn : Turn
  full : Bool
  reply : Bytes

def stepsOf (P : Platform) (maxKeys : Nat) : Shards → List Turn → List Step
  | _, [] => []
  | s, t :: turns =>
      ⟨t, decide (maxKeys ≤ Store.total s), ((t.prog P maxKeys).run ⟨t.clock, s⟩).1⟩ ::
        stepsOf P maxKeys (t.next P maxKeys s) turns

/-- What the abstract cache may make of a turn. A sweep is nothing to it. -/
def Step.May (P : Platform) (e : Step) (m m' : Cache) : Prop :=
  match e.turn.request with
  | none => m' = m
  | some req => (commandOf req).May P (e.full = true) e.turn.clock m e.reply m'

/-- The turns one after the other, each as `R` lets the cache. -/
def Explains (R : Step → Cache → Cache → Prop) : List Step → Cache → Cache → Prop
  | [], m, m' => m' = m
  | e :: es, m, m' => ∃ m₁, R e m m₁ ∧ Explains R es m₁ m'

section Runs

variable {P : Platform} {maxKeys : Nat} {now : Int} {s : Shards} {m : Cache}

theorem explains_append {R : Step → Cache → Cache → Prop} {es es' : List Step} {m₁ m₂ : Cache} :
    Explains R (es ++ es') m₁ m₂ ↔ ∃ m, Explains R es m₁ m ∧ Explains R es' m m₂ := by
  induction es generalizing m₁ with
  | nil => simp [Explains]
  | cons e es ih =>
      simp only [List.cons_append, Explains, ih]
      constructor
      · rintro ⟨m, hfirst, m', hrest, hend⟩
        exact ⟨m', ⟨m, hfirst, hrest⟩, hend⟩
      · rintro ⟨m', ⟨m, hfirst, hrest⟩, hend⟩
        exact ⟨m, hfirst, m', hrest, hend⟩

/-- One turn, with its clock after `now`. -/
theorem Mirrors.turn (maxKeys : Nat) (h : Mirrors P now s m) {t : Turn}
    (hc : ClockFrom now t.clock) :
    ∃ m', Step.May P ⟨t, decide (maxKeys ≤ Store.total s),
        ((t.prog P maxKeys).run ⟨t.clock, s⟩).1⟩ m m' ∧
      Mirrors P (t.clock 0) (t.next P maxKeys s) m' := by
  cases hreq : t.request with
  | none =>
      refine ⟨m, by simp only [Step.May, hreq], ?_⟩
      rw [Turn.next_sweep P maxKeys hreq]
      exact h.sweep hc
  | some req =>
      obtain ⟨m', hdoes, h'⟩ := h.command maxKeys hc (commandOf req)
      refine ⟨m', ?_, by rwa [Turn.next_request P maxKeys hreq]⟩
      simp only [Step.May, hreq, Turn.prog, dispatch_eq, decide_eq_true_eq]
      exact hdoes

/-- Induction on the run: the relation is handed on at the first clock reading
of each turn. -/
theorem run_explained (maxKeys : Nat) {turns : List Turn} (h : Mirrors P now s m)
    (hnow : ∀ t ∈ turns, ∀ n, now ≤ t.clock n) (hclock : Ticking turns) :
    ∃ m', Explains (Step.May P) (stepsOf P maxKeys s turns) m m' ∧
      ∀ u, now ≤ u → (∀ t ∈ turns, t.clock 0 ≤ u) →
        Mirrors P u (playFrom P maxKeys s turns) m' := by
  induction turns generalizing now s m with
  | nil => exact ⟨m, rfl, fun u hu _ => h.later hu⟩
  | cons t turns ih =>
      obtain ⟨m₁, hdoes, h₁⟩ := h.turn maxKeys (hclock.clockFrom hnow)
      have hafter : ∀ u ∈ turns, ∀ n, t.clock 0 ≤ u.clock n := fun u hu n =>
        List.rel_of_pairwise_cons hclock.forward hu 0 n
      obtain ⟨m', hrest, hend⟩ := ih h₁ hafter hclock.tail
      refine ⟨m', ⟨m₁, hdoes, hrest⟩, fun u _ hu => ?_⟩
      exact hend u (hu t List.mem_cons_self) fun t' ht' => hu t' (List.mem_cons_of_mem t ht')

/-- Every run from the empty store. -/
theorem play_explained (P : Platform) (maxKeys : Nat) {turns : List Turn}
    (hclock : Ticking turns) :
    ∃ m', Explains (Step.May P) (stepsOf P maxKeys Store.empty turns) (fun _ => none) m' ∧
      ∀ u, (∀ t ∈ turns, t.clock 0 ≤ u) → Mirrors P u (play P maxKeys turns) m' := by
  cases hturns : turns with
  | nil => exact ⟨fun _ => none, rfl, fun u _ => Mirrors.empty P u⟩
  | cons t rest =>
      rw [← hturns]
      have hnow : ∀ u ∈ turns, ∀ n, t.clock 0 ≤ u.clock n := by
        intro u hu n
        rw [hturns] at hu hclock
        rcases List.mem_cons.mp hu with rfl | hu
        · exact hclock.mono u List.mem_cons_self (Nat.zero_le n)
        · exact List.rel_of_pairwise_cons hclock.forward hu 0 n
      obtain ⟨m', hexplains, hend⟩ := run_explained maxKeys (Mirrors.empty P (t.clock 0)) hnow
        hclock
      exact ⟨m', hexplains, fun u hu => hend u (hu t (by simp [hturns])) hu⟩

/-- **The server is a cache.** In every run of requests and sweeps, with any
number of keys and a clock that does not go back: all replies are those of
one map with deadlines on which each command acts in one piece, which forgets
at most one key at a time and only where a `SET` or `INCRBY` found the store
full. What is live in the end is what is live in the map. -/
theorem server_is_cache (P : Platform) (maxKeys : Nat) (turns : List Turn)
    (hclock : Ticking turns) :
    ∃ m', Explains (Step.May P) (stepsOf P maxKeys Store.empty turns) (fun _ => none) m' ∧
      ∀ u, (∀ t ∈ turns, t.clock 0 ≤ u) →
        live u (view P (play P maxKeys turns)) = live u m' := by
  obtain ⟨m', hexplains, hend⟩ := play_explained P maxKeys hclock
  exact ⟨m', hexplains, fun u hu => (hend u hu).refines.agree⟩

/-- A key that runs out, a sweep, and a read of it. -/
theorem server_is_cache_expired :
    ∃ m', Explains (Step.May .concrete) (stepsOf .concrete 1 Store.empty
        [Turn.ofWords 0 ["SET", "k", "v", "PX", "5"], Turn.sweep 10, Turn.ofWords 10 ["GET", "k"]])
        (fun _ => none) m' ∧
      ∀ u, (∀ t ∈ [Turn.ofWords 0 ["SET", "k", "v", "PX", "5"], Turn.sweep 10,
          Turn.ofWords 10 ["GET", "k"]], t.clock 0 ≤ u) →
        live u (view .concrete (play .concrete 1 [Turn.ofWords 0 ["SET", "k", "v", "PX", "5"],
          Turn.sweep 10, Turn.ofWords 10 ["GET", "k"]])) = live u m' :=
  server_is_cache .concrete 1 _ (ticking_swept (by decide) (by decide) (by decide) _ _)

end Runs

end RedisCache.Commands
