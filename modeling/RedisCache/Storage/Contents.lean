import Mathlib
import RedisCache.Lib.TimedMap
import RedisCache.Storage.Effects

/-!
# The contents of a store

`view P s` forgets shards, lists and handles: the sixteen maps as one timed
map. One lemma for each store function says what the function, executed
alone at one clock reading, does to the view.
-/

namespace RedisCache.Storage

open Sections TimedMap

/-- An entry without its handle. Any negative `expires_at_ms` means no
deadline. -/
def Entry.item (e : Entry) : Item Bytes :=
  ⟨e.value, if e.hasExpiry then some e.expiresAtMs else none⟩

/-- The two spellings of "not expired". -/
theorem Entry.item_alive (e : Entry) (now : Int) : e.item.alive now = !e.isExpired now := by
  by_cases h : 0 ≤ e.expiresAtMs
  · rw [Bool.eq_iff_iff]
    simp [item, Item.alive, hasExpiry, isExpired, h]
  · simp [item, Item.alive, hasExpiry, isExpired, h]

theorem Entry.item_deadline_iff (e : Entry) (d : Int) :
    e.item.deadline = some d ↔ 0 ≤ e.expiresAtMs ∧ e.expiresAtMs = d := by
  by_cases h : 0 ≤ e.expiresAtMs
  · simp [Entry.item, Entry.hasExpiry, h]
  · simp [Entry.item, Entry.hasExpiry, h]

/-- The whole store as one map. -/
def view (P : Platform) (s : Shards) : Bytes → Option (Item Bytes) :=
  fun k => ((s (Store.shardFor P k)).map.find k).map Entry.item

theorem view_empty (P : Platform) : view P Store.empty = fun _ => none := by
  funext k
  simp [view, Store.empty]

/-- The live part of the view is what the expiry tests let through. -/
theorem live_view (P : Platform) (s : Shards) (now : Int) (k : Bytes) :
    live now (view P s) k =
      (((s (Store.shardFor P k)).map.find k).filter fun e => !e.isExpired now).map
        Entry.item := by
  rw [live, view]
  cases (s (Store.shardFor P k)).map.find k with
  | none => rfl
  | some e =>
      by_cases hexp : e.isExpired now = true
      · simp [hexp, Option.filter_some, Entry.item_alive]
      · simp [hexp, Option.filter_some, Entry.item_alive]

/-- A section that writes one key, seen from outside. -/
theorem view_write (P : Platform) (s : Shards) (key : Bytes) {sh : Shard} {o : Option Entry}
    (hfind : ∀ k, sh.map.find k =
      if k = key then o else (s (Store.shardFor P key)).map.find k) :
    view P (Function.update s (Store.shardFor P key) sh) =
      Function.update (view P s) key (o.map Entry.item) := by
  funext k
  by_cases hk : k = key
  · subst hk
    simp [view, hfind]
  · rw [Function.update_of_ne hk, view]
    by_cases hi : Store.shardFor P k = Store.shardFor P key
    · simp [hi, hfind, hk, view]
    · simp [Function.update_of_ne hi, view]

namespace Store

variable (P : Platform) (maxKeys : Nat)

theorem exec_size (t : Int) (s : Shards) : size.exec t s = (total s, s) := by
  rw [Prog.exec, run_size]

/-- Below the limit nothing is evicted. -/
theorem evicted_of_lt {s : Shards} (h : total s < maxKeys) : evicted maxKeys s = s := if_pos h

theorem evictReadings_of_lt {s : Shards} (h : total s < maxKeys) :
    evictReadings maxKeys s = 32 := if_pos h

/-! ## Calls that name one key -/

variable (w : World Index Shard) (now : Int) (s : Shards) (key : Bytes)

theorem view_run_set_evicted (value : Bytes) (ttlMs : Int) :
    view P ((set P maxKeys key value ttlMs).run w).2.cells =
      Function.update (view P (evicted maxKeys w.cells)) key
        (some (Entry.item
          ⟨value, deadlineOf (w.clock (evictReadings maxKeys w.cells)) ttlMs, none⟩)) := by
  obtain ⟨n, hn⟩ := (evicted maxKeys w.cells (shardFor P key)).setLocked_find key value
    (deadlineOf (w.clock (evictReadings maxKeys w.cells)) ttlMs)
  rw [run_set, view_write P (evicted maxKeys w.cells) key hn]
  rfl

variable {s key} in
/-- Eviction leaves every entry it does not remove. -/
theorem view_evicted_of_some {it : Item Bytes}
    (h : view P (evicted maxKeys s) key = some it) : view P s key = some it := by
  rw [evicted] at h
  split at h
  · exact h
  · unfold view at h ⊢
    by_cases hi : shardFor P key = fullest (sizesOf s)
    · rw [hi, Function.update_self] at h
      rw [hi]
      rcases Shard.evict_find (s (fullest (sizesOf s))) key with hnone | hsame
      · rw [hnone] at h
        cases h
      · rwa [hsame] at h
    · rwa [Function.update_of_ne hi] at h

variable {w} in
theorem view_run_set (h : total w.cells < maxKeys) (value : Bytes) (ttlMs : Int) :
    view P ((set P maxKeys key value ttlMs).run w).2.cells =
      Function.update (view P w.cells) key
        (some (Entry.item ⟨value, deadlineOf (w.clock 32) ttlMs, none⟩)) := by
  rw [view_run_set_evicted, evicted_of_lt maxKeys h, evictReadings_of_lt maxKeys h]

variable {s} in
theorem view_set (h : total s < maxKeys) (key value : Bytes) (ttlMs : Int) :
    view P ((set P maxKeys key value ttlMs).exec now s).2 =
      Function.update (view P s) key
        (some (Entry.item ⟨value, deadlineOf now ttlMs, none⟩)) := by
  rw [Prog.exec_snd, view_run_set P maxKeys (w := ⟨fun _ => now, s⟩) key h]

variable {w} in
/-- `get` answers from the live part of the view: what was dead under the
shared lock is dead under the exclusive one. -/
theorem run_get_fst (h : w.clock 0 ≤ w.clock 2) :
    ((get P key).run w).1 = (live (w.clock 0) (view P w.cells) key).map Item.value := by
  rw [live_view, run_get, Shard.getShared]
  cases he : (w.cells (shardFor P key)).map.find key with
  | none => rfl
  | some e =>
      by_cases hexp : e.isExpired (w.clock 0) = true
      · have hlater : e.isExpired (w.clock 2) = true := by
          have hdead : e.item.alive (w.clock 2) = false := by
            by_contra halive
            have := Item.alive_of_le h (Bool.not_eq_false _ ▸ halive)
            simp [Entry.item_alive, hexp] at this
          simpa [Entry.item_alive] using hdead
        simp [hexp, hlater, Option.filter_some, Shard.getExclusive, he]
      · simp [hexp, Option.filter_some, Entry.item]

theorem exec_get_fst : ((get P key).exec now s).1 = (live now (view P s) key).map Item.value :=
  run_get_fst P (w := ⟨fun _ => now, s⟩) key le_rfl

/-- `get` may reclaim its own key, when that is dead. -/
theorem view_run_get :
    view P ((get P key).run w).2.cells = view P w.cells ∨
      view P ((get P key).run w).2.cells =
        Function.update (view P w.cells) key (live (w.clock 2) (view P w.cells) key) := by
  rw [run_get]
  cases hr : (w.cells (shardFor P key)).getShared key (w.clock 0) with
  | some r => exact Or.inl rfl
  | none =>
      refine Or.inr ?_
      simp only
      rw [view_write P w.cells key (Shard.getExclusive_find _ key (w.clock 2)), live_view]

theorem view_get (now : Int) (s : Shards) (key : Bytes) :
    view P ((get P key).exec now s).2 = view P s ∨
      view P ((get P key).exec now s).2 =
        Function.update (view P s) key (live now (view P s) key) :=
  view_run_get P ⟨fun _ => now, s⟩ key

/-- `get` reclaims only what is dead. -/
theorem tidied_run_get :
    Tidied (w.clock 2) (view P w.cells) (view P ((get P key).run w).2.cells) := by
  rcases view_run_get P w key with hview | hview
  · rw [hview]
    exact Tidied.refl _ _
  · intro k
    rw [hview]
    rcases eq_or_ne k key with rfl | hne
    · rw [Function.update_self]
      exact (Tidied.refl (w.clock 2) (view P w.cells)).live k
    · exact Or.inl (Function.update_of_ne hne _ _)

theorem live_get (now : Int) (s : Shards) (key : Bytes) :
    live now (view P ((get P key).exec now s).2) = live now (view P s) :=
  (tidied_run_get P ⟨fun _ => now, s⟩ key).live_eq le_rfl

variable {w} in
/-- A live key is read under the shared lock, whatever the clock reads later. -/
theorem run_get_live (h : live (w.clock 0) (view P w.cells) key ≠ none) :
    ((get P key).run w).1 = (live (w.clock 0) (view P w.cells) key).map Item.value ∧
      ((get P key).run w).2.cells = w.cells := by
  rw [run_get, Shard.getShared]
  rw [live_view] at h ⊢
  cases he : (w.cells (shardFor P key)).map.find key with
  | none => simp [he] at h
  | some e =>
      by_cases hexp : e.isExpired (w.clock 0) = true
      · simp [he, hexp, Option.filter_some] at h
      · simp [hexp, Option.filter_some, Entry.item]

/-- The item that the two looks of `get` find. With a clock that is set back
in between, what was dead under the shared lock can be alive again under the
exclusive one. -/
def foundBy (rd : Nat → Int) (m : Bytes → Option (Item Bytes)) (key : Bytes) :
    Option (Item Bytes) :=
  (m key).filter fun it => it.alive (rd 0) || it.alive (rd 2)

/-- `get` with any clock: it answers with what it finds, and leaves just that. -/
theorem run_get_found :
    ((get P key).run w).1 = (foundBy w.clock (view P w.cells) key).map Item.value ∧
      view P ((get P key).run w).2.cells =
        Function.update (view P w.cells) key (foundBy w.clock (view P w.cells) key) := by
  cases hkey : view P w.cells key with
  | none =>
      have hfind : (w.cells (shardFor P key)).map.find key = none := Option.map_eq_none_iff.mp hkey
      have hfound : foundBy w.clock (view P w.cells) key = none := by rw [foundBy, hkey]; rfl
      rw [hfound, ← hkey, Function.update_eq_self, run_get, Shard.getShared, hfind, hkey]
      exact ⟨rfl, rfl⟩
  | some it =>
      by_cases hfirst : it.alive (w.clock 0) = true
      · have hlive : live (w.clock 0) (view P w.cells) key = some it :=
          live_eq_some.mpr ⟨hkey, hfirst⟩
        have hfound : foundBy w.clock (view P w.cells) key = some it := by
          rw [foundBy, hkey, Option.filter_some, hfirst, Bool.true_or, if_pos rfl]
        obtain ⟨hfst, hcells⟩ := run_get_live P key (w := w) (by rw [hlive]; simp)
        rw [hfst, hcells, hlive, hfound, ← hkey, Function.update_eq_self]
        exact ⟨rfl, rfl⟩
      · -- nothing comes of the shared look
        obtain ⟨e, hfind, rfl⟩ := Option.map_eq_some_iff.mp hkey
        have hexp : e.isExpired (w.clock 0) = true := by simpa [Entry.item_alive] using hfirst
        have hfound : foundBy w.clock (view P w.cells) key =
            live (w.clock 2) (view P w.cells) key := by
          rw [foundBy, live, hkey, Option.filter_some, Option.filter_some,
            Bool.eq_false_iff.mpr hfirst, Bool.false_or]
        have hwrite := view_write P w.cells key
          (Shard.getExclusive_find (w.cells (shardFor P key)) key (w.clock 2))
        rw [← live_view] at hwrite
        have hshared : (w.cells (shardFor P key)).getShared key (w.clock 0) = none := by
          rw [Shard.getShared, hfind]
          exact if_pos hexp
        rw [run_get, hshared, hfound]
        refine ⟨?_, hwrite⟩
        rw [live_view, hfind, Option.filter_some]
        by_cases hsecond : e.isExpired (w.clock 2) = true
        · simp [Shard.getExclusive, hfind, hsecond]
        · simp [Shard.getExclusive, hfind, hsecond, Entry.item]

variable {w} in
/-- With a clock that does not go back, `get` leaves its key if it is live. -/
theorem view_run_get_of_le (h : w.clock 0 ≤ w.clock 2) :
    view P ((get P key).run w).2.cells =
      if live (w.clock 0) (view P w.cells) key = none then
        Function.update (view P w.cells) key none
      else view P w.cells := by
  have hlater : live (w.clock 0) (view P w.cells) key = none →
      live (w.clock 2) (view P w.cells) key = none := live_none_of_le h
  rw [run_get, Shard.getShared]
  rw [live_view] at hlater ⊢
  cases he : (w.cells (shardFor P key)).map.find key with
  | none =>
      have hnone : view P w.cells key = none := by rw [view, he]; rfl
      simp [← hnone]
  | some e =>
      by_cases hexp : e.isExpired (w.clock 0) = true
      · simp only [he, hexp, Option.filter_some, Bool.not_true, Bool.false_eq_true, if_false,
          if_true, Option.map_none, forall_const] at hlater ⊢
        rw [view_write P w.cells key (Shard.getExclusive_find _ key (w.clock 2)), ← live_view,
          hlater]
      · simp [hexp, Option.filter_some]

/-- `del` answers whether there was an entry, dead or alive. -/
theorem run_del_fst : ((del P key).run w).1 = (view P w.cells key).isSome := by
  rw [del, Prog.run_locked, view, Option.isSome_map, Shard.del]
  cases (w.cells (shardFor P key)).map.find key with
  | none => rfl
  | some e => rfl

theorem view_run_del :
    view P ((del P key).run w).2.cells = Function.update (view P w.cells) key none := by
  rw [del, Prog.run_locked, view_write P w.cells key (Shard.del_find _ key)]
  rfl

theorem view_del (now : Int) (s : Shards) (key : Bytes) :
    view P ((del P key).exec now s).2 = Function.update (view P s) key none :=
  view_run_del P ⟨fun _ => now, s⟩ key

theorem run_existsKey_view :
    (existsKey P key).run w =
      ((live (w.clock 0) (view P w.cells) key).isSome, ⟨fun n => w.clock (n + 2), w.cells⟩) := by
  rw [run_existsKey, live_view, Option.isSome_map, Shard.existsKey_eq]

theorem exec_existsKey (now : Int) (s : Shards) (key : Bytes) :
    (existsKey P key).exec now s = ((live now (view P s) key).isSome, s) := by
  rw [Prog.exec, run_existsKey_view]

/-- What `ttl` computes from an item, or from none. -/
def ttlOf (now : Int) : Option (Item Bytes) → Int
  | none => -2
  | some it => it.deadline.elim (-1) fun d => if 0 < i64 (d - now) then i64 (d - now) else -2

variable {w} in
/-- A dead entry reads like none, at a clock reading that is an `int64_t`. -/
theorem run_ttl_view (hnow : w.clock 0 < 2 ^ 63) (hs : ∀ i, Valid P i (w.cells i)) :
    (ttl P key).run w =
      (ttlOf (w.clock 0) (live (w.clock 0) (view P w.cells) key),
        ⟨fun n => w.clock (n + 2), w.cells⟩) := by
  rw [run_ttl, live_view]
  refine Prod.ext ?_ rfl
  simp only [Shard.ttl]
  cases he : (w.cells (shardFor P key)).map.find key with
  | none => rfl
  | some e =>
      by_cases hexp : 0 ≤ e.expiresAtMs
      · have hlt := ((hs _).ranged key e he).2
        by_cases hdead : e.expiresAtMs ≤ w.clock 0
        · have hi64 : i64 (e.expiresAtMs - w.clock 0) = e.expiresAtMs - w.clock 0 :=
            i64_of_inRange ⟨by omega, by omega⟩
          simp [Entry.hasExpiry, Entry.isExpired, hexp, hi64, hdead, ttlOf, Option.filter_some]
        · simp [Entry.hasExpiry, Entry.isExpired, Entry.item, hexp, hdead, ttlOf,
            Option.filter_some]
      · simp [Entry.hasExpiry, Entry.isExpired, hexp, Entry.item, ttlOf, Option.filter_some]

/-- What `TTL` reports of an item, or of none. -/
def remaining (now : Int) : Option (Item Bytes) → Int
  | none => -2
  | some it => it.deadline.elim (-1) fun d => d - now

/-- `ttl`, at a clock reading from which every deadline is an `int64_t` away. -/
theorem exec_ttl {now : Int} (h0 : 0 ≤ now) (hnow : now < 2 ^ 63) {s : Shards}
    (hs : ∀ i, Valid P i (s i)) (key : Bytes) :
    (ttl P key).exec now s = (remaining now (live now (view P s) key), s) := by
  rw [Prog.exec, run_ttl_view P (w := ⟨fun _ => now, s⟩) key hnow hs]
  refine Prod.ext ?_ rfl
  simp only
  cases hl : live now (view P s) key with
  | none => rfl
  | some it =>
      cases hd : it.deadline with
      | none => simp [ttlOf, remaining, hd]
      | some d =>
          obtain ⟨hview, halive⟩ := live_eq_some.mp hl
          obtain ⟨e, he, rfl⟩ := Option.map_eq_some_iff.mp hview
          have hlt := ((hs _).ranged key e he).2
          have hnd : now < d := Item.alive_iff.mp halive d hd
          obtain rfl : e.expiresAtMs = d := by
            simp only [Entry.item] at hd
            split at hd
            · exact Option.some_inj.mp hd
            · cases hd
          have hi64 : i64 (e.expiresAtMs - now) = e.expiresAtMs - now :=
            i64_of_inRange ⟨by omega, by omega⟩
          simp [ttlOf, remaining, hd, hi64, hnd]

theorem run_expire_fst (ttlMs : Int) :
    ((expire P key ttlMs).run w).1 = (live (w.clock 0) (view P w.cells) key).isSome := by
  rw [live_view, Option.isSome_map, ← Shard.existsKey_eq]
  exact Shard.expire_fst _ key ttlMs (w.clock 0) (w.clock 1)

theorem exec_expire_fst (now : Int) (s : Shards) (key : Bytes) (ttlMs : Int) :
    ((expire P key ttlMs).exec now s).1 = (live now (view P s) key).isSome :=
  run_expire_fst P ⟨fun _ => now, s⟩ key ttlMs

/-- `expire` gives a live item a new deadline and leaves a dead one dead. -/
theorem view_run_expire (ttlMs : Int) :
    view P ((expire P key ttlMs).run w).2.cells =
      Function.update (view P w.cells) key ((view P w.cells key).map fun it =>
        if it.alive (w.clock 0) then
          Entry.item ⟨it.value, i64 (w.clock 1 + ttlMs), none⟩
        else it) := by
  rw [expire, Prog.run_locked,
    view_write P w.cells key (Shard.expire_find _ key ttlMs (w.clock 0) (w.clock 1))]
  refine congrArg _ ?_
  rw [view, Option.map_map, Option.map_map]
  refine Option.map_congr fun e _ => ?_
  simp only [Function.comp, Entry.item_alive]
  by_cases hexp : e.isExpired (w.clock 0) = true
  · simp [hexp]
  · simp [hexp, Entry.item, Entry.hasExpiry]

/-- The same, told from the live item. -/
theorem view_run_expire_live (ttlMs : Int) :
    view P ((expire P key ttlMs).run w).2.cells =
      match live (w.clock 0) (view P w.cells) key with
      | none => view P w.cells
      | some it =>
          Function.update (view P w.cells) key
            (some (Entry.item ⟨it.value, i64 (w.clock 1 + ttlMs), none⟩)) := by
  have hself := Function.update_eq_self key (view P w.cells)
  rw [view_run_expire]
  cases hm : view P w.cells key with
  | none =>
      rw [hm] at hself
      simp [live, hm, hself]
  | some it =>
      rw [hm] at hself
      by_cases halive : it.alive (w.clock 0) = true
      · simp [live, hm, halive, Option.filter_some]
      · simp [live, hm, halive, Option.filter_some, hself]

theorem view_expire {now ttlMs : Int} (h0 : 0 ≤ now + ttlMs) (h : now + ttlMs < 2 ^ 63)
    (s : Shards) (key : Bytes) :
    view P ((expire P key ttlMs).exec now s).2 =
      Function.update (view P s) key ((view P s key).map fun it =>
        if it.alive now then { it with deadline := some (now + ttlMs) } else it) := by
  have hi64 : i64 (now + ttlMs) = now + ttlMs :=
    i64_of_inRange ⟨le_trans (by norm_num) h0, h⟩
  refine (view_run_expire P ⟨fun _ => now, s⟩ key ttlMs).trans ?_
  simp only [hi64, Entry.item, Entry.hasExpiry, h0, decide_true, if_true]

/-- What `incr` reads, from the view. -/
def counterOf (now : Int) (m : Bytes → Option (Item Bytes)) (key : Bytes) : Option Int :=
  match live now m key with
  | none => some 0
  | some it =>
      let r := Decimal.fromChars 0 it.value
      if r.ec ≠ none then none else some r.value

theorem counterOf_view (now : Int) (s : Shards) (key : Bytes) :
    (s (shardFor P key)).counterOf key now = counterOf now (view P s) key := by
  rw [counterOf, live_view, Shard.counterOf]
  cases ((s (shardFor P key)).map.find key).filter fun e => !e.isExpired now with
  | none => rfl
  | some e => rfl

theorem counterOf_congr {now : Int} {m m' : Bytes → Option (Item Bytes)} {key : Bytes}
    (h : live now m key = live now m' key) : counterOf now m key = counterOf now m' key := by
  rw [counterOf, counterOf, h]

theorem run_incr_fst :
    ((incr P key).run w).1 =
      (counterOf (w.clock 0) (view P w.cells) key).map fun n => i64 (n + 1) := by
  rw [← counterOf_view, ← Shard.incr_eq]
  rfl

theorem exec_incr_fst (now : Int) (s : Shards) (key : Bytes) :
    ((incr P key).exec now s).1 =
      (counterOf now (view P s) key).map fun n => i64 (n + 1) :=
  run_incr_fst P ⟨fun _ => now, s⟩ key

variable {w} in
theorem run_incr_refused (h : counterOf (w.clock 0) (view P w.cells) key = none) :
    ((incr P key).run w).2.cells = w.cells := by
  rw [← counterOf_view] at h
  rw [incr, Prog.run_locked, Shard.incr_find_none h]
  exact Function.update_eq_self _ _

theorem view_run_incr :
    view P ((incr P key).run w).2.cells =
      match counterOf (w.clock 0) (view P w.cells) key with
      | none => view P w.cells
      | some n =>
          Function.update (view P w.cells) key (some ⟨Decimal.ofInt (i64 (n + 1)), none⟩) := by
  rw [incr, Prog.run_locked, ← counterOf_view]
  cases hc : (w.cells (shardFor P key)).counterOf key (w.clock 0) with
  | none =>
      simp only
      rw [Shard.incr_find_none hc, Function.update_eq_self]
  | some n =>
      obtain ⟨node, hnode⟩ := Shard.incr_find_some hc
      rw [view_write P w.cells key hnode]
      rfl

theorem view_incr (now : Int) (s : Shards) (key : Bytes) :
    view P ((incr P key).exec now s).2 =
      match counterOf now (view P s) key with
      | none => view P s
      | some n =>
          Function.update (view P s) key (some ⟨Decimal.ofInt (i64 (n + 1)), none⟩) :=
  view_run_incr P ⟨fun _ => now, s⟩ key

/-! ## Calls on every shard -/

theorem view_run_flush : view P (flush.run w).2.cells = fun _ => none := by
  funext k
  rw [run_flush, view]
  simp [Shard.flush_find]

theorem view_flush (now : Int) (s : Shards) :
    view P (flush.exec now s).2 = fun _ => none := by
  rw [Prog.exec_snd, view_run_flush]

variable {w} in
/-- Sweeping leaves the live part. -/
theorem view_run_sweepExpired (hs : ∀ i, Valid P i (w.cells i)) :
    view P (sweepExpired.run w).2.cells = live (w.clock 0) (view P w.cells) := by
  funext k
  rw [live_view, run_sweepExpired, view]
  simp only [Shard.sweepExpired_find (hs _).consistent]

theorem view_sweepExpired {s : Shards} (hs : ∀ i, Valid P i (s i)) (now : Int) :
    view P (sweepExpired.exec now s).2 = live now (view P s) := by
  rw [Prog.exec_snd, view_run_sweepExpired P hs]

/-! ## Scans over all shards -/

/-- Lists from the shards, put one after the other: no element twice, if every
element says which shard it is from. -/
theorem nodup_flatten_shards {α : Type} {f : Index → List α} {home : α → Index}
    (hf : ∀ i, (f i).Nodup) (hhome : ∀ i, ∀ x ∈ f i, home x = i) :
    (shards.map f).flatten.Nodup := by
  rw [List.nodup_flatten]
  refine ⟨fun l hl => ?_, ?_⟩
  · obtain ⟨i, -, rfl⟩ := List.mem_map.mp hl
    exact hf i
  · refine List.pairwise_map.mpr (shards_nodup.imp fun {i j} hij x hi hj => ?_)
    exact hij ((hhome i x hi).symm.trans (hhome j x hj))

theorem mem_flatten_shards {α : Type} {f : Index → List α} {home : α → Index}
    (hhome : ∀ i, ∀ x ∈ f i, home x = i) (x : α) :
    x ∈ (shards.map f).flatten ↔ x ∈ f (home x) := by
  simp only [List.mem_flatten, List.mem_map, exists_exists_and_eq_and]
  constructor
  · rintro ⟨i, -, hi⟩
    rwa [hhome i x hi]
  · exact fun h => ⟨home x, mem_shards _, h⟩

theorem shard_mem_keys {sh : Shard} {pattern : Bytes} {now : Int} {k : Bytes} :
    k ∈ sh.keys P pattern now ↔
      ((sh.map.find k).filter fun e => !e.isExpired now).isSome ∧
        (pattern = ascii "*" ∨ P.fnmatch (Shard.cStr pattern) (Shard.cStr k) = true) := by
  simp only [Shard.keys, List.mem_map, List.mem_filter, Bool.and_eq_true, Bool.or_eq_true,
    beq_iff_eq, Option.isSome_iff_exists, Option.filter_eq_some_iff]
  constructor
  · rintro ⟨⟨k', e⟩, ⟨hmem, hexp, hpat⟩, rfl⟩
    exact ⟨⟨e, Map.mem_entries_iff.mp hmem, hexp⟩, hpat⟩
  · rintro ⟨⟨e, he, hexp⟩, hpat⟩
    exact ⟨⟨k, e⟩, ⟨Map.mem_entries_iff.mpr he, hexp, hpat⟩, rfl⟩

/-- `keys` lists the matching live keys, each once. -/
theorem run_keys_view {w : World Index Shard} (hs : ∀ i, Valid P i (w.cells i))
    (pattern : Bytes) :
    ((keys P pattern).run w).1.Nodup ∧
      ∀ k, k ∈ ((keys P pattern).run w).1 ↔ (live (w.clock 0) (view P w.cells) k).isSome ∧
        (pattern = ascii "*" ∨ P.fnmatch (Shard.cStr pattern) (Shard.cStr k) = true) := by
  have hplaced : ∀ i, ∀ k ∈ (w.cells i).keys P pattern (w.clock 0), shardFor P k = i := by
    intro i k hk
    obtain ⟨e, he⟩ := Option.isSome_iff_exists.mp ((shard_mem_keys P).mp hk).1
    exact (hs i).placed k e (Option.filter_eq_some_iff.mp he).1
  rw [run_keys]
  refine ⟨nodup_flatten_shards (fun i => ?_) hplaced, fun k => ?_⟩
  · exact (Map.entries_keys_nodup (w.cells i).map).sublist (List.filter_sublist.map _)
  · rw [mem_flatten_shards hplaced, shard_mem_keys, live_view, Option.isSome_map]

theorem exec_keys {s : Shards} (hs : ∀ i, Valid P i (s i)) (now : Int) (pattern : Bytes) :
    ∃ ks, (keys P pattern).exec now s = (ks, s) ∧ ks.Nodup ∧
      ∀ k, k ∈ ks ↔ (live now (view P s) k).isSome ∧
        (pattern = ascii "*" ∨ P.fnmatch (Shard.cStr pattern) (Shard.cStr k) = true) := by
  refine ⟨_, ?_, run_keys_view P (w := ⟨fun _ => now, s⟩) hs pattern⟩
  rw [Prog.exec, run_keys]

/-- The item a record stands for. -/
def recordItem (r : Record) : Item Bytes := ⟨r.2.1, if 0 ≤ r.2.2 then some r.2.2 else none⟩

theorem exec_forEach (now : Int) (s : Shards) : forEach.exec now s = (records now s, s) := by
  rw [Prog.exec, run_forEach]

theorem shard_mem_snapshot {sh : Shard} {now : Int} {r : Record} :
    r ∈ sh.snapshot now ↔
      ∃ n, sh.map.find r.1 = some ⟨r.2.1, r.2.2, n⟩ ∧
        (Entry.isExpired ⟨r.2.1, r.2.2, n⟩ now) = false := by
  obtain ⟨k, v, d⟩ := r
  simp only [Shard.snapshot, List.mem_map, List.mem_filter, Bool.not_eq_true']
  constructor
  · rintro ⟨⟨k', e⟩, ⟨hmem, hexp⟩, heq⟩
    cases heq
    exact ⟨e.lruNode, Map.mem_entries_iff.mp hmem, hexp⟩
  · rintro ⟨n, he, hexp⟩
    exact ⟨⟨k, ⟨v, d, n⟩⟩, ⟨Map.mem_entries_iff.mpr he, hexp⟩, rfl⟩

theorem mem_records {s : Shards} (hs : ∀ i, Valid P i (s i)) {now : Int} {r : Record} :
    r ∈ records now s ↔ r ∈ (s (shardFor P r.1)).snapshot now := by
  have hplaced : ∀ i, ∀ r ∈ (s i).snapshot now, (fun r : Record => shardFor P r.1) r = i := by
    intro i r hr
    obtain ⟨n, he, -⟩ := shard_mem_snapshot.mp hr
    exact (hs i).placed _ _ he
  exact mem_flatten_shards hplaced r

theorem records_keys_nodup {s : Shards} (hs : ∀ i, Valid P i (s i)) (now : Int) :
    ((records now s).map Prod.fst).Nodup := by
  rw [records, List.map_flatten, List.map_map]
  refine nodup_flatten_shards (fun i => ?_) (fun i k hk => (?_ : shardFor P k = i))
  · rw [Function.comp, Shard.snapshot, List.map_map]
    exact (Map.entries_keys_nodup (s i).map).sublist (List.filter_sublist.map _)
  · obtain ⟨r, hr, rfl⟩ := List.mem_map.mp hk
    obtain ⟨n, he, -⟩ := shard_mem_snapshot.mp hr
    exact (hs i).placed _ _ he

/-- The records are the live items. -/
theorem records_iff {s : Shards} (hs : ∀ i, Valid P i (s i)) (now : Int) (k : Bytes)
    (it : Item Bytes) :
    live now (view P s) k = some it ↔ ∃ r ∈ records now s, r.1 = k ∧ recordItem r = it := by
  rw [live_view]
  simp only [Option.map_eq_some_iff, Option.filter_eq_some_iff, mem_records P hs,
    shard_mem_snapshot]
  constructor
  · rintro ⟨e, ⟨he, hexp⟩, rfl⟩
    refine ⟨(k, e.value, e.expiresAtMs), ⟨e.lruNode, he, by simpa using hexp⟩, rfl, ?_⟩
    simp [recordItem, Entry.item, Entry.hasExpiry]
  · rintro ⟨r, ⟨n, he, hexp⟩, rfl, rfl⟩
    exact ⟨_, ⟨he, by simpa using hexp⟩, by simp [recordItem, Entry.item, Entry.hasExpiry]⟩

theorem placed_keys {s : Shards} (hs : ∀ i, Valid P i (s i)) :
    ∀ i, ∀ k ∈ (s i).map.keys, shardFor P k = i := by
  intro i k hk
  obtain ⟨e, he⟩ := Map.mem_keys.mp hk
  exact (hs i).placed k e he

/-- The keys of the view are the keys of the sixteen maps. -/
theorem support_view {s : Shards} (hs : ∀ i, Valid P i (s i)) :
    {k | view P s k ≠ none} =
      ((shards.map fun i => (s i).map.keys).flatten.toFinset : Set Bytes) := by
  ext k
  simp only [Set.mem_ofPred_eq, Finset.mem_coe, List.mem_toFinset,
    mem_flatten_shards (placed_keys P hs), Map.mem_keys, view, ne_eq, Option.map_eq_none_iff]
  exact Option.ne_none_iff_exists'

/-- With nothing dead left, `size()` is the number of items. -/
theorem total_eq_ncard {s : Shards} (hs : ∀ i, Valid P i (s i)) :
    total s = {k | view P s k ≠ none}.ncard := by
  have hnd := nodup_flatten_shards (f := fun i => (s i).map.keys) (fun i => (s i).map.nodupKeys)
    (placed_keys P hs)
  rw [support_view P hs, Set.ncard_coe_finset, List.toFinset_card_of_nodup hnd,
    List.length_flatten, List.map_map]
  simp [total, Shard.size, Function.comp_def, AList.keys, List.keys]

/-- A `set` of a key that was not there makes the store one larger. -/
theorem total_run_set {w : World Index Shard} (hs : ∀ i, Valid P i (w.cells i)) {key : Bytes}
    (hkey : view P w.cells key = none) (h : total w.cells < maxKeys) (value : Bytes)
    (ttlMs : Int) :
    total ((set P maxKeys key value ttlMs).run w).2.cells = total w.cells + 1 := by
  have hsupport : {k | view P ((set P maxKeys key value ttlMs).run w).2.cells k ≠ none} =
      insert key {k | view P w.cells k ≠ none} := by
    rw [view_run_set P maxKeys key h]
    ext k
    by_cases hk : k = key
    · simp [hk]
    · simp [hk]
  have hfinite : {k | view P w.cells k ≠ none}.Finite := by
    rw [support_view P hs]
    exact Finset.finite_toSet _
  rw [total_eq_ncard P ((set_safe P maxKeys key value ttlMs).run hs), hsupport,
    Set.ncard_insert_of_notMem (by simpa using hkey) hfinite, total_eq_ncard P hs]

end Store

end RedisCache.Storage
