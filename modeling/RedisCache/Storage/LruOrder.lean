import Mathlib
import RedisCache.Lib.Recency
import RedisCache.Storage.Capacity

/-!
# The order of the LRU lists

A run of calls, with the moment of the last access to every key kept beside
it (`Trace`). An access is a `set`, an `incr` that returned a number, or a
`get` that returned a value. Every section keeps a shard's list in the order
of last access, but one: `get` under the shared lock answers without moving
the key. The order holds through a run exactly if every such `get` is for
the key in front (`lru_ordered_iff`), and where it holds the victim of an
eviction is the key of its shard that was not used for longest.
-/

namespace RedisCache.Storage

open Sections TimedMap Recency

/-! ## The sections and the list -/

namespace Shard

variable {sh : Shard}

/-- Node and key of an element determine each other. -/
theorem Consistent.node_iff_key (h : sh.Consistent) {k : Bytes} {e : Entry} {n : Node}
    (he : sh.map.find k = some e) (hn : e.lruNode = some n) {x : Node × Bytes}
    (hx : x ∈ sh.lru.list) : x.1 = n ↔ x.2 = k := by
  have hmem : (n, k) ∈ sh.lru.list := (h.linked n k).mpr ⟨e, he, hn⟩
  obtain ⟨m, k'⟩ := x
  constructor
  · rintro rfl
    exact LruList.eq_of_mem h.distinct hx hmem
  · rintro rfl
    obtain ⟨e', he', hm⟩ := (h.linked m k').mp hx
    obtain rfl : e = e' := by simpa [he] using he'
    simpa [hn] using hm.symm

theorem Consistent.remove_keys (h : sh.Consistent) {k : Bytes} {e : Entry} {n : Node}
    (he : sh.map.find k = some e) (hn : e.lruNode = some n) :
    (sh.lru.remove n).keys = sh.lru.keys.filter (· ≠ k) := by
  rw [LruList.keys, LruList.remove, LruList.keys, List.filter_map]
  refine congrArg _ (List.filter_congr fun x hx => ?_)
  have := h.node_iff_key he hn hx
  rw [Bool.eq_iff_iff, bne_iff_ne, Function.comp, decide_eq_true_iff, ne_eq, ne_eq, this]

theorem Consistent.touch_keys (h : sh.Consistent) {k : Bytes} {e : Entry} {n : Node}
    (he : sh.map.find k = some e) (hn : e.lruNode = some n) :
    (sh.lru.touch n).keys = toFront k sh.lru.keys := by
  have hmem : (n, k) ∈ sh.lru.list := (h.linked n k).mpr ⟨e, he, hn⟩
  have hone : sh.lru.list.filter (·.1 == n) = [(n, k)] := by
    have hcongr : sh.lru.list.filter (·.1 == n) = sh.lru.list.filter (· == (n, k)) := by
      refine List.filter_congr fun x hx => ?_
      have := h.node_iff_key he hn hx
      rw [Bool.eq_iff_iff, beq_iff_eq, beq_iff_eq, Prod.ext_iff]
      tauto
    rw [hcongr, List.filter_beq, List.count_eq_one_of_mem (List.Nodup.of_map _ h.distinct) hmem]
    rfl
  rw [LruList.keys, LruList.touch, List.map_append, hone, toFront, ← h.remove_keys he hn]
  rfl

@[simp] theorem deleteNode_lru (sh : Shard) (e : Entry) : (sh.deleteNode e).lru = sh.lru := by
  unfold deleteNode
  split
  · rfl
  · split <;> rfl

/-- Removing an entry, even behind a stale handle, only takes from the list. -/
theorem removeEntry_keys_sublist (sh : Shard) (k : Bytes) (e : Entry) :
    (sh.removeEntry k e).lru.keys.Sublist sh.lru.keys := by
  show ((sh.useNode e LruList.remove).deleteNode e).lru.keys.Sublist sh.lru.keys
  rw [deleteNode_lru]
  unfold useNode
  split
  · exact List.Sublist.refl _
  · split
    · exact List.Sublist.refl _
    · split
      · exact List.Sublist.refl _
      · exact List.filter_sublist.map _

theorem setLocked_keys (h : sh.Consistent) (k v : Bytes) (ex : Int) :
    (sh.setLocked k v ex).lru.keys = toFront k sh.lru.keys := by
  unfold setLocked
  cases he : sh.map.find k with
  | some e =>
      obtain ⟨n, hn, -, hnode, hcell⟩ := h.node he
      have huse := @useNode_eq { sh with
        map := sh.map.insert k { e with value := v, expiresAtMs := ex } } e n hn hcell hnode
        LruList.touch
      simp only [huse]
      exact h.touch_keys he hn
  | none =>
      have hnew : k ∉ sh.lru.keys := by
        rw [h.mem_lru_keys, Map.mem_keys]
        rintro ⟨e, he'⟩
        rw [he] at he'
        cases he'
      rw [toFront_of_notMem hnew]
      rfl

theorem toFront_removeEntry (h : sh.Consistent) {k : Bytes} {e : Entry}
    (he : sh.map.find k = some e) :
    toFront k (sh.removeEntry k e).lru.keys = toFront k sh.lru.keys := by
  obtain ⟨n, hn, -, hnode, hcell⟩ := h.node he
  rw [removeEntry_eq k hn hcell hnode, toFront, toFront, h.remove_keys he hn, List.filter_filter]
  simp

theorem sweepExpired_keys_sublist (sh : Shard) (now : Int) :
    (sh.sweepExpired now).lru.keys.Sublist sh.lru.keys := by
  rw [sweepExpired]
  generalize sh.map.entries = l
  induction l generalizing sh with
  | nil => exact List.Sublist.refl _
  | cons x l ih =>
      rw [List.foldl_cons]
      refine (ih _).trans ?_
      split
      · exact removeEntry_keys_sublist sh x.1 x.2
      · exact List.Sublist.refl _

/-- Eviction drops the key at the back. -/
theorem evict_keys (sh : Shard) : sh.evict.lru.keys = sh.lru.keys.dropLast := by
  rcases List.eq_nil_or_concat' sh.lru.list with hnil | ⟨l, ⟨n, k⟩, hl⟩
  · simp [evict, LruList.empty, LruList.keys, hnil]
  · simp only [evict, LruList.empty, LruList.evictLru, LruList.keys, hl, List.getLast?_concat,
      List.dropLast_concat, List.map_append, List.map_singleton]
    rw [if_neg (by simp)]
    split
    · rfl
    · simp

theorem evict_keys_sublist (sh : Shard) : sh.evict.lru.keys.Sublist sh.lru.keys :=
  sh.evict_keys ▸ List.dropLast_sublist _

end Shard

/-! ## Calls and the lists -/

/-- The key a call accessed, given what it returned. -/
def Call.accessed : Call → Reply → Option Bytes
  | .set key _ _, _ => some key
  | .get key, .value (some _) => some key
  | .incr key, .counter (some _) => some key
  | _, _ => none

/-- The list of shard `i` after an access. -/
def moveUp (P : Platform) (acc : Option Bytes) (i : Index) (l : List Bytes) : List Bytes :=
  match acc with
  | none => l
  | some key => if Store.shardFor P key = i then toFront key l else l

/-- Each list has lost some keys, and then the accessed key went to the front
of its own. -/
def Moved (P : Platform) (acc : Option Bytes) (s s' : Shards) : Prop :=
  ∀ i, ∃ l, l.Sublist (s i).lru.keys ∧ (s' i).lru.keys = moveUp P acc i l

namespace Moved

variable {P : Platform} {acc : Option Bytes} {s s' s'' : Shards} {key : Bytes}

theorem refl (P : Platform) (s : Shards) : Moved P none s s :=
  fun _ => ⟨_, List.Sublist.refl _, rfl⟩

theorem trans (h : Moved P none s s') (h' : Moved P acc s' s'') : Moved P acc s s'' := by
  intro i
  obtain ⟨l, hl, hkeys⟩ := h i
  obtain ⟨l', hl', hkeys'⟩ := h' i
  exact ⟨l', (hkeys ▸ hl').trans hl, hkeys'⟩

/-- A section on one shard that only takes from its list. -/
theorem shrink {i : Index} {sh : Shard} (h : sh.lru.keys.Sublist (s i).lru.keys) :
    Moved P none s (Function.update s i sh) := by
  intro j
  by_cases hj : j = i
  · subst hj
    exact ⟨_, h, by rw [Function.update_self]; rfl⟩
  · exact ⟨_, List.Sublist.refl _, by rw [Function.update_of_ne hj]; rfl⟩

/-- A section on the key's shard that puts the key in front. -/
theorem front {sh : Shard}
    (h : sh.lru.keys = toFront key (s (Store.shardFor P key)).lru.keys) :
    Moved P (some key) s (Function.update s (Store.shardFor P key) sh) := by
  intro j
  refine ⟨_, List.Sublist.refl _, ?_⟩
  by_cases hj : Store.shardFor P key = j
  · subst hj
    rw [Function.update_self, h, moveUp, if_pos rfl]
  · rw [Function.update_of_ne (Ne.symm hj), moveUp, if_neg hj]

end Moved

section Calls

variable {P : Platform} {maxKeys : Nat} {w : World Index Shard}

theorem Store.mem_lru_keys {s : Shards} (hs : ∀ i, Valid P i (s i)) (key : Bytes) :
    key ∈ (s (Store.shardFor P key)).lru.keys ↔ view P s key ≠ none := by
  rw [(hs _).consistent.mem_lru_keys, Map.mem_keys, view, ne_eq, Option.map_eq_none_iff]
  exact Option.ne_none_iff_exists'.symm

theorem evicted_moved : Moved P none w.cells (Store.evicted maxKeys w.cells) := by
  unfold Store.evicted
  split
  · exact Moved.refl P _
  · exact Moved.shrink (Shard.evict_keys_sublist _)

theorem set_moved (hs : ∀ i, Valid P i (w.cells i)) (key value : Bytes) (ttlMs : Int) :
    Moved P (some key) w.cells ((Store.set P maxKeys key value ttlMs).run w).2.cells := by
  rw [Store.run_set]
  exact evicted_moved.trans
    (Moved.front (Shard.setLocked_keys (Store.evicted_valid maxKeys hs _).consistent _ _ _))

/-- `get` under the shared lock does not move its key. -/
theorem get_moved (hs : ∀ i, Valid P i (w.cells i)) {key : Bytes}
    (hfront : live (w.clock 0) (view P w.cells) key ≠ none →
      (w.cells (Store.shardFor P key)).lru.keys.head? = some key) :
    Moved P (Call.accessed (.get key) (.value ((Store.get P key).run w).1)) w.cells
      ((Store.get P key).run w).2.cells := by
  have hc := (hs (Store.shardFor P key)).consistent
  rw [live_view] at hfront
  rw [Store.run_get, Shard.getShared]
  cases he : (w.cells (Store.shardFor P key)).map.find key with
  | none => exact Moved.refl P _
  | some e =>
      by_cases hexp : e.isExpired (w.clock 0) = true
      · -- expired under the shared lock: `get` looks again under the exclusive one
        simp only [hexp, if_true, Shard.getExclusive, he]
        split
        · exact Moved.shrink (Shard.removeEntry_keys_sublist _ key e)
        · obtain ⟨n, hn, -, hnode, hcell⟩ := hc.node he
          refine Moved.front ?_
          rw [Shard.useNode_eq hn hcell hnode]
          exact hc.touch_keys he hn
      · -- answered without a touch: in order only because the key is in front
        have hhead := hfront (by simp [he, hexp, Option.filter_some])
        simp only [hexp, Bool.false_eq_true, if_false]
        intro i
        refine ⟨_, List.Sublist.refl _, ?_⟩
        simp only [Call.accessed, moveUp]
        split
        · rename_i hi
          subst hi
          exact (toFront_of_head hc.keys_nodup hhead).symm
        · rfl

theorem del_moved (key : Bytes) :
    Moved P none w.cells ((Store.del P key).run w).2.cells := by
  rw [Store.del, Prog.run_locked]
  refine Moved.shrink ?_
  unfold Shard.del
  split
  · exact List.Sublist.refl _
  · exact Shard.removeEntry_keys_sublist _ key _

theorem expire_moved (key : Bytes) (ttlMs : Int) :
    Moved P none w.cells ((Store.expire P key ttlMs).run w).2.cells := by
  rw [Store.expire, Prog.run_locked]
  refine Moved.shrink ?_
  unfold Shard.expire
  split
  · exact List.Sublist.refl _
  · split
    · exact List.Sublist.refl _
    · exact List.Sublist.refl _

theorem incr_moved (hs : ∀ i, Valid P i (w.cells i)) (key : Bytes) :
    Moved P (Call.accessed (.incr key) (.counter ((Store.incr P key).run w).1)) w.cells
      ((Store.incr P key).run w).2.cells := by
  have hc := (hs (Store.shardFor P key)).consistent
  rw [Store.incr, Prog.run_locked, Shard.incr]
  cases he : (w.cells (Store.shardFor P key)).map.find key with
  | none => exact Moved.front (Shard.setLocked_keys hc _ _ _)
  | some e =>
      by_cases hexp : e.isExpired (w.clock 0) = true
      · simp only [hexp, if_true]
        refine Moved.front ?_
        rw [Shard.bump, Shard.setLocked_keys (hc.removeEntry he), Shard.toFront_removeEntry hc he]
      · by_cases hec : (Decimal.fromChars 0 e.value).ec = none
        · simp only [hexp, Bool.false_eq_true, if_false, hec, ne_eq, not_true_eq_false]
          exact Moved.front (Shard.setLocked_keys hc _ _ _)
        · simp only [hexp, Bool.false_eq_true, if_false, ne_eq, hec, not_false_eq_true, if_true]
          exact Moved.shrink (List.Sublist.refl _)

/-- A `get` that answers under the shared lock with the key not in front. -/
def Skips (P : Platform) (s : Shards) (clock : Nat → Int) (c : Call) : Prop :=
  ∃ key, c = .get key ∧ live (clock 0) (view P s) key ≠ none ∧
    (s (Store.shardFor P key)).lru.keys.head? ≠ some key

theorem Call.moved (maxKeys : Nat) (hs : ∀ i, Valid P i (w.cells i)) (c : Call)
    (hskip : ¬ Skips P w.cells w.clock c) :
    Moved P (c.accessed ((c.prog P maxKeys).run w).1) w.cells
      ((c.prog P maxKeys).run w).2.cells := by
  cases c with
  | set key value ttlMs =>
      simp only [Call.prog, Prog.run_bind, Prog.run_pure]
      exact set_moved hs key value ttlMs
  | get key =>
      simp only [Call.prog, Prog.run_map]
      refine get_moved hs fun hlive => ?_
      by_contra hhead
      exact hskip ⟨key, rfl, hlive, hhead⟩
  | del key =>
      simp only [Call.prog, Prog.run_map]
      exact del_moved key
  | existsKey key =>
      simp only [Call.prog, Prog.run_map, Store.run_existsKey]
      exact Moved.refl P _
  | ttl key =>
      simp only [Call.prog, Prog.run_map, Store.run_ttl]
      exact Moved.refl P _
  | expire key ttlMs =>
      simp only [Call.prog, Prog.run_map]
      exact expire_moved key ttlMs
  | incr key =>
      simp only [Call.prog, Prog.run_map]
      exact incr_moved hs key
  | keys pattern =>
      simp only [Call.prog, Prog.run_map, Store.run_keys]
      exact Moved.refl P _
  | flush =>
      simp only [Call.prog, Prog.run_bind, Prog.run_pure, Store.run_flush]
      intro i
      exact ⟨[], List.nil_sublist _, rfl⟩
  | sweepExpired =>
      simp only [Call.prog, Prog.run_bind, Prog.run_pure, Store.run_sweepExpired]
      exact fun i => ⟨_, Shard.sweepExpired_keys_sublist _ _, rfl⟩
  | forEach =>
      simp only [Call.prog, Prog.run_map, Store.run_forEach]
      exact Moved.refl P _
  | size =>
      simp only [Call.prog, Prog.run_map, Store.run_size]
      exact Moved.refl P _

end Calls

/-! ## Runs -/

/-- A store, the number of calls so far, and when each key was last accessed
(`0`: never). -/
structure Trace where
  store : Shards
  time : Nat
  stamp : Bytes → Nat

namespace Trace

def start : Trace := ⟨Store.empty, 0, fun _ => 0⟩

/-- One call, with the clock readings it takes. -/
def step (P : Platform) (maxKeys : Nat) (t : Trace) (e : (Nat → Int) × Call) : Trace :=
  let r := (e.2.prog P maxKeys).run ⟨e.1, t.store⟩
  { store := r.2.cells
    time := t.time + 1
    stamp := match e.2.accessed r.1 with
      | none => t.stamp
      | some key => Function.update t.stamp key (t.time + 1) }

def run (P : Platform) (maxKeys : Nat) (calls : List ((Nat → Int) × Call)) : Trace :=
  calls.foldl (step P maxKeys) start

/-- Every shard's list runs from the most to the least recently accessed key. -/
def InOrder (t : Trace) : Prop := ∀ i, Ordered t.stamp (t.store i).lru.keys

/-- A key that `maybe_evict` would evict now has the oldest access of all keys
in its shard. -/
def OldestVictim (P : Platform) (maxKeys : Nat) (t : Trace) : Prop :=
  ∀ k k', view P t.store k ≠ none → view P (Store.evicted maxKeys t.store) k = none →
    view P t.store k' ≠ none → Store.shardFor P k' = Store.shardFor P k → t.stamp k ≤ t.stamp k'

variable {P : Platform} {maxKeys : Nat} {t : Trace}

theorem run_append (calls : List ((Nat → Int) × Call)) (e : (Nat → Int) × Call) :
    run P maxKeys (calls ++ [e]) = (run P maxKeys calls).step P maxKeys e := by
  simp [run]

theorem run_valid (calls : List ((Nat → Int) × Call)) :
    ∀ i, Valid P i ((run P maxKeys calls).store i) := by
  induction calls using List.reverseRecOn with
  | nil => exact Store.empty_valid P
  | append_singleton calls e ih =>
      rw [run_append]
      exact (e.2.prog_safe P maxKeys).run (w := ⟨e.1, (run P maxKeys calls).store⟩) ih

/-- No access is later than now. -/
theorem run_stamp_le (calls : List ((Nat → Int) × Call)) (k : Bytes) :
    (run P maxKeys calls).stamp k ≤ (run P maxKeys calls).time := by
  induction calls using List.reverseRecOn generalizing k with
  | nil => exact le_rfl
  | append_singleton calls e ih =>
      rw [run_append]
      simp only [step]
      cases e.2.accessed ((e.2.prog P maxKeys).run ⟨e.1, (run P maxKeys calls).store⟩).1 with
      | none => exact (ih k).trans (Nat.le_succ _)
      | some key =>
          by_cases hk : k = key
          · simp only [hk, Function.update_self, le_refl]
          · simp only [Function.update_of_ne hk]
            exact (ih k).trans (Nat.le_succ _)

theorem InOrder.step (h : t.InOrder) (hs : ∀ i, Valid P i (t.store i))
    (hold : ∀ k, t.stamp k ≤ t.time) {e : (Nat → Int) × Call}
    (hskip : ¬ Skips P t.store e.1 e.2) : (t.step P maxKeys e).InOrder := by
  intro i
  obtain ⟨l, hl, hkeys⟩ := Call.moved maxKeys (w := ⟨e.1, t.store⟩) hs e.2 hskip i
  simp only [Trace.step]
  rw [hkeys]
  have hrest : Ordered t.stamp l := (h i).sublist hl
  cases e.2.accessed ((e.2.prog P maxKeys).run ⟨e.1, t.store⟩).1 with
  | none => exact hrest
  | some key =>
      simp only [moveUp]
      split
      · exact hrest.use_toFront fun k => Nat.lt_succ_of_le (hold k)
      · rename_i hi
        -- the key is not in a shard it does not hash to
        refine hrest.use_other fun hmem => hi ?_
        obtain ⟨e', he'⟩ :=
          Map.mem_keys.mp (((hs i).consistent.mem_lru_keys key).mp (hl.subset hmem))
        exact (hs i).placed key e' he'

theorem not_inOrder_of_skips (hs : ∀ i, Valid P i (t.store i))
    (hold : ∀ k, t.stamp k ≤ t.time) {e : (Nat → Int) × Call}
    (hskip : Skips P t.store e.1 e.2) : ¬ (t.step P maxKeys e).InOrder := by
  obtain ⟨key, hget, hlive, hhead⟩ := hskip
  obtain ⟨it, hit⟩ := Option.ne_none_iff_exists'.mp hlive
  obtain ⟨hview, halive⟩ := live_eq_some.mp hit
  obtain ⟨entry, he, rfl⟩ := Option.map_eq_some_iff.mp hview
  have hexp : entry.isExpired (e.1 0) = false := by
    simpa [Entry.item_alive] using halive
  have hrun : (e.2.prog P maxKeys).run ⟨e.1, t.store⟩ =
      (.value (some entry.value), ⟨fun n => e.1 (n + 2), t.store⟩) := by
    rw [hget, Call.prog, Prog.run_map, Store.run_get, Shard.getShared]
    simp [he, hexp]
  intro horder
  have h := horder (Store.shardFor P key)
  simp only [Trace.step, hrun] at h
  rw [hget] at h
  refine not_ordered_of_use ?_ hhead (fun k => Nat.lt_succ_of_le (hold k)) h
  exact (Store.mem_lru_keys hs key).mpr (by rw [hview]; exact Option.some_ne_none _)

theorem InOrder.oldestVictim (h : t.InOrder) (hs : ∀ i, Valid P i (t.store i)) :
    OldestVictim P maxKeys t := by
  intro k k' hk hgone hk' hsame
  by_cases hroom : Store.total t.store < maxKeys
  · rw [Store.evicted_of_lt maxKeys hroom] at hgone
    exact absurd hgone hk
  · obtain ⟨key, hlast, hshard, -, hevicted⟩ :=
      Store.view_evicted hs (Store.total_pos hs hk) (not_lt.mp hroom)
    -- only the back of the list is gone
    obtain rfl : k = key := by
      by_contra hne
      rw [hevicted, Function.update_of_ne hne] at hgone
      exact hk hgone
    rw [← hshard] at hlast
    refine (h (Store.shardFor P k)).back_oldest hlast ?_
    rw [← hsame]
    exact (Store.mem_lru_keys hs k').mpr hk'

end Trace

/-- **LRU order**: through a run of calls every list is in the order of last
access exactly if every `get` answered under the shared lock is for the key
in front; and then every victim has the oldest access of its shard. -/
theorem lru_ordered_iff (P : Platform) (maxKeys : Nat) (calls : List ((Nat → Int) × Call)) :
    ((∀ done, done <+: calls → (Trace.run P maxKeys done).InOrder) ↔
      ∀ done e, done ++ [e] <+: calls → ¬ Skips P (Trace.run P maxKeys done).store e.1 e.2) ∧
    ((∀ done e, done ++ [e] <+: calls → ¬ Skips P (Trace.run P maxKeys done).store e.1 e.2) →
      ∀ done, done <+: calls → (Trace.run P maxKeys done).OldestVictim P maxKeys) := by
  have hkeeps : (∀ done e, done ++ [e] <+: calls →
      ¬ Skips P (Trace.run P maxKeys done).store e.1 e.2) →
      ∀ done, done <+: calls → (Trace.run P maxKeys done).InOrder := by
    intro hskip done
    induction done using List.reverseRecOn with
    | nil =>
        intro _ i
        exact List.Pairwise.nil
    | append_singleton done e ih =>
        intro hrun
        rw [Trace.run_append]
        exact (ih ((List.prefix_append done [e]).trans hrun)).step (Trace.run_valid done)
          (Trace.run_stamp_le done) (hskip done e hrun)
  refine ⟨⟨fun horder done e hrun hskip => ?_, hkeeps⟩, fun hskip done hrun => ?_⟩
  · have hafter := horder _ hrun
    rw [Trace.run_append] at hafter
    exact Trace.not_inOrder_of_skips (Trace.run_valid done) (Trace.run_stamp_le done) hskip hafter
  · exact (hkeeps hskip done hrun).oldestVictim (Trace.run_valid done)

/-- Room for two keys, `a` and `q` in one shard: `a`, `q`, then a read of `a`.
The victim is `a`, although `q` was not used since. -/
theorem victim_not_oldest :
    ¬ (Trace.run .concrete 2
      [(fun _ => 0, .set (ascii "a") (ascii "1") (-1)),
       (fun _ => 0, .set (ascii "q") (ascii "2") (-1)),
       (fun _ => 0, .get (ascii "a"))]).OldestVictim .concrete 2 := by
  intro h
  have hle := h (ascii "a") (ascii "q") (Option.isSome_iff_ne_none.mp (by decide +kernel))
    (Option.isNone_iff_eq_none.mp (by decide +kernel))
    (Option.isSome_iff_ne_none.mp (by decide +kernel)) (by decide +kernel)
  exact absurd hle (by decide +kernel)

end RedisCache.Storage
