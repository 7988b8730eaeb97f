import Mathlib
import RedisCache.Storage.Contents

/-!
# Sizes and eviction

`size()` counts the keys of the view, so a call moves it by what it does to
one key. `maybe_evict` on a full store takes exactly one key away: the shard
it picks is the fullest one, and a full store has a shard with something in
it.
-/

namespace RedisCache.Storage

open Sections TimedMap

namespace Store

variable {P : Platform} {maxKeys : Nat} {s s' : Shards}

theorem total_empty : total empty = 0 := by decide

/-! ## What a write does to the size -/

theorem support_finite (hs : ∀ i, Valid P i (s i)) : {k | view P s k ≠ none}.Finite := by
  rw [support_view P hs]
  exact Finset.finite_toSet _

theorem total_pos (hs : ∀ i, Valid P i (s i)) {key : Bytes} (hkey : view P s key ≠ none) :
    0 < total s := by
  rw [total_eq_ncard P hs, Set.ncard_pos (support_finite hs)]
  exact ⟨key, hkey⟩

theorem total_mono (hs : ∀ i, Valid P i (s i)) (hs' : ∀ i, Valid P i (s' i))
    (h : ∀ k, view P s' k ≠ none → view P s k ≠ none) : total s' ≤ total s := by
  rw [total_eq_ncard P hs, total_eq_ncard P hs']
  exact Set.ncard_le_ncard h (support_finite hs)

/-- A key that was there is gone. -/
theorem total_remove (hs : ∀ i, Valid P i (s i)) (hs' : ∀ i, Valid P i (s' i)) {key : Bytes}
    (hkey : view P s key ≠ none) (hview : view P s' = Function.update (view P s) key none) :
    total s' + 1 = total s := by
  have hsupport : {k | view P s' k ≠ none} = {k | view P s k ≠ none} \ {key} := by
    rw [hview]
    ext k
    by_cases hk : k = key
    · simp [hk]
    · simp [hk]
  rw [total_eq_ncard P hs, total_eq_ncard P hs', hsupport]
  exact Set.ncard_sdiff_singleton_add_one hkey (support_finite hs)

/-- A key that was not there is written. -/
theorem total_insert (hs : ∀ i, Valid P i (s i)) (hs' : ∀ i, Valid P i (s' i)) {key : Bytes}
    {it : Item Bytes} (hkey : view P s key = none)
    (hview : view P s' = Function.update (view P s) key (some it)) :
    total s' = total s + 1 := by
  have hsupport : {k | view P s' k ≠ none} = insert key {k | view P s k ≠ none} := by
    rw [hview]
    ext k
    by_cases hk : k = key
    · simp [hk]
    · simp [hk]
  rw [total_eq_ncard P hs, total_eq_ncard P hs', hsupport]
  exact Set.ncard_insert_of_notMem (by simpa using hkey) (support_finite hs)

/-- A key that was there is written. -/
theorem total_overwrite (hs : ∀ i, Valid P i (s i)) (hs' : ∀ i, Valid P i (s' i)) {key : Bytes}
    {o : Option (Item Bytes)} (hkey : view P s key ≠ none)
    (hview : view P s' = Function.update (view P s) key o) : total s' ≤ total s := by
  refine total_mono hs hs' fun k hk => ?_
  by_cases hkk : k = key
  · rw [hkk]
    exact hkey
  · rwa [hview, Function.update_of_ne hkk] at hk

/-- One write makes the store at most one larger. -/
theorem total_write_le (hs : ∀ i, Valid P i (s i)) (hs' : ∀ i, Valid P i (s' i)) {key : Bytes}
    {it : Item Bytes} (hview : view P s' = Function.update (view P s) key (some it)) :
    total s' ≤ total s + 1 := by
  by_cases hkey : view P s key = none
  · exact (total_insert hs hs' hkey hview).le
  · exact (total_overwrite hs hs' hkey hview).trans (Nat.le_succ _)

/-! ## Which shard is evicted from -/

/-- The scan of `fullest`: it ends with the start or an element of the list,
and nothing on its way was larger. -/
theorem scan_fullest (l : List (Index × Nat)) (b : Index × Nat) :
    let best := l.foldl (fun best e => if best.2 < e.2 then e else best) b
    (best = b ∨ best ∈ l) ∧ b.2 ≤ best.2 ∧ ∀ e ∈ l, e.2 ≤ best.2 := by
  induction l generalizing b with
  | nil => simp
  | cons x l ih =>
      rw [List.foldl_cons]
      by_cases hlt : b.2 < x.2
      · rw [if_pos hlt]
        obtain ⟨hmem, hle, hall⟩ := ih x
        refine ⟨Or.inr ?_, hlt.le.trans hle, ?_⟩
        · rcases hmem with h | h
          · rw [h]
            exact List.mem_cons_self
          · exact List.mem_cons_of_mem _ h
        · intro e he
          rcases List.mem_cons.mp he with rfl | he
          · exact hle
          · exact hall e he
      · rw [if_neg hlt]
        obtain ⟨hmem, hle, hall⟩ := ih b
        refine ⟨hmem.imp_right (List.mem_cons_of_mem _), hle, ?_⟩
        intro e he
        rcases List.mem_cons.mp he with rfl | he
        · exact (not_lt.mp hlt).trans hle
        · exact hall e he

theorem zip_sizesOf (s : Shards) :
    shards.zip (sizesOf s) = shards.map fun i => (i, (s i).size) :=
  List.map_prod_left_eq_zip.symm

/-- On a list in the order of the shards, it ends with the first of the
largest. -/
theorem scan_fullest_first (l : List (Index × Nat)) (b : Index × Nat)
    (hl : (b :: l).Pairwise fun e e' => e.1 ≤ e'.1) :
    let best := l.foldl (fun best e => if best.2 < e.2 then e else best) b
    ∀ e ∈ b :: l, best.2 ≤ e.2 → best.1 ≤ e.1 := by
  induction l generalizing b with
  | nil => simp
  | cons x l ih =>
      obtain ⟨hb, hrest⟩ := List.pairwise_cons.mp hl
      rw [List.foldl_cons]
      by_cases hlt : b.2 < x.2
      · -- a larger one is found, so the start is none of the largest
        rw [if_pos hlt]
        intro best e he hle
        rcases List.mem_cons.mp he with rfl | he
        · have hx : x.2 ≤ best.2 := (scan_fullest l x).2.1
          omega
        · exact ih x hrest e he hle
      · rw [if_neg hlt]
        have hsub : (b :: l).Pairwise fun e e' => e.1 ≤ e'.1 :=
          List.pairwise_cons.mpr ⟨fun e he => hb e (List.mem_cons_of_mem _ he),
            (List.pairwise_cons.mp hrest).2⟩
        intro best e he hle
        rcases List.mem_cons.mp he with rfl | he
        · exact ih e hsub e List.mem_cons_self hle
        · rcases List.mem_cons.mp he with rfl | he
          · -- not larger than the start, which comes before it
            have hstart := ih b hsub b List.mem_cons_self (hle.trans (not_lt.mp hlt))
            exact hstart.trans (hb e List.mem_cons_self)
          · exact ih b hsub e (List.mem_cons_of_mem _ he) hle

/-- **The shard that is picked**: the lowest of those with the most entries. -/
theorem fullest_isLeast (s : Shards) :
    IsLeast {i | ∀ j, (s j).size ≤ (s i).size} (fullest (sizesOf s)) := by
  have hmem : ∀ i, (i, (s i).size) ∈ shards.map fun i => (i, (s i).size) := fun i =>
    List.mem_map.mpr ⟨i, mem_shards i, rfl⟩
  have hsorted : ((0, 0) :: shards.map fun i => (i, (s i).size)).Pairwise
      fun e e' : Index × Nat => e.1 ≤ e'.1 := by
    refine List.pairwise_cons.mpr ⟨fun e _ => Fin.zero_le _, ?_⟩
    exact List.pairwise_map.mpr ((List.pairwise_lt_finRange 16).imp le_of_lt)
  obtain ⟨hfrom, -, hall⟩ := scan_fullest (shards.map fun i => (i, (s i).size)) (0, 0)
  have hfirst := scan_fullest_first (shards.map fun i => (i, (s i).size)) (0, 0) hsorted
  simp only at hfirst
  rw [fullest, zip_sizesOf]
  generalize (shards.map fun i => (i, (s i).size)).foldl _ _ = best at *
  have hsize : (s best.1).size = best.2 := by
    rcases hfrom with rfl | hbest
    · exact Nat.le_zero.mp (hall _ (hmem 0))
    · obtain ⟨i, -, rfl⟩ := List.mem_map.mp hbest
      rfl
  refine ⟨fun i => hsize ▸ hall _ (hmem i), fun i hi => ?_⟩
  exact hfirst (i, (s i).size) (List.mem_cons_of_mem _ (hmem i)) (hsize ▸ hi best.1)

/-- The shard picked from a store that holds something holds something. -/
theorem fullest_pos (h : 0 < total s) : 0 < (s (fullest (sizesOf s))).size := by
  by_contra hnone
  have hzero : total s = 0 := by
    refine List.sum_eq_zero fun n hn => ?_
    obtain ⟨i, -, rfl⟩ := List.mem_map.mp hn
    have := (fullest_isLeast s).1 i
    omega
  omega

/-! ## The victim -/

/-- Eviction from a shard with something in it drops the key at the back of
its list, and that key only. -/
theorem evict_back (hs : ∀ i, Valid P i (s i)) {i : Index} (hpos : 0 < (s i).size) :
    ∃ key, (s i).lru.keys.getLast? = some key ∧ shardFor P key = i ∧ view P s key ≠ none ∧
      view P (Function.update s i (s i).evict) = Function.update (view P s) key none := by
  have hc := (hs i).consistent
  obtain ⟨x, hx⟩ : ∃ x, x ∈ (s i).map.entries := List.exists_mem_of_length_pos hpos
  obtain ⟨n, -, hn, -, -⟩ := hc.node (Map.mem_entries_iff.mp hx)
  rcases List.eq_nil_or_concat' (s i).lru.list with hnil | ⟨l, ⟨m, key⟩, hl⟩
  · rw [hnil] at hn
    cases hn
  · obtain ⟨e, he, -, heq⟩ := Shard.evict_eq hc hl
    have hplaced : shardFor P key = i := (hs i).placed key e he
    subst hplaced
    refine ⟨key, by simp [LruList.keys, hl], rfl, by simp [view, he], ?_⟩
    refine view_write P s key (o := none) fun k => ?_
    rw [heq, Map.find_erase]

theorem evicted_valid (maxKeys : Nat) (hs : ∀ i, Valid P i (s i)) :
    ∀ i, Valid P i (evicted maxKeys s i) := by
  have h := (maybeEvict_safe P maxKeys).run (w := ⟨fun _ => 0, s⟩) hs
  rwa [run_maybeEvict] at h

theorem evicted_of_le (h : maxKeys ≤ total s) :
    evicted maxKeys s =
      Function.update s (fullest (sizesOf s)) (s (fullest (sizesOf s))).evict :=
  if_neg (not_lt.mpr h)

/-- A full store with something in it loses the key at the back of the fullest
shard's list, and that key only. -/
theorem view_evicted (hs : ∀ i, Valid P i (s i)) (hpos : 0 < total s) (hfull : maxKeys ≤ total s) :
    ∃ key, (s (fullest (sizesOf s))).lru.keys.getLast? = some key ∧
      shardFor P key = fullest (sizesOf s) ∧ view P s key ≠ none ∧
      view P (evicted maxKeys s) = Function.update (view P s) key none := by
  rw [evicted_of_le hfull]
  exact evict_back hs (fullest_pos hpos)

/-- Behind `maybe_evict` there is room for one more key. -/
theorem total_evicted_lt (hs : ∀ i, Valid P i (s i)) (hmax : 1 ≤ maxKeys)
    (hle : total s ≤ maxKeys) : total (evicted maxKeys s) < maxKeys := by
  by_cases hlt : total s < maxKeys
  · rwa [evicted_of_lt maxKeys hlt]
  · obtain ⟨key, -, -, hkey, hview⟩ := view_evicted hs (by omega) (not_lt.mp hlt)
    have hone := total_remove hs (evicted_valid maxKeys hs) hkey hview
    omega

/-- `set` keeps the bound. -/
theorem total_run_set_le {w : World Index Shard} (hs : ∀ i, Valid P i (w.cells i))
    (hmax : 1 ≤ maxKeys) (hle : total w.cells ≤ maxKeys) (key value : Bytes) (ttlMs : Int) :
    total ((set P maxKeys key value ttlMs).run w).2.cells ≤ maxKeys := by
  have hroom := total_evicted_lt hs hmax hle
  have hwrite := total_write_le (evicted_valid maxKeys hs)
    ((set_safe P maxKeys key value ttlMs).run hs)
    (view_run_set_evicted P maxKeys w key value ttlMs)
  omega

/-- `get` does not make the store larger. -/
theorem total_run_get_le {w : World Index Shard} (hs : ∀ i, Valid P i (w.cells i))
    (key : Bytes) : total ((get P key).run w).2.cells ≤ total w.cells := by
  refine total_mono hs ((get_safe P key).run hs) fun k hk => ?_
  rcases view_run_get P w key with hview | hview
  · rwa [hview] at hk
  · rw [hview] at hk
    by_cases hkk : k = key
    · subst hkk
      intro hnone
      simp [live, hnone] at hk
    · rwa [Function.update_of_ne hkk] at hk

end Store

end RedisCache.Storage
