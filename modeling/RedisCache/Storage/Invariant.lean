import Mathlib
import RedisCache.Storage.Shard

/-!
# The representation invariant of a shard

`Consistent` ties the map, the LRU list and the handle cells together: a
list node holds a key exactly when the key's entry designates that node,
and the live cells are the cells of the nodes in the list. Under it no
section faults, and every section keeps it.

The proofs go through three normal forms: under the invariant, using,
removing and deleting an entry's node have closed results without a fault
branch (`useNode_eq`, `removeEntry_eq`, `evict_eq`).
-/

namespace RedisCache.Storage

namespace Shard

/-- Map, list and cells agree. -/
structure Consistent (sh : Shard) : Prop where
  /-- A node of the list holds the key of the entry that designates it. -/
  linked : ∀ n k, (n, k) ∈ sh.lru.list ↔ ∃ e, sh.map.find k = some e ∧ e.lruNode = some n
  /-- Every entry has a handle. -/
  tied : ∀ k e, sh.map.find k = some e → e.lruNode ≠ none
  distinct : sh.lru.nodes.Nodup
  cells_nodup : sh.cells.Nodup
  mem_cells : ∀ n, n ∈ sh.cells ↔ n ∈ sh.lru.nodes
  fresh : ∀ n ∈ sh.lru.nodes, n < sh.lru.next
  no_fault : sh.fault = none

theorem Consistent.empty : Consistent {} where
  linked n k := by simp
  tied k e h := by simp at h
  distinct := List.nodup_nil
  cells_nodup := List.nodup_nil
  mem_cells n := by simp [LruList.nodes]
  fresh n hn := by simp [LruList.nodes] at hn
  no_fault := rfl

/-- The node an entry designates: in the list, with the entry's key, behind a
live cell. -/
theorem Consistent.node {sh : Shard} (h : sh.Consistent) {k : Bytes} {e : Entry}
    (he : sh.map.find k = some e) :
    ∃ n, e.lruNode = some n ∧ (n, k) ∈ sh.lru.list ∧ n ∈ sh.lru.nodes ∧ n ∈ sh.cells := by
  cases hn : e.lruNode with
  | none => exact absurd hn (h.tied k e he)
  | some n =>
      have hmem : (n, k) ∈ sh.lru.list := (h.linked n k).mpr ⟨e, he, hn⟩
      have hnode : n ∈ sh.lru.nodes := LruList.mem_nodes.mpr ⟨k, hmem⟩
      exact ⟨n, rfl, hmem, hnode, (h.mem_cells n).mpr hnode⟩

/-! ## Normal forms -/

theorem useNode_eq {sh : Shard} {e : Entry} {n : Node} (hn : e.lruNode = some n)
    (hcell : n ∈ sh.cells) (hnode : n ∈ sh.lru.nodes) (use : LruList → Node → LruList) :
    sh.useNode e use = { sh with lru := use sh.lru n } := by
  simp [useNode, hn, hcell, hnode]

theorem deleteNode_eq {sh : Shard} {e : Entry} {n : Node} (hn : e.lruNode = some n)
    (hcell : n ∈ sh.cells) :
    sh.deleteNode e = { sh with cells := sh.cells.erase n } := by
  simp [deleteNode, hn, hcell]

theorem removeEntry_eq {sh : Shard} {e : Entry} {n : Node} (k : Bytes)
    (hn : e.lruNode = some n) (hcell : n ∈ sh.cells) (hnode : n ∈ sh.lru.nodes) :
    sh.removeEntry k e =
      { sh with map := sh.map.erase k, lru := sh.lru.remove n, cells := sh.cells.erase n } := by
  simp [removeEntry, useNode_eq hn hcell hnode, deleteNode, hn, hcell]

/-! ## The moves that keep the invariant -/

/-- Reordering the list. -/
theorem Consistent.reorder {sh : Shard} (h : sh.Consistent) {l : List (Node × Bytes)}
    (hl : l.Perm sh.lru.list) : Consistent { sh with lru := { sh.lru with list := l } } where
  linked n k := by
    rw [← h.linked n k]
    exact hl.mem_iff
  tied := h.tied
  distinct := (hl.map Prod.fst).nodup_iff.mpr h.distinct
  cells_nodup := h.cells_nodup
  mem_cells n := (h.mem_cells n).trans (hl.map Prod.fst).mem_iff.symm
  fresh n hn := h.fresh n ((hl.map Prod.fst).mem_iff.mp hn)
  no_fault := h.no_fault

/-- Rewriting an entry's value or deadline. -/
theorem Consistent.rewrite {sh : Shard} (h : sh.Consistent) {k : Bytes} {e e' : Entry}
    (he : sh.map.find k = some e) (hnode : e'.lruNode = e.lruNode) :
    Consistent { sh with map := sh.map.insert k e' } where
  linked n k' := by
    rw [h.linked n k', Map.find_insert]
    by_cases hk : k' = k
    · subst hk
      simp [he, hnode]
    · simp [hk]
  tied k' e₁ h₁ := by
    rw [Map.find_insert] at h₁
    split at h₁
    · cases h₁
      rw [hnode]
      exact h.tied k e he
    · exact h.tied k' e₁ h₁
  distinct := h.distinct
  cells_nodup := h.cells_nodup
  mem_cells := h.mem_cells
  fresh := h.fresh
  no_fault := h.no_fault

/-- A new entry with a new node at the front. -/
theorem Consistent.add {sh : Shard} (h : sh.Consistent) {k : Bytes}
    (hk : sh.map.find k = none) (value : Bytes) (expiresAt : Int) :
    Consistent { sh with
      map := sh.map.insert k ⟨value, expiresAt, some sh.lru.next⟩
      lru := ⟨(sh.lru.next, k) :: sh.lru.list, sh.lru.next + 1⟩
      cells := sh.lru.next :: sh.cells } := by
  have hfresh : sh.lru.next ∉ sh.lru.nodes := fun hn => Nat.lt_irrefl _ (h.fresh _ hn)
  refine ⟨fun n k' => ?_, fun k' e he => ?_, ?_, ?_, fun n => ?_, fun n hn => ?_, h.no_fault⟩
  · simp only [List.mem_cons, Prod.mk.injEq]
    by_cases hkk : k' = k
    · subst hkk
      have hno : (n, k') ∉ sh.lru.list := by
        intro hmem
        obtain ⟨e, he, -⟩ := (h.linked n k').mp hmem
        rw [hk] at he
        cases he
      simp [hno, eq_comm]
    · rw [h.linked n k', Map.find_insert]
      simp [hkk]
  · rw [Map.find_insert] at he
    split at he
    · cases he
      simp
    · exact h.tied k' e he
  · exact List.nodup_cons.mpr ⟨hfresh, h.distinct⟩
  · exact List.nodup_cons.mpr ⟨fun hc => hfresh ((h.mem_cells _).mp hc), h.cells_nodup⟩
  · simp only [List.mem_cons, LruList.nodes, List.map_cons]
    exact or_congr Iff.rfl (h.mem_cells n)
  · simp only [LruList.nodes, List.map_cons, List.mem_cons] at hn ⊢
    rcases hn with rfl | hn
    · exact Nat.lt_succ_self _
    · exact Nat.lt_succ_of_lt (h.fresh n hn)

/-- Dropping an entry with its node and its cell. -/
theorem Consistent.drop {sh : Shard} (h : sh.Consistent) {k : Bytes} {e : Entry} {n : Node}
    (he : sh.map.find k = some e) (hn : e.lruNode = some n) :
    Consistent { sh with
      map := sh.map.erase k, lru := sh.lru.remove n, cells := sh.cells.erase n } := by
  have hmem : (n, k) ∈ sh.lru.list := (h.linked n k).mpr ⟨e, he, hn⟩
  refine ⟨fun m k' => ?_, fun k' e' he' => ?_, ?_, h.cells_nodup.erase n, fun m => ?_,
    fun m hm => ?_, h.no_fault⟩
  · rw [LruList.mem_remove, h.linked m k']
    by_cases hk : k' = k
    · -- only `n` itself holds `k`
      subst hk
      simp [he, hn, eq_comm]
    · rw [Map.find_erase, if_neg hk]
      constructor
      · exact fun hh => hh.1
      · intro hh
        refine ⟨hh, ?_⟩
        rintro rfl
        exact hk (LruList.eq_of_mem h.distinct ((h.linked _ k').mpr hh) hmem)
  · rw [Map.find_erase] at he'
    split at he'
    · cases he'
    · exact h.tied k' e' he'
  · rw [LruList.remove_nodes]
    exact h.distinct.filter _
  · rw [LruList.remove_nodes, h.cells_nodup.mem_erase_iff, h.mem_cells, List.mem_filter]
    simp [and_comm]
  · rw [LruList.remove_nodes] at hm
    exact h.fresh m (List.mem_filter.mp hm).1

/-! ## The sections -/

theorem Consistent.touchNode {sh : Shard} (h : sh.Consistent) {e : Entry} {n : Node}
    (hn : e.lruNode = some n) (hcell : n ∈ sh.cells) (hnode : n ∈ sh.lru.nodes) :
    Consistent (sh.useNode e LruList.touch) := by
  rw [useNode_eq hn hcell hnode]
  exact h.reorder (LruList.touch_perm _ _)

theorem Consistent.touch {sh : Shard} (h : sh.Consistent) {k : Bytes} {e : Entry}
    (he : sh.map.find k = some e) : Consistent (sh.useNode e LruList.touch) := by
  obtain ⟨n, hn, -, hnode, hcell⟩ := h.node he
  exact h.touchNode hn hcell hnode

theorem Consistent.removeEntry {sh : Shard} (h : sh.Consistent) {k : Bytes} {e : Entry}
    (he : sh.map.find k = some e) : Consistent (sh.removeEntry k e) := by
  obtain ⟨n, hn, -, hnode, hcell⟩ := h.node he
  rw [removeEntry_eq k hn hcell hnode]
  exact h.drop he hn

theorem Consistent.setLocked {sh : Shard} (h : sh.Consistent) (k v : Bytes) (ex : Int) :
    Consistent (sh.setLocked k v ex) := by
  unfold Shard.setLocked
  cases he : sh.map.find k with
  | none => exact h.add he v ex
  | some e =>
      -- the entry that is touched is the one that was there before
      obtain ⟨n, hn, -, hnode, hcell⟩ := h.node he
      have h' : Consistent { sh with
          map := sh.map.insert k { e with value := v, expiresAtMs := ex } } := h.rewrite he rfl
      exact h'.touchNode hn hcell hnode

theorem Consistent.getExclusive {sh : Shard} (h : sh.Consistent) (k : Bytes) (now : Int) :
    Consistent (sh.getExclusive k now).2 := by
  unfold Shard.getExclusive
  cases he : sh.map.find k with
  | none => exact h
  | some e =>
      simp only
      split
      · exact h.removeEntry he
      · exact h.touch he

theorem Consistent.del {sh : Shard} (h : sh.Consistent) (k : Bytes) :
    Consistent (sh.del k).2 := by
  unfold Shard.del
  cases he : sh.map.find k with
  | none => exact h
  | some e => exact h.removeEntry he

theorem Consistent.expire {sh : Shard} (h : sh.Consistent) (k : Bytes) (ttlMs now now' : Int) :
    Consistent (sh.expire k ttlMs now now').2 := by
  unfold Shard.expire
  cases he : sh.map.find k with
  | none => exact h
  | some e =>
      simp only
      split
      · exact h
      · exact h.rewrite he rfl

theorem Consistent.incr {sh : Shard} (h : sh.Consistent) (k : Bytes) (now : Int) :
    Consistent (sh.incr k now).2 := by
  unfold Shard.incr
  cases he : sh.map.find k with
  | none => exact h.setLocked k _ _
  | some e =>
      simp only
      split
      · exact (h.removeEntry he).setLocked k _ _
      · split
        · exact h
        · exact h.setLocked k _ _

/-! ### The loops over a whole map -/

/-- The body of the sweep loop. -/
def sweepEntry (now : Int) (sh : Shard) (e : Σ _ : Bytes, Entry) : Shard :=
  if e.2.isExpired now then sh.removeEntry e.1 e.2 else sh

/-- The sweep loop, over any part of the map it still has ahead: what it has
ahead is still in the map, with distinct keys. -/
theorem sweep_loop (now : Int) (l : List (Σ _ : Bytes, Entry)) {sh : Shard} (h : sh.Consistent)
    (hnd : (l.map Sigma.fst).Nodup) (hl : ∀ x ∈ l, sh.map.find x.1 = some x.2) :
    Consistent (l.foldl (sweepEntry now) sh) ∧
      ∀ k, (l.foldl (sweepEntry now) sh).map.find k =
        if l.any fun x => x.1 == k && x.2.isExpired now then none else sh.map.find k := by
  induction l generalizing sh with
  | nil => exact ⟨h, fun k => by simp⟩
  | cons x l ih =>
      obtain ⟨k₀, e₀⟩ := x
      obtain ⟨hx, hnd'⟩ := List.nodup_cons.mp hnd
      have he₀ : sh.map.find k₀ = some e₀ := hl ⟨k₀, e₀⟩ (by simp)
      have hl' : ∀ y ∈ l, sh.map.find y.1 = some y.2 := fun y hy => hl y (by simp [hy])
      have hne : ∀ y ∈ l, y.1 ≠ k₀ := by
        intro y hy heq
        exact hx (List.mem_map.mpr ⟨y, hy, heq⟩)
      rw [List.foldl_cons]
      by_cases hexp : e₀.isExpired now = true
      · have hlook : ∀ k, (sh.removeEntry k₀ e₀).map.find k =
            if k = k₀ then none else sh.map.find k := by simp
        obtain ⟨hc, hlk⟩ := ih (h.removeEntry he₀) hnd' (fun y hy => by
          rw [hlook, if_neg (hne y hy)]
          exact hl' y hy)
        rw [sweepEntry, if_pos hexp]
        refine ⟨hc, fun k => ?_⟩
        rw [hlk k, hlook k, List.any_cons]
        by_cases hk : k = k₀
        · subst hk
          simp [hexp]
        · have hbeq : (k₀ == k) = false := by simpa using Ne.symm hk
          simp only [hbeq, Bool.false_and, Bool.false_or, if_neg hk]
      · obtain ⟨hc, hlk⟩ := ih h hnd' hl'
        rw [sweepEntry, if_neg hexp]
        refine ⟨hc, fun k => ?_⟩
        rw [hlk k, List.any_cons]
        simp only [Bool.not_eq_true _ ▸ hexp, Bool.and_false, Bool.false_or]

theorem Consistent.sweepExpired {sh : Shard} (h : sh.Consistent) (now : Int) :
    Consistent (sh.sweepExpired now) :=
  (sweep_loop now sh.map.entries h (Map.entries_keys_nodup _)
    fun _ hx => Map.mem_entries_iff.mp hx).1

/-- Sweeping removes exactly the expired entries. -/
theorem sweepExpired_find {sh : Shard} (h : sh.Consistent) (now : Int) (k : Bytes) :
    (sh.sweepExpired now).map.find k = (sh.map.find k).filter fun e => !e.isExpired now := by
  have hloop := (sweep_loop now sh.map.entries h (Map.entries_keys_nodup _)
    fun _ hx => Map.mem_entries_iff.mp hx).2 k
  have hany : (sh.map.entries.any fun x => x.1 == k && x.2.isExpired now) =
      (sh.map.find k).any fun e => e.isExpired now := by
    rw [Bool.eq_iff_iff]
    simp only [List.any_eq_true, Bool.and_eq_true, beq_iff_eq, Option.any_eq_true]
    constructor
    · rintro ⟨⟨k', e⟩, hmem, rfl, hexp⟩
      exact ⟨e, Map.mem_entries_iff.mp hmem, hexp⟩
    · rintro ⟨e, he, hexp⟩
      exact ⟨⟨k, e⟩, Map.mem_entries_iff.mpr he, rfl, hexp⟩
  rw [show sh.sweepExpired now = sh.map.entries.foldl (sweepEntry now) sh from rfl, hloop, hany]
  cases sh.map.find k with
  | none => rfl
  | some e => by_cases hexp : e.isExpired now = true <;> simp [hexp, Option.filter]

/-- The `delete` loop of `flush`: distinct live cells go one by one. -/
theorem delete_loop (l : List (Σ _ : Bytes, Entry)) {sh : Shard} (hnd : sh.cells.Nodup)
    (hl : ∀ x ∈ l, ∃ n, x.2.lruNode = some n ∧ n ∈ sh.cells)
    (hne : l.Pairwise fun x y => x.2.lruNode ≠ y.2.lruNode) :
    l.foldl (fun sh e => sh.deleteNode e.2) sh =
      { sh with cells := sh.cells.filter fun n => l.all fun x => x.2.lruNode != some n } := by
  induction l generalizing sh with
  | nil => simp
  | cons x l ih =>
      obtain ⟨n, hn, hcell⟩ := hl x (by simp)
      obtain ⟨hx, hne'⟩ := List.pairwise_cons.mp hne
      rw [List.foldl_cons, deleteNode_eq hn hcell, ih (hnd.erase n) ?_ hne']
      · simp only [List.all_cons, hn]
        congr 1
        rw [hnd.erase_eq_filter, List.filter_filter]
        refine List.filter_congr fun m _ => ?_
        simp only [bne, Bool.and_comm (l.all _), Option.some_beq_some, BEq.comm (a := m)]
      · intro y hy
        obtain ⟨m, hm, hmc⟩ := hl y (by simp [hy])
        refine ⟨m, hm, hnd.mem_erase_iff.mpr ⟨?_, hmc⟩⟩
        rintro rfl
        exact hx y hy (hn.trans hm.symm)

/-- `flush` frees every cell and leaves nothing. -/
theorem flush_eq {sh : Shard} (h : sh.Consistent) :
    sh.flush = { map := ∅, lru := sh.lru.clear, cells := [], fault := none } := by
  have hnode : ∀ x ∈ sh.map.entries, ∃ n, x.2.lruNode = some n ∧ n ∈ sh.cells := by
    intro x hx
    obtain ⟨n, hn, -, -, hcell⟩ := h.node (Map.mem_entries_iff.mp hx)
    exact ⟨n, hn, hcell⟩
  have hdistinct : sh.map.entries.Pairwise fun x y => x.2.lruNode ≠ y.2.lruNode := by
    refine List.Pairwise.imp_of_mem ?_ (List.pairwise_map.mp (Map.entries_keys_nodup sh.map))
    intro x y hx hy hxy heq
    obtain ⟨n, hn, hxn, -, -⟩ := h.node (Map.mem_entries_iff.mp hx)
    have hyn := (h.linked n y.1).mpr ⟨y.2, Map.mem_entries_iff.mp hy, heq ▸ hn⟩
    exact hxy (LruList.eq_of_mem h.distinct hxn hyn)
  have hgone :
      (sh.cells.filter fun n => sh.map.entries.all fun x => x.2.lruNode != some n) = [] := by
    rw [List.filter_eq_nil_iff]
    intro n hn hall
    obtain ⟨k, hk⟩ := LruList.mem_nodes.mp ((h.mem_cells n).mp hn)
    obtain ⟨e, he, hen⟩ := (h.linked n k).mp hk
    have := List.all_eq_true.mp hall ⟨k, e⟩ (Map.mem_entries_iff.mpr he)
    simp [hen] at this
  rw [flush, delete_loop _ h.cells_nodup hnode hdistinct, hgone]
  simp [h.no_fault]

theorem Consistent.flush {sh : Shard} (h : sh.Consistent) : Consistent sh.flush := by
  rw [flush_eq h]
  exact ⟨fun n k => by simp [LruList.clear], fun k e he => by simp at he, List.nodup_nil,
    List.nodup_nil, fun n => by simp [LruList.nodes, LruList.clear],
    fun n hn => by simp [LruList.nodes, LruList.clear] at hn, rfl⟩

/-! ### Eviction -/

/-- The back of a consistent list: its key's entry designates it, so that
eviction is the removal of that entry. -/
theorem evict_eq {sh : Shard} (h : sh.Consistent) {l : List (Node × Bytes)} {n : Node} {k : Bytes}
    (hl : sh.lru.list = l ++ [(n, k)]) :
    ∃ e, sh.map.find k = some e ∧ e.lruNode = some n ∧
      sh.evict = { sh with
        map := sh.map.erase k, lru := sh.lru.remove n, cells := sh.cells.erase n } := by
  obtain ⟨e, he, hn⟩ := (h.linked n k).mp (by simp [hl])
  obtain ⟨m, hm, -, -, hcell⟩ := h.node he
  obtain rfl : n = m := by simpa [hn] using hm
  have hlast : l = sh.lru.list.filter (·.1 != n) := by
    have hdist := h.distinct
    simp only [LruList.nodes, hl, List.map_append, List.map_cons, List.map_nil] at hdist
    have hnl : ∀ x ∈ l, x.1 ≠ n := by
      intro x hx heq
      exact (List.nodup_append.mp hdist).2.2 x.1 (List.mem_map_of_mem hx) n (by simp) heq
    rw [hl, List.filter_append, List.filter_eq_self.mpr (fun x hx => by simpa using hnl x hx)]
    simp
  refine ⟨e, he, hn, ?_⟩
  simp only [evict, LruList.empty, LruList.evictLru, hl]
  simp [he, deleteNode, hn, hcell, LruList.remove, ← hlast]

theorem Consistent.evict {sh : Shard} (h : sh.Consistent) : Consistent sh.evict := by
  rcases List.eq_nil_or_concat' sh.lru.list with hnil | ⟨l, x, hl⟩
  · rw [Shard.evict, LruList.empty, hnil]
    exact h
  · obtain ⟨n, k⟩ := x
    obtain ⟨e, he, hn, heq⟩ := evict_eq h hl
    rw [heq]
    exact h.drop he hn

end Shard

end RedisCache.Storage
