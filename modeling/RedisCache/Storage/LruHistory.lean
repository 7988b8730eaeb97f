import Mathlib
import RedisCache.Lib.Loop
import RedisCache.Lib.Recency
import RedisCache.Storage.LruEviction

/-!
# The LRU list and its history

`LruList` on its own: any sequence of calls, with what each of them did
written down (`LruEvent`). The history says which nodes are PRESENT, inserted
and neither removed nor evicted since, and when each node was last inserted or
touched. The list holds the present nodes, the most recent one first
(`lruList_recency`); a handle of a node that has left may not be used again,
so a sequence that does so has no result.
-/

namespace RedisCache.Storage

open Recency

/-! ## Calls and what they did -/

inductive LruOp where
  | insert (key : Bytes)
  | touch (n : Node)
  | remove (n : Node)
  | evictLru

inductive LruEvent where
  | inserted (n : Node) (key : Bytes)
  | touched (n : Node)
  | removed (n : Node)
  | evicted (n : Node)
deriving DecidableEq

namespace LruEvent

def node : LruEvent → Node
  | inserted n _ | touched n | removed n | evicted n => n

/-- The node that was inserted or touched. -/
def used : LruEvent → Option Node
  | inserted n _ | touched n => some n
  | removed _ | evicted _ => none

/-- The node that left the list. -/
def left : LruEvent → Option Node
  | inserted _ _ | touched _ => none
  | removed n | evicted n => some n

def isInsert : LruEvent → Bool
  | inserted _ _ => true
  | touched _ | removed _ | evicted _ => false

theorem of_left {e : LruEvent} {n : Node} (h : e.left = some n) :
    e = removed n ∨ e = evicted n := by
  cases e with
  | inserted => cases h
  | touched => cases h
  | removed => exact .inl (congrArg removed (Option.some_inj.mp h))
  | evicted => exact .inr (congrArg evicted (Option.some_inj.mp h))

end LruEvent

/-! ## Histories, the latest event first -/

/-- When `n` was last inserted or touched, the first event being at `1`;
`0` if it never was. -/
def lastUse : List LruEvent → Node → Nat
  | [], _ => 0
  | e :: es, n => if e.used = some n then es.length + 1 else lastUse es n

/-- `n` was inserted with `key` and is not removed or evicted yet. -/
def Present (es : List LruEvent) (n : Node) (key : Bytes) : Prop :=
  .inserted n key ∈ es ∧ .removed n ∉ es ∧ .evicted n ∉ es

/-- No present node has been left alone for longer. -/
def Oldest (es : List LruEvent) (n : Node) (key : Bytes) : Prop :=
  Present es n key ∧ ∀ m k, Present es m k → lastUse es n ≤ lastUse es m

theorem lastUse_lt (es : List LruEvent) (n : Node) : lastUse es n < es.length + 1 := by
  induction es with
  | nil => exact Nat.zero_lt_one
  | cons e es ih =>
      rw [lastUse, List.length_cons]
      split
      · exact Nat.lt_succ_self _
      · exact ih.trans (Nat.lt_succ_self _)

theorem lastUse_of_used {e : LruEvent} {n : Node} (h : e.used = some n) (es : List LruEvent) :
    lastUse (e :: es) = Function.update (lastUse es) n (es.length + 1) := by
  funext m
  rw [lastUse, h, Function.update_apply]
  simp only [Option.some_inj, eq_comm]

theorem lastUse_of_left {e : LruEvent} {n : Node} (h : e.left = some n) (es : List LruEvent) :
    lastUse (e :: es) = lastUse es := by
  funext m
  obtain rfl | rfl := LruEvent.of_left h
  · rfl
  · rfl

theorem present_of_left {e : LruEvent} {n : Node} (h : e.left = some n) (es : List LruEvent)
    (m : Node) (key : Bytes) : Present (e :: es) m key ↔ Present es m key ∧ m ≠ n := by
  obtain rfl | rfl := LruEvent.of_left h
  · simp only [Present, List.mem_cons, LruEvent.removed.injEq, reduceCtorEq, false_or]
    tauto
  · simp only [Present, List.mem_cons, LruEvent.evicted.injEq, reduceCtorEq, false_or]
    tauto

/-! ## Runs -/

structure LruRun where
  lru : LruList := {}
  history : List LruEvent := []

namespace LruRun

/-- One call. There is no next state where a handle is used whose node is not in
the list; `evict_lru` on an empty list throws and leaves it as it is. -/
def step (r : LruRun) : LruOp → Option LruRun
  | .insert key =>
      let (n, lru) := r.lru.insert key
      some ⟨lru, .inserted n key :: r.history⟩
  | .touch n =>
      if n ∈ r.lru.nodes then some ⟨r.lru.touch n, .touched n :: r.history⟩ else none
  | .remove n =>
      if n ∈ r.lru.nodes then some ⟨r.lru.remove n, .removed n :: r.history⟩ else none
  | .evictLru =>
      match r.lru.evictLru, r.lru.nodes.getLast? with
      | some (_, lru), some n => some ⟨lru, .evicted n :: r.history⟩
      | _, _ => some r

end LruRun

namespace LruList

variable {l : LruList} {n : Node}

theorem nodes_getLast? {e : Node × Bytes} (h : l.list.getLast? = some e) :
    l.nodes.getLast? = some e.1 := by
  rw [nodes, List.getLast?_map, h, Option.map_some]

theorem touch_nodes (hnd : l.nodes.Nodup) (hn : n ∈ l.nodes) :
    (l.touch n).nodes = toFront n l.nodes := by
  have hone : l.nodes.filter (· == n) = [n] := by
    rw [List.filter_beq, List.count_eq_one_of_mem hnd hn]
    rfl
  have hfilter : ∀ p : Node → Bool,
      (l.list.filter fun e => p e.1).map Prod.fst = l.nodes.filter p := by
    intro p
    rw [nodes, List.filter_map]
    rfl
  rw [nodes, touch, List.map_append, hfilter (· == n), hfilter (· != n), hone, toFront,
    List.singleton_append]
  refine congrArg _ (List.filter_congr fun m _ => ?_)
  rw [Bool.eq_iff_iff, bne_iff_ne, decide_eq_true_iff]

theorem remove_size (hnd : l.nodes.Nodup) (hn : n ∈ l.nodes) :
    (l.remove n).size + 1 = l.size := by
  have hlength : ∀ l : LruList, l.size = l.nodes.length := fun l => List.length_map _ |>.symm
  have hpos := List.length_pos_of_mem hn
  rw [hlength, hlength, remove_nodes, ← hnd.erase_eq_filter, List.length_erase_of_mem hn]
  omega

/-- With distinct nodes, `evict_lru` removes the node at the back. -/
theorem evictLru_eq_remove (hnd : l.nodes.Nodup) {key : Bytes}
    (hlast : l.list.getLast? = some (n, key)) : l.evictLru = some (key, l.remove n) := by
  obtain ⟨front, hfront⟩ := List.getLast?_eq_some_iff.mp hlast
  have hrest : front.filter (·.1 != n) = front := by
    refine List.filter_eq_self.mpr fun e he => ?_
    rw [nodes, hfront, List.map_append, List.nodup_append] at hnd
    simpa using hnd.2.2 e.1 (List.mem_map_of_mem he) n (by simp)
  rw [evictLru, hlast]
  simp [remove, hfront, hrest]

end LruList

/-- The list against its history. -/
structure Tracks (r : LruRun) : Prop where
  mem : ∀ n key, (n, key) ∈ r.lru.list ↔ Present r.history n key
  ordered : Ordered (lastUse r.history) r.lru.nodes
  fresh : ∀ e ∈ r.history, e.node < r.lru.next
  counted : r.lru.size + r.history.countP (·.left.isSome) = r.history.countP (·.isInsert)

namespace Tracks

variable {r : LruRun}

theorem start : Tracks {} where
  mem n key := by simp [Present]
  ordered := List.Pairwise.nil
  fresh e he := by cases he
  counted := rfl

theorem lt_next (h : Tracks r) {n : Node} (hn : n ∈ r.lru.nodes) : n < r.lru.next := by
  obtain ⟨key, hkey⟩ := LruList.mem_nodes.mp hn
  exact h.fresh _ ((h.mem n key).mp hkey).1

theorem insert (h : Tracks r) (key : Bytes) :
    Tracks ⟨(r.lru.insert key).2, .inserted (r.lru.insert key).1 key :: r.history⟩ where
  mem n k := by
    have hnew : ∀ e ∈ r.history, e.node ≠ r.lru.next := fun e he => (h.fresh e he).ne
    have hremoved : .removed r.lru.next ∉ r.history := fun he => hnew _ he rfl
    have hevicted : .evicted r.lru.next ∉ r.history := fun he => hnew _ he rfl
    have hmem := h.mem n k
    simp only [LruList.insert, Present, List.mem_cons, Prod.mk.injEq, LruEvent.inserted.injEq,
      reduceCtorEq, false_or] at hmem ⊢
    constructor
    · rintro (⟨rfl, rfl⟩ | hold)
      · exact ⟨.inl ⟨rfl, rfl⟩, hremoved, hevicted⟩
      · exact ⟨.inr (hmem.mp hold).1, (hmem.mp hold).2⟩
    · rintro ⟨hnow | hold, hrest⟩
      · exact .inl hnow
      · exact .inr (hmem.mpr ⟨hold, hrest⟩)
  ordered := by
    rw [lastUse_of_used rfl]
    have hfront := h.ordered.use_toFront (k := r.lru.next) (lastUse_lt r.history)
    rwa [toFront_of_notMem fun hmem => lt_irrefl _ (h.lt_next hmem)] at hfront
  fresh e he := by
    rcases List.mem_cons.mp he with rfl | he
    · exact Nat.lt_succ_self _
    · exact (h.fresh e he).trans (Nat.lt_succ_self _)
  counted := by
    have := h.counted
    simp only [LruList.insert, LruList.size, LruEvent.left, LruEvent.isInsert, List.length_cons,
      List.countP_cons_of_pos, Option.isSome_none, Bool.false_eq_true, not_false_eq_true,
      List.countP_cons_of_neg] at this ⊢
    omega

theorem touch (h : Tracks r) {n : Node} (hn : n ∈ r.lru.nodes) :
    Tracks ⟨r.lru.touch n, .touched n :: r.history⟩ where
  mem m k := by
    rw [(r.lru.touch_perm n).mem_iff, h.mem]
    simp [Present]
  ordered := by
    rw [lastUse_of_used rfl, LruList.touch_nodes h.ordered.nodup hn]
    exact h.ordered.use_toFront (lastUse_lt r.history)
  fresh e he := by
    rcases List.mem_cons.mp he with rfl | he
    · exact h.lt_next hn
    · exact h.fresh e he
  counted := by
    have := h.counted
    simpa [LruList.size, (r.lru.touch_perm n).length_eq, LruEvent.left, LruEvent.isInsert]
      using this

/-- A node leaves, by `remove` or by `evict_lru`. -/
theorem leave (h : Tracks r) {n : Node} (hn : n ∈ r.lru.nodes) {e : LruEvent}
    (he : e.left = some n) : Tracks ⟨r.lru.remove n, e :: r.history⟩ where
  mem m k := by rw [LruList.mem_remove, h.mem, present_of_left he]
  ordered := by
    rw [lastUse_of_left he, LruList.remove_nodes]
    exact h.ordered.sublist List.filter_sublist
  fresh e' he' := by
    rcases List.mem_cons.mp he' with rfl | he'
    · obtain rfl | rfl := LruEvent.of_left he
      · exact h.lt_next hn
      · exact h.lt_next hn
    · exact h.fresh e' he'
  counted := by
    have hsize := LruList.remove_size h.ordered.nodup hn
    have hcounted := h.counted
    have hinsert : e.isInsert = false := by
      obtain rfl | rfl := LruEvent.of_left he
      · rfl
      · rfl
    show (r.lru.remove n).size + _ = _
    rw [List.countP_cons_of_pos (by rw [he]; rfl), List.countP_cons_of_neg (by simp [hinsert])]
    omega

/-- The step lemma. -/
theorem step (h : Tracks r) {op : LruOp} {r' : LruRun} (hstep : r.step op = some r') :
    Tracks r' := by
  cases op with
  | insert key =>
      cases hstep
      exact h.insert key
  | touch n =>
      rw [LruRun.step] at hstep
      split at hstep
      · rename_i hn
        cases hstep
        exact h.touch hn
      · cases hstep
  | remove n =>
      rw [LruRun.step] at hstep
      split at hstep
      · rename_i hn
        cases hstep
        exact h.leave hn rfl
      · cases hstep
  | evictLru =>
      cases hlast : r.lru.list.getLast? with
      | none =>
          rw [LruRun.step, LruList.evictLru, hlast] at hstep
          cases hstep
          exact h
      | some e =>
          have hnode := LruList.nodes_getLast? hlast
          rw [LruRun.step, LruList.evictLru_eq_remove h.ordered.nodup hlast, hnode] at hstep
          cases hstep
          exact h.leave (List.mem_of_getLast? hnode) rfl

theorem run {ops : List LruOp} (hrun : Loop.follow LruRun.step {} ops = some r) : Tracks r :=
  Loop.follow_inv (fun _ _ _ h hstep => h.step hstep) start hrun

/-- The back of the list is the oldest node. -/
theorem oldest_iff (h : Tracks r) (n : Node) (key : Bytes) :
    Oldest r.history n key ↔ r.lru.list.getLast? = some (n, key) := by
  have hback : ∀ m k, r.lru.list.getLast? = some (m, k) → Oldest r.history m k := by
    intro m k hlast
    refine ⟨(h.mem m k).mp (List.mem_of_getLast? hlast), fun m' k' hpresent => ?_⟩
    exact h.ordered.back_oldest (LruList.nodes_getLast? hlast)
      (LruList.mem_nodes.mpr ⟨k', (h.mem m' k').mpr hpresent⟩)
  refine ⟨fun hold => ?_, hback n key⟩
  have hmem := (h.mem n key).mpr hold.1
  cases hlast : r.lru.list.getLast? with
  | none =>
      rw [List.getLast?_eq_none_iff] at hlast
      rw [hlast] at hmem
      cases hmem
  | some e =>
      -- two oldest nodes were used at the same moment
      have hother := hback e.1 e.2 hlast
      have heq := le_antisymm (hold.2 e.1 e.2 hother.1) (hother.2 n key hold.1)
      obtain rfl := h.ordered.stamp_inj (LruList.mem_nodes.mpr ⟨key, hmem⟩)
        (LruList.mem_nodes.mpr ⟨e.2, List.mem_of_getLast? hlast⟩) heq
      rw [LruList.eq_of_mem h.ordered.nodup hmem (List.mem_of_getLast? hlast)]

end Tracks

/-- **Recency.** After any sequence of calls with handles of nodes in the list,
the list holds the present nodes, each once, from the most to the least recently
used; `lru_key` and `evict_lru` mean the oldest of them, and throw if there is
none; and `size()` is the number of inserts less that of removals and
evictions. -/
theorem lruList_recency {ops : List LruOp} {r : LruRun}
    (hrun : Loop.follow LruRun.step {} ops = some r) :
    r.lru.nodes.Nodup ∧
    (∀ n key, (n, key) ∈ r.lru.list ↔ Present r.history n key) ∧
    r.lru.list.Pairwise (fun a b => lastUse r.history b.1 < lastUse r.history a.1) ∧
    (∀ n key, Oldest r.history n key →
      r.lru.lruKey = some key ∧ r.lru.evictLru = some (key, r.lru.remove n)) ∧
    ((¬ ∃ n key, Oldest r.history n key) →
      r.lru.list = [] ∧ r.lru.lruKey = none ∧ r.lru.evictLru = none) ∧
    r.lru.size =
      r.history.countP (·.isInsert) - r.history.countP (·.left.isSome) ∧
    r.history.countP (·.left.isSome) ≤ r.history.countP (·.isInsert) := by
  have h := Tracks.run hrun
  have hcounted := h.counted
  refine ⟨h.ordered.nodup, h.mem, List.pairwise_map.mp h.ordered, ?_, ?_, by omega, by omega⟩
  · intro n key hold
    have hlast := (h.oldest_iff n key).mp hold
    refine ⟨?_, LruList.evictLru_eq_remove h.ordered.nodup hlast⟩
    rw [LruList.lruKey, hlast]
    rfl
  · intro hnone
    cases hlast : r.lru.list.getLast? with
    | none =>
        refine ⟨List.getLast?_eq_none_iff.mp hlast, ?_, ?_⟩
        · rw [LruList.lruKey, hlast]
          rfl
        · rw [LruList.evictLru, hlast]
    | some e => exact absurd ⟨e.1, e.2, (h.oldest_iff e.1 e.2).mpr hlast⟩ hnone

/-- The key `a` twice and `b` between; then the first node is touched. -/
def repeatedKey : List LruOp :=
  [.insert (ascii "a"), .insert (ascii "b"), .insert (ascii "a"), .touch 0, .evictLru]

theorem lruList_recency_repeated :
    ∃ r, Loop.follow LruRun.step {} repeatedKey = some r ∧
      r.lru.list = [(0, ascii "a"), (2, ascii "a")] ∧ r.history.head? = some (.evicted 1) ∧
      r.lru.list.Pairwise (fun a b => lastUse r.history b.1 < lastUse r.history a.1) ∧
      r.lru.size = r.history.countP (·.isInsert) - r.history.countP (·.left.isSome) := by
  have hrun : Loop.follow LruRun.step {} repeatedKey = some _ := rfl
  obtain ⟨-, -, hordered, -, -, hsize, -⟩ := lruList_recency hrun
  exact ⟨_, hrun, rfl, rfl, hordered, hsize⟩

end RedisCache.Storage
