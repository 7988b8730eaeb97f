import Mathlib
import RedisCache.Platform

/-!
# The LRU list

`LruList` is a `std::list<std::string>`, front most recently used. The
source hands out iterators and relies on their being stable until their
node is erased, so the model gives every node an IDENTITY: a number that
`insert` takes from a counter and never gives out again. `next` is that
counter; it is the allocator's, not a field of the class, and clearing the
list does not reset it.
-/

namespace RedisCache.Storage

/-- What stands for a `std::list` iterator. -/
abbrev Node := Nat

structure LruList where
  list : List (Node × Bytes) := []
  next : Node := 0

namespace LruList

def nodes (l : LruList) : List Node := l.list.map Prod.fst

def keys (l : LruList) : List Bytes := l.list.map Prod.snd

/-- `push_front`; the new node comes back. -/
def insert (l : LruList) (key : Bytes) : Node × LruList :=
  (l.next, ⟨(l.next, key) :: l.list, l.next + 1⟩)

/-- `splice` the node to the front. -/
def touch (l : LruList) (n : Node) : LruList :=
  { l with list := l.list.filter (·.1 == n) ++ l.list.filter (·.1 != n) }

/-- `erase` the node. -/
def remove (l : LruList) (n : Node) : LruList :=
  { l with list := l.list.filter (·.1 != n) }

def empty (l : LruList) : Bool := l.list.isEmpty

def size (l : LruList) : Nat := l.list.length

/-- The key at the back; `none` is the `std::runtime_error` of an empty list. -/
def lruKey (l : LruList) : Option Bytes := l.list.getLast?.map Prod.snd

/-- Pop the back and return its key; `none` is the `std::runtime_error` of an
empty list. -/
def evictLru (l : LruList) : Option (Bytes × LruList) :=
  match l.list.getLast? with
  | none => none
  | some e => some (e.2, { l with list := l.list.dropLast })

/-- `LruList{}` in place of the old list. -/
def clear (l : LruList) : LruList := { l with list := [] }

theorem mem_nodes {l : LruList} {n : Node} : n ∈ l.nodes ↔ ∃ k, (n, k) ∈ l.list := by
  simp [nodes]

theorem touch_perm (l : LruList) (n : Node) : (l.touch n).list.Perm l.list := by
  have h := List.filter_append_perm (fun e : Node × Bytes => e.1 == n) l.list
  simpa [touch, bne] using h

theorem mem_remove {l : LruList} {n : Node} {e : Node × Bytes} :
    e ∈ (l.remove n).list ↔ e ∈ l.list ∧ e.1 ≠ n := by
  simp [remove]

theorem remove_nodes (l : LruList) (n : Node) :
    (l.remove n).nodes = l.nodes.filter (· != n) := by
  simp only [nodes, remove, List.filter_map]
  rfl

/-- With distinct nodes, a node names one element. -/
theorem eq_of_mem {l : LruList} (h : l.nodes.Nodup) {n : Node} {k k' : Bytes}
    (hk : (n, k) ∈ l.list) (hk' : (n, k') ∈ l.list) : k = k' := by
  have := List.inj_on_of_nodup_map h hk hk' rfl
  exact congrArg Prod.snd this

end LruList

end RedisCache.Storage
