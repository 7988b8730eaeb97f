import Mathlib
import RedisCache.Storage.Store
import RedisCache.Storage.Lookup

/-!
# The store under threads

`Valid P i sh` is what shard `i` is between two sections: consistent, and
holding only keys that hash to it, with deadlines that are `int64_t`s. Every
section of every call keeps it from ANY valid shard — not only from the one the
call saw before — so every program of calls is `Safe`, and the store is valid
under every schedule.

`Represented` spells the invariant out in the terms of the data structures.
-/

namespace RedisCache.Storage

open Sections

/-- Shard `i` between two sections. -/
structure Valid (P : Platform) (i : Index) (sh : Shard) : Prop where
  consistent : sh.Consistent
  placed : ∀ k e, sh.map.find k = some e → Store.shardFor P k = i
  ranged : ∀ k e, sh.map.find k = some e → Decimal.InRange e.expiresAtMs

namespace Valid

variable {P : Platform} {i : Index} {sh : Shard}

theorem empty (P : Platform) (i : Index) : Valid P i {} :=
  ⟨.empty, fun k e h => by simp at h, fun k e h => by simp at h⟩

/-- A section that writes one key, in that key's shard. -/
theorem write {sh' : Shard} {key : Bytes} {o : Option Entry}
    (h : Valid P (Store.shardFor P key) sh) (hc : sh'.Consistent)
    (hfind : ∀ k, sh'.map.find k = if k = key then o else sh.map.find k)
    (ho : ∀ e, o = some e → Decimal.InRange e.expiresAtMs) :
    Valid P (Store.shardFor P key) sh' := by
  refine ⟨hc, fun k e he => ?_, fun k e he => ?_⟩
  · rw [hfind k] at he
    by_cases hk : k = key
    · rw [hk]
    · rw [if_neg hk] at he
      exact h.placed k e he
  · rw [hfind k] at he
    split at he
    · exact ho e he
    · exact h.ranged k e he

/-- A section that only removes keys. -/
theorem shrink {sh' : Shard} (h : Valid P i sh) (hc : sh'.Consistent)
    (hfind : ∀ k, sh'.map.find k = none ∨ sh'.map.find k = sh.map.find k) : Valid P i sh' := by
  have hold : ∀ k e, sh'.map.find k = some e → sh.map.find k = some e := by
    intro k e he
    rcases hfind k with hnone | hsame
    · rw [hnone] at he
      cases he
    · rw [← hsame, he]
  exact ⟨hc, fun k e he => h.placed k e (hold k e he), fun k e he => h.ranged k e (hold k e he)⟩

theorem setLocked {key : Bytes} (h : Valid P (Store.shardFor P key) sh) (value : Bytes)
    {expiresAt : Int} (hexp : Decimal.InRange expiresAt) :
    Valid P (Store.shardFor P key) (sh.setLocked key value expiresAt) := by
  obtain ⟨n, hn⟩ := sh.setLocked_find key value expiresAt
  refine h.write (h.consistent.setLocked _ _ _) hn ?_
  rintro e ⟨rfl⟩
  exact hexp

theorem getExclusive {key : Bytes} (h : Valid P (Store.shardFor P key) sh) (now : Int) :
    Valid P (Store.shardFor P key) (sh.getExclusive key now).2 :=
  h.write (h.consistent.getExclusive _ _) (sh.getExclusive_find key now)
    fun e he => h.ranged key e (Option.filter_eq_some_iff.mp he).1

theorem del {key : Bytes} (h : Valid P (Store.shardFor P key) sh) :
    Valid P (Store.shardFor P key) (sh.del key).2 :=
  h.write (h.consistent.del _) (sh.del_find key) fun e he => by cases he

theorem expire {key : Bytes} (h : Valid P (Store.shardFor P key) sh) (ttlMs now now' : Int) :
    Valid P (Store.shardFor P key) (sh.expire key ttlMs now now').2 := by
  refine h.write (h.consistent.expire _ _ _ _) (sh.expire_find key ttlMs now now') fun e he => ?_
  obtain ⟨e₀, he₀, rfl⟩ := Option.map_eq_some_iff.mp he
  split
  · exact h.ranged key e₀ he₀
  · exact i64_inRange _

theorem incr {key : Bytes} (h : Valid P (Store.shardFor P key) sh) (now : Int) :
    Valid P (Store.shardFor P key) (sh.incr key now).2 := by
  cases hc : sh.counterOf key now with
  | none =>
      rw [Shard.incr_find_none hc]
      exact h
  | some c =>
      obtain ⟨n, hn⟩ := Shard.incr_find_some hc
      refine h.write (h.consistent.incr _ _) hn ?_
      rintro e ⟨rfl⟩
      exact (by decide : Decimal.InRange (-1))

theorem flush (h : Valid P i sh) : Valid P i sh.flush :=
  h.shrink h.consistent.flush fun k => Or.inl (sh.flush_find k)

theorem sweepExpired (h : Valid P i sh) (now : Int) : Valid P i (sh.sweepExpired now) := by
  refine h.shrink (h.consistent.sweepExpired now) fun k => ?_
  rw [Shard.sweepExpired_find h.consistent]
  cases sh.map.find k with
  | none => exact Or.inl rfl
  | some e =>
      by_cases hexp : e.isExpired now = true
      · exact Or.inl (by simp [hexp, Option.filter_some])
      · exact Or.inr (by simp [hexp, Option.filter_some])

theorem evict (h : Valid P i sh) : Valid P i sh.evict :=
  h.shrink h.consistent.evict sh.evict_find

end Valid

/-! ## Every call is safe -/

namespace Store

variable (P : Platform) (maxKeys : Nat)

theorem empty_valid (i : Index) : Valid P i (empty i) := Valid.empty P i

theorem sizes_safe : Safe (Valid P) sizes := Safe.eachCell (fun _ _ h => h) _

theorem size_safe : Safe (Valid P) size := Safe.bind (sizes_safe P) fun _ => Safe.pure _

theorem maybeEvict_safe : Safe (Valid P) (maybeEvict maxKeys) := by
  refine Safe.bind (size_safe P) fun approx => ?_
  split
  · exact Safe.pure _
  · -- whichever shard the scan picked, and whatever it holds by now
    exact Safe.bind (sizes_safe P) fun _ => Safe.locked fun _ _ h => h.evict

theorem expiresAt_safe (ttlMs : Int) : Safe (Valid P) (expiresAt ttlMs) := by
  unfold expiresAt
  split
  · exact Safe.bind Safe.now fun _ => Safe.pure _
  · exact Safe.pure _

theorem expiresAt_inRange (ttlMs : Int) : Ensures Decimal.InRange (expiresAt ttlMs) := by
  unfold expiresAt
  split
  · exact (Ensures.any _).bind fun now _ => Ensures.pure (i64_inRange _)
  · exact Ensures.pure (by decide)

theorem set_safe (key value : Bytes) (ttlMs : Int) :
    Safe (Valid P) (set P maxKeys key value ttlMs) :=
  Safe.bind (maybeEvict_safe P maxKeys) fun _ =>
    Safe.bind_of (expiresAt_safe P ttlMs) (expiresAt_inRange ttlMs) fun _ hexp =>
      Safe.locked fun _ _ h => h.setLocked _ hexp

theorem get_safe (key : Bytes) : Safe (Valid P) (get P key) := by
  refine Safe.bind (Safe.locked fun _ _ h => h) fun r => ?_
  cases r with
  | some r => exact Safe.pure _
  | none => exact Safe.locked fun t _ h => h.getExclusive _

theorem del_safe (key : Bytes) : Safe (Valid P) (del P key) :=
  Safe.locked fun _ _ h => h.del

theorem existsKey_safe (key : Bytes) : Safe (Valid P) (existsKey P key) :=
  Safe.locked fun _ _ h => h

theorem ttl_safe (key : Bytes) : Safe (Valid P) (ttl P key) :=
  Safe.locked fun _ _ h => h

theorem expire_safe (key : Bytes) (ttlMs : Int) : Safe (Valid P) (expire P key ttlMs) :=
  Safe.locked fun _ _ h => h.expire _ _ _

theorem incr_safe (key : Bytes) : Safe (Valid P) (incr P key) :=
  Safe.locked fun _ _ h => h.incr _

theorem keys_safe (pattern : Bytes) : Safe (Valid P) (keys P pattern) :=
  Safe.bind Safe.now fun _ =>
    Safe.bind (Safe.eachCell (fun _ _ h => h) _) fun _ => Safe.pure _

theorem flush_safe : Safe (Valid P) flush :=
  Safe.bind (Safe.eachCell (fun _ _ h => h.flush) _) fun _ => Safe.pure _

theorem sweepExpired_safe : Safe (Valid P) sweepExpired :=
  Safe.bind Safe.now fun _ =>
    Safe.bind (Safe.eachCell (fun _ _ h => h.sweepExpired _) _) fun _ => Safe.pure _

theorem forEach_safe : Safe (Valid P) forEach :=
  Safe.bind Safe.now fun _ =>
    Safe.bind (Safe.eachCell (fun _ _ h => h) _) fun _ => Safe.pure _

end Store

theorem Call.prog_safe (P : Platform) (maxKeys : Nat) (c : Call) :
    Safe (Valid P) (c.prog P maxKeys) := by
  cases c with
  | set key value ttlMs => exact Safe.bind (Store.set_safe P maxKeys _ _ _) fun _ => Safe.pure _
  | get key => exact Safe.map (Store.get_safe P key)
  | del key => exact Safe.map (Store.del_safe P key)
  | existsKey key => exact Safe.map (Store.existsKey_safe P key)
  | ttl key => exact Safe.map (Store.ttl_safe P key)
  | expire key ttlMs => exact Safe.map (Store.expire_safe P key ttlMs)
  | incr key => exact Safe.map (Store.incr_safe P key)
  | keys pattern => exact Safe.map (Store.keys_safe P pattern)
  | flush => exact Safe.bind (Store.flush_safe P) fun _ => Safe.pure _
  | sweepExpired => exact Safe.bind (Store.sweepExpired_safe P) fun _ => Safe.pure _
  | forEach => exact Safe.map (Store.forEach_safe P)
  | size => exact Safe.map (Store.size_safe P)

theorem Client.prog_safe (P : Platform) (maxKeys : Nat) (cl : Client) :
    Safe (Valid P) (cl.prog P maxKeys) := by
  induction cl with
  | done => exact Safe.pure _
  | call c next ih => exact Safe.bind (c.prog_safe P maxKeys) ih

/-! ## The invariant spelled out -/

/-- Shard `i` in the terms of its data structures. -/
structure Represented (P : Platform) (i : Index) (sh : Shard) : Prop where
  /-- No key is in the LRU list twice. -/
  keys_nodup : sh.lru.keys.Nodup
  /-- The list holds the keys of the map. -/
  keys_perm : sh.lru.keys.Perm sh.map.keys
  /-- Every entry's handle is a live cell that designates a node still in the
  list, and that node holds the entry's key. -/
  handle : ∀ k e, sh.map.find k = some e →
    ∃ n, e.lruNode = some n ∧ n ∈ sh.cells ∧ (n, k) ∈ sh.lru.list
  /-- One node, one element of the list. -/
  nodes_nodup : sh.lru.nodes.Nodup
  /-- Two entries do not share a node. -/
  handle_inj : ∀ k k' e e', sh.map.find k = some e → sh.map.find k' = some e' →
    e.lruNode = e'.lruNode → k = k'
  /-- Keys live in the shard they hash to. -/
  placed : ∀ k ∈ sh.map.keys, P.hash k % 16 = i
  /-- No section used, erased or deleted a node or a cell that was gone, and
  none evicted from an empty list. -/
  no_fault : sh.fault = none

theorem Map.mem_keys {m : Map} {k : Bytes} : k ∈ m.keys ↔ ∃ e, m.find k = some e := by
  rw [← AList.mem_keys, ← AList.lookup_isSome, Option.isSome_iff_exists]
  rfl

/-- Node after node, the keys of the list are the keys of the map, each once. -/
theorem Shard.Consistent.keys_nodup {sh : Shard} (h : sh.Consistent) : sh.lru.keys.Nodup := by
  refine List.Nodup.map_on ?_ (List.Nodup.of_map _ h.distinct)
  rintro ⟨n, k⟩ hx ⟨n', k'⟩ hy hk
  obtain rfl : k = k' := hk
  obtain ⟨e, he, hn⟩ := (h.linked n k).mp hx
  obtain ⟨e', he', hn'⟩ := (h.linked n' k).mp hy
  obtain rfl : e = e' := by simpa [he] using he'
  obtain rfl : n = n' := by simpa [hn] using hn'
  rfl

theorem Shard.Consistent.mem_lru_keys {sh : Shard} (h : sh.Consistent) (k : Bytes) :
    k ∈ sh.lru.keys ↔ k ∈ sh.map.keys := by
  rw [Map.mem_keys, LruList.keys, List.mem_map]
  constructor
  · rintro ⟨⟨n, k'⟩, hx, rfl⟩
    obtain ⟨e, he, -⟩ := (h.linked n k').mp hx
    exact ⟨e, he⟩
  · rintro ⟨e, he⟩
    obtain ⟨n, -, hmem, -, -⟩ := h.node he
    exact ⟨(n, k), hmem, rfl⟩

theorem Valid.represented {P : Platform} {i : Index} {sh : Shard} (h : Valid P i sh) :
    Represented P i sh where
  keys_nodup := h.consistent.keys_nodup
  keys_perm := (List.perm_ext_iff_of_nodup h.consistent.keys_nodup sh.map.nodupKeys).mpr
    h.consistent.mem_lru_keys
  handle k e he := by
    obtain ⟨n, hn, hmem, -, hcell⟩ := h.consistent.node he
    exact ⟨n, hn, hcell, hmem⟩
  nodes_nodup := h.consistent.distinct
  handle_inj k k' e e' he he' heq := by
    obtain ⟨n, hn, hmem, -, -⟩ := h.consistent.node he
    have hmem' := (h.consistent.linked n k').mpr ⟨e', he', heq ▸ hn⟩
    exact LruList.eq_of_mem h.consistent.distinct hmem hmem'
  placed k hk := by
    obtain ⟨e, he⟩ := Map.mem_keys.mp hk
    rw [← h.placed k e he]
    rfl
  no_fault := h.consistent.no_fault

/-! ## Any threads, any schedule -/

/-- The server's threads over a fresh store. -/
def Store.start (P : Platform) (maxKeys : Nat) {τ : Type} (clients : τ → Client) :
    Pool Index Shard τ Unit :=
  { cells := Store.empty, threads := fun t => (clients t).prog P maxKeys }

theorem Store.run_valid (P : Platform) (maxKeys : Nat) {τ : Type} [DecidableEq τ]
    (clients : τ → Client) (sched : List (τ × (Nat → Int))) (i : Index) :
    Valid P i (((Store.start P maxKeys clients).run sched).cells i) :=
  Pool.run_safe (Store.empty_valid P) (fun t => (clients t).prog_safe P maxKeys) sched i

/-- **The representation invariant of the store.** Whatever the threads call,
with whatever arguments, however their sections interleave and whatever the
clock shows: between sections map, list and handles of every shard agree,
keys are where they hash to, and nothing has gone wrong so far. -/
theorem store_represented (P : Platform) (maxKeys : Nat) {τ : Type} [DecidableEq τ]
    (clients : τ → Client) (sched : List (τ × (Nat → Int))) (i : Index) :
    Represented P i (((Store.start P maxKeys clients).run sched).cells i) :=
  (Store.run_valid P maxKeys clients sched i).represented

end RedisCache.Storage
