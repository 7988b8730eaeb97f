import Mathlib
import RedisCache.Storage.Invariant

/-!
# What the sections do to lookups

One lemma a section: which keys find what afterwards. The handles do not
matter here, so an entry shows as its `item`: the value, and the deadline if
there is one.
-/

namespace RedisCache.Storage

namespace Shard

/-- `set_locked` changes one key. The entry keeps its node or gets a new one. -/
theorem setLocked_find (sh : Shard) (key value : Bytes) (expiresAt : Int) :
    ∃ n, ∀ k, (sh.setLocked key value expiresAt).map.find k =
      if k = key then some ⟨value, expiresAt, n⟩ else sh.map.find k := by
  unfold setLocked
  cases he : sh.map.find key with
  | none =>
      refine ⟨some sh.lru.next, fun k => ?_⟩
      simp [LruList.insert]
  | some e =>
      refine ⟨e.lruNode, fun k => ?_⟩
      simp

/-- Leaving the shard alone on a missing key is the same as removing it. -/
theorem find_missing {sh : Shard} {key : Bytes} (he : sh.map.find key = none) (k : Bytes) :
    sh.map.find k = if k = key then none else sh.map.find k := by
  split
  · rename_i hk
    rw [hk, he]
  · rfl

/-- `get` only ever removes, and only an expired entry. -/
theorem getExclusive_find (sh : Shard) (key : Bytes) (now : Int) (k : Bytes) :
    (sh.getExclusive key now).2.map.find k =
      if k = key then (sh.map.find key).filter (fun e => !e.isExpired now)
      else sh.map.find k := by
  unfold getExclusive
  cases he : sh.map.find key with
  | none => exact find_missing he k
  | some e =>
      by_cases hexp : e.isExpired now = true
      · simp [hexp, Option.filter_some]
      · by_cases hk : k = key
        · simp [hk, he, hexp, Option.filter_some]
        · simp [hk, hexp]

theorem del_find (sh : Shard) (key k : Bytes) :
    (sh.del key).2.map.find k = if k = key then none else sh.map.find k := by
  unfold del
  cases he : sh.map.find key with
  | none => exact find_missing he k
  | some e => simp

/-- `expire` rewrites the deadline of a live entry. -/
theorem expire_find (sh : Shard) (key : Bytes) (ttlMs now now' : Int) (k : Bytes) :
    (sh.expire key ttlMs now now').2.map.find k =
      if k = key then
        (sh.map.find key).map fun e =>
          if e.isExpired now then e else { e with expiresAtMs := i64 (now' + ttlMs) }
      else sh.map.find k := by
  unfold expire
  cases he : sh.map.find key with
  | none => exact find_missing he k
  | some e =>
      by_cases hk : k = key
      · by_cases hexp : e.isExpired now = true
        · simp [hk, he, hexp]
        · simp [hk, hexp]
      · by_cases hexp : e.isExpired now = true
        · simp [hk, hexp]
        · simp [hk, hexp]

theorem existsKey_eq (sh : Shard) (key : Bytes) (now : Int) :
    sh.existsKey key now = ((sh.map.find key).filter fun e => !e.isExpired now).isSome := by
  unfold existsKey
  cases sh.map.find key with
  | none => rfl
  | some e =>
      by_cases hexp : e.isExpired now = true
      · simp [hexp, Option.filter_some]
      · simp [hexp, Option.filter_some]

/-- `expire` answers what `exists` would. -/
theorem expire_fst (sh : Shard) (key : Bytes) (ttlMs now now' : Int) :
    (sh.expire key ttlMs now now').1 = sh.existsKey key now := by
  unfold expire existsKey
  cases sh.map.find key with
  | none => rfl
  | some e =>
      by_cases hexp : e.isExpired now = true
      · simp [hexp]
      · simp [hexp]

/-- The number `incr` starts from: `0` for a missing or expired entry, `none`
when the value does not start with a number. -/
def counterOf (sh : Shard) (key : Bytes) (now : Int) : Option Int :=
  match (sh.map.find key).filter fun e => !e.isExpired now with
  | none => some 0
  | some e =>
      let r := Decimal.fromChars 0 e.value
      if r.ec ≠ none then none else some r.value

/-- `incr` as one function of that number. -/
theorem incr_eq (sh : Shard) (key : Bytes) (now : Int) :
    (sh.incr key now).1 = (sh.counterOf key now).map fun n => i64 (n + 1) := by
  unfold incr counterOf bump
  cases he : sh.map.find key with
  | none => simp
  | some e =>
      by_cases hexp : e.isExpired now = true
      · simp [hexp, Option.filter_some]
      · by_cases hec : (Decimal.fromChars 0 e.value).ec = none
        · simp [hexp, hec, Option.filter_some]
        · simp [hexp, hec, Option.filter_some]

theorem incr_find_none {sh : Shard} {key : Bytes} {now : Int}
    (h : sh.counterOf key now = none) : (sh.incr key now).2 = sh := by
  unfold counterOf at h
  unfold incr
  cases he : sh.map.find key with
  | none => simp [he] at h
  | some e =>
      by_cases hexp : e.isExpired now = true
      · simp [he, hexp, Option.filter_some] at h
      · by_cases hec : (Decimal.fromChars 0 e.value).ec = none
        · simp [he, hexp, hec, Option.filter_some] at h
        · simp [hexp, hec]

theorem incr_find_some {sh : Shard} {key : Bytes} {now c : Int}
    (h : sh.counterOf key now = some c) :
    ∃ n, ∀ k, (sh.incr key now).2.map.find k =
      if k = key then some ⟨Decimal.ofInt (i64 (c + 1)), -1, n⟩ else sh.map.find k := by
  unfold counterOf at h
  unfold incr bump
  cases he : sh.map.find key with
  | none =>
      obtain rfl : c = 0 := by simpa [he, eq_comm] using h
      exact setLocked_find sh key _ _
  | some e =>
      by_cases hexp : e.isExpired now = true
      · -- the dead entry goes first, which no other key notices
        obtain rfl : c = 0 := by simpa [he, hexp, Option.filter_some, eq_comm] using h
        obtain ⟨n, hn⟩ := setLocked_find (sh.removeEntry key e) key
          (Decimal.ofInt (i64 (0 + 1))) (-1)
        refine ⟨n, fun k => ?_⟩
        simp only [hexp, if_true]
        rw [hn k]
        by_cases hk : k = key
        · simp [hk]
        · simp [hk]
      · by_cases hec : (Decimal.fromChars 0 e.value).ec = none
        · obtain rfl : (Decimal.fromChars 0 e.value).value = c := by
            simpa [he, hexp, hec, Option.filter_some] using h
          simpa [hexp, hec] using setLocked_find sh key _ _
        · simp [he, hexp, hec, Option.filter_some] at h

theorem flush_find (sh : Shard) (k : Bytes) : sh.flush.map.find k = none := by
  simp [flush]

/-- Eviction only removes. -/
theorem evict_find (sh : Shard) (k : Bytes) :
    sh.evict.map.find k = none ∨ sh.evict.map.find k = sh.map.find k := by
  unfold evict
  split
  · exact Or.inr rfl
  · cases hev : sh.lru.evictLru with
    | none => exact Or.inr rfl
    | some x =>
        obtain ⟨key, lru⟩ := x
        simp only
        cases he : sh.map.find key with
        | none => exact Or.inr rfl
        | some e =>
            simp only [deleteNode_map, Map.find_erase]
            by_cases hk : k = key
            · exact Or.inl (if_pos hk)
            · exact Or.inr (if_neg hk)

end Shard

end RedisCache.Storage
