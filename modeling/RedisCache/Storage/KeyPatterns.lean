import Mathlib
import RedisCache.Lib.Glob
import RedisCache.Storage.Contents

/-!
# KEYS and its pattern

`keys` hands the pattern and every live key to `fnmatch`, a C function, which
sees them up to their first NUL. Keys and patterns may hold any bytes, so two
keys that differ behind a NUL only are one to it. For every way to read glob
patterns that `fnmatch` implements on the strings it can be given,
`keys_exact_iff` says when the keys found are those that match: always if there
is no NUL, and otherwise if cutting pattern and key does not matter. The test
for `*` in front of `fnmatch` changes nothing.
-/

namespace RedisCache.Storage

open Sections TimedMap Glob

/-- `fnmatch` decides the patterns `G` on NUL-terminated strings. -/
def Decides (P : Platform) (G : Glob.Semantics) : Prop :=
  ∀ p s : Bytes, 0 ∉ p → 0 ∉ s → (P.fnmatch p s = true ↔ G.Matches p s)

namespace Shard

theorem zero_notMem_cStr (s : Bytes) : 0 ∉ cStr s := by
  intro hmem
  have := List.mem_takeWhile_imp hmem
  simp at this

theorem cStr_of_notMem {s : Bytes} (h : 0 ∉ s) : cStr s = s := by
  refine List.takeWhile_eq_self_iff.mpr fun c hc => ?_
  simpa using ne_of_mem_of_not_mem hc h

theorem plain_cStr {p : Bytes} (h : Plain p) : Plain (cStr p) :=
  fun c hc => h c (List.takeWhile_sublist _ |>.subset hc)

end Shard

open Shard

section Keys

variable {P : Platform} {G : Glob.Semantics} {s : Shards}

/-- `keys` finds the keys that match when cut at their first NUL. -/
theorem exec_keys_cut (hfn : Decides P G) (hs : ∀ i, Valid P i (s i)) (now : Int) (p : Bytes) :
    ∃ ks, (Store.keys P p).exec now s = (ks, s) ∧ ks.Nodup ∧
      ∀ k, k ∈ ks ↔ (live now (view P s) k).isSome ∧ G.Matches (cStr p) (cStr k) := by
  obtain ⟨ks, hrun, hnodup, hmem⟩ := Store.exec_keys P hs now p
  refine ⟨ks, hrun, hnodup, fun k => ?_⟩
  rw [hmem, hfn _ _ (zero_notMem_cStr p) (zero_notMem_cStr k)]
  refine and_congr_right fun _ => ⟨?_, Or.inr⟩
  rintro (rfl | hmatch)
  · exact G.star _
  · exact hmatch

/-- What `keys` finds for a pattern without special characters. -/
theorem plain_keys_iff {p : Bytes} (hp : Plain p) {m : Bytes → Option (Item Bytes)}
    {ks : List Bytes} (hnodup : ks.Nodup)
    (hmem : ∀ k, k ∈ ks ↔ (m k).isSome ∧ G.Matches (cStr p) (cStr k)) :
    (ks = if (m p).isSome then [p] else []) ↔
      ∀ k, (m k).isSome → cStr k = cStr p → k = p := by
  simp only [G.plain (plain_cStr hp)] at hmem
  constructor
  · intro hks k hlive hcut
    have hk : k ∈ ks := (hmem k).mpr ⟨hlive, hcut⟩
    rw [hks] at hk
    split at hk
    · exact List.mem_singleton.mp hk
    · cases hk
  · intro hone
    have honly : ∀ k, k ∈ ks ↔ (m k).isSome ∧ k = p := fun k => by
      rw [hmem]
      exact and_congr_right fun hlive => ⟨hone k hlive, congrArg cStr⟩
    split
    · rename_i hlive
      refine List.perm_singleton.mp
        ((List.perm_ext_iff_of_nodup hnodup (List.nodup_singleton p)).mpr fun k => ?_)
      rw [honly, List.mem_singleton]
      exact ⟨And.right, fun hk => ⟨hk ▸ hlive, hk⟩⟩
    · rename_i hdead
      refine List.eq_nil_iff_forall_not_mem.mpr fun k hk => ?_
      obtain ⟨hlive, rfl⟩ := (honly k).mp hk
      exact hdead hlive

end Keys

/-- **KEYS and binary keys.** `keys(p)` has no duplicate. It holds exactly the
live keys that match `p` if and only if cutting `p` and a live key at their first
NUL never changes whether they match, so always if there is no NUL. For a
pattern without special characters it is `p` or nothing exactly if no other live
key looks like `p` up to the first NUL. -/
theorem keys_exact_iff {P : Platform} {G : Glob.Semantics} (hfn : Decides P G) {s : Shards}
    (hs : ∀ i, Valid P i (s i)) (now : Int) (p : Bytes) :
    ∃ ks, (Store.keys P p).exec now s = (ks, s) ∧ ks.Nodup ∧
      ((∀ k, k ∈ ks ↔ (live now (view P s) k).isSome ∧ G.Matches p k) ↔
        ∀ k, (live now (view P s) k).isSome →
          (G.Matches (cStr p) (cStr k) ↔ G.Matches p k)) ∧
      (0 ∉ p → (∀ k, (live now (view P s) k).isSome → 0 ∉ k) →
        ∀ k, k ∈ ks ↔ (live now (view P s) k).isSome ∧ G.Matches p k) ∧
      (Plain p → ((ks = if (live now (view P s) p).isSome then [p] else []) ↔
        ∀ k, (live now (view P s) k).isSome → cStr k = cStr p → k = p)) := by
  obtain ⟨ks, hrun, hnodup, hmem⟩ := exec_keys_cut hfn hs now p
  have hexact : (∀ k, k ∈ ks ↔ (live now (view P s) k).isSome ∧ G.Matches p k) ↔
      ∀ k, (live now (view P s) k).isSome → (G.Matches (cStr p) (cStr k) ↔ G.Matches p k) := by
    refine forall_congr' fun k => ?_
    rw [hmem]
    exact and_congr_right_iff
  refine ⟨ks, hrun, hnodup, hexact, fun hp hlive => hexact.mpr fun k hk => ?_,
    fun hplain => plain_keys_iff hplain hnodup hmem⟩
  rw [cStr_of_notMem hp, cStr_of_notMem (hlive k hk)]

/-- A platform whose `fnmatch` takes shell patterns. -/
def shellPlatform : Platform :=
  { Platform.concrete with fnmatch := fun p s => decide (shell.Matches p s) }

theorem shellPlatform_decides : Decides shellPlatform shell := fun _ _ _ _ => decide_eq_true_iff

/-- The keys `a` and `a NUL b`. -/
def nulKeys : Shards :=
  ((Store.set shellPlatform 4 [97, 0, 98] (ascii "2") (-1)).exec 0
    ((Store.set shellPlatform 4 (ascii "a") (ascii "1") (-1)).exec 0 Store.empty).2).2

theorem nulKeys_valid : ∀ i, Valid shellPlatform i (nulKeys i) :=
  (Store.set_safe shellPlatform 4 _ _ _).exec 0
    ((Store.set_safe shellPlatform 4 _ _ _).exec 0 (Store.empty_valid shellPlatform))

theorem keys_exact_star :
    ∃ ks, (Store.keys shellPlatform (ascii "*")).exec 0 nulKeys = (ks, nulKeys) ∧ ks.Nodup ∧
      ∀ k, k ∈ ks ↔ (live 0 (view shellPlatform nulKeys) k).isSome ∧
        shell.Matches (ascii "*") k := by
  obtain ⟨ks, hrun, hnodup, hexact, -⟩ :=
    keys_exact_iff shellPlatform_decides nulKeys_valid 0 (ascii "*")
  exact ⟨ks, hrun, hnodup, hexact.mpr fun k _ => iff_of_true (shell.star _) (shell.star _)⟩

/-- `KEYS a` finds both keys, and so does `KEYS` with the longer one. -/
theorem keys_cut_at_nul :
    ((Store.keys shellPlatform (ascii "a")).exec 0 nulKeys).1 = [ascii "a", [97, 0, 98]] ∧
    ¬ shell.Matches (ascii "a") [97, 0, 98] ∧
    ((Store.keys shellPlatform [97, 0, 98]).exec 0 nulKeys).1 = [ascii "a", [97, 0, 98]] ∧
    ¬ shell.Matches [97, 0, 98] (ascii "a") := by
  decide +kernel

end RedisCache.Storage
