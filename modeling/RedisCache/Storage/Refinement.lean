import Mathlib
import RedisCache.Storage.Contents

/-!
# The store refines a plain map with deadlines

The abstract store is one map from keys to items in which an item simply is
not there once its deadline has come. The real one keeps dead entries in its
shards until some operation happens to reclaim them.

* `Spec.apply` / `Spec.Answers` — the abstract store: what a call leaves
  behind, and what it may answer;
* `Legal` — what a caller owes: room below `max_keys_` for a `set`,
  deadlines and counters that are `int64_t`s;
* `Refines` — the relation between the two, kept by every legal call
  (`Refines.step`) and so by every run.
-/

namespace RedisCache.Storage

open Sections TimedMap

/-- The abstract store. -/
abbrev Spec := Bytes → Option (Item Bytes)

namespace Spec

/-- What a call at `now` makes of the map. -/
def apply (now : Int) (m : Spec) : Call → Spec
  | .set key value ttlMs =>
      Function.update m key (some ⟨value, if 0 < ttlMs then some (now + ttlMs) else none⟩)
  | .del key => Function.update m key none
  | .expire key ttlMs =>
      match live now m key with
      | none => m
      | some it => Function.update m key (some { it with deadline := some (now + ttlMs) })
  | .incr key =>
      match Store.counterOf now m key with
      | none => m
      | some n => Function.update m key (some ⟨Decimal.ofInt (n + 1), none⟩)
  | .flush => fun _ => none
  | .get _ | .existsKey _ | .ttl _ | .keys _ | .sweepExpired | .forEach | .size => m

/-- What a call at `now` may return. The Boolean of `del` and the number of
`size` count dead entries too, and are left open. -/
def Answers (P : Platform) (now : Int) (m : Spec) (c : Call) (r : Reply) : Prop :=
  match c with
  | .get key => r = .value ((live now m key).map Item.value)
  | .existsKey key => r = .flag (live now m key).isSome
  | .ttl key => r = .number (Store.remaining now (live now m key))
  | .expire key _ => r = .flag (live now m key).isSome
  | .incr key => r = .counter ((Store.counterOf now m key).map (· + 1))
  | .keys pattern =>
      ∃ ks, r = .names ks ∧ ks.Nodup ∧ ∀ k, k ∈ ks ↔ (live now m k).isSome ∧
        (pattern = ascii "*" ∨ P.fnmatch (Shard.cStr pattern) (Shard.cStr k) = true)
  | .forEach =>
      ∃ rs, r = .records rs ∧ (rs.map Prod.fst).Nodup ∧
        ∀ k it, live now m k = some it ↔ ∃ x ∈ rs, x.1 = k ∧ Store.recordItem x = it
  | .del _ => ∃ b, r = .flag b
  | .size => ∃ n, r = .count n
  | .set _ _ _ | .flush | .sweepExpired => r = .unit

end Spec

/-- What the caller of a call at `now` owes. -/
def Legal (P : Platform) (maxKeys : Nat) (now : Int) (s : Shards) : Call → Prop
  | .set _ _ ttlMs => (Store.size.exec now s).1 < maxKeys ∧ (0 < ttlMs → now + ttlMs < 2 ^ 63)
  | .expire _ ttlMs => 0 ≤ now + ttlMs ∧ now + ttlMs < 2 ^ 63
  | .incr key => ∀ v, ((Store.get P key).exec now s).1 = some v →
      (Decimal.fromChars 0 v).value ≠ 2 ^ 63 - 1
  | _ => True

/-- The store behind the calls `steps`, each at its clock reading. -/
def runStore (P : Platform) (maxKeys : Nat) (s : Shards) (steps : List (Int × Call)) : Shards :=
  steps.foldl (fun s e => ((e.2.prog P maxKeys).exec e.1 s).2) s

def runSpec (m : Spec) (steps : List (Int × Call)) : Spec :=
  steps.foldl (fun m e => Spec.apply e.1 m e.2) m

/-- A run of legal calls from `s`, the clock showing `last` so far and never
going back. -/
def Admissible (P : Platform) (maxKeys : Nat) :
    Int → Shards → List (Int × Call) → Prop
  | _, _, [] => True
  | last, s, (now, c) :: rest =>
      last ≤ now ∧ now < 2 ^ 63 ∧ Legal P maxKeys now s c ∧
        Admissible P maxKeys now ((c.prog P maxKeys).exec now s).2 rest

/-! ## The relation -/

/-- `s` stands for `m` at `now`. -/
structure Refines (P : Platform) (now : Int) (s : Shards) (m : Spec) : Prop where
  valid : ∀ i, Valid P i (s i)
  agree : live now (view P s) = live now m

namespace Refines

variable {P : Platform} {maxKeys : Nat} {now : Int} {s : Shards} {m : Spec}

theorem empty (P : Platform) (now : Int) : Refines P now Store.empty fun _ => none where
  valid := Store.empty_valid P
  agree := by rw [view_empty]

/-- Time passes on both sides alike. -/
theorem later {last : Int} (h : Refines P last s m) (hle : last ≤ now) : Refines P now s m :=
  ⟨h.valid, live_congr hle h.agree⟩

/-- A program of calls that writes one key as the abstract map does. -/
theorem write {s' : Shards} (h : Refines P now s m) (hvalid : ∀ i, Valid P i (s' i))
    {key : Bytes} {o o' : Option (Item Bytes)}
    (hview : view P s' = Function.update (view P s) key o)
    (ho : o.filter (Item.alive now) = o'.filter (Item.alive now)) :
    Refines P now s' (Function.update m key o') :=
  ⟨hvalid, by rw [hview, live_update, live_update, h.agree, ho]⟩

/-- The number `incr` reads leaves room for one more. -/
theorem counter_lt {key : Bytes} {n : Int} (hlegal : Legal P maxKeys now s (.incr key))
    (hc : Store.counterOf now (view P s) key = some n) : i64 (n + 1) = n + 1 := by
  rw [Legal, Store.exec_get_fst] at hlegal
  rw [Store.counterOf] at hc
  cases hl : live now (view P s) key with
  | none =>
      obtain rfl : 0 = n := by simpa [hl] using hc
      rfl
  | some it =>
      have hv := hlegal it.value (by simp [hl])
      have hr : Decimal.InRange (Decimal.fromChars 0 it.value).value :=
        Decimal.fromChars_inRange (by decide) _
      simp only [hl] at hc
      split at hc
      · cases hc
      · obtain rfl : (Decimal.fromChars 0 it.value).value = n := by simpa using hc
        refine i64_of_inRange ?_
        unfold Decimal.InRange at hr ⊢
        omega

theorem live_key (h : Refines P now s m) (key : Bytes) :
    live now (view P s) key = live now m key := congrFun h.agree key

theorem counterOf_eq (h : Refines P now s m) (key : Bytes) :
    Store.counterOf now (view P s) key = Store.counterOf now m key :=
  Store.counterOf_congr (h.live_key key)

theorem set (h : Refines P now s m) (h0 : 0 ≤ now) {key value : Bytes} {ttlMs : Int}
    (hlegal : Legal P maxKeys now s (.set key value ttlMs)) :
    Refines P now ((Store.set P maxKeys key value ttlMs).exec now s).2
      (Spec.apply now m (.set key value ttlMs)) := by
  obtain ⟨hroom, httl⟩ := hlegal
  rw [Store.exec_size] at hroom
  have hdeadline : Entry.item ⟨value, Store.deadlineOf now ttlMs, none⟩ =
      ⟨value, if 0 < ttlMs then some (now + ttlMs) else none⟩ := by
    by_cases hpos : 0 < ttlMs
    · have hlt := httl hpos
      have hi64 : i64 (now + ttlMs) = now + ttlMs := i64_of_inRange ⟨by omega, hlt⟩
      have hnn : 0 ≤ now + ttlMs := by omega
      simp [Entry.item, Entry.hasExpiry, Store.deadlineOf, hpos, hi64, hnn]
    · simp [Entry.item, Entry.hasExpiry, Store.deadlineOf, hpos]
  have hview := Store.view_set P maxKeys now hroom key value ttlMs
  rw [hdeadline] at hview
  exact h.write ((Store.set_safe P maxKeys key value ttlMs).exec now h.valid) hview rfl

theorem get (h : Refines P now s m) (key : Bytes) :
    Refines P now ((Store.get P key).exec now s).2 m := by
  have hvalid := (Store.get_safe P key).exec now h.valid
  rcases Store.view_get P now s key with hview | hview
  · exact ⟨hvalid, by rw [hview, h.agree]⟩
  · -- reclaiming a dead item changes nothing that is alive
    have hself : Function.update m key (m key) = m := Function.update_eq_self key m
    rw [← hself]
    refine h.write hvalid hview ?_
    rw [h.live_key]
    exact congrFun (live_live le_rfl m) key

theorem del (h : Refines P now s m) (key : Bytes) :
    Refines P now ((Store.del P key).exec now s).2 (Spec.apply now m (.del key)) :=
  h.write ((Store.del_safe P key).exec now h.valid) (Store.view_del P now s key) rfl

theorem expire (h : Refines P now s m) {key : Bytes} {ttlMs : Int}
    (hlegal : Legal P maxKeys now s (.expire key ttlMs)) :
    Refines P now ((Store.expire P key ttlMs).exec now s).2
      (Spec.apply now m (.expire key ttlMs)) := by
  obtain ⟨h0, hlt⟩ := hlegal
  have hvalid := (Store.expire_safe P key ttlMs).exec now h.valid
  have hview := Store.view_expire P h0 hlt s key
  have hkey := h.live_key key
  simp only [Spec.apply]
  cases hm : live now m key with
  | none =>
      -- a dead item stays dead, so the abstract map does not move
      simp only
      rw [← Function.update_eq_self key m]
      refine h.write hvalid hview ?_
      rw [show (m key).filter (Item.alive now) = none from hm]
      rw [hm, live] at hkey
      cases hv : view P s key with
      | none => rfl
      | some it =>
          have hdead : it.alive now = false := by simpa [hv, Option.filter_some] using hkey
          simp [hdead, Option.filter_some]
  | some it =>
      refine h.write hvalid hview ?_
      obtain ⟨hv, halive⟩ := live_eq_some.mp (hkey.trans hm)
      simp [hv, halive]

theorem incr (h : Refines P now s m) {key : Bytes}
    (hlegal : Legal P maxKeys now s (.incr key)) :
    Refines P now ((Store.incr P key).exec now s).2 (Spec.apply now m (.incr key)) := by
  have hvalid := (Store.incr_safe P key).exec now h.valid
  have hview := Store.view_incr P now s key
  simp only [Spec.apply]
  rw [← h.counterOf_eq]
  cases hc : Store.counterOf now (view P s) key with
  | none =>
      simp only [hc] at hview
      exact ⟨hvalid, by rw [hview, h.agree]⟩
  | some n =>
      simp only [hc, counter_lt hlegal hc] at hview
      exact h.write hvalid hview rfl

theorem flush (h : Refines P now s m) :
    Refines P now (Store.flush.exec now s).2 (Spec.apply now m .flush) := by
  have hview := Store.view_flush P now s
  exact ⟨(Store.flush_safe P).exec now h.valid, by rw [hview]; rfl⟩

theorem sweepExpired (h : Refines P now s m) :
    Refines P now (Store.sweepExpired.exec now s).2 m := by
  have hview := Store.view_sweepExpired P h.valid now
  refine ⟨(Store.sweepExpired_safe P).exec now h.valid, ?_⟩
  rw [hview, live_live le_rfl, h.agree]

/-! ## One call -/

/-- Every legal call leaves the two sides related. -/
theorem step (h : Refines P now s m) (h0 : 0 ≤ now) {c : Call}
    (hlegal : Legal P maxKeys now s c) :
    Refines P now ((c.prog P maxKeys).exec now s).2 (Spec.apply now m c) := by
  cases c with
  | set key value ttlMs => simpa [Call.prog] using h.set h0 hlegal
  | get key => simpa [Call.prog, Spec.apply] using h.get key
  | del key => simpa [Call.prog] using h.del key
  | existsKey key => simpa [Call.prog, Spec.apply, Store.exec_existsKey] using h
  | ttl key =>
      simp only [Call.prog, Prog.exec_map, Store.ttl, Prog.exec_locked_read]
      exact h
  | expire key ttlMs => simpa [Call.prog] using h.expire hlegal
  | incr key => simpa [Call.prog] using h.incr hlegal
  | keys pattern =>
      obtain ⟨ks, hks, -, -⟩ := Store.exec_keys P h.valid now pattern
      simpa [Call.prog, Spec.apply, hks] using h
  | flush => simpa [Call.prog] using h.flush
  | sweepExpired => simpa [Call.prog, Spec.apply] using h.sweepExpired
  | forEach => simpa [Call.prog, Spec.apply, Store.exec_forEach] using h
  | size => simpa [Call.prog, Spec.apply, Store.exec_size] using h

/-- Every legal call answers as the abstract store does. -/
theorem answers (h : Refines P now s m) (h0 : 0 ≤ now) (hnow : now < 2 ^ 63) {c : Call}
    (hlegal : Legal P maxKeys now s c) :
    Spec.Answers P now m c ((c.prog P maxKeys).exec now s).1 := by
  cases c with
  | set key value ttlMs => simp [Call.prog, Spec.Answers]
  | get key => simp [Call.prog, Spec.Answers, Store.exec_get_fst, h.live_key]
  | del key => simp [Call.prog, Spec.Answers]
  | existsKey key => simp [Call.prog, Spec.Answers, Store.exec_existsKey, h.live_key]
  | ttl key => simp [Call.prog, Spec.Answers, Store.exec_ttl P h0 hnow h.valid, h.live_key]
  | expire key ttlMs => simp [Call.prog, Spec.Answers, Store.exec_expire_fst, h.live_key]
  | incr key =>
      simp only [Call.prog, Prog.exec_map, Spec.Answers, Store.exec_incr_fst, Reply.counter.injEq]
      rw [← h.counterOf_eq]
      exact Option.map_congr fun n hn => counter_lt hlegal hn
  | keys pattern =>
      obtain ⟨ks, hks, hnd, hmem⟩ := Store.exec_keys P h.valid now pattern
      simp only [Call.prog, Prog.exec_map, Spec.Answers, hks, ← h.agree]
      exact ⟨ks, rfl, hnd, hmem⟩
  | flush => simp [Call.prog, Spec.Answers]
  | sweepExpired => simp [Call.prog, Spec.Answers]
  | forEach =>
      simp only [Call.prog, Prog.exec_map, Spec.Answers, Store.exec_forEach, ← h.agree]
      exact ⟨_, rfl, Store.records_keys_nodup P h.valid now, Store.records_iff P h.valid now⟩
  | size => simp [Call.prog, Spec.Answers]

/-- Right after a sweep `size()` counts what is alive. -/
theorem size_after_sweep (h : Refines P now s m) (t : Int) :
    (Store.size.exec t (((Call.sweepExpired).prog P maxKeys).exec now s).2).1 =
      {k | live now m k ≠ none}.ncard := by
  have hsweep : (((Call.sweepExpired).prog P maxKeys).exec now s).2 =
      (Store.sweepExpired.exec now s).2 := by simp [Call.prog]
  rw [hsweep, Store.exec_size, Store.total_eq_ncard P h.sweepExpired.valid,
    Store.view_sweepExpired P h.valid, h.agree]

end Refines

/-! ## Whole runs -/

/-- The calls of an admissible run keep the relation; at the last of them it
still holds, and that call is legal. -/
theorem Refines.run {P : Platform} {maxKeys : Nat} {steps : List (Int × Call)} {last now : Int}
    {c : Call} {s : Shards} {m : Spec} (h : Refines P last s m) (h0 : 0 ≤ last)
    (hadm : Admissible P maxKeys last s (steps ++ [(now, c)])) :
    Refines P now (runStore P maxKeys s steps) (runSpec m steps) ∧ 0 ≤ now ∧ now < 2 ^ 63 ∧
      Legal P maxKeys now (runStore P maxKeys s steps) c := by
  induction steps generalizing last s m with
  | nil =>
      obtain ⟨hle, hnow, hlegal, -⟩ := hadm
      exact ⟨h.later hle, le_trans h0 hle, hnow, hlegal⟩
  | cons e steps ih =>
      obtain ⟨t, d⟩ := e
      obtain ⟨hle, -, hlegal, hrest⟩ := hadm
      have h0' : 0 ≤ t := le_trans h0 hle
      exact ih ((h.later hle).step h0' hlegal) h0' hrest

/-- **The store refines a plain map with deadlines.** In every admissible run
from the empty store, every call answers what the abstract map allows; right
after `sweep_expired`, `size()` is the number of keys of the abstract map. -/
theorem store_refines_map (P : Platform) (maxKeys : Nat) (steps : List (Int × Call)) (now : Int)
    (c : Call) (hadm : Admissible P maxKeys 0 Store.empty (steps ++ [(now, c)])) :
    Spec.Answers P now (runSpec (fun _ => none) steps) c
        ((c.prog P maxKeys).exec now (runStore P maxKeys Store.empty steps)).1 ∧
      (c = .sweepExpired → ∀ t,
        (Store.size.exec t
            ((c.prog P maxKeys).exec now (runStore P maxKeys Store.empty steps)).2).1 =
          {k | live now (runSpec (fun _ => none) steps) k ≠ none}.ncard) := by
  obtain ⟨h, h0, hnow, hlegal⟩ := (Refines.empty P 0).run le_rfl hadm
  refine ⟨h.answers h0 hnow hlegal, ?_⟩
  rintro rfl t
  exact h.size_after_sweep t

/-- A key that has run out, found dead by `incr`. -/
theorem store_refines_map_expired :
    Spec.Answers .concrete 20
      (runSpec (fun _ => none) [(0, .set (ascii "k") (ascii "7") 10)]) (.incr (ascii "k"))
      (.counter (some 1)) := by
  have hadm : Admissible .concrete 4 0 Store.empty
      ([(0, .set (ascii "k") (ascii "7") 10)] ++ [(20, .incr (ascii "k"))]) := by
    refine ⟨by decide, by decide, ⟨by decide, by decide⟩, by decide, by decide, ?_, trivial⟩
    intro v hv
    cases (show (none : Option Bytes) = some v from hv)
  exact (store_refines_map .concrete 4 _ 20 _ hadm).1

end RedisCache.Storage
