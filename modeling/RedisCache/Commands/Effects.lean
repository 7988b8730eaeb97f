import Mathlib
import RedisCache.Commands.Requests
import RedisCache.Storage.Contents

/-!
# The commands, alone

What the commands of more than one store call do when they run alone: `SET`
with its options, `INCRBY`, and the loops of `DEL` and `EXISTS`. The other
commands are one store call each, and `Contents` speaks of those.
-/

namespace RedisCache.Commands

open Sections Protocol Storage TimedMap

variable (P : Platform) (maxKeys : Nat)

/-! ## SET -/

/-- Whether `NX` or `XX` keeps a `SET` from writing. -/
def SetOptions.blocks (o : SetOptions) (clock : Nat → Int) (m : Bytes → Option (Item Bytes))
    (key : Bytes) : Bool :=
  (o.nx && (live (clock 0) m key).isSome) ||
    (o.xx && !(live (clock (if o.nx then 2 else 0)) m key).isSome)

/-- The clock readings the tests of `NX` and `XX` have room for. -/
def SetOptions.readings (o : SetOptions) : Nat :=
  (if o.xx then 2 else 0) + if o.nx then 2 else 0

theorem run_existsIf (flag : Bool) (key : Bytes) (otherwise : Bool) (w : World Index Shard) :
    (existsIf P flag key otherwise).run w =
      (if flag then (live (w.clock 0) (view P w.cells) key).isSome else otherwise,
        ⟨fun n => w.clock (n + if flag then 2 else 0), w.cells⟩) := by
  cases flag with
  | true => exact Store.run_existsKey_view P w key
  | false => rfl

/-- The tests of `NX` and `XX` in front of `p`. -/
def gated {α : Type} (o : SetOptions) (key : Bytes) (refused : α) (p : StoreProg α) :
    StoreProg α := do
  let taken ← existsIf P o.nx key false
  if taken then pure refused
  else do
    let present ← existsIf P o.xx key true
    if !present then pure refused else p

section Gated

variable {α : Type} {key : Bytes} {o : SetOptions} {w : World Index Shard}

theorem run_gated_blocked (h : o.blocks w.clock (view P w.cells) key = true) (refused : α)
    (p : StoreProg α) :
    ((gated P o key refused p).run w).1 = refused ∧
      ((gated P o key refused p).run w).2.cells = w.cells := by
  rw [gated, Prog.run_bind, run_existsIf]
  by_cases htaken : (o.nx && (live (w.clock 0) (view P w.cells) key).isSome) = true
  · obtain ⟨hnx, hsome⟩ := Bool.and_eq_true_iff.mp htaken
    simp [hnx, hsome]
  · have hfree : (if o.nx then (live (w.clock 0) (view P w.cells) key).isSome else false) =
        false := by
      cases hnx : o.nx with
      | true => simpa [hnx] using htaken
      | false => rfl
    rw [Bool.not_eq_true] at htaken
    rw [SetOptions.blocks, htaken, Bool.false_or] at h
    obtain ⟨hxx, hnone⟩ := Bool.and_eq_true_iff.mp h
    rw [Bool.not_eq_true'] at hnone
    simp only [hfree, Bool.false_eq_true, if_false, Prog.run_bind, run_existsIf, hxx, if_true,
      Nat.zero_add, hnone, Bool.not_false, Prog.run_pure, and_self]

theorem run_gated_free (h : o.blocks w.clock (view P w.cells) key = false) (refused : α)
    (p : StoreProg α) :
    (gated P o key refused p).run w = p.run ⟨fun n => w.clock (n + o.readings), w.cells⟩ := by
  obtain ⟨hnx, hxx⟩ := Bool.or_eq_false_iff.mp h
  have hfree : (if o.nx then (live (w.clock 0) (view P w.cells) key).isSome else false) =
      false := by
    cases ho : o.nx with
    | true => simpa [ho] using hnx
    | false => rfl
  have hpresent : (if o.xx then
      (live (w.clock (if o.nx then 2 else 0)) (view P w.cells) key).isSome else true) = true := by
    cases ho : o.xx with
    | true => simpa [ho] using hxx
    | false => rfl
  rw [gated, Prog.run_bind, run_existsIf]
  simp only [hfree, Bool.false_eq_true, if_false, Prog.run_bind, run_existsIf, Nat.zero_add,
    hpresent, Bool.not_true, SetOptions.readings, Nat.add_assoc]

theorem run_set_blocked (h : o.blocks w.clock (view P w.cells) key = true) (value : Bytes) :
    (((Command.set key value o).prog P maxKeys).run w).1 = RespSerializer.nullBulk ∧
      (((Command.set key value o).prog P maxKeys).run w).2.cells = w.cells :=
  run_gated_blocked P h RespSerializer.nullBulk _

theorem run_set_free (h : o.blocks w.clock (view P w.cells) key = false) (value : Bytes) :
    ((Command.set key value o).prog P maxKeys).run w =
      (RespSerializer.ok, ((Store.set P maxKeys key value o.ttlMs).run
        ⟨fun n => w.clock (n + o.readings), w.cells⟩).2) := by
  refine (run_gated_free P h RespSerializer.nullBulk _).trans ?_
  rw [Prog.run_bind, Prog.run_pure]

end Gated

/-! ## INCRBY -/

theorem run_incrby_refused {key : Bytes} {w : World Index Shard}
    (h : (currentOf ((Store.get P key).run w).1).ec ≠ none) (delta : Int) :
    ((Command.incrby key delta).prog P maxKeys).run w =
      (notAnInteger, ((Store.get P key).run w).2) := by
  rw [Command.prog, Prog.run_bind, if_pos h, Prog.run_pure]

theorem run_incrby_added {key : Bytes} {w : World Index Shard}
    (h : (currentOf ((Store.get P key).run w).1).ec = none) (delta : Int) :
    ((Command.incrby key delta).prog P maxKeys).run w =
      let sum := i64 ((currentOf ((Store.get P key).run w).1).value + delta)
      (RespSerializer.integer sum,
        ((Store.set P maxKeys key (Decimal.ofInt sum) (-1)).run
          ((Store.get P key).run w).2).2) := by
  rw [Command.prog, Prog.run_bind, if_neg (not_not.mpr h), Prog.run_bind, Prog.run_pure]

/-! ## The loops of DEL and EXISTS -/

/-- Counting with an operation that leaves the shards alone. -/
theorem run_countOf_exists (ks : List Bytes) (n : Int) (w : World Index Shard) :
    ((countOf (Store.existsKey P) ks n).run w).2.cells = w.cells := by
  induction ks generalizing n w with
  | nil => rfl
  | cons k ks ih =>
      rw [countOf, Prog.run_bind, ih, Store.run_existsKey]

/-- `DEL` leaves the keys it does not name. -/
theorem view_run_countOf_del (ks : List Bytes) (n : Int) (w : World Index Shard) :
    view P ((countOf (Store.del P) ks n).run w).2.cells =
      fun k => if k ∈ ks then none else view P w.cells k := by
  induction ks generalizing n w with
  | nil =>
      funext k
      simp [countOf]
  | cons k₀ ks ih =>
      rw [countOf, Prog.run_bind, ih, Store.view_run_del]
      funext k
      by_cases hk : k = k₀
      · simp [hk]
      · simp [hk]

end RedisCache.Commands
