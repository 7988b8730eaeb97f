import Mathlib

/-!
# Replaying a log over a later state

A cell holds a value or nothing. A log of operations has brought it from
nothing to where it is; some time on the way a copy was taken. Replaying the
WHOLE log over the copy applies the operations before the copy a second
time.

`replay_resets` says when that does no harm: one of the operations set the
cell regardless of what it held. It need not be a total overwrite: one that
acts on a value that is there (`Resets` from a full cell) counts as well,
because replaying never finds a cell empty that was full at the same place of
the log (`Fuller`).
-/

namespace Replay

variable {ν : Type*}

/-- The log, applied in order. -/
def apply (fs : List (Option ν → Option ν)) (x : Option ν) : Option ν :=
  fs.foldl (fun x f => f x) x

theorem apply_append (fs gs : List (Option ν → Option ν)) (x : Option ν) :
    apply (fs ++ gs) x = apply gs (apply fs x) := List.foldl_append

/-- Where `x` has a value, `y` has one. -/
def Fuller (x y : Option ν) : Prop := x.isSome → y.isSome

theorem Fuller.of_none (y : Option ν) : Fuller none y := fun h => by cases h

/-- The operation keeps the order. -/
def Keeps (f : Option ν → Option ν) : Prop := ∀ x y, Fuller x y → Fuller (f x) (f y)

/-- From any cell that is no emptier than `x`, the result is that from `x`. -/
def Resets (f : Option ν → Option ν) (x : Option ν) : Prop := ∀ y, Fuller x y → f y = f x

theorem apply_fuller {fs : List (Option ν → Option ν)} (h : ∀ f ∈ fs, Keeps f) {x y : Option ν}
    (hxy : Fuller x y) : Fuller (apply fs x) (apply fs y) := by
  induction fs generalizing x y with
  | nil => exact hxy
  | cons f fs ih =>
      exact ih (fun g hg => h g (by simp [hg])) (h f (by simp) x y hxy)

/-- Operations that make nothing out of nothing. -/
theorem apply_none {fs : List (Option ν → Option ν)} (h : ∀ f ∈ fs, f none = none) :
    apply fs none = none := by
  induction fs with
  | nil => rfl
  | cons f fs ih =>
      show apply fs (f none) = none
      rw [h f (by simp)]
      exact ih fun g hg => h g (by simp [hg])

/-- **The replay law**: with a reset in the log, the log over a copy taken
anywhere in it ends where the log alone ends. -/
theorem replay_resets {as : List (Option ν → Option ν)} {f : Option ν → Option ν}
    {bs : List (Option ν → Option ν)} (hkeeps : ∀ g ∈ as ++ f :: bs, Keeps g)
    (hreset : Resets f (apply as none)) (n : Nat) :
    apply (as ++ f :: bs) (apply ((as ++ f :: bs).take n) none) = apply (as ++ f :: bs) none := by
  -- both runs agree from `f` on
  have hfuller : Fuller (apply as none) (apply as (apply ((as ++ f :: bs).take n) none)) :=
    apply_fuller (fun g hg => hkeeps g (by simp [hg])) (Fuller.of_none _)
  have hf := hreset _ hfuller
  rw [apply_append, apply_append]
  exact congrArg (apply bs) hf

end Replay
