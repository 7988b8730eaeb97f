import Mathlib

/-!
# Assignments in a row

A record is filled by assignments: each names a register and gives a text,
which is read as that register's value or refused. Whatever the record is,
the last assignment to a register is the one that counts, and the first
refusal ends it all.
-/

namespace Assignments

/-- A record `σ` with the registers `κ`. An assignment writes the value that its
text is read as, and nothing else. -/
structure Registers (σ κ τ υ ε : Type*) [DecidableEq κ] where
  get : σ → κ → υ
  read : κ → τ → Except ε υ
  put : σ → κ → τ → Except ε σ
  put_error : ∀ {s k v e}, read k v = .error e → put s k v = .error e
  put_ok : ∀ {s k v w}, read k v = .ok w →
    ∃ s', put s k v = .ok s' ∧ get s' = Function.update (get s) k w

variable {σ κ τ υ ε : Type*} [DecidableEq κ]

/-- The text last given for `k`. -/
def last (k : κ) (as : List (κ × τ)) : Option τ :=
  (as.filter fun a => a.1 = k).getLast?.map Prod.snd

theorem last_nil (k : κ) : last k ([] : List (κ × τ)) = none := rfl

theorem last_cons_self (k : κ) (v : τ) (as : List (κ × τ)) :
    last k ((k, v) :: as) = some ((last k as).getD v) := by
  rw [last, List.filter_cons_of_pos (by simp), List.getLast?_cons, Option.map_some, last]
  cases (as.filter fun a => a.1 = k).getLast? <;> rfl

theorem last_cons_ne {k k' : κ} (h : k' ≠ k) (v : τ) (as : List (κ × τ)) :
    last k ((k', v) :: as) = last k as := by
  rw [last, List.filter_cons_of_neg (by simpa using h), last]

namespace Registers

variable (R : Registers σ κ τ υ ε)

def run (s : σ) (as : List (κ × τ)) : Except ε σ := as.foldlM (fun s a => R.put s a.1 a.2) s

/-- The value that the assignments leave in `k`. -/
def Leaves (s : σ) (as : List (κ × τ)) (k : κ) (w : υ) : Prop :=
  match last k as with
  | none => w = R.get s k
  | some v => R.read k v = .ok w

variable {R}

theorem run_cons (s : σ) (a : κ × τ) (as : List (κ × τ)) :
    R.run s (a :: as) = (R.put s a.1 a.2).bind fun s => R.run s as := rfl

theorem run_append (s : σ) (as bs : List (κ × τ)) :
    R.run s (as ++ bs) = (R.run s as).bind fun s => R.run s bs :=
  List.foldlM_append

/-- Items that are assignments or else do nothing. -/
theorem run_filterMap {ι : Type*} {g : σ → ι → Except ε σ} {f : ι → Option (κ × τ)}
    (hg : ∀ s x, g s x = (f x).elim (.ok s) fun a => R.put s a.1 a.2) (s : σ) (xs : List ι) :
    xs.foldlM g s = R.run s (xs.filterMap f) := by
  induction xs generalizing s with
  | nil => rfl
  | cons x xs ih =>
      rw [List.foldlM_cons, hg]
      cases hx : f x with
      | none =>
          rw [List.filterMap_cons_none hx]
          exact ih s
      | some a =>
          rw [List.filterMap_cons_some hx, run_cons]
          exact congrArg (Except.bind _) (funext ih)

theorem run_ok {s s' : σ} {as : List (κ × τ)} (h : R.run s as = .ok s') (k : κ) :
    R.Leaves s as k (R.get s' k) := by
  induction as generalizing s with
  | nil =>
      cases h
      rfl
  | cons a as ih =>
      obtain ⟨k', v⟩ := a
      rw [run_cons] at h
      cases hread : R.read k' v with
      | error e =>
          rw [R.put_error hread] at h
          cases h
      | ok w =>
          obtain ⟨s₁, hput, hget⟩ := R.put_ok (s := s) hread
          rw [hput] at h
          have hrest := ih h
          by_cases hk : k' = k
          · subst hk
            rw [Leaves, last_cons_self]
            rw [Leaves] at hrest
            cases hlast : last k' as with
            | none =>
                rw [hlast] at hrest
                simp only at hrest
                rw [hrest, hget, Function.update_self]
                exact hread
            | some v' =>
                rw [hlast] at hrest
                exact hrest
          · rw [Leaves, last_cons_ne hk]
            rw [Leaves, hget, Function.update_of_ne (Ne.symm hk)] at hrest
            exact hrest

theorem run_error {s : σ} {as : List (κ × τ)} {e : ε} (h : R.run s as = .error e) :
    ∃ as₁ k v as₂, as = as₁ ++ (k, v) :: as₂ ∧ (∀ a ∈ as₁, ∃ w, R.read a.1 a.2 = .ok w) ∧
      R.read k v = .error e := by
  induction as generalizing s with
  | nil => cases h
  | cons a as ih =>
      obtain ⟨k, v⟩ := a
      rw [run_cons] at h
      cases hread : R.read k v with
      | error e' =>
          rw [R.put_error hread] at h
          cases h
          exact ⟨[], k, v, as, rfl, by simp, hread⟩
      | ok w =>
          obtain ⟨s₁, hput, -⟩ := R.put_ok (s := s) hread
          rw [hput] at h
          obtain ⟨as₁, k', v', as₂, rfl, hall, hbad⟩ := ih h
          refine ⟨(k, v) :: as₁, k', v', as₂, rfl, ?_, hbad⟩
          intro a ha
          rcases List.mem_cons.mp ha with rfl | ha
          · exact ⟨w, hread⟩
          · exact hall a ha

end Registers

end Assignments
