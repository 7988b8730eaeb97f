import Mathlib

/-!
# Loops

A `while` loop is a body that either goes round again with a new state or
leaves with a result. `run` gives it turns; `none` says that it did not
leave within them, so that "the loop ends" is a statement and not a
convention.

`run_spec` is the one rule: a postcondition, an invariant, and a measure
that every turn makes smaller.

`runAll` is the loop over given work, one item after the other until one
of them raises; `runAll_inv` is its rule, with an invariant that may speak
about the work still to come.

`Always` and `Throughout` say what holds on the way: of every item and the
state it finds, and of every state between two items.

`follow` is for steps that wait for a condition: it takes the steps of a
schedule, and there is no result if one of them is not enabled.
-/

namespace Loop

variable {σ ρ : Type*}

inductive Turn (σ ρ : Type*) where
  | again (s : σ)
  | exit (r : ρ)

/-- At most `fuel` turns. -/
def run (body : σ → Turn σ ρ) : Nat → σ → Option ρ
  | 0, _ => none
  | fuel + 1, s =>
      match body s with
      | .again s' => run body fuel s'
      | .exit r => some r

/-- **The rule**: when every turn from an invariant state leaves with a result
that meets the postcondition, or goes on to a smaller invariant state whose
results meet it for the old one too, the loop ends with such a result. -/
theorem run_spec {body : σ → Turn σ ρ} {I : σ → Prop} {m : σ → Nat} {Q : σ → ρ → Prop}
    (hturn : ∀ s, I s → (∃ r, body s = .exit r ∧ Q s r) ∨
      ∃ s', body s = .again s' ∧ I s' ∧ m s' < m s ∧ ∀ r, Q s' r → Q s r)
    {fuel : Nat} {s : σ} (hs : I s) (hfuel : m s < fuel) :
    ∃ r, run body fuel s = some r ∧ Q s r := by
  induction fuel generalizing s with
  | zero => omega
  | succ fuel ih =>
      rcases hturn s hs with ⟨r, hexit, hr⟩ | ⟨s', hagain, hs', hlt, hpost⟩
      · exact ⟨r, by rw [run, hexit], hr⟩
      · obtain ⟨r, hrun, hr⟩ := ih hs' (by omega)
        refine ⟨r, ?_, hpost r hr⟩
        rw [run, hagain]
        exact hrun

/-! ## Work lists -/

section Work

variable {α ε : Type*} {f : σ → α → Option (Except ε σ)}

/-- One item after the other, until one raises or does not end. -/
def runAll (f : σ → α → Option (Except ε σ)) : σ → List α → Option (Except ε σ)
  | s, [] => some (.ok s)
  | s, a :: as =>
      match f s a with
      | some (.ok s') => runAll f s' as
      | r => r

theorem runAll_cons {s s' : σ} {a : α} (h : f s a = some (.ok s')) (as : List α) :
    runAll f s (a :: as) = runAll f s' as := by
  rw [runAll, h]

/-- What a run that ends has done first. -/
theorem of_runAll_cons {s t : σ} {a : α} {as : List α} (h : runAll f s (a :: as) = some (.ok t)) :
    ∃ s', f s a = some (.ok s') ∧ runAll f s' as = some (.ok t) := by
  rw [runAll] at h
  split at h
  · rename_i s' hs'
    exact ⟨s', hs', h⟩
  · rename_i hno
    exact absurd h (hno t)

/-- A result that can be computed is one. -/
theorem exists_ok {r : Option (Except ε σ)} (h : (r.bind Except.toOption).isSome = true) :
    ∃ s, r = some (.ok s) := by
  rcases r with _ | e | s
  · cases h
  · cases h
  · exact ⟨s, rfl⟩

/-- Two pieces of work: the second starts where the first ends. -/
theorem runAll_append (s : σ) (as bs : List α) :
    runAll f s (as ++ bs) =
      match runAll f s as with
      | some (.ok s') => runAll f s' bs
      | r => r := by
  induction as generalizing s with
  | nil => rfl
  | cons a as ih =>
      rw [List.cons_append, runAll, runAll]
      cases hfirst : f s a with
      | none => rfl
      | some r =>
          cases r with
          | error e => rfl
          | ok s' => exact ih s'

theorem of_runAll_append {s t : σ} {as bs : List α}
    (h : runAll f s (as ++ bs) = some (.ok t)) :
    ∃ s', runAll f s as = some (.ok s') ∧ runAll f s' bs = some (.ok t) := by
  rw [runAll_append] at h
  split at h
  · rename_i s' hs'
    exact ⟨s', hs', h⟩
  · rename_i hno
    exact absurd h (hno t)

/-- **The rule**: what holds of the work to come and the state, and passes
from each item to the next, holds in the end. -/
theorem runAll_inv {I : List α → σ → Prop}
    (hstep : ∀ a as s s', I (a :: as) s → f s a = some (.ok s') → I as s')
    {as : List α} {s t : σ} (hs : I as s) (h : runAll f s as = some (.ok t)) : I [] t := by
  induction as generalizing s with
  | nil =>
      cases h
      exact hs
  | cons a as ih =>
      obtain ⟨s', hfirst, hrest⟩ := of_runAll_cons h
      exact ih (hstep a as s s' hs hfirst) hrest

/-! ## On the way -/

/-- `Q` holds of every item and the state it finds. -/
def Always (f : σ → α → Option (Except ε σ)) (Q : σ → α → Prop) : σ → List α → Prop
  | _, [] => True
  | s, a :: as => Q s a ∧ ∀ s', f s a = some (.ok s') → Always f Q s' as

instance Always.decidable {Q : σ → α → Prop} [∀ s a, Decidable (Q s a)] :
    ∀ (s : σ) (as : List α), Decidable (Always f Q s as)
  | _, [] => .isTrue trivial
  | s, a :: as =>
      match h : f s a with
      | some (.ok s') =>
          have := Always.decidable (Q := Q) s' as
          decidable_of_iff (Q s a ∧ Always f Q s' as) (by simp [Always, h])
      | some (.error _) => decidable_of_iff (Q s a) (by simp [Always, h])
      | none => decidable_of_iff (Q s a) (by simp [Always, h])

/-- `I` holds in every state between two items, and in the first and the last. -/
def Throughout (f : σ → α → Option (Except ε σ)) (I : σ → Prop) : σ → List α → Prop
  | s, [] => I s
  | s, a :: as => I s ∧ ∀ s', f s a = some (.ok s') → Throughout f I s' as

theorem Throughout.first {I : σ → Prop} {s : σ} {as : List α} (h : Throughout f I s as) : I s := by
  cases as with
  | nil => exact h
  | cons a as => exact h.1

theorem always_append {Q : σ → α → Prop} {s : σ} {as bs : List α} :
    Always f Q s (as ++ bs) ↔
      Always f Q s as ∧ ∀ t, runAll f s as = some (.ok t) → Always f Q t bs := by
  induction as generalizing s with
  | nil => simp [Always, runAll]
  | cons a as ih =>
      simp only [List.cons_append, Always]
      constructor
      · rintro ⟨ha, hrest⟩
        refine ⟨⟨ha, fun s' hs' => (ih.mp (hrest s' hs')).1⟩, fun t ht => ?_⟩
        obtain ⟨s', hs', hrun⟩ := of_runAll_cons ht
        exact (ih.mp (hrest s' hs')).2 t hrun
      · rintro ⟨⟨ha, hrest⟩, hbs⟩
        refine ⟨ha, fun s' hs' => ih.mpr ⟨hrest s' hs', fun t ht => hbs t ?_⟩⟩
        rw [runAll_cons hs', ht]

/-- **The rule**: what every item keeps, if the item is as it should be, holds
in the end. -/
theorem Always.runAll_inv {Q : σ → α → Prop} {I : σ → Prop}
    (hstep : ∀ s a s', I s → Q s a → f s a = some (.ok s') → I s') {as : List α} {s t : σ}
    (hQ : Always f Q s as) (hs : I s) (h : runAll f s as = some (.ok t)) : I t := by
  induction as generalizing s with
  | nil =>
      cases h
      exact hs
  | cons a as ih =>
      obtain ⟨s', hfirst, hrest⟩ := of_runAll_cons h
      exact ih (hQ.2 s' hfirst) (hstep s a s' hs hQ.1 hfirst) hrest

end Work

/-! ## Schedules -/

section Schedule

variable {α : Type*} {step : σ → α → Option σ}

def follow (step : σ → α → Option σ) : σ → List α → Option σ
  | s, [] => some s
  | s, a :: as =>
      match step s a with
      | none => none
      | some s' => follow step s' as

/-- **The rule**: what every step keeps holds in the end. -/
theorem follow_inv {I : σ → Prop} (hstep : ∀ s a s', I s → step s a = some s' → I s')
    {as : List α} {s t : σ} (hs : I s) (h : follow step s as = some t) : I t := by
  induction as generalizing s with
  | nil =>
      cases h
      exact hs
  | cons a as ih =>
      rw [follow] at h
      split at h
      · cases h
      · rename_i s' hs'
        exact ih (hstep s a s' hs hs') h

end Schedule

end Loop
