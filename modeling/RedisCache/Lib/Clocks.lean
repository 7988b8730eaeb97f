import Mathlib
import RedisCache.Lib.Sections

/-!
# The clock readings of a run

A program alone takes clock readings from the front of a stream and leaves
the rest. `Prog.readings` is how many it takes. If no section looks further
than the two readings that are its own (`Brief`), the rest of the stream
does not matter, and a run can be told with the clock standing still behind
its last reading (`run_frozen`): programs one after the other on one stream
are then programs with a clock each, none before the end of the one in front.
-/

namespace Sections

variable {ι σ α β : Type}

namespace Prog

variable [DecidableEq ι]

/-- How many clock readings a run takes. -/
def readings : Prog ι σ α → World ι σ → Nat
  | .ret _, _ => 0
  | .clock next, w =>
      (next (w.clock 0)).readings ⟨fun n => w.clock (n + 1), w.cells⟩ + 1
  | .lock i update next, w =>
      (next w.clock (w.cells i)).readings
        ⟨fun n => w.clock (n + 2), Function.update w.cells i (update w.clock (w.cells i))⟩ + 2

/-- A run leaves the readings it has not taken. -/
theorem run_clock_readings (p : Prog ι σ α) (w : World ι σ) (n : Nat) :
    (p.run w).2.clock n = w.clock (n + p.readings w) := by
  induction p generalizing w with
  | ret a => rfl
  | clock next ih => exact ih (w.clock 0) ⟨fun n => w.clock (n + 1), w.cells⟩
  | lock i update next ih =>
      exact ih w.clock (w.cells i)
        ⟨fun n => w.clock (n + 2), Function.update w.cells i (update w.clock (w.cells i))⟩

end Prog

/-- No section looks further than its own two readings. -/
def Brief : Prog ι σ α → Prop
  | .ret _ => True
  | .clock next => ∀ t, Brief (next t)
  | .lock _ update next =>
      (∀ t t' s, t 0 = t' 0 → t 1 = t' 1 → update t s = update t' s ∧ next t s = next t' s) ∧
        ∀ t s, Brief (next t s)

namespace Brief

theorem pure (a : α) : Brief (Pure.pure a : Prog ι σ α) := trivial

theorem bind {p : Prog ι σ α} (hp : Brief p) {f : α → Prog ι σ β} (hf : ∀ a, Brief (f a)) :
    Brief (p >>= f) := by
  rw [Prog.bind_eq]
  induction p with
  | ret a => exact hf a
  | clock next ih => exact fun t => ih t (hp t)
  | lock i update next ih =>
      refine ⟨fun t t' s h₀ h₁ => ?_, fun t s => ih t s (hp.2 t s)⟩
      obtain ⟨hup, hnext⟩ := hp.1 t t' s h₀ h₁
      exact ⟨hup, congrArg (fun q => q.bind f) hnext⟩

theorem map {p : Prog ι σ α} (hp : Brief p) {f : α → β} : Brief (f <$> p) := by
  rw [map_eq_pure_bind]
  exact hp.bind fun _ => Brief.pure _

theorem now : Brief (Prog.now : Prog ι σ Int) := fun _ => trivial

theorem locked {i : ι} {body : (Nat → Int) → σ → α × σ}
    (h : ∀ t t' s, t 0 = t' 0 → t 1 = t' 1 → body t s = body t' s) :
    Brief (Prog.locked i body) := by
  refine ⟨fun t t' s h₀ h₁ => ?_, fun _ _ => trivial⟩
  have hbody := h t t' s h₀ h₁
  exact ⟨congrArg Prod.snd hbody, congrArg (fun r => Prog.ret r.1) hbody⟩

theorem eachCell (body : σ → α × σ) (is : List ι) : Brief (Prog.eachCell body is) := by
  induction is with
  | nil => exact Brief.pure _
  | cons i is ih =>
      exact Brief.bind (Brief.locked fun _ _ _ _ _ => rfl) fun _ =>
        Brief.bind ih fun _ => Brief.pure _

variable [DecidableEq ι] {p : Prog ι σ α}

/-- Clocks that agree on the readings a run takes give the same run. -/
theorem run_agree (hp : Brief p) {c c' : Nat → Int} {s : ι → σ}
    (h : ∀ n < p.readings ⟨c, s⟩, c' n = c n) :
    (p.run ⟨c', s⟩).1 = (p.run ⟨c, s⟩).1 ∧ (p.run ⟨c', s⟩).2.cells = (p.run ⟨c, s⟩).2.cells := by
  induction p generalizing c c' s with
  | ret a => exact ⟨rfl, rfl⟩
  | clock next ih =>
      have hfirst : c' 0 = c 0 := h 0 (Nat.succ_pos _)
      simp only [Prog.run, hfirst]
      exact ih (c 0) (hp (c 0)) fun n hn => h (n + 1) (Nat.succ_lt_succ hn)
  | lock i update next ih =>
      obtain ⟨hup, hnext⟩ := hp.1 c' c (s i) (h 0 (Nat.succ_pos _))
        (h 1 (Nat.succ_lt_succ (Nat.succ_pos _)))
      simp only [Prog.run, hup, hnext]
      exact ih c (s i) (hp.2 c (s i)) fun n hn =>
        h (n + 2) (Nat.succ_lt_succ (Nat.succ_lt_succ hn))

end Brief

/-! ## A clock that stops -/

/-- The clock up to reading `k`, where it stands still. -/
def frozen (clock : Nat → Int) (k : Nat) : Nat → Int := fun n => clock (min n k)

theorem frozen_monotone {clock : Nat → Int} (h : Monotone clock) (k : Nat) :
    Monotone (frozen clock k) := fun _ _ hab => h (min_le_min_right k hab)

/-- A run, told with a clock that stands still behind its last reading. -/
theorem Brief.run_frozen [DecidableEq ι] {p : Prog ι σ α} (hp : Brief p) (clock : Nat → Int)
    (s : ι → σ) :
    (p.run ⟨frozen clock (p.readings ⟨clock, s⟩), s⟩).1 = (p.run ⟨clock, s⟩).1 ∧
      (p.run ⟨frozen clock (p.readings ⟨clock, s⟩), s⟩).2.cells = (p.run ⟨clock, s⟩).2.cells :=
  hp.run_agree fun n hn => by rw [frozen, min_eq_left hn.le]

end Sections
