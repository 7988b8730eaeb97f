import Mathlib

/-!
# Programs made of lock-protected sections

A shared state is a family of cells, each behind its own lock. A program
over it is a tree: it returns, reads the clock, or takes ONE cell's lock,
runs a section there and goes on with what the section saw. A section is
atomic; between two sections anything can happen to the cells.

One tree has two semantics, so that a source function is written down
once:

* `run` / `exec` — alone, section after section (`exec` holds the clock
  still);
* `Pool.run` — in a pool of threads, under any schedule.

`Safe I p` is the rule of invariants: every section of `p` keeps `I` on
its own cell, whatever the cells looked like when it got there. A safe
program keeps `I` alone (`Safe.run`), and a pool of safe programs keeps it
under every schedule (`Pool.run_safe`). `Ensures Q p` is the rule of
results: `Q` holds of what `p` returns, whatever its sections saw.
-/

namespace Sections

/-- A program over cells `ι → σ` that returns an `α`. A section gets the
clock readings taken inside it, and its effect on the cell (`update`) is
separate from how the program goes on (`next`). -/
inductive Prog (ι σ α : Type) where
  | ret (a : α)
  | clock (next : Int → Prog ι σ α)
  | lock (i : ι) (update : (Nat → Int) → σ → σ) (next : (Nat → Int) → σ → Prog ι σ α)

variable {ι σ α β : Type}

namespace Prog

def bind : Prog ι σ α → (α → Prog ι σ β) → Prog ι σ β
  | .ret a, f => f a
  | .clock next, f => .clock fun t => (next t).bind f
  | .lock i update next, f => .lock i update fun t s => (next t s).bind f

instance : Monad (Prog ι σ) where
  pure := .ret
  bind := bind

theorem bind_eq (p : Prog ι σ α) (f : α → Prog ι σ β) : p >>= f = p.bind f := rfl

theorem bind_ret (p : Prog ι σ α) : p.bind .ret = p := by
  induction p with
  | ret a => rfl
  | clock next ih => simp only [bind, ih]
  | lock i update next ih => simp only [bind, ih]

theorem bind_assoc {γ : Type} (p : Prog ι σ α) (f : α → Prog ι σ β) (g : β → Prog ι σ γ) :
    (p.bind f).bind g = p.bind fun a => (f a).bind g := by
  induction p with
  | ret a => rfl
  | clock next ih => simp only [bind, ih]
  | lock i update next ih => simp only [bind, ih]

instance : LawfulMonad (Prog ι σ) :=
  LawfulMonad.mk' _ (fun p => bind_ret p) (fun _ _ => rfl) bind_assoc

/-- Read the clock outside any section. -/
def now : Prog ι σ Int := .clock .ret

/-- One section, with its result. -/
def locked (i : ι) (body : (Nat → Int) → σ → α × σ) : Prog ι σ α :=
  .lock i (fun t s => (body t s).2) fun t s => .ret (body t s).1

/-- The same section on each cell of a list, one lock after the other. -/
def eachCell (body : σ → α × σ) : List ι → Prog ι σ (List α)
  | [] => pure []
  | i :: is => do
      let a ← locked i fun _ s => body s
      let as ← eachCell body is
      pure (a :: as)

end Prog

/-! ## Alone -/

/-- The cells, and the clock readings still to come. -/
structure World (ι σ : Type) where
  clock : Nat → Int
  cells : ι → σ

namespace Prog

variable [DecidableEq ι]

/-- The program alone. A section may read the clock twice. -/
def run : Prog ι σ α → World ι σ → α × World ι σ
  | .ret a, w => (a, w)
  | .clock next, w => (next (w.clock 0)).run { w with clock := fun n => w.clock (n + 1) }
  | .lock i update next, w =>
      (next w.clock (w.cells i)).run
        ⟨fun n => w.clock (n + 2), Function.update w.cells i (update w.clock (w.cells i))⟩

theorem run_bind (p : Prog ι σ α) (f : α → Prog ι σ β) (w : World ι σ) :
    (p >>= f).run w = (f (p.run w).1).run (p.run w).2 := by
  rw [bind_eq]
  induction p generalizing w with
  | ret a => rfl
  | clock next ih => simp only [bind, run, ih]
  | lock i update next ih => simp only [bind, run, ih]

@[simp] theorem run_pure (a : α) (w : World ι σ) : (pure a : Prog ι σ α).run w = (a, w) := rfl

@[simp] theorem run_map (f : α → β) (p : Prog ι σ α) (w : World ι σ) :
    (f <$> p).run w = (f (p.run w).1, (p.run w).2) := by
  rw [map_eq_pure_bind, run_bind]
  rfl

theorem run_now (w : World ι σ) :
    (now : Prog ι σ Int).run w = (w.clock 0, ⟨fun n => w.clock (n + 1), w.cells⟩) := rfl

theorem run_locked (i : ι) (body : (Nat → Int) → σ → α × σ) (w : World ι σ) :
    (locked i body).run w =
      ((body w.clock (w.cells i)).1,
        ⟨fun n => w.clock (n + 2), Function.update w.cells i (body w.clock (w.cells i)).2⟩) := rfl

/-- A section that leaves its cell alone costs clock readings, nothing else. -/
theorem run_locked_read (i : ι) (body : (Nat → Int) → σ → α) (w : World ι σ) :
    (locked i fun u c => (body u c, c)).run w =
      (body w.clock (w.cells i), ⟨fun n => w.clock (n + 2), w.cells⟩) := by
  show (_, (⟨_, Function.update w.cells i (w.cells i)⟩ : World ι σ)) = _
  rw [Function.update_eq_self]

/-- Sections on distinct cells do not see each other. -/
theorem run_eachCell (body : σ → α × σ) {is : List ι} (hnd : is.Nodup) (w : World ι σ) :
    (eachCell body is).run w =
      (is.map fun i => (body (w.cells i)).1,
        ⟨fun n => w.clock (n + 2 * is.length),
          fun i => if i ∈ is then (body (w.cells i)).2 else w.cells i⟩) := by
  induction is generalizing w with
  | nil => simp [eachCell]
  | cons i is ih =>
      obtain ⟨hi, hnd'⟩ := List.nodup_cons.mp hnd
      have hother : ∀ j ∈ is,
          Function.update w.cells i (body (w.cells i)).2 j = w.cells j := by
        intro j hj
        refine Function.update_of_ne ?_ _ _
        rintro rfl
        exact hi hj
      simp only [eachCell, run_bind, run_locked, run_pure, ih hnd', List.map_cons]
      refine Prod.ext ?_ ?_
      · simp only [List.cons.injEq, true_and]
        exact List.map_congr_left fun j hj => by rw [hother j hj]
      · refine congrArg₂ World.mk ?_ (funext fun j => ?_)
        · funext n
          rw [List.length_cons, show n + 2 * is.length + 2 = n + 2 * (is.length + 1) by omega]
        · by_cases hj : j ∈ is
          · simp only [hj, if_true, List.mem_cons, or_true, hother j hj]
          · by_cases hji : j = i
            · subst hji
              simp [hj]
            · simp [hj, hji]

theorem run_eachCell_read (body : σ → α) {is : List ι} (hnd : is.Nodup) (w : World ι σ) :
    (eachCell (fun s => (body s, s)) is).run w =
      (is.map fun i => body (w.cells i), ⟨fun n => w.clock (n + 2 * is.length), w.cells⟩) := by
  rw [run_eachCell _ hnd]
  simp only [ite_self]

/-- A run moves on in the clock readings and changes none of them. -/
theorem run_clock (p : Prog ι σ α) (w : World ι σ) :
    ∃ k, ∀ n, (p.run w).2.clock n = w.clock (n + k) := by
  induction p generalizing w with
  | ret a => exact ⟨0, fun n => rfl⟩
  | clock next ih =>
      obtain ⟨k, hk⟩ := ih (w.clock 0) ⟨fun n => w.clock (n + 1), w.cells⟩
      exact ⟨k + 1, hk⟩
  | lock i update next ih =>
      obtain ⟨k, hk⟩ := ih w.clock (w.cells i)
        ⟨fun n => w.clock (n + 2), Function.update w.cells i (update w.clock (w.cells i))⟩
      exact ⟨k + 2, hk⟩

theorem run_clock_const (p : Prog ι σ α) (t : Int) (s : ι → σ) :
    (p.run ⟨fun _ => t, s⟩).2.clock = fun _ => t := by
  obtain ⟨k, hk⟩ := p.run_clock ⟨fun _ => t, s⟩
  exact funext hk

/-- The program alone, at one clock reading. -/
def exec (t : Int) (p : Prog ι σ α) (s : ι → σ) : α × (ι → σ) :=
  ((p.run ⟨fun _ => t, s⟩).1, (p.run ⟨fun _ => t, s⟩).2.cells)

theorem exec_snd (t : Int) (p : Prog ι σ α) (s : ι → σ) :
    (p.exec t s).2 = (p.run ⟨fun _ => t, s⟩).2.cells := rfl

theorem run_const (t : Int) (p : Prog ι σ α) (s : ι → σ) :
    p.run ⟨fun _ => t, s⟩ = ((p.exec t s).1, ⟨fun _ => t, (p.exec t s).2⟩) := by
  have hclock := run_clock_const p t s
  rw [exec]
  cases hrun : p.run ⟨fun _ => t, s⟩ with
  | mk a w =>
      rw [hrun] at hclock
      cases w
      cases hclock
      rfl

@[simp] theorem exec_pure (t : Int) (a : α) (s : ι → σ) :
    (pure a : Prog ι σ α).exec t s = (a, s) := rfl

@[simp] theorem exec_bind (t : Int) (p : Prog ι σ α) (f : α → Prog ι σ β) (s : ι → σ) :
    (p >>= f).exec t s = (f (p.exec t s).1).exec t (p.exec t s).2 := by
  rw [exec, run_bind, run_const]
  rfl

@[simp] theorem exec_map (t : Int) (f : α → β) (p : Prog ι σ α) (s : ι → σ) :
    (f <$> p).exec t s = (f (p.exec t s).1, (p.exec t s).2) := by
  rw [map_eq_pure_bind, exec_bind]
  rfl

@[simp] theorem exec_now (t : Int) (s : ι → σ) :
    (now : Prog ι σ Int).exec t s = (t, s) := rfl

@[simp] theorem exec_locked (t : Int) (i : ι) (body : (Nat → Int) → σ → α × σ) (s : ι → σ) :
    (locked i body).exec t s =
      ((body (fun _ => t) (s i)).1, Function.update s i (body (fun _ => t) (s i)).2) := rfl

/-- A section that leaves its cell alone leaves all cells alone. -/
theorem exec_locked_read (t : Int) (i : ι) (body : (Nat → Int) → σ → α) (s : ι → σ) :
    (locked i fun u c => (body u c, c)).exec t s = (body (fun _ => t) (s i), s) := by
  rw [exec_locked, Function.update_eq_self]

end Prog

/-! ## In a pool -/

/-- A pool of threads over shared cells. -/
structure Pool (ι σ τ α : Type) where
  cells : ι → σ
  threads : τ → Prog ι σ α

namespace Pool

variable {τ : Type} [DecidableEq ι] [DecidableEq τ]

/-- Thread `t` takes its next step, with these clock readings. -/
def step (c : Pool ι σ τ α) (t : τ) (clk : Nat → Int) : Pool ι σ τ α :=
  match c.threads t with
  | .ret _ => c
  | .clock next => { c with threads := Function.update c.threads t (next (clk 0)) }
  | .lock i update next =>
      { cells := Function.update c.cells i (update clk (c.cells i))
        threads := Function.update c.threads t (next clk (c.cells i)) }

/-- The pool under a schedule: who steps, and what the clock shows. -/
def run (c : Pool ι σ τ α) (sched : List (τ × (Nat → Int))) : Pool ι σ τ α :=
  sched.foldl (fun c e => c.step e.1 e.2) c

@[simp] theorem run_nil (c : Pool ι σ τ α) : c.run [] = c := rfl

@[simp] theorem run_cons (c : Pool ι σ τ α) (e : τ × (Nat → Int)) (sched) :
    c.run (e :: sched) = (c.step e.1 e.2).run sched := rfl

theorem run_append (c : Pool ι σ τ α) (s₁ s₂ : List (τ × (Nat → Int))) :
    c.run (s₁ ++ s₂) = (c.run s₁).run s₂ := List.foldl_append

end Pool

/-! ## Invariants -/

/-- Every section keeps `I` on its own cell, from any cell that has it. -/
def Safe (I : ι → σ → Prop) : Prog ι σ α → Prop
  | .ret _ => True
  | .clock next => ∀ t, Safe I (next t)
  | .lock i update next => ∀ t s, I i s → I i (update t s) ∧ Safe I (next t s)

namespace Safe

variable {I : ι → σ → Prop}

theorem pure (a : α) : Safe I (Pure.pure a : Prog ι σ α) := trivial

theorem bind {p : Prog ι σ α} (hp : Safe I p) {f : α → Prog ι σ β} (hf : ∀ a, Safe I (f a)) :
    Safe I (p >>= f) := by
  rw [Prog.bind_eq]
  induction p with
  | ret a => exact hf a
  | clock next ih => exact fun t => ih t (hp t)
  | lock i update next ih => exact fun t s hs => ⟨(hp t s hs).1, ih t s (hp t s hs).2⟩

theorem map {p : Prog ι σ α} (hp : Safe I p) {f : α → β} : Safe I (f <$> p) := by
  rw [map_eq_pure_bind]
  exact hp.bind fun _ => Safe.pure _

theorem now : Safe I (Prog.now : Prog ι σ Int) := fun _ => trivial

theorem locked {i : ι} {body : (Nat → Int) → σ → α × σ}
    (h : ∀ t s, I i s → I i (body t s).2) : Safe I (Prog.locked i body) :=
  fun t s hs => ⟨h t s hs, trivial⟩

theorem eachCell {body : σ → α × σ} (h : ∀ i s, I i s → I i (body s).2) (is : List ι) :
    Safe I (Prog.eachCell body is) := by
  induction is with
  | nil => exact Safe.pure _
  | cons i is ih =>
      exact Safe.bind (Safe.locked fun _ s hs => h i s hs) fun _ =>
        Safe.bind ih fun _ => Safe.pure _

/-- A safe program keeps the invariant when it runs alone. -/
theorem run [DecidableEq ι] {p : Prog ι σ α} (hp : Safe I p) {w : World ι σ}
    (hw : ∀ i, I i (w.cells i)) : ∀ i, I i ((p.run w).2.cells i) := by
  induction p generalizing w with
  | ret a => exact hw
  | clock next ih => exact ih (w.clock 0) (hp _) hw
  | lock i update next ih =>
      obtain ⟨hup, hnext⟩ := hp w.clock (w.cells i) (hw i)
      refine ih w.clock (w.cells i) hnext fun j => ?_
      by_cases hj : j = i
      · subst hj
        simpa using hup
      · simpa [Function.update_of_ne hj] using hw j

theorem exec [DecidableEq ι] {p : Prog ι σ α} (hp : Safe I p) (t : Int) {s : ι → σ}
    (hs : ∀ i, I i (s i)) : ∀ i, I i ((p.exec t s).2 i) :=
  hp.run (w := ⟨fun _ => t, s⟩) hs

end Safe

/-! ## Results -/

/-- `Q` holds of every result, whatever the clock and the cells show. -/
def Ensures (Q : α → Prop) : Prog ι σ α → Prop
  | .ret a => Q a
  | .clock next => ∀ t, Ensures Q (next t)
  | .lock _ _ next => ∀ t s, Ensures Q (next t s)

namespace Ensures

variable {Q : β → Prop}

theorem pure {b : β} (h : Q b) : Ensures Q (Pure.pure b : Prog ι σ β) := h

theorem bind {R : α → Prop} {p : Prog ι σ α} (hp : Ensures R p) {f : α → Prog ι σ β}
    (hf : ∀ a, R a → Ensures Q (f a)) : Ensures Q (p >>= f) := by
  rw [Prog.bind_eq]
  induction p with
  | ret a => exact hf a hp
  | clock next ih => exact fun t => ih t (hp t)
  | lock i update next ih => exact fun t s => ih t s (hp t s)

theorem any (p : Prog ι σ α) : Ensures (fun _ => True) p := by
  induction p with
  | ret a => trivial
  | clock next ih => exact ih
  | lock i update next ih => exact ih

theorem locked {i : ι} {body : (Nat → Int) → σ → β × σ} (h : ∀ t s, Q (body t s).1) :
    Ensures Q (Prog.locked i body) := h

theorem run [DecidableEq ι] {p : Prog ι σ β} (h : Ensures Q p) (w : World ι σ) :
    Q (p.run w).1 := by
  induction p generalizing w with
  | ret a => exact h
  | clock next ih => exact ih _ (h _) _
  | lock i update next ih => exact ih _ _ (h _ _) _

end Ensures

/-- The rest of a safe program only has to be safe for the results its first
part can have. -/
theorem Safe.bind_of {I : ι → σ → Prop} {R : α → Prop} {p : Prog ι σ α} (hp : Safe I p)
    (hr : Ensures R p) {f : α → Prog ι σ β} (hf : ∀ a, R a → Safe I (f a)) :
    Safe I (p >>= f) := by
  rw [Prog.bind_eq]
  induction p with
  | ret a => exact hf a hr
  | clock next ih => exact fun t => ih t (hp t) (hr t)
  | lock i update next ih => exact fun t s hs => ⟨(hp t s hs).1, ih t s (hp t s hs).2 (hr t s)⟩

namespace Pool

variable {τ : Type} [DecidableEq ι] [DecidableEq τ] {I : ι → σ → Prop}

theorem step_safe {c : Pool ι σ τ α} (hc : ∀ i, I i (c.cells i))
    (ht : ∀ t, Safe I (c.threads t)) (t : τ) (clk : Nat → Int) :
    (∀ i, I i ((c.step t clk).cells i)) ∧ ∀ u, Safe I ((c.step t clk).threads u) := by
  have hthread := ht t
  have hupd : ∀ p : Prog ι σ α, Safe I p → ∀ u, Safe I (Function.update c.threads t p u) := by
    intro p hp u
    by_cases hu : u = t
    · subst hu
      simpa using hp
    · simpa [Function.update_of_ne hu] using ht u
  unfold step
  cases hp : c.threads t with
  | ret a => exact ⟨hc, ht⟩
  | clock next =>
      rw [hp] at hthread
      exact ⟨hc, hupd _ (hthread _)⟩
  | lock i update next =>
      rw [hp] at hthread
      obtain ⟨hup, hnext⟩ := hthread clk (c.cells i) (hc i)
      refine ⟨fun j => ?_, hupd _ hnext⟩
      by_cases hj : j = i
      · subst hj
        simpa using hup
      · simpa [Function.update_of_ne hj] using hc j

/-- **Invariants of a pool**: safe threads keep the invariant under every
schedule. -/
theorem run_safe {c : Pool ι σ τ α} (hc : ∀ i, I i (c.cells i))
    (ht : ∀ t, Safe I (c.threads t)) (sched : List (τ × (Nat → Int))) :
    ∀ i, I i ((c.run sched).cells i) := by
  induction sched generalizing c with
  | nil => exact hc
  | cons e sched ih =>
      obtain ⟨hc', ht'⟩ := step_safe hc ht e.1 e.2
      exact ih hc' ht'

end Pool

-- From here on only the rules: unfolding a program of many sections into its
-- nested quantifiers is never what a proof wants.
attribute [irreducible] Safe Ensures

end Sections
