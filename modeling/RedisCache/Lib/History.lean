import Mathlib
import RedisCache.Lib.Sections

/-!
# Calls that overlap

Threads that make one call after another over shared cells. What a call does
is a program of sections, and sections of different calls interleave under a
schedule. The machine keeps a log of the calls that have returned, in the
order of their last sections.

`Settles G Q p` is the rule of linearization points: in states that have
`G`, the last step of what is left of the call does what `Q` says of the
whole call, whatever its earlier sections saw. `Machine.explained` is the
run: if no other step shows, the log is a sequential history from the
first state to the last.

Without the log the machine is a pool (`Machine.run_pool`), so what is
known of pools holds of it.
-/

namespace Sections

variable {ι σ τ γ ρ α : Type}

/-- A thread's plan: stop, or make a call and go on with its reply. -/
inductive Caller (γ ρ : Type) where
  | stop
  | call (c : γ) (next : ρ → Caller γ ρ)

/-- A call on its way. -/
structure Pending (ι σ γ ρ : Type) where
  call : γ
  /-- It has taken a step. -/
  begun : Bool
  /-- What the clock showed where the call read it between two sections. -/
  stamp : Option (Nat → Int)
  rest : Prog ι σ ρ
  next : ρ → Caller γ ρ

/-- A call that has returned, and what the clock showed it: where it read the
clock between two sections, else in its last section. -/
structure Returned (τ γ ρ : Type) where
  thread : τ
  call : γ
  reply : ρ
  readings : Nat → Int

structure Machine (ι σ τ γ ρ : Type) where
  cells : ι → σ
  threads : τ → Option (Pending ι σ γ ρ)
  log : List (Returned τ γ ρ)

/-! ## One step -/

/-- The readings of a program's own clock node, if that is its next step. -/
def Prog.stamp (u : Nat → Int) (st : Option (Nat → Int)) : Prog ι σ α → Option (Nat → Int)
  | .clock _ => some u
  | _ => st

/-- The next step of a program: what is left of it, and the cells. -/
def Prog.advance [DecidableEq ι] (u : Nat → Int) (s : ι → σ) :
    Prog ι σ α → Prog ι σ α × (ι → σ)
  | .ret a => (.ret a, s)
  | .clock next => (next (u 0), s)
  | .lock i update next => (next u (s i), Function.update s i (update u (s i)))

/-- The first call of a plan. -/
def Caller.enter (body : γ → Prog ι σ ρ) : Caller γ ρ → Option (Pending ι σ γ ρ)
  | .stop => none
  | .call c next => some ⟨c, false, none, body c, next⟩

namespace Machine

section Steps

variable (body : γ → Prog ι σ ρ)

def start (callers : τ → Caller γ ρ) (s : ι → σ) : Machine ι σ τ γ ρ :=
  ⟨s, fun t => (callers t).enter body, []⟩

variable [DecidableEq ι] [DecidableEq τ]

/-- Thread `t` takes its next step. A call returns with its last section. -/
def step (m : Machine ι σ τ γ ρ) (t : τ) (u : Nat → Int) : Machine ι σ τ γ ρ :=
  match m.threads t with
  | none => m
  | some p =>
      match p.rest.advance u m.cells with
      | (.ret r, cells) =>
          { cells := cells
            threads := Function.update m.threads t ((p.next r).enter body)
            log := m.log ++ [⟨t, p.call, r, (p.rest.stamp u p.stamp).getD u⟩] }
      | (rest, cells) =>
          { cells := cells
            threads := Function.update m.threads t
              (some ⟨p.call, true, p.rest.stamp u p.stamp, rest, p.next⟩)
            log := m.log }

def run (m : Machine ι σ τ γ ρ) (sched : List (τ × (Nat → Int))) : Machine ι σ τ γ ρ :=
  sched.foldl (fun m e => m.step body e.1 e.2) m

@[simp] theorem run_nil (m : Machine ι σ τ γ ρ) : m.run body [] = m := rfl

@[simp] theorem run_cons (m : Machine ι σ τ γ ρ) (e : τ × (Nat → Int)) (sched) :
    m.run body (e :: sched) = (m.step body e.1 e.2).run body sched := rfl

/-- `C` holds of every step of a run and the state before it. -/
def EachStep (C : Machine ι σ τ γ ρ → τ × (Nat → Int) → Prop) (m : Machine ι σ τ γ ρ)
    (sched : List (τ × (Nat → Int))) : Prop :=
  ∀ before e after, sched = before ++ e :: after → C (m.run body before) e

theorem eachStep_nil (C : Machine ι σ τ γ ρ → τ × (Nat → Int) → Prop)
    (m : Machine ι σ τ γ ρ) : EachStep body C m [] := by
  intro before e after h
  simp at h

theorem eachStep_cons {C : Machine ι σ τ γ ρ → τ × (Nat → Int) → Prop}
    {m : Machine ι σ τ γ ρ} {e : τ × (Nat → Int)} {sched : List (τ × (Nat → Int))} :
    EachStep body C m (e :: sched) ↔ C m e ∧ EachStep body C (m.step body e.1 e.2) sched := by
  constructor
  · intro h
    exact ⟨h [] e sched rfl, fun before e' after heq => h (e :: before) e' after (by rw [heq]; rfl)⟩
  · rintro ⟨hfirst, hrest⟩ before e' after heq
    cases before with
    | nil =>
        cases heq
        exact hfirst
    | cons e₀ before =>
        cases heq
        exact hrest before e' after rfl

/-- What a step can do. -/
inductive Stepped (m : Machine ι σ τ γ ρ) (t : τ) (u : Nat → Int) :
    Machine ι σ τ γ ρ → Prop
  | idle (h : m.threads t = none) : Stepped m t u m
  | returns (p : Pending ι σ γ ρ) (r : ρ) (h : m.threads t = some p)
      (hr : (p.rest.advance u m.cells).1 = .ret r) :
      Stepped m t u
        { cells := (p.rest.advance u m.cells).2
          threads := Function.update m.threads t ((p.next r).enter body)
          log := m.log ++ [⟨t, p.call, r, (p.rest.stamp u p.stamp).getD u⟩] }
  | goesOn (p : Pending ι σ γ ρ) (h : m.threads t = some p)
      (hr : ∀ r, (p.rest.advance u m.cells).1 ≠ .ret r) :
      Stepped m t u
        { cells := (p.rest.advance u m.cells).2
          threads := Function.update m.threads t
            (some ⟨p.call, true, p.rest.stamp u p.stamp, (p.rest.advance u m.cells).1, p.next⟩)
          log := m.log }

theorem stepped (m : Machine ι σ τ γ ρ) (t : τ) (u : Nat → Int) :
    Stepped body m t u (m.step body t u) := by
  unfold step
  cases hp : m.threads t with
  | none => exact .idle hp
  | some p =>
      simp only
      cases ha : p.rest.advance u m.cells with
      | mk rest cells =>
          have hrest : (p.rest.advance u m.cells).1 = rest := by rw [ha]
          have hcells : (p.rest.advance u m.cells).2 = cells := by rw [ha]
          cases rest with
          | ret r =>
              have hs : Stepped body m t u _ := .returns p r hp hrest
              rwa [hcells] at hs
          | clock next =>
              have hs : Stepped body m t u _ := .goesOn p hp (by simp [hrest])
              rwa [hrest, hcells] at hs
          | lock i update next =>
              have hs : Stepped body m t u _ := .goesOn p hp (by simp [hrest])
              rwa [hrest, hcells] at hs

end Steps

end Machine

/-! ## Without the log -/

section Pool

variable (body : γ → Prog ι σ ρ)

/-- All that a plan does, as one program. -/
def Caller.prog : Caller γ ρ → Prog ι σ Unit
  | .stop => pure ()
  | .call c next => body c >>= fun r => (next r).prog

/-- All that a thread still does. -/
def threadProg : Option (Pending ι σ γ ρ) → Prog ι σ Unit
  | none => pure ()
  | some p => p.rest >>= fun r => (p.next r).prog body

theorem threadProg_enter (caller : Caller γ ρ) :
    threadProg body (caller.enter body) = caller.prog body := by
  cases caller with
  | stop => rfl
  | call c next => rfl

def Machine.pool (m : Machine ι σ τ γ ρ) : Pool ι σ τ Unit :=
  ⟨m.cells, fun t => threadProg body (m.threads t)⟩

theorem Machine.pool_thread {m : Machine ι σ τ γ ρ} {t : τ} {p : Pending ι σ γ ρ}
    (h : m.threads t = some p) :
    (m.pool body).threads t = p.rest >>= fun r => (p.next r).prog body :=
  congrArg (threadProg body) h

theorem Caller.prog_safe {I : ι → σ → Prop} (hbody : ∀ c, Safe I (body c))
    (caller : Caller γ ρ) : Safe I (caller.prog body) := by
  induction caller with
  | stop => exact Safe.pure _
  | call c next ih => exact Safe.bind (hbody c) ih

variable [DecidableEq τ]

theorem Machine.pool_update (cells : ι → σ) (threads : τ → Option (Pending ι σ γ ρ)) (t : τ)
    (p : Option (Pending ι σ γ ρ)) (log : List (Returned τ γ ρ)) :
    Machine.pool body ⟨cells, Function.update threads t p, log⟩ =
      ⟨cells, Function.update (fun t => threadProg body (threads t)) t (threadProg body p)⟩ := by
  refine congrArg (Pool.mk cells) (funext fun t' => ?_)
  by_cases ht : t' = t
  · subst ht
    simp
  · simp [Function.update_of_ne ht]

variable [DecidableEq ι]

/-- A step of a program is a step of the pool. -/
theorem Pool.step_advance {c : Pool ι σ τ Unit} {t : τ} {p : Prog ι σ ρ}
    {f : ρ → Prog ι σ Unit} (ht : c.threads t = p >>= f) (hp : ∀ r, p ≠ .ret r)
    (u : Nat → Int) :
    c.step t u =
      ⟨(p.advance u c.cells).2, Function.update c.threads t ((p.advance u c.cells).1 >>= f)⟩ := by
  unfold Pool.step
  rw [ht]
  cases p with
  | ret r => exact absurd rfl (hp r)
  | clock next => rfl
  | lock i update next => rfl

/-- A step of the machine is a step of its pool, or none when a call returns
that has no section at all. -/
theorem Machine.step_pool (m : Machine ι σ τ γ ρ) (t : τ) (u : Nat → Int) :
    (m.step body t u).pool body = m.pool body ∨
      (m.step body t u).pool body = (m.pool body).step t u := by
  have hstep := m.stepped body t u
  generalize m.step body t u = m' at hstep
  cases hstep with
  | idle h => exact Or.inl rfl
  | returns p r hp hr =>
      rw [Machine.pool_update, threadProg_enter]
      -- a call that is over before its first section makes no step of the pool
      by_cases hret : ∃ r', p.rest = .ret r'
      · obtain ⟨r', hr'⟩ := hret
        have hthread := Machine.pool_thread body hp
        rw [hr'] at hr hthread ⊢
        cases hr
        refine Or.inl (congrArg (Pool.mk m.cells) ?_)
        exact (congrArg _ hthread.symm).trans (Function.update_eq_self t _)
      · refine Or.inr ?_
        rw [Pool.step_advance (Machine.pool_thread body hp) fun r h => hret ⟨r, h⟩,
          show (m.pool body).cells = m.cells from rfl, hr]
        rfl
  | goesOn p hp hr =>
      refine Or.inr ?_
      rw [Machine.pool_update, Pool.step_advance (Machine.pool_thread body hp)]
      · rfl
      · intro r h
        exact hr r (by rw [h]; rfl)

/-- **The machine is a pool with a log.** -/
theorem Machine.run_pool (m : Machine ι σ τ γ ρ) (sched : List (τ × (Nat → Int))) :
    ∃ sched', (m.run body sched).pool body = (m.pool body).run sched' := by
  induction sched generalizing m with
  | nil => exact ⟨[], rfl⟩
  | cons e sched ih =>
      obtain ⟨sched', hrun⟩ := ih (m.step body e.1 e.2)
      rcases m.step_pool body e.1 e.2 with hsame | hstep
      · exact ⟨sched', by rw [Machine.run_cons, hrun, hsame]⟩
      · exact ⟨e :: sched', by rw [Machine.run_cons, hrun, hstep, Pool.run_cons]⟩

/-- Safe calls keep the invariant of the cells. -/
theorem Machine.run_safe {I : ι → σ → Prop} (hbody : ∀ c, Safe I (body c))
    (callers : τ → Caller γ ρ) {s : ι → σ} (hs : ∀ i, I i (s i))
    (sched : List (τ × (Nat → Int))) (i : ι) :
    I i (((start body callers s).run body sched).cells i) := by
  obtain ⟨sched', hrun⟩ := (start body callers s).run_pool body sched
  have hcells : ((start body callers s).run body sched).cells =
      (((start body callers s).pool body).run sched').cells := congrArg Pool.cells hrun
  rw [hcells]
  refine Pool.run_safe hs (fun t => ?_) sched' i
  rw [show ((start body callers s).pool body).threads t =
    threadProg body ((callers t).enter body) from rfl, threadProg_enter]
  exact (callers t).prog_safe body hbody

end Pool

/-! ## Linearization points -/

/-- A program that has returned has no part that has not. -/
theorem Prog.bind_eq_ret {β : Type} {p : Prog ι σ α} {g : α → Prog ι σ β} {b : β}
    (h : p >>= g = .ret b) : ∃ a, p = .ret a ∧ g a = .ret b := by
  cases p with
  | ret a => exact ⟨a, rfl, h⟩
  | clock next => cases h
  | lock i update next => cases h

/-- In states that have `G`, the last step of what is left of a call does what
`Q` says: from which readings, in which state, with which reply, to which
state. -/
def Settles [DecidableEq ι] (G : (ι → σ) → Prop)
    (Q : (Nat → Int) → (ι → σ) → ρ → (ι → σ) → Prop) :
    Option (Nat → Int) → Prog ι σ ρ → Prop
  | st, .ret r => ∀ u s, G s → Q (st.getD u) s r s
  | _, .clock next => ∀ u, Settles G Q (some u) (next (u 0))
  | st, .lock i update next => ∀ u s, G s →
      (∀ r, next u (s i) = .ret r →
        Q (st.getD u) s r (Function.update s i (update u (s i)))) ∧
      ((∀ r, next u (s i) ≠ .ret r) → Settles G Q st (next u (s i)))

namespace Settles

variable [DecidableEq ι] {G : (ι → σ) → Prop}
  {Q : (Nat → Int) → (ι → σ) → ρ → (ι → σ) → Prop} {st : Option (Nat → Int)}
  {p : Prog ι σ ρ} {u : Nat → Int} {s : ι → σ}

theorem returns (h : Settles G Q st p) (hs : G s) {r : ρ} (hr : (p.advance u s).1 = .ret r) :
    Q ((p.stamp u st).getD u) s r (p.advance u s).2 := by
  cases p with
  | ret r' =>
      cases hr
      exact h u s hs
  | clock next =>
      have hnext : Settles G Q (some u) (next (u 0)) := h u
      rw [show next (u 0) = .ret r from hr] at hnext
      exact hnext u s hs
  | lock i update next => exact (h u s hs).1 r hr

theorem goesOn (h : Settles G Q st p) (hs : G s) (hr : ∀ r, (p.advance u s).1 ≠ .ret r) :
    Settles G Q (p.stamp u st) (p.advance u s).1 := by
  cases p with
  | ret r => exact absurd rfl (hr r)
  | clock next => exact h u
  | lock i update next => exact (h u s hs).2 hr

/-- A call that is one section. -/
theorem locked {i : ι} {f : (Nat → Int) → σ → ρ × σ}
    (h : ∀ u s, G s → Q (st.getD u) s (f u (s i)).1 (Function.update s i (f u (s i)).2)) :
    Settles G Q st (Prog.locked i f) := by
  intro u s hs
  refine ⟨fun r hr => ?_, fun hr => absurd rfl (hr (f u (s i)).1)⟩
  cases hr
  exact h u s hs

/-- A section, and what follows it. -/
theorem locked_bind {i : ι} {f : (Nat → Int) → σ → α × σ} {g : α → Prog ι σ ρ}
    (hlast : ∀ u s r, G s → g (f u (s i)).1 = .ret r →
      Q (st.getD u) s r (Function.update s i (f u (s i)).2))
    (hnext : ∀ u s, G s → (∀ r, g (f u (s i)).1 ≠ .ret r) →
      Settles G Q st (g (f u (s i)).1)) :
    Settles G Q st (Prog.locked i f >>= g) := by
  intro u s hs
  exact ⟨fun r hr => hlast u s r hs hr, fun hr => hnext u s hs hr⟩

/-- A section that only reads, and always reads the same. -/
theorem read_bind {i : ι} {f : (Nat → Int) → σ → α} {g : α → Prog ι σ ρ} {a : α}
    (hread : ∀ u s, G s → f u (s i) = a) (h : Settles G Q st (g a)) :
    Settles G Q st (Prog.locked i (fun u s => (f u s, s)) >>= g) := by
  refine locked_bind (fun u s r hs hr => ?_) fun u s hs _ => ?_
  · rw [hread u s hs] at hr
    rw [hr] at h
    rw [Function.update_eq_self]
    exact h u s hs
  · rwa [hread u s hs]

/-- What comes before the last section does not matter. -/
theorem after {p : Prog ι σ α} {g : α → Prog ι σ ρ} (hg : ∀ a r, g a ≠ .ret r)
    (h : ∀ a st, Settles G Q st (g a)) (st : Option (Nat → Int)) :
    Settles G Q st (p >>= g) := by
  induction p generalizing st with
  | ret a => exact h a st
  | clock next ih => exact fun u => ih (u 0) (some u)
  | lock i update next ih =>
      refine fun u s hs => ⟨fun r hr => ?_, fun _ => ih u (s i) st⟩
      obtain ⟨a, -, ha⟩ := Prog.bind_eq_ret hr
      exact absurd ha (hg a r)

theorem map {p : Prog ι σ α} {f : α → ρ}
    (h : Settles G (fun rd s a s' => Q rd s (f a) s') st p) : Settles G Q st (f <$> p) := by
  rw [map_eq_pure_bind]
  induction p generalizing st with
  | ret a => exact h
  | clock next ih => exact fun u => ih (u 0) (h u)
  | lock i update next ih =>
      intro u s hs
      obtain ⟨hlast, hnext⟩ := h u s hs
      refine ⟨fun r hr => ?_, fun hr => ih u (s i) (hnext fun a ha => ?_)⟩
      · obtain ⟨a, ha, hfa⟩ := Prog.bind_eq_ret hr
        cases hfa
        exact hlast a ha
      · refine hr (f a) ?_
        show next u (s i) >>= (fun a => pure (f a)) = .ret (f a)
        rw [ha]
        rfl

end Settles

/-! ## Sequential histories -/

section Explained

variable {V : Type}

/-- One call after the other leads from `x` to `y`, each as `Q` says. -/
def Explained (Q : γ → (Nat → Int) → V → ρ → V → Prop) :
    List (Returned τ γ ρ) → V → V → Prop
  | [], x, y => x = y
  | e :: es, x, y => ∃ z, Q e.call e.readings x e.reply z ∧ Explained Q es z y

theorem explained_append {Q : γ → (Nat → Int) → V → ρ → V → Prop}
    {es es' : List (Returned τ γ ρ)} {x y z : V} (h : Explained Q es x y)
    (h' : Explained Q es' y z) : Explained Q (es ++ es') x z := by
  induction es generalizing x with
  | nil =>
      cases h
      exact h'
  | cons e es ih =>
      obtain ⟨w, hw, hrest⟩ := h
      exact ⟨w, hw, ih hrest⟩

namespace Machine

/-- The calls of one kind that have returned. -/
def history (R : γ → Bool) (m : Machine ι σ τ γ ρ) : List (Returned τ γ ρ) :=
  m.log.filter fun e => R e.call

theorem history_returned (R : γ → Bool) (m : Machine ι σ τ γ ρ) (cells : ι → σ)
    (threads : τ → Option (Pending ι σ γ ρ)) (e : Returned τ γ ρ) :
    history R ⟨cells, threads, m.log ++ [e]⟩ =
      m.history R ++ if R e.call = true then [e] else [] := by
  rw [history, history, List.filter_append]
  cases h : R e.call <;> simp [h]

variable [DecidableEq ι] [DecidableEq τ] (body : γ → Prog ι σ ρ)
variable (v : (ι → σ) → V) (G : V → (ι → σ) → Prop) (R : γ → Bool)

/-- What a step has to meet. The calls of kind `R` are those that may change
the value of `v`, and a call that began at `x` counts on `G x`. -/
structure Undisturbed (m : Machine ι σ τ γ ρ) (e : τ × (Nat → Int)) : Prop where
  good : G (v m.cells) m.cells
  /-- A change comes with the last section of a call of the kind. -/
  quiet : (m.step body e.1 e.2).history R = m.history R →
    v (m.step body e.1 e.2).cells = v m.cells
  /-- No other thread is in the middle of a call that minds the change. -/
  steady : ∀ t p, t ≠ e.1 → m.threads t = some p → R p.call = true → p.begun = true →
    G (v (m.step body e.1 e.2).cells) = G (v m.cells)

variable (Q : γ → (Nat → Int) → V → ρ → V → Prop)

/-- What is left of a call settles it, from where the call began. -/
def Ready (m : Machine ι σ τ γ ρ) : Prop :=
  ∀ t p, m.threads t = some p → R p.call = true →
    ∀ x, (p.begun = true → G x = G (v m.cells)) →
      Settles (G x) (fun rd s r s' => Q p.call rd (v s) r (v s')) p.stamp p.rest

variable {body v G R Q}

theorem ready_enter
    (hbody : ∀ c x, R c = true →
      Settles (G x) (fun rd s r s' => Q c rd (v s) r (v s')) none (body c))
    {caller : Caller γ ρ} {p : Pending ι σ γ ρ} (hp : caller.enter body = some p)
    (hR : R p.call = true) (x : V) :
    Settles (G x) (fun rd s r s' => Q p.call rd (v s) r (v s')) p.stamp p.rest := by
  cases caller with
  | stop => cases hp
  | call c next =>
      cases hp
      exact hbody c x hR

/-- The other threads of a step stay ready. -/
theorem Ready.others {m m' : Machine ι σ τ γ ρ} {t : τ} {p' : Option (Pending ι σ γ ρ)}
    (h : m.Ready v G R Q) (hthreads : m'.threads = Function.update m.threads t p')
    (hsteady : ∀ t' p, t' ≠ t → m.threads t' = some p → R p.call = true → p.begun = true →
      G (v m'.cells) = G (v m.cells))
    (hown : ∀ p, p' = some p → R p.call = true →
      ∀ x, (p.begun = true → G x = G (v m'.cells)) →
        Settles (G x) (fun rd s r s' => Q p.call rd (v s) r (v s')) p.stamp p.rest) :
    m'.Ready v G R Q := by
  intro t' p hp hR x hx
  rw [hthreads] at hp
  by_cases ht : t' = t
  · subst ht
    rw [Function.update_self] at hp
    exact hown p hp hR x hx
  · rw [Function.update_of_ne ht] at hp
    exact h t' p hp hR x fun hb => (hx hb).trans (hsteady t' p ht hp hR hb)

/-- One step adds at most one call to the history, and explains it. -/
theorem Ready.step
    (hbody : ∀ c x, R c = true →
      Settles (G x) (fun rd s r s' => Q c rd (v s) r (v s')) none (body c))
    {m : Machine ι σ τ γ ρ} {e : τ × (Nat → Int)} (h : m.Ready v G R Q)
    (he : Undisturbed body v G R m e) :
    (m.step body e.1 e.2).Ready v G R Q ∧
      ∃ es, (m.step body e.1 e.2).history R = m.history R ++ es ∧
        Explained Q es (v m.cells) (v (m.step body e.1 e.2).cells) := by
  obtain ⟨hgood, hquiet, hsteady⟩ := he
  have hstep := m.stepped body e.1 e.2
  generalize m.step body e.1 e.2 = m' at hstep hquiet hsteady ⊢
  cases hstep with
  | idle hidle => exact ⟨h, [], (List.append_nil _).symm, rfl⟩
  | returns p r hp hr =>
      refine ⟨h.others rfl hsteady fun p' hp' hR x _ => ready_enter hbody hp' hR x, ?_⟩
      rw [history_returned] at hquiet ⊢
      by_cases hR : R p.call = true
      · have hQ := (h e.1 p hp hR _ fun _ => rfl).returns hgood hr
        exact ⟨[_], congrArg _ (if_pos hR), _, hQ, rfl⟩
      · rw [if_neg hR, List.append_nil] at hquiet ⊢
        exact ⟨[], (List.append_nil _).symm, (hquiet rfl).symm⟩
  | goesOn p hp hr =>
      have hv := hquiet rfl
      refine ⟨h.others rfl hsteady fun p' hp' hR x hx => ?_, [], (List.append_nil _).symm, hv.symm⟩
      cases hp'
      -- the guard held at the step, which the call does not return from, and after it
      have hx' : G x = G (v m.cells) := (hx rfl).trans (congrArg G hv)
      exact (h e.1 p hp hR x fun _ => hx').goesOn (hx' ▸ hgood) hr

theorem Ready.run
    (hbody : ∀ c x, R c = true →
      Settles (G x) (fun rd s r s' => Q c rd (v s) r (v s')) none (body c))
    {m : Machine ι σ τ γ ρ} {sched : List (τ × (Nat → Int))} (h : m.Ready v G R Q)
    (hsteps : EachStep body (Undisturbed body v G R) m sched) :
    ∃ es, (m.run body sched).history R = m.history R ++ es ∧
      Explained Q es (v m.cells) (v (m.run body sched).cells) := by
  induction sched generalizing m with
  | nil => exact ⟨[], (List.append_nil _).symm, rfl⟩
  | cons e sched ih =>
      obtain ⟨hfirst, hrest⟩ := (eachStep_cons body).mp hsteps
      obtain ⟨hready, es, hes, hexp⟩ := h.step hbody hfirst
      obtain ⟨es', hes', hexp'⟩ := ih hready hrest
      refine ⟨es ++ es', ?_, explained_append hexp hexp'⟩
      rw [run_cons, hes', hes, List.append_assoc]

/-- **Calls that settle are linearizable**: under every schedule that meets the
conditions the history, in the order of last sections, is sequential. -/
theorem explained
    (hbody : ∀ c x, R c = true →
      Settles (G x) (fun rd s r s' => Q c rd (v s) r (v s')) none (body c))
    (callers : τ → Caller γ ρ) (s : ι → σ) {sched : List (τ × (Nat → Int))}
    (hsteps : EachStep body (Undisturbed body v G R) (start body callers s) sched) :
    Explained Q (((start body callers s).run body sched).history R) (v s)
      (v ((start body callers s).run body sched).cells) := by
  have hready : (start body callers s).Ready v G R Q := fun t p hp hR x _ =>
    ready_enter hbody (show (callers t).enter body = some p from hp) hR x
  obtain ⟨es, hes, hexp⟩ := hready.run hbody hsteps
  rw [hes]
  exact hexp

end Machine

end Explained

end Sections
