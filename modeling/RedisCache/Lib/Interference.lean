import Mathlib
import RedisCache.Lib.History

/-!
# A program among other threads

A thread's program runs one section after the other, and in between the other
threads work on the same cells. A `Setting` says how much of that has to be
put up with: what the clock can show, and what the others may have done to the
cells by the time it shows `t`.

* `Among S Q t p s` — from cells `s`, not before `t`, and with the others
  coming in before every step: the program ends with `Q`. Its rules follow the
  program (`Among.bind`, `Among.locked`, `Among.eachCell`).
* `Within S t p` — the other side: every step of `p` is one that the setting
  allows the others.

`Among.step` and `Among.interrupted` are what makes `Among` an invariant of a
run in which the two take turns. `Ends p n` bounds the steps that `p` takes,
whatever the others do.
-/

namespace Sections

variable {ι σ α β : Type}

/-- What goes on around a program. -/
structure Setting (ι σ : Type) where
  /-- What the clock can show. -/
  reading : Int → Prop
  /-- What the others may have done by the time it shows `t`. -/
  others : Int → (ι → σ) → (ι → σ) → Prop
  refl : ∀ t s, others t s s
  trans : ∀ {t s s' s''}, others t s s' → others t s' s'' → others t s s''
  later : ∀ {t t' s s'}, t ≤ t' → others t s s' → others t' s s'

/-- What the clock shows a step that is taken at `t` or later. -/
structure Setting.Shows (S : Setting ι σ) (t : Int) (u : Nat → Int) : Prop where
  start : t ≤ u 0
  mono : Monotone u
  ranged : ∀ n, S.reading (u n)

namespace Setting.Shows

variable {S : Setting ι σ} {t t' : Int} {u : Nat → Int}

theorem from_le (h : S.Shows t' u) (hle : t ≤ t') : S.Shows t u :=
  ⟨hle.trans h.start, h.mono, h.ranged⟩

theorem zero_le_one (h : S.Shows t u) : u 0 ≤ u 1 := h.mono (Nat.zero_le 1)

theorem le_one (h : S.Shows t u) : t ≤ u 1 := h.start.trans h.zero_le_one

end Setting.Shows

/-! ## What the others do to a program -/

section Among

variable [DecidableEq ι]

/-- Whatever the others do and the clock shows, `p` ends with `Q` of the time,
its result and the cells. -/
def Among (S : Setting ι σ) (Q : Int → α → (ι → σ) → Prop) : Int → Prog ι σ α → (ι → σ) → Prop
  | t, .ret a, s => Q t a s
  | t, .clock next, s => ∀ u s', S.Shows t u → S.others (u 0) s s' →
      Among S Q (u 1) (next (u 0)) s'
  | t, .lock i update next, s => ∀ u s', S.Shows t u → S.others (u 0) s s' →
      Among S Q (u 1) (next u (s' i)) (Function.update s' i (update u (s' i)))

/-- What the others cannot spoil. -/
def Stable (S : Setting ι σ) (J : Int → (ι → σ) → Prop) : Prop :=
  ∀ t t' s s', t ≤ t' → S.others t' s s' → J t s → J t' s'

namespace Among

variable {S : Setting ι σ} {Q Q' : Int → α → (ι → σ) → Prop} {R : Int → β → (ι → σ) → Prop}
  {t t' : Int} {p : Prog ι σ α} {s s' : ι → σ}

/-- The clock does not go back, and shows nothing it cannot show. -/
theorem weaken (h : Among S Q t p s)
    (hQ : ∀ t' a s', t ≤ t' → (S.reading t → S.reading t') → Q t' a s' → Q' t' a s') :
    Among S Q' t p s := by
  induction p generalizing t s with
  | ret a => exact hQ t a s le_rfl id h
  | clock next ih =>
      intro u s' hu hs
      refine ih (u 0) (h u s' hu hs) fun t' a s'' hle hr => ?_
      exact hQ t' a s'' (hu.le_one.trans hle) fun _ => hr (hu.ranged 1)
  | lock i update next ih =>
      intro u s' hu hs
      refine ih u (s' i) (h u s' hu hs) fun t' a s'' hle hr => ?_
      exact hQ t' a s'' (hu.le_one.trans hle) fun _ => hr (hu.ranged 1)

theorem pure {a : α} (h : Q t a s) : Among S Q t (Pure.pure a : Prog ι σ α) s := h

theorem result {a : α} (h : Among S Q t (.ret a) s) : Q t a s := h

theorem bind {f : α → Prog ι σ β}
    (h : Among S (fun t a s => Among S R t (f a) s) t p s) : Among S R t (p >>= f) s := by
  rw [Prog.bind_eq]
  induction p generalizing t s with
  | ret a => exact h
  | clock next ih =>
      intro u s' hu hs
      exact ih (u 0) (h u s' hu hs)
  | lock i update next ih =>
      intro u s' hu hs
      exact ih u (s' i) (h u s' hu hs)

theorem map {f : α → β} (h : Among S (fun t a s => R t (f a) s) t p s) :
    Among S R t (f <$> p) s := by
  rw [map_eq_pure_bind]
  exact bind h

theorem now {R : Int → Int → (ι → σ) → Prop}
    (h : ∀ u s', S.Shows t u → S.others (u 0) s s' → R (u 1) (u 0) s') :
    Among S R t Prog.now s := h

theorem locked {i : ι} {body : (Nat → Int) → σ → α × σ}
    (h : ∀ u s', S.Shows t u → S.others (u 0) s s' →
      Q (u 1) (body u (s' i)).1 (Function.update s' i (body u (s' i)).2)) :
    Among S Q t (Prog.locked i body) s := h

/-- One section after the other: `J rest seen` holds when the cells `rest` are
still to come and the others have given `seen`. -/
theorem eachCell {body : σ → α × σ} {J : List ι → List α → Int → (ι → σ) → Prop}
    (hstep : ∀ i rest seen t s u s', J (i :: rest) seen t s → S.Shows t u →
      S.others (u 0) s s' →
        J rest (seen ++ [(body (s' i)).1]) (u 1) (Function.update s' i (body (s' i)).2))
    {is : List ι} (seen : List α) (h : J is seen t s) :
    Among S (fun t as s => J [] (seen ++ as) t s) t (Prog.eachCell body is) s := by
  induction is generalizing t s seen with
  | nil =>
      refine pure ?_
      rwa [List.append_nil]
  | cons i is ih =>
      refine bind (locked fun u s' hu hs => bind ?_)
      refine weaken (ih _ (hstep i is seen t s u s' h hu hs)) fun t' as s'' _ _ hJ => ?_
      rwa [List.append_assoc] at hJ

/-- Sections that only look. Each cell is seen as it was at a time of its own,
in cells for which the stable `J` held. -/
theorem eachCell_read {J : Int → (ι → σ) → Prop} (hJ : Stable S J) (body : σ → α) {is : List ι}
    (hnd : is.Nodup) (h : J t s) :
    Among S (fun t' as s' => J t' s' ∧ ∃ seen : ι → σ, as = is.map (fun i => body (seen i)) ∧
        ∀ i ∈ is, ∃ r s₀, t ≤ r ∧ r ≤ t' ∧ J r s₀ ∧ seen i = s₀ i)
      t (Prog.eachCell (fun c => (body c, c)) is) s := by
  induction is generalizing t s with
  | nil => exact pure ⟨h, s, rfl, fun i hi => by cases hi⟩
  | cons i is ih =>
      obtain ⟨hi, hnd'⟩ := List.nodup_cons.mp hnd
      refine bind (locked fun u s' hu hs => bind ?_)
      have hseen : J (u 0) s' := hJ t (u 0) s s' hu.start hs h
      have hnext : J (u 1) s' := hJ (u 0) (u 1) s' s' hu.zero_le_one (S.refl _ _) hseen
      simp only [Function.update_eq_self]
      refine weaken (ih hnd' hnext) fun t' as s'' hle _ hrest => ?_
      obtain ⟨hend, seen, rfl, hat⟩ := hrest
      refine pure ⟨hend, Function.update seen i (s' i), ?_, fun j hj => ?_⟩
      · -- the cell just seen comes only once
        rw [List.map_cons, Function.update_self]
        congr 1
        refine List.map_congr_left fun j hj => ?_
        have hne : j ≠ i := by
          rintro rfl
          exact hi hj
        rw [Function.update_of_ne hne]
      · by_cases hji : j = i
        · subst hji
          exact ⟨u 0, s', hu.start, hu.zero_le_one.trans hle, hseen, Function.update_self _ _ _⟩
        · obtain ⟨r, s₀, hr, hr', hs₀, hj'⟩ :=
            hat j (List.mem_of_ne_of_mem hji hj)
          refine ⟨r, s₀, hu.le_one.trans hr, hr', hs₀, ?_⟩
          rw [Function.update_of_ne hji, hj']

/-- The program takes a step of its own. -/
theorem step (h : Among S Q t p s) (hQ : ∀ a, Stable S fun t s => Q t a s) {u : Nat → Int}
    (hu : S.Shows t u) : Among S Q (u 1) (p.advance u s).1 (p.advance u s).2 := by
  cases p with
  | ret a => exact hQ a t (u 1) s s hu.le_one (S.refl _ _) h
  | clock next => exact h u s hu (S.refl _ _)
  | lock i update next => exact h u s hu (S.refl _ _)

/-- The others come in between, or time passes. -/
theorem interrupted (h : Among S Q t p s) (hQ : ∀ a, Stable S fun t s => Q t a s)
    (hle : t ≤ t') (hs : S.others t' s s') : Among S Q t' p s' := by
  cases p with
  | ret a => exact hQ a t t' s s' hle hs h
  | clock next =>
      intro u s'' hu hs'
      exact h u s'' (hu.from_le hle) (S.trans (S.later hu.start hs) hs')
  | lock i update next =>
      intro u s'' hu hs'
      exact h u s'' (hu.from_le hle) (S.trans (S.later hu.start hs) hs')

end Among

/-! ## What a program does to the others -/

/-- Every step of `p`, taken at `t` or later, is one that the setting allows. -/
def Within (S : Setting ι σ) : Int → Prog ι σ α → Prop
  | _, .ret _ => True
  | t, .clock next => ∀ u, S.Shows t u → Within S (u 0) (next (u 0))
  | t, .lock i update next => ∀ u s, S.Shows t u →
      S.others (u 0) s (Function.update s i (update u (s i))) ∧ Within S (u 0) (next u (s i))

namespace Within

variable {S : Setting ι σ} {t t' : Int} {p : Prog ι σ α}

theorem later (h : Within S t p) (hle : t ≤ t') : Within S t' p := by
  cases p with
  | ret a => trivial
  | clock next => exact fun u hu => h u (hu.from_le hle)
  | lock i update next => exact fun u s hu => h u s (hu.from_le hle)

theorem pure (a : α) : Within S t (Pure.pure a : Prog ι σ α) := trivial

theorem bind {f : α → Prog ι σ β} (hp : Within S t p) (hf : ∀ t' a, t ≤ t' → Within S t' (f a)) :
    Within S t (p >>= f) := by
  rw [Prog.bind_eq]
  induction p generalizing t with
  | ret a => exact hf t a le_rfl
  | clock next ih =>
      intro u hu
      exact ih (u 0) (hp u hu) fun t' a hle => hf t' a (hu.start.trans hle)
  | lock i update next ih =>
      intro u s hu
      refine ⟨(hp u s hu).1, ih u (s i) (hp u s hu).2 fun t' a hle => ?_⟩
      exact hf t' a (hu.start.trans hle)

/-- The rest may count on the reading. -/
theorem now_bind {f : Int → Prog ι σ β} (hf : ∀ r, t ≤ r → Within S r (f r)) :
    Within S t (Prog.now >>= f) := fun u hu => hf (u 0) hu.start

/-- The same section on each cell, if it is allowed from `t` on. -/
theorem eachCell {body : σ → α × σ}
    (h : ∀ t' i s, t ≤ t' → S.others t' s (Function.update s i (body (s i)).2)) (is : List ι) :
    Within S t (Prog.eachCell body is) := by
  induction is generalizing t with
  | nil => exact pure _
  | cons i is ih =>
      have hfirst : Within S t (Prog.locked i fun _ c => body c) := fun u s hu =>
        ⟨h (u 0) i s hu.start, trivial⟩
      refine bind hfirst fun t' a hle => bind (ih ?_) fun _ _ _ => pure _
      exact fun t'' j s hle' => h t'' j s (hle.trans hle')

theorem eachCell_read (body : σ → α) (is : List ι) :
    Within S t (Prog.eachCell (fun c => (body c, c)) is) :=
  eachCell (fun t' i s _ => by
    rw [Function.update_eq_self]
    exact S.refl t' s) is

/-- What a step does to the cells, and what is left. -/
theorem advance (h : Within S t p) {u : Nat → Int} (hu : S.Shows t u) (s : ι → σ) :
    S.others (u 0) s (p.advance u s).2 ∧ Within S (u 0) (p.advance u s).1 := by
  cases p with
  | ret a => exact ⟨S.refl _ _, trivial⟩
  | clock next => exact ⟨S.refl _ _, h u hu⟩
  | lock i update next => exact h u s hu

end Within

end Among

/-! ## How long a program takes -/

/-- After at most `n` steps there is a result, whatever they see. -/
def Ends : Prog ι σ α → Nat → Prop
  | .ret _, _ => True
  | .clock next, n => ∃ k, n = k + 1 ∧ ∀ t, Ends (next t) k
  | .lock _ _ next, n => ∃ k, n = k + 1 ∧ ∀ u s, Ends (next u s) k

namespace Ends

variable {p : Prog ι σ α} {m n : Nat}

theorem mono (h : Ends p m) (hle : m ≤ n) : Ends p n := by
  induction p generalizing m n with
  | ret a => trivial
  | clock next ih =>
      obtain ⟨k, rfl, hnext⟩ := h
      obtain ⟨n, rfl⟩ := Nat.exists_eq_add_of_le' ((Nat.le_add_left 1 k).trans hle)
      exact ⟨n, rfl, fun t => ih t (hnext t) (Nat.le_of_succ_le_succ hle)⟩
  | lock i update next ih =>
      obtain ⟨k, rfl, hnext⟩ := h
      obtain ⟨n, rfl⟩ := Nat.exists_eq_add_of_le' ((Nat.le_add_left 1 k).trans hle)
      exact ⟨n, rfl, fun u s => ih u s (hnext u s) (Nat.le_of_succ_le_succ hle)⟩

theorem pure (a : α) (n : Nat) : Ends (Pure.pure a : Prog ι σ α) n := trivial

theorem bind {f : α → Prog ι σ β} (hp : Ends p m) (hf : ∀ a, Ends (f a) n) :
    Ends (p >>= f) (m + n) := by
  rw [Prog.bind_eq]
  induction p generalizing m with
  | ret a => exact (hf a).mono (Nat.le_add_left n m)
  | clock next ih =>
      obtain ⟨k, rfl, hnext⟩ := hp
      exact ⟨k + n, Nat.add_right_comm k 1 n, fun t => ih t (hnext t)⟩
  | lock i update next ih =>
      obtain ⟨k, rfl, hnext⟩ := hp
      exact ⟨k + n, Nat.add_right_comm k 1 n, fun u s => ih u s (hnext u s)⟩

theorem map {f : α → β} (hp : Ends p n) : Ends (f <$> p) n := by
  rw [map_eq_pure_bind]
  exact hp.bind fun _ => pure _ 0

theorem now : Ends (Prog.now : Prog ι σ Int) 1 := ⟨0, rfl, fun _ => trivial⟩

theorem locked (i : ι) (body : (Nat → Int) → σ → α × σ) : Ends (Prog.locked i body) 1 :=
  ⟨0, rfl, fun _ _ => trivial⟩

theorem eachCell (body : σ → α × σ) (is : List ι) : Ends (Prog.eachCell body is) is.length := by
  induction is with
  | nil => exact pure _ _
  | cons i is ih =>
      rw [List.length_cons, Nat.add_comm]
      exact (locked i _).bind fun _ => ih.bind fun _ => pure _ 0

/-- A step brings the result nearer, unless it is there. -/
theorem advance [DecidableEq ι] (h : Ends p n) (hp : ∀ a, p ≠ .ret a) (u : Nat → Int)
    (s : ι → σ) : ∃ k, n = k + 1 ∧ Ends (p.advance u s).1 k := by
  cases p with
  | ret a => exact absurd rfl (hp a)
  | clock next =>
      obtain ⟨k, rfl, hnext⟩ := h
      exact ⟨k, rfl, hnext (u 0)⟩
  | lock i update next =>
      obtain ⟨k, rfl, hnext⟩ := h
      exact ⟨k, rfl, hnext u (s i)⟩

end Ends

-- Only the rules from here on, as for safe programs.
attribute [irreducible] Among Within Ends

end Sections
