import Mathlib
import RedisCache.Lib.Sections

/-!
# Scans next to other threads

A scan looks at one cell after the other, each under its own lock, and
changes none. It sees every cell at a moment of its own, and in between the
other threads go on. What it has seen need not be what the cells ever were
together.

It is, if the other threads keep an order (`Orderly`): once they have changed
a cell the scan has passed, they leave alone the cells it has still to come
to. Then the scan has seen the cells as they were just before the first such
change (`exists_moment`), and `Pool.scan_moment` finds that moment inside
every run of a pool.
-/

namespace Sections

/-! ## One moment for all -/

theorem const_between {ο : Type*} {f : Nat → ο} {a b : Nat} (hab : a ≤ b)
    (h : ∀ n, a ≤ n → n < b → f (n + 1) = f n) : f b = f a := by
  induction b, hab using Nat.le_induction with
  | base => rfl
  | succ b hab ih =>
      rw [h b hab (Nat.lt_succ_self b)]
      exact ih fun n han hnb => h n han (by omega)

/-- **One moment for all**: `x n i` is what cell `i` shows at moment `n`, and a
scan looks at it at `visit i`. When no change of a cell already visited comes
before, or with, a change of one not yet visited, some moment shows in all
cells what the scan has seen. -/
theorem exists_moment {κ ο : Type*} (x : Nat → κ → ο) (visit : κ → Nat) {last : Nat}
    (hlast : ∀ i, visit i ≤ last)
    (h : ∀ i j m n, visit i ≤ m → m ≤ n → n < visit j →
      x (m + 1) i = x m i ∨ x (n + 1) j = x n j) :
    ∃ m ≤ last, ∀ i, x m i = x (visit i) i := by
  classical
  by_cases hex : ∃ m, m < last ∧ ∃ i, visit i ≤ m ∧ x (m + 1) i ≠ x m i
  · -- just before the first change behind the scan
    obtain ⟨hm, i₀, hi₀, hchange⟩ := Nat.find_spec hex
    refine ⟨Nat.find hex, hm.le, fun i => ?_⟩
    rcases le_or_gt (visit i) (Nat.find hex) with hi | hi
    · refine const_between (f := fun n => x n i) hi fun n hin hn => ?_
      by_contra hne
      exact Nat.find_min hex hn ⟨by omega, i, hin, hne⟩
    · exact (const_between (f := fun n => x n i) hi.le fun n hmn hn =>
        (h i₀ i _ n hi₀ hmn hn).resolve_left hchange).symm
  · refine ⟨last, le_rfl, fun i => ?_⟩
    refine const_between (f := fun n => x n i) (hlast i) fun n hin hn => ?_
    by_contra hne
    exact hex ⟨n, hn, i, hin, hne⟩

/-! ## The scanning thread -/

variable {ι σ α β : Type}

/-- Look at the cells `is`, and return something made of what was seen. -/
def Prog.scan (body : σ → β) (is : List ι) (g : List β → α) : Prog ι σ α :=
  Prog.eachCell (fun s => (body s, s)) is >>= fun bs => pure (g bs)

theorem Prog.scan_cons (body : σ → β) (i : ι) (is : List ι) (g : List β → α) :
    Prog.scan body (i :: is) g =
      .lock i (fun _ s => s) fun _ s => Prog.scan body is fun bs => g (body s :: bs) := by
  simp only [scan, eachCell, LawfulMonad.bind_assoc, LawfulMonad.pure_bind]
  rfl

namespace Pool

variable {τ : Type} [DecidableEq ι] [DecidableEq τ]

/-- How many of the steps are thread `t`'s. -/
def stepsOf (t : τ) (sched : List (τ × (Nat → Int))) : Nat :=
  sched.countP fun e => decide (e.1 = t)

theorem stepsOf_take_le (t : τ) (sched : List (τ × (Nat → Int))) {m n : Nat} (h : m ≤ n) :
    stepsOf t (sched.take m) ≤ stepsOf t (sched.take n) :=
  (List.take_sublist_take_left h).countP_le

theorem step_threads_of_ne (c : Pool ι σ τ α) {t u : τ} (h : u ≠ t) (clk : Nat → Int) :
    (c.step t clk).threads u = c.threads u := by
  unfold step
  cases c.threads t with
  | ret a => rfl
  | clock next => exact Function.update_of_ne h _ _
  | lock i update next => exact Function.update_of_ne h _ _

theorem step_clock {c : Pool ι σ τ α} {t : τ} {next : Int → Prog ι σ α}
    (h : c.threads t = .clock next) (clk : Nat → Int) :
    (c.step t clk).threads t = next (clk 0) := by
  unfold step
  rw [h]
  exact Function.update_self t _ _

/-- A step changes one cell at most. -/
theorem step_one_cell (c : Pool ι σ τ α) (t : τ) (clk : Nat → Int) {i j : ι} (h : i ≠ j) :
    (c.step t clk).cells i = c.cells i ∨ (c.step t clk).cells j = c.cells j := by
  unfold step
  cases c.threads t with
  | ret a => exact Or.inl rfl
  | clock next => exact Or.inl rfl
  | lock k update next =>
      by_cases hi : i = k
      · exact Or.inr (Function.update_of_ne (fun hj => h (hi.trans hj.symm)) _ _)
      · exact Or.inl (Function.update_of_ne hi _ _)

theorem run_take_succ (c : Pool ι σ τ α) (sched : List (τ × (Nat → Int))) {n : Nat}
    (h : n < sched.length) :
    c.run (sched.take (n + 1)) = (c.run (sched.take n)).step sched[n].1 sched[n].2 := by
  rw [List.take_add_one, List.getElem?_eq_getElem h, run_append]
  rfl

section Scan

variable {c : Pool ι σ τ α} {t : τ} {body : σ → β} {is : List ι} {g : List β → α}

theorem step_scan_nil (hc : c.threads t = Prog.scan body [] g) (clk : Nat → Int) :
    c.step t clk = c := by
  unfold step
  rw [hc]
  rfl

theorem step_scan_cons {i : ι} (hc : c.threads t = Prog.scan body (i :: is) g)
    (clk : Nat → Int) :
    (c.step t clk).cells = c.cells ∧
      (c.step t clk).threads t = Prog.scan body is fun bs => g (body (c.cells i) :: bs) := by
  rw [Prog.scan_cons] at hc
  unfold step
  rw [hc]
  exact ⟨Function.update_eq_self _ _, Function.update_self _ _ _⟩

/-- Moment `n` is that of `t`'s k-th step, and `b` what it then saw in cell `i`. -/
def SeenAt (c : Pool ι σ τ α) (t : τ) (body : σ → β) (sched : List (τ × (Nat → Int)))
    (k : Nat) (i : ι) (b : Option β) (n : Nat) : Prop :=
  n < sched.length ∧ stepsOf t (sched.take n) = k ∧ stepsOf t (sched.take (n + 1)) = k + 1 ∧
    b = some (body ((c.run (sched.take n)).cells i))

/-- What was seen stays seen. -/
theorem SeenAt.append {sched : List (τ × (Nat → Int))} {k : Nat} {i : ι} {b : Option β} {n : Nat}
    (h : SeenAt c t body sched k i b n) (e : τ × (Nat → Int)) :
    SeenAt c t body (sched ++ [e]) k i b n := by
  obtain ⟨hn, hbefore, hafter, hb⟩ := h
  have htake : (sched ++ [e]).take n = sched.take n := List.take_append_of_le_length hn.le
  have htake' : (sched ++ [e]).take (n + 1) = sched.take (n + 1) :=
    List.take_append_of_le_length hn
  refine ⟨by rw [List.length_append]; omega, ?_⟩
  rw [htake, htake']
  exact ⟨hbefore, hafter, hb⟩

theorem stepsOf_own (sched : List (τ × (Nat → Int))) {e : τ × (Nat → Int)} (he : e.1 = t) :
    stepsOf t (sched ++ [e]) = stepsOf t sched + 1 := by
  simp [stepsOf, List.countP_append, he]

theorem stepsOf_other (sched : List (τ × (Nat → Int))) {e : τ × (Nat → Int)} (he : e.1 ≠ t) :
    stepsOf t (sched ++ [e]) = stepsOf t sched := by
  simp [stepsOf, List.countP_append, he]

/-- What `t`'s step sees as it is taken. -/
theorem SeenAt.last (c : Pool ι σ τ α) (body : σ → β) (sched : List (τ × (Nat → Int)))
    {e : τ × (Nat → Int)} (he : e.1 = t) (i : ι) :
    SeenAt c t body (sched ++ [e]) (stepsOf t sched) i (some (body ((c.run sched).cells i)))
      sched.length := by
  have htake : (sched ++ [e]).take sched.length = sched := List.take_left
  have htake' : (sched ++ [e]).take (sched.length + 1) = sched ++ [e] :=
    List.take_of_length_le (by rw [List.length_append, List.length_singleton])
  refine ⟨by rw [List.length_append, List.length_singleton]; omega, ?_⟩
  rw [htake, htake', stepsOf_own sched he]
  exact ⟨rfl, rfl, rfl⟩

/-- A scan under way: it has seen `bs`, the k-th cell at its k-th step. -/
structure Scanned (c : Pool ι σ τ α) (t : τ) (body : σ → β) (is : List ι) (g : List β → α)
    (sched : List (τ × (Nat → Int))) (bs : List β) : Prop where
  length : bs.length = min (stepsOf t sched) is.length
  thread : (c.run sched).threads t =
    Prog.scan body (is.drop bs.length) (fun rest => g (bs ++ rest))
  seen : ∀ k i, k < bs.length → is[k]? = some i → ∃ n, SeenAt c t body sched k i bs[k]? n

namespace Scanned

variable {sched : List (τ × (Nat → Int))} {bs : List β}

theorem start (hc : c.threads t = Prog.scan body is g) : Scanned c t body is g [] [] where
  length := by simp [stepsOf]
  thread := hc
  seen k i hk := by simp at hk

/-- Another thread's step leaves the scan where it is. -/
theorem other (h : Scanned c t body is g sched bs) {e : τ × (Nat → Int)} (he : e.1 ≠ t) :
    Scanned c t body is g (sched ++ [e]) bs where
  length := by rw [stepsOf_other sched he, h.length]
  thread := by
    rw [run_append]
    exact (step_threads_of_ne (c.run sched) he.symm e.2).trans h.thread
  seen k i hk hi := by
    obtain ⟨n, hn⟩ := h.seen k i hk hi
    exact ⟨n, hn.append e⟩

/-- The scan's own step looks at the next cell, or does nothing at the end. -/
theorem own (h : Scanned c t body is g sched bs) {e : τ × (Nat → Int)} (he : e.1 = t) :
    ∃ bs', Scanned c t body is g (sched ++ [e]) bs' := by
  have hlen := h.length
  have hthread := h.thread
  have hcount := stepsOf_own sched he
  have hstep : c.run (sched ++ [e]) = (c.run sched).step t e.2 := by
    rw [run_append, ← he]
    rfl
  rcases hdrop : is.drop bs.length with _ | ⟨i, rest⟩
  · rw [hdrop] at hthread
    have hall : is.length ≤ bs.length := List.drop_eq_nil_iff.mp hdrop
    refine ⟨bs, by omega, by rw [hstep, step_scan_nil hthread, hthread, hdrop], ?_⟩
    intro k i hk hi
    obtain ⟨n, hn⟩ := h.seen k i hk hi
    exact ⟨n, hn.append e⟩
  · rw [hdrop] at hthread
    have hi : is[bs.length]? = some i := by
      rw [← List.head?_drop, hdrop]
      rfl
    have hrest : is.drop (bs.length + 1) = rest := by
      rw [← List.tail_drop, hdrop]
      rfl
    have hlt : bs.length < is.length := (List.getElem?_eq_some_iff.mp hi).1
    have hk : bs.length = stepsOf t sched := by omega
    have hlen' : (bs ++ [body ((c.run sched).cells i)]).length = bs.length + 1 := by simp
    refine ⟨bs ++ [body ((c.run sched).cells i)], by omega, ?_, ?_⟩
    · rw [hstep, (step_scan_cons hthread e.2).2, hlen', hrest]
      simp only [List.append_assoc, List.singleton_append]
    · intro k j hkl hj
      rw [hlen'] at hkl
      by_cases hlast : k = bs.length
      · subst hlast
        obtain rfl : i = j := by simpa [hi] using hj
        rw [List.getElem?_concat_length, hk]
        exact ⟨sched.length, SeenAt.last c body sched he i⟩
      · have hkb : k < bs.length := by omega
        rw [List.getElem?_append_left hkb]
        obtain ⟨n, hn⟩ := h.seen k j hkb hj
        exact ⟨n, hn.append e⟩

end Scanned

/-- By induction on the schedule, at every moment of a run. -/
theorem scan_run (hc : c.threads t = Prog.scan body is g) (sched : List (τ × (Nat → Int))) :
    ∃ bs : List β, Scanned c t body is g sched bs := by
  induction sched using List.reverseRecOn with
  | nil => exact ⟨[], .start hc⟩
  | append_singleton sched e ih =>
      obtain ⟨bs, h⟩ := ih
      by_cases he : e.1 = t
      · exact h.own he
      · exact ⟨bs, h.other he⟩

theorem own_of_stepsOf_ne {sched : List (τ × (Nat → Int))} {n : Nat} (hn : n < sched.length)
    (h : stepsOf t (sched.take (n + 1)) ≠ stepsOf t (sched.take n)) : sched[n].1 = t := by
  by_contra hne
  refine h ?_
  rw [List.take_add_one, List.getElem?_eq_getElem hn, stepsOf, List.countP_append]
  simp [stepsOf, hne]

/-- The scan's own steps change nothing. -/
theorem scan_own_step (hc : c.threads t = Prog.scan body is g) (sched : List (τ × (Nat → Int)))
    {n : Nat} (hn : n < sched.length) (hown : sched[n].1 = t) :
    (c.run (sched.take (n + 1))).cells = (c.run (sched.take n)).cells := by
  obtain ⟨bs, -, hthread, -⟩ := scan_run hc (sched.take n)
  rw [run_take_succ c sched hn, hown]
  rcases hdrop : is.drop bs.length with _ | ⟨i, rest⟩
  · rw [hdrop] at hthread
    rw [step_scan_nil hthread]
  · rw [hdrop] at hthread
    exact (step_scan_cons hthread _).1

/-- `visit k` is the moment of `t`'s k-th step, for the first `count` of them. -/
structure Visits (t : τ) (sched : List (τ × (Nat → Int))) (count : Nat) (visit : Nat → Nat) :
    Prop where
  lt : ∀ k < count, visit k < sched.length
  before : ∀ k < count, stepsOf t (sched.take (visit k)) = k
  after : ∀ k < count, stepsOf t (sched.take (visit k + 1)) = k + 1

namespace Visits

variable {sched : List (τ × (Nat → Int))} {count : Nat} {visit : Nat → Nat}

theorem passed (h : Visits t sched count visit) {k n : Nat} (hk : k < count) (hn : visit k < n) :
    k < stepsOf t (sched.take n) := by
  have hstep := h.after k hk
  have hmono := stepsOf_take_le t sched (show visit k + 1 ≤ n from hn)
  omega

theorem ahead (h : Visits t sched count visit) {k n : Nat} (hk : k < count) (hn : n ≤ visit k) :
    stepsOf t (sched.take n) ≤ k := by
  have hstep := h.before k hk
  have hmono := stepsOf_take_le t sched hn
  omega

theorem mono (h : Visits t sched count visit) {k l : Nat} (hl : l < count) (hkl : k ≤ l) :
    visit k ≤ visit l := by
  by_contra hlt
  have hpassed := h.passed hl (show visit l < visit k by omega)
  have hahead := h.ahead (show k < count by omega) le_rfl
  omega

end Visits

/-- The moments of a finished scan. -/
theorem scan_done (hc : c.threads t = Prog.scan body is g) {sched : List (τ × (Nat → Int))}
    (hdone : is.length ≤ stepsOf t sched) :
    ∃ (bs : List β) (visit : Nat → Nat), bs.length = is.length ∧
      (c.run sched).threads t = .ret (g bs) ∧ Visits t sched is.length visit ∧
      ∀ k i, is[k]? = some i →
        bs[k]? = some (body ((c.run (sched.take (visit k))).cells i)) := by
  obtain ⟨bs, hlen, hthread, hseen⟩ := scan_run hc sched
  rw [Nat.min_eq_right hdone] at hlen
  have hex : ∀ k, ∃ n, ∀ i, is[k]? = some i → SeenAt c t body sched k i bs[k]? n := by
    intro k
    cases hi : is[k]? with
    | none => exact ⟨0, fun i h => by cases h⟩
    | some i =>
        have hk : k < bs.length := hlen ▸ (List.getElem?_eq_some_iff.mp hi).1
        obtain ⟨n, hn⟩ := hseen k i hk hi
        exact ⟨n, fun j hj => by cases hj; exact hn⟩
  obtain ⟨visit, hvisit⟩ := Classical.axiomOfChoice hex
  refine ⟨bs, visit, hlen, ?_, ⟨fun k hk => ?_, fun k hk => ?_, fun k hk => ?_⟩, fun k i hi => ?_⟩
  · rw [hthread, hlen, List.drop_length]
    simp only [Prog.scan, Prog.eachCell, pure_bind, List.append_nil]
    rfl
  · exact (hvisit k _ (List.getElem?_eq_getElem hk)).1
  · exact (hvisit k _ (List.getElem?_eq_getElem hk)).2.1
  · exact (hvisit k _ (List.getElem?_eq_getElem hk)).2.2.1
  · exact (hvisit k i hi).2.2.2

/-! ## Orderly threads -/

/-- **The order the other threads have to keep**: when at moment `m` a cell
changes that the scan has passed, and at a later moment `n` a cell it has
still to come to, then one of the two changes does not show. -/
def Orderly {ο : Type} (c : Pool ι σ τ α) (t : τ) (is : List ι) (see : σ → ο)
    (sched : List (τ × (Nat → Int))) : Prop :=
  ∀ m n k l i j, m < n → n < sched.length → is[k]? = some i → is[l]? = some j →
    k < stepsOf t (sched.take m) → stepsOf t (sched.take n) ≤ l →
      see ((c.run (sched.take (m + 1))).cells i) = see ((c.run (sched.take m)).cells i) ∨
      see ((c.run (sched.take (n + 1))).cells j) = see ((c.run (sched.take n)).cells j)

/-- A single step of other threads is orderly. -/
theorem orderly_of_single {ο : Type} (hc : c.threads t = Prog.scan body is g) (see : σ → ο)
    {sched : List (τ × (Nat → Int))} (hone : sched.countP (fun e => decide (e.1 ≠ t)) ≤ 1) :
    Orderly c t is see sched := by
  intro m n k l i j hmn hn _ _ _ _
  have hm : m < sched.length := by omega
  by_cases hmt : sched[m].1 = t
  · exact Or.inl (by rw [scan_own_step hc sched hm hmt])
  · by_cases hnt : sched[n].1 = t
    · exact Or.inr (by rw [scan_own_step hc sched hn hnt])
    · -- two steps of others
      have hfirst : 0 < (sched.take n).countP fun e => decide (e.1 ≠ t) :=
        List.countP_pos_iff.mpr ⟨sched[m], List.mem_take_iff_getElem.mpr ⟨m, by omega, rfl⟩,
          by simpa using hmt⟩
      have hsecond : 0 < (sched.drop n).countP fun e => decide (e.1 ≠ t) :=
        List.countP_pos_iff.mpr ⟨sched[n], List.mem_drop_iff_getElem.mpr ⟨0, by omega, rfl⟩,
          by simpa using hnt⟩
      rw [← List.take_append_drop n sched, List.countP_append] at hone
      omega

/-- Between its two visits the order holds at every pair of moments: the scan
itself changes nothing, and one step does not change two cells. -/
theorem Orderly.race {ο : Type} {see : σ → ο} {sched : List (τ × (Nat → Int))}
    (horder : Orderly c t is see sched) (hc : c.threads t = Prog.scan body is g)
    (hnd : is.Nodup) {visit : Nat → Nat} (hv : Visits t sched is.length visit)
    {k l m n : Nat} {i j : ι} (hi : is[k]? = some i) (hj : is[l]? = some j)
    (hkm : visit k ≤ m) (hmn : m ≤ n) (hnl : n < visit l) :
    see ((c.run (sched.take (m + 1))).cells i) = see ((c.run (sched.take m)).cells i) ∨
    see ((c.run (sched.take (n + 1))).cells j) = see ((c.run (sched.take n)).cells j) := by
  obtain ⟨hk, rfl⟩ := List.getElem?_eq_some_iff.mp hi
  obtain ⟨hl, rfl⟩ := List.getElem?_eq_some_iff.mp hj
  have hlast := hv.lt l hl
  by_cases hown : visit k = m
  · subst hown
    have hbefore := hv.before k hk
    have hafter := hv.after k hk
    have hlt := hv.lt k hk
    have hown : sched[visit k].1 = t := own_of_stepsOf_ne hlt (by omega)
    exact Or.inl (by rw [scan_own_step hc sched hlt hown])
  · have hpassed := hv.passed hk (show visit k < m by omega)
    have hahead := hv.ahead hl hnl.le
    by_cases hlt : m < n
    · exact horder m n k l _ _ hlt (by omega) hi hj hpassed hahead
    · obtain rfl : m = n := by omega
      have hcells : is[k] ≠ is[l] := by
        intro heq
        have := (List.Nodup.getElem_inj_iff hnd).mp heq
        omega
      rw [run_take_succ c sched (by omega)]
      rcases step_one_cell (c.run (sched.take m)) sched[m].1 sched[m].2 hcells with h | h
      · exact Or.inl (by rw [h])
      · exact Or.inr (by rw [h])

/-- **A scan of one moment**: next to orderly threads, a finished scan has seen
all cells as they were at one moment before its last step. -/
theorem scan_moment {ο : Type} (see : β → ο) (hc : c.threads t = Prog.scan body is g)
    (hnd : is.Nodup) (hne : is ≠ []) {sched : List (τ × (Nat → Int))}
    (hdone : is.length ≤ stepsOf t sched)
    (horder : Orderly c t is (fun s => see (body s)) sched) :
    ∃ bs, (c.run sched).threads t = .ret (g bs) ∧ bs.length = is.length ∧
      ∃ n < sched.length, stepsOf t (sched.take n) < is.length ∧
        ∀ (k : Nat) (i : ι), is[k]? = some i →
          (bs[k]?).map see = some (see (body ((c.run (sched.take n)).cells i))) := by
  obtain ⟨bs, visit, hlen, hthread, hv, hbs⟩ := scan_done hc hdone
  have hpos : 0 < is.length := List.length_pos_iff.mpr hne
  have hat : ∀ k : Fin is.length, is[k.val]? = some is[k] := fun k =>
    List.getElem?_eq_getElem k.isLt
  obtain ⟨n, hn, hall⟩ := exists_moment
    (fun n (k : Fin is.length) => see (body ((c.run (sched.take n)).cells is[k])))
    (fun k => visit k) (fun k => hv.mono (show is.length - 1 < is.length by omega) (by omega))
    fun k l m n hkm hmn hnl => horder.race hc hnd hv (hat k) (hat l) hkm hmn hnl
  have hlast := hv.lt (is.length - 1) (by omega)
  have hahead := hv.ahead (show is.length - 1 < is.length by omega) hn
  refine ⟨bs, hthread, hlen, n, by omega, by omega, fun k i hi => ?_⟩
  obtain ⟨hk, rfl⟩ := List.getElem?_eq_some_iff.mp hi
  rw [hbs k _ hi, Option.map_some]
  exact congrArg some (hall ⟨k, hk⟩).symm

end Scan

end Pool

end Sections
