import Mathlib
import RedisCache.Commands.Counters

/-!
# Counters over whole runs

A key that only `INCR` and `INCRBY` write holds the numeral of the sum so far,
and no deadline. Between the counting commands the value is text, so each step
prints and parses it again; everything else in the run leaves the key alone.

`Stands` is the invariant, `Stands.count` and `Stands.other` are its steps, and
`counters_add_up` is the run.
-/

namespace RedisCache.Commands

open Sections Protocol Storage TimedMap

/-- What a command adds to the counter `key`, if it is a counting command. -/
def Command.addend (key : Bytes) : Command → Option Int
  | .incr k => if k = key then some 1 else none
  | .incrby k d => if k = key then some d else none
  | _ => none

/-- What a turn adds to the counter `key`. -/
def Turn.addend (key : Bytes) (t : Turn) : Option Int :=
  t.request.bind fun req => (commandOf req).addend key

/-- The turn counts with `key`, only looks, is about other keys, or sweeps. -/
def Turn.Respects (key : Bytes) (t : Turn) : Prop :=
  ∀ req, t.request = some req →
    ((commandOf req).addend key).isSome = true ∨ (commandOf req).looks = true ∨
      commandOf req ≠ .flushall ∧ key ∉ (commandOf req).named

/-- What the turns of a run add. -/
def addends (key : Bytes) (turns : List Turn) : List Int := turns.filterMap (Turn.addend key)

/-- The replies to the counting commands of a run. -/
def counterReplies (key : Bytes) (exchanges : List (RespValue × Bytes)) : List Bytes :=
  exchanges.filterMap fun e => ((commandOf e.1).addend key).map fun _ => e.2

/-- Where the counter stands after these additions. -/
def sumSoFar (ds : List Int) : Option Int := if ds = [] then none else some ds.sum

/-! ## The invariant -/

/-- The counter stands at `n`, or (`none`) is not there. -/
def Stands (P : Platform) (now : Int) (key : Bytes) (n : Option Int) (s : Shards) : Prop :=
  match n with
  | none => live now (view P s) key = none
  | some v => Decimal.InRange v ∧ view P s key = some ⟨Decimal.ofInt v, none⟩

section Steps

variable {P : Platform} (maxKeys : Nat) {now : Int} {key : Bytes} {n : Option Int}

theorem Stands.values_eq {s : Shards} (h : Stands P now key n s) {t : Int} (ht : now ≤ t) :
    values P t s key = n.map Decimal.ofInt := by
  cases n with
  | none => rw [values, live_none_of_le ht h, Option.map_none, Option.map_none]
  | some v => simp [values, live, h.2, Item.alive, Option.filter_some]

/-- The text that is stored reads as the number it was printed from. -/
theorem Stands.currentOf_eq {s : Shards} (h : Stands P now key n s) {t : Int} (ht : now ≤ t) :
    currentOf (values P t s key) = ⟨n.getD 0, [], none⟩ := by
  rw [h.values_eq ht]
  cases n with
  | none => rfl
  | some v => exact Decimal.fromChars_ofInt_alone 0 h.1

variable {w : World Index Shard}

/-- **Counting**: the reply is the sum, and the counter stands there. -/
theorem Stands.count (h : Stands P now key n w.cells) (hnow : ∀ i, now ≤ w.clock i)
    (hmono : Monotone w.clock) {c : Command} {d : Int} (hc : c.addend key = some d)
    (hrange : Decimal.InRange (n.getD 0 + d)) :
    ((c.prog P maxKeys).run w).1 = RespSerializer.integer (n.getD 0 + d) ∧
      Stands P now key (some (n.getD 0 + d)) ((c.prog P maxKeys).run w).2.cells := by
  have hsum : sumOf (currentOf (values P (w.clock 0) w.cells key)) ⟨d, [], none⟩ =
      some (n.getD 0 + d) := by
    rw [h.currentOf_eq (hnow 0), sumOf, if_pos ⟨rfl, rfl⟩, i64_of_inRange hrange]
  cases c with
  | incr k =>
      simp only [Command.addend] at hc
      split at hc
      · rename_i hk
        obtain rfl := Option.some.inj hc
        obtain ⟨hreply, hview⟩ := (run_incr_counts maxKeys key).added _ hsum
        rw [hk]
        exact ⟨hreply, hrange, hview⟩
      · cases hc
  | incrby k delta =>
      simp only [Command.addend] at hc
      split at hc
      · rename_i hk
        obtain rfl := Option.some.inj hc
        have hget := Store.run_get_fst P key (hmono (Nat.zero_le 2))
        obtain ⟨hreply, hview⟩ := (run_incrby_counts maxKeys hget delta).added _ hsum
        rw [hk]
        exact ⟨hreply, hrange, hview⟩
      · cases hc
  | _ => cases hc

/-- An entry that stays, or is cleared away when it is dead. -/
theorem Stands.tidied {s s' : Shards} (h : Stands P now key n s) {t : Int}
    (hview : view P s' key = view P s key ∨
      view P s' key = none ∧ live t (view P s) key = none) :
    Stands P now key n s' := by
  cases n with
  | none =>
      rcases hview with hsame | ⟨hnone, -⟩
      · rw [Stands, live, hsame]
        exact h
      · rw [Stands, live, hnone, Option.filter_none]
  | some v =>
      obtain ⟨hrange, hitem⟩ := h
      rcases hview with hsame | ⟨-, hdead⟩
      · exact ⟨hrange, hsame.trans hitem⟩
      · -- without a deadline it is not dead
        simp [live, hitem, Item.alive, Option.filter_some] at hdead

/-- **Everything else**: the counter stands where it did. -/
theorem Stands.other {s : Shards} (h : Stands P now key n s) (hs : ∀ i, Valid P i (s i))
    (hroom : Store.total s < maxKeys) {t : Turn} (ht : t.Respects key)
    (hdelta : t.addend key = none) :
    Stands P now key n (t.next P maxKeys s) := by
  cases hreq : t.request with
  | none =>
      rw [Turn.next_sweep P maxKeys hreq]
      have hsweep := Store.view_run_sweepExpired P (w := ⟨t.clock, s⟩) hs
      refine h.tidied (t := t.clock 0) ?_
      rw [hsweep]
      exact (Tidied.refl (t.clock 0) (view P s)).live key
  | some req =>
      rw [Turn.addend, hreq, Option.bind_some] at hdelta
      rw [Turn.next_request P maxKeys hreq]
      rcases ht req hreq with hcount | hlooks | ⟨hflush, hother⟩
      · rw [hdelta] at hcount
        cases hcount
      · exact h.tidied (tidied_looks (w := ⟨t.clock, s⟩) hlooks key)
      · exact h.tidied (t := t.clock 0)
          (Or.inl (view_run_other (w := ⟨t.clock, s⟩) hs hroom hflush hother))

end Steps

/-! ## The run -/

theorem sumSoFar_getD (ds : List Int) : (sumSoFar ds).getD 0 = ds.sum := by
  cases ds with
  | nil => rfl
  | cons d ds => rfl

theorem sumSoFar_append (ds : List Int) (d : Int) :
    sumSoFar (ds ++ [d]) = some ((sumSoFar ds).getD 0 + d) := by
  rw [sumSoFar_getD, sumSoFar, if_neg (by simp), List.sum_append, List.sum_singleton]

/-- The partial sums, as replies. -/
def sumReplies (ds : List Int) : List Bytes :=
  (List.range ds.length).map fun i => RespSerializer.integer (ds.take (i + 1)).sum

theorem sumReplies_append (ds : List Int) (d : Int) :
    sumReplies (ds ++ [d]) = sumReplies ds ++ [RespSerializer.integer (ds.sum + d)] := by
  rw [sumReplies, List.length_append, List.length_singleton, List.range_succ, List.map_append,
    sumReplies]
  refine congrArg₂ _ (List.map_congr_left fun i hi => ?_) ?_
  · rw [List.take_append_of_le_length (List.mem_range.mp hi)]
  · simp [List.take_of_length_le]

theorem addends_append (key : Bytes) (turns : List Turn) (t : Turn) :
    addends key (turns ++ [t]) = addends key turns ++ (t.addend key).toList := by
  cases hdelta : t.addend key <;> simp [addends, hdelta]

/-- The reply of one turn, when it counts. -/
theorem counterReplies_turn (P : Platform) (maxKeys : Nat) (key : Bytes) (s : Shards) (t : Turn) :
    counterReplies key (transcript P maxKeys s [t]) =
      ((t.addend key).map fun _ => ((t.prog P maxKeys).run ⟨t.clock, s⟩).1).toList := by
  cases hreq : t.request with
  | none => simp [transcript, Turn.exchange, Turn.addend, hreq, counterReplies]
  | some req =>
      cases hdelta : (commandOf req).addend key with
      | none => simp [transcript, Turn.exchange, Turn.addend, hreq, counterReplies, hdelta]
      | some d => simp [transcript, Turn.exchange, Turn.addend, hreq, counterReplies, hdelta]

/-- A run that leaves the counter `key` to `INCR` and `INCRBY`, below the key
limit, with a clock that does not go back, and with every partial sum in
range. -/
structure CounterRun (P : Platform) (maxKeys : Nat) (now : Int) (key : Bytes) (s : Shards)
    (turns : List Turn) : Prop where
  later : ∀ t ∈ turns, ∀ i, now ≤ t.clock i
  mono : ∀ t ∈ turns, Monotone t.clock
  respects : ∀ t ∈ turns, t.Respects key
  room : ∀ done t, done ++ [t] <+: turns → Store.total (playFrom P maxKeys s done) < maxKeys
  ranged : ∀ i, Decimal.InRange ((addends key turns).take i).sum

section Run

variable {P : Platform} {maxKeys : Nat} {now : Int} {key : Bytes} {s : Shards}

theorem CounterRun.init {turns : List Turn} {t : Turn}
    (h : CounterRun P maxKeys now key s (turns ++ [t])) :
    CounterRun P maxKeys now key s turns where
  later u hu := h.later u (List.mem_append_left _ hu)
  mono u hu := h.mono u (List.mem_append_left _ hu)
  respects u hu := h.respects u (List.mem_append_left _ hu)
  room done u hu := h.room done u (hu.trans (List.prefix_append _ _))
  ranged i := by
    have hpart := h.ranged (min i (addends key turns).length)
    rwa [addends_append, List.take_append_of_le_length (min_le_right _ _),
      ← List.take_eq_take_min] at hpart

/-- Induction on the run, from its end: the last turn counts or does not. -/
theorem CounterRun.stands {turns : List Turn} (h : CounterRun P maxKeys now key s turns)
    (hs : ∀ i, Valid P i (s i)) (habsent : live now (view P s) key = none) :
    Stands P now key (sumSoFar (addends key turns)) (playFrom P maxKeys s turns) ∧
      counterReplies key (transcript P maxKeys s turns) = sumReplies (addends key turns) := by
  induction turns using List.reverseRecOn with
  | nil => exact ⟨habsent, rfl⟩
  | append_singleton turns t ih =>
      obtain ⟨hstands, hreplies⟩ := ih h.init
      have hvalid := playFrom_valid P maxKeys hs turns
      have hnow := h.later t (by simp)
      have hmono := h.mono t (by simp)
      have hreply := counterReplies_turn P maxKeys key (playFrom P maxKeys s turns) t
      have hdeltas := addends_append key turns t
      rw [playFrom_append, transcript_append, counterReplies, List.filterMap_append]
      rw [counterReplies] at hreplies hreply
      rw [hreplies, hreply]
      cases hdelta : t.addend key with
      | none =>
          rw [hdelta, Option.toList_none, List.append_nil] at hdeltas
          rw [hdeltas]
          have hroom := h.room turns t (List.prefix_refl _)
          exact ⟨hstands.other maxKeys hvalid hroom (h.respects t (by simp)) hdelta,
            List.append_nil _⟩
      | some d =>
          obtain ⟨req, hreq, hc⟩ := Option.bind_eq_some_iff.mp hdelta
          rw [hdelta, Option.toList_some] at hdeltas
          have hrange := h.ranged (addends key (turns ++ [t])).length
          rw [List.take_length, hdeltas, List.sum_append, List.sum_singleton,
            ← sumSoFar_getD] at hrange
          obtain ⟨hsum, hnext⟩ := hstands.count maxKeys
            (w := ⟨t.clock, playFrom P maxKeys s turns⟩) hnow hmono hc hrange
          rw [hdeltas, sumSoFar_append, sumReplies_append, ← sumSoFar_getD]
          constructor
          · rw [← Turn.next_request P maxKeys hreq] at hnext
            exact hnext
          · rw [← hsum, Turn.prog, hreq]
            simp only [dispatch_eq]
            rfl

end Run

/-- **Counters add up.** From a store in which `key` is not live, through a run
that leaves it to `INCR` and `INCRBY`: the `i`-th counting reply is the `i`-th
partial sum, and a `GET` afterwards returns the numeral of the total. -/
theorem counters_add_up (P : Platform) (maxKeys : Nat) {now : Int} {key : Bytes} {s : Shards}
    (hs : ∀ i, Valid P i (s i)) (habsent : live now (view P s) key = none) {turns : List Turn}
    (hrun : CounterRun P maxKeys now key s turns) :
    counterReplies key (transcript P maxKeys s turns) =
      (List.range (addends key turns).length).map (fun i =>
        RespSerializer.integer ((addends key turns).take (i + 1)).sum) ∧
    ∀ clock req, Monotone clock → (∀ i, now ≤ clock i) → commandOf req = .get key →
      ((dispatch P maxKeys req).run ⟨clock, playFrom P maxKeys s turns⟩).1 =
        if addends key turns = [] then RespSerializer.nullBulk
        else RespSerializer.bulk (Decimal.ofInt (addends key turns).sum) := by
  obtain ⟨hstands, hreplies⟩ := hrun.stands hs habsent
  refine ⟨hreplies, fun clock req hmono hnow hreq => ?_⟩
  have hget : ((Store.get P key).run ⟨clock, playFrom P maxKeys s turns⟩).1 =
      values P (clock 0) (playFrom P maxKeys s turns) key :=
    Store.run_get_fst P (w := ⟨clock, playFrom P maxKeys s turns⟩) key (hmono (Nat.zero_le 2))
  rw [dispatch_eq, hreq, Command.prog, Prog.run_map, hget, hstands.values_eq (hnow 0), sumSoFar]
  split <;> rfl

/-- Counting up and down, with a write to another key, a look and a sweep. -/
def twoCounts : List Turn :=
  [.ofWords 0 ["INCR", "n"], .ofWords 0 ["SET", "m", "x"], .ofWords 0 ["GET", "n"], .sweep 0,
    .ofWords 0 ["INCRBY", "n", "-5"]]

theorem twoCounts_run : CounterRun .concrete 4 0 (ascii "n") Store.empty twoCounts where
  later := by simp [twoCounts, Turn.ofWords, Turn.sweep]
  mono := by simp [twoCounts, Turn.ofWords, Turn.sweep, monotone_const]
  respects := by
    simp only [twoCounts, List.forall_mem_cons, Turn.Respects, Turn.ofWords, Turn.sweep,
      Option.some.injEq, forall_eq', reduceCtorEq, false_implies, implies_true, true_and,
      List.not_mem_nil, and_true]
    refine ⟨Or.inl (by decide +kernel), Or.inr (Or.inr ⟨?_, by decide +kernel⟩),
      Or.inr (Or.inl (by decide +kernel)), Or.inl (by decide +kernel)⟩
    exact not_flushall_of_name (by decide +kernel)
  room := by
    intro done t hdone
    have hall : ∀ done ∈ twoCounts.inits,
        Store.total (playFrom .concrete 4 Store.empty done) < 4 := by decide +kernel
    exact hall done ((List.mem_inits _ _).mpr ((List.prefix_append _ _).trans hdone))
  ranged := by
    have hdeltas : addends (ascii "n") twoCounts = [1, -5] := by decide +kernel
    rw [hdeltas]
    rintro (_ | _ | i)
    · decide
    · decide
    · rw [List.take_of_length_le (by simp)]
      decide

theorem counters_add_up_twoCounts :
    counterReplies (ascii "n") (transcript .concrete 4 Store.empty twoCounts) =
      [RespSerializer.integer 1, RespSerializer.integer (-4)] := by
  have hsums := (counters_add_up .concrete 4 (Store.empty_valid _)
    (by rw [view_empty]; rfl) twoCounts_run).1
  exact hsums.trans (by decide +kernel)

end RedisCache.Commands
