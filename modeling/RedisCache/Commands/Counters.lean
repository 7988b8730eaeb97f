import Mathlib
import RedisCache.Commands.Dictionary
import RedisCache.Commands.Frame

/-!
# INCR and INCRBY as integer updates

Both handlers read numbers with `from_chars` and test only its error code:
a numeral with something behind it passes for the numeral, and the sum is
not checked against the 64-bit range.

`ExactAdd` is what the two should do, told with whole numerals and exact
sums. `counters_exact_iff` says when they do it: when one of the texts is
refused, or both are read to their end and the sum is in range.
-/

namespace RedisCache.Commands

open Sections Protocol Storage TimedMap

/-! ## The update asked for -/

/-- What a counter stands at, from its live value. -/
def StandsAt (x : Option Bytes) (cur : Int) : Prop :=
  match x with
  | none => cur = 0
  | some v => Decimal.Numeral v cur

/-- The reply `r` and the store `s'` after adding to the counter `key`, which
has the value `x` in `s`: the sum, if there are two numbers and their sum is
one; otherwise an error, and nothing is changed. -/
def ExactAdd (P : Platform) (key : Bytes) (x : Option Bytes) (delta : Int → Prop) (s : Shards)
    (r : Bytes) (s' : Shards) : Prop :=
  (∀ cur d, StandsAt x cur → delta d → Decimal.InRange (cur + d) →
    r = RespSerializer.integer (cur + d) ∧
      (view P s' key).map Item.value = some (Decimal.ofInt (cur + d))) ∧
  ((¬ ∃ cur d, StandsAt x cur ∧ delta d ∧ Decimal.InRange (cur + d)) →
    r = notAnInteger ∧ s' = s)

/-- One of the two texts is refused, or both are read to their end and have a
64-bit sum. -/
def ReadsWhole (a b : Decimal.Outcome) : Prop :=
  a.ec ≠ none ∨ b.ec ≠ none ∨
    a.rest = [] ∧ b.rest = [] ∧ Decimal.InRange (a.value + b.value)

theorem standsAt_iff {x : Option Bytes} {cur : Int} :
    StandsAt x cur ↔ currentOf x = ⟨cur, [], none⟩ := by
  cases x with
  | none =>
      constructor
      · rintro rfl
        rfl
      · intro h
        exact (Decimal.Outcome.mk.inj h).1.symm
  | some v => exact Decimal.numeral_iff 0

theorem integer_ne_notAnInteger (n : Int) : RespSerializer.integer n ≠ notAnInteger := by
  intro h
  exact not_isError_integer n (h ▸ (by decide))

/-! ## What both handlers do -/

/-- The sum of two numbers, when both have been read. -/
def sumOf (a b : Decimal.Outcome) : Option Int :=
  if a.ec = none ∧ b.ec = none then some (i64 (a.value + b.value)) else none

theorem sumOf_eq_none {a b : Decimal.Outcome} :
    sumOf a b = none ↔ a.ec ≠ none ∨ b.ec ≠ none := by
  rw [sumOf]
  split
  · simp [*]
  · rename_i h
    simpa [imp_iff_not_or] using h

theorem sumOf_eq_some {a b : Decimal.Outcome} {n : Int} :
    sumOf a b = some n ↔ a.ec = none ∧ b.ec = none ∧ i64 (a.value + b.value) = n := by
  rw [sumOf]
  split
  · rename_i h
    simp [h]
  · rename_i h
    simp only [reduceCtorEq, false_iff]
    exact fun hok => h ⟨hok.1, hok.2.1⟩

/-- The reply `r` and the store `s'` after adding to `key` in `s`: an error and
nothing changed, or the sum, which is stored without a deadline. -/
structure Counts (P : Platform) (key : Bytes) (sum : Option Int) (s : Shards) (r : Bytes)
    (s' : Shards) : Prop where
  refused : sum = none → r = notAnInteger ∧ s' = s
  added : ∀ n, sum = some n →
    r = RespSerializer.integer n ∧ view P s' key = some ⟨Decimal.ofInt n, none⟩

/-- A handler that refuses on an error code and else adds what was read is
exact when it has read everything. -/
theorem Counts.exactAdd_iff {P : Platform} {key : Bytes} {x : Option Bytes}
    {delta : Int → Prop} {b : Decimal.Outcome} {s s' : Shards} {r : Bytes}
    (h : Counts P key (sumOf (currentOf x) b) s r s')
    (hdelta : ∀ d, delta d ↔ b = ⟨d, [], none⟩) :
    ExactAdd P key x delta s r s' ↔ ReadsWhole (currentOf x) b := by
  constructor
  · rintro ⟨-, herror⟩
    by_contra hread
    simp only [ReadsWhole, not_or, not_not] at hread
    obtain ⟨hx, hb, hread⟩ := hread
    -- the handler has added, but there was nothing to add
    have hnone : ¬ ∃ cur d, StandsAt x cur ∧ delta d ∧ Decimal.InRange (cur + d) := by
      rintro ⟨cur, d, hcur, hd, hrange⟩
      rw [standsAt_iff] at hcur
      rw [hdelta] at hd
      rw [hcur, hd] at hread
      exact hread ⟨rfl, rfl, hrange⟩
    have hsum := (h.added _ (if_pos ⟨hx, hb⟩)).1
    exact integer_ne_notAnInteger _ (hsum.symm.trans (herror hnone).1)
  · intro hread
    constructor
    · intro cur d hcur hd hrange
      rw [standsAt_iff] at hcur
      rw [hdelta] at hd
      have hsum : sumOf (currentOf x) b = some (cur + d) := by
        rw [hcur, hd]
        exact sumOf_eq_some.mpr ⟨rfl, rfl, i64_of_inRange hrange⟩
      obtain ⟨hreply, hview⟩ := h.added _ hsum
      exact ⟨hreply, by rw [hview, Option.map_some]⟩
    · intro hnone
      rcases hread with hx | hb | ⟨hx, hb, hrange⟩
      · exact h.refused (sumOf_eq_none.mpr (.inl hx))
      · exact h.refused (sumOf_eq_none.mpr (.inr hb))
      · refine h.refused (sumOf_eq_none.mpr (by_contra fun hok => hnone ?_))
        simp only [not_or, not_not] at hok
        refine ⟨(currentOf x).value, b.value, standsAt_iff.mpr ?_, (hdelta _).mpr ?_, hrange⟩
        · rw [← hx, ← hok.1]
        · rw [← hb, ← hok.2]

section Handlers

variable {P : Platform} (maxKeys : Nat) {w : World Index Shard}

theorem run_incr_counts (key : Bytes) :
    Counts P key (sumOf (currentOf (values P (w.clock 0) w.cells key)) ⟨1, [], none⟩) w.cells
      (((Command.incr key).prog P maxKeys).run w).1
      (((Command.incr key).prog P maxKeys).run w).2.cells := by
  have hcounter := counterOf_eq P (w.clock 0) (s := w.cells) key
  have hreply := Store.run_incr_fst P w key
  have hview := Store.view_run_incr P w key
  rw [Command.prog, Prog.run_map]
  constructor
  · intro hsum
    have hx : (currentOf (values P (w.clock 0) w.cells key)).ec ≠ none :=
      (sumOf_eq_none.mp hsum).resolve_right (fun hone => hone rfl)
    rw [if_pos hx] at hcounter
    rw [hreply, hcounter]
    exact ⟨rfl, Store.run_incr_refused P key hcounter⟩
  · intro n hsum
    obtain ⟨hx, -, rfl⟩ := sumOf_eq_some.mp hsum
    rw [if_neg (not_not.mpr hx)] at hcounter
    simp only [hcounter] at hview
    rw [hreply, hcounter, hview, Function.update_self]
    exact ⟨rfl, rfl⟩

theorem run_incrby_counts {key : Bytes}
    (hget : ((Store.get P key).run w).1 = values P (w.clock 0) w.cells key) (delta : Int) :
    Counts P key (sumOf (currentOf (values P (w.clock 0) w.cells key)) ⟨delta, [], none⟩) w.cells
      (((Command.incrby key delta).prog P maxKeys).run w).1
      (((Command.incrby key delta).prog P maxKeys).run w).2.cells := by
  constructor
  · intro hsum
    have hx : (currentOf (values P (w.clock 0) w.cells key)).ec ≠ none :=
      (sumOf_eq_none.mp hsum).resolve_right (fun hone => hone rfl)
    rw [run_incrby_refused P maxKeys (hget ▸ hx)]
    -- the stored value is refused, so there is one, and `get` leaves it
    refine ⟨rfl, (Store.run_get_live P key fun hdead => hx ?_).2⟩
    simp [values, hdead, currentOf]
  · intro n hsum
    obtain ⟨hx, -, rfl⟩ := sumOf_eq_some.mp hsum
    rw [run_incrby_added P maxKeys (hget ▸ hx), hget]
    refine ⟨rfl, ?_⟩
    simp only
    rw [Store.view_run_set_evicted, Function.update_self]
    rfl

theorem handleIncr_counts (name key : RespValue) (rest : List RespValue) :
    Counts P key.str (sumOf (currentOf (values P (w.clock 0) w.cells key.str)) ⟨1, [], none⟩)
      w.cells ((handleIncr P (name :: key :: rest)).run w).1
      ((handleIncr P (name :: key :: rest)).run w).2.cells := by
  rw [handleIncr_eq P 0, readKey]
  exact run_incr_counts 0 key.str

theorem handleIncrby_counts {key : RespValue}
    (hget : ((Store.get P key.str).run w).1 = values P (w.clock 0) w.cells key.str)
    (name amount : RespValue) (rest : List RespValue) :
    Counts P key.str (sumOf (currentOf (values P (w.clock 0) w.cells key.str))
        (Decimal.fromChars 0 amount.str)) w.cells
      ((handleIncrby P maxKeys (name :: key :: amount :: rest)).run w).1
      ((handleIncrby P maxKeys (name :: key :: amount :: rest)).run w).2.cells := by
  rw [handleIncrby_eq, readIncrby]
  by_cases hb : (Decimal.fromChars 0 amount.str).ec = none
  · rw [if_neg (not_not.mpr hb)]
    have hcounts := run_incrby_counts maxKeys hget (Decimal.fromChars 0 amount.str).value
    rw [sumOf] at hcounts ⊢
    simpa only [hb] using hcounts
  · rw [if_pos hb]
    constructor
    · exact fun _ => ⟨rfl, rfl⟩
    · intro n hsum
      rw [sumOf_eq_none.mpr (.inr hb)] at hsum
      cases hsum

end Handlers

/-! ## Exactness -/

/-- **When the counters are exact.** `INCR` and `INCRBY` reply with the exact sum
and store its numeral, or fail and leave the store, exactly if `from_chars`
refuses the stored value or the argument, or reads both to their end and
their sum is a 64-bit number. -/
theorem counters_exact_iff (P : Platform) (maxKeys : Nat) (w : World Index Shard)
    (hclock : w.clock 0 ≤ w.clock 2) (name key amount : RespValue) (rest : List RespValue) :
    (ExactAdd P key.str (values P (w.clock 0) w.cells key.str) (· = 1) w.cells
        ((handleIncr P (name :: key :: rest)).run w).1
        ((handleIncr P (name :: key :: rest)).run w).2.cells ↔
      ReadsWhole (currentOf (values P (w.clock 0) w.cells key.str)) ⟨1, [], none⟩) ∧
    (ExactAdd P key.str (values P (w.clock 0) w.cells key.str) (Decimal.Numeral amount.str)
        w.cells
        ((handleIncrby P maxKeys (name :: key :: amount :: rest)).run w).1
        ((handleIncrby P maxKeys (name :: key :: amount :: rest)).run w).2.cells ↔
      ReadsWhole (currentOf (values P (w.clock 0) w.cells key.str))
        (Decimal.fromChars 0 amount.str)) :=
  ⟨(handleIncr_counts name key rest).exactAdd_iff fun d => by simp [eq_comm],
    (handleIncrby_counts maxKeys (Store.run_get_fst P key.str hclock) name amount
      rest).exactAdd_iff fun _ => Decimal.numeral_iff 0⟩

/-- A key that is not there counts from zero. -/
theorem counters_exact_new :
    ExactAdd .concrete (ascii "n") (values .concrete 0 Store.empty (ascii "n"))
      (Decimal.Numeral (ascii "-5")) Store.empty
      ((handleIncrby .concrete 1 (requestOf ["INCRBY", "n", "-5"]).array).run
        ⟨fun _ => 0, Store.empty⟩).1
      ((handleIncrby .concrete 1 (requestOf ["INCRBY", "n", "-5"]).array).run
        ⟨fun _ => 0, Store.empty⟩).2.cells := by
  have hiff := (counters_exact_iff .concrete 1 ⟨fun _ => 0, Store.empty⟩ le_rfl
    { type := .bulkString, str := ascii "INCRBY" } { type := .bulkString, str := ascii "n" }
    { type := .bulkString, str := ascii "-5" } []).2
  exact hiff.mpr (.inr (.inr ⟨by decide +kernel, by decide +kernel, by decide +kernel⟩))

/-- `12abc` is no numeral, and `INCR` makes 13 of it. -/
theorem incr_reads_front :
    (∀ v, ¬ Decimal.Numeral (ascii "12abc") v) ∧
    values .concrete 0 (play .concrete 2 [Turn.ofWords 0 ["SET", "n", "12abc"]]) (ascii "n") =
      some (ascii "12abc") ∧
    ((handleIncr .concrete (requestOf ["INCR", "n"]).array).exec 0
      (play .concrete 2 [Turn.ofWords 0 ["SET", "n", "12abc"]])).1 = RespSerializer.integer 13 ∧
    values .concrete 0 ((handleIncr .concrete (requestOf ["INCR", "n"]).array).exec 0
      (play .concrete 2 [Turn.ofWords 0 ["SET", "n", "12abc"]])).2 (ascii "n") =
      some (ascii "13") := by
  refine ⟨fun v hv => ?_, by decide +kernel, by decide +kernel, by decide +kernel⟩
  have hrest : (Decimal.fromChars 0 (ascii "12abc")).rest = [] := by
    rw [(Decimal.numeral_iff 0).mp hv]
  exact absurd hrest (by decide)

/-! ## The deadline -/

/-- The sum is stored without a deadline, whatever the counter had. -/
theorem Counts.deadline_iff {P : Platform} {key : Bytes} {sum : Option Int} {s s' : Shards}
    {r : Bytes} (h : Counts P key sum s r s') (hr : r ≠ notAnInteger) (d : Option Int) :
    (view P s' key).map Item.deadline = some d ↔ d = none := by
  cases hsum : sum with
  | none => exact absurd (h.refused hsum).1 hr
  | some n =>
      rw [(h.added n hsum).2, Option.map_some, Option.some_inj]
      exact eq_comm

/-- **Counting and the deadline.** A successful `INCR` or `INCRBY` on a live key
leaves its deadline as it was exactly if there is none. -/
theorem counting_deadline_iff (P : Platform) (maxKeys : Nat) (w : World Index Shard)
    (name key amount : RespValue) (rest : List RespValue) {it : Item Bytes}
    (hlive : live (w.clock 0) (view P w.cells) key.str = some it) :
    (((handleIncr P (name :: key :: rest)).run w).1 ≠ notAnInteger →
      ((view P ((handleIncr P (name :: key :: rest)).run w).2.cells key.str).map
          Item.deadline = some it.deadline ↔ it.deadline = none)) ∧
    (((handleIncrby P maxKeys (name :: key :: amount :: rest)).run w).1 ≠ notAnInteger →
      ((view P ((handleIncrby P maxKeys (name :: key :: amount :: rest)).run w).2.cells
          key.str).map Item.deadline = some it.deadline ↔ it.deadline = none)) := by
  have hget := (Store.run_get_live P key.str (by rw [hlive]; exact Option.some_ne_none it)).1
  exact ⟨fun hr => (handleIncr_counts name key rest).deadline_iff hr it.deadline,
    fun hr => (handleIncrby_counts maxKeys hget name amount rest).deadline_iff hr it.deadline⟩

/-- The counter `n` at `1`, set with these options. -/
def oneCounter (words : List String) : Shards :=
  play .concrete 4 [Turn.ofWords 1000 (["SET", "n", "1"] ++ words)]

theorem counting_keeps_none :
    (view .concrete ((handleIncr .concrete (requestOf ["INCR", "n"]).array).run
      ⟨fun _ => 1000, oneCounter []⟩).2.cells (ascii "n")).map Item.deadline = some none := by
  obtain ⟨it, hit⟩ : ∃ it, live 1000 (view .concrete (oneCounter [])) (ascii "n") = some it :=
    Option.isSome_iff_exists.mp (by decide +kernel)
  have hnone : it.deadline = none := by
    have h : (live 1000 (view .concrete (oneCounter [])) (ascii "n")).map Item.deadline =
        some none := by decide +kernel
    rw [hit] at h
    exact Option.some.inj h
  have hiff := (counting_deadline_iff .concrete 4 ⟨fun _ => 1000, oneCounter []⟩
    { type := .bulkString, str := ascii "INCR" } { type := .bulkString, str := ascii "n" }
    { type := .bulkString, str := ascii "1" } [] hit).1 (by decide +kernel)
  rw [← hnone]
  exact hiff.mpr hnone

/-- A counter that had ten seconds to live is there for good. -/
theorem counting_drops_deadline :
    (view .concrete (oneCounter ["EX", "10"]) (ascii "n")).map Item.deadline =
      some (some 11000) ∧
    ((handleIncr .concrete (requestOf ["INCR", "n"]).array).exec 1000
      (oneCounter ["EX", "10"])).1 = RespSerializer.integer 2 ∧
    (view .concrete ((handleIncr .concrete (requestOf ["INCR", "n"]).array).exec 1000
      (oneCounter ["EX", "10"])).2 (ascii "n")).map Item.deadline = some none ∧
    (view .concrete ((handleIncrby .concrete 4 (requestOf ["INCRBY", "n", "5"]).array).exec 1000
      (oneCounter ["EX", "10"])).2 (ascii "n")).map Item.deadline = some none := by
  decide +kernel

/-! ## INCR and INCRBY 1 -/

/-- Reply and item are determined by the sum and the store before. -/
theorem Counts.unique {P : Platform} {key : Bytes} {sum : Option Int} {s s₁ s₂ : Shards}
    {r₁ r₂ : Bytes} (h₁ : Counts P key sum s r₁ s₁) (h₂ : Counts P key sum s r₂ s₂) :
    r₁ = r₂ ∧ view P s₁ key = view P s₂ key := by
  cases hsum : sum with
  | none =>
      obtain ⟨hr₁, hs₁⟩ := h₁.refused hsum
      obtain ⟨hr₂, hs₂⟩ := h₂.refused hsum
      rw [hr₁, hr₂, hs₁, hs₂]
      exact ⟨rfl, rfl⟩
  | some n =>
      obtain ⟨hr₁, hs₁⟩ := h₁.added n hsum
      obtain ⟨hr₂, hs₂⟩ := h₂.added n hsum
      rw [hr₁, hr₂, hs₁, hs₂]
      exact ⟨rfl, rfl⟩

/-- **The two counter paths agree.** At one clock reading, `INCR key` and
`INCRBY key 1` give the same reply and leave the same item under the key, and
below the key limit the same entries under every key. -/
theorem incr_eq_incrby_one (P : Platform) (maxKeys : Nat) {s : Shards}
    (hs : ∀ i, Valid P i (s i)) (t : Int) (name name' key one : RespValue)
    (rest rest' : List RespValue) (hone : one.str = ascii "1") :
    ((handleIncr P (name :: key :: rest)).exec t s).1 =
      ((handleIncrby P maxKeys (name' :: key :: one :: rest')).exec t s).1 ∧
    view P ((handleIncr P (name :: key :: rest)).exec t s).2 key.str =
      view P ((handleIncrby P maxKeys (name' :: key :: one :: rest')).exec t s).2 key.str ∧
    (Store.total s < maxKeys →
      ∀ now, live now (view P ((handleIncr P (name :: key :: rest)).exec t s).2) =
        live now
          (view P ((handleIncrby P maxKeys (name' :: key :: one :: rest')).exec t s).2)) := by
  have hread : Decimal.fromChars 0 one.str = ⟨1, [], none⟩ := by
    rw [hone, show ascii "1" = Decimal.ofInt 1 ++ [] by decide]
    exact Decimal.fromChars_ofInt 0 (by decide) (by simp)
  have hincr := handleIncr_counts (P := P) (w := ⟨fun _ => t, s⟩) name key rest
  have hincrby := handleIncrby_counts maxKeys (w := ⟨fun _ => t, s⟩)
    (Store.run_get_fst P key.str le_rfl) name' one rest'
  rw [hread] at hincrby
  obtain ⟨hreply, hitem⟩ := hincr.unique hincrby
  refine ⟨hreply, hitem, fun hroom now => ?_⟩
  have hview : view P ((handleIncr P (name :: key :: rest)).exec t s).2 =
      view P ((handleIncrby P maxKeys (name' :: key :: one :: rest')).exec t s).2 := by
    funext k
    rcases eq_or_ne k key.str with rfl | hne
    · exact hitem
    · -- neither path touches another key
      have hk : k ∉ [key.str] := by simpa using hne
      rw [Prog.exec_snd, Prog.exec_snd, handleIncr_eq P maxKeys, handleIncrby_eq, readKey,
        readIncrby, hread, if_neg (not_not.mpr rfl)]
      rw [view_run_other (w := ⟨fun _ => t, s⟩) hs hroom (by simp) hk,
        view_run_other (w := ⟨fun _ => t, s⟩) hs hroom (by simp) hk]
  rw [hview]

/-- A counter whose deadline has come starts again, on both paths. -/
theorem incr_eq_incrby_one_expired :
    ((handleIncrby .concrete 4 (requestOf ["INCRBY", "n", "1"]).array).exec 20000
      (oneCounter ["EX", "10"])).1 = RespSerializer.integer 1 := by
  have hagree := incr_eq_incrby_one .concrete 4 (s := oneCounter ["EX", "10"])
    (play_valid .concrete 4 _) 20000
    { type := .bulkString, str := ascii "INCR" } { type := .bulkString, str := ascii "INCRBY" }
    { type := .bulkString, str := ascii "n" } { type := .bulkString, str := ascii "1" } [] [] rfl
  exact hagree.1.symm.trans (by decide +kernel)

end RedisCache.Commands
