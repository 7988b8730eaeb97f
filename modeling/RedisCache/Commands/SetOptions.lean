import Mathlib
import RedisCache.Commands.Frame

/-!
# The options of SET

`SET key value [EX seconds] [PX milliseconds] [NX] [XX]`: any number of
options, in any order and letter case. `Spelled` says which option lists the
arguments are, and `set_meets_iff` that `SET` then does what they ask for: `NX`
and `XX` decide whether it writes, the last `EX` or `PX` decides the deadline.

Two things are in the way. `Entry` takes every negative deadline for none, so a
clock before 1970 can make a key permanent; and a TTL of `2 ^ 63` milliseconds
or more, which only such a clock leaves room for, cannot be read. What is not
spelled as an option list is skipped or read as far as it goes, and then `SET`
stores a permanent key without saying so (`set_expires_iff`).
-/

namespace RedisCache.Commands

open Sections Protocol Storage TimedMap

/-! ## Option lists -/

inductive SetOption where
  | ex (secs : Int)
  | px (ms : Int)
  | nx
  | xx
deriving DecidableEq

/-- The TTL an option asks for, in milliseconds. -/
def SetOption.ttl : SetOption → Option Int
  | .ex secs => some (secs * 1000)
  | .px ms => some ms
  | .nx | .xx => none

/-- The TTL of the last `EX` or `PX`. -/
def lastTtl (os : List SetOption) : Option Int := (os.filterMap SetOption.ttl).getLast?

/-- `s` is the numeral of the positive number `n`, of any size. -/
structure PositiveDecimal (s : Bytes) (n : Int) : Prop where
  ne_nil : s ≠ []
  digits : ∀ b ∈ s, Decimal.isDigit b = true
  eq : n = Decimal.value s
  pos : 0 < n

/-- The argument is the option word `word`, in any letter case. -/
abbrev Word (word : String) (a : RespValue) : Prop := a.str.map toUpper = ascii word

/-- The arguments spell the options. -/
inductive Spelled : List SetOption → List RespValue → Prop
  | nil : Spelled [] []
  | ex {a b : RespValue} {n : Int} {os : List SetOption} {args : List RespValue} :
      Word "EX" a → PositiveDecimal b.str n → Spelled os args →
        Spelled (.ex n :: os) (a :: b :: args)
  | px {a b : RespValue} {n : Int} {os : List SetOption} {args : List RespValue} :
      Word "PX" a → PositiveDecimal b.str n → Spelled os args →
        Spelled (.px n :: os) (a :: b :: args)
  | nx {a : RespValue} {os : List SetOption} {args : List RespValue} :
      Word "NX" a → Spelled os args → Spelled (.nx :: os) (a :: args)
  | xx {a : RespValue} {os : List SetOption} {args : List RespValue} :
      Word "XX" a → Spelled os args → Spelled (.xx :: os) (a :: args)

/-! ## The option loop -/

theorem flag_ttlMs (o : SetOptions) (opt : Bytes) : (o.flag opt).ttlMs = o.ttlMs := by
  unfold SetOptions.flag
  split_ifs <;> rfl

theorem setOptions_inRange {o : SetOptions} (h : Decimal.InRange o.ttlMs) (opts : List RespValue) :
    Decimal.InRange (setOptions o opts).ttlMs := by
  induction o, opts using setOptions.induct with
  | case1 o => exact h
  | case2 o a =>
      rw [setOptions, flag_ttlMs]
      exact h
  | case3 o a b rest hex ih =>
      rw [setOptions, if_pos hex]
      exact ih (i64_inRange _)
  | case4 o a b rest hex hpx ih =>
      rw [setOptions, if_neg hex, if_pos hpx]
      exact ih (Decimal.fromChars_inRange h _)
  | case5 o a b rest hex hpx ih =>
      rw [setOptions, if_neg hex, if_neg hpx]
      exact ih (by rwa [flag_ttlMs])

theorem setOptions_ex {o : SetOptions} {a b : RespValue} (ha : Word "EX" a)
    (args : List RespValue) :
    setOptions o (a :: b :: args) =
      setOptions { o with ttlMs := i64 ((Decimal.fromChars 0 b.str).value * 1000) } args := by
  rw [setOptions, if_pos ha]

theorem setOptions_px {o : SetOptions} {a b : RespValue} (ha : Word "PX" a)
    (args : List RespValue) :
    setOptions o (a :: b :: args) =
      setOptions { o with ttlMs := (Decimal.fromChars o.ttlMs b.str).value } args := by
  rw [setOptions, if_neg (by rw [ha]; decide), if_pos ha]

/-- An argument that is neither `EX` nor `PX` takes one step. -/
theorem setOptions_flag {o : SetOptions} {a : RespValue} (hex : ¬ Word "EX" a)
    (hpx : ¬ Word "PX" a) (args : List RespValue) :
    setOptions o (a :: args) = setOptions (o.flag (a.str.map toUpper)) args := by
  cases args with
  | nil => rfl
  | cons b args => rw [setOptions, if_neg hex, if_neg hpx]

theorem setOptions_nx {o : SetOptions} {a : RespValue} (ha : Word "NX" a)
    (args : List RespValue) : setOptions o (a :: args) = setOptions { o with nx := true } args := by
  rw [setOptions_flag (by rw [Word, ha]; decide) (by rw [Word, ha]; decide), SetOptions.flag, ha,
    if_pos rfl]

theorem setOptions_xx {o : SetOptions} {a : RespValue} (ha : Word "XX" a)
    (args : List RespValue) : setOptions o (a :: args) = setOptions { o with xx := true } args := by
  rw [setOptions_flag (by rw [Word, ha]; decide) (by rw [Word, ha]; decide), SetOptions.flag, ha,
    if_neg (by decide), if_pos rfl]

/-- A numeral that fits is read. -/
theorem PositiveDecimal.fromChars_value {s : Bytes} {n : Int} (h : PositiveDecimal s n)
    (hn : n < 2 ^ 63) (init : Int) : (Decimal.fromChars init s).value = n := by
  have hnumeral : Decimal.Numeral s n :=
    ⟨⟨by have := h.pos; omega, hn⟩, s, h.ne_nil, h.digits, .inl ⟨rfl, h.eq⟩⟩
  rw [(Decimal.numeral_iff init).mp hnumeral]

/-- What the loop finds: the two flags, and the last TTL if it is an
`int64_t`. -/
structure Finds (os : List SetOption) (o o' : SetOptions) : Prop where
  nx : o'.nx = (o.nx || decide (.nx ∈ os))
  xx : o'.xx = (o.xx || decide (.xx ∈ os))
  unset : lastTtl os = none → o'.ttlMs = o.ttlMs
  last : ∀ d, lastTtl os = some d → d < 2 ^ 63 → o'.ttlMs = d

theorem lastTtl_cons (x : SetOption) (os : List SetOption) :
    lastTtl (x :: os) = (lastTtl os).or x.ttl := by
  cases hx : x.ttl with
  | none => simp [lastTtl, hx]
  | some d =>
      rw [lastTtl, List.filterMap_cons_some hx, List.getLast?_cons, lastTtl]
      cases (os.filterMap SetOption.ttl).getLast? <;> rfl

/-- An option that sets the TTL to `t`. -/
theorem Finds.cons_ttl {os : List SetOption} {o o' : SetOptions} {t : Int}
    (h : Finds os { o with ttlMs := t } o') {x : SetOption} {d : Int} (hx : x.ttl = some d)
    (ht : d < 2 ^ 63 → t = d) : Finds (x :: os) o o' := by
  have hnx : SetOption.nx ≠ x := by rintro rfl; cases hx
  have hxx : SetOption.xx ≠ x := by rintro rfl; cases hx
  refine ⟨by simpa [hnx] using h.nx, by simpa [hxx] using h.xx, ?_, ?_⟩
  · intro hlast
    rw [lastTtl_cons, hx] at hlast
    cases hos : lastTtl os <;> rw [hos] at hlast <;> cases hlast
  · intro d' hlast hd'
    rw [lastTtl_cons, hx] at hlast
    cases hos : lastTtl os with
    | none =>
        rw [hos, Option.none_or] at hlast
        obtain rfl := Option.some.inj hlast
        rw [h.unset hos]
        exact ht hd'
    | some e =>
        rw [hos, Option.some_or] at hlast
        exact h.last d' (hos.trans hlast) hd'

theorem lastTtl_flag {x : SetOption} (hx : x.ttl = none) (os : List SetOption) :
    lastTtl (x :: os) = lastTtl os := by
  rw [lastTtl_cons, hx, Option.or_none]

theorem Finds.cons_nx {os : List SetOption} {o o' : SetOptions}
    (h : Finds os { o with nx := true } o') : Finds (.nx :: os) o o' where
  nx := by simpa using h.nx
  xx := by simpa using h.xx
  unset := by
    rw [lastTtl_flag rfl]
    exact h.unset
  last := by
    rw [lastTtl_flag rfl]
    exact h.last

theorem Finds.cons_xx {os : List SetOption} {o o' : SetOptions}
    (h : Finds os { o with xx := true } o') : Finds (.xx :: os) o o' where
  nx := by simpa using h.nx
  xx := by simpa using h.xx
  unset := by
    rw [lastTtl_flag rfl]
    exact h.unset
  last := by
    rw [lastTtl_flag rfl]
    exact h.last

theorem Spelled.finds {os : List SetOption} {args : List RespValue} (h : Spelled os args)
    (o : SetOptions) : Finds os o (setOptions o args) := by
  induction h generalizing o with
  | nil => exact ⟨by simp [setOptions], by simp [setOptions], fun _ => rfl, fun d hd => by cases hd⟩
  | @ex a b n os args ha hb _ ih =>
      rw [setOptions_ex ha]
      refine (ih _).cons_ttl rfl fun hd => ?_
      have hpos := hb.pos
      rw [hb.fromChars_value (by omega)]
      exact i64_of_inRange ⟨by omega, hd⟩
  | @px a b n os args ha hb _ ih =>
      rw [setOptions_px ha]
      exact (ih _).cons_ttl rfl fun hd => hb.fromChars_value hd _
  | @nx a os args ha _ ih =>
      rw [setOptions_nx ha]
      exact (ih _).cons_nx
  | @xx a os args ha _ ih =>
      rw [setOptions_xx ha]
      exact (ih _).cons_xx

theorem Spelled.ttl_pos {os : List SetOption} {args : List RespValue} (h : Spelled os args) :
    ∀ d ∈ os.filterMap SetOption.ttl, 0 < d := by
  induction h with
  | nil => simp
  | ex _ hb _ ih =>
      have hpos := hb.pos
      exact List.forall_mem_cons.mpr ⟨by omega, ih⟩
  | px _ hb _ ih => exact List.forall_mem_cons.mpr ⟨hb.pos, ih⟩
  | nx _ _ ih => exact ih
  | xx _ _ ih => exact ih

/-! ## SET with an option list -/

/-- `NX` and `XX` let a `SET` write to a key with this live item. -/
def Allows (os : List SetOption) (item : Option (Item Bytes)) : Prop :=
  (.nx ∈ os → item = none) ∧ (.xx ∈ os → item ≠ none)

/-- What a `SET` with the options `os` is for: its reply `r` and the store `s'`
behind it. -/
structure SetMeets (P : Platform) (now : Int) (os : List SetOption) (key value : Bytes)
    (s : Shards) (r : Bytes) (s' : Shards) : Prop where
  ok_iff : r = RespSerializer.ok ↔ Allows os (live now (view P s) key)
  stored : Allows os (live now (view P s) key) →
    view P s' key = some ⟨value, (lastTtl os).map (now + ·)⟩
  refused : ¬ Allows os (live now (view P s) key) →
    r = RespSerializer.nullBulk ∧ live now (view P s') = live now (view P s)

/-- A deadline that `Entry` can hold and a TTL that can be read. -/
def Holdable (now : Int) (os : List SetOption) : Prop :=
  ∀ d, lastTtl os = some d → 0 ≤ now + d ∧ d < 2 ^ 63

section Set

variable {P : Platform} (maxKeys : Nat) {now : Int} {os : List SetOption} {o : SetOptions}

theorem Finds.blocks_iff (h : Finds os {} o) (now : Int) (m : Bytes → Option (Item Bytes))
    (key : Bytes) :
    o.blocks (fun _ => now) m key = false ↔ Allows os (live now m key) := by
  rw [SetOptions.blocks, h.nx, h.xx, Allows]
  cases live now m key <;> simp

/-- The deadline `Store::set` stores for the TTL that was found. -/
theorem Finds.deadline_iff (h : Finds os {} o) (hnow : Decimal.InRange now)
    (hranged : Decimal.InRange o.ttlMs) (hpos : ∀ d ∈ os.filterMap SetOption.ttl, 0 < d)
    (hfar : ∀ d ∈ os.filterMap SetOption.ttl, now + d < 2 ^ 63) (value : Bytes) :
    Entry.item ⟨value, Store.deadlineOf now o.ttlMs, none⟩ =
        ⟨value, (lastTtl os).map (now + ·)⟩ ↔
      Holdable now os := by
  cases hlast : lastTtl os with
  | none =>
      have hnone : Holdable now os := by
        intro d hd
        rw [hlast] at hd
        cases hd
      rw [h.unset hlast]
      simpa [Entry.item, Entry.hasExpiry, Store.deadlineOf] using hnone
  | some d =>
      have hd := hpos d (List.mem_of_getLast? hlast)
      have hd' := hfar d (List.mem_of_getLast? hlast)
      have hiff : Holdable now os ↔ 0 ≤ now + d ∧ d < 2 ^ 63 := by
        simp [Holdable, hlast]
      have hfound := h.last d hlast
      have hitem : Entry.item ⟨value, Store.deadlineOf now o.ttlMs, none⟩ =
          ⟨value, some (now + d)⟩ ↔
          0 ≤ Store.deadlineOf now o.ttlMs ∧ Store.deadlineOf now o.ttlMs = now + d := by
        rw [← Entry.item_deadline_iff ⟨value, Store.deadlineOf now o.ttlMs, none⟩]
        exact ⟨fun h => congrArg Item.deadline h, fun h => by rw [← h]; rfl⟩
      rw [hiff, Option.map_some, hitem]
      unfold Decimal.InRange at hnow hranged
      unfold Store.deadlineOf i64
      constructor
      · rintro ⟨h0, heq⟩
        split at heq <;> omega
      · rintro ⟨h0, hlt⟩
        rw [hfound hlt, if_pos hd]
        omega

/-- A `SET` that nothing keeps from writing, at one clock reading. -/
theorem exec_set_free {s : Shards} {key : Bytes}
    (h : o.blocks (fun _ => now) (view P s) key = false) (value : Bytes) :
    (((Command.set key value o).prog P maxKeys).exec now s).1 = RespSerializer.ok ∧
      view P (((Command.set key value o).prog P maxKeys).exec now s).2 key =
        some (Entry.item ⟨value, Store.deadlineOf now o.ttlMs, none⟩) := by
  rw [Prog.exec, run_set_free P maxKeys (w := ⟨fun _ => now, s⟩) h]
  refine ⟨rfl, ?_⟩
  simp only
  rw [Store.view_run_set_evicted, Function.update_self]

variable {s : Shards} {args : List RespValue}

/-- A `SET` that may write does what it is for if `Store::set` stores the right
deadline, and one that may not always does. -/
theorem Spelled.setMeets_iff (hargs : Spelled os args) (hnow : Decimal.InRange now)
    (hfar : ∀ d ∈ os.filterMap SetOption.ttl, now + d < 2 ^ 63) (key value : Bytes) :
    SetMeets P now os key value s
        (((Command.set key value (setOptions {} args)).prog P maxKeys).exec now s).1
        (((Command.set key value (setOptions {} args)).prog P maxKeys).exec now s).2 ↔
      (Allows os (live now (view P s) key) → Holdable now os) := by
  have hfinds := hargs.finds {}
  by_cases hallows : Allows os (live now (view P s) key)
  · have hfree := (hfinds.blocks_iff now (view P s) key).mpr hallows
    obtain ⟨hreply, hview⟩ := exec_set_free maxKeys hfree value
    have hranged := setOptions_inRange (o := {}) (by decide) args
    have hdeadline := hfinds.deadline_iff hnow hranged hargs.ttl_pos hfar value
    constructor
    · intro hmeets _
      have hstored := hmeets.stored hallows
      rw [hview] at hstored
      exact hdeadline.mp (Option.some.inj hstored)
    · intro hholds
      refine ⟨iff_of_true hreply hallows, fun _ => ?_, fun hno => absurd hallows hno⟩
      rw [hview, hdeadline.mpr (hholds hallows)]
  · have hblocks : (setOptions {} args).blocks (fun _ => now) (view P s) key = true := by
      rw [← Bool.not_eq_false]
      exact fun hfree => hallows ((hfinds.blocks_iff now (view P s) key).mp hfree)
    obtain ⟨hreply, hcells⟩ := run_set_blocked P maxKeys (w := ⟨fun _ => now, s⟩) hblocks value
    refine iff_of_true ⟨?_, fun h => absurd h hallows, fun _ => ⟨hreply, ?_⟩⟩
      fun h => absurd h hallows
    · exact iff_of_false (by rw [Prog.exec, hreply]; decide) hallows
    · rw [Prog.exec_snd, hcells]

/-- From 1970 on every deadline can be held. -/
theorem Spelled.holdable (hargs : Spelled os args) (h0 : 0 ≤ now)
    (hfar : ∀ d ∈ os.filterMap SetOption.ttl, now + d < 2 ^ 63) : Holdable now os := by
  intro d hd
  have hpos := hargs.ttl_pos d (List.mem_of_getLast? hd)
  have hlt := hfar d (List.mem_of_getLast? hd)
  omega

end Set

/-- **SET and its options.** At every clock reading, for every option list with
deadlines below `2 ^ 63`: `SET` does what it is for exactly if it is not to
write, or sets no TTL, or the deadline is not negative and the TTL an
`int64_t`. From 1970 on it always does. -/
theorem set_meets_iff (P : Platform) (maxKeys : Nat) (s : Shards) {now : Int}
    (hnow : Decimal.InRange now) {os : List SetOption} {args : List RespValue}
    (hargs : Spelled os args) (hfar : ∀ d ∈ os.filterMap SetOption.ttl, now + d < 2 ^ 63)
    (name key value : RespValue) :
    (SetMeets P now os key.str value.str s
        ((handleSet P maxKeys (name :: key :: value :: args)).exec now s).1
        ((handleSet P maxKeys (name :: key :: value :: args)).exec now s).2 ↔
      (Allows os (live now (view P s) key.str) → Holdable now os)) ∧
    (0 ≤ now → SetMeets P now os key.str value.str s
        ((handleSet P maxKeys (name :: key :: value :: args)).exec now s).1
        ((handleSet P maxKeys (name :: key :: value :: args)).exec now s).2) := by
  rw [handleSet_eq, readSet]
  have hiff := hargs.setMeets_iff (P := P) (s := s) maxKeys hnow hfar key.str value.str
  exact ⟨hiff, fun h0 => hiff.mpr fun _ => hargs.holdable h0 hfar⟩

/-- A bulk string of a request. -/
def word (s : String) : RespValue := { type := .bulkString, str := ascii s }

/-- Two deadlines asked for, and the last one counts. -/
theorem set_meets_last :
    SetMeets .concrete 1000 [.ex 10, .nx, .px 5] (ascii "k") (ascii "v") Store.empty
      ((handleSet .concrete 4 ([word "SET", word "k", word "v"] ++
        [word "ex", word "10", word "Nx", word "PX", word "05"])).exec 1000 Store.empty).1
      ((handleSet .concrete 4 ([word "SET", word "k", word "v"] ++
        [word "ex", word "10", word "Nx", word "PX", word "05"])).exec 1000 Store.empty).2 := by
  have hten : PositiveDecimal (word "10").str 10 :=
    ⟨by decide, by decide +kernel, by decide +kernel, by decide⟩
  have hfive : PositiveDecimal (word "05").str 5 :=
    ⟨by decide, by decide +kernel, by decide +kernel, by decide⟩
  have hargs : Spelled [.ex 10, .nx, .px 5]
      [word "ex", word "10", word "Nx", word "PX", word "05"] :=
    .ex (by decide) hten (.nx (by decide) (.px (by decide) hfive .nil))
  have hnow : Decimal.InRange 1000 := by decide
  exact (set_meets_iff .concrete 4 Store.empty hnow hargs (by decide) (word "SET")
    (word "k") (word "v")).2 (by decide)

/-- Five milliseconds before 1970, a TTL of three makes the key permanent. -/
theorem set_before_epoch :
    ¬ SetMeets .concrete (-5) [.px 3] (ascii "k") (ascii "v") Store.empty
      ((handleSet .concrete 4 [word "SET", word "k", word "v", word "PX", word "3"]).exec (-5)
        Store.empty).1
      ((handleSet .concrete 4 [word "SET", word "k", word "v", word "PX", word "3"]).exec (-5)
        Store.empty).2 := by
  intro hmeets
  have hok : ((handleSet .concrete 4 [word "SET", word "k", word "v", word "PX", word "3"]).exec
      (-5) Store.empty).1 = RespSerializer.ok := by decide +kernel
  have hstored := congrArg (Option.map Item.deadline) (hmeets.stored (hmeets.ok_iff.mp hok))
  exact absurd hstored (by decide +kernel)

/-! ## SET that asks for an expiry -/

/-- Refused, or stored with a deadline that has not come. -/
def Expires (P : Platform) (now : Int) (key : Bytes) (s : Shards) (r : Bytes) (s' : Shards) :
    Prop :=
  (IsError r ∧ s' = s) ∨ r = RespSerializer.nullBulk ∨
    r = RespSerializer.ok ∧ ∃ it d, view P s' key = some it ∧ it.deadline = some d ∧ now < d

/-- **A TTL that gets lost.** Whatever its options are, a `SET` is refused or
stores a deadline later than now exactly if `NX` or `XX` refuse it, or the TTL
the option loop ends with is positive and the deadline a non-negative
`int64_t`. -/
theorem set_expires_iff (P : Platform) (maxKeys : Nat) (s : Shards) {now : Int}
    (hnow : Decimal.InRange now) (name key value : RespValue) (opts : List RespValue) :
    Expires P now key.str s
        ((handleSet P maxKeys (name :: key :: value :: opts)).exec now s).1
        ((handleSet P maxKeys (name :: key :: value :: opts)).exec now s).2 ↔
      (setOptions {} opts).blocks (fun _ => now) (view P s) key.str = true ∨
        0 < (setOptions {} opts).ttlMs ∧ 0 ≤ now + (setOptions {} opts).ttlMs ∧
          now + (setOptions {} opts).ttlMs < 2 ^ 63 := by
  have hranged := setOptions_inRange (o := {}) (by decide) opts
  rw [handleSet_eq, readSet]
  cases hblocks : (setOptions {} opts).blocks (fun _ => now) (view P s) key.str with
  | true =>
      have hreply := (run_set_blocked P maxKeys (w := ⟨fun _ => now, s⟩) hblocks value.str).1
      exact iff_of_true (Or.inr (Or.inl hreply)) (Or.inl rfl)
  | false =>
      obtain ⟨hreply, hview⟩ := exec_set_free maxKeys hblocks value.str
      have hexpires : Expires P now key.str s
          (((Command.set key.str value.str (setOptions {} opts)).prog P maxKeys).exec now s).1
          (((Command.set key.str value.str (setOptions {} opts)).prog P maxKeys).exec now s).2 ↔
          0 ≤ Store.deadlineOf now (setOptions {} opts).ttlMs ∧
            now < Store.deadlineOf now (setOptions {} opts).ttlMs := by
        rw [Expires, hreply, hview]
        constructor
        · rintro (⟨herror, -⟩ | hnull | ⟨-, it, d, hit, hd, hlt⟩)
          · exact absurd herror not_isError_ok
          · exact absurd hnull (by decide)
          · obtain rfl := Option.some.inj hit
            obtain ⟨h0, rfl⟩ := (Entry.item_deadline_iff _ d).mp hd
            exact ⟨h0, hlt⟩
        · rintro ⟨h0, hlt⟩
          exact Or.inr (Or.inr ⟨rfl, _, _, rfl, (Entry.item_deadline_iff _ _).mpr ⟨h0, rfl⟩, hlt⟩)
      rw [hexpires]
      unfold Decimal.InRange at hnow hranged
      unfold Store.deadlineOf i64
      simp only [Bool.false_eq_true, false_or]
      split <;> omega

theorem set_expires_seconds :
    Expires .concrete 1000 (ascii "k") Store.empty
      ((handleSet .concrete 4 (["SET", "k", "v", "EX", "10"].map word)).exec 1000 Store.empty).1
      ((handleSet .concrete 4 (["SET", "k", "v", "EX", "10"].map word)).exec 1000
        Store.empty).2 := by
  have hnow : Decimal.InRange 1000 := by decide
  exact (set_expires_iff .concrete 4 Store.empty hnow (word "SET") (word "k") (word "v")
    [word "EX", word "10"]).mpr (Or.inr (by decide +kernel))

/-- Nothing behind `EX`, a word, zero, a negative number, a number that does not
fit: the reply is `OK` and the key has no deadline. -/
theorem set_loses_ttl :
    [["EX"], ["EX", "ten"], ["EX", "0"], ["PX", "-5"], ["PX", "9223372036854775808"]].map
        (fun opts =>
          let out := (handleSet .concrete 4 ((["SET", "k", "v"] ++ opts).map word)).exec 1000
            Store.empty
          (out.1, (view .concrete out.2 (ascii "k")).map Item.deadline)) =
      List.replicate 5 (RespSerializer.ok, some none) := by
  decide +kernel

end RedisCache.Commands
