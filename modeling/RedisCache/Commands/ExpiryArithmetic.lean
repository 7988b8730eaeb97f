import Mathlib
import RedisCache.Commands.SetOptions

/-!
# The arithmetic of expiries

`SET`, `EXPIRE` and `PEXPIRE` take any number that `from_chars` can read. Seconds
are multiplied by 1000 and the TTL is added to the clock, both in `int64_t` and
without a check. The handlers are written here once more with a log of the
exact results of these computations (`Logs` says that nothing else differs), and
`expiry_arithmetic_iff` says for which operands all of them are in range.
-/

namespace RedisCache.Storage

open Sections

/-- `Shard.expire`, with the sum it computes. -/
def Shard.expireLogged (sh : Shard) (key : Bytes) (ttlMs now now' : Int) :
    (Bool × List Int) × Shard :=
  match sh.map.find key with
  | none => ((false, []), sh)
  | some e =>
      if e.isExpired now then ((false, []), sh)
      else
        ((true, [now' + ttlMs]),
          { sh with map := sh.map.insert key { e with expiresAtMs := i64 (now' + ttlMs) } })

theorem Shard.expireLogged_fst (sh : Shard) (key : Bytes) (ttlMs now now' : Int) :
    sh.expire key ttlMs now now' =
      ((sh.expireLogged key ttlMs now now').1.1, (sh.expireLogged key ttlMs now now').2) := by
  rw [Shard.expire, Shard.expireLogged]
  cases sh.map.find key with
  | none => rfl
  | some e => by_cases hexp : e.isExpired now = true <;> simp [hexp]

namespace Store

/-- `expiresAt`, with the sum it computes. -/
def expiresAtLogged (ttlMs : Int) : StoreProg (Int × List Int) :=
  if 0 < ttlMs then do
    let now ← Prog.now
    pure (i64 (now + ttlMs), [now + ttlMs])
  else
    pure (-1, [])

/-- `set`, with the sum it computes. -/
def setLogged (P : Platform) (maxKeys : Nat) (key value : Bytes) (ttlMs : Int) :
    StoreProg (Unit × List Int) := do
  maybeEvict maxKeys
  let deadline ← expiresAtLogged ttlMs
  Prog.locked (shardFor P key) fun _ sh => (((), deadline.2), sh.setLocked key value deadline.1)

/-- `expire`, with the sum it computes. -/
def expireLogged (P : Platform) (key : Bytes) (ttlMs : Int) : StoreProg (Bool × List Int) :=
  Prog.locked (shardFor P key) fun t sh => sh.expireLogged key ttlMs (t 0) (t 1)

end Store

end RedisCache.Storage

namespace RedisCache.Commands

open Sections Protocol Storage TimedMap

/-! ## The handlers, with a log -/

/-- The option loop, with the products it computes. -/
def setOptionsLogged (o : SetOptions) : List RespValue → SetOptions × List Int
  | [] => (o, [])
  | [a] => (o.flag (a.str.map toUpper), [])
  | a :: b :: rest =>
      if a.str.map toUpper = ascii "EX" then
        let secs := (Decimal.fromChars 0 b.str).value
        let more := setOptionsLogged { o with ttlMs := i64 (secs * 1000) } rest
        (more.1, secs * 1000 :: more.2)
      else if a.str.map toUpper = ascii "PX" then
        setOptionsLogged { o with ttlMs := (Decimal.fromChars o.ttlMs b.str).value } rest
      else setOptionsLogged (o.flag (a.str.map toUpper)) (b :: rest)

def handleSetLogged (P : Platform) (maxKeys : Nat) : List RespValue → StoreProg (Bytes × List Int)
  | _ :: key :: value :: opts => do
      let o := setOptionsLogged {} opts
      let taken ← existsIf P o.1.nx key.str false
      if taken then pure (RespSerializer.nullBulk, o.2)
      else do
        let present ← existsIf P o.1.xx key.str true
        if !present then pure (RespSerializer.nullBulk, o.2)
        else do
          let stored ← Store.setLogged P maxKeys key.str value.str o.1.ttlMs
          pure (RespSerializer.ok, o.2 ++ stored.2)
  | _ => pure (wrongArgs "set", [])

/-- `toMs` comes with what it computes. -/
def expireHandlerLogged (P : Platform) (cmd : String) (toMs : Int → Int × List Int) :
    List RespValue → StoreProg (Bytes × List Int)
  | _ :: key :: amount :: _ => do
      let ms := toMs (Decimal.fromChars 0 amount.str).value
      let ok ← Store.expireLogged P key.str ms.1
      pure (RespSerializer.integer (if ok.1 then 1 else 0), ms.2 ++ ok.2)
  | _ => pure (wrongArgs cmd, [])

def handleExpireLogged (P : Platform) : List RespValue → StoreProg (Bytes × List Int) :=
  expireHandlerLogged P "expire" fun secs => (i64 (secs * 1000), [secs * 1000])

def handlePexpireLogged (P : Platform) : List RespValue → StoreProg (Bytes × List Int) :=
  expireHandlerLogged P "pexpire" fun ms => (ms, [])

/-- `p` is `q` with a log. -/
def Logs {α : Type} (p : StoreProg (α × List Int)) (q : StoreProg α) : Prop := Prod.fst <$> p = q

section Logs

variable (P : Platform) (maxKeys : Nat)

theorem expiresAtLogged_logs (ttlMs : Int) :
    Logs (Store.expiresAtLogged ttlMs) (Store.expiresAt ttlMs) := by
  unfold Logs Store.expiresAtLogged Store.expiresAt
  split <;> rfl

theorem setLogged_logs (key value : Bytes) (ttlMs : Int) :
    Logs (Store.setLogged P maxKeys key value ttlMs) (Store.set P maxKeys key value ttlMs) := by
  rw [Logs, Store.setLogged, Store.set, ← expiresAtLogged_logs ttlMs]
  simp only [map_bind, bind_map_left]
  rfl

theorem expireLogged_logs (key : Bytes) (ttlMs : Int) :
    Logs (Store.expireLogged P key ttlMs) (Store.expire P key ttlMs) := by
  rw [Logs, Store.expire]
  simp only [Shard.expireLogged_fst]
  rfl

theorem setOptionsLogged_fst (o : SetOptions) (opts : List RespValue) :
    (setOptionsLogged o opts).1 = setOptions o opts := by
  fun_induction setOptionsLogged o opts with
  | case1 o => rfl
  | case2 o a => rfl
  | case3 o a b rest hex secs more ih => rw [setOptions, if_pos hex, ← ih]
  | case4 o a b rest hex hpx ih => rw [setOptions, if_neg hex, if_pos hpx, ← ih]
  | case5 o a b rest hex hpx ih => rw [setOptions, if_neg hex, if_neg hpx, ← ih]

theorem handleSetLogged_logs (args : List RespValue) :
    Logs (handleSetLogged P maxKeys args) (handleSet P maxKeys args) := by
  match args with
  | [] | [_] | [_, _] => rfl
  | _ :: key :: value :: opts =>
      rw [Logs, handleSetLogged, handleSet, ← setLogged_logs]
      simp only [setOptionsLogged_fst, map_bind]
      refine bind_congr fun taken => ?_
      cases taken with
      | true => rfl
      | false =>
          simp only [Bool.false_eq_true, if_false, map_bind]
          refine bind_congr fun present => ?_
          cases present with
          | true => simp only [Bool.not_true, Bool.false_eq_true, if_false, map_bind, map_pure,
              bind_map_left]
          | false => rfl

theorem expireHandlerLogged_logs {cmd : String} {toMs : Int → Int × List Int} {toMs' : Int → Int}
    (h : ∀ n, (toMs n).1 = toMs' n) (args : List RespValue) :
    Logs (expireHandlerLogged P cmd toMs args) (expireHandler P cmd toMs' args) := by
  match args with
  | [] | [_] | [_, _] => rfl
  | _ :: key :: amount :: _ =>
      rw [Logs, expireHandlerLogged, expireHandler, ← h, ← expireLogged_logs]
      simp only [map_bind, bind_map_left, map_pure]

end Logs

/-! ## What is computed -/

/-- The numbers read behind the `EX` options. -/
def exSeconds : List RespValue → List Int
  | [] => []
  | [_] => []
  | a :: b :: rest =>
      if a.str.map toUpper = ascii "EX" then (Decimal.fromChars 0 b.str).value :: exSeconds rest
      else if a.str.map toUpper = ascii "PX" then exSeconds rest
      else exSeconds (b :: rest)

theorem setOptionsLogged_snd (o : SetOptions) (opts : List RespValue) :
    (setOptionsLogged o opts).2 = (exSeconds opts).map (· * 1000) := by
  fun_induction setOptionsLogged o opts with
  | case1 o => rfl
  | case2 o a => rfl
  | case3 o a b rest hex secs more ih => rw [exSeconds, if_pos hex, List.map_cons, ← ih]
  | case4 o a b rest hex hpx ih => rw [exSeconds, if_neg hex, if_pos hpx, ← ih]
  | case5 o a b rest hex hpx ih => rw [exSeconds, if_neg hex, if_neg hpx, ← ih]

section Computed

variable (P : Platform) (maxKeys : Nat) (w : World Index Shard)

theorem run_setLogged (key value : Bytes) (ttlMs : Int) :
    ((Store.setLogged P maxKeys key value ttlMs).run w).1.2 =
      if 0 < ttlMs then [w.clock (Store.evictReadings maxKeys w.cells) + ttlMs] else [] := by
  rw [Store.setLogged, Prog.run_bind, Store.run_maybeEvict, Prog.run_bind, Prog.run_locked,
    Store.expiresAtLogged]
  split
  · simp only [Prog.run_bind, Prog.run_now, Prog.run_pure, Nat.zero_add]
  · rfl

theorem run_expireLogged (key : Bytes) (ttlMs : Int) :
    ((Store.expireLogged P key ttlMs).run w).1.2 =
      if live (w.clock 0) (view P w.cells) key = none then [] else [w.clock 1 + ttlMs] := by
  rw [Store.expireLogged, Prog.run_locked, Shard.expireLogged, live_view]
  cases he : (w.cells (Store.shardFor P key)).map.find key with
  | none => simp
  | some e => by_cases hexp : e.isExpired (w.clock 0) = true <;> simp [hexp, Option.filter_some]

/-- `SET` adds the TTL to the clock when it writes and the TTL is positive. -/
theorem run_handleSetLogged (name key value : RespValue) (opts : List RespValue) :
    ((handleSetLogged P maxKeys (name :: key :: value :: opts)).run w).1.2 =
      (exSeconds opts).map (· * 1000) ++
        if (setOptions {} opts).blocks w.clock (view P w.cells) key.str = false ∧
            0 < (setOptions {} opts).ttlMs then
          [w.clock (Store.evictReadings maxKeys w.cells + (setOptions {} opts).readings) +
            (setOptions {} opts).ttlMs]
        else [] := by
  have hgated : handleSetLogged P maxKeys (name :: key :: value :: opts) =
      gated P (setOptions {} opts) key.str (RespSerializer.nullBulk, (setOptionsLogged {} opts).2)
        (Store.setLogged P maxKeys key.str value.str (setOptions {} opts).ttlMs >>= fun stored =>
          pure (RespSerializer.ok, (setOptionsLogged {} opts).2 ++ stored.2)) := by
    rw [← setOptionsLogged_fst]
    rfl
  rw [hgated, ← setOptionsLogged_snd {} opts]
  cases hblocks : (setOptions {} opts).blocks w.clock (view P w.cells) key.str with
  | true =>
      rw [(run_gated_blocked P hblocks _ _).1, if_neg (by simp), List.append_nil]
  | false =>
      rw [run_gated_free P hblocks, Prog.run_bind, Prog.run_pure]
      simp only [run_setLogged, true_and]

/-- The log of an `EXPIRE` or `PEXPIRE` with enough arguments. -/
theorem run_expireHandlerLogged (cmd : String) (toMs : Int → Int × List Int)
    (name key amount : RespValue) (rest : List RespValue) :
    ((expireHandlerLogged P cmd toMs (name :: key :: amount :: rest)).run w).1.2 =
      (toMs (Decimal.fromChars 0 amount.str).value).2 ++
        if live (w.clock 0) (view P w.cells) key.str = none then []
        else [w.clock 1 + (toMs (Decimal.fromChars 0 amount.str).value).1] := by
  rw [expireHandlerLogged, Prog.run_bind, Prog.run_pure]
  simp only [run_expireLogged]

end Computed

/-! ## When it is in range -/

/-- Seconds whose milliseconds are an `int64_t`. -/
def SecondsFit (secs : Int) : Prop := -9223372036854775 ≤ secs ∧ secs ≤ 9223372036854775

theorem inRange_mul_iff (secs : Int) : Decimal.InRange (secs * 1000) ↔ SecondsFit secs := by
  unfold Decimal.InRange SecondsFit
  omega

section InRange

variable (P : Platform) (maxKeys : Nat)

section Fits

variable (w : World Index Shard)

/-- The operands of a `SET`: every `EX` fits, and so does the deadline, if one
is computed. -/
def SetFits : List RespValue → Prop
  | _ :: key :: _ :: opts =>
      (∀ secs ∈ exSeconds opts, SecondsFit secs) ∧
        ((setOptions {} opts).blocks w.clock (view P w.cells) key.str = false →
          0 < (setOptions {} opts).ttlMs →
            w.clock (Store.evictReadings maxKeys w.cells + (setOptions {} opts).readings) +
              (setOptions {} opts).ttlMs < 2 ^ 63)
  | _ => True

/-- The operand of an `EXPIRE`: it fits, and so does the deadline of a live
key. -/
def ExpireFits : List RespValue → Prop
  | _ :: key :: amount :: _ =>
      SecondsFit (Decimal.fromChars 0 amount.str).value ∧
        (live (w.clock 0) (view P w.cells) key.str ≠ none →
          w.clock 1 + (Decimal.fromChars 0 amount.str).value * 1000 < 2 ^ 63)
  | _ => True

/-- The operand of a `PEXPIRE`: the deadline of a live key fits. -/
def PexpireFits : List RespValue → Prop
  | _ :: key :: amount :: _ =>
      live (w.clock 0) (view P w.cells) key.str ≠ none →
        w.clock 1 + (Decimal.fromChars 0 amount.str).value < 2 ^ 63
  | _ => True

end Fits

variable {w : World Index Shard} (h0 : ∀ n, 0 ≤ w.clock n)

include h0

theorem setFits_iff (args : List RespValue) :
    (∀ n ∈ ((handleSetLogged P maxKeys args).run w).1.2, Decimal.InRange n) ↔
      SetFits P maxKeys w args := by
  match args with
  | [] | [_] | [_, _] => exact iff_of_true (by simp [handleSetLogged]) trivial
  | name :: key :: value :: opts =>
      have hclock := h0 (Store.evictReadings maxKeys w.cells + (setOptions {} opts).readings)
      rw [run_handleSetLogged, List.forall_mem_append, List.forall_mem_map, SetFits]
      simp only [inRange_mul_iff]
      refine and_congr_right fun _ => ?_
      unfold Decimal.InRange
      split <;> rename_i hsum
      · simp only [List.mem_singleton, forall_eq]
        exact ⟨fun h _ _ => h.2, fun h => ⟨by omega, h hsum.1 hsum.2⟩⟩
      · simp only [List.not_mem_nil, false_implies, implies_true, true_iff]
        exact fun hfree hpos => absurd ⟨hfree, hpos⟩ hsum

theorem expireFits_iff (args : List RespValue) :
    (∀ n ∈ ((handleExpireLogged P args).run w).1.2, Decimal.InRange n) ↔
      ExpireFits P w args := by
  match args with
  | [] | [_] | [_, _] =>
      exact iff_of_true (by simp [handleExpireLogged, expireHandlerLogged]) trivial
  | name :: key :: amount :: rest =>
      have hclock := h0 1
      rw [handleExpireLogged, run_expireHandlerLogged, List.forall_mem_append, ExpireFits]
      simp only [List.mem_singleton, forall_eq, inRange_mul_iff]
      refine and_congr_right fun hsecs => ?_
      rw [i64_of_inRange ((inRange_mul_iff _).mpr hsecs)]
      unfold SecondsFit at hsecs
      unfold Decimal.InRange
      split <;> rename_i hlive
      · simp [hlive]
      · simp only [List.mem_singleton, forall_eq]
        exact ⟨fun h _ => h.2, fun h => ⟨by omega, h hlive⟩⟩

theorem pexpireFits_iff (args : List RespValue) :
    (∀ n ∈ ((handlePexpireLogged P args).run w).1.2, Decimal.InRange n) ↔
      PexpireFits P w args := by
  match args with
  | [] | [_] | [_, _] =>
      exact iff_of_true (by simp [handlePexpireLogged, expireHandlerLogged]) trivial
  | name :: key :: amount :: rest =>
      have hclock := h0 1
      have hzero : Decimal.InRange 0 := by decide
      have hranged := Decimal.fromChars_inRange hzero amount.str
      rw [handlePexpireLogged, run_expireHandlerLogged, List.nil_append, PexpireFits]
      unfold Decimal.InRange at hranged ⊢
      split <;> rename_i hlive
      · simp [hlive]
      · simp only [List.mem_singleton, forall_eq]
        exact ⟨fun h _ => h.2, fun h => ⟨by omega, h hlive⟩⟩

end InRange

/-- **The arithmetic of expiries.** With a clock that is not negative, every
product and sum that `SET`, `EXPIRE` and `PEXPIRE` compute is in the `int64_t`
range exactly if the seconds times 1000 and the deadline are. -/
theorem expiry_arithmetic_iff (P : Platform) (maxKeys : Nat) {w : World Index Shard}
    (h0 : ∀ n, 0 ≤ w.clock n) (args : List RespValue) :
    (Logs (handleSetLogged P maxKeys args) (handleSet P maxKeys args) ∧
      ((∀ n ∈ ((handleSetLogged P maxKeys args).run w).1.2, Decimal.InRange n) ↔
        SetFits P maxKeys w args)) ∧
    (Logs (handleExpireLogged P args) (handleExpire P args) ∧
      ((∀ n ∈ ((handleExpireLogged P args).run w).1.2, Decimal.InRange n) ↔
        ExpireFits P w args)) ∧
    (Logs (handlePexpireLogged P args) (handlePexpire P args) ∧
      ((∀ n ∈ ((handlePexpireLogged P args).run w).1.2, Decimal.InRange n) ↔
        PexpireFits P w args)) := by
  refine ⟨⟨handleSetLogged_logs P maxKeys args, ?_⟩,
    ⟨expireHandlerLogged_logs P (fun _ => rfl) args, ?_⟩,
    ⟨expireHandlerLogged_logs P (fun _ => rfl) args, ?_⟩⟩
  · exact setFits_iff P maxKeys h0 args
  · exact expireFits_iff P h0 args
  · exact pexpireFits_iff P h0 args

/-- A store with the key `k`, at `1000`. -/
def oneKeyAt : World Index Shard :=
  ⟨fun _ => 1000, play .concrete 4 [Turn.ofWords 1000 ["SET", "k", "v"]]⟩

theorem expiry_arithmetic_seconds :
    ExpireFits .concrete oneKeyAt (["EXPIRE", "k", "10"].map word) ∧
    ∀ n ∈ ((handleExpireLogged .concrete (["EXPIRE", "k", "10"].map word)).run oneKeyAt).1.2,
      Decimal.InRange n := by
  have hfits : ExpireFits .concrete oneKeyAt (["EXPIRE", "k", "10"].map word) :=
    ⟨⟨by decide +kernel, by decide +kernel⟩, fun _ => by decide +kernel⟩
  exact ⟨hfits, (expiry_arithmetic_iff .concrete 4 (w := oneKeyAt)
    (fun _ => Int.natCast_nonneg 1000) (["EXPIRE", "k", "10"].map word)).2.1.2.mpr hfits⟩

/-- The largest operand overflows in all three commands. -/
theorem expiry_overflows :
    (¬ ∀ n ∈ ((handleSetLogged .concrete 4
      (["SET", "k", "v", "EX", "9223372036854775807"].map word)).run oneKeyAt).1.2,
        Decimal.InRange n) ∧
    (¬ ∀ n ∈ ((handleExpireLogged .concrete
      (["EXPIRE", "k", "9223372036854775807"].map word)).run oneKeyAt).1.2,
        Decimal.InRange n) ∧
    ¬ ∀ n ∈ ((handlePexpireLogged .concrete
      (["PEXPIRE", "k", "9223372036854775807"].map word)).run oneKeyAt).1.2,
        Decimal.InRange n := by
  decide +kernel

end RedisCache.Commands
