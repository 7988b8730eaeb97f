import Mathlib
import RedisCache.Server.Threads

/-!
# Every request is answered

The event loop waits for nothing but a shard's lock. A command takes a number
of steps that depends on the request only (`Command.steps`), not on what the
store holds and not on what the maintenance thread does in between. So the
first requests are answered once the event loop has taken as many steps as
they need, however the steps of the two threads interleave
(`requests_answered`).
-/

namespace RedisCache.Commands

open Sections Storage

/-- Readings of the clock and sections, at most. -/
def Command.steps : Command → Nat
  | .reply _ => 0
  | .set _ _ _ | .incrby _ _ => 37
  | .get _ => 2
  | .del ks | .exist ks => ks.length
  | .expire _ _ | .ttl _ | .pttl _ | .incr _ => 1
  | .keys _ => 17
  | .dbsize | .flushall => 16

section Ends

variable (P : Platform) (maxKeys : Nat)

theorem size_ends : Ends Store.size 16 := (Ends.eachCell _ _).bind fun _ => Ends.pure _ 0

theorem maybeEvict_ends : Ends (Store.maybeEvict maxKeys) 33 := by
  refine size_ends.bind (n := 17) fun approx => ?_
  split
  · exact Ends.pure _ _
  · exact (Ends.eachCell _ _).bind (n := 1) fun _ => Ends.locked _ _

theorem expiresAt_ends (ttlMs : Int) : Ends (Store.expiresAt ttlMs) 1 := by
  unfold Store.expiresAt
  split
  · exact Ends.now.bind fun _ => Ends.pure _ 0
  · exact Ends.pure _ _

theorem set_ends (key value : Bytes) (ttlMs : Int) :
    Ends (Store.set P maxKeys key value ttlMs) 35 :=
  (maybeEvict_ends maxKeys).bind (n := 2) fun _ =>
    (expiresAt_ends ttlMs).bind (n := 1) fun _ => Ends.locked _ _

theorem get_ends (key : Bytes) : Ends (Store.get P key) 2 := by
  refine (Ends.locked _ _).bind (n := 1) fun r => ?_
  cases r with
  | some r => exact Ends.pure _ _
  | none => exact Ends.locked _ _

theorem existsIf_ends (flag : Bool) (key : Bytes) (otherwise : Bool) :
    Ends (existsIf P flag key otherwise) 1 := by
  unfold existsIf
  split
  · exact Ends.locked _ _
  · exact Ends.pure _ _

theorem countOf_ends {op : Bytes → StoreProg Bool} (hop : ∀ k, Ends (op k) 1) (ks : List Bytes)
    (n : Int) : Ends (countOf op ks n) ks.length := by
  induction ks generalizing n with
  | nil => exact Ends.pure _ _
  | cons k ks ih =>
      rw [List.length_cons, Nat.add_comm]
      exact (hop k).bind fun _ => ih _

theorem command_ends (c : Command) : Ends (c.prog P maxKeys) c.steps := by
  cases c with
  | reply r => exact Ends.pure _ _
  | set key value o =>
      refine (existsIf_ends P _ _ _).bind (n := 36) fun taken => ?_
      split
      · exact Ends.pure _ _
      · refine (existsIf_ends P _ _ _).bind (n := 35) fun present => ?_
        split
        · exact Ends.pure _ _
        · exact (set_ends P maxKeys _ _ _).bind fun _ => Ends.pure _ 0
  | get key => exact (get_ends P key).map
  | del ks => exact (countOf_ends (fun _ => Ends.locked _ _) ks 0).map
  | exist ks => exact (countOf_ends (fun _ => Ends.locked _ _) ks 0).map
  | expire key ttlMs => exact (Ends.locked _ _).map
  | ttl key => exact (Ends.locked _ _).map
  | pttl key => exact (Ends.locked _ _).map
  | incr key => exact (Ends.locked _ _).map
  | incrby key delta =>
      refine (get_ends P key).bind (n := 35) fun cur => ?_
      split
      · exact Ends.pure _ _
      · exact (set_ends P maxKeys _ _ _).bind fun _ => Ends.pure _ 0
  | keys pattern =>
      exact (Ends.now.bind (n := 16) fun _ => (Ends.eachCell _ _).bind fun _ => Ends.pure _ 0).map
  | dbsize => exact size_ends.map
  | flushall =>
      exact ((Ends.eachCell _ _).bind fun _ => Ends.pure _ 0).bind fun _ => Ends.pure _ 0

end Ends

end RedisCache.Commands

namespace RedisCache.Server

open Sections Protocol Storage Commands Persistence

/-- The event loop's steps for a request: to take it, to run it, and to hand out
the reply. -/
def effort (req : RespValue) : Nat := (commandOf req).steps + 2

def Move.isEventLoop : Move → Bool
  | .maintenance _ _ => false
  | .eventLoop _ => true

/-- The steps for the request under way. -/
def Begun (b : Nat) : Option Executing → Prop
  | none => b = 0
  | some x => ∃ c, b = c + 1 ∧ Ends x.rest c

/-- `k` requests are answered, or will be after `n` more steps of the event
loop. -/
def Owes (T : Threads) (k n : Nat) : Prop :=
  k ≤ T.log.length ∨ ∃ b, Begun b T.current ∧
    b + ((T.queue.take (k - T.log.length - T.current.toList.length)).map effort).sum ≤ n

section Steps

variable {P : Platform} {cfg : Config} {intervalSecs : Int} {T : Threads} {k n : Nat}

/-- Whatever the maintenance thread does, it takes nothing from the event loop. -/
theorem Owes.maintenance (h : Owes T k n) (clk : Nat → Int) (io : Rdb.Faults) :
    Owes (T.step P cfg intervalSecs (.maintenance clk io)) k n := h

theorem Threads.log_length_step (T : Threads) (mv : Move) :
    T.log.length ≤ (T.step P cfg intervalSecs mv).log.length := by
  cases mv with
  | maintenance clk io => exact le_rfl
  | eventLoop clk =>
      rw [step, execute]
      split
      · split <;> exact le_rfl
      · simp
      · exact le_rfl

/-- A step of the event loop is one step less to go. -/
theorem Owes.eventLoop (h : Owes T k (n + 1)) (clk : Nat → Int) :
    Owes (T.step P cfg intervalSecs (.eventLoop clk)) k n := by
  rcases h with hdone | ⟨b, hbegun, hsum⟩
  · exact .inl (hdone.trans (T.log_length_step _))
  by_cases hk : k ≤ T.log.length
  · exact .inl (hk.trans (T.log_length_step _))
  rw [Threads.step, Threads.execute]
  cases hcur : T.current with
  | none =>
      rw [hcur] at hbegun hsum
      obtain rfl : b = 0 := hbegun
      cases hqueue : T.queue with
      | nil =>
          -- fewer than `k` requests in all
          refine .inr ⟨0, ?_, ?_⟩
          · rw [hcur]
            rfl
          · simp [hqueue]
      | cons req queue =>
          obtain ⟨j, hj⟩ : ∃ j, k - T.log.length = j + 1 := ⟨k - T.log.length - 1, by omega⟩
          have hends : Ends (dispatch P cfg.maxKeys req) (commandOf req).steps := by
            rw [dispatch_eq]
            exact command_ends P cfg.maxKeys (commandOf req)
          refine .inr ⟨(commandOf req).steps + 1, ⟨_, rfl, hends⟩, ?_⟩
          simp only [hqueue, hj, effort, Option.toList_none, Option.toList_some, List.length_nil,
            List.length_cons, List.take_succ_cons, List.map_cons, List.sum_cons,
            Nat.add_sub_cancel, Nat.sub_zero] at hsum ⊢
          omega
  | some x =>
      obtain ⟨req, since, full, rest⟩ := x
      rw [hcur] at hbegun hsum
      obtain ⟨c, rfl, hends⟩ := hbegun
      cases rest with
      | ret r =>
          refine .inr ⟨0, rfl, ?_⟩
          simp only [Option.toList_some, Option.toList_none, List.length_cons, List.length_nil,
            List.length_append, Nat.sub_add_eq, Nat.zero_add, Nat.sub_zero] at hsum ⊢
          omega
      | clock next =>
          obtain ⟨d, rfl, hrest⟩ := hends.advance (by simp) clk T.upkeep.cells
          refine .inr ⟨d + 1, ⟨d, rfl, hrest⟩, ?_⟩
          simp only [Option.toList_some, List.length_cons, List.length_nil] at hsum ⊢
          omega
      | lock i update next =>
          obtain ⟨d, rfl, hrest⟩ := hends.advance (by simp) clk T.upkeep.cells
          refine .inr ⟨d + 1, ⟨d, rfl, hrest⟩, ?_⟩
          simp only [Option.toList_some, List.length_cons, List.length_nil] at hsum ⊢
          omega

/-- Induction on the moves: those of the event loop count. -/
theorem Owes.run {moves : List Move} (h : Owes T k (moves.countP Move.isEventLoop)) :
    Owes (T.run P cfg intervalSecs moves) k 0 := by
  induction moves generalizing T with
  | nil => exact h
  | cons mv moves ih =>
      cases mv with
      | maintenance clk io => exact ih (h.maintenance clk io)
      | eventLoop clk =>
          rw [List.countP_cons_of_pos rfl] at h
          exact ih (h.eventLoop clk)

/-- Nothing left to do, so the requests that there are have been answered. -/
theorem Owes.answered (h : Owes T k 0) (hk : k ≤ T.requests.length) : k ≤ T.log.length := by
  rcases h with hdone | ⟨b, hbegun, hsum⟩
  · exact hdone
  by_contra hlt
  cases hcur : T.current with
  | some x =>
      rw [hcur] at hbegun
      obtain ⟨c, rfl, -⟩ := hbegun
      omega
  | none =>
      cases hqueue : T.queue with
      | nil => simp [Threads.requests, hcur, hqueue, hlt] at hk
      | cons req queue =>
          obtain ⟨j, hj⟩ : ∃ j, k - T.log.length = j + 1 := ⟨k - T.log.length - 1, by omega⟩
          simp [hcur, hqueue, hj, effort] at hsum

end Steps

/-- **Every request is answered.** Once the event loop has taken as many steps as
the first `k` requests need, these have their replies. What the maintenance
thread does in between, what the store holds and what the clock shows make no
difference; in particular no request waits for a sweep or a save to end. -/
theorem requests_answered (P : Platform) (cfg : Config) (intervalSecs : Int) (s : Shards)
    (files : Rdb.Files) (now : Int) (requests : List RespValue) (moves : List Move) (k : Nat)
    (hsteps : ((requests.take k).map effort).sum ≤ moves.countP Move.isEventLoop) :
    let T := (Threads.start s files now requests).run P cfg intervalSecs moves
    requests.take k <+: T.log.map Handled.request := by
  intro T
  have horder : T.requests = requests :=
    Threads.requests_run (Threads.start s files now requests) moves
  have hstart : Owes (Threads.start s files now requests) (min k requests.length)
      (moves.countP Move.isEventLoop) := by
    refine .inr ⟨0, rfl, ?_⟩
    simpa [Threads.start, ← List.take_eq_take_min] using hsteps
  have hlog : min k requests.length ≤ T.log.length :=
    hstart.run.answered (by rw [horder]; exact min_le_right _ _)
  have hprefix : T.log.map Handled.request <+: requests := by
    rw [← horder]
    exact List.prefix_append _ _
  refine List.prefix_of_prefix_length_le (List.take_prefix _ _) hprefix ?_
  simpa using hlog

theorem requests_answered_sweptGet :
    [requestOf ["GET", "a"]] <+: sweptGetRun.log.map Handled.request :=
  requests_answered .concrete (snapshotOnly 4) 1 (Rdb.oneKey 0 5) {} 10
    [requestOf ["GET", "a"]] sweptGet 1 (by decide +kernel)

end RedisCache.Server
