import Mathlib
import RedisCache.Commands.Cache

/-!
# No stale value and no invented one

A `GET` answers with nothing, or with the value of the last write to its key
that a client was told had succeeded. Expiry, sweeps and eviction can only
turn the second into the first.

Nothing is assumed of the clock. `system_clock` can be set back, and an entry
that was dead is then alive again; so the argument is about all entries of the
store, dead or alive: whatever lies under a key is what was last written there
(`Written`), turn by turn (`Written.turn`). `lastWrite` reads a run from
outside, from requests and replies alone.
-/

namespace RedisCache.Commands

open Sections Protocol Storage TimedMap

/-! ## What was written last -/

/-- The digits of an integer reply. -/
def digits (reply : Bytes) : Bytes := (reply.drop 1).dropLast.dropLast

theorem digits_integer (n : Int) : digits (RespSerializer.integer n) = Decimal.ofInt n := by
  rw [digits, RespSerializer.integer,
    show ascii ":" ++ Decimal.ofInt n ++ crlf = 58 :: (Decimal.ofInt n ++ [13, 10]) from rfl,
    List.drop_one, List.tail_cons, List.dropLast_append_of_ne_nil (by simp)]
  simp

/-- What a command with this reply has left under `k`; `none` if it has not
written there. -/
def Command.writes (reply k : Bytes) : Command → Option (Option Bytes)
  | .set key value _ => if key = k ∧ reply = RespSerializer.ok then some (some value) else none
  | .incr key | .incrby key _ =>
      if key = k ∧ reply.head? = some 58 then some (some (digits reply)) else none
  | .del ks => if ks.contains k then some none else none
  | .flushall => some none
  | _ => none

/-- The same of a turn of a run. -/
def Step.writes (e : Step) (k : Bytes) : Option (Option Bytes) :=
  match e.turn.request with
  | none => none
  | some req => (commandOf req).writes e.reply k

/-- The value of the last write to `k`, unless the key was removed since. -/
def lastWrite (k : Bytes) (es : List Step) : Option Bytes :=
  es.foldl (fun v e => (e.writes k).getD v) none

theorem lastWrite_append (k : Bytes) (es : List Step) (e : Step) :
    lastWrite k (es ++ [e]) = (e.writes k).getD (lastWrite k es) := by
  rw [lastWrite, List.foldl_append]
  rfl

/-! ## Maps that hold no new value -/

/-- Each value of `m'` lies under its key in `m`, too. -/
def Fewer (m m' : Cache) : Prop :=
  ∀ k it, m' k = some it → ∃ it', m k = some it' ∧ it'.value = it.value

namespace Fewer

variable {m m' m'' : Cache}

theorem of_eq (h : m' = m) : Fewer m m' := by
  subst h
  exact fun _ it hk => ⟨it, hk, rfl⟩

theorem trans (h : Fewer m m') (h' : Fewer m' m'') : Fewer m m'' := by
  intro k it hk
  obtain ⟨it', hk', hvalue'⟩ := h' k it hk
  obtain ⟨it'', hk'', hvalue''⟩ := h k it' hk'
  exact ⟨it'', hk'', hvalue''.trans hvalue'⟩

theorem live (now : Int) (m : Cache) : Fewer m (live now m) := fun _ it hk =>
  ⟨it, (live_eq_some.mp hk).1, rfl⟩

/-- One key gets what has the value it had, or nothing. -/
theorem update {key : Bytes} {o : Option (Item Bytes)}
    (h : ∀ it, o = some it → ∃ it', m key = some it' ∧ it'.value = it.value) :
    Fewer m (Function.update m key o) := by
  intro k it hk
  by_cases hkey : k = key
  · subst hkey
    rw [Function.update_self] at hk
    exact h it hk
  · rw [Function.update_of_ne hkey] at hk
    exact ⟨it, hk, rfl⟩

theorem of_forgets {full : Prop} (h : Forgets full m m') : Fewer m m' := by
  rcases h with hsame | ⟨-, k, rfl⟩
  · exact .of_eq hsame
  · exact .update fun it hit => by cases hit

end Fewer

section Get

variable (P : Platform) (w : World Index Shard) (key : Bytes)

/-- Reading a key can only lose it. -/
theorem fewer_run_get : Fewer (view P w.cells) (view P ((Store.get P key).run w).2.cells) := by
  rw [(Store.run_get_found P w key).2]
  exact .update fun it hit => ⟨it, (Option.filter_eq_some_iff.mp hit).1, rfl⟩

/-- What `get` returns is in the store, whatever the clock shows to its two
looks. -/
theorem run_get_view {v : Bytes} (h : ((Store.get P key).run w).1 = some v) :
    ∃ it, view P w.cells key = some it ∧ it.value = v := by
  rw [(Store.run_get_found P w key).1] at h
  obtain ⟨it, hit, rfl⟩ := Option.map_eq_some_iff.mp h
  exact ⟨it, (Option.filter_eq_some_iff.mp hit).1, rfl⟩

end Get

/-! ## One turn -/

/-- What lies under a key is the last write to it. -/
def Written (es : List Step) (m : Cache) : Prop :=
  ∀ k it, m k = some it → lastWrite k es = some it.value

namespace Written

variable {es : List Step} {e : Step} {m m' : Cache}

/-- A turn that writes nothing anywhere. -/
theorem fewer (h : Written es m) (hfewer : Fewer m m') (hwrites : ∀ k, e.writes k = none) :
    Written (es ++ [e]) m' := by
  intro k it hk
  obtain ⟨it', hit', hvalue⟩ := hfewer k it hk
  rw [lastWrite_append, hwrites, Option.getD_none, h k it' hit', hvalue]

/-- A turn that writes one key. -/
theorem write (h : Written es m) (hfewer : Fewer m m') {key : Bytes} {it : Item Bytes}
    (hself : e.writes key = some (some it.value)) (hother : ∀ k, k ≠ key → e.writes k = none) :
    Written (es ++ [e]) (Function.update m' key (some it)) := by
  intro k it' hk
  rw [lastWrite_append]
  by_cases hkey : k = key
  · subst hkey
    rw [Function.update_self] at hk
    cases hk
    rw [hself, Option.getD_some]
  · rw [Function.update_of_ne hkey] at hk
    obtain ⟨it'', hit'', hvalue⟩ := hfewer k it' hk
    rw [hother k hkey, Option.getD_none, h k it'' hit'', hvalue]

/-- The map after `INCR` or `INCRBY`, for the number in its reply. -/
def afterCount (m : Cache) (key : Bytes) : Option Int → Cache
  | none => m
  | some n => Function.update m key (some ⟨Decimal.ofInt n, none⟩)

/-- A turn that counts: the reply says what has become of the key. -/
theorem count (h : Written es m) (hfewer : Fewer m m') {key : Bytes} (sum : Option Int)
    (hwrites : ∀ k, e.writes k =
      if key = k ∧ (counterReply sum).head? = some 58 then some (some (digits (counterReply sum)))
      else none) :
    Written (es ++ [e]) (afterCount m' key sum) := by
  cases sum with
  | none =>
      refine h.fewer hfewer fun k => ?_
      rw [hwrites, if_neg fun hboth => absurd hboth.2 (by decide)]
  | some n =>
      refine h.write hfewer ?_ fun k hk => ?_
      · rw [hwrites, counterReply, if_pos ⟨rfl, rfl⟩, digits_integer]
      · rw [hwrites, if_neg fun hboth => hk hboth.1.symm]

variable {P : Platform} (maxKeys : Nat) {w : World Index Shard}

theorem set_command (h : Written es (view P w.cells)) (hs : ∀ i, Valid P i (w.cells i))
    (key value : Bytes) (o : SetOptions)
    (hwrites : ∀ k, e.writes k = (Command.set key value o).writes
      (((Command.set key value o).prog P maxKeys).run w).1 k) :
    Written (es ++ [e])
      (view P (((Command.set key value o).prog P maxKeys).run w).2.cells) := by
  cases hb : o.blocks w.clock (view P w.cells) key with
  | true =>
      obtain ⟨hreply, hcells⟩ := run_set_blocked P maxKeys hb value
      rw [hcells]
      refine h.fewer (.of_eq rfl) fun k => ?_
      rw [hwrites, hreply]
      exact if_neg fun hboth => absurd hboth.2 (by decide)
  | false =>
      rw [run_set_free P maxKeys hb value] at hwrites ⊢
      rw [Store.view_run_set_evicted]
      refine h.write (.of_forgets (forgets_evicted maxKeys hs)) ?_ fun k hk => ?_
      · rw [hwrites]
        exact if_pos ⟨rfl, rfl⟩
      · rw [hwrites]
        exact if_neg fun hboth => hk hboth.1.symm

theorem incrby_command (h : Written es (view P w.cells)) (hs : ∀ i, Valid P i (w.cells i))
    (key : Bytes) (delta : Int)
    (hwrites : ∀ k, e.writes k = (Command.incrby key delta).writes
      (((Command.incrby key delta).prog P maxKeys).run w).1 k) :
    Written (es ++ [e]) (view P (((Command.incrby key delta).prog P maxKeys).run w).2.cells) := by
  have hget := fewer_run_get P w key
  by_cases hec : (currentOf ((Store.get P key).run w).1).ec = none
  · have hvalid := (Store.get_safe P key).run hs
    rw [run_incrby_added P maxKeys hec delta] at hwrites ⊢
    simp only at hwrites ⊢
    generalize i64 ((currentOf ((Store.get P key).run w).1).value + delta) = sum at hwrites ⊢
    rw [Store.view_run_set_evicted, Store.deadlineOf_of_nonpos (by decide)]
    exact h.count (hget.trans (.of_forgets (forgets_evicted maxKeys hvalid))) (some sum) hwrites
  · rw [run_incrby_refused P maxKeys hec delta] at hwrites ⊢
    exact h.count hget none hwrites

/-- The step lemma, for a command. -/
theorem command (h : Written es (view P w.cells)) (hs : ∀ i, Valid P i (w.cells i)) (c : Command)
    (hwrites : ∀ k, e.writes k = c.writes ((c.prog P maxKeys).run w).1 k) :
    Written (es ++ [e]) (view P ((c.prog P maxKeys).run w).2.cells) := by
  cases c with
  | reply r => exact h.fewer (.of_eq rfl) hwrites
  | set key value o => exact h.set_command maxKeys hs key value o hwrites
  | get key =>
      simp only [Command.prog, Prog.run_map]
      exact h.fewer (fewer_run_get P w key) hwrites
  | del ks =>
      simp only [Command.prog, Prog.run_map, view_run_countOf_del]
      intro k it hk
      by_cases hmem : k ∈ ks
      · simp [hmem] at hk
      · simp only [hmem, if_false] at hk
        rw [lastWrite_append, hwrites]
        simpa [Command.writes, hmem] using h k it hk
  | exist ks =>
      simp only [Command.prog, Prog.run_map, run_countOf_exists]
      exact h.fewer (.of_eq rfl) hwrites
  | expire key ttlMs =>
      refine h.fewer ?_ hwrites
      simp only [Command.prog, Prog.run_map, Store.view_run_expire_live]
      cases hl : live (w.clock 0) (view P w.cells) key with
      | none => exact .of_eq rfl
      | some it =>
          refine .update fun it' hit' => ⟨it, (live_eq_some.mp hl).1, ?_⟩
          cases hit'
          rfl
  | ttl key =>
      simp only [Command.prog, Prog.run_map, Store.run_ttl]
      exact h.fewer (.of_eq rfl) hwrites
  | pttl key =>
      simp only [Command.prog, Prog.run_map, Store.run_ttl]
      exact h.fewer (.of_eq rfl) hwrites
  | incr key =>
      simp only [Command.prog, Prog.run_map, Store.run_incr_fst] at hwrites
      have hcount := h.count (.of_eq rfl) _ hwrites
      simp only [Command.prog, Prog.run_map, Store.view_run_incr]
      cases hn : Store.counterOf (w.clock 0) (view P w.cells) key with
      | none => simpa only [hn, Option.map_none, afterCount] using hcount
      | some n => simpa only [hn, Option.map_some, afterCount] using hcount
  | incrby key delta => exact h.incrby_command maxKeys hs key delta hwrites
  | keys pattern =>
      simp only [Command.prog, Prog.run_map, Store.run_keys]
      exact h.fewer (.of_eq rfl) hwrites
  | dbsize =>
      simp only [Command.prog, Prog.run_map, Store.run_size]
      exact h.fewer (.of_eq rfl) hwrites
  | flushall =>
      simp only [Command.prog, Prog.run_bind, Prog.run_pure, Store.view_run_flush]
      intro k it hk
      cases hk

/-- The step lemma. -/
theorem turn {s : Shards} (h : Written es (view P s)) (hs : ∀ i, Valid P i (s i)) (t : Turn)
    (full : Bool) :
    Written (es ++ [⟨t, full, ((t.prog P maxKeys).run ⟨t.clock, s⟩).1⟩])
      (view P (t.next P maxKeys s)) := by
  cases hreq : t.request with
  | none =>
      rw [Turn.next_sweep P maxKeys hreq, Store.view_run_sweepExpired P (w := ⟨t.clock, s⟩) hs]
      exact h.fewer (.live _ _) fun k => by simp only [Step.writes, hreq]
  | some req =>
      rw [Turn.next_request P maxKeys hreq]
      refine h.command maxKeys (w := ⟨t.clock, s⟩) hs (commandOf req) fun k => ?_
      simp only [Step.writes, hreq, Turn.prog, dispatch_eq]

/-- The run lemma. -/
theorem run {s : Shards} (h : Written es (view P s)) (hs : ∀ i, Valid P i (s i))
    (turns : List Turn) :
    Written (es ++ stepsOf P maxKeys s turns) (view P (playFrom P maxKeys s turns)) := by
  induction turns generalizing es s with
  | nil =>
      rw [stepsOf, List.append_nil]
      exact h
  | cons t turns ih =>
      have hnext := ih (h.turn maxKeys hs t (decide (maxKeys ≤ Store.total s)))
        (t.next_valid P maxKeys hs)
      rwa [List.append_assoc, List.singleton_append] at hnext

end Written

/-! ## Every run -/

/-- **A read is fresh.** Whatever has happened to the server — any requests and
sweeps, expiry, eviction, a clock that was set back — a `GET` answers nil or
the value of the last successful write to its key. -/
theorem get_fresh (P : Platform) (maxKeys : Nat) (turns : List Turn) (clock : Nat → Int)
    (req : RespValue) (key : Bytes) (hget : commandOf req = .get key) :
    let reply := ((dispatch P maxKeys req).run ⟨clock, play P maxKeys turns⟩).1
    reply = RespSerializer.nullBulk ∨
      ∃ v, lastWrite key (stepsOf P maxKeys Store.empty turns) = some v ∧
        reply = RespSerializer.bulk v := by
  have hstart : Written [] (view P Store.empty) := by
    rw [view_empty]
    intro k it hk
    cases hk
  have hend := hstart.run maxKeys (Store.empty_valid P) turns
  intro reply
  have hreply : reply =
      bulkReply ((Store.get P key).run ⟨clock, play P maxKeys turns⟩).1 := by
    simp only [reply, dispatch_eq, hget, Command.prog, Prog.run_map]
  rw [hreply]
  cases hfst : ((Store.get P key).run ⟨clock, play P maxKeys turns⟩).1 with
  | none => exact .inl rfl
  | some v =>
      obtain ⟨it, hit, rfl⟩ := run_get_view P ⟨clock, play P maxKeys turns⟩ key hfst
      exact .inr ⟨it.value, hend key it hit, rfl⟩

/-- Two keys, for a store that is full with one. -/
def twoSets : List Turn := [Turn.ofWords 0 ["SET", "a", "1"], Turn.ofWords 0 ["SET", "b", "2"]]

/-- The second `SET` evicts the first key, and a `GET` of that finds nothing. -/
theorem get_fresh_evicted :
    ((dispatch .concrete 1 (requestOf ["GET", "a"])).run
        ⟨fun _ => 0, play .concrete 1 twoSets⟩).1 = RespSerializer.nullBulk ∧
      (((dispatch .concrete 1 (requestOf ["GET", "b"])).run
          ⟨fun _ => 0, play .concrete 1 twoSets⟩).1 = RespSerializer.nullBulk ∨
        ∃ v, lastWrite (ascii "b") (stepsOf .concrete 1 Store.empty twoSets) = some v ∧
          ((dispatch .concrete 1 (requestOf ["GET", "b"])).run
            ⟨fun _ => 0, play .concrete 1 twoSets⟩).1 = RespSerializer.bulk v) :=
  ⟨by decide +kernel, get_fresh .concrete 1 twoSets (fun _ => 0) _ _ rfl⟩

end RedisCache.Commands
