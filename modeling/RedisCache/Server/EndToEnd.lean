import Mathlib
import RedisCache.Commands.Cache
import RedisCache.Lib.Clocks
import RedisCache.Network.Serial

/-!
# From the sockets to the cache

The event loop serves its connections in one order (`EventLoop.Serial`), each
request takes the clock readings it needs, and the commands are those of an
abstract cache (`Explains`). Put together: bytes come in on any number of
sockets, in any pieces, and what goes out on each of them are the answers of
one cache to its own requests.

The event loop's clock is one stream of readings. A request is told with a
clock of its own, which stops where the next request starts (`turnsFrom`); for
that no section of any command may look further than its own readings.
-/

namespace RedisCache.Server

open Loop Sections Protocol Storage Commands Network TimedMap

/-! ## Every section reads the clock twice at most -/

section Brief

variable (P : Platform) (maxKeys : Nat)

theorem size_brief : Brief Store.size := Brief.bind (Brief.eachCell _ _) fun _ => Brief.pure _

theorem maybeEvict_brief : Brief (Store.maybeEvict maxKeys) := by
  refine Brief.bind size_brief fun approx => ?_
  split
  · exact Brief.pure _
  · exact Brief.bind (Brief.eachCell _ _) fun _ => Brief.locked fun _ _ _ _ _ => rfl

theorem expiresAt_brief (ttlMs : Int) : Brief (Store.expiresAt ttlMs) := by
  unfold Store.expiresAt
  split
  · exact Brief.bind Brief.now fun _ => Brief.pure _
  · exact Brief.pure _

theorem set_brief (key value : Bytes) (ttlMs : Int) :
    Brief (Store.set P maxKeys key value ttlMs) :=
  Brief.bind (maybeEvict_brief maxKeys) fun _ => Brief.bind (expiresAt_brief ttlMs) fun _ =>
    Brief.locked fun _ _ _ _ _ => rfl

theorem get_brief (key : Bytes) : Brief (Store.get P key) := by
  refine Brief.bind (Brief.locked fun t t' s h₀ _ => by rw [h₀]) fun r => ?_
  cases r with
  | some r => exact Brief.pure _
  | none => exact Brief.locked fun t t' s h₀ _ => by rw [h₀]

theorem existsKey_brief (key : Bytes) : Brief (Store.existsKey P key) :=
  Brief.locked fun t t' s h₀ _ => by rw [h₀]

theorem existsIf_brief (flag : Bool) (key : Bytes) (otherwise : Bool) :
    Brief (existsIf P flag key otherwise) := by
  unfold existsIf
  split
  · exact existsKey_brief P key
  · exact Brief.pure _

theorem countOf_brief {op : Bytes → StoreProg Bool} (hop : ∀ k, Brief (op k)) (ks : List Bytes)
    (n : Int) : Brief (countOf op ks n) := by
  induction ks generalizing n with
  | nil => exact Brief.pure _
  | cons k ks ih => exact Brief.bind (hop k) fun _ => ih _

theorem command_brief (c : Command) : Brief (c.prog P maxKeys) := by
  cases c with
  | reply r => exact Brief.pure _
  | set key value o =>
      refine Brief.bind (existsIf_brief P _ _ _) fun taken => ?_
      split
      · exact Brief.pure _
      · refine Brief.bind (existsIf_brief P _ _ _) fun present => ?_
        split
        · exact Brief.pure _
        · exact Brief.bind (set_brief P maxKeys _ _ _) fun _ => Brief.pure _
  | get key => exact (get_brief P key).map
  | del ks => exact (countOf_brief (fun k => Brief.locked fun _ _ _ _ _ => rfl) ks 0).map
  | exist ks => exact (countOf_brief (existsKey_brief P) ks 0).map
  | expire key ttlMs => exact (Brief.locked fun t t' s h₀ h₁ => by rw [h₀, h₁]).map
  | ttl key => exact (Brief.locked fun t t' s h₀ _ => by rw [h₀]).map
  | pttl key => exact (Brief.locked fun t t' s h₀ _ => by rw [h₀]).map
  | incr key => exact (Brief.locked fun t t' s h₀ _ => by rw [h₀]).map
  | incrby key delta =>
      refine Brief.bind (get_brief P key) fun cur => ?_
      split
      · exact Brief.pure _
      · exact Brief.bind (set_brief P maxKeys _ _ _) fun _ => Brief.pure _
  | keys pattern =>
      exact (Brief.bind Brief.now fun _ => Brief.bind (Brief.eachCell _ _) fun _ =>
        Brief.pure _).map
  | dbsize => exact size_brief.map
  | flushall =>
      exact Brief.bind (Brief.bind (Brief.eachCell _ _) fun _ => Brief.pure _) fun _ => Brief.pure _

theorem dispatch_brief (req : RespValue) : Brief (dispatch P maxKeys req) := by
  rw [dispatch_eq]
  exact command_brief P maxKeys _

end Brief

/-! ## Requests on one stream of clock readings -/

/-- The requests as turns: the clock of each stops at the first reading of the
next. -/
def turnsFrom (P : Platform) (maxKeys : Nat) : World Index Shard → List RespValue → List Turn
  | _, [] => []
  | w, v :: vs =>
      ⟨frozen w.clock ((dispatch P maxKeys v).readings w), some v⟩ ::
        turnsFrom P maxKeys ((dispatch P maxKeys v).run w).2 vs

section Turns

variable (P : Platform) (maxKeys : Nat)

/-- A turn does to the store what its request does. -/
theorem turnsFrom_next (w : World Index Shard) (v : RespValue) :
    Turn.next P maxKeys w.cells ⟨frozen w.clock ((dispatch P maxKeys v).readings w), some v⟩ =
      ((dispatch P maxKeys v).run w).2.cells :=
  ((dispatch_brief P maxKeys v).run_frozen w.clock w.cells).2

theorem playFrom_turnsFrom (w : World Index Shard) (vs : List RespValue) :
    playFrom P maxKeys w.cells (turnsFrom P maxKeys w vs) =
      (Conn.serve (Conn.dispatcher P maxKeys) vs w).2.cells := by
  induction vs generalizing w with
  | nil => rfl
  | cons v vs ih =>
      rw [turnsFrom, playFrom, List.foldl_cons, turnsFrom_next]
      exact ih ((dispatch P maxKeys v).run w).2

/-- The replies on the stream are the replies of the turns. -/
theorem stepsOf_turnsFrom (w : World Index Shard) (vs : List RespValue) :
    (stepsOf P maxKeys w.cells (turnsFrom P maxKeys w vs)).map
        (fun e => (e.turn.request, e.reply)) =
      (exchanges (Conn.dispatcher P maxKeys) vs w).map fun x => (some x.1, x.2) := by
  induction vs generalizing w with
  | nil => rfl
  | cons v vs ih =>
      rw [turnsFrom, stepsOf, exchanges, List.map_cons, List.map_cons, turnsFrom_next]
      refine congrArg₂ List.cons ?_ (ih ((dispatch P maxKeys v).run w).2)
      have hreply := ((dispatch_brief P maxKeys v).run_frozen w.clock w.cells).1
      exact congrArg (Prod.mk (some v)) hreply

variable {P maxKeys}

theorem turnsFrom_start {w : World Index Shard} (hmono : Monotone w.clock) {vs : List RespValue}
    {t : Turn} (ht : t ∈ turnsFrom P maxKeys w vs) (n : Nat) : w.clock 0 ≤ t.clock n := by
  induction vs generalizing w with
  | nil => cases ht
  | cons v vs ih =>
      rcases List.mem_cons.mp ht with rfl | ht
      · exact hmono (Nat.zero_le _)
      · have hleft := (dispatch P maxKeys v).run_clock_readings w
        have hmono' : Monotone ((dispatch P maxKeys v).run w).2.clock := by
          intro a b hab
          rw [hleft, hleft]
          exact hmono (by omega)
        refine le_trans ?_ (ih hmono' ht)
        rw [hleft]
        exact hmono (Nat.zero_le _)

theorem turnsFrom_ticking {w : World Index Shard} (hmono : Monotone w.clock)
    (hranged : ∀ n, Decimal.InRange (w.clock n)) (vs : List RespValue) :
    Ticking (turnsFrom P maxKeys w vs) := by
  induction vs generalizing w with
  | nil => exact ⟨by simp [turnsFrom], by simp [turnsFrom], List.Pairwise.nil⟩
  | cons v vs ih =>
      have hleft := (dispatch P maxKeys v).run_clock_readings w
      have hmono' : Monotone ((dispatch P maxKeys v).run w).2.clock := by
        intro a b hab
        rw [hleft, hleft]
        exact hmono (by omega)
      obtain ⟨htail, hrange, hforward⟩ := ih hmono' fun n => by rw [hleft]; exact hranged _
      refine ⟨List.forall_mem_cons.mpr ⟨frozen_monotone hmono _, htail⟩,
        List.forall_mem_cons.mpr ⟨fun n => hranged _, hrange⟩,
        List.pairwise_cons.mpr ⟨fun u hu a b => ?_, hforward⟩⟩
      -- the clock of a turn stops at the reading where the next one starts
      refine le_trans ?_ (turnsFrom_start hmono' hu b)
      rw [hleft, Nat.zero_add]
      exact hmono (min_le_right _ _)

end Turns

/-! ## The whole way -/

/-- **The server serves one cache.** Any number of clients connect, send bytes
in any pieces and go, at any times, over any valid store and with a clock that
does not go back. All requests that the parser finds in what the connections
have read are executed, in one order; each connection is sent the replies to
its own part of it; and the replies in that order are those of one abstract
cache that starts with what the store held, each command acting in one piece at
the readings of the run's clock that it took, after the one before and before
the one behind. -/
theorem server_serves_cache (P : Platform) (maxKeys : Nat) (clock : Nat → Int) (s : Shards)
    (hs : ∀ i, Valid P i (s i)) (hmono : Monotone clock)
    (hranged : ∀ n, Decimal.InRange (clock n)) (polls : List (List Ready))
    (L : EventLoop (World Index Shard))
    (hrun : EventLoop.run P (Conn.dispatcher P maxKeys) { store := ⟨clock, s⟩ } polls =
      some (.ok L)) :
    EventLoop.Heeds P L (EventLoop.heard P (Conn.dispatcher P maxKeys) ⟨clock, s⟩ polls) ∧
    ∃ names order m',
      let turns := turnsFrom P maxKeys ⟨clock, s⟩ (requests order)
      EventLoop.Serial (Conn.dispatcher P maxKeys) ⟨clock, s⟩ L names order ∧
      EventLoop.Delivered L names order ∧
      Ticking turns ∧
      ((stepsOf P maxKeys s turns).map fun e => (e.turn.request, e.reply)) =
        (order.map fun x => (some x.2.1, x.2.2)) ∧
      Explains (Step.May P) (stepsOf P maxKeys s turns) (view P s) m' ∧
      ∀ u, clock 0 ≤ u → (∀ t ∈ turns, t.clock 0 ≤ u) →
        live u (view P L.store.cells) = live u m' := by
  have hL := (EventLoop.Sound.start (⟨clock, s⟩ : World Index Shard)).run P _ hrun
  obtain ⟨names, order, h, -⟩ :=
    (EventLoop.Serial.start (Conn.dispatcher P maxKeys) ⟨clock, s⟩).run P (.start _) hrun
  rw [List.nil_append] at h
  have hticking : Ticking (turnsFrom P maxKeys ⟨clock, s⟩ (requests order)) :=
    turnsFrom_ticking (w := ⟨clock, s⟩) hmono hranged _
  obtain ⟨m', hexplains, hend⟩ := run_explained maxKeys (Mirrors.of_valid (clock 0) hs)
    (fun t ht n => turnsFrom_start (w := ⟨clock, s⟩) hmono ht n) hticking
  refine ⟨EventLoop.heeds_run P _ _ hrun, names, order, m', h, h.delivered hL, hticking, ?_,
    hexplains, fun u hu hall => ?_⟩
  · have hsteps := stepsOf_turnsFrom P maxKeys ⟨clock, s⟩ (requests order)
    rw [← h.replied, List.map_map] at hsteps
    exact hsteps
  · have hplay := playFrom_turnsFrom P maxKeys ⟨clock, s⟩ (requests order)
    rw [← h.store] at hplay
    rw [← hplay]
    exact (hend u hu hall).refines.agree

/-- One client stores a value, the other one reads it. -/
def writerAndReader : List (List Ready) :=
  [[.listener [.client 5, .client 6],
      .client 5 false (some [.data 42 (ascii "3\r\n$3\r\nSET\r\n$1\r\nk\r\n$1\r\nv\r\n")]) none],
    [.client 6 false (some [.data 42 (ascii "2\r\n$3\r\nGET\r\n$1\r\nk\r\n")]) none]]

theorem server_serves_cache_shared :
    ∃ (L : EventLoop (World Index Shard)) (names : Names) (order : Schedule) (m' : Cache),
      let turns := turnsFrom .concrete 5 ⟨fun _ => 0, Store.empty⟩ (requests order)
      (L.connections.lookup 6).map (fun c => replies c.store) = some (ascii "$1\r\nv\r\n") ∧
      EventLoop.Heeds .concrete L (EventLoop.heard .concrete (Conn.dispatcher .concrete 5)
        ⟨fun _ => 0, Store.empty⟩ writerAndReader) ∧
      EventLoop.Serial (Conn.dispatcher .concrete 5) ⟨fun _ => 0, Store.empty⟩ L names order ∧
      EventLoop.Delivered L names order ∧
      Ticking turns ∧
      ((stepsOf .concrete 5 Store.empty turns).map fun e => (e.turn.request, e.reply)) =
        (order.map fun x => (some x.2.1, x.2.2)) ∧
      Explains (Step.May .concrete) (stepsOf .concrete 5 Store.empty turns)
        (view .concrete Store.empty) m' ∧
      ∀ u, 0 ≤ u → (∀ t ∈ turns, t.clock 0 ≤ u) →
        live u (view .concrete L.store.cells) = live u m' := by
  obtain ⟨L, hrun⟩ := exists_ok (r := EventLoop.run .concrete (Conn.dispatcher .concrete 5)
    { store := ⟨fun _ => 0, Store.empty⟩ } writerAndReader) (by decide +kernel)
  have hreplies : ((EventLoop.run .concrete (Conn.dispatcher .concrete 5)
      { store := ⟨fun _ => 0, Store.empty⟩ } writerAndReader).bind Except.toOption).map
        (fun L => (L.connections.lookup 6).map fun c => replies c.store) =
      some (some (ascii "$1\r\nv\r\n")) := by
    decide +kernel
  rw [hrun] at hreplies
  obtain ⟨hread, names, order, m', h⟩ := server_serves_cache .concrete 5 (fun _ => 0)
    Store.empty (Store.empty_valid .concrete) monotone_const (fun _ => by decide) writerAndReader L
    hrun
  exact ⟨L, names, order, m', Option.some.inj hreplies, hread, h⟩

end RedisCache.Server
