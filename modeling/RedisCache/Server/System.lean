import Mathlib
import RedisCache.Network.Serial
import RedisCache.Server.EndToEnd
import RedisCache.Server.Threads

/-!
# The whole process

Sockets, event loop, maintenance thread and store in one run. The event loop
is that of `EventLoop.run`, with a dispatcher that does not have the store for
itself: between any two steps of a command the maintenance thread goes on
(`Running`, `served`).

`process_serves_cache`: bytes come in on any number of sockets, in any pieces,
and saves may fail; what goes out on each socket are the replies of one
abstract cache to the requests that the parser finds in what came in there.
-/

namespace RedisCache.Server

open Loop Sections Protocol Storage Commands Persistence Network TimedMap

/-- What the maintenance thread does before the event loop's next step, and what
the clock then shows that step. -/
structure Pause where
  upkeep : List ((Nat → Int) × Rdb.Faults) := []
  clk : Nat → Int

/-- The steps of both threads in a pause, and the event loop's step after it. -/
def Pause.moves (p : Pause) : List Move :=
  p.upkeep.map (fun x => .maintenance x.1 x.2) ++ [.eventLoop p.clk]

/-- The store as the dispatcher finds it: with the maintenance thread, and with
all pauses to come. The latest clock reading and the answers are kept for the
record. -/
structure Running where
  upkeep : Upkeep
  pauses : Nat → Pause
  now : Int
  log : List Handled := []

namespace Running

variable (cfg : Config) (intervalSecs : Int)

/-- The maintenance thread in the next pause. -/
def pause (R : Running) : Upkeep × Int :=
  (R.pauses 0).upkeep.foldl
    (fun x step => (x.1.maintain cfg intervalSecs step.1 step.2, max x.2 (step.1 0)))
    (R.upkeep, R.now)

/-- A program of the event loop, with a pause before every step. -/
def perform {α : Type} : StoreProg α → Running → α × Running
  | .ret a, R => (a, R)
  | .clock next, R =>
      perform (next ((R.pauses 0).clk 0))
        { R with
          upkeep := (R.pause cfg intervalSecs).1
          pauses := fun n => R.pauses (n + 1)
          now := (R.pauses 0).clk 1 }
  | .lock i update next, R =>
      let clk := (R.pauses 0).clk
      let U := (R.pause cfg intervalSecs).1
      perform (next clk (U.cells i))
        { R with
          upkeep := { U with cells := Function.update U.cells i (update clk (U.cells i)) }
          pauses := fun n => R.pauses (n + 1)
          now := clk 1 }

end Running

/-- The dispatcher of the running process. -/
def served (P : Platform) (cfg : Config) (intervalSecs : Int) : Dispatch Running := fun req R =>
  let (r, R') := R.perform cfg intervalSecs (dispatch P cfg.maxKeys req)
  let answer : Handled :=
    ⟨req, R.now, R'.now, decide (cfg.maxKeys ≤ Store.total R.upkeep.cells), r⟩
  (r, { R' with log := R'.log ++ [answer] })

/-- The clock over all pauses. -/
def Paced (now seen : Int) (pauses : Nat → Pause) : Prop :=
  ∀ n, Clocked now seen ((List.range n).flatMap fun k => (pauses k).moves)

/-! ## A pause -/

section Pause

variable {P : Platform} {now seen : Int}

/-- What the maintenance thread has seen of the clock after some steps. -/
def lastSeen (seen : Int) (steps : List ((Nat → Int) × Rdb.Faults)) : Int :=
  steps.foldl (fun _ step => step.1 0) seen

/-- The maintenance thread for some steps: it has dropped dead entries at most. -/
theorem upkeep_meek (cfg : Config) (intervalSecs : Int) {U : Upkeep}
    {steps : List ((Nat → Int) × Rdb.Faults)} {moves : List Move}
    (hmeek : U.stage.Meek P seen) (hnow : Decimal.InRange now) (hseen : seen ≤ now)
    (hclock : Clocked now seen (steps.map (fun x => .maintenance x.1 x.2) ++ moves)) :
    let x := steps.foldl
      (fun x step => (x.1.maintain cfg intervalSecs step.1 step.2, max x.2 (step.1 0))) (U, now)
    (sweeper P).others x.2 U.cells x.1.cells ∧ x.1.stage.Meek P (lastSeen seen steps) ∧
      now ≤ x.2 ∧ Decimal.InRange x.2 ∧ lastSeen seen steps ≤ x.2 ∧
      Clocked x.2 (lastSeen seen steps) moves := by
  induction steps generalizing U now seen with
  | nil => exact ⟨(sweeper P).refl _ _, hmeek, le_rfl, hnow, hseen, hclock⟩
  | cons step steps ih =>
      obtain ⟨clk, io⟩ := step
      obtain ⟨hclk, hrest⟩ := hclock
      obtain ⟨hothers, hmeek'⟩ := U.maintain_meek cfg intervalSecs hmeek hclk io
      have hmax : Decimal.InRange (max now (clk 0)) := by
        rcases max_choice now (clk 0) with heq | heq
        · rwa [heq]
        · rw [heq]
          exact hclk.ranged 0
      obtain ⟨hothers', hend, hle, hranged, hbehind, hmoves⟩ :=
        ih hmeek' hmax (le_max_right _ _) hrest
      refine ⟨?_, hend, (le_max_left _ _).trans hle, hranged, hbehind, hmoves⟩
      exact (sweeper P).trans ((sweeper P).later ((le_max_right _ _).trans hle) hothers) hothers'

end Pause

/-- The maintenance thread between two steps of the event loop, and a clock that
goes on as it should. -/
structure Calm (P : Platform) (seen : Int) (R : Running) : Prop where
  ranged : Decimal.InRange R.now
  behind : seen ≤ R.now
  meek : R.upkeep.stage.Meek P seen
  paced : Paced R.now seen R.pauses

section Running

variable {P : Platform} {seen : Int} {R : Running}

/-- The next pause is over, and the event loop may take its step. -/
theorem Calm.pause (cfg : Config) (intervalSecs : Int) (h : Calm P seen R) :
    ∃ seen', (sweeper P).others (R.pause cfg intervalSecs).2 R.upkeep.cells
        (R.pause cfg intervalSecs).1.cells ∧
      R.now ≤ (R.pause cfg intervalSecs).2 ∧
      ClockFrom (R.pause cfg intervalSecs).2 (R.pauses 0).clk ∧
      ∀ s log, Calm P seen' ⟨{ (R.pause cfg intervalSecs).1 with cells := s },
        fun n => R.pauses (n + 1), (R.pauses 0).clk 1, log⟩ := by
  have hsplit : ∀ n, (List.range (n + 1)).flatMap (fun k => (R.pauses k).moves) =
      (R.pauses 0).upkeep.map (fun x => .maintenance x.1 x.2) ++
        (.eventLoop (R.pauses 0).clk ::
          (List.range n).flatMap fun k => (R.pauses (k + 1)).moves) := by
    intro n
    rw [List.range_succ_eq_map, List.flatMap_cons, List.flatMap_map, Pause.moves,
      List.append_assoc]
    rfl
  have hafter := fun n => upkeep_meek cfg intervalSecs h.meek h.ranged h.behind
    (hsplit n ▸ h.paced (n + 1))
  obtain ⟨hothers, hmeek, hle, -, hbehind, hclk, -⟩ := hafter 0
  refine ⟨_, hothers, hle, hclk, fun s log => ⟨hclk.ranged 1, ?_, hmeek, fun n => ?_⟩⟩
  · exact hbehind.trans (hclk.start 1)
  · exact (hafter n).2.2.2.2.2.2

/-- A program of the event loop next to the maintenance thread. -/
theorem Calm.perform (cfg : Config) (intervalSecs : Int) {α : Type}
    {Q : Int → α → Shards → Prop} {p : StoreProg α} (h : Calm P seen R)
    (hQ : ∀ a, Stable (sweeper P) fun t s => Q t a s)
    (hp : Among (sweeper P) Q R.now p R.upkeep.cells) :
    ∃ seen', Calm P seen' (R.perform cfg intervalSecs p).2 ∧
      Q (R.perform cfg intervalSecs p).2.now (R.perform cfg intervalSecs p).1
        (R.perform cfg intervalSecs p).2.upkeep.cells ∧
      R.now ≤ (R.perform cfg intervalSecs p).2.now ∧
      (R.perform cfg intervalSecs p).2.log = R.log := by
  induction p generalizing R seen with
  | ret a => exact ⟨seen, h, Among.result hp, le_rfl, rfl⟩
  | clock next ih =>
      obtain ⟨seen', hothers, hle, hclk, hcalm⟩ := h.pause cfg intervalSecs
      have hstep := (hp.interrupted hQ hle hothers).step hQ hclk.shows
      obtain ⟨seen'', hend, hres, hnow, hlog⟩ := ih _ (hcalm _ R.log) hstep
      exact ⟨seen'', hend, hres, (hle.trans (hclk.start 1)).trans hnow, hlog⟩
  | lock i update next ih =>
      obtain ⟨seen', hothers, hle, hclk, hcalm⟩ := h.pause cfg intervalSecs
      have hstep := (hp.interrupted hQ hle hothers).step hQ hclk.shows
      obtain ⟨seen'', hend, hres, hnow, hlog⟩ := ih _ _ (hcalm _ R.log) hstep
      exact ⟨seen'', hend, hres, (hle.trans (hclk.start 1)).trans hnow, hlog⟩

/-- One request of the running process. -/
theorem Calm.request (cfg : Config) (intervalSecs : Int) (h : Calm P seen R) {m : Cache}
    (hm : Mirrors P R.now R.upkeep.cells m) (req : RespValue) :
    ∃ seen' e m' a, Calm P seen' (served P cfg intervalSecs req R).2 ∧
      (served P cfg intervalSecs req R).2.log = R.log ++ [a] ∧
      (a.request, a.reply) = (req, (served P cfg intervalSecs req R).1) ∧
      a.since = R.now ∧ a.answered = (served P cfg intervalSecs req R).2.now ∧ Tells e a ∧
      e.Might P m m' ∧
      Mirrors P (served P cfg intervalSecs req R).2.now
        (served P cfg intervalSecs req R).2.upkeep.cells m' := by
  have hcommand := Backs.command cfg.maxKeys ⟨hm, le_rfl⟩ (commandOf req)
  rw [← dispatch_eq] at hcommand
  obtain ⟨seen', hcalm, ⟨rd, m', hrd, hmight, hend⟩, hle, hlog⟩ :=
    h.perform cfg intervalSecs (done_stable _ _) hcommand
  refine ⟨seen', ⟨⟨rd, some req⟩, _, _⟩, m', _,
    ⟨hcalm.ranged, hcalm.behind, hcalm.meek, hcalm.paced⟩, congrArg (· ++ _) hlog, rfl, rfl, rfl,
    ⟨rfl, rfl, rfl, hrd⟩, ?_, hend⟩
  simpa only [Step.Might, decide_eq_true_eq] using hmight

/-- Requests one after the other. -/
theorem Calm.serve (cfg : Config) (intervalSecs : Int) (h : Calm P seen R) {m₀ m : Cache}
    {es : List Step} {last : Int} (hes : Answered P m₀ R.log es m last) (hlast : last ≤ R.now)
    (hm : Mirrors P R.now R.upkeep.cells m) (vs : List RespValue) :
    ∃ es' m' last',
      Answered P m₀ (Conn.serve (served P cfg intervalSecs) vs R).2.log es' m' last' ∧
      Mirrors P (Conn.serve (served P cfg intervalSecs) vs R).2.now
        (Conn.serve (served P cfg intervalSecs) vs R).2.upkeep.cells m' ∧
      ((Conn.serve (served P cfg intervalSecs) vs R).2.log.map fun a => (a.request, a.reply)) =
        (R.log.map fun a => (a.request, a.reply)) ++
          exchanges (served P cfg intervalSecs) vs R := by
  induction vs generalizing R seen es m last with
  | nil => exact ⟨es, m, last, hes, hm, by simp [Conn.serve, exchanges]⟩
  | cons v vs ih =>
      obtain ⟨seen', e, m', a, hcalm, hlog, hpair, hsince, hdone, htells, hmight, hm'⟩ :=
        h.request cfg intervalSecs hm v
      have hes' := hes.append htells (hsince ▸ hlast) (hsince ▸ h.ranged) (hdone ▸ hcalm.ranged)
        hmight
      rw [← hlog] at hes'
      obtain ⟨es'', m'', last'', hend, hm'', hmap⟩ := ih hcalm hes' (le_of_eq hdone) hm'
      refine ⟨es'', m'', last'', hend, hm'', ?_⟩
      rw [exchanges, ← hpair]
      refine Eq.trans hmap ?_
      rw [hlog]
      simp

end Running

/-- **The process serves one cache.** Any number of clients connect, send bytes
in any pieces and go, while the maintenance thread sweeps, counts and saves in
the pauses between any two steps of the event loop, with saves that may fail.
All requests that the parser finds in what the connections have read are
executed, in one order; each connection is sent the replies to its own part of
it; and in that order the replies are those of one abstract cache, on which
every command acts in one piece at clock readings from the time it took. -/
theorem process_serves_cache (P : Platform) (cfg : Config) (intervalSecs : Int) (s : Shards)
    (hs : ∀ i, Valid P i (s i)) (files : Rdb.Files) (now : Int) (hnow : Decimal.InRange now)
    (pauses : Nat → Pause) (hpaced : Paced now now pauses) (polls : List (List Ready))
    (L : EventLoop Running)
    (hrun : EventLoop.run P (served P cfg intervalSecs)
      { store := ⟨.start s files now, pauses, now, []⟩ } polls = some (.ok L)) :
    EventLoop.Heeds P L (EventLoop.heard P (served P cfg intervalSecs)
      ⟨.start s files now, pauses, now, []⟩ polls) ∧
    ∃ names order es m',
      EventLoop.Serial (served P cfg intervalSecs) ⟨.start s files now, pauses, now, []⟩ L names
        order ∧
      EventLoop.Delivered L names order ∧
      (L.store.log.map fun a => (a.request, a.reply)) = order.map Prod.snd ∧
      List.Forall₂ Tells es L.store.log ∧ Ticking (es.map Step.turn) ∧
      Explains (Step.Might P) es (view P s) m' ∧
      ∀ u, L.store.now ≤ u → live u (view P L.store.upkeep.cells) = live u m' := by
  have hL := (EventLoop.Sound.start (⟨.start s files now, pauses, now, []⟩ : Running)).run P _ hrun
  obtain ⟨names, order, h, -⟩ := (EventLoop.Serial.start (served P cfg intervalSecs)
    ⟨.start s files now, pauses, now, []⟩).run P (.start _) hrun
  rw [List.nil_append] at h
  have hcalm : Calm P now ⟨.start s files now, pauses, now, []⟩ :=
    ⟨hnow, le_rfl, sweepAndCount_within, hpaced⟩
  have hes : Answered P (view P s) [] [] (view P s) now :=
    ⟨.nil, ⟨by simp, by simp, List.Pairwise.nil⟩, by simp, rfl⟩
  obtain ⟨es, m', last, hend, hm', hlog⟩ :=
    hcalm.serve cfg intervalSecs hes le_rfl (Mirrors.of_valid now hs) (requests order)
  rw [← h.store] at hend hm' hlog
  refine ⟨EventLoop.heeds_run P _ _ hrun, names, order, es, m', h, h.delivered hL, ?_, hend.log,
    hend.ticking, hend.explained, fun u hu => (hm'.later hu).refines.agree⟩
  rw [hlog, h.replied]
  rfl

/-- The maintenance thread takes one step in every pause, and the clock stands
still. -/
def stillPauses : Nat → Pause := fun _ => { upkeep := [(fun _ => 0, {})], clk := fun _ => 0 }

theorem paced_stillPauses : Paced 0 0 stillPauses := by
  intro n
  refine clocked_still (by decide) fun mv hmv => ?_
  obtain ⟨k, -, hk⟩ := List.mem_flatMap.mp hmv
  simp only [stillPauses, Pause.moves, List.map_cons, List.map_nil, List.cons_append,
    List.nil_append, List.mem_cons, List.not_mem_nil, or_false] at hk
  rcases hk with rfl | rfl <;> rfl

/-- The process with an empty store. -/
def stillProcess : Running := ⟨.start Store.empty {} 0, stillPauses, 0, []⟩

theorem process_serves_cache_shared :
    ∃ (L : EventLoop Running) (names : Names) (order : Schedule) (es : List Step) (m' : Cache),
      (L.connections.lookup 6).map (fun c => replies c.store) = some (ascii "$1\r\nv\r\n") ∧
      EventLoop.Heeds .concrete L (EventLoop.heard .concrete
        (served .concrete (snapshotOnly 5) 1) stillProcess writerAndReader) ∧
      EventLoop.Serial (served .concrete (snapshotOnly 5) 1) stillProcess L names order ∧
      EventLoop.Delivered L names order ∧
      (L.store.log.map fun a => (a.request, a.reply)) = order.map Prod.snd ∧
      List.Forall₂ Tells es L.store.log ∧ Ticking (es.map Step.turn) ∧
      Explains (Step.Might .concrete) es (view .concrete Store.empty) m' := by
  obtain ⟨L, hrun⟩ := exists_ok (r := EventLoop.run .concrete
    (served .concrete (snapshotOnly 5) 1) { store := stillProcess } writerAndReader)
    (by decide +kernel)
  have hreplies : ((EventLoop.run .concrete (served .concrete (snapshotOnly 5) 1)
      { store := stillProcess } writerAndReader).bind Except.toOption).map
        (fun L => (L.connections.lookup 6).map fun c => replies c.store) =
      some (some (ascii "$1\r\nv\r\n")) := by
    decide +kernel
  rw [hrun] at hreplies
  obtain ⟨hread, names, order, es, m', hserial, hdelivered, hlog, htells, hticking, hexplains, -⟩ :=
    process_serves_cache .concrete (snapshotOnly 5) 1 Store.empty (Store.empty_valid .concrete) {} 0
      (by decide) stillPauses paced_stillPauses writerAndReader L hrun
  exact ⟨L, names, order, es, m', Option.some.inj hreplies, hread, hserial, hdelivered, hlog,
    htells, hticking, hexplains⟩

end RedisCache.Server
