import Mathlib
import RedisCache.Commands.Overlap
import RedisCache.Server.Maintenance

/-!
# Both threads of the server

The process has two threads that use the store: the event loop, which executes
one request after the other, and `maintenance_loop`. Neither waits for the
other, except for one shard's lock at a time. Here they take steps in any
order, a step being a clock reading or one section; the maintenance thread
sweeps, counts and saves between any two sections of a command.

The requests come in the serial order in which the event loop takes them from
its connections. `threads_serve_cache`: their replies are those of one abstract
cache, and what is live in the end is what is live there.
-/

namespace RedisCache.Server

open Sections Protocol Storage Commands Persistence TimedMap

/-- The request under way. The time and whether the store was full are noted as
it begins, and nothing computed looks at them. -/
structure Executing where
  request : RespValue
  since : Int
  full : Bool
  rest : StoreProg Bytes

/-- A request that has been answered. -/
structure Handled where
  request : RespValue
  since : Int
  answered : Int
  full : Bool
  reply : Bytes

/-- The maintenance thread with the store, and the event loop: the requests to
come, the one under way, and those answered. -/
structure Threads where
  upkeep : Upkeep
  queue : List RespValue
  current : Option Executing := none
  log : List Handled := []

/-- Who takes the next step, and what the clock shows. -/
inductive Move where
  | maintenance (clk : Nat → Int) (io : Rdb.Faults)
  | eventLoop (clk : Nat → Int)

def Move.clock : Move → Nat → Int
  | .maintenance clk _ => clk
  | .eventLoop clk => clk

namespace Threads

def start (s : Shards) (files : Rdb.Files) (now : Int) (requests : List RespValue) : Threads where
  upkeep := .start s files now
  queue := requests

/-- The event loop's step: it takes a request, runs the next section of the one
it has, or hands out its reply. -/
def execute (P : Platform) (maxKeys : Nat) (clk : Nat → Int) (T : Threads) : Threads :=
  match T.current with
  | none =>
      match T.queue with
      | [] => T
      | req :: queue =>
          { T with
            queue := queue
            current := some ⟨req, clk 0, decide (maxKeys ≤ Store.total T.upkeep.cells),
              dispatch P maxKeys req⟩ }
  | some ⟨req, since, full, .ret r⟩ =>
      { T with current := none, log := T.log ++ [⟨req, since, clk 0, full, r⟩] }
  | some ⟨req, since, full, p⟩ =>
      { T with
        upkeep := { T.upkeep with cells := (p.advance clk T.upkeep.cells).2 }
        current := some ⟨req, since, full, (p.advance clk T.upkeep.cells).1⟩ }

variable (P : Platform) (cfg : Config) (intervalSecs : Int)

def step (T : Threads) : Move → Threads
  | .maintenance clk io => { T with upkeep := T.upkeep.maintain cfg intervalSecs clk io }
  | .eventLoop clk => T.execute P cfg.maxKeys clk

def run (T : Threads) (moves : List Move) : Threads := moves.foldl (step P cfg intervalSecs) T

end Threads

/-- Each thread sees the clock go forward from where it saw it last, and the
event loop is not behind what the other thread has seen. -/
def Clocked : Int → Int → List Move → Prop
  | _, _, [] => True
  | now, last, .maintenance clk _ :: moves =>
      ClockFrom last clk ∧ Clocked (max now (clk 0)) (clk 0) moves
  | now, last, .eventLoop clk :: moves => ClockFrom now clk ∧ Clocked (clk 1) last moves

/-! ## The maintenance thread keeps to sweeping -/

section Upkeep

variable {P : Platform} {t now : Int} {s : Shards}

/-- One shard swept. -/
theorem others_sweepExpired (hle : now ≤ t) (i : Index) (s : Shards) :
    (sweeper P).others t s (Function.update s i ((s i).sweepExpired now)) := by
  intro hs
  refine ⟨hs, valid_update hs ((hs i).sweepExpired now), fun k => ?_⟩
  by_cases hk : Store.shardFor P k = i
  · subst hk
    have hfind := Shard.sweepExpired_find (hs (Store.shardFor P k)).consistent now k
    have hview : view P (Function.update s (Store.shardFor P k)
        ((s (Store.shardFor P k)).sweepExpired now)) k = live now (view P s) k := by
      rw [live_view, view, Function.update_self, hfind]
    rw [hview]
    cases hl : live now (view P s) k with
    | none => exact .inr ⟨rfl, live_none_of_le hle hl⟩
    | some it => exact .inl (live_eq_some.mp hl).1.symm
  · left
    simp only [view, Function.update_of_ne hk]

theorem sweepExpired_within : Within (sweeper P) t Store.sweepExpired :=
  Within.now_bind fun _ _ => Within.bind
    (Within.eachCell (fun _ i s hle => others_sweepExpired hle i s) _) fun _ _ _ => Within.pure _

theorem sweepAndCount_within : Within (sweeper P) t sweepAndCount :=
  Within.bind sweepExpired_within fun _ _ _ =>
    Within.bind (Within.eachCell_read _ _) fun _ _ _ => Within.pure _

theorem save_within (io : Rdb.Faults) (files : Rdb.Files) :
    Within (sweeper P) t (Rdb.save io files) := by
  cases hopen : io.openFails with
  | true =>
      rw [Rdb.save, if_pos hopen]
      exact Within.pure _
  | false =>
      rw [Rdb.save_eq_finish hopen]
      exact Within.bind (Within.now_bind fun _ _ =>
        Within.bind (Within.eachCell_read _ _) fun _ _ _ => Within.pure _) fun _ _ _ =>
          Within.pure _

/-- What the thread has still to do in its stage keeps to sweeping. -/
def Stage.Meek (P : Platform) (t : Int) : Stage → Prop
  | .sweeping p => Within (sweeper P) t p
  | .checking => True
  | .saving p => Within (sweeper P) t p

/-- A step of the maintenance thread. -/
theorem Upkeep.maintain_meek (cfg : Config) (intervalSecs : Int) {U : Upkeep} {clk : Nat → Int}
    (h : U.stage.Meek P t) (hclk : ClockFrom t clk) (io : Rdb.Faults) :
    (sweeper P).others (clk 0) U.cells (U.maintain cfg intervalSecs clk io).cells ∧
      (U.maintain cfg intervalSecs clk io).stage.Meek P (clk 0) := by
  have hsame : (sweeper P).others (clk 0) U.cells U.cells := (sweeper P).refl _ _
  cases hstage : U.stage with
  | sweeping p =>
      rw [hstage] at h
      by_cases hret : ∃ n, p = .ret n
      · obtain ⟨n, rfl⟩ := hret
        have hstep : U.maintain cfg intervalSecs clk io =
            { U with keyCount := i64 n, stage := .checking } := by
          rw [Upkeep.maintain, hstage]
        rw [hstep]
        exact ⟨hsame, trivial⟩
      · have hstep := Upkeep.step_sweeping cfg intervalSecs hstage
          (fun n hn => hret ⟨n, hn⟩) clk io
        rw [Upkeep.step] at hstep
        rw [hstep]
        exact Within.advance (p := p) h hclk.shows U.cells
  | checking =>
      rw [Upkeep.maintain, hstage]
      simp only
      split
      · exact ⟨hsame, save_within io U.files⟩
      · exact ⟨hsame, sweepAndCount_within⟩
  | saving p =>
      rw [hstage] at h
      by_cases hret : ∃ r, p = .ret r
      · obtain ⟨r, rfl⟩ := hret
        have hstep : U.maintain cfg intervalSecs clk io =
            { U with files := r.2, lastSave := U.now, stage := .sweeping sweepAndCount } := by
          rw [Upkeep.maintain, hstage]
        rw [hstep]
        exact ⟨hsame, sweepAndCount_within⟩
      · have hstep := Upkeep.step_saving cfg intervalSecs hstage
          (fun r hr => hret ⟨r, hr⟩) clk io
        rw [Upkeep.step] at hstep
        rw [hstep]
        exact Within.advance (p := p) h hclk.shows U.cells

end Upkeep

/-! ## The event loop -/

/-- The event loop between two requests, or in one that it began after `last`. -/
def Ongoing (P : Platform) (m : Cache) (last now : Int) (s : Shards) : Option Executing → Prop
  | none => Mirrors P now s m
  | some x => last ≤ x.since ∧ Decimal.InRange x.since ∧
      Among (sweeper P) (Done P (x.full = true) m (commandOf x.request) x.since) now x.rest s

/-- The answer is that of an abstract step, at clock readings from the time it
took. -/
structure Tells (e : Step) (a : Handled) : Prop where
  request : e.turn.request = some a.request
  full : e.full = a.full
  reply : e.reply = a.reply
  clock : Between a.since a.answered e.turn.clock

/-- The answers so far are those of `es`, which ends by `last`. -/
structure Answered (P : Platform) (m₀ : Cache) (log : List Handled) (es : List Step) (m : Cache)
    (last : Int) : Prop where
  log : List.Forall₂ Tells es log
  ticking : Ticking (es.map Step.turn)
  stop : ∀ e ∈ es, ∀ n, e.turn.clock n ≤ last
  explained : Explains (Step.Might P) es m₀ m

/-- What holds along a run: `now` is the latest clock reading, and the
maintenance thread has seen `seen`. -/
structure Serving (P : Platform) (m₀ : Cache) (now seen : Int) (T : Threads) : Prop where
  answered : ∃ es m last, Answered P m₀ T.log es m last ∧ last ≤ now ∧
    Ongoing P m last now T.upkeep.cells T.current
  ranged : Decimal.InRange now
  behind : seen ≤ now
  meek : T.upkeep.stage.Meek P seen

section Steps

variable {P : Platform} {cfg : Config} {intervalSecs : Int} {m₀ m : Cache} {now seen : Int}
  {T : Threads}

theorem inRange_between {a b r : Int} (ha : Decimal.InRange a) (hb : Decimal.InRange b)
    (har : a ≤ r) (hrb : r ≤ b) : Decimal.InRange r := by
  unfold Decimal.InRange at ha hb ⊢
  omega

/-- One more answer. -/
theorem Answered.append {log : List Handled} {es : List Step} {last : Int}
    (h : Answered P m₀ log es m last) {e : Step} {a : Handled} {m' : Cache} (he : Tells e a)
    (hlast : last ≤ a.since) (hsince : Decimal.InRange a.since) (hdone : Decimal.InRange a.answered)
    (hmight : e.Might P m m') : Answered P m₀ (log ++ [a]) (es ++ [e]) m' a.answered where
  log := List.rel_append h.log (List.Forall₂.cons he List.Forall₂.nil)
  ticking := by
    rw [List.map_append]
    refine ⟨fun t ht => ?_, fun t ht n => ?_, List.pairwise_append.mpr
      ⟨h.ticking.forward, List.pairwise_singleton _ _, fun t ht u hu i j => ?_⟩⟩
    · rcases List.mem_append.mp ht with ht | ht
      · exact h.ticking.mono t ht
      · cases List.mem_singleton.mp ht
        exact he.clock.mono
    · rcases List.mem_append.mp ht with ht | ht
      · exact h.ticking.ranged t ht n
      · cases List.mem_singleton.mp ht
        exact inRange_between hsince hdone (he.clock.start n) (he.clock.stop n)
    · obtain ⟨e', he', rfl⟩ := List.mem_map.mp ht
      cases List.mem_singleton.mp hu
      exact (h.stop e' he' i).trans (hlast.trans (he.clock.start j))
  stop e' he' n := by
    rcases List.mem_append.mp he' with he' | he'
    · exact (h.stop e' he' n).trans
        (hlast.trans ((he.clock.start 0).trans (he.clock.stop 0)))
    · cases List.mem_singleton.mp he'
      exact he.clock.stop n
  explained := explains_append.mpr ⟨m, h.explained, m', hmight, rfl⟩

/-- The other thread sweeps, or time passes. -/
theorem Ongoing.interrupted {last t : Int} {s s' : Shards} {x : Option Executing}
    (h : Ongoing P m last now s x) (hle : now ≤ t) (hs : (sweeper P).others t s s') :
    Ongoing P m last t s' x := by
  cases x with
  | none => exact mirrors_stable P m now t s s' hle hs h
  | some x => exact ⟨h.1, h.2.1, Among.interrupted h.2.2 (done_stable _ _) hle hs⟩

/-- The maintenance thread takes a step. -/
theorem Serving.maintenance (h : Serving P m₀ now seen T) {clk : Nat → Int}
    (hclk : ClockFrom seen clk) (io : Rdb.Faults) :
    Serving P m₀ (max now (clk 0)) (clk 0) (T.step P cfg intervalSecs (.maintenance clk io)) := by
  obtain ⟨hothers, hmeek⟩ := T.upkeep.maintain_meek cfg intervalSecs h.meek hclk io
  obtain ⟨es, m, last, hes, hle, hon⟩ := h.answered
  have hmax : now ≤ max now (clk 0) := le_max_left _ _
  refine ⟨⟨es, m, last, hes, hle.trans hmax, ?_⟩, ?_, le_max_right _ _, hmeek⟩
  · exact hon.interrupted hmax ((sweeper P).later (le_max_right _ _) hothers)
  · rcases max_choice now (clk 0) with heq | heq
    · rw [heq]
      exact h.ranged
    · rw [heq]
      exact hclk.ranged 0

/-- The event loop takes a step. -/
theorem Serving.eventLoop (h : Serving P m₀ now seen T) {clk : Nat → Int}
    (hclk : ClockFrom now clk) :
    Serving P m₀ (clk 1) seen (T.step P cfg intervalSecs (.eventLoop clk)) := by
  obtain ⟨es, m, last, hes, hle, hon⟩ := h.answered
  have hpast : now ≤ clk 1 := hclk.start 1
  have hranged := hclk.ranged 1
  have hbehind := h.behind.trans hpast
  have hidle : ∀ s, (sweeper P).others (clk 1) s s := (sweeper P).refl _
  rw [Threads.step, Threads.execute]
  cases hcur : T.current with
  | none =>
      rw [hcur] at hon
      cases hqueue : T.queue with
      | nil =>
          refine ⟨⟨es, m, last, hes, hle.trans hpast, ?_⟩, hranged, hbehind, h.meek⟩
          rw [hcur]
          exact hon.interrupted hpast (hidle _)
      | cons req queue =>
          have hstart : Backs P m (Store.total T.upkeep.cells) (clk 0) T.upkeep.cells :=
            ⟨Mirrors.later hon (hclk.start 0), le_rfl⟩
          have hcommand := hstart.command cfg.maxKeys (commandOf req)
          rw [← dispatch_eq] at hcommand
          refine ⟨⟨es, m, last, hes, hle.trans hpast, ?_⟩, hranged, hbehind, h.meek⟩
          refine Ongoing.interrupted (x := some _) ⟨hle.trans (hclk.start 0), hclk.ranged 0, ?_⟩
            (hclk.mono (Nat.zero_le 1)) (hidle _)
          simpa only [decide_eq_true_eq] using hcommand
  | some x =>
      obtain ⟨req, since, full, rest⟩ := x
      rw [hcur] at hon
      obtain ⟨hsince, hfrom, hamong⟩ := hon
      have hstep := Among.step hamong (done_stable _ _) hclk.shows
      cases rest with
      | ret r =>
          obtain ⟨rd, m', hrd, hmight, hend⟩ := Among.result hamong
          have htells : Tells ⟨⟨rd, some req⟩, full, r⟩ ⟨req, since, clk 0, full, r⟩ :=
            ⟨rfl, rfl, rfl, hrd.mono, hrd.start, fun n => (hrd.stop n).trans (hclk.start 0)⟩
          exact ⟨⟨_, m', clk 0, hes.append htells hsince hfrom (hclk.ranged 0) hmight,
            hclk.mono (Nat.zero_le 1), hend.later hpast⟩, hranged, hbehind, h.meek⟩
      | clock next =>
          exact ⟨⟨es, m, last, hes, hle.trans hpast, hsince, hfrom, hstep⟩, hranged, hbehind,
            h.meek⟩
      | lock i update next =>
          exact ⟨⟨es, m, last, hes, hle.trans hpast, hsince, hfrom, hstep⟩, hranged, hbehind,
            h.meek⟩

/-- Induction on the moves. The time reached is one that the clock has shown. -/
theorem Serving.run (cfg : Config) (intervalSecs : Int) (h : Serving P m₀ now seen T)
    {moves : List Move} (hclock : Clocked now seen moves) :
    ∃ now' seen', Serving P m₀ now' seen' (T.run P cfg intervalSecs moves) ∧
      ∀ u, now ≤ u → (∀ mv ∈ moves, ∀ n, mv.clock n ≤ u) → now' ≤ u := by
  induction moves generalizing T now seen with
  | nil => exact ⟨now, seen, h, fun u hu _ => hu⟩
  | cons mv moves ih =>
      cases mv with
      | maintenance clk io =>
          obtain ⟨hclk, hrest⟩ := hclock
          obtain ⟨now', seen', hend, hlatest⟩ := ih (h.maintenance hclk io) hrest
          refine ⟨now', seen', hend, fun u hu hall => hlatest u (max_le hu ?_) ?_⟩
          · exact hall (.maintenance clk io) List.mem_cons_self 0
          · exact fun mv hmv => hall mv (List.mem_cons_of_mem _ hmv)
      | eventLoop clk =>
          obtain ⟨hclk, hrest⟩ := hclock
          obtain ⟨now', seen', hend, hlatest⟩ := ih (h.eventLoop hclk) hrest
          refine ⟨now', seen', hend, fun u _ hall => hlatest u ?_ ?_⟩
          · exact hall (.eventLoop clk) List.mem_cons_self 1
          · exact fun mv hmv => hall mv (List.mem_cons_of_mem _ hmv)

/-- The requests in their order: answered, under way, to come. -/
def Threads.requests (T : Threads) : List RespValue :=
  T.log.map Handled.request ++ (T.current.toList.map Executing.request ++ T.queue)

theorem Threads.requests_step (T : Threads) (mv : Move) :
    (T.step P cfg intervalSecs mv).requests = T.requests := by
  cases mv with
  | maintenance clk io => rfl
  | eventLoop clk =>
      rw [step, execute]
      cases hcur : T.current with
      | none =>
          cases hqueue : T.queue with
          | nil => rfl
          | cons req queue => simp [requests, hcur, hqueue]
      | some x =>
          obtain ⟨req, since, full, rest⟩ := x
          cases rest with
          | ret r => simp [requests, hcur]
          | clock next => simp [requests, hcur]
          | lock i update next => simp [requests, hcur]

theorem Threads.requests_run (T : Threads) (moves : List Move) :
    (T.run P cfg intervalSecs moves).requests = T.requests := by
  induction moves generalizing T with
  | nil => rfl
  | cons mv moves ih => exact (ih _).trans (T.requests_step mv)

end Steps

/-- **Two threads, one cache.** The event loop executes `requests` while the
maintenance thread sweeps and saves, in any interleaving of their sections and
with any failing saves. The replies handed out are, in the order of the
requests, those of one map with deadlines on which every command acts in one
piece, at clock readings from the time it took; a key is forgotten only by a
write that found the store full as it began. Between two requests, what is
live in the store is what is live in that map. -/
theorem threads_serve_cache (P : Platform) (cfg : Config) (intervalSecs : Int) (s : Shards)
    (hs : ∀ i, Valid P i (s i)) (files : Rdb.Files) (now : Int) (hnow : Decimal.InRange now)
    (requests : List RespValue) (moves : List Move) (hclock : Clocked now now moves) :
    let T := (Threads.start s files now requests).run P cfg intervalSecs moves
    requests = T.requests ∧
      ∃ es m', List.Forall₂ Tells es T.log ∧ Ticking (es.map Step.turn) ∧
        Explains (Step.Might P) es (view P s) m' ∧
        (T.current = none → ∀ u, now ≤ u → (∀ mv ∈ moves, ∀ n, mv.clock n ≤ u) →
          live u (view P T.upkeep.cells) = live u m') := by
  intro T
  have hstart : Serving P (view P s) now now (Threads.start s files now requests) := by
    refine ⟨⟨[], view P s, now, ⟨.nil, ?_, by simp, rfl⟩, le_rfl, Mirrors.of_valid now hs⟩,
      hnow, le_rfl, sweepAndCount_within⟩
    exact ⟨by simp, by simp, List.Pairwise.nil⟩
  obtain ⟨now', seen, hend, hlatest⟩ := hstart.run cfg intervalSecs hclock
  obtain ⟨es, m', last, hes, -, hon⟩ := hend.answered
  have horder : T.requests = requests :=
    Threads.requests_run (Threads.start s files now requests) moves
  refine ⟨horder.symm, es, m', hes.log, hes.ticking, hes.explained,
    fun hcur u hu hall => ?_⟩
  rw [hcur] at hon
  exact (Mirrors.later hon (hlatest u hu hall)).refines.agree

/-- The clock stands still. -/
theorem clocked_still {r : Int} (hr : Decimal.InRange r) {moves : List Move}
    (h : ∀ mv ∈ moves, mv.clock = fun _ => r) : Clocked r r moves := by
  have hclk : ClockFrom r fun _ => r := ⟨fun _ => le_rfl, monotone_const, fun _ => hr⟩
  induction moves with
  | nil => trivial
  | cons mv moves ih =>
      have hrest := ih fun mv hmv => h mv (List.mem_cons_of_mem _ hmv)
      have hmv := h mv List.mem_cons_self
      cases mv with
      | maintenance clk io =>
          obtain rfl : clk = fun _ => r := hmv
          refine ⟨hclk, ?_⟩
          rwa [max_self]
      | eventLoop clk =>
          obtain rfl : clk = fun _ => r := hmv
          exact ⟨hclk, hrest⟩

/-- A `GET` finds a dead entry, the maintenance thread sweeps all shards, and the
`GET` goes on with its second section. -/
def sweptGet : List Move :=
  [.eventLoop fun _ => 10, .eventLoop fun _ => 10] ++
    List.replicate 17 (.maintenance (fun _ => 10) {}) ++
      [.eventLoop fun _ => 10, .eventLoop fun _ => 10]

theorem clocked_sweptGet : Clocked 10 10 sweptGet := by
  refine clocked_still (by decide) fun mv hmv => ?_
  simp only [sweptGet, List.mem_append, List.mem_cons, List.not_mem_nil, or_false,
    List.mem_replicate] at hmv
  rcases hmv with ((rfl | rfl) | ⟨-, rfl⟩) | rfl | rfl <;> rfl

/-- The dead entry is that of `a`. -/
def sweptGetRun : Threads :=
  (Threads.start (Rdb.oneKey 0 5) {} 10 [requestOf ["GET", "a"]]).run .concrete (snapshotOnly 4) 1
    sweptGet

theorem threads_serve_cache_sweptGet :
    (sweptGetRun.log.map fun a => (a.since, a.answered, a.full, a.reply)) =
        [(10, 10, false, RespSerializer.nullBulk)] ∧
      ∃ es m', List.Forall₂ Tells es sweptGetRun.log ∧ Ticking (es.map Step.turn) ∧
        Explains (Step.Might .concrete) es (view .concrete (Rdb.oneKey 0 5)) m' := by
  refine ⟨by decide +kernel, ?_⟩
  obtain ⟨-, es, m', hlog, hticking, hexplains, -⟩ := threads_serve_cache .concrete
    (snapshotOnly 4) 1 (Rdb.oneKey 0 5) (Rdb.oneKey_valid 0 5) {} 10 (by decide)
    [requestOf ["GET", "a"]] sweptGet clocked_sweptGet
  exact ⟨es, m', hlog, hticking, hexplains⟩

end RedisCache.Server
