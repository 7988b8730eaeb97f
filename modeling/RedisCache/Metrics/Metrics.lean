import Mathlib
import RedisCache.Server.ConnectionGauge

/-!
# The metrics

`Metrics.cpp`. The counters are atomics that the event loop and the maintenance
thread write while the thread of the metrics server reads them, one after the
other. Only `snapshot` uses the rest: what it saw of the commands, and when, at
the end of the last window of more than 100 ms.

`rates_of_run` is about any interleaving of updates and snapshots: the commands
per second that a snapshot reports are those recorded since the last window
ended, so that none is counted twice and none is lost, and they are 0 within
100 ms of it.

The three places with `double`s are parameters (`Doubles`).
-/

namespace RedisCache.Metrics

open Decimal

/-- The members of `Metrics` that other threads write. -/
structure Counters extends Server.Metrics where
  totalCommands : Int := 0
  totalHits : Int := 0
  totalMisses : Int := 0
  memoryBytes : Int := 0
  keyCount : Int := 0
  latencyEmaX100 : Int := 0

/-- The members that only `snapshot` uses. Nobody writes the first. -/
structure Window where
  commandsPerSec : Int := 0
  lastCmdSnapshot : Int := 0
  lastSnapshotTimeMs : Int := 0

/-- The arithmetic on `double`s and its printing. -/
structure Doubles where
  /-- The new `latency_ema_x100_`, from the old one and the latency. -/
  ema : Int → Int → Int
  /-- `{:.2f}` of the hundredth part. -/
  average : Int → Bytes
  /-- `{:.4f}` of the share of the hits in the total, which is 0 of none. -/
  share : Int → Int → Bytes
  average_line : ∀ x, 10 ∉ average x
  share_line : ∀ x y, 10 ∉ share x y

namespace Counters

def recordCommand (D : Doubles) (c : Counters) (latencyUs : Int) : Counters :=
  { c with
    totalCommands := i64 (c.totalCommands + 1)
    latencyEmaX100 := D.ema c.latencyEmaX100 latencyUs }

def recordCacheHit (c : Counters) : Counters := { c with totalHits := i64 (c.totalHits + 1) }

def recordCacheMiss (c : Counters) : Counters := { c with totalMisses := i64 (c.totalMisses + 1) }

def recordConnectionOpen (c : Counters) : Counters :=
  { c with toMetrics := c.toMetrics.recordConnectionOpen }

def recordConnectionClose (c : Counters) : Counters :=
  { c with toMetrics := c.toMetrics.recordConnectionClose }

def setMemoryBytes (c : Counters) (bytes : Int) : Counters := { c with memoryBytes := bytes }

def setKeyCount (c : Counters) (n : Int) : Counters := { c with keyCount := n }

end Counters

/-- The `double`s are kept as the integers they are computed from:
`avg_latency_us` is the hundredth part of `latencyEmaX100`, and `hit_rate` the
share of `totalHits` in `total`. -/
structure Snapshot where
  totalCommands : Int
  totalHits : Int
  total : Int
  totalMisses : Int
  activeConnections : Int
  totalConnections : Int
  memoryBytes : Int
  keyCount : Int
  latencyEmaX100 : Int
  commandsPerSec : Int

/-- `Metrics::snapshot`. The loads are one after the other, and `seen` is what
the counters were at each of them. -/
def snapshot (seen : Nat → Counters) (nowMs : Int) (w : Window) : Snapshot × Window :=
  let totalCommands := (seen 0).totalCommands
  let totalHits := (seen 1).totalHits
  let totalMisses := (seen 2).totalMisses
  let dtMs := i64 (nowMs - w.lastSnapshotTimeMs)
  let window : Int × Window :=
    if 100 < dtMs then
      (if 0 < dtMs then (i64 (i64 (totalCommands - w.lastCmdSnapshot) * 1000)).tdiv dtMs else 0,
        { w with lastSnapshotTimeMs := nowMs, lastCmdSnapshot := totalCommands })
    else (w.commandsPerSec, w)
  ({ totalCommands
     totalHits
     total := i64 (totalHits + totalMisses)
     totalMisses
     activeConnections := (seen 3).activeConnections
     totalConnections := (seen 4).totalConnections
     memoryBytes := (seen 5).memoryBytes
     keyCount := (seen 6).keyCount
     latencyEmaX100 := (seen 7).latencyEmaX100
     commandsPerSec := window.1 }, window.2)

/-! ## Any interleaving -/

/-- A step of one of the threads. A snapshot starts with the load of the
commands; `later` is what its other loads find. -/
inductive Event where
  | command (latencyUs : Int)
  | hit
  | miss
  | connectionOpen
  | connectionClose
  | memory (bytes : Int)
  | keys (n : Int)
  | scrape (later : Nat → Counters) (nowMs : Int)

/-- The metrics, and the snapshots taken so far. -/
structure Monitor where
  counters : Counters := {}
  window : Window := {}
  taken : List Snapshot := []

namespace Monitor

def step (D : Doubles) (M : Monitor) : Event → Monitor
  | .command latencyUs => { M with counters := M.counters.recordCommand D latencyUs }
  | .hit => { M with counters := M.counters.recordCacheHit }
  | .miss => { M with counters := M.counters.recordCacheMiss }
  | .connectionOpen => { M with counters := M.counters.recordConnectionOpen }
  | .connectionClose => { M with counters := M.counters.recordConnectionClose }
  | .memory bytes => { M with counters := M.counters.setMemoryBytes bytes }
  | .keys n => { M with counters := M.counters.setKeyCount n }
  | .scrape later nowMs =>
      let s := snapshot (fun i => if i = 0 then M.counters else later i) nowMs M.window
      { M with window := s.2, taken := M.taken ++ [s.1] }

def run (D : Doubles) (M : Monitor) (events : List Event) : Monitor := events.foldl (step D) M

end Monitor

/-- The rates as they are meant: of `n` commands since the time `since`. -/
def rates : Int → Nat → List Event → List Int
  | since, n, .command _ :: events => rates since (n + 1) events
  | since, n, .scrape _ nowMs :: events =>
      if 100 < nowMs - since then (n * 1000 : Int) / (nowMs - since) :: rates nowMs 0 events
      else 0 :: rates since n events
  | since, n, .hit :: events | since, n, .miss :: events | since, n, .connectionOpen :: events
  | since, n, .connectionClose :: events | since, n, .memory _ :: events
  | since, n, .keys _ :: events => rates since n events
  | _, _, [] => []

/-- The clock of a snapshot shows a time since the epoch. -/
def Event.Dated : Event → Prop
  | .scrape _ nowMs => 0 ≤ nowMs ∧ nowMs < 2 ^ 63
  | _ => True

/-- The last window ended at `since`, and there were `n` commands after it. `todo`
more fit the arithmetic. -/
structure Open (since : Int) (n todo : Nat) (M : Monitor) : Prop where
  ended : M.window.lastSnapshotTimeMs = since
  dated : 0 ≤ since ∧ since < 2 ^ 63
  unset : M.window.commandsPerSec = 0
  counted : 0 ≤ M.window.lastCmdSnapshot
  since : M.counters.totalCommands = M.window.lastCmdSnapshot + n
  fits : M.counters.totalCommands + todo < 2 ^ 53

section Steps

variable {D : Doubles} {since : Int} {n todo : Nat} {M : Monitor}

theorem Open.command (h : Open since n (todo + 1) M) (latencyUs : Int) :
    Open since (n + 1) todo (M.step D (.command latencyUs)) := by
  have hcounted := h.counted
  have hsince := h.since
  have hfits := h.fits
  have hadd : i64 (M.counters.totalCommands + 1) = M.counters.totalCommands + 1 :=
    i64_of_inRange ⟨by omega, by push_cast at hfits; omega⟩
  refine ⟨h.ended, h.dated, h.unset, hcounted, ?_, ?_⟩
  · show i64 (M.counters.totalCommands + 1) = M.window.lastCmdSnapshot + ((n + 1 : Nat) : Int)
    push_cast
    omega
  · show i64 (M.counters.totalCommands + 1) + (todo : Int) < 2 ^ 53
    push_cast at hfits
    omega

/-- The other updates leave the commands alone. -/
theorem Open.update (h : Open since n (todo + 1) M) {c : Counters}
    (hc : c.totalCommands = M.counters.totalCommands) :
    Open since n todo { M with counters := c } := by
  have hfits := h.fits
  refine ⟨h.ended, h.dated, h.unset, h.counted, hc.trans h.since, ?_⟩
  show c.totalCommands + (todo : Int) < 2 ^ 53
  push_cast at hfits
  omega

theorem Open.elapsed (h : Open since n todo M) {nowMs : Int} (hnow : 0 ≤ nowMs ∧ nowMs < 2 ^ 63) :
    i64 (nowMs - M.window.lastSnapshotTimeMs) = nowMs - since := by
  have hdated := h.dated
  rw [h.ended]
  exact i64_of_inRange ⟨by omega, by omega⟩

/-- A window of more than 100 ms ends. -/
theorem Open.ends (h : Open since n (todo + 1) M) (later : Nat → Counters) {nowMs : Int}
    (hnow : 0 ≤ nowMs ∧ nowMs < 2 ^ 63) (hlong : 100 < nowMs - since) :
    Open nowMs 0 todo (M.step D (.scrape later nowMs)) ∧
      (M.step D (.scrape later nowMs)).taken.map Snapshot.commandsPerSec =
        M.taken.map Snapshot.commandsPerSec ++ [(n * 1000 : Int) / (nowMs - since)] := by
  have hcounted := h.counted
  have hsince := h.since
  have hfits := h.fits
  have hdelta : i64 (M.counters.totalCommands - M.window.lastCmdSnapshot) = n := by
    rw [i64_of_inRange ⟨by omega, by push_cast at hfits; omega⟩]
    omega
  have hscaled : i64 ((n : Int) * 1000) = n * 1000 :=
    i64_of_inRange ⟨by omega, by push_cast at hfits; omega⟩
  have hstep : M.step D (.scrape later nowMs) =
      { M with
        window := { M.window with
          lastSnapshotTimeMs := nowMs, lastCmdSnapshot := M.counters.totalCommands }
        taken := M.taken ++ [(snapshot (fun i => if i = 0 then M.counters else later i) nowMs
          M.window).1] } := by
    simp only [Monitor.step, snapshot, h.elapsed hnow, if_pos hlong, if_true]
  have hrate : (snapshot (fun i => if i = 0 then M.counters else later i) nowMs
      M.window).1.commandsPerSec = (n * 1000 : Int) / (nowMs - since) := by
    have hpos : 0 < nowMs - since := by omega
    simp only [snapshot, h.elapsed hnow, if_pos hlong, if_pos hpos, if_true, hdelta, hscaled]
    exact Int.tdiv_eq_ediv_of_nonneg (by omega)
  constructor
  · rw [hstep]
    refine ⟨rfl, hnow, h.unset, ?_, ?_, ?_⟩
    · show 0 ≤ M.counters.totalCommands
      omega
    · show M.counters.totalCommands = M.counters.totalCommands + ((0 : Nat) : Int)
      omega
    · show M.counters.totalCommands + (todo : Int) < 2 ^ 53
      push_cast at hfits
      omega
  · rw [hstep, List.map_append, List.map_singleton, hrate]

/-- Within 100 ms of the last one nothing is reported. -/
theorem Open.stays (h : Open since n (todo + 1) M) (later : Nat → Counters) {nowMs : Int}
    (hnow : 0 ≤ nowMs ∧ nowMs < 2 ^ 63) (hshort : ¬ 100 < nowMs - since) :
    Open since n todo (M.step D (.scrape later nowMs)) ∧
      (M.step D (.scrape later nowMs)).taken.map Snapshot.commandsPerSec =
        M.taken.map Snapshot.commandsPerSec ++ [0] := by
  have hfits := h.fits
  have hstep : M.step D (.scrape later nowMs) =
      { M with
        taken := M.taken ++ [(snapshot (fun i => if i = 0 then M.counters else later i) nowMs
          M.window).1] } := by
    simp only [Monitor.step, snapshot, h.elapsed hnow, if_neg hshort]
  have hrate : (snapshot (fun i => if i = 0 then M.counters else later i) nowMs
      M.window).1.commandsPerSec = 0 := by
    simp only [snapshot, h.elapsed hnow, if_neg hshort]
    exact h.unset
  constructor
  · rw [hstep]
    refine ⟨h.ended, h.dated, h.unset, h.counted, h.since, ?_⟩
    show M.counters.totalCommands + (todo : Int) < 2 ^ 53
    push_cast at hfits
    omega
  · rw [hstep, List.map_append, List.map_singleton, hrate]

/-- Induction on the events. -/
theorem Open.run (D : Doubles) {events : List Event} (h : Open since n events.length M)
    (hdated : ∀ e ∈ events, e.Dated) :
    (M.run D events).taken.map Snapshot.commandsPerSec =
      M.taken.map Snapshot.commandsPerSec ++ rates since n events := by
  induction events generalizing since n M with
  | nil => exact (List.append_nil _).symm
  | cons e events ih =>
      have hrest : ∀ e ∈ events, e.Dated := fun e he => hdated e (List.mem_cons_of_mem _ he)
      cases e with
      | command latencyUs => exact ih (h.command latencyUs) hrest
      | hit => exact ih (h.update rfl) hrest
      | miss => exact ih (h.update rfl) hrest
      | connectionOpen => exact ih (h.update rfl) hrest
      | connectionClose => exact ih (h.update rfl) hrest
      | memory bytes => exact ih (h.update rfl) hrest
      | keys k => exact ih (h.update rfl) hrest
      | scrape later nowMs =>
          have hnow : 0 ≤ nowMs ∧ nowMs < 2 ^ 63 := hdated _ List.mem_cons_self
          rw [rates]
          split
          · rename_i hlong
            obtain ⟨hopen, htaken⟩ := h.ends (D := D) later hnow hlong
            refine (ih hopen hrest).trans ?_
            rw [htaken, List.append_assoc, List.singleton_append]
          · rename_i hshort
            obtain ⟨hopen, htaken⟩ := h.stays (D := D) later hnow hshort
            refine (ih hopen hrest).trans ?_
            rw [htaken, List.append_assoc, List.singleton_append]

end Steps

/-- **The reported rates.** Whatever the threads record between and during the
snapshots: a snapshot more than 100 ms after the end of the last window reports
the commands recorded since then, per second and rounded down, and ends a window;
any other reports 0. The first window begins at the time 0 of the clock, not
at the start of the server. -/
theorem rates_of_run (D : Doubles) (events : List Event) (hlen : events.length < 2 ^ 53)
    (hdated : ∀ e ∈ events, e.Dated) :
    (Monitor.run D {} events).taken.map Snapshot.commandsPerSec = rates 0 0 events := by
  have hstart : Open 0 0 events.length ({} : Monitor) :=
    ⟨rfl, by norm_num, rfl, le_rfl, rfl, by push_cast; omega⟩
  exact hstart.run D hdated

/-- Nothing but zeros. -/
def Doubles.zero : Doubles where
  ema _ _ := 0
  average _ := ascii "0.00"
  share _ _ := ascii "0.0000"
  average_line _ := by decide +kernel
  share_line _ _ := by decide +kernel

/-- Three windows, with a snapshot too soon after the second. -/
def scrapes : List Event :=
  [.command 7, .scrape (fun _ => {}) 500, .command 7, .command 7, .hit, .command 7,
    .scrape (fun _ => {}) 1500, .command 7, .scrape (fun _ => {}) 1600, .command 7,
    .scrape (fun _ => {}) 1700]

theorem rates_of_run_scrapes :
    (Monitor.run .zero {} scrapes).taken.map Snapshot.commandsPerSec = [2, 3, 0, 10] := by
  refine (rates_of_run .zero scrapes (by decide) ?_).trans (by decide +kernel)
  simp [scrapes, Event.Dated]

end RedisCache.Metrics
