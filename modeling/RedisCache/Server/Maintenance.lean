import Mathlib
import RedisCache.Lib.History
import RedisCache.Lib.Scans
import RedisCache.Persistence.SaveFaults
import RedisCache.Server.Restart

/-!
# The maintenance thread, and a crash

`Server::maintenance_loop` next to a running event loop: it sweeps, counts the
keys and, when the interval is over, saves. Its store functions take one shard
lock after the other, and between two of its steps the event loop may run any
section of its own, on any shard. Saves can fail in every way a `Faults` says.

Then the process is killed. What is on disk is what was there at the start, or
the work of one finished save, in which every shard stands as it was at some
moment of that save (`Tracked`). The next process comes up with that
(`crash_recovers`), and if no save has failed it is no older than the interval
(`snapshot_recent`).
-/

namespace RedisCache.Server

open Loop Sections Protocol Storage Commands Persistence TimedMap

/-! ## The loop -/

/-- Where the loop stands: in `sweep_expired` and `size`, before it looks at the
clock, or in `rdb_.save`. -/
inductive Stage where
  | sweeping (rest : StoreProg Nat)
  | checking
  | saving (rest : StoreProg (Bool × Rdb.Files))

def Stage.isSaving : Stage → Bool
  | .saving _ => true
  | _ => false

/-- The store, the snapshot on disk, the `key_count` gauge, and the local
variables of `maintenance_loop`. -/
structure Upkeep where
  cells : Shards
  files : Rdb.Files
  keyCount : Int := 0
  lastSave : Int
  now : Int
  stage : Stage

/-- The first two calls of a turn of the loop. -/
def sweepAndCount : StoreProg Nat := do
  Store.sweepExpired
  Store.size

/-- What happens next: a step of the maintenance thread, with what the clock
shows and what fails if it is about to save, or a section of the event loop. -/
inductive Event where
  | maintenance (clk : Nat → Int) (io : Rdb.Faults)
  | client (i : Index) (update : Shard → Shard)

namespace Upkeep

/-- The thread starts: `last_rdb_save` is read from the clock. The loop has not
looked at it yet. -/
def start (s : Shards) (files : Rdb.Files) (clock : Int) : Upkeep where
  cells := s
  files := files
  lastSave := clock
  now := clock
  stage := .sweeping sweepAndCount

variable (cfg : Config) (intervalSecs : Int)

/-- A save that has failed counts as made: `last_rdb_save` moves on. -/
def maintain (clk : Nat → Int) (io : Rdb.Faults) (U : Upkeep) : Upkeep :=
  match U.stage with
  | .sweeping (.ret n) => { U with keyCount := i64 n, stage := .checking }
  | .sweeping p =>
      { U with cells := (p.advance clk U.cells).2, stage := .sweeping (p.advance clk U.cells).1 }
  | .checking =>
      if cfg.rdbEnabled && decide (intervalSecs * 1000 ≤ i64 (clk 0 - U.lastSave)) then
        { U with now := clk 0, stage := .saving (Rdb.save io U.files) }
      else { U with now := clk 0, stage := .sweeping sweepAndCount }
  | .saving (.ret r) =>
      { U with files := r.2, lastSave := U.now, stage := .sweeping sweepAndCount }
  | .saving p =>
      { U with cells := (p.advance clk U.cells).2, stage := .saving (p.advance clk U.cells).1 }

def step (U : Upkeep) : Event → Upkeep
  | .maintenance clk io => U.maintain cfg intervalSecs clk io
  | .client i update => { U with cells := Function.update U.cells i (update (U.cells i)) }

def run (U : Upkeep) (events : List Event) : Upkeep := events.foldl (step cfg intervalSecs) U

/-- Each shard at a moment of its own. -/
def glimpse (U : Upkeep) (events : List Event) (moment : Index → Nat) : Shards :=
  fun i => (U.run cfg intervalSecs (events.take (moment i))).cells i

end Upkeep

/-- A section of the event loop keeps its shard in order. -/
def Event.Keeps (P : Platform) : Event → Prop
  | .maintenance _ _ => True
  | .client i update => ∀ sh, Valid P i sh → Valid P i (update sh)

/-- `t` is what the clock showed to a step of the thread. -/
def Reading (events : List Event) (t : Int) : Prop :=
  ∃ clk io, Event.maintenance clk io ∈ events ∧ clk 0 = t

/-- No save has anything go wrong. -/
def Faultless (events : List Event) : Prop :=
  ∀ clk io, Event.maintenance clk io ∈ events → io = {}

/-! ## What is known along a run -/

section Tracking

variable (cfg : Config) (intervalSecs : Int) (U : Upkeep) (events : List Event)

/-- What is left of a save that event `first` has begun: nothing as the file
could not be opened, everything but that, or the shards `rest`. The others have
been visited, each at its moment. -/
inductive Saving (first : Nat) (io : Rdb.Faults) (files : Rdb.Files) :
    StoreProg (Bool × Rdb.Files) → Prop where
  | refused (hio : io.openFails = true) : Saving first io files (.ret (false, files))
  | begun : Saving first io files (.clock fun t =>
      Prog.scan (fun sh => sh.snapshot t) Store.shards fun found =>
        Rdb.finish io files found.flatten)
  | visiting (t : Int) (visited rest : List Index) (moment : Index → Nat)
      (hsplit : Store.shards = visited ++ rest) (ht : Reading events t)
      (hbounds : ∀ i, first ≤ moment i ∧ moment i ≤ events.length) :
      Saving first io files (Prog.scan (fun sh => sh.snapshot t) rest fun found =>
        Rdb.finish io files (visited.map (fun i =>
          (U.glimpse cfg intervalSecs events moment i).snapshot t) ++ found).flatten)

/-- Event `first` is the check that began a save: before it the loop was about
to look at the clock, which showed `now`, and after it is in `rdb_.save`. -/
def BeganAt (first : Nat) (io : Rdb.Faults) (now : Int) : Prop :=
  (∃ clk, events[first]? = some (.maintenance clk io) ∧ clk 0 = now) ∧
    (U.run cfg intervalSecs (events.take first)).stage = .checking ∧
    (U.run cfg intervalSecs (events.take (first + 1))).stage.isSaving = true

/-- The file shows every shard at a moment since event `first`. -/
def Shows (first : Nat) (file : Option Bytes) : Prop :=
  ∃ t moment, Reading events t ∧ (∀ i, first ≤ moment i ∧ moment i ≤ events.length) ∧
    file = some (Rdb.magic ++ Rdb.version ::
      Rdb.body (Store.records t (U.glimpse cfg intervalSecs events moment)))

/-- What the thread has still to do in its stage. -/
def Task (P : Platform) (now : Int) (files : Rdb.Files) : Stage → Prop
  | .sweeping p => Safe (Valid P) p
  | .checking => True
  | .saving p => ∃ first io, BeganAt cfg intervalSecs U events first io now ∧
      Saving cfg intervalSecs U events first io files p

/-- `V` is reached from `U` by `events`. -/
structure Tracked (P : Platform) (V : Upkeep) : Prop where
  here : U.run cfg intervalSecs events = V
  valid : ∀ i, Valid P i (V.cells i)
  clocked : V.now = U.now ∨ Reading events V.now
  task : Task cfg intervalSecs U events P V.now V.files V.stage
  disk : (V.files.path = U.files.path ∧ (Faultless events → V.lastSave = U.lastSave)) ∨
    ∃ first io now, BeganAt cfg intervalSecs U events first io now ∧
      Shows cfg intervalSecs U events first V.files.path ∧ (Faultless events → V.lastSave = now)
  pace : 0 < intervalSecs → cfg.rdbEnabled = true → V.stage.isSaving = false →
    i64 (V.now - V.lastSave) < intervalSecs * 1000

end Tracking

/-! ## One more event -/

section Append

variable {cfg : Config} {intervalSecs : Int} {U : Upkeep} {events : List Event} {e : Event}

theorem Upkeep.run_append :
    U.run cfg intervalSecs (events ++ [e]) =
      (U.run cfg intervalSecs events).step cfg intervalSecs e := by
  rw [Upkeep.run, List.foldl_append]
  rfl

theorem Reading.append {t : Int} (h : Reading events t) : Reading (events ++ [e]) t := by
  obtain ⟨clk, io, hmem, ht⟩ := h
  exact ⟨clk, io, List.mem_append_left _ hmem, ht⟩

theorem Faultless.left (h : Faultless (events ++ [e])) : Faultless events := fun clk io hmem =>
  h clk io (List.mem_append_left _ hmem)

theorem BeganAt.lt {first : Nat} {io : Rdb.Faults} {now : Int}
    (h : BeganAt cfg intervalSecs U events first io now) : first < events.length := by
  obtain ⟨⟨clk, hat, -⟩, -⟩ := h
  exact (List.getElem?_eq_some_iff.mp hat).1

theorem BeganAt.append {first : Nat} {io : Rdb.Faults} {now : Int}
    (h : BeganAt cfg intervalSecs U events first io now) :
    BeganAt cfg intervalSecs U (events ++ [e]) first io now := by
  have hlt := h.lt
  rw [BeganAt, List.getElem?_append_left hlt, List.take_append_of_le_length hlt.le,
    List.take_append_of_le_length hlt]
  exact h

theorem BeganAt.reading {first : Nat} {io : Rdb.Faults} {now : Int}
    (h : BeganAt cfg intervalSecs U events first io now) :
    ∃ clk, Event.maintenance clk io ∈ events ∧ clk 0 = now := by
  obtain ⟨⟨clk, hat, hnow⟩, -⟩ := h
  exact ⟨clk, List.mem_of_getElem? hat, hnow⟩

theorem Upkeep.glimpse_append {moment : Index → Nat} (h : ∀ i, moment i ≤ events.length) :
    U.glimpse cfg intervalSecs (events ++ [e]) moment =
      U.glimpse cfg intervalSecs events moment := by
  funext i
  rw [glimpse, glimpse, List.take_append_of_le_length (h i)]

/-- The present, seen from one event later. -/
theorem Upkeep.glimpse_now (moment : Index → Nat) (i : Index) :
    U.glimpse cfg intervalSecs (events ++ [e]) (Function.update moment i events.length) i =
      (U.run cfg intervalSecs events).cells i := by
  rw [glimpse, Function.update_self, List.take_left]

theorem Saving.append {first : Nat} {io : Rdb.Faults} {files : Rdb.Files}
    {p : StoreProg (Bool × Rdb.Files)} (h : Saving cfg intervalSecs U events first io files p) :
    Saving cfg intervalSecs U (events ++ [e]) first io files p := by
  cases h with
  | refused hio => exact .refused hio
  | begun => exact .begun
  | visiting t visited rest moment hsplit ht hbounds =>
      rw [← Upkeep.glimpse_append (e := e) fun i => (hbounds i).2]
      refine .visiting t visited rest moment hsplit ht.append fun i => ⟨(hbounds i).1, ?_⟩
      rw [List.length_append]
      exact (hbounds i).2.trans (Nat.le_add_right _ _)

theorem Shows.append {first : Nat} {file : Option Bytes}
    (h : Shows cfg intervalSecs U events first file) :
    Shows cfg intervalSecs U (events ++ [e]) first file := by
  obtain ⟨t, moment, ht, hbounds, hfile⟩ := h
  refine ⟨t, moment, ht.append, fun i => ⟨(hbounds i).1, ?_⟩, ?_⟩
  · rw [List.length_append]
    exact (hbounds i).2.trans (Nat.le_add_right _ _)
  · rw [Upkeep.glimpse_append fun i => (hbounds i).2]
    exact hfile

theorem Task.append {P : Platform} {now : Int} {files : Rdb.Files} {stage : Stage}
    (h : Task cfg intervalSecs U events P now files stage) :
    Task cfg intervalSecs U (events ++ [e]) P now files stage := by
  cases stage with
  | sweeping p => exact h
  | checking => trivial
  | saving p =>
      obtain ⟨first, io, hbegan, hsaving⟩ := h
      exact ⟨first, io, hbegan.append, hsaving.append⟩

theorem Tracked.disk_append {P : Platform} {V : Upkeep}
    (h : Tracked cfg intervalSecs U events P V) :
    (V.files.path = U.files.path ∧ (Faultless (events ++ [e]) → V.lastSave = U.lastSave)) ∨
      ∃ first io now, BeganAt cfg intervalSecs U (events ++ [e]) first io now ∧
        Shows cfg intervalSecs U (events ++ [e]) first V.files.path ∧
        (Faultless (events ++ [e]) → V.lastSave = now) := by
  rcases h.disk with ⟨hpath, hlast⟩ | ⟨first, io, now, hbegan, hshows, hlast⟩
  · exact .inl ⟨hpath, fun hok => hlast hok.left⟩
  · exact .inr ⟨first, io, now, hbegan.append, hshows.append, fun hok => hlast hok.left⟩

end Append

/-! ## The steps -/

section Steps

variable {P : Platform} {cfg : Config} {intervalSecs : Int} {U V : Upkeep} {events : List Event}

theorem sweepAndCount_safe (P : Platform) : Safe (Valid P) sweepAndCount :=
  Safe.bind (Store.sweepExpired_safe P) fun _ => Store.size_safe P

/-- A step of a program is the step of a pool of one. -/
theorem step_alone {α : Type} (p : StoreProg α) (clk : Nat → Int) (s : Shards) :
    p.advance clk s = (((Pool.mk s fun _ : Unit => p).step () clk).threads (),
      ((Pool.mk s fun _ : Unit => p).step () clk).cells) := by
  cases p with
  | ret a => rfl
  | clock next => rfl
  | lock i update next => rfl

theorem advance_safe {α : Type} {p : StoreProg α} (hp : Safe (Valid P) p) {s : Shards}
    (hs : ∀ i, Valid P i (s i)) (clk : Nat → Int) :
    Safe (Valid P) (p.advance clk s).1 ∧ ∀ i, Valid P i ((p.advance clk s).2 i) := by
  rw [step_alone]
  obtain ⟨hcells, hthreads⟩ := Pool.step_safe (c := Pool.mk s fun _ : Unit => p) hs
    (fun _ => hp) () clk
  exact ⟨hthreads (), hcells⟩

theorem scan_eq_ret {β α : Type} {body : Shard → β} {rest : List Index} {g : List β → α} {a : α}
    (h : Prog.scan body rest g = .ret a) : rest = [] ∧ a = g [] := by
  cases rest with
  | nil =>
      cases h
      exact ⟨rfl, rfl⟩
  | cons i rest =>
      rw [Prog.scan_cons] at h
      cases h

/-- A section of the event loop. -/
theorem Tracked.client (h : Tracked cfg intervalSecs U events P V) {i : Index}
    {update : Shard → Shard} (hkeeps : (Event.client i update).Keeps P) :
    Tracked cfg intervalSecs U (events ++ [.client i update]) P
      (V.step cfg intervalSecs (.client i update)) where
  here := by rw [Upkeep.run_append, h.here]
  valid j := by
    by_cases hj : j = i
    · subst hj
      simpa [Upkeep.step] using hkeeps _ (h.valid j)
    · simpa [Upkeep.step, Function.update_of_ne hj] using h.valid j
  clocked := h.clocked.imp_right Reading.append
  task := h.task.append
  disk := h.disk_append
  pace := h.pace

/-- A step that leaves the disk alone and does not look at the clock. -/
theorem Tracked.inside (h : Tracked cfg intervalSecs U events P V) {e : Event} {s : Shards}
    {count : Int} {stage : Stage}
    (hstep : V.step cfg intervalSecs e =
      { V with cells := s, keyCount := count, stage := stage })
    (hs : ∀ i, Valid P i (s i))
    (htask : Task cfg intervalSecs U (events ++ [e]) P V.now V.files stage)
    (hstage : stage.isSaving = V.stage.isSaving) :
    Tracked cfg intervalSecs U (events ++ [e]) P (V.step cfg intervalSecs e) where
  here := by rw [Upkeep.run_append, h.here]
  valid := by rwa [hstep]
  clocked := by
    rw [hstep]
    exact h.clocked.imp_right Reading.append
  task := by rwa [hstep]
  disk := by
    rw [hstep]
    exact h.disk_append
  pace hpos hon hsaving := by
    rw [hstep] at hsaving ⊢
    exact h.pace hpos hon (hstage.symm.trans hsaving)

/-- The look at the clock. -/
theorem Tracked.check (h : Tracked cfg intervalSecs U events P V) (hstage : V.stage = .checking)
    (clk : Nat → Int) (io : Rdb.Faults) :
    Tracked cfg intervalSecs U (events ++ [.maintenance clk io]) P
      (V.step cfg intervalSecs (.maintenance clk io)) := by
  have hhere : U.run cfg intervalSecs (events ++ [.maintenance clk io]) =
      V.step cfg intervalSecs (.maintenance clk io) := by rw [Upkeep.run_append, h.here]
  simp only [Upkeep.step, Upkeep.maintain, hstage] at hhere ⊢
  by_cases hdue : (cfg.rdbEnabled && decide (intervalSecs * 1000 ≤ i64 (clk 0 - V.lastSave))) = true
  · rw [if_pos hdue] at hhere ⊢
    have hbegan : BeganAt cfg intervalSecs U (events ++ [.maintenance clk io]) events.length io
        (clk 0) := by
      refine ⟨⟨clk, by simp, rfl⟩, ?_, ?_⟩
      · rw [List.take_left, h.here, hstage]
      · rw [List.take_of_length_le (by simp), hhere]
        rfl
    refine ⟨hhere, h.valid, .inr ⟨clk, io, by simp, rfl⟩, ⟨events.length, io, hbegan, ?_⟩,
      h.disk_append, fun _ _ hno => by cases hno⟩
    cases hopen : io.openFails with
    | true =>
        have hsave : Rdb.save io V.files = .ret (false, V.files) := by
          rw [Rdb.save, if_pos hopen]
          rfl
        rw [hsave]
        exact .refused hopen
    | false =>
        have hsave : Rdb.save io V.files = .clock fun t => Prog.scan (fun sh => sh.snapshot t)
            Store.shards fun found => Rdb.finish io V.files found.flatten := by
          simp only [Rdb.save_eq_finish hopen, Store.forEach, bind_assoc, pure_bind]
          rfl
        rw [hsave]
        exact .begun
  · rw [if_neg hdue] at hhere ⊢
    refine ⟨hhere, h.valid, .inr ⟨clk, io, by simp, rfl⟩, sweepAndCount_safe P, h.disk_append,
      fun _ hon _ => ?_⟩
    simpa [hon] using hdue

/-- The save returns. -/
theorem Tracked.saved (h : Tracked cfg intervalSecs U events P V) {first : Nat} {io : Rdb.Faults}
    (hbegan : BeganAt cfg intervalSecs U events first io V.now) {r : Bool × Rdb.Files}
    (hstage : V.stage = .saving (.ret r))
    (hr : (r.2.path = V.files.path ∧ io ≠ {}) ∨
      Shows cfg intervalSecs U events first r.2.path) (clk : Nat → Int) (io' : Rdb.Faults) :
    Tracked cfg intervalSecs U (events ++ [.maintenance clk io']) P
      (V.step cfg intervalSecs (.maintenance clk io')) := by
  have hhere : U.run cfg intervalSecs (events ++ [.maintenance clk io']) =
      V.step cfg intervalSecs (.maintenance clk io') := by rw [Upkeep.run_append, h.here]
  simp only [Upkeep.step, Upkeep.maintain, hstage] at hhere ⊢
  refine ⟨hhere, h.valid, h.clocked.imp_right Reading.append, sweepAndCount_safe P, ?_,
    fun hpos _ _ => ?_⟩
  · rcases hr with ⟨hpath, hfault⟩ | hshows
    · -- a failed save: some fault is among the events
      obtain ⟨clk₀, hmem, -⟩ := hbegan.reading
      have hnot : ¬ Faultless (events ++ [.maintenance clk io']) := fun hok =>
        hfault (hok clk₀ io (List.mem_append_left _ hmem))
      simp only [hpath]
      rcases h.disk with ⟨hold, -⟩ | ⟨first₀, io₀, now₀, hbegan₀, hshows₀, -⟩
      · exact .inl ⟨hold, fun hok => absurd hok hnot⟩
      · exact .inr ⟨first₀, io₀, now₀, hbegan₀.append, hshows₀.append, fun hok => absurd hok hnot⟩
    · exact .inr ⟨first, io, V.now, hbegan.append, hshows.append, fun _ => rfl⟩
  · simp only [sub_self]
    have hzero : i64 0 = 0 := by decide
    omega

variable (cfg intervalSecs) in
theorem Upkeep.step_saving {p : StoreProg (Bool × Rdb.Files)} (hstage : V.stage = .saving p)
    (hp : ∀ r, p ≠ .ret r) (clk : Nat → Int) (io : Rdb.Faults) :
    V.step cfg intervalSecs (.maintenance clk io) =
      { V with
        cells := (p.advance clk V.cells).2
        stage := .saving (p.advance clk V.cells).1 } := by
  rw [step, maintain, hstage]
  cases p with
  | ret r => exact absurd rfl (hp r)
  | clock next => rfl
  | lock i update next => rfl

variable (cfg intervalSecs) in
theorem Upkeep.step_sweeping {p : StoreProg Nat} (hstage : V.stage = .sweeping p)
    (hp : ∀ n, p ≠ .ret n) (clk : Nat → Int) (io : Rdb.Faults) :
    V.step cfg intervalSecs (.maintenance clk io) =
      { V with
        cells := (p.advance clk V.cells).2
        stage := .sweeping (p.advance clk V.cells).1 } := by
  rw [step, maintain, hstage]
  cases p with
  | ret n => exact absurd rfl (hp n)
  | clock next => rfl
  | lock i update next => rfl

theorem advance_scan {β α : Type} (body : Shard → β) (i : Index) (rest : List Index)
    (g : List β → α) (clk : Nat → Int) (s : Shards) :
    (Prog.scan body (i :: rest) g).advance clk s =
      (Prog.scan body rest fun bs => g (body (s i) :: bs), s) := by
  rw [step_alone]
  obtain ⟨hcells, hthread⟩ := Pool.step_scan_cons
    (c := Pool.mk s fun _ : Unit => Prog.scan body (i :: rest) g) (t := ()) rfl clk
  exact Prod.ext hthread hcells

/-- A save under way visits its next shard, or is done. -/
theorem Tracked.visit (h : Tracked cfg intervalSecs U events P V) {first : Nat}
    {io : Rdb.Faults} (hbegan : BeganAt cfg intervalSecs U events first io V.now) {t : Int}
    {visited rest : List Index} {moment : Index → Nat} (hsplit : Store.shards = visited ++ rest)
    (ht : Reading events t) (hbounds : ∀ i, first ≤ moment i ∧ moment i ≤ events.length)
    (hstage : V.stage = .saving (Prog.scan (fun sh => sh.snapshot t) rest fun found =>
      Rdb.finish io V.files (visited.map (fun i =>
        (U.glimpse cfg intervalSecs events moment i).snapshot t) ++ found).flatten))
    (clk : Nat → Int) (io' : Rdb.Faults) :
    Tracked cfg intervalSecs U (events ++ [.maintenance clk io']) P
      (V.step cfg intervalSecs (.maintenance clk io')) := by
  cases rest with
  | nil =>
      rw [List.append_nil] at hsplit
      subst hsplit
      have hshows : ∀ {file}, file = some (Rdb.magic ++ Rdb.version ::
          Rdb.body (Store.records t (U.glimpse cfg intervalSecs events moment))) →
          Shows cfg intervalSecs U events first file := fun hfile => ⟨t, moment, ht, hbounds, hfile⟩
      refine h.saved hbegan hstage ?_ clk io'
      simp only [List.append_nil]
      by_cases hio : io = {}
      · subst hio
        exact .inr (hshows (Rdb.finish_path_ok _ _))
      · exact (Rdb.finish_path io V.files _).imp (fun hpath => ⟨hpath, hio⟩) hshows
  | cons i rest =>
      have hnot : ∀ r, Prog.scan (fun sh => Shard.snapshot t sh) (i :: rest) (fun found =>
          Rdb.finish io V.files (visited.map (fun i =>
            (U.glimpse cfg intervalSecs events moment i).snapshot t) ++ found).flatten) ≠ .ret r :=
        fun r hr => absurd (scan_eq_ret hr).1 (by simp)
      have hstep := Upkeep.step_saving cfg intervalSecs hstage hnot clk io'
      rw [advance_scan] at hstep
      refine h.inside hstep h.valid ⟨first, io, hbegan.append, ?_⟩ (by rw [hstage]; rfl)
      have hnew : i ∉ visited := by
        have hnd := Store.shards_nodup
        rw [hsplit, List.nodup_append] at hnd
        exact fun hi => hnd.2.2 i hi i List.mem_cons_self rfl
      -- the shards visited before keep their moments, shard `i` gets this one
      have hseen : ((visited ++ [i]).map fun j => (U.glimpse cfg intervalSecs
            (events ++ [.maintenance clk io'])
            (Function.update moment i events.length) j).snapshot t) =
          (visited.map fun j => (U.glimpse cfg intervalSecs events moment j).snapshot t) ++
            [(V.cells i).snapshot t] := by
        rw [List.map_append, List.map_singleton, Upkeep.glimpse_now, h.here]
        refine congrArg (· ++ _) (List.map_congr_left fun j hj => ?_)
        have hji : j ≠ i := fun heq => hnew (heq ▸ hj)
        rw [Upkeep.glimpse, Function.update_of_ne hji, ← Upkeep.glimpse,
          Upkeep.glimpse_append fun k => (hbounds k).2]
      have hrest : (fun bs => Rdb.finish io V.files (visited.map (fun j =>
          (U.glimpse cfg intervalSecs events moment j).snapshot t) ++
            (V.cells i).snapshot t :: bs).flatten) =
          fun bs => Rdb.finish io V.files ((visited ++ [i]).map (fun j => (U.glimpse cfg
            intervalSecs (events ++ [.maintenance clk io'])
              (Function.update moment i events.length) j).snapshot t) ++ bs).flatten := by
        funext bs
        rw [hseen, List.append_assoc, List.singleton_append]
      rw [hrest]
      refine .visiting t (visited ++ [i]) rest _
        (by rw [hsplit, List.append_assoc, List.singleton_append]) ht.append fun j => ?_
      rw [List.length_append]
      by_cases hj : j = i
      · subst hj
        rw [Function.update_self]
        exact ⟨(hbounds j).1.trans (hbounds j).2, Nat.le_add_right _ _⟩
      · rw [Function.update_of_ne hj]
        exact ⟨(hbounds j).1, (hbounds j).2.trans (Nat.le_add_right _ _)⟩

/-- A step of the thread, stage by stage. -/
theorem Tracked.maintenance (h : Tracked cfg intervalSecs U events P V) (clk : Nat → Int)
    (io : Rdb.Faults) :
    Tracked cfg intervalSecs U (events ++ [.maintenance clk io]) P
      (V.step cfg intervalSecs (.maintenance clk io)) := by
  have htask := h.task
  cases hstage : V.stage with
  | checking => exact h.check hstage clk io
  | sweeping p =>
      rw [hstage] at htask
      by_cases hret : ∃ n, p = .ret n
      · obtain ⟨n, rfl⟩ := hret
        have hstep : V.step cfg intervalSecs (.maintenance clk io) =
            { V with keyCount := i64 n, stage := .checking } := by
          simp only [Upkeep.step, Upkeep.maintain, hstage]
        exact h.inside hstep h.valid trivial (by rw [hstage]; rfl)
      · rw [not_exists] at hret
        obtain ⟨hsafe, hvalid⟩ := advance_safe htask h.valid clk
        exact h.inside (Upkeep.step_sweeping cfg intervalSecs hstage hret clk io) hvalid hsafe
          (by rw [hstage]; rfl)
  | saving p =>
      rw [hstage] at htask
      obtain ⟨first, io₀, hbegan, hsaving⟩ := htask
      cases hsaving with
      | refused hio =>
          refine h.saved hbegan hstage (.inl ⟨rfl, ?_⟩) clk io
          rintro rfl
          cases hio
      | visiting t visited rest moment hsplit ht hbounds =>
          exact h.visit hbegan hsplit ht hbounds hstage clk io
      | begun =>
          have hfirst := hbegan.lt
          have hstep := Upkeep.step_saving cfg intervalSecs hstage
            (fun r hr => by cases hr) clk io
          refine h.inside hstep h.valid ⟨first, io₀, hbegan.append, ?_⟩ (by rw [hstage]; rfl)
          refine Saving.visiting (clk 0) [] Store.shards (fun _ => first) rfl
            ⟨clk, io, by simp, rfl⟩ fun i => ⟨le_rfl, ?_⟩
          rw [List.length_append]
          omega

variable (cfg intervalSecs) in
/-- From the start of the thread, along every run. -/
theorem tracked_run {s : Shards} (hs : ∀ i, Valid P i (s i)) (files : Rdb.Files) (clock : Int)
    {events : List Event} (hevents : ∀ e ∈ events, e.Keeps P) :
    Tracked cfg intervalSecs (.start s files clock) events P
      ((Upkeep.start s files clock).run cfg intervalSecs events) := by
  induction events using List.reverseRecOn with
  | nil =>
      refine ⟨rfl, hs, .inl rfl, sweepAndCount_safe P, .inl ⟨rfl, fun _ => rfl⟩,
        fun hpos _ _ => ?_⟩
      have hzero : i64 0 = 0 := by decide
      simp only [Upkeep.run, List.foldl_nil, Upkeep.start, sub_self]
      omega
  | append_singleton events e ih =>
      have hfirst := ih fun e' he' => hevents e' (List.mem_append_left _ he')
      rw [Upkeep.run_append]
      cases e with
      | maintenance clk io => exact hfirst.maintenance clk io
      | client i update => exact hfirst.client (hevents _ (by simp))

end Steps

/-! ## The next process -/

/-- Whenever it starts after `events`, with room and before the end of `int64_t`
is near, the next process comes up with what is alive of `s`. The clock may go
on while it loads. -/
def ComesUpWith (P : Platform) (events : List Event) (file : Option Bytes) (s : Shards) : Prop :=
  ∀ maxKeys junk (rd : Nat → Int), (∀ n, Decimal.InRange (rd n)) →
    (∀ t, Reading events t → ∀ n, t ≤ rd n) → Store.total s ≤ maxKeys →
    Rdb.Distant rd (view P s) → ∃ w,
      recover P (snapshotOnly maxKeys) junk { rdb := file } rd =
        some (.ok (w, { rdb := file })) ∧ Reread rd (view P s) (view P w.cells)

/-- With a clock that stands still during the load, the deadlines are the old
ones. -/
theorem ComesUpWith.still {P : Platform} {events : List Event} {file : Option Bytes} {s : Shards}
    (h : ComesUpWith P events file s) (hs : ∀ i, Valid P i (s i)) {u : Int}
    (hu : Decimal.InRange u) (hafter : ∀ t, Reading events t → t ≤ u) {maxKeys : Nat}
    (hroom : Store.total s ≤ maxKeys) (junk : Nat → UInt8) :
    ∃ w, recover P (snapshotOnly maxKeys) junk { rdb := file } (fun _ => u) =
        some (.ok (w, { rdb := file })) ∧ view P w.cells = live u (view P s) := by
  have hfar : Rdb.Distant (fun _ => u) (view P s) := by
    intro k it d hk hd n
    obtain ⟨e, he, rfl⟩ := Option.map_eq_some_iff.mp hk
    obtain ⟨-, rfl⟩ := (Entry.item_deadline_iff e d).mp hd
    rw [sub_self, add_zero]
    exact ((hs _).ranged _ _ he).2
  obtain ⟨w, hrecover, hreread⟩ := h maxKeys junk _ (fun _ => hu) (fun t ht _ => hafter t ht) hroom
    hfar
  exact ⟨w, hrecover, hreread.still fun _ => rfl⟩

/-- A process with any store and any files, from the start of its maintenance
thread: what it has been through. The sections of the event loop keep their
shards in order, the clock is past 1970, and no key or value reaches 4 GiB. -/
structure Ordinary (P : Platform) (cfg : Config) (intervalSecs : Int) (U : Upkeep)
    (events : List Event) : Prop where
  starts : U = .start U.cells U.files U.lastSave
  valid : ∀ i, Valid P i (U.cells i)
  keeps : ∀ e ∈ events, e.Keeps P
  since : 0 ≤ U.lastSave ∧ U.lastSave < 2 ^ 63
  clock : ∀ t, Reading events t → 0 ≤ t ∧ t < 2 ^ 63
  short : ∀ n ≤ events.length, ∀ k it,
    view P (U.run cfg intervalSecs (events.take n)).cells k = some it →
      k.length < 2 ^ 32 - 1 ∧ it.value.length < 2 ^ 32 - 1

namespace Ordinary

variable {P : Platform} {cfg : Config} {intervalSecs : Int} {U : Upkeep} {events : List Event}

theorem tracked (h : Ordinary P cfg intervalSecs U events) (n : Nat) :
    Tracked cfg intervalSecs U (events.take n) P (U.run cfg intervalSecs (events.take n)) := by
  have hrun := tracked_run cfg intervalSecs h.valid U.files U.lastSave fun e he =>
    h.keeps e (List.mem_of_mem_take (i := n) he)
  rwa [← h.starts] at hrun

theorem comesUp (h : Ordinary P cfg intervalSecs U events) {first : Nat} {file : Option Bytes}
    (hshows : Shows cfg intervalSecs U events first file) :
    ∃ moment, (∀ i, first ≤ moment i ∧ moment i ≤ events.length) ∧
      ComesUpWith P events file (U.glimpse cfg intervalSecs events moment) := by
  obtain ⟨t, moment, ht, hbounds, rfl⟩ := hshows
  refine ⟨moment, hbounds, fun maxKeys junk rd hrange hafter hroom hfar => ?_⟩
  have hvalid : ∀ i, Valid P i (U.glimpse cfg intervalSecs events moment i) := fun i =>
    (h.tracked (moment i)).valid i
  -- a key is looked up in its shard, at the moment of that shard
  have hsmall : Rdb.Small P t (U.glimpse cfg intervalSecs events moment) := fun k it hit =>
    h.short (moment (Store.shardFor P k)) (hbounds _).2 k it (live_eq_some.mp hit).1
  obtain ⟨w, hrecover, -, hreread⟩ := recover_saved { rdb := some _ } (h.clock t ht).1 hvalid
    hsmall hroom junk (hafter t ht) hrange hfar rfl
  exact ⟨w, hrecover, hreread⟩

theorem tracked_all (h : Ordinary P cfg intervalSecs U events) :
    Tracked cfg intervalSecs U events P (U.run cfg intervalSecs events) := by
  have hall := h.tracked events.length
  rwa [List.take_length] at hall

/-- The subtraction in the loop is exact. -/
theorem elapsed (h : Ordinary P cfg intervalSecs U events) {t : Int} (ht : 0 ≤ t ∧ t < 2 ^ 63) :
    i64 ((U.run cfg intervalSecs events).now - t) = (U.run cfg intervalSecs events).now - t := by
  have hcheck : 0 ≤ (U.run cfg intervalSecs events).now ∧
      (U.run cfg intervalSecs events).now < 2 ^ 63 := by
    rcases h.tracked_all.clocked with heq | hread
    · rw [heq, h.starts]
      exact h.since
    · exact h.clock _ hread
  exact i64_of_inRange ⟨by omega, by omega⟩

end Ordinary

/-- **A crash leaves a whole snapshot.** The maintenance thread runs next to any
sections of the event loop, with any failures of its saves, and the process is
killed at any moment. On disk is the snapshot from before, or one with which
the next process comes up as follows: every shard holds what is still alive of
its contents at some moment since one check of the clock, a check that began a
save. Deadlines are put off by as long as the load was under way. -/
theorem crash_recovers (P : Platform) (cfg : Config) (intervalSecs : Int) (U : Upkeep)
    (events : List Event) (h : Ordinary P cfg intervalSecs U events) :
    (U.run cfg intervalSecs events).files.path = U.files.path ∨
      ∃ first io t moment, BeganAt cfg intervalSecs U events first io t ∧
        (∀ i, first ≤ moment i ∧ moment i ≤ events.length) ∧
        ComesUpWith P events (U.run cfg intervalSecs events).files.path
          (U.glimpse cfg intervalSecs events moment) := by
  rcases h.tracked_all.disk with ⟨hold, -⟩ | ⟨first, io, t, hbegan, hshows, -⟩
  · exact .inl hold
  · obtain ⟨moment, hbounds, hup⟩ := h.comesUp hshows
    exact .inr ⟨first, io, t, moment, hbegan, hbounds, hup⟩

/-- One key, and the thread starts at `7`. -/
def oneKeyUp : Upkeep := .start (Rdb.oneKey 7 (-1)) {} 7

/-- A sweep, a look at the clock at `3000`, and a save. -/
def oneSave : List Event := List.replicate 53 (.maintenance (fun _ => 3000) {})

theorem ordinary_oneSave : Ordinary .concrete (snapshotOnly 4) 1 oneKeyUp oneSave where
  starts := rfl
  valid := by
    rw [oneKeyUp, Upkeep.start]
    exact Rdb.oneKey_valid 7 (-1)
  keeps e he := by
    rw [List.eq_of_mem_replicate he]
    trivial
  since := by decide
  clock t := by
    rintro ⟨clk, io, hmem, rfl⟩
    cases List.eq_of_mem_replicate hmem
    decide
  short n hn := by
    have hall : ∀ n < 54, ∀ i,
        ∀ e ∈ ((oneKeyUp.run (snapshotOnly 4) 1 (oneSave.take n)).cells i).map.entries,
          e.1.length < 2 ^ 32 - 1 ∧ e.2.value.length < 2 ^ 32 - 1 := by decide +kernel
    exact short_of_entries (hall n (Nat.lt_succ_of_le hn))

theorem saved_oneSave :
    (oneKeyUp.run (snapshotOnly 4) 1 oneSave).files.path ≠ oneKeyUp.files.path ∧
      (oneKeyUp.run (snapshotOnly 4) 1 oneSave).stage.isSaving = false := by
  decide +kernel

theorem crash_recovers_oneSave :
    ∃ first io t moment, BeganAt (snapshotOnly 4) 1 oneKeyUp oneSave first io t ∧
      (∀ i, first ≤ moment i ∧ moment i ≤ oneSave.length) ∧
      ComesUpWith .concrete oneSave (oneKeyUp.run (snapshotOnly 4) 1 oneSave).files.path
        (oneKeyUp.glimpse (snapshotOnly 4) 1 oneSave moment) :=
  (crash_recovers .concrete (snapshotOnly 4) 1 oneKeyUp oneSave ordinary_oneSave).resolve_left
    saved_oneSave.1

/-- **The snapshot is no older than the interval.** With snapshots enabled and a
positive interval, as long as no save fails and whenever none is under way, the
last check of the clock is less than the interval after the start, with the old
snapshot on disk, or less than the interval after the check that began the save
on disk. -/
theorem snapshot_recent (P : Platform) (cfg : Config) (hon : cfg.rdbEnabled = true)
    (intervalSecs : Int) (hpos : 0 < intervalSecs) (U : Upkeep) (events : List Event)
    (h : Ordinary P cfg intervalSecs U events) (hok : Faultless events)
    (hidle : (U.run cfg intervalSecs events).stage.isSaving = false) :
    ((U.run cfg intervalSecs events).files.path = U.files.path ∧
        (U.run cfg intervalSecs events).now - U.lastSave < intervalSecs * 1000) ∨
      ∃ first io t moment, BeganAt cfg intervalSecs U events first io t ∧
        (U.run cfg intervalSecs events).now - t < intervalSecs * 1000 ∧
        (∀ i, first ≤ moment i ∧ moment i ≤ events.length) ∧
        ComesUpWith P events (U.run cfg intervalSecs events).files.path
          (U.glimpse cfg intervalSecs events moment) := by
  have hpace := h.tracked_all.pace hpos hon hidle
  rcases h.tracked_all.disk with ⟨hold, hsame⟩ | ⟨first, io, t, hbegan, hshows, hsame⟩
  · rw [hsame hok, h.elapsed h.since] at hpace
    exact .inl ⟨hold, hpace⟩
  · obtain ⟨clk, hmem, ht⟩ := hbegan.reading
    have hread : Reading events t := ⟨clk, io, hmem, ht⟩
    rw [hsame hok, h.elapsed (h.clock t hread)] at hpace
    obtain ⟨moment, hbounds, hup⟩ := h.comesUp hshows
    exact .inr ⟨first, io, t, moment, hbegan, hpace, hbounds, hup⟩

theorem snapshot_recent_oneSave :
    ∃ first io t moment, BeganAt (snapshotOnly 4) 1 oneKeyUp oneSave first io t ∧
      (oneKeyUp.run (snapshotOnly 4) 1 oneSave).now - t < 1 * 1000 ∧
      (∀ i, first ≤ moment i ∧ moment i ≤ oneSave.length) ∧
      ComesUpWith .concrete oneSave (oneKeyUp.run (snapshotOnly 4) 1 oneSave).files.path
        (oneKeyUp.glimpse (snapshotOnly 4) 1 oneSave moment) := by
  have hok : Faultless oneSave := by
    intro clk io hmem
    cases List.eq_of_mem_replicate hmem
    rfl
  exact (snapshot_recent .concrete (snapshotOnly 4) rfl 1 (by decide) oneKeyUp oneSave
    ordinary_oneSave hok saved_oneSave.2).resolve_left fun hold => saved_oneSave.1 hold.1

end RedisCache.Server
