import Mathlib
import RedisCache.Persistence.Aof

/-!
# Several threads on one log

`Aof::append` writes the command out first and takes the mutex for the write
and the flush, so threads that append at the same time do it one after the
other, each a whole command at a time. The disk may fail at any of them. What
`append` returned and what a replay finds then differ in one command at most:
one that was accepted and whose flush failed, or one that was refused and got
into the file all the same.
-/

namespace RedisCache.Persistence.Aof

open Framing Protocol Commands

/-- A call of `append` that has returned. -/
structure Appended (τ : Type) where
  thread : τ
  cmd : RespValue
  ok : Bool

/-- The log, what the threads have still to append, and the calls that have
returned, in the order in which they had the mutex. -/
structure Appenders (τ : Type) where
  log : Log := {}
  plans : τ → List RespValue
  calls : List (Appended τ) := []

/-- The commands that were accepted. -/
def accepted {τ : Type} (calls : List (Appended τ)) : List RespValue :=
  (calls.filter Appended.ok).map Appended.cmd

namespace Appenders

variable {τ : Type} [DecidableEq τ]

/-- Thread `t` gets the mutex for its next command. -/
def step (A : Appenders τ) (t : τ) (disk : Disk) : Appenders τ :=
  match A.plans t with
  | [] => A
  | cmd :: rest =>
      { log := (append A.log cmd disk).2
        plans := Function.update A.plans t rest
        calls := A.calls ++ [⟨t, cmd, (append A.log cmd disk).1⟩] }

def run (A : Appenders τ) (sched : List (τ × Disk)) : Appenders τ :=
  sched.foldl (fun A e => A.step e.1 e.2) A

/-- The calls of one thread. -/
def callsOf (A : Appenders τ) (t : τ) : List RespValue :=
  (A.calls.filter fun x => decide (x.thread = t)).map Appended.cmd

end Appenders

/-! ## What is in the file -/

/-- Whole commands `init`, and a front part of `last`: the flush of `last` has
failed and it counts as accepted, or the write has failed and it does not. -/
structure Broken {τ : Type} (bytes : Bytes) (calls : List (Appended τ)) (init : List RespValue)
    (last : RespValue) (front : Bytes) : Prop where
  bytes_eq : bytes = init.flatMap wire ++ front
  front_prefix : front <+: wire last
  told : accepted calls = init ++ [last] ∨
    (accepted calls = init ∧ ∃ x ∈ calls, x.ok = false ∧ x.cmd = last)

/-- The log after `calls`. -/
structure Recorded {τ : Type} (log : Log) (calls : List (Appended τ)) : Prop where
  good : log.good = true → log.bytes = (accepted calls).flatMap wire
  bad : log.good = false → ∃ init last front, Broken log.bytes calls init last front

section Calls

variable {τ : Type} {calls : List (Appended τ)} {log : Log}

theorem accepted_append (calls : List (Appended τ)) (x : Appended τ) :
    accepted (calls ++ [x]) = accepted calls ++ if x.ok then [x.cmd] else [] := by
  cases hx : x.ok with
  | true => simp [accepted, List.filter_append, hx]
  | false => simp [accepted, List.filter_append, hx]

/-- A call that leaves the log alone. -/
theorem Recorded.skip (h : Recorded log calls) {x : Appended τ} (hx : x.ok = false) :
    Recorded log (calls ++ [x]) := by
  have hsame : accepted (calls ++ [x]) = accepted calls := by
    rw [accepted_append, hx, if_neg (by simp), List.append_nil]
  refine ⟨fun hgood => by rw [hsame, h.good hgood], fun hbad => ?_⟩
  obtain ⟨init, last, front, hbytes, hfront, htold⟩ := h.bad hbad
  refine ⟨init, last, front, hbytes, hfront, ?_⟩
  rw [hsame]
  refine htold.imp_right fun ⟨heq, y, hy, hok, hcmd⟩ => ⟨heq, y, ?_, hok, hcmd⟩
  exact List.mem_append_left _ hy

theorem Recorded.append (h : Recorded log calls) (t : τ) (cmd : RespValue) (disk : Disk) :
    Recorded (append log cmd disk).2 (calls ++ [⟨t, cmd, (append log cmd disk).1⟩]) := by
  unfold Aof.append
  by_cases htype : cmd.type ≠ .array
  · rw [if_pos htype]
    exact h.skip rfl
  · rw [if_neg htype]
    cases hgood : log.good with
    | false =>
        simp only [Bool.not_false, if_true]
        exact h.skip rfl
    | true =>
        simp only [Bool.not_true, Bool.false_eq_true, if_false]
        have hbytes := h.good hgood
        cases disk with
        | ok =>
            refine ⟨fun _ => ?_, fun hbad => by cases hbad⟩
            rw [accepted_append, if_pos rfl, hbytes, List.flatMap_append, List.flatMap_singleton]
        | writeError n =>
            refine ⟨fun hno => (by cases hno), fun _ => ⟨accepted calls, cmd, (wire cmd).take n,
              by rw [hbytes], List.take_prefix n _, .inr ⟨?_, ⟨t, cmd, false⟩, by simp, rfl, rfl⟩⟩⟩
            rw [accepted_append, if_neg (by simp), List.append_nil]
        | flushError n =>
            refine ⟨fun hno => (by cases hno), fun _ => ⟨accepted calls, cmd, (wire cmd).take n,
              by rw [hbytes], List.take_prefix n _, .inl ?_⟩⟩
            rw [accepted_append, if_pos rfl]

theorem mem_of_accepted {c : RespValue} (h : c ∈ accepted calls) :
    ∃ x ∈ calls, x.cmd = c := by
  obtain ⟨x, hx, rfl⟩ := List.mem_map.mp h
  exact ⟨x, List.mem_of_mem_filter hx, rfl⟩

/-- What a replay of a broken log executes: the whole commands, and the last one
if all of it is there. -/
theorem replay_broken (P : Platform) {bytes front : Bytes}
    {init : List RespValue} {last : RespValue} (h : Broken bytes calls init last front)
    (hinit : ∀ c ∈ init, Holds P c) (hlast : Holds P last) (hlen : bytes.length < sizeLimit) :
    ∃ cs, (cs = init ∨ cs = init ++ [last]) ∧
      ∀ (σ : Type) (exec : RespValue → σ → σ) (s : σ), replay P exec (some bytes) s =
        some (.ok (cs.length, cs.foldl (fun s c => exec (asBulks c) s) s)) := by
  obtain ⟨rfl, hfront, -⟩ := h
  by_cases hwhole : front = wire last
  · refine ⟨init ++ [last], .inr rfl, fun σ exec s => ?_⟩
    have hall : ∀ c ∈ init ++ [last], Holds P c := by
      intro c hc
      rcases List.mem_append.mp hc with hc | hc
      · exact hinit c hc
      · rw [List.mem_singleton.mp hc]
        exact hlast
    have hbytes : init.flatMap wire ++ front = (init ++ [last]).flatMap wire ++ [] := by
      rw [hwhole, List.flatMap_append, List.flatMap_singleton, List.append_nil]
    rw [hbytes] at hlen ⊢
    exact replay_log P exec hall (.inl rfl) hlen s
  · exact ⟨init, .inl rfl, fun σ exec s =>
      replay_log P exec hinit (.inr ⟨last, hlast, hfront, hwhole⟩) hlen s⟩

end Calls

/-! ## Whole runs -/

section Runs

variable {τ : Type} [DecidableEq τ]

/-- The log is as the calls say, and every thread has made its calls in order. -/
structure Kept (plans : τ → List RespValue) (A : Appenders τ) : Prop where
  recorded : Recorded A.log A.calls
  inOrder : ∀ t, A.callsOf t ++ A.plans t = plans t

theorem Kept.step {plans : τ → List RespValue} {A : Appenders τ} (h : Kept plans A) (t : τ)
    (disk : Disk) : Kept plans (A.step t disk) := by
  unfold Appenders.step
  cases hplan : A.plans t with
  | nil => exact h
  | cons cmd rest =>
      refine ⟨h.recorded.append t cmd disk, fun u => ?_⟩
      have hu := h.inOrder u
      simp only [Appenders.callsOf, List.filter_append, List.map_append]
      by_cases heq : t = u
      · subst heq
        rw [hplan] at hu
        simpa [Function.update_self, Appenders.callsOf] using hu
      · rw [Function.update_of_ne (Ne.symm heq), List.filter_cons_of_neg (by simpa using heq)]
        simpa [Appenders.callsOf] using hu

theorem kept_run (plans : τ → List RespValue) (sched : List (τ × Disk)) :
    Kept plans (Appenders.run { plans := plans } sched) := by
  have hstart : Kept plans ({ plans := plans } : Appenders τ) :=
    ⟨⟨fun _ => rfl, fun hbad => by cases hbad⟩, fun t => rfl⟩
  generalize ({ plans := plans } : Appenders τ) = A at hstart
  induction sched generalizing A with
  | nil => exact hstart
  | cons e sched ih => exact ih _ (hstart.step e.1 e.2)

theorem Kept.mem_plans {plans : τ → List RespValue} {A : Appenders τ} (h : Kept plans A)
    {x : Appended τ} (hx : x ∈ A.calls) : x.cmd ∈ plans x.thread := by
  rw [← h.inOrder x.thread]
  exact List.mem_append_left _ (List.mem_map.mpr
    ⟨x, List.mem_filter.mpr ⟨hx, by simp⟩, rfl⟩)

end Runs

/-- **Concurrent appends lose one command at most.** Any number of threads
append, in any order and with any failures of the disk. Each thread's commands
stand in the log in its own order; and a replay executes the accepted commands
in the order of the mutex, except that it may miss the last of them, or execute
one more that was refused. If the stream is still good it executes exactly the
accepted ones. -/
theorem appends_survive {τ : Type} [DecidableEq τ] (P : Platform) (plans : τ → List RespValue)
    (sched : List (τ × Disk)) (hfit : ∀ t, ∀ c ∈ plans t, Holds P c)
    (hlen : (Appenders.run { plans := plans } sched).log.bytes.length < sizeLimit) :
    (∀ t, (Appenders.run { plans := plans } sched).callsOf t <+: plans t) ∧
    ∃ cs, (cs = accepted (Appenders.run { plans := plans } sched).calls ∨
        cs = (accepted (Appenders.run { plans := plans } sched).calls).dropLast ∨
        ∃ x ∈ (Appenders.run { plans := plans } sched).calls, x.ok = false ∧
          cs = accepted (Appenders.run { plans := plans } sched).calls ++ [x.cmd]) ∧
      ((Appenders.run { plans := plans } sched).log.good = true →
        cs = accepted (Appenders.run { plans := plans } sched).calls) ∧
      ∀ (σ : Type) (exec : RespValue → σ → σ) (s : σ),
        replay P exec (some (Appenders.run { plans := plans } sched).log.bytes) s =
          some (.ok (cs.length, cs.foldl (fun s c => exec (asBulks c) s) s)) := by
  have hkept := kept_run plans sched
  generalize Appenders.run { plans := plans } sched = A at *
  have hholds : ∀ x ∈ A.calls, Holds P x.cmd := fun x hx => hfit _ _ (hkept.mem_plans hx)
  have haccepted : ∀ c ∈ accepted A.calls, Holds P c := fun c hc => by
    obtain ⟨x, hx, rfl⟩ := mem_of_accepted hc
    exact hholds x hx
  refine ⟨fun t => ⟨A.plans t, hkept.inOrder t⟩, ?_⟩
  cases hgood : A.log.good with
  | true =>
      have hbytes := hkept.recorded.good hgood
      refine ⟨_, .inl rfl, fun _ => rfl, fun σ exec s => ?_⟩
      rw [hbytes, ← List.append_nil ((accepted A.calls).flatMap wire)] at hlen ⊢
      exact replay_log P exec haccepted (.inl rfl) hlen s
  | false =>
      obtain ⟨init, last, front, hbroken⟩ := hkept.recorded.bad hgood
      rcases hbroken.told with htold | ⟨htold, x, hx, hrefused, rfl⟩
      · -- the flush of the last accepted command failed
        have hinit : ∀ c ∈ init, Holds P c := fun c hc => haccepted c (by rw [htold]; simp [hc])
        have hlast : Holds P last := haccepted last (by rw [htold]; simp)
        obtain ⟨cs, hcs, hreplay⟩ := replay_broken P hbroken hinit hlast hlen
        refine ⟨cs, ?_, fun hno => (by cases hno), hreplay⟩
        rw [htold, List.dropLast_concat]
        exact hcs.symm.imp_right .inl
      · -- the write of a command failed, that is refused
        have hinit : ∀ c ∈ init, Holds P c := fun c hc => haccepted c (by rw [htold]; exact hc)
        obtain ⟨cs, hcs, hreplay⟩ := replay_broken P hbroken hinit (hholds x hx) hlen
        refine ⟨cs, ?_, fun hno => (by cases hno), hreplay⟩
        rw [htold]
        exact hcs.imp_right fun heq => .inr ⟨x, hx, hrefused, heq⟩

/-- Two threads log a `PING` each, and the second flush fails. -/
def twoPings : Bool → List RespValue :=
  fun _ => [{ type := .array, array := [{ type := .simpleString, str := ascii "PING" }] }]

def pingSched : List (Bool × Disk) := [(true, .ok), (false, .flushError 1)]

theorem appends_survive_pings :
    (accepted (Appenders.run { plans := twoPings } pingSched).calls).length = 2 ∧
    ∃ cs, (cs = accepted (Appenders.run { plans := twoPings } pingSched).calls ∨
        cs = (accepted (Appenders.run { plans := twoPings } pingSched).calls).dropLast ∨
        ∃ x ∈ (Appenders.run { plans := twoPings } pingSched).calls, x.ok = false ∧
          cs = accepted (Appenders.run { plans := twoPings } pingSched).calls ++ [x.cmd]) ∧
      replay .concrete (fun _ n => n + 1)
        (some (Appenders.run { plans := twoPings } pingSched).log.bytes) 0 =
          some (.ok (cs.length, cs.foldl (fun n _ => n + 1) 0)) := by
  have hfit : ∀ t, ∀ c ∈ twoPings t, Holds .concrete c := by
    intro t c hc
    obtain rfl := List.mem_singleton.mp hc
    refine ⟨by decide, fun arg harg => ?_⟩
    obtain rfl := List.mem_singleton.mp harg
    decide
  obtain ⟨-, cs, hcs, -, hreplay⟩ := appends_survive .concrete twoPings pingSched hfit (by decide)
  exact ⟨by decide, cs, hcs, hreplay Nat (fun _ n => n + 1) 0⟩

end RedisCache.Persistence.Aof
