import Mathlib
import RedisCache.Lib.Fifo
import RedisCache.Lib.Loop

/-!
# The thread pool

`ThreadPool.cpp`: workers take tasks from a queue under a mutex and run them
outside of it, any thread may add a task, and `shutdown` sets `stop_` and
joins the workers. A step is one critical section, or what a thread does
between two of them; steps come in any order.

A worker that waits on the condition variable may look at its condition at
any time, as it does after a spurious wakeup; its step is enabled if the
condition holds. A task is the number under which it was accepted. What it
computes is left out, and so are exceptions from it, which the
`packaged_task` keeps. Calls of `shutdown` that overlap race for `workers_`
in C++; here they go through it by index.
-/

namespace RedisCache.Concurrency

open Loop

/-- Where a worker is in `worker_loop`. -/
inductive Phase where
  | waiting
  | running (task : Nat)
  | exited
  deriving DecidableEq

/-- Where a call of `shutdown` is: behind the loop's first `i` workers, or at
its end. -/
inductive Shutdown where
  | idle
  | joining (i : Nat)
  | returned
  deriving DecidableEq

structure ThreadPool (n : Nat) where
  /-- `tasks_`, and the tasks that were taken from it. -/
  queue : Fifo Nat := {}
  stop : Bool := false
  phase : Fin n → Phase := fun _ => .waiting
  /-- Tasks that have been run, in the order they ended. -/
  executed : List Nat := []
  workers : List (Fin n) := List.finRange n
  /-- The threads that are not `joinable()` any more. -/
  joined : Fin n → Bool := fun _ => false
  calls : Nat → Shutdown := fun _ => .idle

inductive Event (n : Nat) where
  | enqueue
  | dequeue (w : Fin n)
  | finish (w : Fin n)
  /-- A call of `shutdown` sets `stop_`. -/
  | shutdown (c : Nat)
  /-- It goes one worker further, or leaves the loop and clears `workers_`. -/
  | join (c : Nat)

namespace ThreadPool

variable {n : Nat}

def step (p : ThreadPool n) : Event n → Option (ThreadPool n)
  | .enqueue =>
      -- a stopped pool throws
      if p.stop then some p
      else some { p with queue := p.queue.push [p.queue.pushed.length] }
  | .dequeue w =>
      if p.phase w = .waiting ∧ (p.stop || !p.queue.waiting.isEmpty) = true then
        if p.stop && p.queue.waiting.isEmpty then
          some { p with phase := Function.update p.phase w .exited }
        else
          match p.queue.waiting with
          | [] => none
          | t :: _ =>
              some { p with
                queue := p.queue.pop 1
                phase := Function.update p.phase w (.running t) }
      else none
  | .finish w =>
      match p.phase w with
      | .running t =>
          some { p with
            phase := Function.update p.phase w .waiting
            executed := p.executed ++ [t] }
      | _ => none
  | .shutdown c =>
      if p.calls c = .idle then
        some { p with stop := true, calls := Function.update p.calls c (.joining 0) }
      else none
  | .join c =>
      match p.calls c with
      | .joining i =>
          match p.workers[i]? with
          | none => some { p with workers := [], calls := Function.update p.calls c .returned }
          | some w =>
              if p.joined w then
                some { p with calls := Function.update p.calls c (.joining (i + 1)) }
              else if p.phase w = .exited then
                some { p with
                  joined := Function.update p.joined w true
                  calls := Function.update p.calls c (.joining (i + 1)) }
              else none
      | _ => none

/-- What a step does. -/
inductive Stepped (p : ThreadPool n) : ThreadPool n → Prop
  | rejected (stopped : p.stop = true) : Stepped p p
  | accepted (running : p.stop = false) :
      Stepped p { p with queue := p.queue.push [p.queue.pushed.length] }
  | exited (w : Fin n) (before : p.phase w = .waiting) (stopped : p.stop = true)
      (empty : p.queue.waiting = []) :
      Stepped p { p with phase := Function.update p.phase w .exited }
  | taken (w : Fin n) (t : Nat) (rest : List Nat) (before : p.phase w = .waiting)
      (front : p.queue.waiting = t :: rest) :
      Stepped p { p with
        queue := p.queue.pop 1, phase := Function.update p.phase w (.running t) }
  | finished (w : Fin n) (t : Nat) (before : p.phase w = .running t) :
      Stepped p { p with
        phase := Function.update p.phase w .waiting, executed := p.executed ++ [t] }
  | stopped (c : Nat) (before : p.calls c = .idle) :
      Stepped p { p with stop := true, calls := Function.update p.calls c (.joining 0) }
  | cleared (c i : Nat) (before : p.calls c = .joining i) (last : p.workers.length ≤ i) :
      Stepped p { p with workers := [], calls := Function.update p.calls c .returned }
  | passed (c i : Nat) (w : Fin n) (before : p.calls c = .joining i)
      (worker : p.workers[i]? = some w) (done : p.joined w = true) :
      Stepped p { p with calls := Function.update p.calls c (.joining (i + 1)) }
  | joined (c i : Nat) (w : Fin n) (before : p.calls c = .joining i)
      (worker : p.workers[i]? = some w) (done : p.phase w = .exited) :
      Stepped p { p with
        joined := Function.update p.joined w true
        calls := Function.update p.calls c (.joining (i + 1)) }

theorem stepped {p p' : ThreadPool n} {e : Event n} (h : p.step e = some p') : Stepped p p' := by
  cases e with
  | enqueue =>
      rw [step] at h
      split_ifs at h with hstop
      · cases h
        exact .rejected hstop
      · cases h
        exact .accepted (by simpa using hstop)
  | dequeue w =>
      rw [step] at h
      split_ifs at h with hwait hlast
      · cases h
        rw [Bool.and_eq_true, List.isEmpty_iff] at hlast
        exact .exited w hwait.1 hlast.1 hlast.2
      · split at h
        · cases h
        · rename_i t rest hfront
          cases h
          exact .taken w t rest hwait.1 hfront
  | finish w =>
      rw [step] at h
      split at h
      · rename_i t hrun
        cases h
        exact .finished w t hrun
      · cases h
  | shutdown c =>
      rw [step] at h
      split_ifs at h with hidle
      cases h
      exact .stopped c hidle
  | join c =>
      rw [step] at h
      split at h
      · rename_i i hjoin
        split at h
        · rename_i hend
          cases h
          exact .cleared c i hjoin (List.getElem?_eq_none_iff.mp hend)
        · rename_i w hw
          split_ifs at h with hdone hexit
          · cases h
            exact .passed c i w hjoin hw hdone
          · cases h
            exact .joined c i w hjoin hw hexit
      · cases h

/-- A place that does not hold what was written is another place. -/
theorem of_update {α β : Type*} [DecidableEq α] {f : α → β} {a b : α} {x y : β}
    (h : Function.update f a x b = y) (hne : x ≠ y) : b ≠ a ∧ f b = y := by
  by_cases heq : b = a
  · subst heq
    rw [Function.update_self] at h
    exact absurd h hne
  · rw [Function.update_of_ne heq] at h
    exact ⟨heq, h⟩

/-! ## Tasks -/

/-- Every task that was taken is running in one worker or has been run, once. -/
structure Accounted (queue : Fifo Nat) (phase : Fin n → Phase) (executed : List Nat) : Prop where
  numbered : queue.pushed = List.range queue.pushed.length
  once : executed.Nodup
  taken : ∀ t ∈ executed, t ∈ queue.done
  running : ∀ w t, phase w = .running t → t ∈ queue.done ∧ t ∉ executed
  alone : ∀ w w' t, phase w = .running t → phase w' = .running t → w = w'
  covered : ∀ t ∈ queue.done, t ∈ executed ∨ ∃ w, phase w = .running t

theorem Accounted.start : Accounted (n := n) {} (fun _ => .waiting) [] where
  numbered := rfl
  once := List.nodup_nil
  taken t ht := by cases ht
  running w t h := by cases h
  alone w w' t h := by cases h
  covered t ht := by cases ht

section Tasks

variable {queue : Fifo Nat} {phase : Fin n → Phase} {executed : List Nat}

theorem Accounted.nodup (h : Accounted queue phase executed) : queue.pushed.Nodup := by
  rw [h.numbered]
  exact List.nodup_range

/-- Tasks are taken in the order of their numbers. -/
theorem Accounted.done_eq (h : Accounted queue phase executed) :
    queue.done = List.range queue.done.length := by
  have htake := List.prefix_iff_eq_take.mp queue.done_prefix
  have hle := queue.done_prefix.length_le
  rwa [h.numbered, List.take_range, Nat.min_eq_left hle] at htake

theorem Accounted.accepted (h : Accounted queue phase executed) :
    Accounted (queue.push [queue.pushed.length]) phase executed := by
  refine ⟨?_, h.once, h.taken, h.running, h.alone, h.covered⟩
  rw [Fifo.pushed_push, List.length_append, List.length_singleton, List.range_succ, ← h.numbered]

/-- A worker that runs nothing leaves. -/
theorem Accounted.exited (h : Accounted queue phase executed) {w : Fin n}
    (hw : phase w = .waiting) :
    Accounted queue (Function.update phase w .exited) executed := by
  have hsame : ∀ w' t, Function.update phase w .exited w' = .running t ↔ phase w' = .running t := by
    intro w' t
    by_cases heq : w' = w
    · subst heq
      simp [hw]
    · rw [Function.update_of_ne heq]
  refine ⟨h.numbered, h.once, h.taken, ?_, ?_, ?_⟩
  · simpa only [hsame] using h.running
  · simpa only [hsame] using h.alone
  · simpa only [hsame] using h.covered

/-- The task at the front has not been taken before. -/
theorem Accounted.front_new (h : Accounted queue phase executed) {t : Nat} {rest : List Nat}
    (hfront : queue.waiting = t :: rest) : t ∉ queue.done := by
  have hnodup := h.nodup
  rw [Fifo.pushed, hfront] at hnodup
  exact fun hdone => (List.nodup_append.mp hnodup).2.2 t hdone t (by simp) rfl

theorem Accounted.dequeued (h : Accounted queue phase executed) {w : Fin n}
    (hw : phase w = .waiting) {t : Nat} {rest : List Nat} (hfront : queue.waiting = t :: rest) :
    Accounted (queue.pop 1) (Function.update phase w (.running t)) executed := by
  have hnew := h.front_new hfront
  have hdone : (queue.pop 1).done = queue.done ++ [t] := by
    rw [Fifo.pop, hfront]
    rfl
  have hother : ∀ w' t', phase w' = .running t' → w' ≠ w := by
    rintro w' t' hrun rfl
    rw [hw] at hrun
    cases hrun
  refine ⟨by rw [Fifo.pushed_pop]; exact h.numbered, h.once, fun t' ht' => ?_,
    fun w' t' hrun => ?_, fun w₁ w₂ t' h₁ h₂ => ?_, fun t' ht' => ?_⟩
  · rw [hdone]
    exact List.mem_append_left _ (h.taken t' ht')
  · rw [hdone, List.mem_append, List.mem_singleton]
    by_cases heq : w' = w
    · subst heq
      rw [Function.update_self] at hrun
      cases hrun
      exact ⟨.inr rfl, fun hexec => hnew (h.taken t hexec)⟩
    · rw [Function.update_of_ne heq] at hrun
      exact ⟨.inl (h.running w' t' hrun).1, (h.running w' t' hrun).2⟩
  · -- no other worker runs the new task: it was not taken before
    by_cases heq₁ : w₁ = w <;> by_cases heq₂ : w₂ = w
    · rw [heq₁, heq₂]
    · subst heq₁
      rw [Function.update_self] at h₁
      rw [Function.update_of_ne heq₂] at h₂
      cases h₁
      exact absurd (h.running w₂ t h₂).1 hnew
    · subst heq₂
      rw [Function.update_of_ne heq₁] at h₁
      rw [Function.update_self] at h₂
      cases h₂
      exact absurd (h.running w₁ t h₁).1 hnew
    · rw [Function.update_of_ne heq₁] at h₁
      rw [Function.update_of_ne heq₂] at h₂
      exact h.alone w₁ w₂ t' h₁ h₂
  · rw [hdone, List.mem_append, List.mem_singleton] at ht'
    rcases ht' with ht' | rfl
    · refine (h.covered t' ht').imp_right ?_
      rintro ⟨w', hrun⟩
      exact ⟨w', by rw [Function.update_of_ne (hother w' t' hrun), hrun]⟩
    · exact .inr ⟨w, Function.update_self _ _ _⟩

theorem Accounted.finished (h : Accounted queue phase executed) {w : Fin n} {t : Nat}
    (hw : phase w = .running t) :
    Accounted queue (Function.update phase w .waiting) (executed ++ [t]) := by
  obtain ⟨hdone, hnew⟩ := h.running w t hw
  -- the other workers run other tasks
  have hother : ∀ w' t', Function.update phase w .waiting w' = .running t' →
      phase w' = .running t' ∧ t' ≠ t := by
    intro w' t' hrun
    obtain ⟨hne, hrun'⟩ := of_update hrun (by simp)
    exact ⟨hrun', fun htask => hne (h.alone w' w t (htask ▸ hrun') hw)⟩
  refine ⟨h.numbered, ?_, fun t' ht' => ?_, fun w' t' hrun => ?_, fun w₁ w₂ t' h₁ h₂ => ?_,
    fun t' ht' => ?_⟩
  · rw [List.nodup_append]
    refine ⟨h.once, List.nodup_singleton t, fun t' ht' u hu => ?_⟩
    rw [List.mem_singleton.mp hu]
    rintro rfl
    exact hnew ht'
  · rw [List.mem_append, List.mem_singleton] at ht'
    rcases ht' with ht' | rfl
    · exact h.taken t' ht'
    · exact hdone
  · obtain ⟨hrun', hne⟩ := hother w' t' hrun
    obtain ⟨htaken, hnot⟩ := h.running w' t' hrun'
    refine ⟨htaken, fun hmem => ?_⟩
    rw [List.mem_append, List.mem_singleton] at hmem
    exact hmem.elim hnot hne
  · exact h.alone w₁ w₂ t' (hother w₁ t' h₁).1 (hother w₂ t' h₂).1
  · rw [List.mem_append, List.mem_singleton]
    rcases h.covered t' ht' with hexec | ⟨w', hrun⟩
    · exact .inl (.inl hexec)
    · by_cases heq : w' = w
      · subst heq
        rw [hw] at hrun
        cases hrun
        exact .inl (.inr rfl)
      · exact .inr ⟨w', by rw [Function.update_of_ne heq, hrun]⟩

end Tasks

theorem Accounted.stepped {p p' : ThreadPool n} (h : Accounted p.queue p.phase p.executed)
    (hstep : Stepped p p') : Accounted p'.queue p'.phase p'.executed := by
  cases hstep with
  | accepted running => exact h.accepted
  | exited w before stopped empty => exact h.exited before
  | taken w t rest before front => exact h.dequeued before front
  | finished w t before => exact h.finished before
  | rejected | stopped | cleared | passed | joined => exact h

/-! ## Stopping -/

/-- Workers have left only a stopped pool, with nothing to do. -/
def Drained (p : ThreadPool n) : Prop :=
  ∀ w, p.phase w = .exited → p.stop = true ∧ p.queue.waiting = []

theorem Drained.start : Drained ({} : ThreadPool n) := by
  intro w hw
  cases hw

theorem Drained.stepped {p p' : ThreadPool n} (h : p.Drained) (hstep : Stepped p p') :
    p'.Drained := by
  cases hstep with
  | rejected stopped => exact h
  | accepted running =>
      intro w hw
      rw [(h w hw).1] at running
      cases running
  | exited w before stopped empty => exact fun _ _ => ⟨stopped, empty⟩
  | taken w t rest before front =>
      intro w' hw'
      have hempty := (h w' (of_update hw' (by simp)).2).2
      rw [front] at hempty
      cases hempty
  | finished w t before =>
      intro w' hw'
      exact h w' (of_update hw' (by simp)).2
  | stopped c before => exact fun w hw => ⟨rfl, (h w hw).2⟩
  | cleared c i before last => exact h
  | passed c i w before worker done => exact h
  | joined c i w before worker done => exact h

/-- A worker leaves only then. -/
theorem Stepped.exit {p p' : ThreadPool n} (h : Stepped p p') {w : Fin n}
    (hbefore : p.phase w ≠ .exited) (hafter : p'.phase w = .exited) :
    p.stop = true ∧ p.queue.waiting = [] := by
  cases h with
  | exited w' before stopped empty => exact ⟨stopped, empty⟩
  | taken | finished => exact absurd (of_update hafter (by simp)).2 hbefore
  | rejected | accepted | stopped | cleared | passed | joined => exact absurd hafter hbefore

/-- A stopped pool stays stopped and accepts nothing. -/
theorem Stepped.stop {p p' : ThreadPool n} (h : Stepped p p') (hstop : p.stop = true) :
    p'.stop = true ∧ p'.queue.pushed = p.queue.pushed := by
  cases h with
  | accepted running =>
      rw [hstop] at running
      cases running
  | taken w t rest before front => exact ⟨hstop, Fifo.pushed_pop _ _⟩
  | stopped c before => exact ⟨rfl, rfl⟩
  | rejected | exited | finished | cleared | passed | joined => exact ⟨hstop, rfl⟩

/-! ## Joining -/

/-- Joined workers have left; a call of `shutdown` has joined those it is
past; and if `workers_` is empty, or a call has returned, all are joined. -/
structure Joins (p : ThreadPool n) : Prop where
  exited : ∀ w, p.joined w = true → p.phase w = .exited
  workers : p.workers = List.finRange n ∨ p.workers = [] ∧ ∀ w, p.joined w = true
  past : ∀ c i, p.calls c = .joining i → ∀ w ∈ p.workers.take i, p.joined w = true
  returned : ∀ c, p.calls c = .returned → ∀ w, p.joined w = true

theorem Joins.start : Joins ({} : ThreadPool n) where
  exited w h := by cases h
  workers := .inl rfl
  past c i h := by cases h
  returned c h := by cases h

/-- A worker that has not left goes on. -/
theorem Joins.phase {p p' : ThreadPool n} (h : p.Joins) {w : Fin n} (hw : p.phase w ≠ .exited)
    {x : Phase} (hphase : p'.phase = Function.update p.phase w x) (hjoined : p'.joined = p.joined)
    (hworkers : p'.workers = p.workers) (hcalls : p'.calls = p.calls) : p'.Joins := by
  refine ⟨fun w' hw' => ?_, ?_, ?_, ?_⟩
  · rw [hjoined] at hw'
    have hexit := h.exited w' hw'
    have hne : w' ≠ w := by
      rintro rfl
      exact hw hexit
    rw [hphase, Function.update_of_ne hne, hexit]
  · rw [hworkers, hjoined]
    exact h.workers
  · rw [hcalls, hworkers, hjoined]
    exact h.past
  · rw [hcalls, hjoined]
    exact h.returned

/-- A call goes one worker further, which is joined then. -/
theorem Joins.next {p : ThreadPool n} (h : p.Joins) {c i : Nat} {w : Fin n}
    (hc : p.calls c = .joining i) (hw : p.workers[i]? = some w) (hexit : p.phase w = .exited) :
    Joins { p with
      joined := Function.update p.joined w true
      calls := Function.update p.calls c (.joining (i + 1)) } := by
  have hmono : ∀ w', p.joined w' = true → Function.update p.joined w true w' = true := by
    intro w' hw'
    by_cases heq : w' = w
    · rw [heq, Function.update_self]
    · rw [Function.update_of_ne heq, hw']
  refine ⟨fun w' hw' => ?_,
    h.workers.imp_right fun hall => ⟨hall.1, fun w' => hmono w' (hall.2 w')⟩,
    fun c' j hc' w' hw' => ?_, fun c' hc' w' => ?_⟩
  · by_cases heq : w' = w
    · rw [heq, hexit]
    · simp only [Function.update_of_ne heq] at hw'
      exact h.exited w' hw'
  · by_cases heq : c' = c
    · subst heq
      simp only [Function.update_self, Shutdown.joining.injEq] at hc'
      subst hc'
      rw [List.take_add_one, hw, List.mem_append] at hw'
      rcases hw' with hw' | hw'
      · exact hmono w' (h.past c' i hc w' hw')
      · rw [Option.toList_some, List.mem_singleton] at hw'
        subst hw'
        exact Function.update_self _ _ _
    · simp only [Function.update_of_ne heq] at hc'
      exact hmono w' (h.past c' j hc' w' hw')
  · exact hmono w' (h.returned c' (of_update hc' (by simp)).2 w')

/-- A call at the end of the loop is past all workers. -/
theorem Joins.all {p : ThreadPool n} (h : p.Joins) {c i : Nat} (hc : p.calls c = .joining i)
    (hlast : p.workers.length ≤ i) (w : Fin n) : p.joined w = true := by
  rcases h.workers with hworkers | ⟨-, hall⟩
  · refine h.past c i hc w ?_
    rw [List.take_of_length_le hlast, hworkers]
    exact List.mem_finRange w
  · exact hall w

theorem Joins.stepped {p p' : ThreadPool n} (h : p.Joins) (hstep : Stepped p p') : p'.Joins := by
  cases hstep with
  | rejected stopped => exact h
  | accepted running => exact ⟨h.exited, h.workers, h.past, h.returned⟩
  | exited w before stopped empty => exact h.phase (by simp [before]) rfl rfl rfl rfl
  | taken w t rest before front => exact h.phase (by simp [before]) rfl rfl rfl rfl
  | finished w t before => exact h.phase (by simp [before]) rfl rfl rfl rfl
  | stopped c before =>
      refine ⟨h.exited, h.workers, fun c' i hc' w hw => ?_, fun c' hc' => ?_⟩
      · by_cases heq : c' = c
        · subst heq
          simp only [Function.update_self, Shutdown.joining.injEq] at hc'
          subst hc'
          cases hw
        · simp only [Function.update_of_ne heq] at hc'
          exact h.past c' i hc' w hw
      · exact h.returned c' (of_update hc' (by simp)).2
  | cleared c i before last =>
      have hall := h.all before last
      exact ⟨h.exited, .inr ⟨rfl, hall⟩, fun _ _ _ w _ => hall w, fun _ _ => hall⟩
  | passed c i w before worker done =>
      have hsame : Function.update p.joined w true = p.joined := by
        rw [← done, Function.update_eq_self]
      have hnext := h.next before worker (h.exited w done)
      rwa [hsame] at hnext
  | joined c i w before worker done => exact h.next before worker done

/-! ## Runs -/

/-- The run lemma. -/
theorem invariant {events : List (Event n)} {p : ThreadPool n}
    (h : follow step ({} : ThreadPool n) events = some p) :
    Accounted p.queue p.phase p.executed ∧ p.Drained ∧ p.Joins := by
  refine follow_inv (I := fun p : ThreadPool n =>
    Accounted p.queue p.phase p.executed ∧ p.Drained ∧ p.Joins) ?_
    ⟨.start, .start, .start⟩ h
  rintro p e p' ⟨htasks, hdrained, hjoins⟩ hstep
  exact ⟨htasks.stepped (stepped hstep), hdrained.stepped (stepped hstep),
    hjoins.stepped (stepped hstep)⟩

/-- When all workers have left, all accepted tasks have been run. -/
theorem executed_perm {p : ThreadPool n} (hn : 0 < n)
    (htasks : Accounted p.queue p.phase p.executed) (hdrained : p.Drained)
    (hall : ∀ w, p.phase w = .exited) : p.executed.Perm p.queue.pushed := by
  have hempty := (hdrained ⟨0, hn⟩ (hall _)).2
  have hpushed : p.queue.pushed = p.queue.done := by rw [Fifo.pushed, hempty, List.append_nil]
  rw [List.perm_ext_iff_of_nodup htasks.once htasks.nodup, hpushed]
  intro t
  refine ⟨htasks.taken t, fun ht => (htasks.covered t ht).resolve_right ?_⟩
  rintro ⟨w, hw⟩
  rw [hall w] at hw
  cases hw

/-- A worker of a stopped pool that has not left has a step to take. -/
theorem exists_step_of_stop {p : ThreadPool n} (hstop : p.stop = true) {w : Fin n}
    (hw : p.phase w ≠ .exited) :
    (p.step (.dequeue w)).isSome = true ∨ (p.step (.finish w)).isSome = true := by
  cases hphase : p.phase w with
  | waiting =>
      left
      cases hq : p.queue.waiting <;> simp [step, hphase, hstop, hq]
  | running t =>
      right
      simp [step, hphase]
  | exited => exact absurd hphase hw

/-- **The pool drains exactly once.** In any interleaving of `enqueue` calls,
the workers' steps and calls of `shutdown`, with at least one worker: tasks
are taken in the order they were accepted; none is run twice, by one worker
or by two; a worker leaves only a stopped pool with an empty queue; a stopped
pool accepts nothing; a call of `shutdown` that returns has joined all
workers; and when all are joined, every accepted task has been run exactly
once. -/
theorem pool_drains_once (hn : 0 < n) (events : List (Event n)) (p : ThreadPool n)
    (h : follow step ({} : ThreadPool n) events = some p) :
    p.queue.pushed = List.range p.queue.pushed.length ∧
      p.queue.done = List.range p.queue.done.length ∧
      p.executed.Nodup ∧
      (∀ w w' t, p.phase w = .running t →
        t ∉ p.executed ∧ (p.phase w' = .running t → w = w')) ∧
      (∀ e p' w, p.step e = some p' → p.phase w ≠ .exited → p'.phase w = .exited →
        p.stop = true ∧ p.queue.waiting = []) ∧
      (p.stop = true → ∀ more p', follow step p more = some p' →
        p'.queue.pushed = p.queue.pushed) ∧
      (∀ c, p.calls c = .returned → ∀ w, p.joined w = true) ∧
      ((∀ w, p.joined w = true) → p.executed.Perm p.queue.pushed) := by
  obtain ⟨htasks, hdrained, hjoins⟩ := invariant h
  refine ⟨htasks.numbered, htasks.done_eq, htasks.once,
    fun w w' t hw => ⟨(htasks.running w t hw).2, htasks.alone w w' t hw⟩,
    fun e p' w hstep => (stepped hstep).exit, fun hstop more p' hmore => ?_, hjoins.returned,
    fun hall => executed_perm hn htasks hdrained fun w => hjoins.exited w (hall w)⟩
  have hinv := follow_inv (I := fun q : ThreadPool n => q.stop = true ∧
    q.queue.pushed = p.queue.pushed) ?_ ⟨hstop, rfl⟩ hmore
  · exact hinv.2
  · rintro q e q' ⟨hq, hpushed⟩ hstep
    obtain ⟨hq', hsame⟩ := (stepped hstep).stop hq
    exact ⟨hq', hsame.trans hpushed⟩

/-- Two workers, three tasks and two calls of `shutdown`. -/
theorem pool_drains_once_three :
    ∃ p : ThreadPool 2, follow step ({} : ThreadPool 2)
        [.enqueue, .enqueue, .dequeue 1, .enqueue, .dequeue 0, .finish 0, .shutdown 7, .enqueue,
          .dequeue 0, .finish 0, .dequeue 0, .join 7, .shutdown 8, .finish 1, .dequeue 1, .join 7,
          .join 8, .join 7, .join 8] = some p ∧
      p.executed.Perm p.queue.pushed := by
  obtain ⟨p, hrun, hcall⟩ := (Option.any_eq_true
    (fun p : ThreadPool 2 => decide (p.calls 7 = .returned))
    (follow step ({} : ThreadPool 2)
      [.enqueue, .enqueue, .dequeue 1, .enqueue, .dequeue 0, .finish 0, .shutdown 7, .enqueue,
        .dequeue 0, .finish 0, .dequeue 0, .join 7, .shutdown 8, .finish 1, .dequeue 1, .join 7,
        .join 8, .join 7, .join 8])).mp (by decide +kernel)
  obtain ⟨-, -, -, -, -, -, hreturned, hperm⟩ := pool_drains_once (by decide : 0 < 2) _ p hrun
  exact ⟨p, hrun, hperm (hreturned 7 (of_decide_eq_true hcall))⟩

end ThreadPool

end RedisCache.Concurrency
