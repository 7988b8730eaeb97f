import Mathlib

/-!
# First in, first out

A queue with its history: what has left it, in order, and what is waiting.
Everything that ever entered is the one followed by the other, so that
"nothing is lost, duplicated or overtaken" is how the queue is built; what a
program keeps of it is `waiting`.
-/

structure Fifo (α : Type*) where
  done : List α := []
  waiting : List α := []

namespace Fifo

variable {α : Type*}

/-- All that ever entered. -/
def pushed (q : Fifo α) : List α := q.done ++ q.waiting

def push (q : Fifo α) (xs : List α) : Fifo α := { q with waiting := q.waiting ++ xs }

/-- The first `n` leave. -/
def pop (q : Fifo α) (n : Nat) : Fifo α :=
  { done := q.done ++ q.waiting.take n, waiting := q.waiting.drop n }

@[simp] theorem pushed_push (q : Fifo α) (xs : List α) : (q.push xs).pushed = q.pushed ++ xs := by
  simp only [pushed, push, List.append_assoc]

@[simp] theorem pushed_pop (q : Fifo α) (n : Nat) : (q.pop n).pushed = q.pushed := by
  simp only [pushed, pop, List.append_assoc, List.take_append_drop]

theorem done_prefix (q : Fifo α) : q.done <+: q.pushed := List.prefix_append _ _

theorem waiting_eq (q : Fifo α) : q.waiting = q.pushed.drop q.done.length := by
  rw [pushed, List.drop_left]

theorem length_done_pop {q : Fifo α} {n : Nat} (h : n ≤ q.waiting.length) :
    (q.pop n).done.length = q.done.length + n := by
  rw [pop, List.length_append, List.length_take, Nat.min_eq_left h]

end Fifo
