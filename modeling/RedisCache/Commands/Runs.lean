import Mathlib
import RedisCache.Commands.Requests

/-!
# Runs of commands

The server as it runs by itself: one request after the other, with sweeps in
between, each with the clock readings it takes.
-/

namespace RedisCache.Commands

open Sections Protocol Storage

/-- What happens next: a request, or (`none`) a sweep. -/
structure Turn where
  clock : Nat → Int
  request : Option RespValue

namespace Turn

/-- A turn of words, the clock standing still. -/
def ofWords (now : Int) (words : List String) : Turn := ⟨fun _ => now, some (requestOf words)⟩

def sweep (now : Int) : Turn := ⟨fun _ => now, none⟩

def prog (P : Platform) (maxKeys : Nat) (t : Turn) : StoreProg Bytes :=
  match t.request with
  | some req => dispatch P maxKeys req
  | none => do
      Store.sweepExpired
      pure []

/-- The store after a turn. -/
def next (P : Platform) (maxKeys : Nat) (s : Shards) (t : Turn) : Shards :=
  ((t.prog P maxKeys).run ⟨t.clock, s⟩).2.cells

/-- A request and its reply. -/
def exchange (P : Platform) (maxKeys : Nat) (s : Shards) (t : Turn) : Option (RespValue × Bytes) :=
  t.request.map fun req => (req, ((t.prog P maxKeys).run ⟨t.clock, s⟩).1)

end Turn

/-- The store after a run that starts with `s`. -/
def playFrom (P : Platform) (maxKeys : Nat) (s : Shards) (turns : List Turn) : Shards :=
  turns.foldl (Turn.next P maxKeys) s

/-- The store after a run that starts empty. -/
def play (P : Platform) (maxKeys : Nat) (turns : List Turn) : Shards :=
  playFrom P maxKeys Store.empty turns

/-- The requests of a run with their replies. -/
def transcript (P : Platform) (maxKeys : Nat) : Shards → List Turn → List (RespValue × Bytes)
  | _, [] => []
  | s, t :: turns =>
      (t.exchange P maxKeys s).toList ++ transcript P maxKeys (t.next P maxKeys s) turns

section Runs

variable (P : Platform) (maxKeys : Nat)

theorem Turn.prog_safe (t : Turn) : Safe (Valid P) (t.prog P maxKeys) := by
  unfold Turn.prog
  split
  · exact dispatch_safe P maxKeys _
  · exact Safe.bind (Store.sweepExpired_safe P) fun _ => Safe.pure _

theorem Turn.next_valid (t : Turn) {s : Shards} (hs : ∀ i, Valid P i (s i)) :
    ∀ i, Valid P i (t.next P maxKeys s i) :=
  (t.prog_safe P maxKeys).run (w := ⟨t.clock, s⟩) hs

theorem Turn.next_request {t : Turn} {req : RespValue} (h : t.request = some req) (s : Shards) :
    t.next P maxKeys s = (((commandOf req).prog P maxKeys).run ⟨t.clock, s⟩).2.cells := by
  rw [Turn.next, Turn.prog, h]
  simp only [dispatch_eq]

theorem Turn.next_sweep {t : Turn} (h : t.request = none) (s : Shards) :
    t.next P maxKeys s = (Store.sweepExpired.run ⟨t.clock, s⟩).2.cells := by
  rw [Turn.next, Turn.prog, h]
  simp only [Prog.run_bind, Prog.run_pure]

theorem Turn.exchange_request {t : Turn} {req : RespValue} (h : t.request = some req)
    (s : Shards) :
    t.exchange P maxKeys s =
      some (req, (((commandOf req).prog P maxKeys).run ⟨t.clock, s⟩).1) := by
  rw [Turn.exchange, Turn.prog, h, Option.map_some]
  simp only [dispatch_eq]

theorem Turn.exchange_sweep {t : Turn} (h : t.request = none) (s : Shards) :
    t.exchange P maxKeys s = none := by
  rw [Turn.exchange, h, Option.map_none]

theorem playFrom_append (s : Shards) (a b : List Turn) :
    playFrom P maxKeys s (a ++ b) = playFrom P maxKeys (playFrom P maxKeys s a) b :=
  List.foldl_append

theorem playFrom_valid {s : Shards} (hs : ∀ i, Valid P i (s i)) (turns : List Turn) :
    ∀ i, Valid P i (playFrom P maxKeys s turns i) := by
  induction turns generalizing s with
  | nil => exact hs
  | cons t turns ih => exact ih (t.next_valid P maxKeys hs)

theorem play_append (turns : List Turn) (t : Turn) :
    play P maxKeys (turns ++ [t]) = t.next P maxKeys (play P maxKeys turns) :=
  playFrom_append P maxKeys Store.empty turns [t]

theorem play_valid (turns : List Turn) : ∀ i, Valid P i (play P maxKeys turns i) :=
  playFrom_valid P maxKeys (Store.empty_valid P) turns

theorem transcript_append (s : Shards) (a b : List Turn) :
    transcript P maxKeys s (a ++ b) =
      transcript P maxKeys s a ++ transcript P maxKeys (playFrom P maxKeys s a) b := by
  induction a generalizing s with
  | nil => rfl
  | cons t a ih =>
      rw [List.cons_append, transcript, ih, transcript, List.append_assoc]
      rfl

end Runs

end RedisCache.Commands
