import Mathlib
import RedisCache.Commands.Arguments
import RedisCache.Lib.Loop
import RedisCache.Protocol.Bounds

/-!
# The append-only file

`Aof.cpp`. `append` writes a command as an array of bulk strings, whatever
its arguments were; `replay` parses the file from the front and hands each
command to an executor, up to the first one that is not whole.

The disk can fail in the middle of a write. What is then in the file is a
front part of what should be (`appendAll_bytes`), and so is what a crash
leaves. `replay_spec` says what `replay` does with any file at all,
`replay_log` what it does with a log that was cut anywhere.
-/

namespace RedisCache.Persistence

open Loop Framing Sections Protocol Commands Storage

namespace Aof

/-! ## Appending -/

/-- The file behind `file_`. A stream that has failed takes nothing more. -/
structure Log where
  bytes : Bytes := []
  good : Bool := true

/-- How the disk takes the `write` and the `flush` of one command. After an
error the first `n` bytes are there. -/
inductive Disk where
  | ok
  | writeError (n : Nat)
  | flushError (n : Nat)

def wire (cmd : RespValue) : Bytes :=
  ascii "*" ++ Decimal.ofInt cmd.array.length ++ crlf ++
    cmd.array.flatMap fun arg => RespSerializer.bulk arg.str

/-- `Aof::append`. The stream is checked behind `write`, not behind `flush`. -/
def append (log : Log) (cmd : RespValue) (disk : Disk) : Bool × Log :=
  if cmd.type ≠ .array then (false, log)
  else if !log.good then (false, log)
  else
    match disk with
    | .ok => (true, { log with bytes := log.bytes ++ wire cmd })
    | .writeError n => (false, ⟨log.bytes ++ (wire cmd).take n, false⟩)
    | .flushError n => (true, ⟨log.bytes ++ (wire cmd).take n, false⟩)

/-- One call after the other, with what each returned. -/
def appendAll : Log → List (RespValue × Disk) → List Bool × Log
  | log, [] => ([], log)
  | log, (cmd, disk) :: calls =>
      let rest := appendAll (append log cmd disk).2 calls
      ((append log cmd disk).1 :: rest.1, rest.2)

def commands (calls : List (RespValue × Disk)) : List RespValue := calls.map Prod.fst

/-- All calls returned `true`. -/
def Accepted (log : Log) (calls : List (RespValue × Disk)) : Prop :=
  ∀ b ∈ (appendAll log calls).1, b = true

instance (log : Log) (calls : List (RespValue × Disk)) : Decidable (Accepted log calls) :=
  inferInstanceAs (Decidable (∀ b ∈ (appendAll log calls).1, b = true))

theorem accepted_cons {log : Log} {cmd : RespValue} {disk : Disk}
    {calls : List (RespValue × Disk)} :
    Accepted log ((cmd, disk) :: calls) ↔
      (append log cmd disk).1 = true ∧ Accepted (append log cmd disk).2 calls := by
  simp [Accepted, appendAll]

/-- What a call that returns `true` has done. -/
theorem append_true {log : Log} {cmd : RespValue} {disk : Disk}
    (h : (append log cmd disk).1 = true) :
    cmd.type = .array ∧ log.good = true ∧
      (append log cmd disk).2.bytes <+: log.bytes ++ wire cmd ∧
      ((append log cmd disk).2.good = true →
        (append log cmd disk).2.bytes = log.bytes ++ wire cmd) := by
  unfold append at h ⊢
  split at h
  · cases h
  · rename_i htype
    split at h
    · cases h
    · rename_i hgood
      simp only [htype, hgood, if_false]
      refine ⟨by simpa using htype, by simpa using hgood, ?_⟩
      cases disk with
      | ok => exact ⟨List.prefix_rfl, fun _ => rfl⟩
      | writeError n => cases h
      | flushError n =>
          refine ⟨?_, fun hg => by cases hg⟩
          exact (List.prefix_append_right_inj _).mpr (List.take_prefix n _)

theorem accepted_type {log : Log} {calls : List (RespValue × Disk)} (h : Accepted log calls) :
    ∀ c ∈ commands calls, c.type = .array := by
  induction calls generalizing log with
  | nil => simp [commands]
  | cons call calls ih =>
      obtain ⟨cmd, disk⟩ := call
      obtain ⟨hfirst, hrest⟩ := accepted_cons.mp h
      intro c hc
      rcases List.mem_cons.mp hc with rfl | hc
      · exact (append_true hfirst).1
      · exact ih hrest c hc

/-- The file is a front part of the commands written out: a `flush` that fails
unnoticed is the last thing that happens to it. -/
theorem appendAll_bytes {log : Log} {calls : List (RespValue × Disk)} (h : Accepted log calls) :
    (appendAll log calls).2.bytes <+: log.bytes ++ (commands calls).flatMap wire := by
  induction calls generalizing log with
  | nil => simp [appendAll, commands]
  | cons call calls ih =>
      obtain ⟨cmd, disk⟩ := call
      obtain ⟨hfirst, hrest⟩ := accepted_cons.mp h
      obtain ⟨-, -, hcut, hwhole⟩ := append_true hfirst
      simp only [appendAll, commands, List.map_cons, List.flatMap_cons]
      rw [← List.append_assoc]
      cases calls with
      | nil => exact hcut.trans (List.prefix_append _ _)
      | cons next calls =>
          -- another call went through, so the stream was still good
          obtain ⟨hnext, -⟩ := accepted_cons.mp hrest
          rw [← hwhole (append_true hnext).2.1]
          exact ih hrest

/-! ## Replaying -/

variable {σ : Type}

/-- What is left of the file, the commands counted, and the store. -/
structure Replay (σ : Type) where
  view : Bytes
  count : Nat
  store : σ

def replayTurn (P : Platform) (executor : RespValue → σ → σ) (x : Replay σ) :
    Turn (Replay σ) (Except Exn (Nat × σ)) :=
  if x.view.isEmpty then .exit (.ok (x.count, x.store))
  else
    match parse P x.view with
    | .error e => .exit (.error e)
    | .ok res =>
        match res.status with
        | .incomplete => .exit (.ok (x.count, x.store))
        | .error => .exit (.ok (x.count, x.store))
        | .ok => .again ⟨x.view.drop res.consumed, x.count + 1, executor res.value x.store⟩

/-- `Aof::replay`; `none` when there is no file. -/
def replay (P : Platform) (executor : RespValue → σ → σ) (file : Option Bytes) (s : σ) :
    Option (Except Exn (Nat × σ)) :=
  match file with
  | none => some (.ok (0, s))
  | some content => run (replayTurn P executor) (content.length + 1) ⟨content, 0, s⟩

/-- The commands that `scan` finds have been executed and counted. An exception
from the parser escapes; malformed input only ends the loop. -/
def Replay.Outcome (P : Platform) (executor : RespValue → σ → σ) (x : Replay σ)
    (r : Except Exn (Nat × σ)) : Prop :=
  match scan (verdict P) x.view with
  | (_, rest, .raised) => ∃ e, parse P rest = .error e ∧ r = .error e
  | (vs, _, _) => r = .ok (x.count + vs.length, vs.foldl (fun s v => executor v s) x.store)

/-- A turn leaves, or has executed one command and removed its bytes. -/
theorem replayTurn_cases (P : Platform) (executor : RespValue → σ → σ) (x : Replay σ)
    (h : x.view.length < sizeLimit) :
    (∃ r, replayTurn P executor x = .exit r ∧ x.Outcome P executor r) ∨
    ∃ v n, 0 < n ∧ n ≤ x.view.length ∧
      replayTurn P executor x = .again ⟨x.view.drop n, x.count + 1, executor v x.store⟩ ∧
      ∀ r, Replay.Outcome P executor ⟨x.view.drop n, x.count + 1, executor v x.store⟩ r →
        x.Outcome P executor r := by
  unfold replayTurn
  split
  · rename_i hnil
    rw [List.isEmpty_iff] at hnil
    exact Or.inl ⟨_, rfl, by simp [Replay.Outcome, hnil, scan_nil]⟩
  · rename_i hne
    rw [List.isEmpty_iff] at hne
    have hscan := scan_cons (verdict_progress P) hne h
    rcases answer P h with
      ⟨v, n, hparse, hv, hpos, hn⟩ | ⟨v, n, hparse, hv⟩ | ⟨v, n, hparse, hv⟩ | ⟨e, hparse, hv⟩
    · refine Or.inr ⟨v, n, hpos, hn, by simp only [hparse], fun r => ?_⟩
      simp only [Replay.Outcome, hscan, hv]
      cases hrest : scan (verdict P) (x.view.drop n) with
      | mk vs tail =>
          obtain ⟨rest, stop⟩ := tail
          cases stop <;> simp [Nat.add_comm, Nat.add_left_comm]
    · exact Or.inl ⟨_, by simp only [hparse]; rfl, by simp [Replay.Outcome, hscan, hv]⟩
    · exact Or.inl ⟨_, by simp only [hparse]; rfl, by simp [Replay.Outcome, hscan, hv]⟩
    · exact Or.inl ⟨_, by simp only [hparse]; rfl, by simp [Replay.Outcome, hparse, hscan, hv]⟩

/-- The loop ends, having done that, on every file. -/
theorem replay_spec (P : Platform) (executor : RespValue → σ → σ) {content : Bytes}
    (h : content.length < sizeLimit) (s : σ) :
    ∃ r, replay P executor (some content) s = some r ∧
      Replay.Outcome P executor ⟨content, 0, s⟩ r := by
  refine run_spec (I := fun x : Replay σ => x.view.length < sizeLimit)
    (m := fun x => x.view.length) (Q := fun x r => x.Outcome P executor r) ?_ h
    (Nat.lt_succ_self _)
  intro x hlimit
  rcases replayTurn_cases P executor x hlimit with hexit | ⟨v, n, hpos, hn, hagain, hout⟩
  · exact Or.inl hexit
  · have hlen : (x.view.drop n).length < x.view.length := by
      rw [List.length_drop]
      omega
    exact Or.inr ⟨_, hagain, hlen.trans hlimit, hlen, hout⟩

/-! ## A log that was cut -/

/-- The command as `append` writes it, as a protocol value. -/
def recorded (cmd : RespValue) : Resp := .array (cmd.array.map fun arg => .bulkString arg.str)

/-- The command fits the containers it is read back into. Every command the
parser has built does. -/
def Holds (P : Platform) (cmd : RespValue) : Prop :=
  cmd.array.length ≤ P.reserveLimit ∧ ∀ arg ∈ cmd.array, arg.str.length < 2 ^ 63

theorem recorded_encode (cmd : RespValue) : (recorded cmd).encode = wire cmd := by
  rw [recorded, Resp.encode, Resp.encodeAll_eq_flatMap, List.length_map, List.flatMap_map]
  rfl

theorem recorded_toValue (cmd : RespValue) : (recorded cmd).toValue = asBulks cmd := by
  rw [recorded, Resp.toValue, Resp.toValues_eq_map, List.map_map]
  rfl

theorem recorded_fits {P : Platform} {cmd : RespValue} (h : Holds P cmd) :
    (recorded cmd).Fits P := by
  refine ⟨by simpa using h.1, (Resp.fitsAll_iff P _).mpr fun v hv => ?_⟩
  obtain ⟨arg, harg, rfl⟩ := List.mem_map.mp hv
  exact h.2 arg harg

theorem recorded_stream {P : Platform} {cs : List RespValue} (hcs : ∀ c ∈ cs, Holds P c) :
    (∀ v ∈ cs.map recorded, v.Fits P) ∧
      cs.flatMap wire = (cs.map recorded).flatMap Resp.encode := by
  constructor
  · intro v hv
    obtain ⟨c, hc, rfl⟩ := List.mem_map.mp hv
    exact recorded_fits (hcs c hc)
  · rw [List.flatMap_map]
    exact List.flatMap_congr fun c _ => (recorded_encode c).symm

/-- Whole commands and then a piece of one: `replay` executes the whole ones. -/
theorem replay_log (P : Platform) (executor : RespValue → σ → σ) {cs : List RespValue}
    (hcs : ∀ c ∈ cs, Holds P c) {r : Bytes}
    (hr : r = [] ∨ ∃ c, Holds P c ∧ CutOf r (wire c))
    (hlen : (cs.flatMap wire ++ r).length < sizeLimit) (s : σ) :
    replay P executor (some (cs.flatMap wire ++ r)) s =
      some (.ok (cs.length, cs.foldl (fun s c => executor (asBulks c) s) s)) := by
  obtain ⟨hfits, hwire⟩ := recorded_stream hcs
  have hrem : Remnant (Resp.Fits P) Resp.encode r := by
    refine hr.imp id ?_
    rintro ⟨c, hc, hcut⟩
    exact ⟨recorded c, recorded_fits hc, recorded_encode c ▸ hcut⟩
  obtain ⟨x, hrun, hout⟩ := replay_spec P executor hlen s
  rw [hwire] at hlen
  rw [Replay.Outcome, hwire, (verdict_code P).scan_stream (verdict_progress P) hfits hrem hlen]
    at hout
  simp only [List.foldl_map, recorded_toValue, List.length_map, Nat.zero_add] at hout
  rw [hrun, hout]

/-- The executor of `Server::run`. -/
def executor (P : Platform) (maxKeys : Nat) (cmd : RespValue) (w : World Index Shard) :
    World Index Shard :=
  ((dispatch P maxKeys cmd).run w).2

/-- **A torn log replays up to the tear**: wherever the file of an accepted list
of commands is cut, `replay` executes and counts exactly the commands that
are whole in what is left, in order. They come back with bulk strings for
arguments, and through the dispatcher that makes no difference to the store. -/
theorem replay_torn (P : Platform) (calls : List (RespValue × Disk)) (hok : Accepted {} calls)
    (hfit : ∀ c ∈ commands calls, Holds P c) (p : Bytes)
    (hp : p <+: (appendAll {} calls).2.bytes) (hlen : p.length < sizeLimit) :
    ∃ j, IsGreatest {k | k ≤ (commands calls).length ∧
        ((commands calls).take k).flatMap wire <+: p} j ∧
      (∀ (σ : Type) (exec : RespValue → σ → σ) (s : σ), replay P exec (some p) s =
        some (.ok (j, ((commands calls).take j).foldl (fun s c => exec (asBulks c) s) s))) ∧
      ∀ (maxKeys : Nat) (w : World Index Shard), replay P (executor P maxKeys) (some p) w =
        some (.ok (j, ((commands calls).take j).foldl (fun w c => executor P maxKeys c w) w)) := by
  have htype := accepted_type hok
  have hlog := appendAll_bytes hok
  generalize commands calls = cs at *
  obtain ⟨cs₁, cs₂, r, rfl, rfl, hr⟩ :=
    split_stream wire cs [] (by simpa using hp.trans hlog)
  simp only [List.prefix_nil] at hr
  have hrem : r = [] ∨ ∃ c, Holds P c ∧ CutOf r (wire c) := by
    rcases hr with ⟨-, hnil⟩ | ⟨c, cs', rfl, hcut⟩
    · exact Or.inl hnil
    · exact Or.inr ⟨c, hfit c (by simp), hcut⟩
  have hcs₁ : ∀ c ∈ cs₁, Holds P c := fun c hc => hfit c (by simp [hc])
  refine ⟨cs₁.length, isGreatest_whole wire cs₁ hr, fun σ exec s => ?_, fun maxKeys w => ?_⟩
  · rw [replay_log P exec hcs₁ hrem hlen, List.take_left]
  · rw [replay_log P _ hcs₁ hrem hlen, List.take_left]
    congr 3
    refine List.foldl_ext _ _ _ fun w c hc => ?_
    exact dispatch_asBulks P maxKeys (htype c (by simp [hc])) w

/-- Two `PING`s, the second one lost behind its first byte. -/
def tornCalls : List (RespValue × Disk) :=
  [({ type := .array, array := [{ type := .simpleString, str := ascii "PING" }] }, .ok),
   ({ type := .array, array := [{ type := .simpleString, str := ascii "PING" }] }, .flushError 1)]

theorem replay_torn_ping :
    ∃ j, replay .concrete (fun _ n => n + 1) (some (appendAll {} tornCalls).2.bytes) 0 =
      some (.ok (j, ((commands tornCalls).take j).foldl (fun n _ => n + 1) 0)) := by
  have hfit : ∀ c ∈ commands tornCalls, Holds .concrete c := by
    intro c hc
    simp only [commands, tornCalls, List.map_cons, List.map_nil, List.mem_cons,
      List.not_mem_nil, or_false, or_self] at hc
    subst hc
    refine ⟨by decide, fun arg harg => ?_⟩
    obtain rfl := List.mem_singleton.mp harg
    decide
  obtain ⟨j, -, hreplay, -⟩ := replay_torn .concrete tornCalls (by decide) hfit _
    List.prefix_rfl (by decide)
  exact ⟨j, hreplay Nat (fun _ n => n + 1) 0⟩

end Aof

end RedisCache.Persistence
