import Mathlib
import RedisCache.Commands.Dictionary
import RedisCache.Network.Sessions
import RedisCache.Persistence.Aof
import RedisCache.Persistence.Reload

/-!
# The server

`Server::run`: the files are read into an empty store — the snapshot first,
then the whole log, through the dispatcher — and the event loop takes over.
`Aof::append` is not called from there or from anywhere else, so the log
stays what it was when it was opened.

The dispatcher keeps a list of the requests it was given, which the program
does not have. Metrics, logging, the worker pool (which is given no work) and
the maintenance thread are left out.
-/

namespace RedisCache.Server

open Loop Sections Protocol Storage Commands Network Persistence

/-- The settings that matter here. -/
structure Config where
  maxKeys : Nat
  rdbEnabled : Bool := true
  aofEnabled : Bool := false

/-- The files at `rdb_path` and `aof_path`. -/
structure Disk where
  rdb : Option Bytes := none
  aof : Option Bytes := none

/-- `Aof::open` creates a missing file. -/
def Disk.openAof (disk : Disk) : Disk := { disk with aof := some (disk.aof.getD []) }

/-- `if (cfg_.rdb_enabled) rdb_.load(store_)`. -/
def loadSnapshot (P : Platform) (cfg : Config) (junk : Nat → UInt8) (disk : Disk)
    (w : World Index Shard) : Option (World Index Shard) :=
  if cfg.rdbEnabled then
    match (Rdb.load P cfg.maxKeys junk disk.rdb).run w with
    | (none, _) => none
    | (some _, w) => some w
  else some w

/-- `if (cfg_.aof_enabled) { aof_.open(); aof_.replay(..) }`. -/
def replayLog (P : Platform) (cfg : Config) (disk : Disk) (w : World Index Shard) :
    Option (Except Exn (World Index Shard × Disk)) :=
  if cfg.aofEnabled then
    (Aof.replay P (Aof.executor P cfg.maxKeys) disk.openAof.aof w).map fun r =>
      r.map fun x => (x.2, disk.openAof)
  else some (.ok (w, disk))

/-- The store the server starts with, and the files. -/
def recover (P : Platform) (cfg : Config) (junk : Nat → UInt8) (disk : Disk)
    (clock : Nat → Int) : Option (Except Exn (World Index Shard × Disk)) :=
  match loadSnapshot P cfg junk disk ⟨clock, Store.empty⟩ with
  | none => none
  | some w => replayLog P cfg disk w

/-- A running server. -/
structure State where
  loop : EventLoop (World Index Shard × List RespValue)
  disk : Disk

namespace State

def store (srv : State) : World Index Shard := srv.loop.store.1

/-- The requests executed so far. -/
def requests (srv : State) : List RespValue := srv.loop.store.2

end State

/-- `Server::run`, up to the end of the event loop. -/
def run (P : Platform) (cfg : Config) (junk : Nat → UInt8) (disk : Disk) (clock : Nat → Int)
    (polls : List (List Ready)) : Option (Except Exn State) :=
  match recover P cfg junk disk clock with
  | none => none
  | some (.error e) => some (.error e)
  | some (.ok (w, disk)) =>
      (EventLoop.run P (Conn.logged (Conn.dispatcher P cfg.maxKeys)) { store := (w, []) } polls).map
        fun r => r.map fun loop => { loop := loop, disk := disk }

/-! ## What the event loop leaves behind -/

/-- Requests that are served with the clock standing still. -/
theorem serve_still (P : Platform) (maxKeys : Nat) (now : Int) (vs : List RespValue) (s : Shards) :
    (Conn.serve (Conn.dispatcher P maxKeys) vs ⟨fun _ => now, s⟩).2 =
      ⟨fun _ => now, playFrom P maxKeys s (still now vs)⟩ := by
  induction vs generalizing s with
  | nil => rfl
  | cons v vs ih =>
      have hstep : (Conn.dispatcher P maxKeys v ⟨fun _ => now, s⟩).2 =
          ⟨fun _ => now, Turn.next P maxKeys s ⟨fun _ => now, some v⟩⟩ := by
        rw [Conn.dispatcher, Prog.run_const]
        rfl
      rw [Conn.serve, hstep]
      exact ih _

/-- **The store is the requests executed**: after any run at one clock reading,
over any connections, it is the store that plays them one by one. -/
theorem run_store (P : Platform) (cfg : Config) (junk : Nat → UInt8) (disk : Disk) (now : Int)
    {s : Shards} {disk' : Disk}
    (hrecover : recover P cfg junk disk (fun _ => now) = some (.ok (⟨fun _ => now, s⟩, disk')))
    {polls : List (List Ready)} {srv : State}
    (hrun : run P cfg junk disk (fun _ => now) polls = some (.ok srv)) :
    srv.store.cells = playFrom P cfg.maxKeys s (still now srv.requests) ∧ srv.disk = disk' := by
  rw [run, hrecover] at hrun
  obtain ⟨r, hloop, hr⟩ := Option.map_eq_some_iff.mp hrun
  cases r with
  | error e => cases hr
  | ok L =>
      cases hr
      obtain ⟨vs, hvs⟩ := EventLoop.store_run P _ (EventLoop.Sound.start _) hloop
      rw [Conn.serve_logged, serve_still] at hvs
      rw [State.store, State.requests, hvs]
      exact ⟨by rw [List.nil_append], rfl⟩

end RedisCache.Server
