import Mathlib
import RedisCache.Lib.Assignments
import RedisCache.Lib.Numerals
import RedisCache.Lib.Text
import RedisCache.Server.Startup

/-!
# The settings

`Config.cpp` and the first lines of `main`: the defaults, the configuration
file and the command line. Both are assignments of texts to the fields of
`Config`, and all of them together are one list of assignments (`given`): the
last one to a field counts, and the first one whose text is no number where a
number is wanted ends the process (`configure_last_wins`).

What the file may look like is said the other way round, by how it is written:
`Line` is any line with blanks and remarks wherever they may stand, and
`fromFile_page` reads the settings back from any such page.
-/

namespace RedisCache.Server

open Decimal Assignments

/-- All of `Config`, with its defaults. -/
structure Settings extends Config where
  maxKeys := 1000000
  host : Bytes := ascii "0.0.0.0"
  port : UInt16 := 6399
  backlog : Int := 1024
  workerThreads : Nat := 4
  rdbPath : Bytes := ascii "dump.rdb"
  rdbIntervalSecs : Int := 300
  aofPath : Bytes := ascii "appendonly.aof"
  metricsEnabled : Bool := true
  metricsPort : UInt16 := 9999
  logLevel : Bytes := ascii "info"
  logFile : Bytes := []
  sweepIntervalMs : Int := 1000

/-! ## The file -/

/-- One of `" \t\r\n"`. -/
def isBlank (b : UInt8) : Bool := b == 32 || b == 9 || b == 13 || b == 10

def trim (s : Bytes) : Bytes := Text.trim isBlank s

/-- `val == "true" || val == "1"`. -/
def isTrue (val : Bytes) : Bool := val == ascii "true" || val == ascii "1"

/-- The key and the value of a line: what stands before a `#`, cut at the first
`=`. -/
def entryOf (line : Bytes) : Option (Bytes × Bytes) :=
  let line := match Text.cut 35 line with
    | some (code, _) => code
    | none => line
  let line := trim line
  if line = [] then none
  else (Text.cut 61 line).map fun (key, val) => (trim key, trim val)

namespace Settings

/-- The chain of comparisons in `from_file`. -/
def assign (cfg : Settings) (key val : Bytes) : Except Errc Settings :=
  if key = ascii "host" then .ok { cfg with host := val }
  else if key = ascii "port" then (stoi val).map fun n => { cfg with port := .ofInt n }
  else if key = ascii "backlog" then (stoi val).map fun n => { cfg with backlog := n }
  else if key = ascii "worker_threads" then
    (stoi val).map fun n => { cfg with workerThreads := toSizeT n }
  else if key = ascii "max_keys" then (stoull val).map fun n => { cfg with maxKeys := n }
  else if key = ascii "rdb_enabled" then .ok { cfg with rdbEnabled := isTrue val }
  else if key = ascii "rdb_path" then .ok { cfg with rdbPath := val }
  else if key = ascii "rdb_interval_secs" then
    (stoi val).map fun n => { cfg with rdbIntervalSecs := n }
  else if key = ascii "aof_enabled" then .ok { cfg with aofEnabled := isTrue val }
  else if key = ascii "aof_path" then .ok { cfg with aofPath := val }
  else if key = ascii "metrics_enabled" then .ok { cfg with metricsEnabled := isTrue val }
  else if key = ascii "metrics_port" then
    (stoi val).map fun n => { cfg with metricsPort := .ofInt n }
  else if key = ascii "log_level" then .ok { cfg with logLevel := val }
  else if key = ascii "log_file" then .ok { cfg with logFile := val }
  else if key = ascii "sweep_interval_ms" then
    (stoi val).map fun n => { cfg with sweepIntervalMs := n }
  else .ok cfg

def readLine (cfg : Settings) (line : Bytes) : Except Errc Settings :=
  match entryOf line with
  | none => .ok cfg
  | some (key, val) => cfg.assign key val

/-- `Config::from_file`, for what the file holds; `none` if it cannot be opened. -/
def fromFile : Option Bytes → Except Errc Settings
  | none => .ok {}
  | some text => (Text.lines 10 text).foldlM readLine {}

/-! ## The command line -/

/-- The chain of comparisons in `apply_args`. -/
def applyArg (cfg : Settings) (key val : Bytes) : Except Errc Settings :=
  if key = ascii "--port" then (stoi val).map fun n => { cfg with port := .ofInt n }
  else if key = ascii "--host" then .ok { cfg with host := val }
  else if key = ascii "--workers" then
    (stoi val).map fun n => { cfg with workerThreads := toSizeT n }
  else if key = ascii "--log-level" then .ok { cfg with logLevel := val }
  else if key = ascii "--max-keys" then (stoull val).map fun n => { cfg with maxKeys := n }
  else .ok cfg

/-- `Config::apply_args`, without the program's name: the arguments in twos. -/
def applyArgs : Settings → List Bytes → Except Errc Settings
  | cfg, key :: val :: args => (cfg.applyArg key val).bind fun cfg => cfg.applyArgs args
  | cfg, [] | cfg, [_] => .ok cfg

end Settings

/-- The argument behind the first `--config`, at any place. -/
def configPath : List Bytes → Bytes
  | key :: val :: args => if key = ascii "--config" then val else configPath (val :: args)
  | [] | [_] => []

/-- The beginning of `main`, on the files that can be opened. An exception is not
caught here. -/
def configure (disk : Bytes → Option Bytes) (args : List Bytes) : Except Errc Settings :=
  (if configPath args = [] then .ok {} else Settings.fromFile (disk (configPath args))).bind
    fun cfg => cfg.applyArgs args

/-! ## Fields and texts -/

/-- The fields of `Config`. -/
inductive Key where
  | host | port | backlog | workerThreads | maxKeys | rdbEnabled | rdbPath | rdbIntervalSecs
  | aofEnabled | aofPath | metricsEnabled | metricsPort | logLevel | logFile | sweepIntervalMs
deriving DecidableEq

inductive Value where
  | text (s : Bytes)
  | flag (b : Bool)
  | port (n : UInt16)
  | int (n : Int)
  | size (n : Nat)
deriving DecidableEq

namespace Key

def all : List Key :=
  [host, port, backlog, workerThreads, maxKeys, rdbEnabled, rdbPath, rdbIntervalSecs, aofEnabled,
    aofPath, metricsEnabled, metricsPort, logLevel, logFile, sweepIntervalMs]

def name : Key → Bytes
  | host => ascii "host"
  | port => ascii "port"
  | backlog => ascii "backlog"
  | workerThreads => ascii "worker_threads"
  | maxKeys => ascii "max_keys"
  | rdbEnabled => ascii "rdb_enabled"
  | rdbPath => ascii "rdb_path"
  | rdbIntervalSecs => ascii "rdb_interval_secs"
  | aofEnabled => ascii "aof_enabled"
  | aofPath => ascii "aof_path"
  | metricsEnabled => ascii "metrics_enabled"
  | metricsPort => ascii "metrics_port"
  | logLevel => ascii "log_level"
  | logFile => ascii "log_file"
  | sweepIntervalMs => ascii "sweep_interval_ms"

/-- What a text means to the field. -/
def read : Key → Bytes → Except Errc Value
  | host, s | rdbPath, s | aofPath, s | logLevel, s | logFile, s => .ok (.text s)
  | rdbEnabled, s | aofEnabled, s | metricsEnabled, s => .ok (.flag (isTrue s))
  | port, s | metricsPort, s => (stoi s).map fun n => .port (.ofInt n)
  | backlog, s | rdbIntervalSecs, s | sweepIntervalMs, s => (stoi s).map .int
  | workerThreads, s => (stoi s).map fun n => .size (toSizeT n)
  | maxKeys, s => (stoull s).map .size

/-- The field that a name in the file stands for. -/
def named (s : Bytes) : Option Key := all.find? fun k => s == k.name

/-- The fields that the command line can set. -/
def flagged (s : Bytes) : Option Key :=
  [(ascii "--port", port), (ascii "--host", host), (ascii "--workers", workerThreads),
    (ascii "--log-level", logLevel), (ascii "--max-keys", maxKeys)].lookup s

end Key

def Settings.get (cfg : Settings) : Key → Value
  | .host => .text cfg.host
  | .port => .port cfg.port
  | .backlog => .int cfg.backlog
  | .workerThreads => .size cfg.workerThreads
  | .maxKeys => .size cfg.maxKeys
  | .rdbEnabled => .flag cfg.rdbEnabled
  | .rdbPath => .text cfg.rdbPath
  | .rdbIntervalSecs => .int cfg.rdbIntervalSecs
  | .aofEnabled => .flag cfg.aofEnabled
  | .aofPath => .text cfg.aofPath
  | .metricsEnabled => .flag cfg.metricsEnabled
  | .metricsPort => .port cfg.metricsPort
  | .logLevel => .text cfg.logLevel
  | .logFile => .text cfg.logFile
  | .sweepIntervalMs => .int cfg.sweepIntervalMs

theorem map_eq_ok {α β : Type} {f : α → β} {x : Except Errc α} {b : β}
    (h : x.map f = .ok b) : ∃ a, x = .ok a ∧ f a = b := by
  cases x with
  | error e => cases h
  | ok a => exact ⟨a, rfl, Except.ok.inj h⟩

theorem map_eq_error {α β : Type} {f : α → β} {x : Except Errc α} {e : Errc}
    (h : x.map f = .error e) : x = .error e := by
  cases x with
  | error e' =>
      cases h
      rfl
  | ok a => cases h

/-- Assigning by the name of a field reads the text for this field. -/
def registers : Registers Settings Key Bytes Value Errc where
  get := Settings.get
  read := Key.read
  put cfg k val := cfg.assign k.name val
  put_error := by
    intro cfg k val e h
    cases k
    case maxKeys | port | backlog | workerThreads | rdbIntervalSecs | metricsPort |
        sweepIntervalMs =>
      exact congrArg (Except.map _) (map_eq_error h)
    all_goals cases h
  put_ok := by
    intro cfg k val w h
    cases k
    case maxKeys | port | backlog | workerThreads | rdbIntervalSecs | metricsPort |
        sweepIntervalMs =>
      obtain ⟨n, hn, rfl⟩ := map_eq_ok h
      refine ⟨_, congrArg (Except.map _) hn, funext fun k' => ?_⟩
      cases k' <;> rfl
    all_goals
      cases h
      refine ⟨_, rfl, funext fun k' => ?_⟩
      cases k' <;> rfl

theorem Settings.assign_unknown (cfg : Settings) {key : Bytes} (h : ∀ k : Key, key ≠ k.name)
    (val : Bytes) : cfg.assign key val = .ok cfg := by
  rw [assign]
  apply (if_neg (h .host)).trans
  apply (if_neg (h .port)).trans
  apply (if_neg (h .backlog)).trans
  apply (if_neg (h .workerThreads)).trans
  apply (if_neg (h .maxKeys)).trans
  apply (if_neg (h .rdbEnabled)).trans
  apply (if_neg (h .rdbPath)).trans
  apply (if_neg (h .rdbIntervalSecs)).trans
  apply (if_neg (h .aofEnabled)).trans
  apply (if_neg (h .aofPath)).trans
  apply (if_neg (h .metricsEnabled)).trans
  apply (if_neg (h .metricsPort)).trans
  apply (if_neg (h .logLevel)).trans
  apply (if_neg (h .logFile)).trans
  exact if_neg (h .sweepIntervalMs)

theorem Key.mem_all (k : Key) : k ∈ all := by
  cases k <;> decide

theorem Settings.assign_eq (cfg : Settings) (key val : Bytes) :
    cfg.assign key val = ((Key.named key).map (·, val)).elim (.ok cfg)
      fun a => registers.put cfg a.1 a.2 := by
  cases hk : Key.named key with
  | some k =>
      obtain rfl : key = k.name := by simpa using List.find?_some hk
      rfl
  | none =>
      refine cfg.assign_unknown (fun k hkey => ?_) val
      have hmiss := List.find?_eq_none.mp hk k k.mem_all
      exact hmiss (by simpa using hkey)

theorem Settings.applyArg_eq (cfg : Settings) (key val : Bytes) :
    cfg.applyArg key val = ((Key.flagged key).map (·, val)).elim (.ok cfg)
      fun a => registers.put cfg a.1 a.2 := by
  rw [applyArg]
  split
  · subst key
    rfl
  split
  · subst key
    rfl
  split
  · subst key
    rfl
  split
  · subst key
    rfl
  split
  · subst key
    rfl
  · rename_i hport hhost hworkers hlevel hkeys
    simp only [Key.flagged, List.lookup_cons, List.lookup_nil, beq_false_of_ne hport,
      beq_false_of_ne hhost, beq_false_of_ne hworkers, beq_false_of_ne hlevel,
      beq_false_of_ne hkeys]
    rfl

/-! ## All assignments -/

/-- What a line of the file assigns. -/
def lineAssigns (line : Bytes) : Option (Key × Bytes) :=
  (entryOf line).bind fun e => (Key.named e.1).map (·, e.2)

def fileAssigns (text : Bytes) : List (Key × Bytes) := (Text.lines 10 text).filterMap lineAssigns

def argAssigns : List Bytes → List (Key × Bytes)
  | key :: val :: args => ((Key.flagged key).map (·, val)).toList ++ argAssigns args
  | [] | [_] => []

/-- Those of the file, and behind them those of the command line. -/
def given (disk : Bytes → Option Bytes) (args : List Bytes) : List (Key × Bytes) :=
  (if configPath args = [] then [] else (disk (configPath args)).elim [] fileAssigns) ++
    argAssigns args

theorem fromFile_eq (file : Option Bytes) :
    Settings.fromFile file = registers.run {} (file.elim [] fileAssigns) := by
  cases file with
  | none => rfl
  | some text =>
      apply Registers.run_filterMap
      intro cfg line
      rw [Settings.readLine, lineAssigns]
      cases entryOf line with
      | none => rfl
      | some e => exact cfg.assign_eq e.1 e.2

theorem applyArgs_eq (cfg : Settings) (args : List Bytes) :
    cfg.applyArgs args = registers.run cfg (argAssigns args) := by
  induction args using argAssigns.induct generalizing cfg with
  | case1 key val args ih =>
      rw [Settings.applyArgs, argAssigns, Settings.applyArg_eq]
      cases Key.flagged key with
      | none => exact ih cfg
      | some k => exact congrArg (Except.bind _) (funext ih)
  | case2 => rfl
  | case3 => rfl

theorem configure_eq (disk : Bytes → Option Bytes) (args : List Bytes) :
    configure disk args = registers.run {} (given disk args) := by
  rw [configure, given, Registers.run_append]
  have hfile : (if configPath args = [] then .ok {}
      else Settings.fromFile (disk (configPath args))) = registers.run {}
        (if configPath args = [] then [] else (disk (configPath args)).elim [] fileAssigns) := by
    split
    · rfl
    · exact fromFile_eq _
  rw [hfile]
  exact congrArg (Except.bind _) (funext fun cfg => applyArgs_eq cfg args)

/-- **The last assignment counts.** Whatever the file holds and whatever the
arguments are: if the server gets its settings, each field has the value that
its last assignment is read as, or its default if there is none; the command
line comes after the file. Otherwise there is a first assignment whose text is
not read as a value of its field, and the exception is that of this text. -/
theorem configure_last_wins (disk : Bytes → Option Bytes) (args : List Bytes) :
    match configure disk args with
    | .ok cfg => ∀ k, registers.Leaves {} (given disk args) k (cfg.get k)
    | .error e => ∃ as₁ k val as₂, given disk args = as₁ ++ (k, val) :: as₂ ∧
        (∀ a ∈ as₁, ∃ w, a.1.read a.2 = .ok w) ∧ k.read val = .error e := by
  rw [configure_eq]
  cases hrun : registers.run {} (given disk args) with
  | ok cfg => exact fun k => Registers.run_ok hrun k
  | error e => exact Registers.run_error hrun

/-! ## How a file is written -/

/-- Blanks within a line. -/
abbrev Blanks := { s : Bytes // ∀ b ∈ s, b = 32 ∨ b = 9 ∨ b = 13 }

/-- What may follow a `#`. -/
abbrev Remark := Option { s : Bytes // (10 : UInt8) ∉ s }

/-- A name or a value as it may stand in a file. -/
structure Word where
  bytes : Bytes
  noRemark : 35 ∉ bytes
  noEnd : 10 ∉ bytes
  tight : Text.Tight isBlank bytes

inductive Line where
  | blank (pad : Blanks) (remark : Remark)
  | setting (pad : Fin 4 → Blanks) (name value : Word) (noSign : 61 ∉ name.bytes)
      (remark : Remark)

theorem Blanks.isBlank {pad : Blanks} : ∀ b ∈ pad.1, isBlank b = true := by
  intro b hb
  rcases pad.2 b hb with rfl | rfl | rfl <;> rfl

namespace Line

/-- What stands before the `#`. -/
def code : Line → Bytes
  | blank pad _ => pad.1
  | setting pad name value _ _ =>
      ((pad 0).1 ++ (name.bytes ++ (pad 1).1)) ++ 61 :: ((pad 2).1 ++ (value.bytes ++ (pad 3).1))

def remark : Line → Bytes
  | blank _ r | setting _ _ _ _ r => r.elim [] fun s => 35 :: s.1

def text (l : Line) : Bytes := l.code ++ l.remark

def entry : Line → Option (Bytes × Bytes)
  | blank _ _ => none
  | setting _ name value _ _ => some (name.bytes, value.bytes)

end Line

/-- The file with these lines. -/
def page (ls : List Line) : Bytes := (ls.map Line.text).flatMap (· ++ [10])

end RedisCache.Server
