import Mathlib
import RedisCache.Commands.SetOptions
import RedisCache.Server.Startup

/-!
# What the log is worth while the server runs

With the log enabled and nothing on disk, the server starts empty, and so is
the store that its log replays to, then and ever after: no request is
appended. The log says what the store holds exactly as long as the store
holds nothing, which is until the first request that puts an entry where
none is.
-/

namespace RedisCache.Server

open Loop Sections Protocol Storage Commands Network Persistence TimedMap

/-! ## Requests that make an entry out of nothing -/

/-- The options of a request are within range, whatever it says. -/
theorem commandOf_set_inRange {req : RespValue} {key value : Bytes} {o : SetOptions}
    (h : commandOf req = .set key value o) : Decimal.InRange o.ttlMs := by
  have hfrom := commandOf_from req
  rw [h] at hfrom
  obtain ⟨-, -, opts, rfl⟩ := hfrom
  exact setOptions_inRange (by decide) opts

/-- What a `SET` stores can be seen: a deadline is later than now, or wraps to
none at all. -/
theorem lasts_deadlineOf {now ttlMs : Int} (hnow : Decimal.InRange now)
    (httl : Decimal.InRange ttlMs) : lasts now (Store.deadlineOf now ttlMs) = true := by
  unfold Decimal.InRange at hnow httl
  unfold lasts Store.deadlineOf i64
  split_ifs <;> simp only [Bool.or_eq_true, decide_eq_true_eq] <;> omega

/-- A `SET` without `XX`, an `INCR` or an `INCRBY`, with arguments that can be
read. -/
def Creates : Command → Prop
  | .set _ _ o => o.xx = false
  | .incr _ => True
  | .incrby _ _ => True
  | _ => False

instance : DecidablePred Creates
  | .set _ _ o => inferInstanceAs (Decidable (o.xx = false))
  | .incr _ => .isTrue trivial
  | .incrby _ _ => .isTrue trivial
  | .reply _ => .isFalse id
  | .get _ => .isFalse id
  | .del _ => .isFalse id
  | .exist _ => .isFalse id
  | .expire _ _ => .isFalse id
  | .ttl _ => .isFalse id
  | .pttl _ => .isFalse id
  | .keys _ => .isFalse id
  | .dbsize => .isFalse id
  | .flushall => .isFalse id

theorem added_ne_none (delta : Int) (x : Option Bytes) : added delta x ≠ none := by
  unfold added
  split
  · rename_i hec
    rintro rfl
    exact hec rfl
  · exact Option.some_ne_none _

/-- After one of these its key has a value, whatever was there before. -/
theorem on_of_creates {now : Int} (hnow : Decimal.InRange now) {req : RespValue}
    (h : Creates (commandOf req)) : ∃ k, ∀ x, (commandOf req).on now k x ≠ none := by
  cases hc : commandOf req with
  | set key value o =>
      have hlasts := lasts_deadlineOf hnow (commandOf_set_inRange hc)
      rw [hc, Creates] at h
      refine ⟨key, fun x => ?_⟩
      cases x with
      | none => simp [Command.on, SetOptions.refuses, h, hlasts]
      | some v =>
          cases hnx : o.nx with
          | true => simp [Command.on, SetOptions.refuses, hnx]
          | false => simp [Command.on, SetOptions.refuses, hnx, h, hlasts]
  | incr key => exact ⟨key, fun x => by simp [Command.on, added_ne_none]⟩
  | incrby key delta => exact ⟨key, fun x => by simp [Command.on, added_ne_none]⟩
  | reply | get | del | exist | expire | ttl | pttl | keys | dbsize | flushall =>
      rw [hc] at h
      cases h

/-- No other request makes a value out of nothing. -/
theorem on_none_of_not_creates (now : Int) {c : Command} (h : ¬ Creates c) (k : Bytes) :
    c.on now k none = none := by
  cases c with
  | set key value o =>
      rw [Creates, Bool.not_eq_false] at h
      simp [Command.on, SetOptions.refuses, h]
  | incr | incrby => exact absurd trivial h
  | del ks => simp [Command.on]
  | expire key ttlMs => simp [Command.on]
  | reply | get | exist | ttl | pttl | keys | dbsize | flushall => rfl

/-! ## Empty until something is created -/

theorem values_empty (P : Platform) (now : Int) (k : Bytes) :
    values P now Store.empty k = none := by
  rw [values, view_empty]
  rfl

theorem live_eq_none_iff (P : Platform) (now : Int) (s : Shards) :
    live now (view P s) = (fun _ => none) ↔ ∀ k, values P now s k = none := by
  rw [funext_iff]
  exact forall_congr' fun k => Option.map_eq_none_iff.symm

/-- The log replays to what `s` holds, at `now` and into an empty store. -/
def Durable (P : Platform) (maxKeys : Nat) (now : Int) (file : Option Bytes) (s : Shards) : Prop :=
  ∃ n w, Aof.replay P (Aof.executor P maxKeys) file ⟨fun _ => now, Store.empty⟩ =
      some (.ok (n, w)) ∧ live now (view P w.cells) = live now (view P s)

/-- An empty log says that there is nothing. -/
theorem durable_nil_iff (P : Platform) (maxKeys : Nat) (now : Int) (s : Shards) :
    Durable P maxKeys now (some []) s ↔ ∀ k, values P now s k = none := by
  have hreplay : Aof.replay P (Aof.executor P maxKeys) (some [])
      (⟨fun _ => now, Store.empty⟩ : World Index Shard) =
        some (.ok (0, ⟨fun _ => now, Store.empty⟩)) := rfl
  have hempty : live now (view P Store.empty) = fun _ => none := by
    rw [view_empty]
    rfl
  rw [← live_eq_none_iff]
  constructor
  · rintro ⟨n, w, hrun, hlive⟩
    rw [hreplay] at hrun
    cases hrun
    rw [← hlive, hempty]
  · intro hnone
    exact ⟨0, _, hreplay, by rw [hempty, hnone]⟩

/-- The same, of a run from the empty store. -/
theorem durable_iff {P : Platform} {maxKeys : Nat} {now : Int} {cs : List RespValue}
    (hroom : HasRoom P maxKeys now Store.empty cs) :
    Durable P maxKeys now (some []) (playFrom P maxKeys Store.empty (still now cs)) ↔
      ∀ k, Replay.apply (updates now cs k) none = none := by
  rw [durable_nil_iff]
  refine forall_congr' fun k => ?_
  rw [values_playFrom P maxKeys now (Store.empty_valid P) hroom, values_empty]

/-! ## The server -/

/-- The log on, snapshots off. -/
def logOnly (maxKeys : Nat) : Config := { maxKeys, rdbEnabled := false, aofEnabled := true }

theorem recover_logOnly (P : Platform) (maxKeys : Nat) (junk : Nat → UInt8) {disk : Disk}
    (hdisk : disk.aof.getD [] = []) (clock : Nat → Int) :
    recover P (logOnly maxKeys) junk disk clock =
      some (.ok (⟨clock, Store.empty⟩, { disk with aof := some [] })) := by
  rw [recover]
  simp only [loadSnapshot, logOnly, Bool.false_eq_true, if_false, replayLog, if_true,
    Disk.openAof, hdisk]
  rfl

/-- A part of a run is a run, with part of its requests and the same files. -/
theorem run_front (P : Platform) (cfg : Config) (junk : Nat → UInt8) (disk : Disk)
    (clock : Nat → Int) {done rest : List (List Ready)} {srv : State}
    (h : run P cfg junk disk clock (done ++ rest) = some (.ok srv)) :
    ∃ srv', run P cfg junk disk clock done = some (.ok srv') ∧
      srv'.requests <+: srv.requests ∧ srv'.disk = srv.disk := by
  rw [run] at h ⊢
  cases hrec : recover P cfg junk disk clock with
  | none => simp [hrec] at h
  | some r =>
      cases r with
      | error e => simp [hrec] at h
      | ok x =>
          obtain ⟨w, disk'⟩ := x
          simp only [hrec] at h ⊢
          obtain ⟨r, hloop, hr⟩ := Option.map_eq_some_iff.mp h
          cases r with
          | error e => cases hr
          | ok L =>
              cases hr
              obtain ⟨L₁, hdone, hrest⟩ := of_runAll_append hloop
              have hdone' : EventLoop.run P (Conn.logged (Conn.dispatcher P cfg.maxKeys))
                  { store := (w, []) } done = some (.ok L₁) := hdone
              have hsound : L₁.Sound := (EventLoop.Sound.start _).run P _ hdone'
              obtain ⟨vs, hvs⟩ := EventLoop.store_run P _ hsound hrest
              refine ⟨⟨L₁, disk'⟩, by rw [hdone']; rfl, ?_, rfl⟩
              rw [State.requests, State.requests, hvs, ← Prod.mk.eta (p := L₁.store),
                Conn.serve_logged]
              exact List.prefix_append _ _

/-- **What the log is worth.** The log on and empty, snapshots off, at any clock
reading, any events on any connections, fewer than `max_keys` keys before
each request. If no request executed is a `SET` without `XX`, an `INCR` or an
`INCRBY`, the log replays to what the store holds after every batch; and
after every batch that ends with such a request it does not. -/
theorem log_durable (P : Platform) (maxKeys : Nat) (now : Int) (hnow : Decimal.InRange now)
    (junk : Nat → UInt8) (disk : Disk) (hdisk : disk.aof.getD [] = [])
    (polls : List (List Ready)) (srv : State)
    (hrun : run P (logOnly maxKeys) junk disk (fun _ => now) polls = some (.ok srv))
    (hroom : HasRoom P maxKeys now Store.empty srv.requests) :
    ((∀ req ∈ srv.requests, ¬ Creates (commandOf req)) →
      ∀ done rest, polls = done ++ rest → ∃ srv',
        run P (logOnly maxKeys) junk disk (fun _ => now) done = some (.ok srv') ∧
          Durable P maxKeys now srv'.disk.aof srv'.store.cells) ∧
      ∀ done rest srv' req, polls = done ++ rest →
        run P (logOnly maxKeys) junk disk (fun _ => now) done = some (.ok srv') →
        srv'.requests.getLast? = some req → Creates (commandOf req) →
          ¬ Durable P maxKeys now srv'.disk.aof srv'.store.cells := by
  -- the state behind a batch, and what its log says
  have hstate : ∀ done srv', run P (logOnly maxKeys) junk disk (fun _ => now) done =
      some (.ok srv') → srv'.requests <+: srv.requests →
      (Durable P maxKeys now srv'.disk.aof srv'.store.cells ↔
        ∀ k, Replay.apply (updates now srv'.requests k) none = none) := by
    intro done srv' hdone hfront
    obtain ⟨hstore, hsame⟩ := run_store P (logOnly maxKeys) junk disk now
      (recover_logOnly P maxKeys junk hdisk _) hdone
    rw [hstore, hsame]
    refine durable_iff ?_
    rw [List.prefix_iff_eq_take.mp hfront]
    exact hroom.take P maxKeys now _
  constructor
  · intro hnever done rest hsplit
    subst hsplit
    obtain ⟨srv', hdone, hfront, -⟩ := run_front P _ junk disk _ hrun
    refine ⟨srv', hdone, (hstate done srv' hdone hfront).mpr fun k => ?_⟩
    refine Replay.apply_none fun f hf => ?_
    obtain ⟨req, hreq, rfl⟩ := List.mem_map.mp hf
    exact on_none_of_not_creates now (hnever req (hfront.subset hreq)) k
  · intro done rest srv' req hsplit hdone hlast hcreates hdurable
    subst hsplit
    obtain ⟨srv'', hdone', hfront, -⟩ := run_front P _ junk disk _ hrun
    rw [hdone] at hdone'
    cases hdone'
    obtain ⟨k, hk⟩ := on_of_creates hnow hcreates
    have hnone := (hstate done srv' hdone hfront).mp hdurable k
    obtain ⟨reqs, hreqs⟩ := List.getLast?_eq_some_iff.mp hlast
    rw [hreqs, updates, List.map_append, Replay.apply_append] at hnone
    exact hk _ hnone

/-- One client, one request. -/
def oneRequest (b : UInt8) (bs : Bytes) : List (List Ready) :=
  [[.listener [.client 5]], [.client 5 false (some [.data b bs]) none]]

/-- A `GET`. -/
theorem log_durable_get :
    ∃ srv, run .concrete (logOnly 4) (fun _ => 0) {} (fun _ => 0)
        (oneRequest 42 (ascii "2\r\n$3\r\nGET\r\n$1\r\na\r\n")) = some (.ok srv) ∧
      Durable .concrete 4 0 srv.disk.aof srv.store.cells := by
  obtain ⟨srv, hrun⟩ := exists_ok (r := run .concrete (logOnly 4) (fun _ => 0) {} (fun _ => 0)
    (oneRequest 42 (ascii "2\r\n$3\r\nGET\r\n$1\r\na\r\n"))) (by decide +kernel)
  have hlog : ((run .concrete (logOnly 4) (fun _ => 0) {} (fun _ => 0)
      (oneRequest 42 (ascii "2\r\n$3\r\nGET\r\n$1\r\na\r\n"))).bind Except.toOption).map
        (fun srv => srv.requests.map fun req => decide (Creates (commandOf req))) =
      some [false] := by
    decide +kernel
  rw [hrun] at hlog
  obtain ⟨req, hreq, hget⟩ := List.map_eq_singleton_iff.mp (Option.some.inj hlog)
  have hroom : HasRoom .concrete 4 0 Store.empty srv.requests := by
    rw [hreq]
    exact ⟨by decide, trivial⟩
  obtain ⟨srv', hrun', hdurable⟩ := (log_durable .concrete 4 0 (by decide) (fun _ => 0) {} rfl _
    srv hrun hroom).1
    (by
      rw [hreq]
      intro r hr
      obtain rfl := List.mem_singleton.mp hr
      exact of_decide_eq_false hget)
    _ [] (List.append_nil _).symm
  exact ⟨srv', hrun', hdurable⟩

/-- A `SET`: the store has it, the log does not. -/
theorem log_loses_set :
    ∃ srv, run .concrete (logOnly 4) (fun _ => 0) {} (fun _ => 0)
        (oneRequest 42 (ascii "3\r\n$3\r\nSET\r\n$1\r\na\r\n$1\r\n1\r\n")) = some (.ok srv) ∧
      values .concrete 0 srv.store.cells (ascii "a") = some (ascii "1") ∧
      ¬ Durable .concrete 4 0 srv.disk.aof srv.store.cells := by
  obtain ⟨srv, hrun⟩ := exists_ok (r := run .concrete (logOnly 4) (fun _ => 0) {} (fun _ => 0)
    (oneRequest 42 (ascii "3\r\n$3\r\nSET\r\n$1\r\na\r\n$1\r\n1\r\n"))) (by decide +kernel)
  have hstore : ((run .concrete (logOnly 4) (fun _ => 0) {} (fun _ => 0)
      (oneRequest 42 (ascii "3\r\n$3\r\nSET\r\n$1\r\na\r\n$1\r\n1\r\n"))).bind
        Except.toOption).map
        (fun srv => (srv.disk.aof, values .concrete 0 srv.store.cells (ascii "a"))) =
      some (some [], some (ascii "1")) := by
    decide +kernel
  rw [hrun] at hstore
  obtain ⟨haof, hvalue⟩ := Prod.mk.inj (Option.some.inj hstore)
  refine ⟨srv, hrun, hvalue, fun hdurable => ?_⟩
  rw [haof] at hdurable
  rw [(durable_nil_iff .concrete 4 0 _).mp hdurable] at hvalue
  cases hvalue

end RedisCache.Server
