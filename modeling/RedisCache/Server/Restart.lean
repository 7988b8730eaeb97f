import Mathlib
import RedisCache.Commands.Cache
import RedisCache.Persistence.LaterLoad
import RedisCache.Server.Recovery

/-!
# Stopping and starting again

`Server::run` ends with a snapshot of the whole store: the event loop has
returned and the maintenance thread has been joined, so nothing runs next to
that save. The next process loads it. A server that is stopped and started any
number of times is compared here with one abstract cache that is there all the
time (`Commands.Explains`).

A restart takes dead items out of that cache, and it may put deadlines off: the
clock goes on while a snapshot is loaded, and an item gets the time that it had
left when the load began (`TimedMap.Reread`). A client can see both. `DEL` and
`DBSIZE` no longer count the dead, and `PTTL` is larger than it would have been.
Nothing alive is lost.

The final saves go through.
-/

namespace RedisCache.Server

open Loop Sections Protocol Storage Commands Persistence TimedMap

/-! ## Sessions -/

/-- What one process does: the clock readings while it starts, the requests and
sweeps while it runs, and the clock reading of its final save. -/
structure Session where
  up : Nat → Int
  turns : List Turn
  down : Int

/-- What there is to see of a session: the turns with their replies, and the
store that it has left. -/
structure Life where
  steps : List Step
  left : Shards

/-- The end of `Server::run`. `aof_.close()` changes no byte of the log. -/
def shutDown (cfg : Config) (disk : Disk) (w : World Index Shard) : Disk :=
  if cfg.rdbEnabled then { disk with rdb := ((Rdb.save {} ⟨disk.rdb, none⟩).run w).1.2.path }
  else disk

/-- A session on the files the last one has left. -/
def Session.run (P : Platform) (cfg : Config) (junk : Nat → UInt8) (x : List Life × Disk)
    (session : Session) : Option (Except Exn (List Life × Disk)) :=
  match recover P cfg junk x.2 session.up with
  | none => none
  | some (.error e) => some (.error e)
  | some (.ok (w, disk)) =>
      let s := playFrom P cfg.maxKeys w.cells session.turns
      some (.ok (x.1 ++ [⟨stepsOf P cfg.maxKeys w.cells session.turns, s⟩],
        shutDown cfg disk ⟨fun _ => session.down, s⟩))

/-- All sessions, from a disk without files. -/
def lives (P : Platform) (cfg : Config) (junk : Nat → UInt8) (sessions : List Session) :
    Option (Except Exn (List Life × Disk)) :=
  runAll (Session.run P cfg junk) ([], {}) sessions

/-- The snapshot alone. -/
def snapshotOnly (maxKeys : Nat) : Config := { maxKeys, rdbEnabled := true, aofEnabled := false }

/-- The moments of a session in order; start and stop count as sweeps. -/
def Session.timeline (session : Session) : List Turn :=
  ⟨session.up, none⟩ :: (session.turns ++ [Turn.sweep session.down])

/-- A store that the next process can take over: not more entries than it may
hold, no key or value of 4 GiB and no deadline in the second half of what an
`int64_t` can say. -/
structure Portable (P : Platform) (maxKeys : Nat) (s : Shards) : Prop where
  room : Store.total s ≤ maxKeys
  short : ∀ k it, view P s k = some it → k.length < 2 ^ 32 - 1 ∧ it.value.length < 2 ^ 32 - 1
  soon : ∀ k it d, view P s k = some it → it.deadline = some d → d < 2 ^ 62

/-! ## One cache through all sessions -/

/-- The abstract cache is read back at the start of each session and then does
what the steps say. -/
def Outlives (P : Platform) : List Session → List Life → Cache → Cache → Prop
  | [], [], m, m' => m' = m
  | session :: sessions, life :: lives, m, m' =>
      ∃ m₁ m₂, Reread session.up m m₁ ∧ Explains (Step.May P) life.steps m₁ m₂ ∧
        Outlives P sessions lives m₂ m'
  | _, _, _, _ => False

theorem Ticking.sublist {a b : List Turn} (h : Ticking b) (hab : a.Sublist b) : Ticking a :=
  ⟨fun t ht => h.mono t (hab.subset ht), fun t ht => h.ranged t (hab.subset ht),
    h.forward.sublist hab⟩

/-- Whenever the server starts from now on, it comes up with `m`. -/
def Carries (P : Platform) (maxKeys : Nat) (junk : Nat → UInt8) (disk : Disk) (now : Int)
    (m : Cache) : Prop :=
  ∀ rd : Nat → Int, (∀ n, now ≤ rd n) → (∀ n, 0 ≤ rd n ∧ rd n < 2 ^ 62) → ∃ w,
    recover P (snapshotOnly maxKeys) junk disk rd = some (.ok (w, disk)) ∧
      (∀ i, Valid P i (w.cells i)) ∧ Reread rd m (view P w.cells)

section Sessions

variable {P : Platform} {maxKeys : Nat} {junk : Nat → UInt8} {now : Int} {s : Shards} {m : Cache}
  {disk : Disk}

theorem recover_snapshotOnly {rd : Nat → Int} {x : Nat × Bytes}
    (hload : ((Rdb.load P maxKeys junk disk.rdb).run ⟨rd, Store.empty⟩).1 = some x) :
    recover P (snapshotOnly maxKeys) junk disk rd =
      some (.ok (((Rdb.load P maxKeys junk disk.rdb).run ⟨rd, Store.empty⟩).2, disk)) := by
  rcases hrun : (Rdb.load P maxKeys junk disk.rdb).run ⟨rd, Store.empty⟩ with ⟨r, w⟩
  rw [hrun] at hload
  simp only at hload
  simp only [recover, loadSnapshot, snapshotOnly, if_true, hrun, hload, replayLog,
    Bool.false_eq_true, if_false]

theorem Carries.first : Carries P maxKeys junk {} now fun _ => none := by
  intro rd _ _
  refine ⟨_, recover_snapshotOnly rfl, Store.empty_valid P, fun k => ?_⟩
  exact congrFun (view_empty P) k

variable (disk) in
/-- What `recover` makes of a saved store. -/
theorem recover_saved (h0 : 0 ≤ now) (hs : ∀ i, Valid P i (s i)) (hsmall : Rdb.Small P now s)
    (hroom : Store.total s ≤ maxKeys) (junk : Nat → UInt8) {rd : Nat → Int}
    (hlater : ∀ n, now ≤ rd n) (hrange : ∀ n, Decimal.InRange (rd n))
    (hfar : Rdb.Distant rd (view P s))
    (hfile : disk.rdb = some (Rdb.magic ++ Rdb.version :: Rdb.body (Store.records now s))) :
    ∃ w, recover P (snapshotOnly maxKeys) junk disk rd = some (.ok (w, disk)) ∧
      (∀ i, Valid P i (w.cells i)) ∧ Reread rd (view P s) (view P w.cells) := by
  have hlive := (ncard_liveKeys_le P now hs).trans hroom
  have hload := Rdb.run_load P maxKeys junk (fun r => Rdb.record_fits hs hsmall) []
    ⟨rd, Store.empty⟩
  have hview := Rdb.reread_load_saved h0 hs hsmall hlive hlater hrange hfar junk []
  rw [List.append_nil, ← hfile] at hload hview
  refine ⟨_, recover_snapshotOnly (by rw [hload]), ?_, hview⟩
  rw [hload]
  exact (setRecords_safe P maxKeys (rd 0) _).run (Store.empty_valid P)

/-- The final save of a session, for the next one. -/
theorem Carries.saved (h0 : 0 ≤ now) (h : Mirrors P now s m) (hportable : Portable P maxKeys s)
    (disk : Disk) :
    Carries P maxKeys junk (shutDown (snapshotOnly maxKeys) disk ⟨fun _ => now, s⟩) now m := by
  intro rd hlater hclock
  have hfile : (shutDown (snapshotOnly maxKeys) disk ⟨fun _ => now, s⟩).rdb =
      some (Rdb.magic ++ Rdb.version :: Rdb.body (Store.records now s)) := by
    simp only [shutDown, snapshotOnly, if_true, Prog.run_const, Rdb.exec_save, Rdb.saved]
  have hsmall : Rdb.Small P now s := fun k it hit => hportable.short k it (live_eq_some.mp hit).1
  have hrange : ∀ n, Decimal.InRange (rd n) := by
    intro n
    have hn := hclock n
    exact ⟨by omega, by omega⟩
  have hfar : Rdb.Distant rd (view P s) := by
    intro k it d hk hd n
    have hsoon := hportable.soon k it d hk hd
    have hn := hclock n
    have h₀ := hclock 0
    omega
  obtain ⟨w, hrecover, hvalid, hreread⟩ :=
    recover_saved _ h0 h.valid hsmall hportable.room junk hlater hrange hfar hfile
  exact ⟨w, hrecover, hvalid, hreread.congr (h.later (hlater 0)).refines.agree⟩

/-- One session, after which the next one can start. -/
theorem Carries.session {session : Session} (h : Carries P maxKeys junk disk now m)
    (hnow : ∀ n, now ≤ session.up n) (hup : ∀ n, 0 ≤ session.up n ∧ session.up n < 2 ^ 62)
    (hclock : Ticking session.timeline) (ls : List Life)
    (hportable : ∀ ls' disk',
      session.run P (snapshotOnly maxKeys) junk (ls, disk) = some (.ok (ls', disk')) →
        ∀ l ∈ ls', Portable P maxKeys l.left) :
    ∃ l disk' m₁ m₂, session.run P (snapshotOnly maxKeys) junk (ls, disk) =
        some (.ok (ls ++ [l], disk')) ∧
      Reread session.up m m₁ ∧ Explains (Step.May P) l.steps m₁ m₂ ∧
      Carries P maxKeys junk disk' session.down m₂ := by
  obtain ⟨hafter, hrest⟩ := List.pairwise_cons.mp hclock.forward
  obtain ⟨-, -, hbefore⟩ := List.pairwise_append.mp hrest
  have hturns : Ticking session.turns :=
    Ticking.sublist hclock ((List.sublist_append_left _ _).cons _)
  have hstart : ∀ t ∈ session.turns, ∀ n, session.up 0 ≤ t.clock n := fun t ht n =>
    hafter t (List.mem_append_left _ ht) 0 n
  have hdown : session.up 0 ≤ session.down := hafter (Turn.sweep session.down) (by simp) 0 0
  have hend : ∀ t ∈ session.turns, t.clock 0 ≤ session.down := fun t ht =>
    hbefore t ht (Turn.sweep session.down) (by simp) 0 0
  obtain ⟨w, hrecover, hvalid, hreread⟩ := h session.up hnow hup
  obtain ⟨m₂, hexplains, hmirrors⟩ := run_explained maxKeys
    (Mirrors.of_valid (session.up 0) hvalid) hstart hturns
  have hrun : session.run P (snapshotOnly maxKeys) junk (ls, disk) =
      some (.ok (ls ++ [⟨stepsOf P maxKeys w.cells session.turns,
          playFrom P maxKeys w.cells session.turns⟩],
        shutDown (snapshotOnly maxKeys) disk
          ⟨fun _ => session.down, playFrom P maxKeys w.cells session.turns⟩)) := by
    rw [Session.run, hrecover]
    rfl
  refine ⟨_, _, view P w.cells, m₂, hrun, hreread, hexplains, ?_⟩
  exact Carries.saved ((hup 0).1.trans hdown) (hmirrors session.down hdown hend)
    (hportable _ _ hrun _ (List.mem_append_right ls List.mem_cons_self)) disk

/-- Induction on the sessions. -/
theorem lives_carried {sessions : List Session} (h : Carries P maxKeys junk disk now m)
    (hnow : ∀ x ∈ sessions, ∀ n, now ≤ x.up n)
    (hup : ∀ x ∈ sessions, ∀ n, 0 ≤ x.up n ∧ x.up n < 2 ^ 62)
    (hclock : Ticking (sessions.flatMap Session.timeline)) (ls : List Life)
    (hportable : ∀ done, done <+: sessions → ∀ ls' disk',
      runAll (Session.run P (snapshotOnly maxKeys) junk) (ls, disk) done =
        some (.ok (ls', disk')) → ∀ l ∈ ls', Portable P maxKeys l.left) :
    ∃ ls' disk' m', runAll (Session.run P (snapshotOnly maxKeys) junk) (ls, disk) sessions =
        some (.ok (ls ++ ls', disk')) ∧ Outlives P sessions ls' m m' := by
  induction sessions generalizing disk now m ls with
  | nil => exact ⟨[], disk, m, by rw [List.append_nil]; rfl, rfl⟩
  | cons session sessions ih =>
      rw [List.flatMap_cons] at hclock
      obtain ⟨-, -, hcross⟩ := List.pairwise_append.mp hclock.forward
      obtain ⟨l, disk', m₁, m₂, hrun, hreread, hexplains, hnext⟩ :=
        h.session (hnow session List.mem_cons_self) (hup session List.mem_cons_self)
          (Ticking.sublist hclock (List.sublist_append_left _ _)) ls fun ls' disk' hrun =>
            hportable [session] (by simp) ls' disk' (by rw [runAll_cons hrun]; rfl)
      have hafter : ∀ x ∈ sessions, ∀ n, session.down ≤ x.up n := by
        intro x hx n
        refine hcross (Turn.sweep session.down) (by simp [Session.timeline])
          ⟨x.up, none⟩ (List.mem_flatMap.mpr ⟨x, hx, ?_⟩) 0 n
        exact List.mem_cons_self
      obtain ⟨ls', disk'', m', hrun', houtlives⟩ := ih hnext hafter
        (fun x hx => hup x (List.mem_cons_of_mem session hx))
        (Ticking.sublist hclock (List.sublist_append_right _ _)) (ls ++ [l])
        fun done hdone ls' disk'' hdone' => hportable (session :: done)
          ((List.prefix_cons_inj session).mpr hdone) ls' disk'' (by rw [runAll_cons hrun, hdone'])
      refine ⟨l :: ls', disk'', m', ?_, m₁, m₂, hreread, hexplains, houtlives⟩
      rw [runAll_cons hrun, hrun', List.append_assoc]
      rfl

end Sessions

/-- **The cache outlives the process.** A server is stopped and started any
number of times, with a clock that does not go back and is past 1970, and each
process leaves a store that the next one can take over. Then all processes
start, and all their replies together are those of one abstract cache, to which
a restart does no more than this: what is dead when the load begins is gone, and
the deadline of an item is put off by the time from there to a later reading of
the clock during the load. -/
theorem restarts_keep_cache (P : Platform) (maxKeys : Nat) (junk : Nat → UInt8)
    (sessions : List Session) (hup : ∀ x ∈ sessions, ∀ n, 0 ≤ x.up n ∧ x.up n < 2 ^ 62)
    (hclock : Ticking (sessions.flatMap Session.timeline))
    (hportable : ∀ done, done <+: sessions → ∀ ls disk,
      lives P (snapshotOnly maxKeys) junk done = some (.ok (ls, disk)) →
        ∀ l ∈ ls, Portable P maxKeys l.left) :
    ∃ ls disk m', lives P (snapshotOnly maxKeys) junk sessions = some (.ok (ls, disk)) ∧
      Outlives P sessions ls (fun _ => none) m' := by
  have hfirst : Carries P maxKeys junk {} 0 fun _ => none := Carries.first
  exact lives_carried hfirst (fun x hx n => (hup x hx n).1) hup hclock [] hportable

/-- A key with fifty milliseconds to live, looked at in the next process. While
that one starts, the clock goes from `10` to `12`. -/
def twoSessions : List Session :=
  [⟨fun _ => 1, [Turn.ofWords 2 ["SET", "k", "v", "PX", "50"]], 3⟩,
    ⟨fun n => if n = 0 then 10 else 12, [Turn.ofWords 13 ["PTTL", "k"]], 14⟩]

theorem short_of_entries {P : Platform} {s : Shards}
    (h : ∀ i, ∀ e ∈ (s i).map.entries,
      e.1.length < 2 ^ 32 - 1 ∧ e.2.value.length < 2 ^ 32 - 1) (k : Bytes) (it : Item Bytes)
    (hk : view P s k = some it) : k.length < 2 ^ 32 - 1 ∧ it.value.length < 2 ^ 32 - 1 := by
  obtain ⟨e, he, rfl⟩ := Option.map_eq_some_iff.mp hk
  exact h _ ⟨k, e⟩ (AList.mem_lookup_iff.mp he)

/-- `Portable`, looked up in all shards. -/
def portable (maxKeys : Nat) (s : Shards) : Bool :=
  decide (Store.total s ≤ maxKeys) && decide (∀ i, ∀ e ∈ (s i).map.entries,
    e.1.length < 2 ^ 32 - 1 ∧ e.2.value.length < 2 ^ 32 - 1 ∧ e.2.expiresAtMs < 2 ^ 62)

theorem Portable.of_portable {P : Platform} {maxKeys : Nat} {s : Shards}
    (h : portable maxKeys s = true) : Portable P maxKeys s := by
  simp only [portable, Bool.and_eq_true, decide_eq_true_eq] at h
  refine ⟨h.1, short_of_entries fun i e he => ⟨(h.2 i e he).1, (h.2 i e he).2.1⟩, ?_⟩
  intro k it d hk hd
  obtain ⟨e, he, rfl⟩ := Option.map_eq_some_iff.mp hk
  obtain ⟨-, rfl⟩ := (Entry.item_deadline_iff e d).mp hd
  exact (h.2 _ ⟨k, e⟩ (AList.mem_lookup_iff.mp he)).2.2

/-- The processes of a run, if all of them came to their end. -/
def ended : Option (Except Exn (List Life × Disk)) → List Life
  | some (.ok (ls, _)) => ls
  | _ => []

theorem timeline_twoSessions : twoSessions.flatMap Session.timeline =
    [⟨fun _ => 1, none⟩, Turn.ofWords 2 ["SET", "k", "v", "PX", "50"], Turn.sweep 3,
      ⟨fun n => if n = 0 then 10 else 12, none⟩, Turn.ofWords 13 ["PTTL", "k"], Turn.sweep 14] :=
  rfl

theorem ticking_twoSessions : Ticking (twoSessions.flatMap Session.timeline) := by
  rw [timeline_twoSessions]
  constructor
  · intro t ht a b hab
    simp only [List.mem_cons, List.not_mem_nil, or_false] at ht
    rcases ht with rfl | rfl | rfl | rfl | rfl | rfl
    all_goals grind [Turn.ofWords, Turn.sweep]
  · intro t ht n
    simp only [List.mem_cons, List.not_mem_nil, or_false] at ht
    rcases ht with rfl | rfl | rfl | rfl | rfl | rfl
    all_goals grind [Turn.ofWords, Turn.sweep, Decimal.InRange]
  · simp only [List.pairwise_cons]
    grind [Turn.ofWords, Turn.sweep]

/-- The reply to `PTTL` is `41`: `42` ms were left when the load began, and the
entry was set a millisecond before. Without the restart it would be `39`. -/
theorem restarts_keep_cache_loading :
    ∃ ls disk m', lives .concrete (snapshotOnly 4) (fun _ => 0) twoSessions =
        some (.ok (ls, disk)) ∧
      Outlives .concrete twoSessions ls (fun _ => none) m' ∧
      ls.flatMap (fun l => l.steps.map Step.reply) =
        [RespSerializer.ok, RespSerializer.integer 41] := by
  have hup : ∀ x ∈ twoSessions, ∀ n, 0 ≤ x.up n ∧ x.up n < 2 ^ 62 := by
    intro x hx n
    simp only [twoSessions, List.mem_cons, List.not_mem_nil, or_false] at hx
    rcases hx with rfl | rfl
    all_goals grind
  have hportable : ∀ done ∈ twoSessions.inits,
      (ended (lives .concrete (snapshotOnly 4) (fun _ => 0) done)).all
        (fun l => portable 4 l.left) = true := by decide +kernel
  have hreplies : (ended (lives .concrete (snapshotOnly 4) (fun _ => 0) twoSessions)).flatMap
      (fun l => l.steps.map Step.reply) = [RespSerializer.ok, RespSerializer.integer 41] := by
    decide +kernel
  obtain ⟨ls, disk, m', hrun, houtlives⟩ := restarts_keep_cache .concrete 4 (fun _ => 0)
    twoSessions hup ticking_twoSessions fun done hdone ls disk hrun l hl => by
      have hdone' := hportable done ((List.mem_inits done _).mpr hdone)
      rw [hrun] at hdone'
      exact .of_portable (List.all_eq_true.mp hdone' l hl)
  rw [hrun] at hreplies
  exact ⟨ls, disk, m', hrun, houtlives, hreplies⟩

end RedisCache.Server
