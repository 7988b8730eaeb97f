import Mathlib
import RedisCache.Commands.Capacity
import RedisCache.Persistence.TornTail
import RedisCache.Server.ReplayedKeys

/-!
# Recovery from a snapshot and a log

With both kinds of persistence the server loads the last snapshot and then
replays the WHOLE log over it. Saving and loading give back the dictionary of
the snapshot (`load_saved`), replaying the log of a run plays the run again
(`replay_appended`), and `ReplayedKeys` says which keys come out of that as
they were (`recovery_once`).
-/

namespace RedisCache.Server

open Loop Sections Protocol Storage Commands Network Persistence TimedMap

/-! ## What the snapshot holds -/

section Snapshot

variable (P : Platform) (maxKeys : Nat) (now : Int)

/-- The command fits the containers and formats it is kept in: every one that
can come through a connection does. -/
def Storable (c : RespValue) : Prop :=
  c.array.length ≤ P.reserveLimit ∧ ∀ arg ∈ c.array, arg.str.length < 2 ^ 32 - 1

theorem Storable.holds {c : RespValue} (h : Storable P c) : Aof.Holds P c :=
  ⟨h.1, fun arg harg => lt_trans (h.2 arg harg) (by norm_num)⟩

/-- A key and a value, if there is one, of a length the snapshot can hold. -/
def Short (k : Bytes) (x : Option Bytes) : Prop :=
  ∀ v, x = some v → k.length < 2 ^ 32 - 1 ∧ v.length < 2 ^ 32 - 1

theorem short_added {k : Bytes} (hk : k.length < 2 ^ 32 - 1) (delta : Int) {x : Option Bytes}
    (hx : Short k x) : Short k (added delta x) := by
  unfold added
  split
  · exact hx
  · rintro v hv
    cases hv
    have := Decimal.ofInt_length_le (i64_inRange ((currentOf x).value + delta))
    exact ⟨hk, by omega⟩

/-- The key a command adds to is one of its arguments. -/
theorem mem_of_addsTo {c : Command} {args : List RespValue} {k : Bytes} {delta : Int}
    (h : addsTo k c = some delta) (hfrom : c.From args) : k ∈ args.map RespValue.str := by
  cases c with
  | incr key =>
      obtain ⟨hkey, -⟩ := Option.ite_none_right_eq_some.mp h
      exact hkey ▸ hfrom
  | incrby key delta =>
      obtain ⟨hkey, -⟩ := Option.ite_none_right_eq_some.mp h
      exact hkey ▸ hfrom
  | set | reply | get | del | exist | expire | ttl | pttl | keys | dbsize | flushall => cases h

theorem short_on {c : RespValue} (hc : Storable P c) {k : Bytes} {x : Option Bytes}
    (hx : Short k x) : Short k ((commandOf c).on now k x) := by
  have hfrom := commandOf_from c
  have harg : ∀ s ∈ c.array.map RespValue.str, s.length < 2 ^ 32 - 1 := by
    intro s hs
    obtain ⟨arg, harg, rfl⟩ := List.mem_map.mp hs
    exact hc.2 arg harg
  cases shape now k (commandOf c) with
  | sets value o hset =>
      rw [hset] at hfrom ⊢
      simp only [Command.on]
      split
      · intro v hv
        split at hv
        · cases hv
          exact ⟨harg _ hfrom.1, harg _ hfrom.2.1⟩
        · cases hv
      · exact hx
  | adds delta hadds _ on =>
      rw [on]
      exact short_added (harg k (mem_of_addsTo hadds hfrom)) delta hx
  | removes _ on =>
      rw [on]
      exact fun v hv => by cases hv
  | leaves _ _ on =>
      rw [on]
      exact hx

theorem short_apply {cs : List RespValue} (hcs : ∀ c ∈ cs, Storable P c) {k : Bytes}
    {x : Option Bytes} (hx : Short k x) : Short k (Replay.apply (updates now cs k) x) := by
  induction cs generalizing x with
  | nil => exact hx
  | cons c cs ih =>
      exact ih (fun c' hc' => hcs c' (by simp [hc'])) (short_on P now (hcs c (by simp)) hx)

variable {s : Shards}

/-- Loading a snapshot gives back the dictionary: a deadline that changes on the
way was not due, and is not due. -/
theorem values_loaded (hnow : Decimal.InRange now) (hs : ∀ i, Valid P i (s i))
    (hroom : (Rdb.liveKeys P now s).ncard ≤ maxKeys) (k : Bytes) :
    values P now ((Rdb.setRecords P maxKeys now (Store.records now s)).exec now Store.empty).2 k =
      values P now s k := by
  refine Option.ext fun v => ?_
  simp only [values, Option.map_eq_some_iff, live_eq_some (m := view P (Prod.snd _))]
  simp only [Rdb.view_loaded hs hroom, Store.records_iff P hs now]
  constructor
  · rintro ⟨it, ⟨⟨r, hr, rfl, rfl⟩, -⟩, rfl⟩
    exact ⟨_, ⟨r, hr, rfl, rfl⟩, rfl⟩
  · rintro ⟨it, ⟨r, hr, rfl, rfl⟩, rfl⟩
    have httl : Decimal.InRange (Rdb.ttlOf now r) := by
      unfold Rdb.ttlOf
      split
      · exact i64_inRange _
      · decide
    refine ⟨_, ⟨⟨r, hr, rfl, rfl⟩, ?_⟩, rfl⟩
    rw [Rdb.loadedItem, Rdb.loadedAt, alive_item, lasts_deadlineOf hnow httl]

theorem ncard_liveKeys_le (hs : ∀ i, Valid P i (s i)) :
    (Rdb.liveKeys P now s).ncard ≤ Store.total s := by
  rw [Store.total_eq_ncard P hs]
  refine Set.ncard_le_ncard (fun k hk hnone => hk ?_) (Store.support_finite hs)
  rw [live, hnone, Option.filter_none]

/-- A run that always has room ends within the limit. -/
theorem total_playFrom_le {cs : List RespValue} (hs : ∀ i, Valid P i (s i))
    (hle : Store.total s ≤ maxKeys) (hroom : HasRoom P maxKeys now s cs) :
    Store.total (playFrom P maxKeys s (still now cs)) ≤ maxKeys := by
  induction cs generalizing s with
  | nil => exact hle
  | cons c cs ih =>
      obtain ⟨hlt, hrest⟩ := hroom
      refine ih (Turn.next_valid P maxKeys ⟨fun _ => now, some c⟩ hs) ?_ hrest
      rw [Turn.next_request P maxKeys rfl]
      exact total_command_le (w := ⟨fun _ => now, s⟩) hs (by omega) hle _
        fun _ _ _ => Nat.ne_of_lt hlt

theorem setRecords_safe (rs : List Record) :
    Safe (Valid P) (Rdb.setRecords P maxKeys now rs) := by
  induction rs with
  | nil => exact Safe.pure _
  | cons r rs ih => exact Safe.bind (Store.set_safe P maxKeys _ _ _) fun _ => ih

/-- **Snapshot and load**: the store comes back as the same dictionary. -/
theorem load_saved (hnow : Decimal.InRange now) (hs : ∀ i, Valid P i (s i))
    (hle : Store.total s ≤ maxKeys) (hshort : ∀ k, Short k (values P now s k))
    (files : Rdb.Files) (junk : Nat → UInt8) :
    ∃ n tail, ((Rdb.load P maxKeys junk ((Rdb.save {} files).exec now s).1.2.path).exec now
        Store.empty).1 = some (n, tail) ∧
      (∀ i, Valid P i (((Rdb.load P maxKeys junk
        ((Rdb.save {} files).exec now s).1.2.path).exec now Store.empty).2 i)) ∧
      ∀ k, values P now ((Rdb.load P maxKeys junk
        ((Rdb.save {} files).exec now s).1.2.path).exec now Store.empty).2 k =
          values P now s k := by
  have hsmall : Rdb.Small P now s := by
    intro k it hit
    exact hshort k it.value (by rw [values, hit]; rfl)
  have hfresh : ∀ r ∈ Store.records now s, Rdb.stale now r = false := fun _ hr =>
    Rdb.record_fresh hs hr
  have hload := Rdb.exec_load P maxKeys junk (fun r => Rdb.record_fits hs hsmall) hfresh []
    Store.empty
  rw [List.append_nil] at hload
  rw [Rdb.exec_save, Rdb.saved, hload]
  exact ⟨_, _, rfl, (setRecords_safe P maxKeys now _).exec now (Store.empty_valid P),
    values_loaded P maxKeys now hnow hs ((ncard_liveKeys_le P now hs).trans hle)⟩

end Snapshot

/-! ## The log -/

section Log

variable (P : Platform) (maxKeys : Nat) (now : Int)

theorem next_of_not_array {c : RespValue} (hc : c.type ≠ .array) (s : Shards) :
    Turn.next P maxKeys s ⟨fun _ => now, some c⟩ = s := by
  have hreply : commandOf c = .reply invalidRequest := by
    unfold commandOf
    split
    · rfl
    · rw [if_pos hc]
  rw [Turn.next_request P maxKeys rfl, hreply]
  rfl

/-- The others change nothing. -/
theorem playFrom_arrays (s : Shards) (cs : List RespValue) :
    playFrom P maxKeys s (still now (Aof.arrays cs)) = playFrom P maxKeys s (still now cs) := by
  induction cs generalizing s with
  | nil => rfl
  | cons c cs ih =>
      have hcons : playFrom P maxKeys s (still now (c :: cs)) =
          playFrom P maxKeys (Turn.next P maxKeys s ⟨fun _ => now, some c⟩) (still now cs) := rfl
      by_cases hc : c.type = .array
      · rw [Aof.arrays, List.filter_cons_of_pos (by simpa using hc), hcons, ← ih]
        rfl
      · rw [Aof.arrays, List.filter_cons_of_neg (by simpa using hc), hcons,
          next_of_not_array P maxKeys now hc, ← ih]
        rfl

/-- The arguments that come back as bulk strings are served alike. -/
theorem foldl_executor {cs : List RespValue} (hcs : ∀ c ∈ cs, c.type = .array) (s : Shards) :
    cs.foldl (fun w c => Aof.executor P maxKeys (asBulks c) w) ⟨fun _ => now, s⟩ =
      ⟨fun _ => now, playFrom P maxKeys s (still now cs)⟩ := by
  induction cs generalizing s with
  | nil => rfl
  | cons c cs ih =>
      have hstep : Aof.executor P maxKeys (asBulks c) ⟨fun _ => now, s⟩ =
          ⟨fun _ => now, Turn.next P maxKeys s ⟨fun _ => now, some c⟩⟩ := by
        rw [Aof.executor, dispatch_asBulks P maxKeys (hcs c (by simp)), Prog.run_const]
        rfl
      rw [List.foldl_cons, hstep, ih fun c' hc' => hcs c' (by simp [hc'])]
      rfl

/-- **Replaying the log of a run** at one clock reading plays the run again. -/
theorem replay_appended {cs : List RespValue} (hcs : ∀ c ∈ cs, Storable P c)
    (hlen : (Aof.appended [] cs).length < sizeLimit) (s : Shards) :
    Aof.replay P (Aof.executor P maxKeys) (some (Aof.appended [] cs)) ⟨fun _ => now, s⟩ =
      some (.ok ((Aof.arrays cs).length,
        ⟨fun _ => now, playFrom P maxKeys s (still now cs)⟩)) := by
  rw [Aof.appended_arrays, List.nil_append] at hlen ⊢
  have hholds : ∀ c ∈ Aof.arrays cs, Aof.Holds P c := fun c hc =>
    (hcs c (List.mem_of_mem_filter hc)).holds P
  have hreplay := Aof.replay_log P (Aof.executor P maxKeys) hholds (r := []) (.inl rfl)
    (by rwa [List.append_nil]) (⟨fun _ => now, s⟩ : World Index Shard)
  rw [List.append_nil] at hreplay
  rw [hreplay, ← playFrom_arrays, foldl_executor P maxKeys now fun c hc => ?_]
  simpa using (List.mem_filter.mp hc).2

end Log

/-! ## Restarting -/

/-- Both kinds of persistence. -/
def both (maxKeys : Nat) : Config := { maxKeys, rdbEnabled := true, aofEnabled := true }

theorem recover_both (P : Platform) (maxKeys : Nat) (junk : Nat → UInt8) (now : Int) {disk : Disk}
    {file : Bytes} (hfile : disk.aof = some file) {x : Nat × Bytes}
    (hload : ((Rdb.load P maxKeys junk disk.rdb).exec now Store.empty).1 = some x)
    {n : Nat} {w : World Index Shard}
    (hreplay : Aof.replay P (Aof.executor P maxKeys) (some file)
      ⟨fun _ => now, ((Rdb.load P maxKeys junk disk.rdb).exec now Store.empty).2⟩ =
        some (.ok (n, w))) :
    recover P (both maxKeys) junk disk (fun _ => now) = some (.ok (w, disk)) := by
  have hopen : disk.openAof = disk := by rw [Disk.openAof, hfile]; cases disk; cases hfile; rfl
  have hsnap : loadSnapshot P (both maxKeys) junk disk ⟨fun _ => now, Store.empty⟩ =
      some ⟨fun _ => now, ((Rdb.load P maxKeys junk disk.rdb).exec now Store.empty).2⟩ := by
    simp only [loadSnapshot, both, if_true, Prog.run_const, hload]
  rw [recover, hsnap]
  simp only [replayLog, both, if_true, hopen, hfile, hreplay]
  rfl

/-- What `k` holds behind the commands `as`, executed from the empty store. -/
def heldIn (P : Platform) (maxKeys : Nat) (now : Int) (k : Bytes) (as : List RespValue) :
    Option Bytes :=
  values P now (playFrom P maxKeys Store.empty (still now as)) k

theorem heldIn_eq {P : Platform} {maxKeys : Nat} {now : Int} {cs as : List RespValue}
    (hroom : HasRoom P maxKeys now Store.empty cs) (has : as <+: cs) (k : Bytes) :
    heldIn P maxKeys now k as = heldAfter now k as := by
  have htake := hroom.take P maxKeys now as.length
  rw [← List.prefix_iff_eq_take.mp has] at htake
  rw [heldIn, values_playFrom P maxKeys now (Store.empty_valid P) htake, values_empty, heldAfter]

/-- **When recovery applies every command once.** Commands executed from the
empty store at one clock reading, each appended to the log; a snapshot after
any `n` of them; then a restart that loads the snapshot and replays the log,
with fewer than `max_keys` keys before each command, in the run and in the
replay. A key holds what it held before if some command of the run sets or
removes it, if it was not in the snapshot, or if before the snapshot no `SET
XX` named it and it was no number or nothing was added to it on balance
(`Harmless`). Where no `SET XX` named it, only then. -/
theorem recovery_once (P : Platform) (maxKeys : Nat) (now : Int) (hnow : Decimal.InRange now)
    (cs : List RespValue) (hcs : ∀ c ∈ cs, Storable P c)
    (hlen : (Aof.appended [] cs).length < sizeLimit)
    (hroom : HasRoom P maxKeys now Store.empty cs) (n : Nat) (files : Rdb.Files)
    (junk : Nat → UInt8) (disk : Disk)
    (hrdb : disk.rdb = ((Rdb.save {} files).exec now
      (playFrom P maxKeys Store.empty (still now (cs.take n)))).1.2.path)
    (haof : disk.aof = some (Aof.appended [] cs))
    (hroom' : HasRoom P maxKeys now
      ((Rdb.load P maxKeys junk disk.rdb).exec now Store.empty).2 cs) :
    ∃ w, recover P (both maxKeys) junk disk (fun _ => now) = some (.ok (w, disk)) ∧
      ∀ k, (Harmless now k (heldIn P maxKeys now k) cs n →
          values P now w.cells k = heldIn P maxKeys now k cs) ∧
        ((∀ c ∈ cs.take n, ¬ Waits k (commandOf c)) →
          values P now w.cells k = heldIn P maxKeys now k cs →
            Harmless now k (heldIn P maxKeys now k) cs n) := by
  have hvalid := playFrom_valid P maxKeys (Store.empty_valid P) (still now (cs.take n))
  have hroomN : HasRoom P maxKeys now Store.empty (cs.take n) := hroom.take P maxKeys now n
  have hheld : ∀ k as, as <+: cs → heldIn P maxKeys now k as = heldAfter now k as :=
    fun k as has => heldIn_eq hroom has k
  have hshort : ∀ k, Short k (heldIn P maxKeys now k (cs.take n)) := by
    intro k
    rw [hheld k _ (List.take_prefix n cs)]
    exact short_apply P now (fun c hc => hcs c (List.mem_of_mem_take hc)) fun v hv => by cases hv
  have hle := total_playFrom_le P maxKeys now (Store.empty_valid P)
    (by rw [Store.total_empty]; omega) hroomN
  obtain ⟨m, tail, hload, hvalid', hloaded⟩ :=
    load_saved P maxKeys now hnow hvalid hle hshort files junk
  rw [← hrdb] at hload hvalid' hloaded
  refine ⟨_, recover_both P maxKeys junk now haof hload
    (replay_appended P maxKeys now hcs hlen _), fun k => ?_⟩
  -- the loaded store holds the dictionary of the snapshot, and the log acts on that
  rw [values_playFrom P maxKeys now hvalid' hroom', hloaded, hheld k cs List.prefix_rfl,
    show values P now (playFrom P maxKeys Store.empty (still now (cs.take n))) k =
      heldAfter now k (cs.take n) from hheld k _ (List.take_prefix n cs)]
  refine ⟨fun h => replay_of_harmless (h.congr (hheld k)), fun hwaits hsame => ?_⟩
  exact (harmless_of_replay hwaits hsame).congr fun as has => (hheld k as has).symm

theorem storable_requestOf {words : List String}
    (h : words.length ≤ Platform.concrete.reserveLimit)
    (hw : ∀ w ∈ words, (ascii w).length < 2 ^ 32 - 1) : Storable .concrete (requestOf words) := by
  refine ⟨by simpa [requestOf] using h, fun arg harg => ?_⟩
  obtain ⟨w, hmem, rfl⟩ := List.mem_map.mp harg
  exact hw w hmem

/-- The files after a run with a snapshot behind its first `n` commands. -/
def savedAfter (cs : List RespValue) (n : Nat) : Disk where
  rdb := ((Rdb.save {} {}).exec 0
    (playFrom .concrete 4 Store.empty (still 0 (cs.take n)))).1.2.path
  aof := some (Aof.appended [] cs)

/-- A counter that starts with a `SET`. -/
def setCounter : List RespValue := [requestOf ["SET", "a", "5"], requestOf ["INCR", "a"]]

theorem harmless_setCounter (k : Bytes) :
    Harmless 0 k (heldIn .concrete 4 0 k) setCounter 2 := by
  by_cases hk : ascii "a" = k
  · exact .fixed [] (requestOf ["SET", "a", "5"]) [requestOf ["INCR", "a"]] rfl
      ⟨hk, rfl, fun hxx => by cases hxx⟩
  · refine .level (fun c hc hwaits => ?_) (.inr ?_)
    · rcases List.mem_cons.mp hc with rfl | hc
      · exact hk hwaits.1
      · obtain rfl := List.mem_singleton.mp hc
        exact hwaits
    · have hset : addsTo k (commandOf (requestOf ["SET", "a", "5"])) = none := rfl
      have hincr : addsTo k (commandOf (requestOf ["INCR", "a"])) = none := if_neg hk
      have hnothing : addedTo k (setCounter.take 2) = [] := by
        simp [setCounter, addedTo, hset, hincr]
      rw [hnothing]
      decide

theorem storable_setCounter : ∀ c ∈ setCounter, Storable .concrete c := by
  intro c hc
  rcases List.mem_cons.mp hc with rfl | hc
  · exact storable_requestOf (by decide) (by decide)
  · obtain rfl := List.mem_singleton.mp hc
    exact storable_requestOf (by decide) (by decide)

theorem recovery_once_setCounter :
    ∃ w, recover .concrete (both 4) (fun _ => 0) (savedAfter setCounter 2) (fun _ => 0) =
        some (.ok (w, savedAfter setCounter 2)) ∧
      ∀ k, values .concrete 0 w.cells k = heldIn .concrete 4 0 k setCounter := by
  have hroom : HasRoom .concrete 4 0 Store.empty setCounter :=
    ⟨by decide +kernel, by decide +kernel, trivial⟩
  have hroom' : HasRoom .concrete 4 0
      ((Rdb.load .concrete 4 (fun _ => 0) (savedAfter setCounter 2).rdb).exec 0 Store.empty).2
      setCounter :=
    ⟨by decide +kernel, by decide +kernel, trivial⟩
  obtain ⟨w, hrecover, hkeys⟩ := recovery_once .concrete 4 0 (by decide) setCounter
    storable_setCounter (by decide +kernel) hroom 2 {} (fun _ => 0) (savedAfter setCounter 2) rfl
    rfl hroom'
  exact ⟨w, hrecover, fun k => (hkeys k).1 (harmless_setCounter k)⟩

/-- A counter that starts with its `INCR`: it was `1`, and it comes back as `2`. -/
theorem recovery_counts_twice :
    ((recover .concrete (both 4) (fun _ => 0) (savedAfter [requestOf ["INCR", "a"]] 1)
        (fun _ => 0)).bind Except.toOption).map
      (fun x => (values .concrete 0 x.1.cells (ascii "a"),
        values .concrete 0 (playFrom .concrete 4 Store.empty
          (still 0 [requestOf ["INCR", "a"]])) (ascii "a"))) =
    some (some (ascii "2"), some (ascii "1")) := by
  decide +kernel

end RedisCache.Server
