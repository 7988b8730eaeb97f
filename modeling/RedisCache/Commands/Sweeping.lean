import Mathlib
import RedisCache.Commands.Effects
import RedisCache.Commands.Runs
import RedisCache.Storage.Capacity

/-!
# Sweeps between the commands

One run of commands, played twice from the same store: as it is, and with
sweeps put in between. The second store is the first one without some dead
entries (`Twin`), and every command but `DEL` asks for live ones, so the
replies are the same. `DEL` counts an entry that is dead but still there,
and that is the only way to notice a sweep.
-/

namespace RedisCache.Commands

open Sections Protocol Storage TimedMap

/-! ## Two stores -/

/-- The second store is the first one without some entries dead at `now`. -/
structure Twin (P : Platform) (now : Int) (s s' : Shards) : Prop where
  valid : ∀ i, Valid P i (s i)
  valid' : ∀ i, Valid P i (s' i)
  tidied : Tidied now (view P s) (view P s')

/-- Clock readings from `now` on that never go back. -/
structure ClockFrom (now : Int) (clock : Nat → Int) : Prop where
  start : ∀ n, now ≤ clock n
  mono : Monotone clock
  ranged : ∀ n, Decimal.InRange (clock n)

theorem ClockFrom.shift {now : Int} {clock : Nat → Int} (h : ClockFrom now clock) (d : Nat) :
    ClockFrom now fun n => clock (n + d) :=
  ⟨fun n => h.start (n + d), fun _ _ hab => h.mono (Nat.add_le_add_right hab d),
    fun n => h.ranged (n + d)⟩

namespace Twin

variable {P : Platform} {maxKeys : Nat} {now : Int} {s s' t t' : Shards} {clock : Nat → Int}

theorem refl (now : Int) (hs : ∀ i, Valid P i (s i)) : Twin P now s s :=
  ⟨hs, hs, Tidied.refl now _⟩

theorem later {u : Int} (h : Twin P now s s') (hu : now ≤ u) : Twin P u s s' :=
  ⟨h.valid, h.valid', h.tidied.later hu⟩

theorem live_eq (h : Twin P now s s') {u : Int} (hu : now ≤ u) :
    live u (view P s') = live u (view P s) := h.tidied.live_eq hu

theorem total_le (h : Twin P now s s') : Store.total s' ≤ Store.total s :=
  Store.total_mono h.valid h.valid' fun _ hk => h.tidied.subset hk

/-- Both sides write the same to one key. -/
theorem write (h : Twin P now s s') (ht : ∀ i, Valid P i (t i)) (ht' : ∀ i, Valid P i (t' i))
    {key : Bytes} {o : Option (Item Bytes)}
    (hview : view P t = Function.update (view P s) key o)
    (hview' : view P t' = Function.update (view P s') key o) : Twin P now t t' :=
  ⟨ht, ht', by
    rw [hview, hview']
    exact h.tidied.update key o⟩

/-- Only the second side is swept. -/
theorem sweep (h : Twin P now s s') (hu : now ≤ clock 0) :
    Twin P (clock 0) s (Store.sweepExpired.run ⟨clock, s'⟩).2.cells where
  valid := h.valid
  valid' := (Store.sweepExpired_safe P).run (w := ⟨clock, s'⟩) h.valid'
  tidied := by
    rw [Store.view_run_sweepExpired P (w := ⟨clock, s'⟩) h.valid']
    exact (h.tidied.later hu).live

/-! ## The store functions -/

theorem get_fst (h : Twin P now s s') (hc : ClockFrom now clock) (key : Bytes) :
    ((Store.get P key).run ⟨clock, s'⟩).1 = ((Store.get P key).run ⟨clock, s⟩).1 := by
  have hmono : clock 0 ≤ clock 2 := hc.mono (by omega)
  rw [Store.run_get_fst P (w := ⟨clock, s'⟩) key hmono,
    Store.run_get_fst P (w := ⟨clock, s⟩) key hmono, h.live_eq (hc.start 0)]

theorem get_snd (h : Twin P now s s') (hc : ClockFrom now clock) (key : Bytes) :
    Twin P now ((Store.get P key).run ⟨clock, s⟩).2.cells
      ((Store.get P key).run ⟨clock, s'⟩).2.cells := by
  have hmono : clock 0 ≤ clock 2 := hc.mono (by omega)
  have hs := (Store.get_safe P key).run (w := ⟨clock, s⟩) h.valid
  have hs' := (Store.get_safe P key).run (w := ⟨clock, s'⟩) h.valid'
  have hview := Store.view_run_get_of_le P (w := ⟨clock, s⟩) key hmono
  have hview' := Store.view_run_get_of_le P (w := ⟨clock, s'⟩) key hmono
  simp only [h.live_eq (hc.start 0)] at hview'
  split at hview
  · rename_i hdead
    rw [if_pos hdead] at hview'
    exact h.write hs hs' hview hview'
  · rename_i hlive
    rw [if_neg hlive] at hview'
    exact ⟨hs, hs', by rw [hview, hview']; exact h.tidied⟩

/-- The clocks may differ as long as the deadline does not. -/
theorem set {w w' : World Index Shard} (h : Twin P now w.cells w'.cells)
    (hroom : Store.total w.cells < maxKeys) (key value : Bytes) {ttlMs : Int}
    (hdeadline : Store.deadlineOf (w'.clock 32) ttlMs = Store.deadlineOf (w.clock 32) ttlMs) :
    Twin P now ((Store.set P maxKeys key value ttlMs).run w).2.cells
      ((Store.set P maxKeys key value ttlMs).run w').2.cells := by
  refine h.write ((Store.set_safe P maxKeys key value ttlMs).run h.valid)
    ((Store.set_safe P maxKeys key value ttlMs).run h.valid')
    (Store.view_run_set P maxKeys key hroom value ttlMs) ?_
  rw [Store.view_run_set P maxKeys key (h.total_le.trans_lt hroom) value ttlMs, hdeadline]

theorem expire (h : Twin P now s s') (hc : ClockFrom now clock) (key : Bytes) (ttlMs : Int) :
    Twin P now ((Store.expire P key ttlMs).run ⟨clock, s⟩).2.cells
      ((Store.expire P key ttlMs).run ⟨clock, s'⟩).2.cells := by
  have hs := (Store.expire_safe P key ttlMs).run (w := ⟨clock, s⟩) h.valid
  have hs' := (Store.expire_safe P key ttlMs).run (w := ⟨clock, s'⟩) h.valid'
  have hview := Store.view_run_expire_live P ⟨clock, s⟩ key ttlMs
  have hview' := Store.view_run_expire_live P ⟨clock, s'⟩ key ttlMs
  simp only [h.live_eq (hc.start 0)] at hview'
  cases hl : live (clock 0) (view P s) key with
  | none =>
      simp only [hl] at hview hview'
      exact ⟨hs, hs', by rw [hview, hview']; exact h.tidied⟩
  | some it =>
      simp only [hl] at hview hview'
      exact h.write hs hs' hview hview'

theorem counterOf_eq (h : Twin P now s s') (hc : ClockFrom now clock) (key : Bytes) :
    Store.counterOf (clock 0) (view P s') key = Store.counterOf (clock 0) (view P s) key :=
  Store.counterOf_congr (congrFun (h.live_eq (hc.start 0)) key)

theorem incr (h : Twin P now s s') (hc : ClockFrom now clock) (key : Bytes) :
    Twin P now ((Store.incr P key).run ⟨clock, s⟩).2.cells
      ((Store.incr P key).run ⟨clock, s'⟩).2.cells := by
  have hs := (Store.incr_safe P key).run (w := ⟨clock, s⟩) h.valid
  have hs' := (Store.incr_safe P key).run (w := ⟨clock, s'⟩) h.valid'
  have hview := Store.view_run_incr P ⟨clock, s⟩ key
  have hview' := Store.view_run_incr P ⟨clock, s'⟩ key
  simp only [h.counterOf_eq hc] at hview'
  cases hn : Store.counterOf (clock 0) (view P s) key with
  | none =>
      simp only [hn] at hview hview'
      exact ⟨hs, hs', by rw [hview, hview']; exact h.tidied⟩
  | some n =>
      simp only [hn] at hview hview'
      exact h.write hs hs' hview hview'

theorem flush (h : Twin P now s s') :
    Twin P now (Store.flush.run ⟨clock, s⟩).2.cells (Store.flush.run ⟨clock, s'⟩).2.cells :=
  ⟨(Store.flush_safe P).run (w := ⟨clock, s⟩) h.valid,
    (Store.flush_safe P).run (w := ⟨clock, s'⟩) h.valid', by
    rw [Store.view_run_flush, Store.view_run_flush]
    exact Tidied.refl _ _⟩

theorem countOf_exists (h : Twin P now s s') (hc : ClockFrom now clock) (ks : List Bytes)
    (n : Int) :
    ((countOf (Store.existsKey P) ks n).run ⟨clock, s'⟩).1 =
      ((countOf (Store.existsKey P) ks n).run ⟨clock, s⟩).1 := by
  induction ks generalizing clock n with
  | nil => rfl
  | cons k ks ih =>
      simp only [countOf, Prog.run_bind, Store.run_existsKey_view, h.live_eq (hc.start 0)]
      exact ih (hc.shift 2) _

theorem countOf_del (h : Twin P now s s') (ks : List Bytes) (n : Int) :
    Twin P now ((countOf (Store.del P) ks n).run ⟨clock, s⟩).2.cells
      ((countOf (Store.del P) ks n).run ⟨clock, s'⟩).2.cells where
  valid := (countOf_safe P (Store.del_safe P) ks n).run (w := ⟨clock, s⟩) h.valid
  valid' := (countOf_safe P (Store.del_safe P) ks n).run (w := ⟨clock, s'⟩) h.valid'
  tidied := by
    rw [view_run_countOf_del, view_run_countOf_del]
    intro k
    by_cases hk : k ∈ ks
    · simp [hk]
    · simpa [live, hk] using h.tidied k

end Twin

/-! ## Counting what DEL removes -/

/-- The count of `DEL`, from the view alone. -/
def tally (m : Bytes → Option (Item Bytes)) : List Bytes → Int → Int
  | [], n => n
  | k :: ks, n => tally (Function.update m k none) ks (if (m k).isSome then i64 (n + 1) else n)

theorem run_countOf_del_fst (P : Platform) (ks : List Bytes) (n : Int) (w : World Index Shard) :
    ((countOf (Store.del P) ks n).run w).1 = tally (view P w.cells) ks n := by
  induction ks generalizing n w with
  | nil => rfl
  | cons k ks ih => rw [countOf, Prog.run_bind, ih, Store.run_del_fst, Store.view_run_del, tally]

theorem tally_congr {m m' : Bytes → Option (Item Bytes)} {ks : List Bytes}
    (h : ∀ k ∈ ks, m' k = m k) (n : Int) : tally m' ks n = tally m ks n := by
  induction ks generalizing m m' n with
  | nil => rfl
  | cons k ks ih =>
      rw [tally, tally, h k List.mem_cons_self]
      refine ih (fun k' hk' => ?_) _
      by_cases hkk : k' = k
      · rw [hkk, Function.update_self, Function.update_self]
      · rw [Function.update_of_ne hkk, Function.update_of_ne hkk]
        exact h k' (List.mem_cons_of_mem k hk')

/-- The keys `DEL` finds. -/
def found (m : Bytes → Option (Item Bytes)) (ks : List Bytes) : Finset Bytes :=
  ks.toFinset.filter fun k => (m k).isSome

theorem found_update (m : Bytes → Option (Item Bytes)) (k : Bytes) (ks : List Bytes) :
    found (Function.update m k none) ks = (found m ks).erase k := by
  ext k'
  by_cases hk : k' = k
  · simp [found, hk]
  · simp [found, hk]

/-- It counts each of them once, in `int64_t`. -/
theorem tally_eq (m : Bytes → Option (Item Bytes)) (ks : List Bytes) {n : Int}
    (hn : Decimal.InRange n) : tally m ks n = i64 (n + (found m ks).card) := by
  induction ks generalizing m n with
  | nil => simpa [tally, found] using (i64_of_inRange hn).symm
  | cons k ks ih =>
      rw [tally]
      cases hk : (m k).isSome with
      | true =>
          have hcard : (found m (k :: ks)).card = ((found m ks).erase k).card + 1 := by
            have hinsert : found m (k :: ks) = insert k ((found m ks).erase k) := by
              ext k'
              by_cases hkk : k' = k
              · simp [found, hkk, hk]
              · simp [found, hkk]
            rw [hinsert, Finset.card_insert_of_notMem (Finset.notMem_erase k _)]
          rw [if_pos rfl, ih _ (i64_inRange _), found_update, hcard]
          unfold i64
          omega
      | false =>
          have hsame : found m (k :: ks) = (found m ks).erase k := by
            ext k'
            by_cases hkk : k' = k
            · simp [found, hkk, hk]
            · simp [found, hkk]
          rw [if_neg (by simp), ih _ hn, found_update, hsame]

/-! ## One command -/

/-- The same reply: `KEYS` in any order, and anything for `DBSIZE`. -/
def SameReply (c : Command) (r r' : Bytes) : Prop :=
  match c with
  | .dbsize => True
  | .keys _ => ∃ ks ks', r = RespSerializer.array ks ∧ r' = RespSerializer.array ks' ∧ ks.Perm ks'
  | _ => r = r'

/-- A `DEL` that names a key whose entry is dead but still there. -/
def DelOfExpired (P : Platform) (s : Shards) (t : Turn) : Prop :=
  ∃ req ks k, t.request = some req ∧ commandOf req = .del ks ∧ k ∈ ks ∧ view P s k ≠ none ∧
    live (t.clock 0) (view P s) k = none

namespace Twin

variable {P : Platform} {maxKeys : Nat} {now : Int} {s s' : Shards} {clock : Nat → Int}

theorem blocks_eq (h : Twin P now s s') (hc : ClockFrom now clock) (key : Bytes)
    (o : SetOptions) : o.blocks clock (view P s') key = o.blocks clock (view P s) key := by
  rw [SetOptions.blocks, SetOptions.blocks, h.live_eq (hc.start 0), h.live_eq (hc.start _)]

theorem set_command (h : Twin P now s s') (hc : ClockFrom now clock)
    (hroom : Store.total s < maxKeys) (key value : Bytes) (o : SetOptions) :
    (((Command.set key value o).prog P maxKeys).run ⟨clock, s'⟩).1 =
        (((Command.set key value o).prog P maxKeys).run ⟨clock, s⟩).1 ∧
      Twin P now (((Command.set key value o).prog P maxKeys).run ⟨clock, s⟩).2.cells
        (((Command.set key value o).prog P maxKeys).run ⟨clock, s'⟩).2.cells := by
  have hblocks := h.blocks_eq hc key o
  cases hb : o.blocks clock (view P s) key with
  | true =>
      obtain ⟨hr, hs⟩ := run_set_blocked P maxKeys (w := ⟨clock, s⟩) hb value
      obtain ⟨hr', hs'⟩ := run_set_blocked P maxKeys (w := ⟨clock, s'⟩) (hblocks.trans hb) value
      exact ⟨hr'.trans hr.symm, by rwa [hs, hs']⟩
  | false =>
      simp only [run_set_free P maxKeys (w := ⟨clock, s⟩) hb value,
        run_set_free P maxKeys (w := ⟨clock, s'⟩) (hblocks.trans hb) value]
      exact ⟨trivial, @set P maxKeys now ⟨fun n => clock (n + o.readings), s⟩
        ⟨fun n => clock (n + o.readings), s'⟩ h hroom key value o.ttlMs rfl⟩

/-- The read may leave the two clocks at different readings; the write does
not look at its clock. -/
theorem incrby_command (h : Twin P now s s') (hc : ClockFrom now clock)
    (hroom : Store.total s < maxKeys) (key : Bytes) (delta : Int) :
    (((Command.incrby key delta).prog P maxKeys).run ⟨clock, s'⟩).1 =
        (((Command.incrby key delta).prog P maxKeys).run ⟨clock, s⟩).1 ∧
      Twin P now (((Command.incrby key delta).prog P maxKeys).run ⟨clock, s⟩).2.cells
        (((Command.incrby key delta).prog P maxKeys).run ⟨clock, s'⟩).2.cells := by
  have hfst := h.get_fst hc key
  have hsnd := h.get_snd hc key
  have hroom' := (Store.total_run_get_le (w := ⟨clock, s⟩) h.valid key).trans_lt hroom
  by_cases hec : (currentOf ((Store.get P key).run ⟨clock, s⟩).1).ec = none
  · have hec' : (currentOf ((Store.get P key).run ⟨clock, s'⟩).1).ec = none := by rwa [hfst]
    simp only [run_incrby_added P maxKeys hec, run_incrby_added P maxKeys hec', hfst]
    refine ⟨trivial, hsnd.set hroom' key _ ?_⟩
    rw [Store.deadlineOf_of_nonpos (by decide), Store.deadlineOf_of_nonpos (by decide)]
  · have hec' : ¬ (currentOf ((Store.get P key).run ⟨clock, s'⟩).1).ec = none := by rwa [hfst]
    simp only [run_incrby_refused P maxKeys hec, run_incrby_refused P maxKeys hec']
    exact ⟨trivial, hsnd⟩

theorem keys_command (h : Twin P now s s') (hc : ClockFrom now clock) (pattern : Bytes) :
    ((Store.keys P pattern).run ⟨clock, s'⟩).1.Perm ((Store.keys P pattern).run ⟨clock, s⟩).1 := by
  obtain ⟨hnd, hmem⟩ := Store.run_keys_view P (w := ⟨clock, s⟩) h.valid pattern
  obtain ⟨hnd', hmem'⟩ := Store.run_keys_view P (w := ⟨clock, s'⟩) h.valid' pattern
  refine (List.perm_ext_iff_of_nodup hnd' hnd).mpr fun k => ?_
  rw [hmem, hmem', h.live_eq (hc.start 0)]

/-- What is there is live, and so it is there on both sides. -/
theorem tally_eq_tally (h : Twin P now s s') (hc : ClockFrom now clock) {ks : List Bytes}
    (hlive : ∀ k ∈ ks, view P s k ≠ none → live (clock 0) (view P s) k ≠ none) (n : Int) :
    tally (view P s') ks n = tally (view P s) ks n := by
  refine tally_congr (fun k hk => ?_) n
  by_cases hnone : view P s k = none
  · by_contra hne
    exact h.tidied.subset (k := k) (fun hnone' => hne (hnone'.trans hnone.symm)) hnone
  · exact (h.later (hc.start 0)).tidied.eq_of_live (hlive k hk hnone)

/-- A command on the two stores, at the same clock readings. -/
theorem command (h : Twin P now s s') (hc : ClockFrom now clock)
    (hroom : Store.total s < maxKeys) (c : Command)
    (hdel : ∀ ks, c = .del ks → ∀ k ∈ ks, view P s k ≠ none →
      live (clock 0) (view P s) k ≠ none) :
    SameReply c ((c.prog P maxKeys).run ⟨clock, s'⟩).1 ((c.prog P maxKeys).run ⟨clock, s⟩).1 ∧
      Twin P now ((c.prog P maxKeys).run ⟨clock, s⟩).2.cells
        ((c.prog P maxKeys).run ⟨clock, s'⟩).2.cells := by
  cases c with
  | reply r => exact ⟨rfl, h⟩
  | set key value o => exact h.set_command hc hroom key value o
  | get key =>
      simp only [Command.prog, Prog.run_map, h.get_fst hc key]
      exact ⟨rfl, h.get_snd hc key⟩
  | del ks =>
      simp only [Command.prog, Prog.run_map, run_countOf_del_fst]
      exact ⟨congrArg _ (h.tally_eq_tally hc (hdel ks rfl) 0), h.countOf_del ks 0⟩
  | exist ks =>
      simp only [Command.prog, Prog.run_map, run_countOf_exists, h.countOf_exists hc ks 0]
      exact ⟨rfl, h⟩
  | expire key ttlMs =>
      simp only [Command.prog, Prog.run_map, Store.run_expire_fst, h.live_eq (hc.start 0)]
      exact ⟨rfl, h.expire hc key ttlMs⟩
  | ttl key | pttl key =>
      simp only [Command.prog, Prog.run_map,
        Store.run_ttl_view P (w := ⟨clock, s⟩) key (hc.ranged 0).2 h.valid,
        Store.run_ttl_view P (w := ⟨clock, s'⟩) key (hc.ranged 0).2 h.valid',
        h.live_eq (hc.start 0)]
      exact ⟨rfl, h⟩
  | incr key =>
      simp only [Command.prog, Prog.run_map, Store.run_incr_fst, h.counterOf_eq hc]
      exact ⟨rfl, h.incr hc key⟩
  | incrby key delta => exact h.incrby_command hc hroom key delta
  | keys pattern =>
      simp only [Command.prog, Prog.run_map]
      refine ⟨⟨_, _, rfl, rfl, h.keys_command hc pattern⟩, ?_⟩
      rwa [Store.run_keys, Store.run_keys]
  | dbsize =>
      -- `size` counts dead entries too: its replies are not compared
      simp only [Command.prog, Prog.run_map, Store.run_size]
      exact ⟨trivial, h⟩
  | flushall =>
      simp only [Command.prog, Prog.run_bind, Prog.run_pure]
      exact ⟨rfl, h.flush⟩

end Twin

/-! ## Whole runs -/

/-- Clock readings that never go back, within a turn and from turn to turn. -/
structure Ticking (turns : List Turn) : Prop where
  mono : ∀ t ∈ turns, Monotone t.clock
  ranged : ∀ t ∈ turns, ∀ n, Decimal.InRange (t.clock n)
  forward : turns.Pairwise fun t u => ∀ m n, t.clock m ≤ u.clock n

/-- Two exchanges of the same request, with the same reply. -/
def SameExchange (a b : RespValue × Bytes) : Prop :=
  a.1 = b.1 ∧ SameReply (commandOf a.1) a.2 b.2

/-- The commands of a run with sweeps. -/
def commands (turns : List Turn) : List Turn := turns.filter fun t => t.request.isSome

section Runs

variable {P : Platform} {maxKeys : Nat} {now : Int} {s s' : Shards}

theorem Ticking.clockFrom {t : Turn} {turns : List Turn} (h : Ticking (t :: turns))
    (hnow : ∀ u ∈ t :: turns, ∀ n, now ≤ u.clock n) : ClockFrom now t.clock :=
  ⟨hnow t List.mem_cons_self, h.mono t List.mem_cons_self, h.ranged t List.mem_cons_self⟩

theorem Ticking.tail {t : Turn} {turns : List Turn} (h : Ticking (t :: turns)) : Ticking turns :=
  ⟨fun u hu => h.mono u (List.mem_cons_of_mem t hu),
    fun u hu => h.ranged u (List.mem_cons_of_mem t hu), h.forward.tail⟩

/-- Induction on the run with sweeps: a sweep moves only the second store, a
command moves both. -/
theorem transcript_swept {turns : List Turn} (h : Twin P now s s')
    (hnow : ∀ t ∈ turns, ∀ n, now ≤ t.clock n) (hclock : Ticking turns)
    (hroom : ∀ done, done <+: commands turns →
      Store.total (playFrom P maxKeys s done) < maxKeys)
    (hdel : ∀ done t, done ++ [t] <+: commands turns →
      ¬ DelOfExpired P (playFrom P maxKeys s done) t) :
    List.Forall₂ SameExchange (transcript P maxKeys s' turns)
      (transcript P maxKeys s (commands turns)) := by
  induction turns generalizing now s s' with
  | nil => exact List.Forall₂.nil
  | cons t turns ih =>
      have hlater : ∀ u ∈ turns, ∀ n, now ≤ u.clock n := fun u hu =>
        hnow u (List.mem_cons_of_mem t hu)
      cases hreq : t.request with
      | none =>
          have hskip : commands (t :: turns) = commands turns := by simp [commands, hreq]
          rw [hskip] at hroom hdel ⊢
          have hafter : ∀ u ∈ turns, ∀ n, t.clock 0 ≤ u.clock n := fun u hu n =>
            List.rel_of_pairwise_cons hclock.forward hu 0 n
          rw [transcript, Turn.exchange_sweep P maxKeys hreq, Turn.next_sweep P maxKeys hreq]
          exact ih (h.sweep (hnow t List.mem_cons_self 0)) hafter hclock.tail hroom hdel
      | some req =>
          have hkeep : commands (t :: turns) = t :: commands turns := by simp [commands, hreq]
          rw [hkeep] at hroom hdel ⊢
          obtain ⟨hreply, htwin⟩ := h.command (hclock.clockFrom hnow)
            (hroom [] (List.nil_prefix)) (commandOf req) fun ks hks k hk hkey hdead =>
              hdel [] t (by simp) ⟨req, ks, k, hreq, hks, hk, hkey, hdead⟩
          rw [← Turn.next_request P maxKeys hreq, ← Turn.next_request P maxKeys hreq] at htwin
          rw [transcript, transcript, Turn.exchange_request P maxKeys hreq,
            Turn.exchange_request P maxKeys hreq]
          refine List.Forall₂.cons ⟨rfl, hreply⟩ (ih htwin hlater hclock.tail ?_ ?_)
          · intro done hdone
            exact hroom (t :: done) (List.cons_prefix_cons.mpr ⟨rfl, hdone⟩)
          · intro done u hdone
            exact hdel (t :: done) u (List.cons_prefix_cons.mpr ⟨rfl, hdone⟩)

/-- `DEL` of an expired key that is still there counts it; after a sweep it
does not. -/
theorem del_notices_sweep (hmax : maxKeys < 2 ^ 64) (hs : ∀ i, Valid P i (s i))
    (hroom : Store.total s < maxKeys) {t : Turn} {req : RespValue} {ks : List Bytes} {k : Bytes}
    (hc : commandOf req = .del ks) (hk : k ∈ ks) (hkey : view P s k ≠ none)
    (hdead : live (t.clock 0) (view P s) k = none)
    (hview : view P s' = live (t.clock 0) (view P s)) :
    ¬ SameReply (commandOf req) (((commandOf req).prog P maxKeys).run ⟨t.clock, s'⟩).1
      (((commandOf req).prog P maxKeys).run ⟨t.clock, s⟩).1 := by
  have hsub : found (view P s') ks ⊆ found (view P s) ks := by
    intro k' hk'
    simp only [found, Finset.mem_filter, hview] at hk' ⊢
    obtain ⟨it, hit⟩ := Option.isSome_iff_exists.mp hk'.2
    exact ⟨hk'.1, by rw [(live_eq_some.mp hit).1]; rfl⟩
  have hlt : (found (view P s') ks).card < (found (view P s) ks).card := by
    refine Finset.card_lt_card ⟨hsub, fun hback => ?_⟩
    have hmem : k ∈ found (view P s) ks := by
      simp [found, hk, Option.isSome_iff_ne_none.mpr hkey]
    have := hback hmem
    simp [found, hview, hdead] at this
  have hle : (found (view P s) ks).card ≤ Store.total s := by
    rw [Store.total_eq_ncard P hs, ← Set.ncard_coe_finset]
    refine Set.ncard_le_ncard (fun k' hk' => ?_) (Store.support_finite hs)
    exact Option.isSome_iff_ne_none.mp (Finset.mem_filter.mp hk').2
  rw [hc]
  simp only [SameReply, Command.prog, Prog.run_map, run_countOf_del_fst]
  intro heq
  have hcount := RespSerializer.integer_inj (by rw [tally_eq _ _ (by decide)]; exact i64_inRange _)
    (by rw [tally_eq _ _ (by decide)]; exact i64_inRange _) heq
  rw [tally_eq _ _ (by decide), tally_eq _ _ (by decide)] at hcount
  unfold i64 at hcount
  omega

theorem view_next_sweep (now : Int) (hs : ∀ i, Valid P i (s i)) :
    view P ((Turn.sweep now).next P maxKeys s) = live now (view P s) := by
  rw [Turn.next_sweep P maxKeys rfl,
    Store.view_run_sweepExpired P (w := ⟨(Turn.sweep now).clock, s⟩) hs]
  rfl

/-- A sweep put right before a turn, at the turn's first clock reading. -/
theorem Ticking.insert_sweep {done rest : List Turn} {t : Turn}
    (h : Ticking (done ++ t :: rest)) :
    Ticking (done ++ Turn.sweep (t.clock 0) :: t :: rest) := by
  obtain ⟨hdone, htail, hcross⟩ := List.pairwise_append.mp h.forward
  have hmem : ∀ u ∈ done ++ Turn.sweep (t.clock 0) :: t :: rest,
      u = Turn.sweep (t.clock 0) ∨ u ∈ done ++ t :: rest := by
    intro u hu
    simp only [List.mem_append, List.mem_cons] at hu ⊢
    tauto
  refine ⟨fun u hu => ?_, fun u hu => ?_, List.pairwise_append.mpr ⟨hdone, ?_, ?_⟩⟩
  · rcases hmem u hu with rfl | hu
    · exact fun _ _ _ => le_rfl
    · exact h.mono u hu
  · rcases hmem u hu with rfl | hu
    · exact fun _ => h.ranged t (by simp) 0
    · exact h.ranged u hu
  · refine List.pairwise_cons.mpr ⟨fun u hu m n => ?_, htail⟩
    rcases List.mem_cons.mp hu with rfl | hu
    · exact h.mono u (by simp) (Nat.zero_le n)
    · exact List.rel_of_pairwise_cons htail hu 0 n
  · intro u hu v hv m n
    rcases List.mem_cons.mp hv with rfl | hv
    · exact hcross u hu t List.mem_cons_self m 0
    · exact hcross u hu v hv m n

/-- **Sweeping is invisible**, exactly if no `DEL` (or `UNLINK`) names a key
whose entry is dead but still there: only then do the replies stay the same
wherever sweeps are put. -/
theorem sweeps_invisible_iff (hmax : maxKeys < 2 ^ 64) (hs : ∀ i, Valid P i (s i))
    {cmds : List Turn} (hcmds : ∀ t ∈ cmds, t.request.isSome) (hclock : Ticking cmds)
    (hroom : ∀ done, done <+: cmds → Store.total (playFrom P maxKeys s done) < maxKeys) :
    (∀ turns, commands turns = cmds → Ticking turns →
        List.Forall₂ SameExchange (transcript P maxKeys s turns) (transcript P maxKeys s cmds)) ↔
      ∀ done t, done ++ [t] <+: cmds → ¬ DelOfExpired P (playFrom P maxKeys s done) t := by
  constructor
  · rintro hsame done t ⟨rest, hrun⟩ ⟨req, ks, k, hreq, hc, hk, hkey, hdead⟩
    rw [List.append_assoc, List.singleton_append] at hrun
    subst hrun
    -- a sweep right before the `DEL` takes the dead entry away from it
    have hfilter : commands (done ++ Turn.sweep (t.clock 0) :: t :: rest) = done ++ t :: rest := by
      rw [commands, List.filter_append, List.filter_cons_of_neg (by simp [Turn.sweep]),
        ← List.filter_append]
      exact List.filter_eq_self.mpr hcmds
    have hboth := hsame _ hfilter hclock.insert_sweep
    rw [transcript_append, transcript_append] at hboth
    have hdrop := List.forall₂_drop (transcript P maxKeys s done).length hboth
    rw [List.drop_left, List.drop_left, transcript, Turn.exchange_sweep P maxKeys rfl,
      transcript, transcript, Turn.exchange_request P maxKeys hreq,
      Turn.exchange_request P maxKeys hreq] at hdrop
    have hvalid := playFrom_valid P maxKeys hs done
    obtain ⟨⟨-, hreply⟩, -⟩ := List.forall₂_cons.mp hdrop
    exact del_notices_sweep hmax hvalid (hroom done (List.prefix_append _ _)) hc hk hkey hdead
      (view_next_sweep (t.clock 0) hvalid) hreply
  · rintro hdel turns rfl hticking
    cases hturns : turns with
    | nil => exact List.Forall₂.nil
    | cons t rest =>
        rw [← hturns]
        refine transcript_swept (Twin.refl (t.clock 0) hs) (fun u hu n => ?_) hticking hroom hdel
        rw [hturns] at hu hticking
        rcases List.mem_cons.mp hu with rfl | hu
        · exact hticking.mono u List.mem_cons_self (Nat.zero_le n)
        · exact List.rel_of_pairwise_cons hticking.forward hu 0 n

end Runs

/-- Two turns with the clock standing still in each, and a sweep between. -/
theorem ticking_swept {a b : Int} (ha : Decimal.InRange a) (hb : Decimal.InRange b)
    (hab : a ≤ b) (first second : List String) :
    Ticking [Turn.ofWords a first, Turn.sweep b, Turn.ofWords b second] := by
  refine ⟨?_, ?_, ?_⟩
  · simp [Turn.ofWords, Turn.sweep, monotone_const]
  · simp [Turn.ofWords, Turn.sweep, ha, hb]
  · simp [Turn.ofWords, Turn.sweep, hab]

theorem ticking_words {a b : Int} (ha : Decimal.InRange a) (hb : Decimal.InRange b)
    (hab : a ≤ b) (first second : List String) :
    Ticking [Turn.ofWords a first, Turn.ofWords b second] := by
  refine ⟨?_, ?_, ?_⟩
  · simp [Turn.ofWords, monotone_const]
  · simp [Turn.ofWords, ha, hb]
  · simp [Turn.ofWords, hab]

/-- A key that runs out, and a read of it: a sweep between them does not show. -/
theorem sweeps_invisible_get :
    List.Forall₂ SameExchange
      (transcript .concrete 8 Store.empty
        [Turn.ofWords 0 ["SET", "k", "v", "PX", "5"], Turn.sweep 10, Turn.ofWords 10 ["GET", "k"]])
      (transcript .concrete 8 Store.empty
        [Turn.ofWords 0 ["SET", "k", "v", "PX", "5"], Turn.ofWords 10 ["GET", "k"]]) := by
  refine (sweeps_invisible_iff (by decide) (Store.empty_valid _) (by simp [Turn.ofWords])
    (ticking_words (by decide) (by decide) (by decide) _ _) ?_).mpr ?_ _ rfl
    (ticking_swept (by decide) (by decide) (by decide) _ _)
  · intro done hdone
    rcases List.prefix_cons_iff.mp hdone with rfl | ⟨done₁, rfl, hdone₁⟩
    · decide
    · rcases List.prefix_cons_iff.mp hdone₁ with rfl | ⟨done₂, rfl, hdone₂⟩
      · decide +kernel
      · obtain rfl := List.prefix_nil.mp hdone₂
        decide +kernel
  · rintro done t hrun ⟨req, ks, k, hreq, hc, -⟩
    have hmem : t ∈ [Turn.ofWords 0 ["SET", "k", "v", "PX", "5"], Turn.ofWords 10 ["GET", "k"]] :=
      hrun.subset (by simp)
    simp only [List.mem_cons, List.not_mem_nil, or_false] at hmem
    rcases hmem with rfl | rfl
    · obtain rfl := Option.some_inj.mp hreq
      exact Command.noConfusion hc
    · obtain rfl := Option.some_inj.mp hreq
      exact Command.noConfusion hc

/-- A key that runs out, and a `DEL` of it: `:1` without the sweep, `:0` with
it. -/
theorem sweep_noticed :
    Ticking [Turn.ofWords 0 ["SET", "k", "v", "PX", "5"], Turn.sweep 10,
        Turn.ofWords 10 ["DEL", "k"]] ∧
      (transcript .concrete 8 Store.empty
        [Turn.ofWords 0 ["SET", "k", "v", "PX", "5"], Turn.ofWords 10 ["DEL", "k"]]).map
          Prod.snd = [RespSerializer.ok, RespSerializer.integer 1] ∧
      (transcript .concrete 8 Store.empty
        [Turn.ofWords 0 ["SET", "k", "v", "PX", "5"], Turn.sweep 10,
          Turn.ofWords 10 ["DEL", "k"]]).map Prod.snd =
        [RespSerializer.ok, RespSerializer.integer 0] := by
  refine ⟨ticking_swept (by decide) (by decide) (by decide) _ _, ?_, ?_⟩
  · decide +kernel
  · decide +kernel

end RedisCache.Commands
