import Mathlib
import RedisCache.Commands.Frame
import RedisCache.Commands.Sweeping

/-!
# Clients with keys of their own

Clients share one store, one lock per shard and one dispatcher. As long as
nothing is evicted, a client whose commands name keys in `K` cannot tell
whether others are there that name keys outside `K`: the store it works on is
the common one cut down to `K` (`Beside`), its commands do the same to both,
and what the others do changes nothing in `K`.

`KEYS`, `DBSIZE` and `FLUSHALL` look at all keys. The client itself uses none
of them, the others may use the first two.
-/

namespace RedisCache.Commands

open Sections Protocol Storage TimedMap

/-- The commands that go over all keys. -/
def Command.goesOverAll : Command → Bool
  | .keys _ | .dbsize | .flushall => true
  | _ => false

/-- The command works on keys of `K` only. -/
def Command.Inside (K : Set Bytes) (c : Command) : Prop :=
  c.goesOverAll = false ∧ ∀ k ∈ c.named, k ∈ K

/-- The command writes to no key of `K`. -/
def Command.Outside (K : Set Bytes) (c : Command) : Prop :=
  c ≠ .flushall ∧ ∀ k ∈ c.named, k ∉ K

/-! ## The common store, and the client's own -/

/-- The second store is the first one cut down to the keys of `K`. -/
structure Beside (P : Platform) (K : Set Bytes) (s s' : Shards) : Prop where
  valid : ∀ i, Valid P i (s i)
  valid' : ∀ i, Valid P i (s' i)
  inside : ∀ k ∈ K, view P s' k = view P s k
  outside : ∀ k ∉ K, view P s' k = none

namespace Beside

variable {P : Platform} {K : Set Bytes} {maxKeys : Nat} {s s' t t' : Shards} {clock : Nat → Int}

theorem empty (P : Platform) (K : Set Bytes) : Beside P K Store.empty Store.empty :=
  ⟨Store.empty_valid P, Store.empty_valid P, fun _ _ => rfl, fun k _ => congrFun (view_empty P) k⟩

theorem live_key (h : Beside P K s s') {k : Bytes} (hk : k ∈ K) (now : Int) :
    live now (view P s') k = live now (view P s) k := by
  rw [live, live, h.inside k hk]

theorem total_le (h : Beside P K s s') : Store.total s' ≤ Store.total s := by
  refine Store.total_mono h.valid h.valid' fun k hk => ?_
  by_cases hmem : k ∈ K
  · rwa [← h.inside k hmem]
  · exact absurd (h.outside k hmem) hk

/-- Both sides write the same to a key of `K`. -/
theorem write (h : Beside P K s s') (ht : ∀ i, Valid P i (t i)) (ht' : ∀ i, Valid P i (t' i))
    {key : Bytes} (hkey : key ∈ K) {o : Option (Item Bytes)}
    (hview : view P t = Function.update (view P s) key o)
    (hview' : view P t' = Function.update (view P s') key o) : Beside P K t t' where
  valid := ht
  valid' := ht'
  inside k hk := by
    rw [hview, hview']
    by_cases hkk : k = key
    · rw [hkk, Function.update_self, Function.update_self]
    · rw [Function.update_of_ne hkk, Function.update_of_ne hkk, h.inside k hk]
  outside k hk := by
    have hkk : k ≠ key := fun heq => hk (heq ▸ hkey)
    rw [hview', Function.update_of_ne hkk, h.outside k hk]

/-- Nothing is written on either side. -/
theorem keep (h : Beside P K s s') (ht : ∀ i, Valid P i (t i)) (ht' : ∀ i, Valid P i (t' i))
    (hview : view P t = view P s) (hview' : view P t' = view P s') : Beside P K t t' where
  valid := ht
  valid' := ht'
  inside k hk := by rw [hview, hview', h.inside k hk]
  outside k hk := by rw [hview', h.outside k hk]

theorem sweep (h : Beside P K s s') (clock : Nat → Int) :
    Beside P K (Store.sweepExpired.run ⟨clock, s⟩).2.cells
      (Store.sweepExpired.run ⟨clock, s'⟩).2.cells where
  valid := (Store.sweepExpired_safe P).run (w := ⟨clock, s⟩) h.valid
  valid' := (Store.sweepExpired_safe P).run (w := ⟨clock, s'⟩) h.valid'
  inside k hk := by
    rw [Store.view_run_sweepExpired P (w := ⟨clock, s⟩) h.valid,
      Store.view_run_sweepExpired P (w := ⟨clock, s'⟩) h.valid']
    exact h.live_key hk _
  outside k hk := by
    rw [Store.view_run_sweepExpired P (w := ⟨clock, s'⟩) h.valid', live, h.outside k hk]
    rfl

/-! ## The client's own commands -/

theorem get (h : Beside P K s s') (clock : Nat → Int) {key : Bytes} (hkey : key ∈ K) :
    ((Store.get P key).run ⟨clock, s'⟩).1 = ((Store.get P key).run ⟨clock, s⟩).1 ∧
      Beside P K ((Store.get P key).run ⟨clock, s⟩).2.cells
        ((Store.get P key).run ⟨clock, s'⟩).2.cells := by
  obtain ⟨hfst, hview⟩ := Store.run_get_found P ⟨clock, s⟩ key
  obtain ⟨hfst', hview'⟩ := Store.run_get_found P ⟨clock, s'⟩ key
  have hfound : Store.foundBy clock (view P s') key = Store.foundBy clock (view P s) key := by
    rw [Store.foundBy, Store.foundBy, h.inside key hkey]
  simp only [hfound] at hfst' hview'
  refine ⟨hfst'.trans hfst.symm, h.write ?_ ?_ hkey hview hview'⟩
  · exact (Store.get_safe P key).run (w := ⟨clock, s⟩) h.valid
  · exact (Store.get_safe P key).run (w := ⟨clock, s'⟩) h.valid'

/-- The clocks may differ as long as the deadline does not. -/
theorem set {w w' : World Index Shard} (h : Beside P K w.cells w'.cells)
    (hroom : Store.total w.cells < maxKeys) {key : Bytes} (hkey : key ∈ K) (value : Bytes)
    {ttlMs : Int}
    (hdeadline : Store.deadlineOf (w'.clock 32) ttlMs = Store.deadlineOf (w.clock 32) ttlMs) :
    Beside P K ((Store.set P maxKeys key value ttlMs).run w).2.cells
      ((Store.set P maxKeys key value ttlMs).run w').2.cells := by
  refine h.write ((Store.set_safe P maxKeys key value ttlMs).run h.valid)
    ((Store.set_safe P maxKeys key value ttlMs).run h.valid') hkey
    (Store.view_run_set P maxKeys key hroom value ttlMs) ?_
  rw [Store.view_run_set P maxKeys key (h.total_le.trans_lt hroom) value ttlMs, hdeadline]

theorem set_command (h : Beside P K s s') (hroom : Store.total s < maxKeys) {key : Bytes}
    (hkey : key ∈ K) (value : Bytes) (o : SetOptions) :
    (((Command.set key value o).prog P maxKeys).run ⟨clock, s'⟩).1 =
        (((Command.set key value o).prog P maxKeys).run ⟨clock, s⟩).1 ∧
      Beside P K (((Command.set key value o).prog P maxKeys).run ⟨clock, s⟩).2.cells
        (((Command.set key value o).prog P maxKeys).run ⟨clock, s'⟩).2.cells := by
  have hblocks : o.blocks clock (view P s') key = o.blocks clock (view P s) key := by
    rw [SetOptions.blocks, SetOptions.blocks, h.live_key hkey, h.live_key hkey]
  cases hb : o.blocks clock (view P s) key with
  | true =>
      obtain ⟨hr, hs⟩ := run_set_blocked P maxKeys (w := ⟨clock, s⟩) hb value
      obtain ⟨hr', hs'⟩ := run_set_blocked P maxKeys (w := ⟨clock, s'⟩) (hblocks.trans hb) value
      exact ⟨hr'.trans hr.symm, by rwa [hs, hs']⟩
  | false =>
      simp only [run_set_free P maxKeys (w := ⟨clock, s⟩) hb value,
        run_set_free P maxKeys (w := ⟨clock, s'⟩) (hblocks.trans hb) value]
      exact ⟨trivial, @set P K maxKeys ⟨fun n => clock (n + o.readings), s⟩
        ⟨fun n => clock (n + o.readings), s'⟩ h hroom key hkey value o.ttlMs rfl⟩

theorem expire (h : Beside P K s s') {key : Bytes} (hkey : key ∈ K) (ttlMs : Int) :
    Beside P K ((Store.expire P key ttlMs).run ⟨clock, s⟩).2.cells
      ((Store.expire P key ttlMs).run ⟨clock, s'⟩).2.cells := by
  have hs := (Store.expire_safe P key ttlMs).run (w := ⟨clock, s⟩) h.valid
  have hs' := (Store.expire_safe P key ttlMs).run (w := ⟨clock, s'⟩) h.valid'
  have hview := Store.view_run_expire_live P ⟨clock, s⟩ key ttlMs
  have hview' := Store.view_run_expire_live P ⟨clock, s'⟩ key ttlMs
  simp only [h.live_key hkey] at hview'
  cases hl : live (clock 0) (view P s) key with
  | none =>
      simp only [hl] at hview hview'
      exact h.keep hs hs' hview hview'
  | some it =>
      simp only [hl] at hview hview'
      exact h.write hs hs' hkey hview hview'

theorem incr (h : Beside P K s s') (clock : Nat → Int) {key : Bytes} (hkey : key ∈ K) :
    ((Store.incr P key).run ⟨clock, s'⟩).1 = ((Store.incr P key).run ⟨clock, s⟩).1 ∧
      Beside P K ((Store.incr P key).run ⟨clock, s⟩).2.cells
        ((Store.incr P key).run ⟨clock, s'⟩).2.cells := by
  have hs := (Store.incr_safe P key).run (w := ⟨clock, s⟩) h.valid
  have hs' := (Store.incr_safe P key).run (w := ⟨clock, s'⟩) h.valid'
  have hview := Store.view_run_incr P ⟨clock, s⟩ key
  have hview' := Store.view_run_incr P ⟨clock, s'⟩ key
  have hcounter : Store.counterOf (clock 0) (view P s') key =
      Store.counterOf (clock 0) (view P s) key := Store.counterOf_congr (h.live_key hkey _)
  simp only [hcounter] at hview'
  refine ⟨by simp only [Store.run_incr_fst, hcounter], ?_⟩
  cases hn : Store.counterOf (clock 0) (view P s) key with
  | none =>
      simp only [hn] at hview hview'
      exact h.keep hs hs' hview hview'
  | some n =>
      simp only [hn] at hview hview'
      exact h.write hs hs' hkey hview hview'

/-- The read may leave the two clocks at different readings; the write does
not look at its clock. -/
theorem incrby_command (h : Beside P K s s') (hroom : Store.total s < maxKeys) {key : Bytes}
    (hkey : key ∈ K) (delta : Int) :
    (((Command.incrby key delta).prog P maxKeys).run ⟨clock, s'⟩).1 =
        (((Command.incrby key delta).prog P maxKeys).run ⟨clock, s⟩).1 ∧
      Beside P K (((Command.incrby key delta).prog P maxKeys).run ⟨clock, s⟩).2.cells
        (((Command.incrby key delta).prog P maxKeys).run ⟨clock, s'⟩).2.cells := by
  obtain ⟨hfst, hsnd⟩ := h.get clock hkey
  have hroom' := (Store.total_run_get_le (w := ⟨clock, s⟩) h.valid key).trans_lt hroom
  by_cases hec : (currentOf ((Store.get P key).run ⟨clock, s⟩).1).ec = none
  · have hec' : (currentOf ((Store.get P key).run ⟨clock, s'⟩).1).ec = none := by rwa [hfst]
    simp only [run_incrby_added P maxKeys hec, run_incrby_added P maxKeys hec', hfst]
    refine ⟨trivial, hsnd.set hroom' hkey _ ?_⟩
    rw [Store.deadlineOf_of_nonpos (by decide), Store.deadlineOf_of_nonpos (by decide)]
  · have hec' : ¬ (currentOf ((Store.get P key).run ⟨clock, s'⟩).1).ec = none := by rwa [hfst]
    simp only [run_incrby_refused P maxKeys hec, run_incrby_refused P maxKeys hec']
    exact ⟨trivial, hsnd⟩

theorem countOf_exists (h : Beside P K s s') {ks : List Bytes} (hks : ∀ k ∈ ks, k ∈ K) (n : Int) :
    ((countOf (Store.existsKey P) ks n).run ⟨clock, s'⟩).1 =
      ((countOf (Store.existsKey P) ks n).run ⟨clock, s⟩).1 := by
  induction ks generalizing clock n with
  | nil => rfl
  | cons k ks ih =>
      simp only [countOf, Prog.run_bind, Store.run_existsKey_view,
        h.live_key (hks k List.mem_cons_self)]
      exact ih (fun k' hk' => hks k' (List.mem_cons_of_mem k hk')) _

theorem countOf_del (h : Beside P K s s') (ks : List Bytes) (n : Int) :
    Beside P K ((countOf (Store.del P) ks n).run ⟨clock, s⟩).2.cells
      ((countOf (Store.del P) ks n).run ⟨clock, s'⟩).2.cells where
  valid := (countOf_safe P (Store.del_safe P) ks n).run (w := ⟨clock, s⟩) h.valid
  valid' := (countOf_safe P (Store.del_safe P) ks n).run (w := ⟨clock, s'⟩) h.valid'
  inside k hk := by
    rw [view_run_countOf_del, view_run_countOf_del]
    simp only [h.inside k hk]
  outside k hk := by
    rw [view_run_countOf_del]
    simp only [h.outside k hk, ite_self]

/-- A command of the client, on the common store and on its own. -/
theorem command (h : Beside P K s s') (hranged : ∀ n, Decimal.InRange (clock n))
    (hroom : Store.total s < maxKeys) {c : Command} (hc : c.Inside K) :
    ((c.prog P maxKeys).run ⟨clock, s'⟩).1 = ((c.prog P maxKeys).run ⟨clock, s⟩).1 ∧
      Beside P K ((c.prog P maxKeys).run ⟨clock, s⟩).2.cells
        ((c.prog P maxKeys).run ⟨clock, s'⟩).2.cells := by
  obtain ⟨hsome, hks⟩ := hc
  cases c with
  | reply r => exact ⟨rfl, h⟩
  | keys pattern | dbsize | flushall => cases hsome
  | del ks =>
      simp only [Command.prog, Prog.run_map, run_countOf_del_fst]
      exact ⟨congrArg _ (tally_congr (fun k hk => h.inside k (hks k hk)) 0), h.countOf_del _ 0⟩
  | exist ks =>
      simp only [Command.prog, Prog.run_map, run_countOf_exists]
      exact ⟨congrArg _ (h.countOf_exists hks 0), h⟩
  | set key value o => exact h.set_command hroom (hks key List.mem_cons_self) value o
  | get key =>
      obtain ⟨hfst, hsnd⟩ := h.get clock (hks key List.mem_cons_self)
      simp only [Command.prog, Prog.run_map, hfst]
      exact ⟨trivial, hsnd⟩
  | expire key ttlMs =>
      simp only [Command.prog, Prog.run_map, Store.run_expire_fst,
        h.live_key (hks key List.mem_cons_self)]
      exact ⟨trivial, h.expire (hks key List.mem_cons_self) ttlMs⟩
  | ttl key | pttl key =>
      simp only [Command.prog, Prog.run_map,
        Store.run_ttl_view P (w := ⟨clock, s⟩) key (hranged 0).2 h.valid,
        Store.run_ttl_view P (w := ⟨clock, s'⟩) key (hranged 0).2 h.valid',
        h.live_key (hks key List.mem_cons_self)]
      exact ⟨trivial, h⟩
  | incr key =>
      obtain ⟨hfst, hsnd⟩ := h.incr clock (hks key List.mem_cons_self)
      simp only [Command.prog, Prog.run_map, hfst]
      exact ⟨trivial, hsnd⟩
  | incrby key delta => exact h.incrby_command hroom (hks key List.mem_cons_self) delta

/-- A command of the others. -/
theorem other (h : Beside P K s s') (hroom : Store.total s < maxKeys) {c : Command}
    (hc : c.Outside K) :
    Beside P K ((c.prog P maxKeys).run ⟨clock, s⟩).2.cells s' where
  valid := (c.prog_safe P maxKeys).run (w := ⟨clock, s⟩) h.valid
  valid' := h.valid'
  inside k hk := by
    rw [view_run_other (w := ⟨clock, s⟩) h.valid hroom hc.1 fun hmem => hc.2 k hmem hk]
    exact h.inside k hk
  outside := h.outside

end Beside

/-! ## Whole runs -/

/-- A turn of the client: a request about its keys, or a sweep. -/
def Turn.Own (K : Set Bytes) (t : Turn) : Prop :=
  ∀ req, t.request = some req → (commandOf req).Inside K

/-- A turn of the others. -/
def Turn.Foreign (K : Set Bytes) (t : Turn) : Prop :=
  ∃ req, t.request = some req ∧ (commandOf req).Outside K

section Runs

variable {P : Platform} {K : Set Bytes} {maxKeys : Nat} {s s' : Shards} {t : Turn}

theorem Beside.own (h : Beside P K s s') (hranged : ∀ n, Decimal.InRange (t.clock n))
    (hroom : Store.total s < maxKeys) (ht : t.Own K) :
    t.exchange P maxKeys s' = t.exchange P maxKeys s ∧
      Beside P K (t.next P maxKeys s) (t.next P maxKeys s') := by
  cases hreq : t.request with
  | none =>
      rw [Turn.exchange_sweep P maxKeys hreq, Turn.exchange_sweep P maxKeys hreq,
        Turn.next_sweep P maxKeys hreq, Turn.next_sweep P maxKeys hreq]
      exact ⟨rfl, h.sweep t.clock⟩
  | some req =>
      rw [Turn.exchange_request P maxKeys hreq, Turn.exchange_request P maxKeys hreq,
        Turn.next_request P maxKeys hreq, Turn.next_request P maxKeys hreq]
      obtain ⟨hreply, hnext⟩ := h.command hranged hroom (ht req hreq)
      exact ⟨by rw [hreply], hnext⟩

theorem Beside.foreign (h : Beside P K s s') (hroom : Store.total s < maxKeys)
    (ht : t.Foreign K) : Beside P K (t.next P maxKeys s) s' := by
  obtain ⟨req, hreq, hout⟩ := ht
  rw [Turn.next_request P maxKeys hreq]
  exact h.other hroom hout

/-- The turns of the client alone. The sweeps stay. -/
def ownTurns (mine : RespValue → Bool) (turns : List Turn) : List Turn :=
  turns.filter fun t => t.request.all mine

/-- Every request is of the client or of the others, and keeps to its keys. -/
def Apart (K : Set Bytes) (mine : RespValue → Bool) (turns : List Turn) : Prop :=
  ∀ t ∈ turns, if t.request.all mine then t.Own K else t.Foreign K

/-- The exchanges of one turn that are the client's: all or none. -/
theorem filter_exchange (mine : RespValue → Bool) (t : Turn) (s : Shards) :
    (t.exchange P maxKeys s).toList.filter (fun x => mine x.1) =
      if t.request.all mine then (t.exchange P maxKeys s).toList else [] := by
  cases hreq : t.request with
  | none => simp [Turn.exchange_sweep P maxKeys hreq]
  | some req =>
      rw [Turn.exchange_request P maxKeys hreq]
      cases hmine : mine req with
      | true => simp [hmine]
      | false => simp [hmine]

/-- Induction on the common run. -/
theorem transcript_beside {mine : RespValue → Bool} {turns : List Turn} (h : Beside P K s s')
    (hranged : ∀ t ∈ turns, ∀ n, Decimal.InRange (t.clock n)) (hapart : Apart K mine turns)
    (hroom : ∀ done, done <+: turns → Store.total (playFrom P maxKeys s done) < maxKeys) :
    (transcript P maxKeys s turns).filter (fun x => mine x.1) =
        transcript P maxKeys s' (ownTurns mine turns) ∧
      Beside P K (playFrom P maxKeys s turns) (playFrom P maxKeys s' (ownTurns mine turns)) := by
  induction turns generalizing s s' with
  | nil => exact ⟨rfl, h⟩
  | cons t turns ih =>
      obtain ⟨htranged, hranged⟩ := List.forall_mem_cons.mp hranged
      obtain ⟨htapart, hapart⟩ := List.forall_mem_cons.mp hapart
      have hnow : Store.total s < maxKeys := hroom [] List.nil_prefix
      have hlater : ∀ done, done <+: turns →
          Store.total (playFrom P maxKeys (t.next P maxKeys s) done) < maxKeys :=
        fun done hdone => hroom (t :: done) (List.cons_prefix_cons.mpr ⟨rfl, hdone⟩)
      rw [transcript, List.filter_append, filter_exchange]
      cases hmine : t.request.all mine with
      | true =>
          rw [hmine, if_pos rfl] at htapart
          obtain ⟨hreply, hnext⟩ := h.own htranged hnow htapart
          obtain ⟨hrest, hend⟩ := ih hnext hranged hapart hlater
          have hkeep : ownTurns mine (t :: turns) = t :: ownTurns mine turns := by
            simp [ownTurns, hmine]
          rw [if_pos rfl, hrest, hkeep, transcript, hreply]
          exact ⟨rfl, hend⟩
      | false =>
          rw [hmine, if_neg (by simp)] at htapart
          obtain ⟨hrest, hend⟩ := ih (h.foreign hnow htapart) hranged hapart hlater
          have hskip : ownTurns mine (t :: turns) = ownTurns mine turns := by
            simp [ownTurns, hmine]
          rw [if_neg (by simp), List.nil_append, hrest, hskip]
          exact ⟨rfl, hend⟩

end Runs

/-- **Clients with disjoint keys do not notice each other.** Any number of
requests of a client, all about keys of `K`, mixed in any order with requests
of others that name no key of `K` and do not flush, and with sweeps, while the
store has room: the client gets exactly the replies it would have got alone,
and the entries under its keys are the same. The clock may be set back. -/
theorem clients_isolated (P : Platform) (maxKeys : Nat) (K : Set Bytes) (mine : RespValue → Bool)
    (turns : List Turn) (hranged : ∀ t ∈ turns, ∀ n, Decimal.InRange (t.clock n))
    (hapart : Apart K mine turns)
    (hroom : ∀ done, done <+: turns → Store.total (play P maxKeys done) < maxKeys) :
    (transcript P maxKeys Store.empty turns).filter (fun x => mine x.1) =
        transcript P maxKeys Store.empty (ownTurns mine turns) ∧
      ∀ k ∈ K, view P (play P maxKeys turns) k =
        view P (play P maxKeys (ownTurns mine turns)) k := by
  obtain ⟨hreplies, hend⟩ := transcript_beside (Beside.empty P K) hranged hapart hroom
  exact ⟨hreplies, fun k hk => (hend.inside k hk).symm⟩

/-- One client counts on `a`, the other writes to `b`. -/
def counterAndWriter : List Turn :=
  [Turn.ofWords 0 ["INCR", "a"], Turn.ofWords 1 ["SET", "b", "x"], Turn.ofWords 2 ["INCR", "a"]]

def aboutA (req : RespValue) : Bool := (commandOf req).named == [ascii "a"]

theorem clients_isolated_counter :
    (transcript .concrete 4 Store.empty counterAndWriter).filter (fun x => aboutA x.1) =
        transcript .concrete 4 Store.empty (ownTurns aboutA counterAndWriter) ∧
      ∀ k ∈ ({ascii "a"} : Set Bytes), view .concrete (play .concrete 4 counterAndWriter) k =
        view .concrete (play .concrete 4 (ownTurns aboutA counterAndWriter)) k := by
  have hroom : ∀ done ∈ counterAndWriter.inits, Store.total (play .concrete 4 done) < 4 := by
    decide +kernel
  refine clients_isolated .concrete 4 {ascii "a"} aboutA counterAndWriter ?_ ?_
    fun done hdone => hroom done ((List.mem_inits done _).mpr hdone)
  · simp [counterAndWriter, Turn.ofWords, Decimal.InRange]
  · refine List.forall_mem_cons.mpr ⟨?_, List.forall_mem_cons.mpr ⟨?_, List.forall_mem_cons.mpr
      ⟨?_, by simp⟩⟩⟩
    · rintro req ⟨⟩
      exact ⟨rfl, fun k hk => List.mem_singleton.mp hk⟩
    · exact ⟨_, rfl, by rintro ⟨⟩, by decide⟩
    · rintro req ⟨⟩
      exact ⟨rfl, fun k hk => List.mem_singleton.mp hk⟩

end RedisCache.Commands
