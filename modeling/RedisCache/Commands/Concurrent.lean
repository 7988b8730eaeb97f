import Mathlib
import RedisCache.Commands.Effects
import RedisCache.Storage.Linearization

/-!
# Read-modify-write commands next to each other

A pool of workers that dispatch requests to one store. `INCR` is one section.
`INCRBY` is a `get` and then a `set`, `SET` with `NX` an `exists` and then a
`set`, and another thread may write the key in between.

`Command.atOnce` is such a command in one piece, on the item of its key. It
is what the command does if the key stays as it was between the command's
first section and its last (`Command.settles`), and then no update is lost
and one `SET` with `NX` wins. Nothing in the dispatcher keeps the key that
way: `rmw_overlap` is two threads of each kind.
-/

namespace RedisCache.Commands

open Sections Protocol Storage TimedMap

/-- An item no clock reading makes dead. -/
def Lasting (x : Option (Item Bytes)) : Prop := ∀ it, x = some it → it.deadline = none

/-- The number `INCR` and `INCRBY` find. -/
def numberOf (x : Option (Item Bytes)) : Option Int :=
  if (currentOf (x.map Item.value)).ec ≠ none then none
  else some (currentOf (x.map Item.value)).value

namespace Command

/-- `INCR` and `INCRBY` of a key. -/
def adds (k : Bytes) : Command → Bool
  | .incr key => key == k
  | .incrby key _ => key == k
  | _ => false

def delta : Command → Int
  | .incr _ => 1
  | .incrby _ d => d
  | _ => 0

/-- `SET` of a key with `NX` and without a deadline. -/
def claims (k : Bytes) : Command → Bool
  | .set key _ o => key == k && o.nx && !o.xx && decide (o.ttlMs ≤ 0)
  | _ => false

def written : Command → Bytes
  | .set _ value _ => value
  | _ => []

/-- The two kinds in one piece. -/
def atOnce (x : Option (Item Bytes)) (c : Command) : Bytes × Option (Item Bytes) :=
  match c with
  | .set _ value _ =>
      if x.isSome then (RespSerializer.nullBulk, x) else (RespSerializer.ok, some ⟨value, none⟩)
  | c =>
      match numberOf x with
      | none => (notAnInteger, x)
      | some n =>
          (RespSerializer.integer (i64 (n + c.delta)),
            some ⟨Decimal.ofInt (i64 (n + c.delta)), none⟩)

end Command

/-! ## The last section, if the key stayed as it was -/

section Settling

variable (P : Platform) (maxKeys : Nat) {k : Bytes} {x : Option (Item Bytes)}

/-- The stores in which the key is as it was. -/
def Unmoved (k : Bytes) (x : Option (Item Bytes)) (s : Shards) : Prop :=
  Lasting x ∧ view P s k = x

theorem live_of_lasting (hx : Lasting x) {m : Contents} (hm : m k = x) (now : Int) :
    live now m k = x := by
  rw [live, hm]
  cases x with
  | none => rfl
  | some it => simp [Option.filter_some, Item.alive, hx it rfl]

theorem counterOf_of_lasting (hx : Lasting x) {m : Contents} (hm : m k = x) (now : Int) :
    Store.counterOf now m k = numberOf x := by
  rw [Store.counterOf, live_of_lasting hx hm]
  cases x with
  | none => rfl
  | some it => rfl

theorem getShared_of_lasting {s : Shards} (h : Unmoved P k x s) (now : Int) :
    (s (Store.shardFor P k)).getShared k now = some (x.map Item.value) := by
  obtain ⟨hx, hview⟩ := h
  rw [view] at hview
  rw [Shard.getShared]
  cases he : (s (Store.shardFor P k)).map.find k with
  | none =>
      rw [he] at hview
      cases hview
      rfl
  | some e =>
      rw [he] at hview
      have hnone := hx e.item hview.symm
      have halive : e.isExpired now = false := by
        have := e.item_alive now
        simpa [Item.alive, hnone] using this
      simp [halive, ← hview, Entry.item]

/-- The write of a `set` without a deadline. -/
theorem view_write_lasting {ttlMs : Int} (httl : ttlMs ≤ 0) (s : Shards) (value : Bytes)
    (now : Int) :
    view P (Function.update s (Store.shardFor P k)
      ((s (Store.shardFor P k)).setLocked k value (Store.deadlineOf now ttlMs))) k =
      some ⟨value, none⟩ := by
  rw [view_setLocked, Function.update_self, Store.deadlineOf_of_nonpos httl]
  rfl

/-- What a command of the two kinds says of its key. -/
def Command.Does (P : Platform) (k : Bytes) (c : Command) (s : Shards) (r : Bytes)
    (s' : Shards) : Prop :=
  c.atOnce (view P s k) = (r, view P s' k)

theorem settles_incr :
    Settles (Unmoved P k x) (fun _ s r s' => (Command.incr k).Does P k s r s') none
      ((Command.incr k).prog P maxKeys) := by
  refine Settles.map (Settles.locked fun u s hs => ?_)
  have hcount := counterOf_of_lasting hs.1 hs.2 (u 0)
  have hfst := Store.run_incr_fst P ⟨u, s⟩ k
  have hview := Store.view_run_incr P ⟨u, s⟩ k
  simp only [hcount] at hfst hview
  rw [Command.Does, hs.2]
  cases hn : numberOf x with
  | none =>
      rw [hn] at hfst hview
      refine Prod.ext ?_ ?_
      · simp only [Command.atOnce, hn]
        exact (congrArg counterReply hfst).symm
      · simp only [Command.atOnce, hn]
        exact hs.2.symm.trans (congrFun hview k).symm
  | some n =>
      rw [hn] at hfst hview
      refine Prod.ext ?_ ?_
      · simp only [Command.atOnce, hn]
        exact (congrArg counterReply hfst).symm
      · simp only [Command.atOnce, hn]
        exact (Function.update_self k _ (view P s)).symm.trans (congrFun hview k).symm

/-- The rest of a command that has read its key: nothing, or a `set`. -/
theorem settles_write {c : Command} {value r : Bytes} {ttlMs : Int} (httl : ttlMs ≤ 0)
    (hc : c.atOnce x = (r, some ⟨value, none⟩)) :
    Settles (Unmoved P k x) (fun _ s r s' => c.Does P k s r s') none
      (Store.set P maxKeys k value ttlMs >>= fun _ => pure r) := by
  have h : Settles (Unmoved P k x) (fun _ s r s' => c.Does P k s r s') none
      ((fun _ => r) <$> Store.set P maxKeys k value ttlMs) := by
    refine Settles.map (Store.set_settles P maxKeys k value ttlMs (fun rd s hs => ?_) none)
    rw [Command.Does, hs.2, hc, view_write_lasting P httl]
  rwa [map_eq_pure_bind] at h

/-- A command that leaves its key. -/
theorem settles_reply {c : Command} {r : Bytes} (hc : c.atOnce x = (r, x)) :
    Settles (Unmoved P k x) (fun _ s r s' => c.Does P k s r s') none (pure r) := by
  intro u s hs
  rw [Command.Does, hs.2, hc]

theorem settles_incrby (d : Int) :
    Settles (Unmoved P k x) (fun _ s r s' => (Command.incrby k d).Does P k s r s') none
      ((Command.incrby k d).prog P maxKeys) := by
  rw [Command.prog, Store.get, bind_assoc]
  refine Settles.read_bind (a := some (x.map Item.value))
    (fun u s hs => getShared_of_lasting P hs (u 0)) ?_
  simp only [pure_bind]
  by_cases hec : (currentOf (x.map Item.value)).ec = none
  · rw [if_neg (not_not.mpr hec)]
    refine settles_write P maxKeys (by decide) ?_
    simp [Command.atOnce, numberOf, hec, Command.delta]
  · rw [if_pos hec]
    refine settles_reply P ?_
    simp [Command.atOnce, numberOf, hec]

theorem settles_setNx {value : Bytes} {o : SetOptions}
    (ho : (Command.set k value o).claims k = true) :
    Settles (Unmoved P k x) (fun _ s r s' => (Command.set k value o).Does P k s r s') none
      ((Command.set k value o).prog P maxKeys) := by
  simp only [Command.claims, Bool.and_eq_true, Bool.not_eq_true', decide_eq_true_eq] at ho
  obtain ⟨⟨⟨-, hnx⟩, hxx⟩, httl⟩ := ho
  -- the guard fixes what `exists` sees, and so which branch the command takes
  rw [Command.prog, hnx, hxx, existsIf, if_pos rfl, Store.existsKey]
  refine Settles.read_bind (a := x.isSome) (fun u s hs => ?_) ?_
  · rw [Shard.existsKey_eq, ← Option.isSome_map (f := Entry.item), ← live_view,
      live_of_lasting hs.1 hs.2]
  · cases hsome : x.isSome with
    | true =>
        rw [if_pos rfl]
        refine settles_reply P ?_
        simp [Command.atOnce, hsome]
    | false =>
        simp only [Bool.false_eq_true, if_false, existsIf, pure_bind, Bool.not_true]
        refine settles_write P maxKeys httl ?_
        simp [Command.atOnce, hsome]

/-- **A read-modify-write command whose key stays put is one step.** -/
theorem Command.settles {c : Command} (hc : c.adds k = true ∨ c.claims k = true) :
    Settles (Unmoved P k x) (fun _ s r s' => c.Does P k s r s') none (c.prog P maxKeys) := by
  cases c with
  | incr key =>
      obtain rfl : key = k := by simpa [adds, claims] using hc
      exact settles_incr P maxKeys
  | incrby key d =>
      obtain rfl : key = k := by simpa [adds, claims] using hc
      exact settles_incrby P maxKeys d
  | set key value o =>
      have hclaims : (Command.set key value o).claims k = true := by simpa [adds] using hc
      obtain rfl : key = k := by
        simp only [claims, Bool.and_eq_true, beq_iff_eq] at hclaims
        exact hclaims.1.1.1
      exact settles_setNx P maxKeys hclaims
  | reply | get | del | exist | expire | ttl | pttl | keys | dbsize | flushall =>
      simp [adds, claims] at hc

end Settling

/-! ## One command after the other -/

section Sequence

variable {τ : Type} {es : List (Returned τ RespValue Bytes)} {x y : Option (Item Bytes)}
  {k : Bytes} {n : Int}

/-- The request's command in one piece; the clock plays no part. -/
def atOnce (req : RespValue) (_ : Nat → Int) (x : Option (Item Bytes)) (r : Bytes)
    (y : Option (Item Bytes)) : Prop :=
  (commandOf req).atOnce x = (r, y)

theorem numberOf_written {v : Int} (hv : Decimal.InRange v) :
    numberOf (some ⟨Decimal.ofInt v, none⟩) = some v := by
  simp [numberOf, currentOf, Decimal.fromChars_ofInt_alone 0 hv]

theorem numberOf_inRange (h : numberOf x = some n) : Decimal.InRange n := by
  rw [numberOf] at h
  split at h
  · cases h
  · cases h
    cases x with
    | none => exact (by decide : Decimal.InRange 0)
    | some it => exact Decimal.fromChars_inRange (by decide) _

theorem Command.atOnce_adds {c : Command} (hc : c.adds k = true) (hx : numberOf x = some n) :
    numberOf (c.atOnce x).2 = some (i64 (n + c.delta)) := by
  cases c with
  | incr key | incrby key d =>
      simp only [Command.atOnce, hx]
      exact numberOf_written (i64_inRange _)
  | reply | set | get | del | exist | expire | ttl | pttl | keys | dbsize | flushall => cases hc

/-- What the commands of a history add up to. -/
def deltas (es : List (Returned τ RespValue Bytes)) : Int :=
  (es.map fun e => (commandOf e.call).delta).sum

/-- No addition is lost. -/
theorem numberOf_of_explained (h : Explained atOnce es x y)
    (hadds : ∀ e ∈ es, (commandOf e.call).adds k = true) (hx : numberOf x = some n) :
    numberOf y = some (i64 (n + deltas es)) := by
  induction es generalizing x n with
  | nil =>
      cases h
      rw [deltas, List.map_nil, List.sum_nil, add_zero, i64_of_inRange (numberOf_inRange hx), hx]
  | cons e es ih =>
      obtain ⟨z, hz, hrest⟩ := h
      obtain ⟨hfirst, hothers⟩ := List.forall_mem_cons.mp hadds
      have hnumber := Command.atOnce_adds hfirst hx
      rw [show (commandOf e.call).atOnce x = _ from hz] at hnumber
      rw [ih hrest hothers hnumber, i64_add_left, add_assoc, deltas, deltas, List.map_cons,
        List.sum_cons]

theorem Command.atOnce_claims {c : Command} (hc : c.claims k = true) :
    c.atOnce x = if x.isSome then (RespSerializer.nullBulk, x)
      else (RespSerializer.ok, some ⟨c.written, none⟩) := by
  cases c with
  | set key value o => rfl
  | reply | get | del | exist | expire | ttl | pttl | incr | incrby | keys | dbsize | flushall =>
      cases hc

/-- Once the key is there, it stays. -/
theorem claimed_of_explained (h : Explained atOnce es x y)
    (hclaims : ∀ e ∈ es, (commandOf e.call).claims k = true) (hx : x.isSome = true) :
    (∀ e ∈ es, e.reply = RespSerializer.nullBulk) ∧ y = x := by
  induction es generalizing x with
  | nil => exact ⟨fun e he => (List.not_mem_nil he).elim, Eq.symm h⟩
  | cons e es ih =>
      obtain ⟨z, hz, hrest⟩ := h
      obtain ⟨hfirst, hothers⟩ := List.forall_mem_cons.mp hclaims
      rw [atOnce, Command.atOnce_claims hfirst, if_pos hx] at hz
      obtain ⟨hreply, rfl⟩ := Prod.mk.inj hz
      obtain ⟨hreplies, hy⟩ := ih hrest hothers hx
      exact ⟨List.forall_mem_cons.mpr ⟨hreply.symm, hreplies⟩, hy⟩

/-- The first to return has the key, and no other has. -/
def FirstWins (es : List (Returned τ RespValue Bytes)) (y : Option (Item Bytes)) : Prop :=
  match es with
  | [] => y = none
  | e :: es =>
      e.reply = RespSerializer.ok ∧ (∀ e' ∈ es, e'.reply = RespSerializer.nullBulk) ∧
        y = some ⟨(commandOf e.call).written, none⟩

theorem firstWins_of_explained (h : Explained atOnce es none y)
    (hclaims : ∀ e ∈ es, (commandOf e.call).claims k = true) : FirstWins es y := by
  cases es with
  | nil => exact Eq.symm h
  | cons e es =>
      obtain ⟨z, hz, hrest⟩ := h
      obtain ⟨hfirst, hothers⟩ := List.forall_mem_cons.mp hclaims
      rw [atOnce, Command.atOnce_claims hfirst] at hz
      obtain ⟨hreply, rfl⟩ := Prod.mk.inj hz
      obtain ⟨hreplies, hy⟩ := claimed_of_explained hrest hothers rfl
      exact ⟨hreply.symm, hreplies, hy⟩

end Sequence

/-! ## Workers -/

section Workers

variable (P : Platform) (maxKeys : Nat) {τ : Type} [DecidableEq τ] (k : Bytes)

/-- Threads that dispatch requests to one store. -/
abbrev Workers (τ : Type) := Machine Index Shard τ RespValue Bytes

def workers (callers : τ → Caller RespValue Bytes) (s : Shards)
    (sched : List (τ × (Nat → Int))) : Workers τ :=
  (Machine.start (dispatch P maxKeys) callers s).run (dispatch P maxKeys) sched

/-- A step of a run in which only commands of the kind `R` change the key, and
none of them is overtaken. -/
structure Isolated (R : RespValue → Bool) (m : Workers τ) (e : τ × (Nat → Int)) : Prop where
  /-- No expiry. -/
  lasting : Lasting (view P m.cells k)
  /-- Nothing but the last section of a command of the kind changes the key. -/
  quiet : (m.step (dispatch P maxKeys) e.1 e.2).history R = m.history R →
    view P (m.step (dispatch P maxKeys) e.1 e.2).cells k = view P m.cells k
  /-- The key does not change while another thread is between the first and the
  last section of such a command. -/
  alone : ∀ t p, t ≠ e.1 → m.threads t = some p → R p.call = true → p.begun = true →
    view P (m.step (dispatch P maxKeys) e.1 e.2).cells k = view P m.cells k

variable {k}

theorem workers_explained {R : RespValue → Bool}
    (hR : ∀ req, R req = true →
      (commandOf req).adds k = true ∨ (commandOf req).claims k = true)
    (callers : τ → Caller RespValue Bytes) (s : Shards) {sched : List (τ × (Nat → Int))}
    (h : Machine.EachStep (dispatch P maxKeys) (Isolated P maxKeys k R)
      (Machine.start (dispatch P maxKeys) callers s) sched) :
    Explained atOnce ((workers P maxKeys callers s sched).history R) (view P s k)
      (view P (workers P maxKeys callers s sched).cells k) := by
  refine Machine.explained (v := fun s => view P s k) (G := fun x => Unmoved P k x)
    (fun req x hreq => ?_) callers s fun before e after hsched => ?_
  · rw [dispatch_eq]
    exact (commandOf req).settles P maxKeys (hR req hreq)
  · obtain ⟨hlasting, hquiet, halone⟩ := h before e after hsched
    refine ⟨⟨hlasting, rfl⟩, hquiet, fun t p ht hp hreq hbegun => ?_⟩
    rw [halone t p ht hp hreq hbegun]

/-- **Read-modify-write commands that do not overlap on their key are safe.**
In every run in which a key is changed by `INCR` and `INCRBY` only, never
while another thread is in the middle of one of them, the key ends as its
first number plus all deltas. In every run in which an absent key is changed
by `SET` with `NX` only, never while another thread is in the middle of one,
the first to return has set the key and all others have not. -/
theorem rmw_isolated (callers : τ → Caller RespValue Bytes) (s : Shards)
    (sched : List (τ × (Nat → Int))) :
    (∀ n, numberOf (view P s k) = some n →
      Machine.EachStep (dispatch P maxKeys)
        (Isolated P maxKeys k fun req => (commandOf req).adds k)
        (Machine.start (dispatch P maxKeys) callers s) sched →
      numberOf (view P (workers P maxKeys callers s sched).cells k) = some (i64 (n +
        deltas ((workers P maxKeys callers s sched).history fun req => (commandOf req).adds k)))) ∧
    (view P s k = none →
      Machine.EachStep (dispatch P maxKeys)
        (Isolated P maxKeys k fun req => (commandOf req).claims k)
        (Machine.start (dispatch P maxKeys) callers s) sched →
      FirstWins
        ((workers P maxKeys callers s sched).history fun req => (commandOf req).claims k)
        (view P (workers P maxKeys callers s sched).cells k)) := by
  constructor
  · intro n hn h
    have hexp := workers_explained P maxKeys (fun req hreq => Or.inl hreq) callers s h
    exact numberOf_of_explained hexp (fun e he => (List.mem_filter.mp he).2) hn
  · intro hnone h
    have hexp := workers_explained P maxKeys (fun req hreq => Or.inr hreq) callers s h
    rw [hnone] at hexp
    exact firstWins_of_explained hexp fun e he => (List.mem_filter.mp he).2

end Workers

/-! ## Two threads -/

deriving instance DecidableEq for Item

/-- `Isolated`, evaluated: the key stays, or one command returns and the other
thread is not in the middle of one. -/
def isolatedAt (k : Bytes) (R : RespValue → Bool) (m : Workers Bool)
    (e : Bool × (Nat → Int)) : Bool :=
  let m' := m.step (dispatch .concrete 10) e.1 e.2
  ((view .concrete m.cells k).all fun it => it.deadline.isNone) &&
    (decide (view .concrete m'.cells k = view .concrete m.cells k) ||
      (decide ((m'.history R).length ≠ (m.history R).length) &&
        (m.threads !e.1).all fun p => !(R p.call && p.begun)))

theorem isolated_of_isolatedAt {k : Bytes} {R : RespValue → Bool} {m : Workers Bool}
    {e : Bool × (Nat → Int)} (h : isolatedAt k R m e = true) :
    Isolated .concrete 10 k R m e := by
  simp only [isolatedAt, Bool.and_eq_true, Bool.or_eq_true, decide_eq_true_eq] at h
  obtain ⟨hlasting, hstep⟩ := h
  refine ⟨fun it hit => ?_, fun hsame => ?_, fun t p ht hp hreq hbegun => ?_⟩
  · rw [hit] at hlasting
    simpa using hlasting
  · exact hstep.resolve_right fun hr => hr.1 (congrArg List.length hsame)
  · refine hstep.resolve_right fun hr => ?_
    obtain rfl : t = !e.1 := by
      cases t <;> cases he : e.1 <;> simp_all
    have hnot := hr.2
    rw [hp] at hnot
    simp [hreq, hbegun] at hnot

def isolatedRun (k : Bytes) (R : RespValue → Bool) :
    Workers Bool → List (Bool × (Nat → Int)) → Bool
  | _, [] => true
  | m, e :: sched =>
      isolatedAt k R m e && isolatedRun k R (m.step (dispatch .concrete 10) e.1 e.2) sched

theorem eachStep_of_isolatedRun {k : Bytes} {R : RespValue → Bool} {m : Workers Bool}
    {sched : List (Bool × (Nat → Int))} (h : isolatedRun k R m sched = true) :
    Machine.EachStep (dispatch .concrete 10) (Isolated .concrete 10 k R) m sched := by
  induction sched generalizing m with
  | nil => exact Machine.eachStep_nil _ _ _
  | cons e sched ih =>
      obtain ⟨hfirst, hrest⟩ := Bool.and_eq_true_iff.mp h
      exact (Machine.eachStep_cons _).mpr ⟨isolated_of_isolatedAt hfirst, ih hrest⟩

/-- Each of two threads sends one request. -/
def twoWorkers (words words' : List String) : Bool → Caller RespValue Bytes
  | true => .call (requestOf words) fun _ => .stop
  | false => .call (requestOf words') fun _ => .stop

/-- `n` steps of one thread. -/
def steps (t : Bool) (n : Nat) : List (Bool × (Nat → Int)) := List.replicate n (t, fun _ => 0)

/-- An `INCRBY` and then an `INCR`; a `SET` with `NX` and then another. -/
theorem rmw_isolated_turns :
    numberOf (view .concrete (workers .concrete 10
      (twoWorkers ["INCRBY", "a", "5"] ["INCR", "a"]) Store.empty
      (steps true 18 ++ steps false 1)).cells (ascii "a")) = some 6 ∧
    FirstWins ((workers .concrete 10
        (twoWorkers ["SET", "a", "1", "NX"] ["SET", "a", "2", "NX"]) Store.empty
        (steps true 18 ++ steps false 1)).history fun req => (commandOf req).claims (ascii "a"))
      (view .concrete (workers .concrete 10
        (twoWorkers ["SET", "a", "1", "NX"] ["SET", "a", "2", "NX"]) Store.empty
        (steps true 18 ++ steps false 1)).cells (ascii "a")) := by
  constructor
  · have h := (rmw_isolated .concrete 10 (k := ascii "a")
      (twoWorkers ["INCRBY", "a", "5"] ["INCR", "a"]) Store.empty
      (steps true 18 ++ steps false 1)).1 0 (by decide +kernel)
      (eachStep_of_isolatedRun (by decide +kernel))
    refine h.trans ?_
    decide +kernel
  · exact (rmw_isolated .concrete 10 (k := ascii "a")
      (twoWorkers ["SET", "a", "1", "NX"] ["SET", "a", "2", "NX"]) Store.empty
      (steps true 18 ++ steps false 1)).2 (by decide +kernel)
      (eachStep_of_isolatedRun (by decide +kernel))

/-- Both threads have read the key before either writes it: of two `INCRBY` one is
lost, and two `SET` with `NX` both reply OK. -/
theorem rmw_overlap :
    numberOf (view .concrete (workers .concrete 10
      (twoWorkers ["INCRBY", "a", "1"] ["INCRBY", "a", "1"]) Store.empty
      (steps true 1 ++ steps false 1 ++ steps true 17 ++ steps false 17)).cells (ascii "a")) =
        some 1 ∧
    deltas (workers .concrete 10
      (twoWorkers ["INCRBY", "a", "1"] ["INCRBY", "a", "1"]) Store.empty
      (steps true 1 ++ steps false 1 ++ steps true 17 ++ steps false 17)).log = 2 ∧
    (workers .concrete 10
      (twoWorkers ["SET", "a", "1", "NX"] ["SET", "a", "2", "NX"]) Store.empty
      (steps true 1 ++ steps false 1 ++ steps true 17 ++ steps false 17)).log.map
        Returned.reply = [RespSerializer.ok, RespSerializer.ok] := by
  decide +kernel

end RedisCache.Commands
