import Mathlib
import RedisCache.Lib.History
import RedisCache.Storage.Contents

/-!
# Overlapping calls on single keys

The seven functions that name one key, called by any number of threads. All
of them but `set` and `get` are one section. A `get` may fall through to a
second section, with anything in between, and a `set` looks at all shards and
reads the clock before it writes.

`KeyCall.does` is each call in one piece, on the contents of the store. As
long as nothing is evicted, the last section of a call does just that
(`KeyCall.settles`), and so does the call when it runs alone
(`KeyCall.run_does`). A run of overlapping calls is then a run of the same
calls one after the other.
-/

namespace RedisCache.Storage

open Sections TimedMap

/-- What a store holds: key to value and deadline. -/
abbrev Contents := Bytes → Option (Item Bytes)

inductive KeyCall where
  | set (key value : Bytes) (ttlMs : Int)
  | get (key : Bytes)
  | del (key : Bytes)
  | existsKey (key : Bytes)
  | ttl (key : Bytes)
  | expire (key : Bytes) (ttlMs : Int)
  | incr (key : Bytes)

namespace KeyCall

def call : KeyCall → Call
  | .set key value ttlMs => .set key value ttlMs
  | .get key => .get key
  | .del key => .del key
  | .existsKey key => .existsKey key
  | .ttl key => .ttl key
  | .expire key ttlMs => .expire key ttlMs
  | .incr key => .incr key

def prog (P : Platform) (maxKeys : Nat) (c : KeyCall) : StoreProg Reply := c.call.prog P maxKeys

/-- The call in one piece, at the clock readings of one section. -/
def does (rd : Nat → Int) (x : Contents) : KeyCall → Reply × Contents
  | .set key value ttlMs =>
      (.unit, Function.update x key
        (some (Entry.item ⟨value, Store.deadlineOf (rd 0) ttlMs, none⟩)))
  | .get key =>
      (.value ((live (rd 0) x key).map Item.value),
        Function.update x key (live (rd 0) x key))
  | .del key => (.flag (x key).isSome, Function.update x key none)
  | .existsKey key => (.flag (live (rd 0) x key).isSome, x)
  | .ttl key => (.number (Store.ttlOf (rd 0) (x key)), x)
  | .expire key ttlMs =>
      (.flag (live (rd 0) x key).isSome,
        match live (rd 0) x key with
        | none => x
        | some it =>
            Function.update x key (some (Entry.item ⟨it.value, i64 (rd 1 + ttlMs), none⟩)))
  | .incr key =>
      (.counter ((Store.counterOf (rd 0) x key).map fun n => i64 (n + 1)),
        match Store.counterOf (rd 0) x key with
        | none => x
        | some n => Function.update x key (some ⟨Decimal.ofInt (i64 (n + 1)), none⟩))

def key : KeyCall → Bytes
  | .set key _ _ | .get key | .del key | .existsKey key | .ttl key | .expire key _
  | .incr key => key

/-- A call leaves all other keys. -/
theorem does_other {c : KeyCall} {k : Bytes} (h : c.key ≠ k) (rd : Nat → Int) (x : Contents) :
    (c.does rd x).2 k = x k := by
  cases c with
  | set key value ttlMs | get key | del key => exact Function.update_of_ne (Ne.symm h) _ _
  | existsKey key | ttl key => rfl
  | expire key ttlMs =>
      simp only [does]
      cases live (rd 0) x key with
      | none => rfl
      | some it => exact Function.update_of_ne (Ne.symm h) _ _
  | incr key =>
      simp only [does]
      cases Store.counterOf (rd 0) x key with
      | none => rfl
      | some n => exact Function.update_of_ne (Ne.symm h) _ _

end KeyCall

/-! ## Sections on the contents -/

section Sections

variable (P : Platform)

theorem ttl_view (s : Shards) (key : Bytes) (now : Int) :
    (s (Store.shardFor P key)).ttl key now = Store.ttlOf now (view P s key) := by
  rw [view, Shard.ttl]
  cases (s (Store.shardFor P key)).map.find key with
  | none => rfl
  | some e =>
      by_cases h : 0 ≤ e.expiresAtMs
      · simp [Entry.hasExpiry, Entry.item, Store.ttlOf, h]
      · simp [Entry.hasExpiry, Entry.item, Store.ttlOf, h]

theorem getExclusive_view (s : Shards) (key : Bytes) (now : Int) :
    ((s (Store.shardFor P key)).getExclusive key now).1 =
      (live now (view P s) key).map Item.value := by
  rw [live_view, Shard.getExclusive]
  cases (s (Store.shardFor P key)).map.find key with
  | none => rfl
  | some e =>
      by_cases hexp : e.isExpired now = true
      · simp [hexp, Option.filter_some]
      · simp [hexp, Option.filter_some, Entry.item]

/-- What the shared lock is enough for: an absent key, and a live one. -/
theorem getShared_view {s : Shards} {key : Bytes} {now : Int} {r : Option Bytes}
    (h : (s (Store.shardFor P key)).getShared key now = some r) :
    r = (live now (view P s) key).map Item.value ∧ live now (view P s) key = view P s key := by
  rw [live_view, view]
  rw [Shard.getShared] at h
  cases he : (s (Store.shardFor P key)).map.find key with
  | none =>
      rw [he] at h
      cases h
      exact ⟨rfl, rfl⟩
  | some e =>
      rw [he] at h
      simp only at h
      split at h
      · cases h
      · rename_i hexp
        cases h
        simp [hexp, Option.filter_some, Entry.item]

theorem view_setLocked (s : Shards) (key value : Bytes) (deadline : Int) :
    view P (Function.update s (Store.shardFor P key)
        ((s (Store.shardFor P key)).setLocked key value deadline)) =
      Function.update (view P s) key (some (Entry.item ⟨value, deadline, none⟩)) := by
  obtain ⟨n, hn⟩ := (s (Store.shardFor P key)).setLocked_find key value deadline
  rw [view_write P s key hn]
  rfl

end Sections

/-! ## The last section decides -/

/-- Whatever a `set` saw of the shards, its last section writes the key, with
the deadline it computed before. -/
theorem Store.set_settles (P : Platform) (maxKeys : Nat) (key value : Bytes) (ttlMs : Int)
    {G : Shards → Prop} {Q : (Nat → Int) → Shards → Unit → Shards → Prop}
    (h : ∀ rd s, G s → Q rd s () (Function.update s (shardFor P key)
      ((s (shardFor P key)).setLocked key value (deadlineOf (rd 0) ttlMs))))
    (st : Option (Nat → Int)) : Settles G Q st (set P maxKeys key value ttlMs) := by
  refine Settles.after (fun _ r hr => ?_) (fun _ st => ?_) st
  · obtain ⟨d, -, hd⟩ := Prog.bind_eq_ret hr
    cases hd
  · unfold expiresAt
    by_cases httl : 0 < ttlMs
    · rw [if_pos httl]
      refine fun u => Settles.locked fun u' s hs => ?_
      have hw := h u s hs
      rwa [deadlineOf, if_pos httl] at hw
    · rw [if_neg httl]
      refine Settles.locked fun u s hs => ?_
      have hw := h (st.getD u) s hs
      rwa [deadlineOf, if_neg httl] at hw

namespace KeyCall

variable (P : Platform) (maxKeys : Nat)

/-- A store in which nothing has to be evicted. -/
def Roomy (s : Shards) : Prop := (∀ i, Valid P i (s i)) ∧ Store.total s < maxKeys

/-- The call, from contents with room for one more key. -/
def Says (c : KeyCall) (rd : Nat → Int) (x : Contents) (r : Reply) (y : Contents) : Prop :=
  {k | x k ≠ none}.ncard < maxKeys ∧ c.does rd x = (r, y)

variable {P maxKeys} in
theorem Roomy.ncard {s : Shards} (h : Roomy P maxKeys s) :
    {k | view P s k ≠ none}.ncard < maxKeys := by
  rw [← Store.total_eq_ncard P h.1]
  exact h.2

/-- A call that is one section. -/
theorem settles_section {α : Type} {c : KeyCall} {i : Index}
    {f : (Nat → Int) → Shard → α × Shard} {reply : α → Reply}
    (h : ∀ u s, c.does u (view P s) =
      (reply (f u (s i)).1, view P (Function.update s i (f u (s i)).2))) :
    Settles (Roomy P maxKeys) (fun rd s r s' => Says maxKeys c rd (view P s) r (view P s')) none
      (reply <$> Prog.locked i f) :=
  Settles.map (Settles.locked fun u s hs => ⟨hs.ncard, h u s⟩)

theorem settles_set (key value : Bytes) (ttlMs : Int) :
    Settles (Roomy P maxKeys)
      (fun rd s r s' => Says maxKeys (.set key value ttlMs) rd (view P s) r (view P s')) none
      ((fun _ => Reply.unit) <$> Store.set P maxKeys key value ttlMs) := by
  refine Settles.map (Store.set_settles P maxKeys key value ttlMs (fun rd s hs => ?_) none)
  exact ⟨hs.ncard, Prod.ext rfl (view_setLocked P s key value _).symm⟩

theorem settles_get (key : Bytes) :
    Settles (Roomy P maxKeys)
      (fun rd s r s' => Says maxKeys (.get key) rd (view P s) r (view P s')) none
      (Reply.value <$> Store.get P key) := by
  refine Settles.map (Settles.locked_bind (fun u s r hs hr => ?_) fun u s hs hr => ?_)
  · -- answered under the shared lock
    cases hshared : (s (Store.shardFor P key)).getShared key (u 0) with
    | none =>
        rw [hshared] at hr
        cases hr
    | some r' =>
        rw [hshared] at hr
        cases hr
        obtain ⟨hr', hlive⟩ := getShared_view P hshared
        refine ⟨hs.ncard, ?_⟩
        rw [hr', hlive]
        simp only [Option.getD_none, does, hlive, Function.update_eq_self]
  · -- whatever happened since, the key is looked up again
    cases hshared : (s (Store.shardFor P key)).getShared key (u 0) with
    | some r' => exact absurd (by rw [hshared]; rfl) (hr r')
    | none =>
        simp only
        refine Settles.locked fun u' s' hs' => ⟨hs'.ncard, ?_⟩
        rw [view_write P s' key (Shard.getExclusive_find _ key (u' 0)), ← live_view,
          getExclusive_view]
        rfl

/-- **The last section of a call does what the call does.** -/
theorem settles (c : KeyCall) :
    Settles (Roomy P maxKeys) (fun rd s r s' => Says maxKeys c rd (view P s) r (view P s')) none
      (c.prog P maxKeys) := by
  cases c with
  | set key value ttlMs =>
      have h := settles_set P maxKeys key value ttlMs
      rwa [map_eq_pure_bind] at h
  | get key => exact settles_get P maxKeys key
  | del key =>
      refine settles_section P maxKeys fun u s => Prod.ext ?_ ?_
      · exact congrArg Reply.flag (Store.run_del_fst P ⟨u, s⟩ key).symm
      · exact (Store.view_run_del P ⟨u, s⟩ key).symm
  | existsKey key =>
      refine settles_section P maxKeys fun u s => Prod.ext ?_ ?_
      · rw [Shard.existsKey_eq, ← Option.isSome_map, ← live_view]
        rfl
      · rw [Function.update_eq_self]
        rfl
  | ttl key =>
      refine settles_section P maxKeys fun u s => Prod.ext ?_ ?_
      · rw [ttl_view]
        rfl
      · rw [Function.update_eq_self]
        rfl
  | expire key ttlMs =>
      refine settles_section P maxKeys fun u s => Prod.ext ?_ ?_
      · exact congrArg Reply.flag (Store.run_expire_fst P ⟨u, s⟩ key ttlMs).symm
      · exact (Store.view_run_expire_live P ⟨u, s⟩ key ttlMs).symm
  | incr key =>
      refine settles_section P maxKeys fun u s => Prod.ext ?_ ?_
      · exact congrArg Reply.counter (Store.run_incr_fst P ⟨u, s⟩ key).symm
      · exact (Store.view_run_incr P ⟨u, s⟩ key).symm

/-! ## One call after the other -/

/-- Where the clock shows the readings of one section, section after section. -/
def world (rd : Nat → Int) (s : Shards) : World Index Shard := ⟨fun n => rd (n % 2), s⟩

/-- **The call alone does what the call does.** -/
theorem run_does {s : Shards} (hs : Roomy P maxKeys s) (c : KeyCall) (rd : Nat → Int) :
    c.does rd (view P s) =
      (((c.prog P maxKeys).run (world rd s)).1,
        view P ((c.prog P maxKeys).run (world rd s)).2.cells) := by
  cases c with
  | set key value ttlMs =>
      have hview := Store.view_run_set P maxKeys (w := world rd s) key hs.2 value ttlMs
      rw [prog, call, Call.prog, Prog.run_bind, Prog.run_pure, hview]
      rfl
  | get key =>
      -- alone, both sections of `get` read the same clock
      have hle : (world rd s).clock 0 ≤ (world rd s).clock 2 := le_rfl
      rw [prog, call, Call.prog, Prog.run_map, Store.run_get_fst P key hle,
        Store.view_run_get_of_le P key hle]
      refine Prod.ext rfl ?_
      show Function.update (view P s) key (live (rd 0) (view P s) key) =
        if live (rd 0) (view P s) key = none then Function.update (view P s) key none
        else view P s
      cases hlive : live (rd 0) (view P s) key with
      | none => rfl
      | some it =>
          rw [if_neg (Option.some_ne_none it), ← (live_eq_some.mp hlive).1,
            Function.update_eq_self]
  | del key =>
      refine Prod.ext ?_ ?_
      · exact congrArg Reply.flag (Store.run_del_fst P (world rd s) key).symm
      · exact (Store.view_run_del P (world rd s) key).symm
  | existsKey key =>
      have hrun := Store.run_existsKey_view P (world rd s) key
      refine Prod.ext ?_ ?_
      · exact congrArg (fun q => Reply.flag q.1) hrun.symm
      · exact congrArg (fun q => view P q.2.cells) hrun.symm
  | ttl key =>
      have hrun := Store.run_ttl P key (world rd s)
      refine Prod.ext ?_ ?_
      · refine Eq.trans ?_ (congrArg (fun q => Reply.number q.1) hrun.symm)
        exact congrArg Reply.number (ttl_view P s key (rd 0)).symm
      · exact congrArg (fun q => view P q.2.cells) hrun.symm
  | expire key ttlMs =>
      refine Prod.ext ?_ ?_
      · exact congrArg Reply.flag (Store.run_expire_fst P (world rd s) key ttlMs).symm
      · exact (Store.view_run_expire_live P (world rd s) key ttlMs).symm
  | incr key =>
      refine Prod.ext ?_ ?_
      · exact congrArg Reply.counter (Store.run_incr_fst P (world rd s) key).symm
      · exact (Store.view_run_incr P (world rd s) key).symm

theorem prog_safe (c : KeyCall) : Safe (Valid P) (c.prog P maxKeys) :=
  c.call.prog_safe P maxKeys

/-- The calls of a log, one after the other: each reads the clock where the
log says, and a `set` where it computed its deadline. -/
def sequential {τ : Type} : List (Returned τ KeyCall Reply) → Shards → List Reply × Shards
  | [], s => ([], s)
  | e :: es, s =>
      let out := (e.call.prog P maxKeys).run (world e.readings s)
      let rest := sequential es out.2.cells
      (out.1 :: rest.1, rest.2)

/-- What explains a log is what its calls do one after the other. -/
theorem sequential_of_explained {τ : Type} {es : List (Returned τ KeyCall Reply)} {x y : Contents}
    (h : Explained (Says maxKeys) es x y) {s : Shards} (hs : ∀ i, Valid P i (s i))
    (hx : view P s = x) :
    (sequential P maxKeys es s).1 = es.map Returned.reply ∧
      view P (sequential P maxKeys es s).2 = y := by
  induction es generalizing x s with
  | nil => exact ⟨rfl, hx.trans h⟩
  | cons e es ih =>
      obtain ⟨z, ⟨hroom, hdoes⟩, hrest⟩ := h
      subst hx
      have hroomy : Roomy P maxKeys s := ⟨hs, by rwa [Store.total_eq_ncard P hs]⟩
      rw [run_does P maxKeys hroomy] at hdoes
      obtain ⟨hreply, hview⟩ := Prod.mk.inj hdoes
      obtain ⟨hreplies, hend⟩ :=
        ih hrest ((e.call.prog_safe P maxKeys).run (w := world e.readings s) hs) hview
      exact ⟨congrArg₂ List.cons hreply hreplies, hend⟩

end KeyCall

/-! ## Counting -/

/-- `n` numbers, one after the other from `a`. -/
def upFrom (a : Int) (n : Nat) : List Int := (List.range n).map fun j : Nat => i64 (a + j)

@[simp] theorem upFrom_length (a : Int) (n : Nat) : (upFrom a n).length = n := by simp [upFrom]

theorem upFrom_succ (a : Int) (n : Nat) : upFrom a (n + 1) = i64 a :: upFrom (a + 1) n := by
  rw [upFrom, upFrom, List.range_succ_eq_map, List.map_cons, List.map_map]
  refine congrArg₂ List.cons (by simp) (List.map_congr_left fun j _ => ?_)
  simp only [Function.comp, Nat.succ_eq_add_one, Nat.cast_add, Nat.cast_one]
  rw [add_assoc, add_comm (j : Int) 1]

theorem upFrom_i64 (a : Int) (n : Nat) : upFrom (i64 a + 1) n = upFrom (a + 1) n := by
  refine List.map_congr_left fun j _ => ?_
  rw [add_assoc, i64_add_left, ← add_assoc]

theorem upFrom_nodup {a : Int} {n : Nat} (h : n ≤ 2 ^ 64) : (upFrom a n).Nodup := by
  refine List.Nodup.map_on (fun j hj j' hj' heq => ?_) List.nodup_range
  rw [List.mem_range] at hj hj'
  unfold i64 at heq
  omega

theorem upFrom_getLast {a b : Int} {n : Nat} (h : b ∈ (upFrom (a + 1) n).getLast?) :
    b = i64 (a + n) := by
  cases n with
  | zero => simp [upFrom] at h
  | succ n =>
      rw [upFrom, List.range_succ, List.map_append, List.map_singleton,
        List.getLast?_append, List.getLast?_singleton] at h
      simp only [Option.some_or, Option.mem_def, Option.some.injEq] at h
      rw [← h, Nat.cast_add, Nat.cast_one]
      exact congrArg i64 (by ring)

namespace KeyCall

/-- The calls that write a key other than by counting it up. -/
def overwrites (key : Bytes) : KeyCall → Bool
  | .set k _ _ => k == key
  | .del k => k == key
  | .expire k _ => k == key
  | _ => false

def countsUp (key : Bytes) : KeyCall → Bool
  | .incr k => k == key
  | _ => false

/-- The number an `incr` of the key returned. -/
def number (key : Bytes) : KeyCall → Reply → Option Int
  | .incr k, .counter n => if k = key then n else none
  | _, _ => none

def numbers {τ : Type} (key : Bytes) (log : List (Returned τ KeyCall Reply)) : List Int :=
  log.filterMap fun e => number key e.call e.reply

def increments {τ : Type} (key : Bytes) (log : List (Returned τ KeyCall Reply)) : Nat :=
  log.countP fun e => e.call.countsUp key

/-- The key holds the number `a`, whenever it is read. -/
def Holds (key : Bytes) (a : Int) (x : Contents) : Prop :=
  ∀ now, Store.counterOf now x key = some a

theorem Holds.inRange {key : Bytes} {a : Int} {x : Contents} (h : Holds key a x) :
    Decimal.InRange a := by
  have h0 := h 0
  rw [Store.counterOf] at h0
  cases hl : live 0 x key with
  | none =>
      rw [hl] at h0
      cases h0
      decide
  | some it =>
      rw [hl] at h0
      simp only at h0
      split at h0
      · cases h0
      · cases h0
        exact Decimal.fromChars_inRange (by decide) _

/-- A counter that has just been written. -/
theorem holds_written (key : Bytes) {a : Int} (ha : Decimal.InRange a) (x : Contents) :
    Holds key a (Function.update x key (some ⟨Decimal.ofInt a, none⟩)) := by
  intro now
  simp [Store.counterOf, live, Item.alive, Option.filter_some,
    Decimal.fromChars_ofInt_alone 0 ha]

theorem holds_congr {key : Bytes} {a : Int} {x y : Contents} (h : Holds key a x)
    (hy : y key = x key) : Holds key a y := fun now =>
  (Store.counterOf_congr (by rw [live, live, hy])).trans (h now)

section Counting

variable {maxKeys : Nat} {key : Bytes} {rd : Nat → Int} {x y : Contents} {r : Reply} {a : Int}

/-- Reading a key leaves its number, and so does any call on another key. -/
theorem Holds.kept {c : KeyCall} (h : Holds key a x) (hc : Says maxKeys c rd x r y)
    (hover : c.overwrites key = false) (hcount : c.countsUp key = false) : Holds key a y := by
  obtain ⟨-, hdoes⟩ := hc
  obtain rfl : (c.does rd x).2 = y := congrArg Prod.snd hdoes
  by_cases hkey : c.key = key
  · subst hkey
    cases c with
    | set | del | expire => simp [overwrites, KeyCall.key] at hover
    | incr => simp [countsUp, KeyCall.key] at hcount
    | existsKey k => exact h
    | ttl k => exact h
    | get k =>
        cases hlive : live (rd 0) x k with
        | some it =>
            refine holds_congr h ?_
            rw [does, hlive, ← (live_eq_some.mp hlive).1, Function.update_eq_self]
        | none =>
            -- it is removed as dead, and dead it counted as 0
            have hdead := h (rd 0)
            rw [KeyCall.key, Store.counterOf, hlive] at hdead
            have hgone : (does rd x (.get k)).2 k = none := by
              rw [does, hlive]
              exact Function.update_self k none x
            intro now
            rw [KeyCall.key, Store.counterOf, live, hgone]
            exact hdead
  · exact holds_congr h (does_other hkey rd x)

/-- `incr` returns what the key then holds, or changes nothing. -/
theorem says_incr (h : Says maxKeys (.incr key) rd x r y) :
    (∃ b, r = .counter (some b) ∧ Holds key b y ∧ ∀ a, Holds key a x → b = i64 (a + 1)) ∨
      (r = .counter none ∧ y = x ∧ ∀ a, ¬ Holds key a x) := by
  obtain ⟨-, hdoes⟩ := h
  simp only [does] at hdoes
  cases hc : Store.counterOf (rd 0) x key with
  | none =>
      rw [hc] at hdoes
      cases hdoes
      refine Or.inr ⟨rfl, rfl, fun a ha => ?_⟩
      rw [ha (rd 0)] at hc
      cases hc
  | some n =>
      rw [hc] at hdoes
      cases hdoes
      refine Or.inl ⟨_, rfl, holds_written key (i64_inRange _) x, fun a ha => ?_⟩
      rw [ha (rd 0)] at hc
      cases hc
      rfl

theorem eq_incr_of_countsUp {c : KeyCall} (h : c.countsUp key = true) : c = .incr key := by
  cases c with
  | incr k => exact congrArg KeyCall.incr (beq_iff_eq.mp h)
  | set | get | del | existsKey | ttl | expire => cases h

theorem number_incr (key : Bytes) (n : Option Int) : number key (.incr key) (.counter n) = n :=
  if_pos rfl

theorem number_of_not_countsUp {c : KeyCall} (h : c.countsUp key = false) (r : Reply) :
    number key c r = none := by
  cases c with
  | incr k =>
      cases r with
      | counter n => exact if_neg (by simpa [countsUp] using h)
      | unit | value | flag | number | names | records | count => rfl
  | set | get | del | existsKey | ttl | expire => rfl

variable {τ : Type} {e : Returned τ KeyCall Reply} {es : List (Returned τ KeyCall Reply)}

theorem numbers_cons : numbers key (e :: es) =
    (number key e.call e.reply).toList ++ numbers key es := by
  rw [numbers, List.filterMap_cons]
  cases number key e.call e.reply <;> rfl

theorem increments_cons : increments key (e :: es) =
    increments key es + if e.call.countsUp key = true then 1 else 0 :=
  List.countP_cons

/-- From a key that holds a number, every `incr` counts. -/
theorem numbers_of_holds (h : Explained (Says maxKeys) es x y)
    (hover : ∀ e ∈ es, e.call.overwrites key = false) (hx : Holds key a x) :
    numbers key es = upFrom (a + 1) (increments key es) ∧
      Holds key (i64 (a + increments key es)) y := by
  induction es generalizing x a with
  | nil =>
      cases h
      refine ⟨rfl, ?_⟩
      rw [increments, List.countP_nil, Nat.cast_zero, add_zero, i64_of_inRange hx.inRange]
      exact hx
  | cons e es ih =>
      obtain ⟨z, hsays, hrest⟩ := h
      obtain ⟨hfirst, hothers⟩ := List.forall_mem_cons.mp hover
      rw [numbers_cons, increments_cons]
      cases hcount : e.call.countsUp key with
      | false =>
          rw [number_of_not_countsUp hcount]
          exact ih hrest hothers (hx.kept hsays hfirst hcount)
      | true =>
          rw [eq_incr_of_countsUp hcount] at hsays ⊢
          rcases says_incr hsays with ⟨b, hr, hz, hb⟩ | ⟨-, -, hno⟩
          · -- the reply is the next number, from which the later calls go on
            obtain ⟨hnumbers, hend⟩ := ih hrest hothers hz
            rw [hb a hx, upFrom_i64] at hnumbers
            rw [hb a hx, i64_add_left] at hend
            rw [hr, number_incr, if_pos rfl, upFrom_succ, hnumbers, hb a hx]
            refine ⟨rfl, ?_⟩
            rwa [Nat.cast_add, Nat.cast_one, add_comm _ (1 : Int), ← add_assoc]
          · exact absurd hx (hno a)

/-- From any key: once an `incr` has counted, all that follow do. -/
theorem numbers_consecutive (h : Explained (Says maxKeys) es x y)
    (hover : ∀ e ∈ es, e.call.overwrites key = false) :
    (∃ a, numbers key es = upFrom a (numbers key es).length) ∧
      ∀ b ∈ (numbers key es).getLast?, Holds key b y := by
  induction es generalizing x with
  | nil => exact ⟨⟨0, rfl⟩, fun b hb => by simp [numbers] at hb⟩
  | cons e es ih =>
      obtain ⟨z, hsays, hrest⟩ := h
      obtain ⟨-, hothers⟩ := List.forall_mem_cons.mp hover
      rw [numbers_cons]
      cases hcount : e.call.countsUp key with
      | false =>
          rw [number_of_not_countsUp hcount]
          exact ih hrest hothers
      | true =>
          rw [eq_incr_of_countsUp hcount] at hsays ⊢
          rcases says_incr hsays with ⟨b, hr, hz, -⟩ | ⟨hr, -, -⟩
          · obtain ⟨hnumbers, hend⟩ := numbers_of_holds hrest hothers hz
            have hall : b :: numbers key es = upFrom b (increments key es + 1) := by
              rw [upFrom_succ, hnumbers, i64_of_inRange hz.inRange]
            rw [hr, number_incr, Option.toList_some, List.singleton_append, hall]
            refine ⟨⟨b, by rw [upFrom_length]⟩, fun c hc => ?_⟩
            rw [show b = b - 1 + 1 by ring] at hc
            rw [upFrom_getLast hc, Nat.cast_add, Nat.cast_one,
              show b - 1 + (increments key es + 1) = b + increments key es by ring]
            exact hend
          · rw [hr, number_incr]
            exact ih hrest hothers

end Counting

/-- What the `incr` calls of a log made of one key. -/
structure Counted {τ : Type} (key : Bytes) (x : Contents) (log : List (Returned τ KeyCall Reply))
    (y : Contents) : Prop where
  /-- The numbers they returned follow each other. -/
  consecutive : ∃ a, numbers key log = upFrom a (numbers key log).length
  distinct : (numbers key log).length ≤ 2 ^ 64 → (numbers key log).Nodup
  /-- The last of them is the one in the store. -/
  last_stored : ∀ b ∈ (numbers key log).getLast?, Holds key b y
  /-- A key that held a number holds it plus the number of calls. -/
  none_lost : ∀ a, Holds key a x →
    Holds key (i64 (a + increments key log)) y

theorem counted {τ : Type} {maxKeys : Nat} {key : Bytes} {x y : Contents}
    {log : List (Returned τ KeyCall Reply)} (h : Explained (Says maxKeys) log x y)
    (hover : ∀ e ∈ log, e.call.overwrites key = false) : Counted key x log y := by
  obtain ⟨⟨a, ha⟩, hlast⟩ := numbers_consecutive h hover
  refine ⟨⟨a, ha⟩, fun hlen => ?_, hlast, fun a hx => (numbers_of_holds h hover hx).2⟩
  rw [ha]
  exact upFrom_nodup hlen

end KeyCall

/-! ## Every run -/

section Linearizable

/-- Threads that call the store. -/
abbrev Calls (τ : Type) := Machine Index Shard τ KeyCall Reply

theorem history_all {τ : Type} (m : Calls τ) : m.history (fun _ => true) = m.log := by
  simp [Machine.history]

variable (P : Platform) (maxKeys : Nat) {τ : Type} [DecidableEq τ]

/-- A run of the threads' calls from the store `s`. -/
def overlapping (callers : τ → Caller KeyCall Reply) (s : Shards)
    (sched : List (τ × (Nat → Int))) : Calls τ :=
  (Machine.start (KeyCall.prog P maxKeys) callers s).run (KeyCall.prog P maxKeys) sched

/-- Below the limit, and nothing evicted: what a `set` does before its last
section does not show. -/
structure Unevicted (m : Calls τ) (e : τ × (Nat → Int)) : Prop where
  room : Store.total m.cells < maxKeys
  kept : (m.step (KeyCall.prog P maxKeys) e.1 e.2).log = m.log →
    view P (m.step (KeyCall.prog P maxKeys) e.1 e.2).cells = view P m.cells

/-- Any run is explained by its calls in the order of their last sections. -/
theorem overlapping_explained (callers : τ → Caller KeyCall Reply) {s : Shards}
    (hs : ∀ i, Valid P i (s i)) {sched : List (τ × (Nat → Int))}
    (h : Machine.EachStep (KeyCall.prog P maxKeys) (Unevicted P maxKeys)
      (Machine.start (KeyCall.prog P maxKeys) callers s) sched) :
    Explained (KeyCall.Says maxKeys) (overlapping P maxKeys callers s sched).log (view P s)
      (view P (overlapping P maxKeys callers s sched).cells) := by
  rw [← history_all]
  refine Machine.explained (G := fun _ => KeyCall.Roomy P maxKeys)
    (fun c _ _ => c.settles P maxKeys) callers s fun before e after hsched => ?_
  obtain ⟨hroom, hkept⟩ := h before e after hsched
  have hvalid := Machine.run_safe _ (KeyCall.prog_safe P maxKeys) callers hs before
  refine ⟨⟨hvalid, hroom⟩, fun hlog => hkept ?_, fun _ _ _ _ _ _ => rfl⟩
  rwa [history_all, history_all] at hlog

/-- **Overlapping calls are linearizable.** Whatever the threads call and
however their sections interleave, as long as nothing is evicted: the same
calls one after the other, in the order of their last sections, return the
same and leave the same keys, values and deadlines. A key that is only
counted up counts every call. -/
theorem calls_linearizable (callers : τ → Caller KeyCall Reply) {s : Shards}
    (hs : ∀ i, Valid P i (s i)) {sched : List (τ × (Nat → Int))}
    (h : Machine.EachStep (KeyCall.prog P maxKeys) (Unevicted P maxKeys)
      (Machine.start (KeyCall.prog P maxKeys) callers s) sched) :
    let m := overlapping P maxKeys callers s sched
    (KeyCall.sequential P maxKeys m.log s).1 = m.log.map Returned.reply ∧
      view P (KeyCall.sequential P maxKeys m.log s).2 = view P m.cells ∧
      ∀ key, (∀ e ∈ m.log, e.call.overwrites key = false) →
        KeyCall.Counted key (view P s) m.log (view P m.cells) := by
  have hexp := overlapping_explained P maxKeys callers hs h
  obtain ⟨hreplies, hend⟩ := KeyCall.sequential_of_explained P maxKeys hexp hs rfl
  exact ⟨hreplies, hend, fun key hover => KeyCall.counted hexp hover⟩

end Linearizable

/-- Two threads count up one key. -/
theorem calls_linearizable_incr :
    let m := overlapping .concrete 10
      (fun _ : Bool => .call (.incr (ascii "a")) fun _ => .stop) Store.empty
      [(true, fun _ => 0), (false, fun _ => 0)]
    (KeyCall.sequential .concrete 10 m.log Store.empty).1 = m.log.map Returned.reply ∧
      view .concrete (KeyCall.sequential .concrete 10 m.log Store.empty).2 =
        view .concrete m.cells ∧
      ∀ key, (∀ e ∈ m.log, e.call.overwrites key = false) →
        KeyCall.Counted key (view .concrete Store.empty) m.log (view .concrete m.cells) := by
  refine calls_linearizable .concrete 10 _ (Store.empty_valid _) ?_
  refine (Machine.eachStep_cons _).mpr ⟨⟨by decide +kernel, fun h => ?_⟩,
    (Machine.eachStep_cons _).mpr ⟨⟨by decide +kernel, fun h => ?_⟩, Machine.eachStep_nil _ _ _⟩⟩
  · exact absurd (congrArg List.length h) (by decide +kernel)
  · exact absurd (congrArg List.length h) (by decide +kernel)

/-- One thread counts `p` up, deletes it and counts `o` up, the other sets `a`. -/
def lateScan : Bool → Caller KeyCall Reply
  | true =>
      .call (.incr (ascii "p")) fun _ => .call (.del (ascii "p")) fun _ =>
        .call (.incr (ascii "o")) fun _ => .stop
  | false => .call (.set (ascii "a") (ascii "1") (-1)) fun _ => .stop

/-- The `set` looks at the shard of `p` before the `del`, and at the others after
the last `incr`. -/
def lateSched : List (Bool × (Nat → Int)) :=
  [true, false, true, true].map (fun t => (t, fun _ => 0)) ++
    List.replicate 33 (false, fun _ => 0)

/-- Room for two keys, and never more than one in the store: the `set` counts
`p` and `o`, evicts `o`, and no order of the calls explains that `o` is gone. -/
theorem set_evicts_below_limit :
    (∀ n ∈ List.range 38, Store.total
      (overlapping .concrete 2 lateScan Store.empty (lateSched.take n)).cells < 2) ∧
    ((overlapping .concrete 2 lateScan Store.empty lateSched).log.map Returned.thread) =
      [true, true, true, false] ∧
    (view .concrete (overlapping .concrete 2 lateScan Store.empty lateSched).cells
      (ascii "o")).isNone = true ∧
    (view .concrete (KeyCall.sequential .concrete 2
      (overlapping .concrete 2 lateScan Store.empty lateSched).log Store.empty).2
      (ascii "o")).isSome = true := by
  decide +kernel

end RedisCache.Storage
