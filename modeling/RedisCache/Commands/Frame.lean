import Mathlib
import RedisCache.Commands.Effects
import RedisCache.Commands.Runs
import RedisCache.Storage.Capacity

/-!
# What a command leaves alone

Below the key limit, and told by the reply or the name of the request:

- after an error reply the store is the one there was, cell by cell;
- a command that only looks, or a `SET` that `NX` or `XX` refuses, changes
  nothing that can be seen (a dead entry may be reclaimed);
- a command that is not a flush leaves every key it does not name.
-/

namespace RedisCache.Commands

open Sections Protocol Storage TimedMap

/-- The reply starts with `-`. -/
def IsError (r : Bytes) : Prop := r.head? = some 45

instance : DecidablePred IsError := fun r => inferInstanceAs (Decidable (r.head? = some 45))

/-- The names of the commands that only look. -/
def looking : List Bytes :=
  ["get", "exists", "ttl", "pttl", "keys", "dbsize", "ping"].map ascii

def flushing : List Bytes := ["flushall", "flushdb"].map ascii

/-- The keys a command is about. -/
def Command.named : Command → List Bytes
  | .set key _ _ | .get key | .expire key _ | .ttl key | .pttl key | .incr key
  | .incrby key _ => [key]
  | .del ks | .exist ks => ks
  | .reply _ | .keys _ | .dbsize | .flushall => []

/-- Whether a command only looks. -/
def Command.looks : Command → Bool
  | .reply _ | .get _ | .exist _ | .ttl _ | .pttl _ | .keys _ | .dbsize => true
  | .set _ _ _ | .del _ | .expire _ _ | .incr _ | .incrby _ _ | .flushall => false

/-! ## From names to commands -/

/-- The names under which a command is asked for. -/
def Command.CalledAs (name : Bytes) : Command → Prop
  | .reply _ => True
  | .set _ _ _ => name = ascii "set"
  | .get _ => name = ascii "get"
  | .del _ => name = ascii "del" ∨ name = ascii "unlink"
  | .exist _ => name = ascii "exists"
  | .expire _ _ => name = ascii "expire" ∨ name = ascii "pexpire"
  | .ttl _ => name = ascii "ttl"
  | .pttl _ => name = ascii "pttl"
  | .incr _ => name = ascii "incr"
  | .incrby _ _ => name = ascii "incrby"
  | .keys _ => name = ascii "keys"
  | .dbsize => name = ascii "dbsize"
  | .flushall => name ∈ flushing

theorem readers_calledAs : ∀ e ∈ readers, ∀ args, (e.2 args).CalledAs e.1 := by
  have hreply : ∀ name r, (Command.reply r).CalledAs name := fun _ _ => trivial
  simp only [readers, List.forall_mem_cons]
  exact ⟨fun _ => readPing_ind (hreply _), fun _ => readSet_ind (hreply _) fun _ _ _ _ _ => rfl,
    fun _ => readKey_ind (hreply _) fun _ _ => rfl,
    fun _ => readKeys_ind (hreply _) fun _ => .inl rfl,
    fun _ => readKeys_ind (hreply _) fun _ => .inr rfl,
    fun _ => readKeys_ind (hreply _) fun _ => rfl,
    fun _ => readExpire_ind (hreply _) fun _ _ => .inl rfl,
    fun _ => readExpire_ind (hreply _) fun _ _ => .inr rfl,
    fun _ => readKey_ind (hreply _) fun _ _ => rfl,
    fun _ => readKey_ind (hreply _) fun _ _ => rfl,
    fun _ => readKey_ind (hreply _) fun _ _ => rfl,
    fun _ => readIncrby_ind (hreply _) fun _ _ _ => rfl,
    fun _ => rfl, fun _ => rfl, fun _ => List.mem_cons_self,
    fun _ => List.mem_cons_of_mem _ List.mem_cons_self, fun _ h => by cases h⟩

/-- A request that is not answered at once is named after its command. -/
theorem commandOf_calledAs (req : RespValue) :
    (∃ r, commandOf req = .reply r) ∨ ∃ name, nameOf req = some name ∧
      (commandOf req).CalledAs name := by
  rcases commandOf_cases req with hreply | ⟨e, he, hname, hread⟩
  · exact .inl hreply
  · exact .inr ⟨e.1, hname, hread ▸ readers_calledAs e he req.array⟩

theorem looks_of_name {req : RespValue} (h : ∃ name ∈ looking, nameOf req = some name) :
    (commandOf req).looks = true := by
  obtain ⟨name, hlooking, hname⟩ := h
  rcases commandOf_calledAs req with ⟨r, hreply⟩ | ⟨name', hname', hcalled⟩
  · rw [hreply]
    rfl
  · obtain rfl : name' = name := Option.some.inj (hname'.symm.trans hname)
    cases hc : commandOf req with
    | reply | get | exist | ttl | pttl | keys | dbsize => rfl
    | set | incr | incrby =>
        rw [hc] at hcalled
        subst hcalled
        exact absurd hlooking (by decide)
    | del | expire =>
        rw [hc] at hcalled
        rcases hcalled with rfl | rfl <;> exact absurd hlooking (by decide)
    | flushall =>
        rw [hc] at hcalled
        have hdisjoint : ∀ n ∈ flushing, n ∉ looking := by decide
        exact absurd hlooking (hdisjoint _ hcalled)

theorem not_flushall_of_name {req : RespValue} (h : ∀ name ∈ flushing, nameOf req ≠ some name) :
    commandOf req ≠ .flushall := by
  intro hc
  rcases commandOf_calledAs req with ⟨r, hreply⟩ | ⟨name, hname, hcalled⟩
  · rw [hc] at hreply
    cases hreply
  · rw [hc] at hcalled
    exact h name hcalled hname

/-- A request named `set` is a `SET`, or lacks arguments. -/
theorem set_of_name {req : RespValue} (h : nameOf req = some (ascii "set")) :
    (∃ r, commandOf req = .reply r) ∨ ∃ key value o, commandOf req = .set key value o := by
  rcases commandOf_calledAs req with hreply | ⟨name, hname, hcalled⟩
  · exact .inl hreply
  · obtain rfl : name = ascii "set" := Option.some.inj (hname.symm.trans h)
    cases hc : commandOf req with
    | reply r => exact .inl ⟨r, rfl⟩
    | set key value o => exact .inr ⟨key, value, o, rfl⟩
    | get | exist | ttl | pttl | incr | incrby | keys | dbsize | del | expire | flushall =>
        simp only [hc, Command.CalledAs] at hcalled
        exact absurd hcalled (by decide)

/-! ## One command -/

section Command

variable {P : Platform} {maxKeys : Nat}

theorem not_isError_ok : ¬ IsError RespSerializer.ok := by decide

theorem not_isError_bulkReply (v : Option Bytes) : ¬ IsError (bulkReply v) := by
  cases v with
  | none => decide
  | some v => simp [IsError, bulkReply, RespSerializer.bulk, ascii]

theorem not_isError_integer (n : Int) : ¬ IsError (RespSerializer.integer n) := by
  simp [IsError, RespSerializer.integer, ascii]

theorem not_isError_array (ks : List Bytes) : ¬ IsError (RespSerializer.array ks) := by
  simp [IsError, RespSerializer.array, ascii]

theorem not_isError_ttlReply (ms : Int) : ¬ IsError (ttlReply ms) := by
  unfold ttlReply
  split
  · exact not_isError_integer _
  · split
    · exact not_isError_integer _
    · exact not_isError_integer _

/-- `SET` writes and says so, or leaves the store and answers with the null
bulk. -/
theorem run_set_cases (key value : Bytes) (o : SetOptions) (w : World Index Shard) :
    (((Command.set key value o).prog P maxKeys).run w).1 = RespSerializer.ok ∨
      (((Command.set key value o).prog P maxKeys).run w).1 = RespSerializer.nullBulk ∧
        (((Command.set key value o).prog P maxKeys).run w).2.cells = w.cells := by
  cases hblocks : o.blocks w.clock (view P w.cells) key with
  | true => exact .inr (run_set_blocked P maxKeys hblocks value)
  | false => exact .inl (by rw [run_set_free P maxKeys hblocks])

/-- **A command that fails does nothing.** -/
theorem exec_error (t : Int) (s : Shards) (c : Command)
    (h : IsError ((c.prog P maxKeys).exec t s).1) : ((c.prog P maxKeys).exec t s).2 = s := by
  cases c with
  | reply r => rfl
  | set key value o =>
      rcases run_set_cases key value o ⟨fun _ => t, s⟩ with hok | hnull
      · rw [Prog.exec, hok] at h
        exact absurd h not_isError_ok
      · exact hnull.2
  | get | del | exist | expire | ttl | pttl | keys | dbsize | flushall =>
      -- these have no error reply
      simp only [Command.prog, Prog.exec_map, Prog.exec_bind, Prog.exec_pure, not_isError_ok,
        not_isError_bulkReply, not_isError_integer, not_isError_array, not_isError_ttlReply] at h
  | incr key =>
      simp only [Command.prog, Prog.exec_map, Store.exec_incr_fst] at h ⊢
      cases hcounter : Store.counterOf t (view P s) key with
      | none => exact Store.run_incr_refused P (w := ⟨fun _ => t, s⟩) key hcounter
      | some n =>
          rw [hcounter] at h
          exact absurd h (not_isError_integer _)
  | incrby key delta =>
      have hget := Store.exec_get_fst P t s key
      simp only [Command.prog, Prog.exec_bind] at h ⊢
      split at h
      · rename_i hec
        rw [if_pos hec]
        refine (Store.run_get_live P (w := ⟨fun _ => t, s⟩) key fun hdead => hec ?_).2
        simp [hget, hdead, currentOf]
      · rw [Prog.exec_bind, Prog.exec_pure] at h
        exact absurd h (not_isError_integer _)

/-- A command that only looks clears away what is dead, at most. -/
theorem tidied_looks {w : World Index Shard} {c : Command} (hc : c.looks = true) :
    Tidied (w.clock 2) (view P w.cells) (view P ((c.prog P maxKeys).run w).2.cells) := by
  cases c with
  | reply r => exact Tidied.refl _ _
  | get key =>
      rw [Command.prog, Prog.run_map]
      exact Store.tidied_run_get P w key
  | exist ks =>
      simp only [Command.prog, Prog.run_map, run_countOf_exists]
      exact Tidied.refl _ _
  | ttl key | pttl key =>
      simp only [Command.prog, Prog.run_map, Store.run_ttl]
      exact Tidied.refl _ _
  | keys pattern =>
      simp only [Command.prog, Prog.run_map, Store.run_keys]
      exact Tidied.refl _ _
  | dbsize =>
      simp only [Command.prog, Prog.run_map, Store.run_size]
      exact Tidied.refl _ _
  | set | del | expire | incr | incrby | flushall => cases hc

theorem view_run_get_other {w : World Index Shard} {key k : Bytes} (hk : k ≠ key) :
    view P ((Store.get P key).run w).2.cells k = view P w.cells k := by
  rcases Store.view_run_get P w key with hview | hview
  · rw [hview]
  · rw [hview, Function.update_of_ne hk]

/-- **A command that is not a flush touches the keys it names**, whatever the
clock reads. -/
theorem view_run_other {w : World Index Shard} (hs : ∀ i, Valid P i (w.cells i))
    (hroom : Store.total w.cells < maxKeys) {c : Command} (hc : c ≠ .flushall) {k : Bytes}
    (hk : k ∉ c.named) : view P ((c.prog P maxKeys).run w).2.cells k = view P w.cells k := by
  cases c with
  | reply r => rfl
  | set key value o =>
      rw [Command.named, List.mem_singleton] at hk
      cases hblocks : o.blocks w.clock (view P w.cells) key with
      | true => rw [(run_set_blocked P maxKeys hblocks value).2]
      | false =>
          rw [run_set_free P maxKeys hblocks,
            Store.view_run_set P maxKeys (w := ⟨fun n => w.clock (n + o.readings), w.cells⟩) key
              hroom, Function.update_of_ne hk]
  | get key =>
      rw [Command.named, List.mem_singleton] at hk
      rw [Command.prog, Prog.run_map]
      exact view_run_get_other hk
  | del ks =>
      simp only [Command.prog, Prog.run_map]
      rw [view_run_countOf_del]
      exact if_neg hk
  | exist ks => simp only [Command.prog, Prog.run_map, run_countOf_exists]
  | expire key ttlMs =>
      rw [Command.named, List.mem_singleton] at hk
      simp only [Command.prog, Prog.run_map]
      rw [Store.view_run_expire, Function.update_of_ne hk]
  | ttl key | pttl key => simp only [Command.prog, Prog.run_map, Store.run_ttl]
  | incr key =>
      rw [Command.named, List.mem_singleton] at hk
      simp only [Command.prog, Prog.run_map]
      rw [Store.view_run_incr]
      split
      · rfl
      · rw [Function.update_of_ne hk]
  | incrby key delta =>
      rw [Command.named, List.mem_singleton] at hk
      by_cases hec : (currentOf ((Store.get P key).run w).1).ec = none
      · have hroom' := (Store.total_run_get_le hs key).trans_lt hroom
        rw [run_incrby_added P maxKeys hec]
        simp only
        rw [Store.view_run_set P maxKeys key hroom', Function.update_of_ne hk,
          view_run_get_other hk]
      · rw [run_incrby_refused P maxKeys hec]
        exact view_run_get_other hk
  | keys pattern => simp only [Command.prog, Prog.run_map, Store.run_keys]
  | dbsize => simp only [Command.prog, Prog.run_map, Store.run_size]
  | flushall => exact absurd rfl hc

end Command

/-! ## The dispatcher -/

/-- **Frame and failure atomicity.** For every request, below the key limit and
at one clock reading:

* an error reply means that the store is exactly as it was;
* a `SET` that answers with the null bulk, and every command that only looks,
  leaves what is live as it was, values and deadlines;
* any command but the two flushes leaves what is live under the keys it does
  not name. -/
theorem dispatch_frame (P : Platform) (maxKeys : Nat) (req : RespValue) (t : Int) (s : Shards)
    (hs : ∀ i, Valid P i (s i)) (hroom : Store.total s < maxKeys) :
    (IsError ((dispatch P maxKeys req).exec t s).1 → ((dispatch P maxKeys req).exec t s).2 = s) ∧
    ((nameOf req = some (ascii "set") ∧
          ((dispatch P maxKeys req).exec t s).1 = RespSerializer.nullBulk ∨
        ∃ name ∈ looking, nameOf req = some name) →
      live t (view P ((dispatch P maxKeys req).exec t s).2) = live t (view P s)) ∧
    ((∀ name ∈ flushing, nameOf req ≠ some name) → ∀ k, k ∉ (commandOf req).named →
      live t (view P ((dispatch P maxKeys req).exec t s).2) k = live t (view P s) k) := by
  rw [dispatch_eq]
  refine ⟨exec_error t s _, ?_, fun hname k hk => ?_⟩
  · rintro (⟨hname, hnull⟩ | hname)
    · rcases set_of_name hname with ⟨r, hc⟩ | ⟨key, value, o, hc⟩
      · rw [hc]
        rfl
      · rw [hc] at hnull ⊢
        rcases run_set_cases key value o ⟨fun _ => t, s⟩ with hok | hkept
        · rw [Prog.exec, hok] at hnull
          exact absurd hnull (by decide)
        · rw [Prog.exec_snd, hkept.2]
    · exact (tidied_looks (w := ⟨fun _ => t, s⟩) (looks_of_name hname)).live_eq le_rfl
  · have hview := view_run_other (w := ⟨fun _ => t, s⟩) hs hroom (not_flushall_of_name hname) hk
    rw [Prog.exec_snd, live, hview, live]

/-- `INCR` of a word fails, and the word is still there. -/
theorem dispatch_frame_incr :
    IsError ((dispatch .concrete 2 (requestOf ["INCR", "a"])).exec 0
        (play .concrete 2 [Turn.ofWords 0 ["SET", "a", "word"]])).1 ∧
      ((dispatch .concrete 2 (requestOf ["INCR", "a"])).exec 0
          (play .concrete 2 [Turn.ofWords 0 ["SET", "a", "word"]])).2 =
        play .concrete 2 [Turn.ofWords 0 ["SET", "a", "word"]] := by
  have herror : IsError ((dispatch .concrete 2 (requestOf ["INCR", "a"])).exec 0
      (play .concrete 2 [Turn.ofWords 0 ["SET", "a", "word"]])).1 := by decide +kernel
  exact ⟨herror, (dispatch_frame .concrete 2 _ 0 _ (play_valid .concrete 2 _)
    (by decide +kernel)).1 herror⟩

end RedisCache.Commands
