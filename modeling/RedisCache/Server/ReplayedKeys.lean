import Mathlib
import RedisCache.Server.Durability

/-!
# Commands on one key, replayed

With both kinds of persistence the server loads the last snapshot and then
replays the WHOLE log over it, so the commands before the snapshot are applied
twice. At one clock reading the store is a dictionary and each command acts on
each key by itself (`Command.on`), so the question what that does is asked key
by key, of the commands in the log.

A key that some command sets or removes, whatever it held, is safe: from there
on both passes agree (`Replay.replay_resets`). To any other key a log does very
little. It may bring the key into being, with an `INCR`, an `INCRBY` or a `SET
NX`; from then on it can only count. So the key holds what it started from with
some numbers added, and a second pass adds those before the snapshot again
(`addAll_twice_iff`). A `SET XX` that was refused because the key was not yet
there is the one command that does something new the second time.
-/

namespace RedisCache.Server

open Protocol Storage Commands

/-! ## What a command is to a key -/

/-- What the command adds to the number under `k`. -/
def addsTo (k : Bytes) : Command → Option Int
  | .incr key => if key = k then some 1 else none
  | .incrby key delta => if key = k then some delta else none
  | _ => none

/-- A `SET XX`, which waits for the key to be there. -/
def Waits (k : Bytes) : Command → Prop
  | .set key _ o => key = k ∧ o.nx = false ∧ o.xx = true
  | _ => False

/-- The command, finding `x`, sets or removes `k` without using it: a `SET` that
is not `NX` (and, if it is `XX`, finds the key), a `DEL`, a flush, or an
`EXPIRE` with a deadline that has come. -/
def Fixes (now : Int) (k : Bytes) (x : Option Bytes) : Command → Prop
  | .set key _ o => key = k ∧ o.nx = false ∧ (o.xx = true → x.isSome = true)
  | .del ks => k ∈ ks
  | .expire key ttlMs => key = k ∧ lasts now (i64 (now + ttlMs)) = false
  | .flushall => True
  | _ => False

section OneKey

variable (now : Int) (k : Bytes)

theorem isSome_added (delta : Int) (x : Option Bytes) : (added delta x).isSome = true :=
  Option.isSome_iff_ne_none.mpr (added_ne_none delta x)

/-- What a command can be to a key. -/
inductive Shape (c : Command) : Prop
  | sets (value : Bytes) (o : SetOptions) (h : c = .set k value o)
  | adds (delta : Int) (addsTo : addsTo k c = some delta) (fixes : ∀ x, ¬ Fixes now k x c)
      (on : ∀ x, c.on now k x = added delta x)
  | removes (fixes : ∀ x, Fixes now k x c) (on : ∀ x, c.on now k x = none)
  | leaves (addsTo : addsTo k c = none) (fixes : ∀ x, ¬ Fixes now k x c)
      (on : ∀ x, c.on now k x = x)

theorem shape (c : Command) : Shape now k c := by
  cases c with
  | set key value o =>
      by_cases hk : key = k
      · subst hk
        exact .sets value o rfl
      · exact .leaves rfl (fun x h => hk h.1) fun x => if_neg fun h => hk h.1
  | incr key =>
      by_cases hk : key = k
      · exact .adds 1 (if_pos hk) (fun _ => id) fun _ => if_pos hk
      · exact .leaves (if_neg hk) (fun _ => id) fun _ => if_neg hk
  | incrby key delta =>
      by_cases hk : key = k
      · exact .adds delta (if_pos hk) (fun _ => id) fun _ => if_pos hk
      · exact .leaves (if_neg hk) (fun _ => id) fun _ => if_neg hk
  | del ks =>
      by_cases hk : k ∈ ks
      · exact .removes (fun _ => hk) fun _ => if_pos hk
      · exact .leaves rfl (fun _ => hk) fun _ => if_neg hk
  | expire key ttlMs =>
      by_cases hdue : key = k ∧ lasts now (i64 (now + ttlMs)) = false
      · exact .removes (fun _ => hdue) fun _ => if_pos hdue
      · exact .leaves rfl (fun _ => hdue) fun _ => if_neg hdue
  | flushall => exact .removes (fun _ => trivial) fun _ => rfl
  | reply | get | exist | ttl | pttl | keys | dbsize =>
      exact .leaves rfl (fun _ => id) fun _ => rfl

/-- A `SET` leaves a fuller cell fuller: over a value it writes or leaves the
value, unless what it stores is past its deadline. -/
theorem set_keeps (value : Bytes) (o : SetOptions) :
    Replay.Keeps fun x => (Command.set k value o).on now k x := by
  intro x y hxy
  cases y with
  | none =>
      obtain rfl : x = none := Option.isNone_iff_eq_none.mp (by simpa [Replay.Fuller] using hxy)
      exact id
  | some v =>
      cases hnx : o.nx with
      | true => simp [Replay.Fuller, Command.on, SetOptions.refuses, hnx]
      | false =>
          cases x with
          | none =>
              cases hxx : o.xx <;> simp [Replay.Fuller, Command.on, SetOptions.refuses, hnx, hxx]
          | some u => simp [Replay.Fuller, Command.on, SetOptions.refuses, hnx]

/-- Every command keeps the order of fuller cells. -/
theorem on_keeps (c : Command) : Replay.Keeps fun x => c.on now k x := by
  cases shape now k c with
  | sets value o h =>
      subst h
      exact set_keeps now k value o
  | adds delta _ _ on =>
      simp only [on]
      exact fun x y _ _ => isSome_added delta y
  | removes _ on =>
      simp only [on]
      exact fun _ _ _ => Replay.Fuller.of_none _
  | leaves _ _ on =>
      simp only [on]
      exact fun _ _ hxy => hxy

theorem resets_of_fixes {c : Command} {x : Option Bytes} (h : Fixes now k x c) :
    Replay.Resets (fun y => c.on now k y) x := by
  intro y hxy
  cases shape now k c with
  | sets value o hc =>
      subst hc
      obtain ⟨-, hnx, hxx⟩ := h
      have hgoes : ∀ z : Option Bytes, (o.xx = true → z.isSome = true) → o.refuses z = false := by
        intro z hz
        cases hflag : o.xx with
        | true => simp [SetOptions.refuses, hnx, hz hflag]
        | false => simp [SetOptions.refuses, hnx, hflag]
      simp only [Command.on, hgoes x hxx, hgoes y fun hflag => hxy (hxx hflag), and_self, if_true]
  | adds _ _ fixes _ => exact absurd h (fixes x)
  | removes _ on => exact (on y).trans (on x).symm
  | leaves _ fixes _ => exact absurd h (fixes x)

variable {now k}

/-- Only whether the key is there matters. -/
theorem Fixes.congr {c : Command} {x y : Option Bytes} (h : Fixes now k x c)
    (hxy : x.isSome = y.isSome) : Fixes now k y c := by
  cases shape now k c with
  | sets value o hc =>
      subst hc
      exact ⟨h.1, h.2.1, fun hxx => hxy.symm.trans (h.2.2 hxx)⟩
  | adds _ _ fixes _ => exact absurd h (fixes x)
  | removes fixes _ => exact fixes y
  | leaves _ fixes _ => exact absurd h (fixes x)

/-- What fixes a key that is there, and not one that is absent, is a `SET XX`. -/
theorem Fixes.waits {c : Command} {x : Option Bytes} (h : Fixes now k x c)
    (hnone : ¬ Fixes now k none c) : Waits k c := by
  cases shape now k c with
  | sets value o hc =>
      subst hc
      obtain ⟨-, hnx, -⟩ := h
      cases hxx : o.xx with
      | true => exact ⟨rfl, hnx, hxx⟩
      | false => exact absurd ⟨rfl, hnx, by simp [hxx]⟩ hnone
  | adds _ _ fixes _ => exact absurd h (fixes x)
  | removes fixes _ => exact absurd (fixes none) hnone
  | leaves _ fixes _ => exact absurd h (fixes x)

/-! ## Counting -/

/-- Numbers added to a value one after the other. -/
def addAll (ds : List Int) (x : Option Bytes) : Option Bytes := ds.foldl (fun x d => added d x) x

theorem addAll_cons (d : Int) (ds : List Int) (x : Option Bytes) :
    addAll (d :: ds) x = addAll ds (added d x) := rfl

theorem addAll_append (ds es : List Int) (x : Option Bytes) :
    addAll (ds ++ es) x = addAll es (addAll ds x) := List.foldl_append

theorem isSome_addAll (ds : List Int) {x : Option Bytes} (hx : x.isSome = true) :
    (addAll ds x).isSome = true := by
  induction ds generalizing x with
  | nil => exact hx
  | cons d ds ih =>
      rw [addAll_cons]
      exact ih (isSome_added d x)

theorem currentOf_ofInt {n : Int} (hn : Decimal.InRange n) :
    currentOf (some (Decimal.ofInt n)) = ⟨n, [], none⟩ := Decimal.fromChars_ofInt_alone 0 hn

theorem addAll_of_not_number {x : Option Bytes} (h : (currentOf x).ec ≠ none) (ds : List Int) :
    addAll ds x = x := by
  induction ds with
  | nil => rfl
  | cons d ds ih =>
      have hadded : added d x = x := if_pos h
      rw [addAll_cons, hadded, ih]

theorem addAll_number {x : Option Bytes} (h : (currentOf x).ec = none) {ds : List Int}
    (hds : ds ≠ []) :
    addAll ds x = some (Decimal.ofInt (i64 ((currentOf x).value + ds.sum))) := by
  induction ds generalizing x with
  | nil => exact absurd rfl hds
  | cons d ds ih =>
      have hadded : added d x = some (Decimal.ofInt (i64 ((currentOf x).value + d))) :=
        if_neg (not_not.mpr h)
      have hcurrent := currentOf_ofInt (i64_inRange ((currentOf x).value + d))
      rw [addAll_cons, hadded, List.sum_cons]
      cases ds with
      | nil => simp [addAll]
      | cons e es =>
          rw [ih (by rw [hcurrent]) (by simp), hcurrent, i64_add_left, add_assoc]

theorem ofInt_i64_inj {a b : Int} :
    Decimal.ofInt (i64 a) = Decimal.ofInt (i64 b) ↔ i64 a = i64 b :=
  ⟨Decimal.ofInt_inj (i64_inRange a) (i64_inRange b), fun h => by rw [h]⟩

/-- **Counting twice** shows, whatever is added later, unless the value is no
number or the numbers add up to `0` in `int64_t`. -/
theorem addAll_twice_iff (ds es : List Int) (x : Option Bytes) :
    addAll es (addAll ds (addAll ds x)) = addAll es (addAll ds x) ↔
      (currentOf (addAll ds x)).ec ≠ none ∨ i64 ds.sum = 0 := by
  by_cases hx : (currentOf x).ec = none
  · by_cases hds : ds = []
    · subst hds
      simpa [addAll] using Or.inr (by decide : i64 0 = 0)
    · have honce : (currentOf (addAll ds x)).ec = none := by
        rw [addAll_number hx hds, currentOf_ofInt (i64_inRange _)]
      rw [← addAll_append, ← addAll_append, ← addAll_append, addAll_number hx (by simp [hds]),
        addAll_number hx (by simp [hds]), Option.some_inj, ofInt_i64_inj, honce]
      simp only [List.sum_append, ne_eq, not_true_eq_false, false_or]
      unfold i64
      omega
  · simp only [addAll_of_not_number hx, ne_eq, hx, not_false_eq_true, true_or]

/-! ## Keys that no command fixes -/

/-- No command of `cs`, from `x` on, fixes the key. -/
def Loose (now : Int) (k : Bytes) (x : Option Bytes) (cs : List RespValue) : Prop :=
  ∀ as c bs, cs = as ++ c :: bs →
    ¬ Fixes now k (Replay.apply (updates now as k) x) (commandOf c)

/-- The numbers that the commands add to `k`. -/
def addedTo (k : Bytes) (cs : List RespValue) : List Int :=
  cs.filterMap fun c => addsTo k (commandOf c)

theorem addedTo_cons (c : RespValue) (cs : List RespValue) :
    addedTo k (c :: cs) = (addsTo k (commandOf c)).toList ++ addedTo k cs := by
  cases hadds : addsTo k (commandOf c) with
  | none => simp [addedTo, hadds]
  | some d => simp [addedTo, hadds]

theorem apply_updates_cons (c : RespValue) (cs : List RespValue) (x : Option Bytes) :
    Replay.apply (updates now (c :: cs) k) x =
      Replay.apply (updates now cs k) ((commandOf c).on now k x) := rfl

theorem apply_updates_append (as bs : List RespValue) (x : Option Bytes) :
    Replay.apply (updates now (as ++ bs) k) x =
      Replay.apply (updates now bs k) (Replay.apply (updates now as k) x) := by
  rw [updates, List.map_append, Replay.apply_append]
  rfl

namespace Loose

variable {x : Option Bytes} {c : RespValue} {cs as bs : List RespValue}

theorem of_not (h : ¬ Loose now k x cs) :
    ∃ as c bs, cs = as ++ c :: bs ∧
      Fixes now k (Replay.apply (updates now as k) x) (commandOf c) := by
  unfold Loose at h
  push Not at h
  exact h

theorem head (h : Loose now k x (c :: cs)) : ¬ Fixes now k x (commandOf c) := h [] c cs rfl

theorem tail (h : Loose now k x (c :: cs)) : Loose now k ((commandOf c).on now k x) cs :=
  fun as c' bs hsplit => h (c :: as) c' bs (by rw [hsplit]; rfl)

theorem left (h : Loose now k x (as ++ bs)) : Loose now k x as := fun as' c bs' hsplit =>
  h as' c (bs' ++ bs) (by rw [hsplit, List.append_assoc]; rfl)

theorem right (h : Loose now k x (as ++ bs)) :
    Loose now k (Replay.apply (updates now as k) x) bs := by
  intro as' c bs' hsplit
  rw [← apply_updates_append]
  exact h (as ++ as') c bs' (by rw [hsplit, List.append_assoc])

/-- A command that does not fix a key that is there can only add to it. -/
theorem on_some {c : Command} {v : Bytes} (h : ¬ Fixes now k (some v) c) :
    c.on now k (some v) = addAll (addsTo k c).toList (some v) := by
  cases shape now k c with
  | sets value o hc =>
      subst hc
      cases hnx : o.nx with
      | true => simp [Command.on, SetOptions.refuses, hnx, addsTo, addAll]
      | false => exact absurd ⟨rfl, hnx, fun _ => rfl⟩ h
  | adds delta hadds _ on =>
      rw [on, hadds]
      rfl
  | removes fixes _ => exact absurd (fixes _) h
  | leaves hadds _ on =>
      rw [on, hadds]
      rfl

/-- Commands that fix no key that is there, over one that is. -/
theorem apply_eq_addAll (h : ∀ c ∈ cs, ∀ v, ¬ Fixes now k (some v) (commandOf c))
    (hx : x.isSome = true) :
    Replay.apply (updates now cs k) x = addAll (addedTo k cs) x := by
  induction cs generalizing x with
  | nil => rfl
  | cons c cs ih =>
      obtain ⟨v, rfl⟩ := Option.isSome_iff_exists.mp hx
      have hon := on_some (h c (by simp) v)
      have hrest := ih (fun c' hc' => h c' (by simp [hc']))
        (isSome_addAll (addsTo k (commandOf c)).toList hx)
      rw [apply_updates_cons, addedTo_cons, addAll_append, hon, hrest]

/-- Once the key is there, it stays. -/
theorem not_fixes (h : Loose now k x cs) (hx : x.isSome = true) :
    ∀ c ∈ cs, ∀ v, ¬ Fixes now k (some v) (commandOf c) := by
  induction cs generalizing x with
  | nil => simp
  | cons c cs ih =>
      obtain ⟨v, rfl⟩ := Option.isSome_iff_exists.mp hx
      have hhead : ∀ u, ¬ Fixes now k (some u) (commandOf c) := fun u hu => h.head (hu.congr rfl)
      have htail := h.tail
      rw [on_some h.head] at htail
      exact List.forall_mem_cons.mpr ⟨hhead, ih htail (isSome_addAll _ rfl)⟩

/-- Without a `SET XX` the commands fix the key no more when it is there than
they did. -/
theorem not_fixes_of_not_waits (h : Loose now k x cs)
    (hwaits : ∀ c ∈ cs, ¬ Waits k (commandOf c)) :
    ∀ c ∈ cs, ∀ v, ¬ Fixes now k (some v) (commandOf c) := by
  intro c hc v hfixes
  obtain ⟨as, bs, rfl⟩ := List.append_of_mem hc
  have hthen := h as c bs rfl
  cases hx : Replay.apply (updates now as k) x with
  | none => exact hwaits c hc (hfixes.waits (by rwa [hx] at hthen))
  | some u => exact hthen (hfixes.congr (by rw [hx]; rfl))

/-- What an absent key comes to: what it started from, with all numbers added. -/
theorem started (h : Loose now k none cs) :
    ∃ x, Replay.apply (updates now cs k) none = addAll (addedTo k cs) x := by
  induction cs with
  | nil => exact ⟨none, rfl⟩
  | cons c cs ih =>
      have htail := h.tail
      rw [apply_updates_cons, addedTo_cons]
      cases hadds : addsTo k (commandOf c) with
      | some d =>
          have hon : (commandOf c).on now k none = added d none := by
            cases shape now k (commandOf c) with
            | sets value o hc =>
                rw [hc] at hadds
                cases hadds
            | adds delta hdelta _ on => rw [on, Option.some_inj.mp (hadds.symm.trans hdelta)]
            | removes fixes _ => exact absurd (fixes none) h.head
            | leaves hnone _ _ => cases hadds.symm.trans hnone
          rw [hon] at htail ⊢
          have hx := isSome_added d none
          exact ⟨none, apply_eq_addAll (htail.not_fixes hx) hx⟩
      | none =>
          cases hon : (commandOf c).on now k none with
          | none =>
              rw [hon] at htail
              exact ih htail
          | some v =>
              rw [hon] at htail
              exact ⟨some v, apply_eq_addAll (htail.not_fixes rfl) rfl⟩

end Loose

/-! ## The law -/

/-- When a key survives the replay of `cs` over a snapshot behind the first `n`
of them. `held` says what the key holds behind the first commands. -/
inductive Harmless (now : Int) (k : Bytes) (held : List RespValue → Option Bytes)
    (cs : List RespValue) (n : Nat) : Prop
  /-- Some command of the run sets or removes it. -/
  | fixed (as : List RespValue) (c : RespValue) (bs : List RespValue) (split : cs = as ++ c :: bs)
      (fixes : Fixes now k (held as) (commandOf c))
  /-- It is not in the snapshot. -/
  | absent (gone : held (cs.take n) = none)
  /-- Before the snapshot no `SET XX` names it, and it is no number or nothing
  was added to it on balance. -/
  | level (waits : ∀ c ∈ cs.take n, ¬ Waits k (commandOf c))
      (sum : (currentOf (held (cs.take n))).ec ≠ none ∨ i64 (addedTo k (cs.take n)).sum = 0)

theorem Harmless.congr {held held' : List RespValue → Option Bytes} {cs : List RespValue} {n : Nat}
    (h : Harmless now k held cs n) (heq : ∀ as, as <+: cs → held as = held' as) :
    Harmless now k held' cs n := by
  have htake := heq (cs.take n) (List.take_prefix n cs)
  cases h with
  | fixed as c bs split fixes =>
      rw [heq as ⟨c :: bs, split.symm⟩] at fixes
      exact .fixed as c bs split fixes
  | absent gone => exact .absent (htake ▸ gone)
  | level waits sum => exact .level waits (htake ▸ sum)

/-- The key behind the first commands, from nothing. -/
def heldAfter (now : Int) (k : Bytes) (as : List RespValue) : Option Bytes :=
  Replay.apply (updates now as k) none

variable {cs : List RespValue} {n : Nat}

/-- A key that no command fixes and that is in the snapshot. -/
theorem replay_loose_iff (h : Loose now k none cs)
    (hthere : (heldAfter now k (cs.take n)).isSome = true)
    (hwaits : ∀ c ∈ cs.take n, ¬ Waits k (commandOf c)) :
    Replay.apply (updates now cs k) (heldAfter now k (cs.take n)) = heldAfter now k cs ↔
      (currentOf (heldAfter now k (cs.take n))).ec ≠ none ∨
        i64 (addedTo k (cs.take n)).sum = 0 := by
  rw [← List.take_append_drop n cs] at h
  obtain ⟨x, hx⟩ : ∃ x, heldAfter now k (cs.take n) = addAll (addedTo k (cs.take n)) x :=
    h.left.started
  have hfirst : ∀ y : Option Bytes, y.isSome = true →
      Replay.apply (updates now (cs.take n) k) y = addAll (addedTo k (cs.take n)) y := fun y hy =>
    Loose.apply_eq_addAll (h.left.not_fixes_of_not_waits hwaits) hy
  have hrest : ∀ y : Option Bytes, y.isSome = true →
      Replay.apply (updates now (cs.drop n) k) y = addAll (addedTo k (cs.drop n)) y := fun y hy =>
    Loose.apply_eq_addAll (h.right.not_fixes hthere) hy
  have hsplit : ∀ y, Replay.apply (updates now cs k) y =
      Replay.apply (updates now (cs.drop n) k) (Replay.apply (updates now (cs.take n) k) y) := by
    intro y
    rw [← apply_updates_append, List.take_append_drop]
  have hwhole : heldAfter now k cs =
      Replay.apply (updates now (cs.drop n) k) (heldAfter now k (cs.take n)) := hsplit none
  have htwice := addAll_twice_iff (addedTo k (cs.take n)) (addedTo k (cs.drop n)) x
  rw [← hx] at htwice
  rw [hwhole, hsplit, hfirst _ hthere, hrest _ (isSome_addAll _ hthere), hrest _ hthere]
  exact htwice

/-- **The replay law for commands.** -/
theorem replay_of_harmless (h : Harmless now k (heldAfter now k) cs n) :
    Replay.apply (updates now cs k) (heldAfter now k (cs.take n)) = heldAfter now k cs := by
  by_cases hloose : Loose now k none cs
  · cases h with
    | fixed as c bs split fixes => exact absurd fixes (hloose as c bs split)
    | absent gone => rw [gone, heldAfter]
    | level waits sum =>
        cases hy : heldAfter now k (cs.take n) with
        | none => rfl
        | some v =>
            rw [← hy]
            exact (replay_loose_iff hloose (by rw [hy]; rfl) waits).mpr sum
  · obtain ⟨as, c, bs, rfl, hc⟩ := Loose.of_not hloose
    have hkeeps : ∀ f ∈ updates now (as ++ c :: bs) k, Replay.Keeps f := by
      intro f hf
      obtain ⟨c, -, rfl⟩ := List.mem_map.mp hf
      exact on_keeps now k (commandOf c)
    have hupdates : updates now (as ++ c :: bs) k =
        updates now as k ++ (fun y => (commandOf c).on now k y) :: updates now bs k := by
      simp [updates]
    have htake : updates now ((as ++ c :: bs).take n) k =
        (updates now (as ++ c :: bs) k).take n := List.map_take
    rw [heldAfter, heldAfter, htake, hupdates]
    rw [hupdates] at hkeeps
    exact Replay.replay_resets hkeeps (resets_of_fixes now k hc) n

/-- And there is no other way, unless a `SET XX` of the key was refused. -/
theorem harmless_of_replay (hwaits : ∀ c ∈ cs.take n, ¬ Waits k (commandOf c))
    (h : Replay.apply (updates now cs k) (heldAfter now k (cs.take n)) = heldAfter now k cs) :
    Harmless now k (heldAfter now k) cs n := by
  by_cases hloose : Loose now k none cs
  · cases hy : heldAfter now k (cs.take n) with
    | none => exact .absent hy
    | some v => exact .level hwaits ((replay_loose_iff hloose (by rw [hy]; rfl) hwaits).mp h)
  · obtain ⟨as, c, bs, hsplit, hc⟩ := Loose.of_not hloose
    exact .fixed as c bs hsplit hc

end OneKey

end RedisCache.Server
