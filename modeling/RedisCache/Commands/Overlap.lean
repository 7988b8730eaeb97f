import Mathlib
import RedisCache.Commands.Cache
import RedisCache.Lib.Clocks
import RedisCache.Lib.Interference

/-!
# Commands next to a sweeping thread

A command is a program of several sections, and the maintenance thread may
sweep a shard between any two of them. All that its sections do to the store
is to drop entries that are dead by then (`sweeper`). Under that interference
every command still is one step of the abstract cache, with clock readings
from the time it took (`Backs.command`).

`KEYS` is the exception: it reads the clock once and then walks the shards, and
a key that runs out meanwhile is listed or not, as its shard was swept or not
(`Command.Might`).
-/

namespace RedisCache.Commands

open Sections Protocol Storage TimedMap

theorem Twin.trans {P : Platform} {now : Int} {s s' s'' : Shards} (h : Twin P now s s')
    (h' : Twin P now s' s'') : Twin P now s s'' :=
  ⟨h.valid, h'.valid', h.tidied.trans h'.tidied⟩

/-- The other thread drops dead entries, from a store that is in order. -/
def sweeper (P : Platform) : Setting Index Shard where
  reading := Decimal.InRange
  others t s s' := (∀ i, Valid P i (s i)) → Twin P t s s'
  refl t _ := fun hs => Twin.refl t hs
  trans h h' := fun hs => (h hs).trans (h' (h hs).valid')
  later hle h := fun hs => (h hs).later hle

theorem ClockFrom.shows {P : Platform} {t : Int} {clk : Nat → Int} (h : ClockFrom t clk) :
    (sweeper P).Shows t clk :=
  ⟨h.start 0, h.mono, h.ranged⟩

/-- The store stands for the cache `m` and holds no more than `n` entries. -/
structure Backs (P : Platform) (m : Cache) (n : Nat) (t : Int) (s : Shards) : Prop where
  mirrors : Mirrors P t s m
  room : Store.total s ≤ n

section Store

variable {P : Platform} {maxKeys n : Nat} {t : Int} {s : Shards} {m : Cache}

theorem valid_update {i : Index} {sh : Shard} (hs : ∀ i, Valid P i (s i)) (h : Valid P i sh) :
    ∀ j, Valid P j (Function.update s i sh j) :=
  (Function.forall_update_iff s fun j sh => Valid P j sh).mpr ⟨h, fun j _ => hs j⟩

theorem Backs.later {t' : Int} (h : Backs P m n t s) (hle : t ≤ t') : Backs P m n t' s :=
  ⟨h.mirrors.later hle, h.room⟩

theorem Backs.swept {t' : Int} {s' : Shards} (h : Backs P m n t s) (hle : t ≤ t')
    (hs : (sweeper P).others t' s s') : Backs P m n t' s' := by
  have htwin := hs h.mirrors.valid
  exact ⟨(h.mirrors.later hle).dropped htwin.valid' htwin.tidied, htwin.total_le.trans h.room⟩

theorem mirrors_stable (P : Platform) (m : Cache) :
    Stable (sweeper P) fun t s => Mirrors P t s m := by
  intro t t' s s' hle hs h
  exact (Backs.swept ⟨h, le_rfl⟩ hle hs).mirrors

/-- What is still in the store at `t` of what was there before. -/
theorem twin_stable (P : Platform) (s₀ : Shards) :
    Stable (sweeper P) fun t s => Twin P t s₀ s := by
  intro t t' s s' hle hs h
  exact (h.later hle).trans (hs h.valid')

/-- One section, alone on what the sweeps have left. -/
theorem Backs.locked {α : Type} {Q : Int → α → Shards → Prop} {i : Index}
    {body : (Nat → Int) → Shard → α × Shard} (h : Backs P m n t s)
    (hrun : ∀ u s', (sweeper P).Shows t u → Backs P m n (u 0) s' →
      Q (u 1) ((Prog.locked i body).run ⟨u, s'⟩).1 ((Prog.locked i body).run ⟨u, s'⟩).2.cells) :
    Among (sweeper P) Q t (Prog.locked i body) s :=
  Among.locked fun u s' hu hs => hrun u s' hu (h.swept hu.start hs)

/-- A read of one key is one of the time it took. -/
theorem Backs.existsKey (h : Backs P m n t s) (key : Bytes) :
    Among (sweeper P) (fun t' b s' => ∃ r, t ≤ r ∧ r ≤ t' ∧ b = (live r m key).isSome ∧
      Backs P m n t' s') t (Store.existsKey P key) s := by
  refine h.locked fun u s' hu h' => ⟨u 0, hu.start, hu.zero_le_one, ?_, ?_⟩
  · rw [← Store.existsKey, Store.run_existsKey_view, h'.mirrors.live_key]
  · rw [← Store.existsKey, Store.run_existsKey_view]
    exact h'.later hu.zero_le_one

/-- The first section of `get`: an answer, or a dead entry. -/
theorem getShared_eq (h : Mirrors P t s m) (key : Bytes) :
    (s (Store.shardFor P key)).getShared key t = some ((live t m key).map Item.value) ∨
      (s (Store.shardFor P key)).getShared key t = none ∧ live t m key = none := by
  rw [← h.live_key, live_view, Shard.getShared]
  cases (s (Store.shardFor P key)).map.find key with
  | none => exact .inl rfl
  | some e =>
      by_cases hexp : e.isExpired t = true
      · exact .inr (by simp [hexp, Option.filter_some])
      · exact .inl (by simp [hexp, Option.filter_some, Entry.item])

/-- The second one, on whatever is there by then. -/
theorem Backs.getExclusive (h : Backs P m n t s) (key : Bytes) (hdead : live t m key = none) :
    ((s (Store.shardFor P key)).getExclusive key t).1 = none ∧
      Backs P m n t (Function.update s (Store.shardFor P key)
        ((s (Store.shardFor P key)).getExclusive key t).2) := by
  have hview := view_write P s key
    ((s (Store.shardFor P key)).getExclusive_find key t)
  rw [← live_view, h.mirrors.live_key, hdead] at hview
  have hvalid := valid_update h.mirrors.valid
    ((h.mirrors.valid (Store.shardFor P key)).getExclusive t)
  have htidied : Tidied t (view P s) (view P (Function.update s (Store.shardFor P key)
      ((s (Store.shardFor P key)).getExclusive key t).2)) := by
    rw [hview]
    exact .forget ((h.mirrors.live_key key).trans hdead)
  refine ⟨?_, h.mirrors.dropped hvalid htidied, ?_⟩
  · have hgone := hdead
    rw [← h.mirrors.live_key, live_view, Option.map_eq_none_iff] at hgone
    unfold Shard.getExclusive
    cases he : (s (Store.shardFor P key)).map.find key with
    | none => rfl
    | some e =>
        by_cases hexp : e.isExpired t = true
        · simp [hexp]
        · simp [he, hexp, Option.filter_some] at hgone
  · exact (Store.total_mono h.mirrors.valid hvalid fun k hk => htidied.subset hk).trans h.room

theorem Backs.get (h : Backs P m n t s) (key : Bytes) :
    Among (sweeper P) (fun t' v s' => ∃ r, t ≤ r ∧ r ≤ t' ∧ v = (live r m key).map Item.value ∧
      Backs P m n t' s') t (Store.get P key) s := by
  refine Among.bind (h.locked fun u s' hu h' => ?_)
  rw [Prog.run_locked_read _ fun u (sh : Shard) => sh.getShared key (u 0)]
  rcases getShared_eq h'.mirrors key with hsome | ⟨hnone, hdead⟩
  · simp only [hsome]
    exact Among.pure ⟨u 0, hu.start, hu.zero_le_one, rfl, h'.later hu.zero_le_one⟩
  · -- dead when it was first looked at, so dead, or gone, the second time
    simp only [hnone]
    refine (h'.later hu.zero_le_one).locked fun u' s'' hu' h'' => ?_
    have hle : u 0 ≤ u' 0 := hu.zero_le_one.trans hu'.start
    obtain ⟨hfst, hsnd⟩ := h''.getExclusive key (live_none_of_le hle hdead)
    rw [Prog.run_locked]
    refine ⟨u 0, hu.start, hle.trans hu'.zero_le_one, ?_, hsnd.later hu'.zero_le_one⟩
    rw [hdead]
    exact hfst

/-! ## Scans -/

/-- A walk over the shards sees each at a time of its own. Put together, that is
the store at its start without some entries that are dead at its end. -/
theorem Backs.walk {α : Type} (h : Backs P m n t s) (body : Shard → α) :
    Among (sweeper P) (fun t' as s' => Backs P m n t' s' ∧
        ∃ seen : Shards, as = Store.shards.map (fun i => body (seen i)) ∧ Twin P t' s seen)
      t (Prog.eachCell (fun sh => (body sh, sh)) Store.shards) s := by
  refine Among.weaken (Among.eachCell_read (twin_stable P s) body Store.shards_nodup
    (Twin.refl t h.mirrors.valid)) fun t' as s' hle _ hscan => ?_
  obtain ⟨hend, seen, has, hseen⟩ := hscan
  refine ⟨h.swept hle fun _ => hend, seen, has, h.mirrors.valid, fun i => ?_, fun k => ?_⟩
  · obtain ⟨r, s₀, -, -, htwin, hat⟩ := hseen i (Store.mem_shards i)
    rw [hat]
    exact htwin.valid' i
  · obtain ⟨r, s₀, -, hr, htwin, hat⟩ := hseen _ (Store.mem_shards (Store.shardFor P k))
    have hview : view P seen k = view P s₀ k := by rw [view, hat, view]
    rw [hview]
    exact htwin.tidied.later hr k

/-- A scan of the sizes counts no more than there was at its start. -/
theorem Backs.sizes (h : Backs P m n t s) :
    Among (sweeper P) (fun t' ns s' => ns.sum ≤ n ∧ Backs P m n t' s') t Store.sizes s := by
  refine (h.walk Shard.size).weaken fun t' ns s' _ _ hwalk => ?_
  obtain ⟨hend, seen, rfl, htwin⟩ := hwalk
  exact ⟨htwin.total_le.trans h.room, hend⟩

/-! ## Writing -/

/-- A section that writes one key of its shard. -/
theorem Mirrors.written (h : Mirrors P t s m) {key : Bytes} {sh : Shard} {value : Bytes}
    {d : Int} {nd : Option Node} (hvalid : Valid P (Store.shardFor P key) sh)
    (hfind : ∀ k, sh.map.find k =
      if k = key then some ⟨value, d, nd⟩ else (s (Store.shardFor P key)).map.find k) :
    Mirrors P t (Function.update s (Store.shardFor P key) sh)
      (Function.update m key (some (Entry.item ⟨value, d, none⟩))) :=
  h.write (valid_update h.valid hvalid) (view_write P s key hfind)

/-- Eviction takes one key of the shard, if there is one. -/
theorem forgets_evict (hs : ∀ i, Valid P i (s i)) (i : Index) {full : Prop} (hfull : full) :
    Forgets full (view P s) (view P (Function.update s i (s i).evict)) := by
  by_cases hpos : 0 < (s i).size
  · obtain ⟨k, -, -, -, hview⟩ := Store.evict_back hs hpos
    exact .inr ⟨hfull, k, hview⟩
  · refine .inl (funext fun k => ?_)
    by_cases hk : Store.shardFor P k = i
    · -- there is nothing to evict
      subst hk
      have hnone : (s (Store.shardFor P k)).map.find k = none := by
        by_contra hin
        obtain ⟨e, he⟩ := Option.ne_none_iff_exists'.mp hin
        exact hpos (List.length_pos_of_mem (Map.mem_entries_iff.mpr he))
      have hstill : (s (Store.shardFor P k)).evict.map.find k = none := by
        rcases (s (Store.shardFor P k)).evict_find k with h | h
        · exact h
        · rw [h, hnone]
      simp only [view, Function.update_self, hnone, hstill]
    · simp only [view, Function.update_of_ne hk]

theorem Backs.maybeEvict (maxKeys : Nat) (h : Backs P m n t s) :
    Among (sweeper P) (fun t' _ s' => ∃ m₀, Forgets (maxKeys ≤ n) m m₀ ∧ Mirrors P t' s' m₀)
      t (Store.maybeEvict maxKeys) s := by
  refine Among.bind (Among.bind (h.sizes.weaken fun t₁ ns s₁ _ _ hsizes => ?_))
  obtain ⟨hsum, h₁⟩ := hsizes
  refine Among.pure ?_
  split
  · exact Among.pure ⟨m, .inl rfl, h₁.mirrors⟩
  · rename_i hfull
    refine Among.bind (h₁.sizes.weaken fun t₂ ns' s₂ _ _ hsizes => ?_)
    refine hsizes.2.locked fun u s₃ hu h₃ => ?_
    -- the scan is over, and this shard need no longer be the fullest
    obtain ⟨m₀, hforgets, h₀⟩ := h₃.mirrors.forgets
      (valid_update h₃.mirrors.valid (h₃.mirrors.valid (Store.fullest ns')).evict)
      (forgets_evict h₃.mirrors.valid (Store.fullest ns') (le_trans (not_lt.mp hfull) hsum))
    exact ⟨m₀, hforgets, h₀.later hu.zero_le_one⟩

/-- The clock is read for a positive TTL only. -/
theorem amid_expiresAt {Q : Int → Int → Shards → Prop} {ttlMs : Int}
    (hQ : ∀ t' s' r, t ≤ r → r ≤ t' → (sweeper P).others t' s s' →
      Q t' (Store.deadlineOf r ttlMs) s') :
    Among (sweeper P) Q t (Store.expiresAt ttlMs) s := by
  unfold Store.expiresAt
  split
  · rename_i hpos
    refine Among.bind (Among.now fun u s' hu hs => Among.pure ?_)
    have h := hQ (u 1) s' (u 0) hu.start hu.zero_le_one ((sweeper P).later hu.zero_le_one hs)
    rwa [Store.deadlineOf, if_pos hpos] at h
  · rename_i hneg
    have h := hQ t s t le_rfl le_rfl ((sweeper P).refl t s)
    rw [Store.deadlineOf, if_neg hneg] at h
    exact Among.pure h

theorem Backs.set (maxKeys : Nat) (h : Backs P m n t s) (key value : Bytes) (ttlMs : Int) :
    Among (sweeper P) (fun t' _ s' => ∃ m₀ r, Forgets (maxKeys ≤ n) m m₀ ∧ t ≤ r ∧ r ≤ t' ∧
        Mirrors P t' s' (Function.update m₀ key
          (some (Entry.item ⟨value, Store.deadlineOf r ttlMs, none⟩))))
      t (Store.set P maxKeys key value ttlMs) s := by
  refine Among.bind ((h.maybeEvict maxKeys).weaken fun t₁ _ s₁ hle _ hevict => ?_)
  obtain ⟨m₀, hforgets, h₁⟩ := hevict
  refine Among.bind (amid_expiresAt fun t₂ s₂ r hr hr' hs => ?_)
  have h₂ : Backs P m₀ _ t₂ s₂ := Backs.swept ⟨h₁, le_rfl⟩ (hr.trans hr') hs
  refine h₂.locked fun u s₃ hu h₃ => ?_
  obtain ⟨nd, hfind⟩ := (s₃ (Store.shardFor P key)).setLocked_find key value
    (Store.deadlineOf r ttlMs)
  have hrange : Decimal.InRange (Store.deadlineOf r ttlMs) := by
    unfold Store.deadlineOf
    split
    · exact i64_inRange _
    · decide
  have hend := h₃.mirrors.written
    ((h₃.mirrors.valid (Store.shardFor P key)).setLocked value hrange) hfind
  exact ⟨m₀, r, hforgets, hle.trans hr, hr'.trans hu.le_one, hend.later hu.zero_le_one⟩

end Store

/-! ## Commands -/

/-- What a command may do next to a sweeping thread. `KEYS` lists only what was
live when it began, and all that is live to its end. -/
def Command.Might (P : Platform) (full : Prop) (rd : Nat → Int) (m : Cache) (r : Bytes)
    (m' : Cache) : Command → Prop
  | .keys pattern =>
      ∃ i j ks, i ≤ j ∧ r = RespSerializer.array ks ∧ ks.Nodup ∧
        (∀ k ∈ ks, (live (rd i) m k).isSome ∧
          (pattern = ascii "*" ∨ P.fnmatch (Shard.cStr pattern) (Shard.cStr k) = true)) ∧
        (∀ k, (live (rd j) m k).isSome →
          (pattern = ascii "*" ∨ P.fnmatch (Shard.cStr pattern) (Shard.cStr k) = true) →
            k ∈ ks) ∧ m' = m
  | c => c.May P full rd m r m'

/-- A turn next to a sweeping thread. -/
def Step.Might (P : Platform) (e : Step) (m m' : Cache) : Prop :=
  match e.turn.request with
  | none => m' = m
  | some req => (commandOf req).Might P (e.full = true) e.turn.clock m e.reply m'

/-- One reading, and another from then on. -/
def twice (r r' : Int) : Nat → Int
  | 0 => r
  | _ + 1 => r'

/-- Clock readings from `a` to `b`. -/
structure Between (a b : Int) (rd : Nat → Int) : Prop where
  mono : Monotone rd
  start : ∀ k, a ≤ rd k
  stop : ∀ k, rd k ≤ b

namespace Between

variable {a b r r' : Int}

theorem const (h : a ≤ r) (h' : r ≤ b) : Between a b fun _ => r :=
  ⟨monotone_const, fun _ => h, fun _ => h'⟩

theorem twice (h : a ≤ r) (hle : r ≤ r') (h' : r' ≤ b) : Between a b (twice r r') where
  mono := by
    intro i j hij
    cases i with
    | zero =>
        cases j with
        | zero => exact le_rfl
        | succ j => exact hle
    | succ i =>
        cases j with
        | zero => omega
        | succ j => exact le_rfl
  start k := by
    cases k with
    | zero => exact h
    | succ k => exact h.trans hle
  stop k := by
    cases k with
    | zero => exact hle.trans h'
    | succ k => exact h'

/-- As many readings as there are in a list. -/
theorem list {rs : List Int} (hab : a ≤ b) (hsorted : rs.Pairwise (· ≤ ·))
    (hrs : ∀ r ∈ rs, a ≤ r ∧ r ≤ b) : Between a b fun k => rs.getD k b where
  mono := by
    intro i j hij
    by_cases hj : j < rs.length
    · have hi : i < rs.length := lt_of_le_of_lt hij hj
      simp only [List.getD_eq_getElem _ _ hi, List.getD_eq_getElem _ _ hj]
      rcases hij.eq_or_lt with rfl | hlt
      · exact le_rfl
      · exact List.pairwise_iff_getElem.mp hsorted i j hi hj hlt
    · simp only [List.getD_eq_default _ _ (not_lt.mp hj)]
      by_cases hi : i < rs.length
      · rw [List.getD_eq_getElem _ _ hi]
        exact (hrs _ (List.getElem_mem hi)).2
      · rw [List.getD_eq_default _ _ (not_lt.mp hi)]
  start k := by
    by_cases hk : k < rs.length
    · rw [List.getD_eq_getElem _ _ hk]
      exact (hrs _ (List.getElem_mem hk)).1
    · rwa [List.getD_eq_default _ _ (not_lt.mp hk)]
  stop k := by
    by_cases hk : k < rs.length
    · rw [List.getD_eq_getElem _ _ hk]
      exact (hrs _ (List.getElem_mem hk)).2
    · rw [List.getD_eq_default _ _ (not_lt.mp hk)]

end Between

/-- From `t` on, a command has done what the abstract cache might do. -/
def Done (P : Platform) (full : Prop) (m : Cache) (c : Command) (t : Int) (t' : Int) (r : Bytes)
    (s' : Shards) : Prop :=
  ∃ rd m', Between t t' rd ∧ c.Might P full rd m r m' ∧ Mirrors P t' s' m'

section Commands

variable {P : Platform} {maxKeys n : Nat} {t : Int} {s : Shards} {m : Cache}

theorem done_stable (full : Prop) (c : Command) (r : Bytes) :
    Stable (sweeper P) fun t' s' => Done P full m c t t' r s' := by
  rintro t₁ t₂ s₁ s₂ hle hs ⟨rd, m', hrd, hmight, h⟩
  exact ⟨rd, m', ⟨hrd.mono, hrd.start, fun k => (hrd.stop k).trans hle⟩, hmight,
    mirrors_stable P m' t₁ t₂ s₁ s₂ hle hs h⟩

/-! ### SET -/

theorem Backs.existsIf (h : Backs P m n t s) (flag : Bool) (key : Bytes) (otherwise : Bool) :
    Among (sweeper P) (fun t' b s' => ∃ r, t ≤ r ∧ r ≤ t' ∧
        b = (if flag then (live r m key).isSome else otherwise) ∧ Backs P m n t' s')
      t (existsIf P flag key otherwise) s := by
  unfold Commands.existsIf
  cases flag with
  | true => exact h.existsKey key
  | false => exact Among.pure ⟨t, le_rfl, le_rfl, rfl, h⟩

/-- The tests of `NX` and `XX` as one look at the key. -/
theorem Backs.gated {α : Type} {Q : Int → α → Shards → Prop} (h : Backs P m n t s)
    {o : SetOptions} {key : Bytes} {refused : α} {p : StoreProg α}
    (hrefused : ∀ r t' s', t ≤ r → r ≤ t' → Backs P m n t' s' →
      o.refuses ((live r m key).map Item.value) = true → Q t' refused s')
    (hp : ∀ r t' s', t ≤ r → r ≤ t' → Backs P m n t' s' →
      o.refuses ((live r m key).map Item.value) = false → Among (sweeper P) Q t' p s') :
    Among (sweeper P) Q t (gated P o key refused p) s := by
  refine Among.bind ((h.existsIf o.nx key false).weaken fun t₁ taken s₁ _ _ hnx => ?_)
  obtain ⟨r₁, hr₁, hr₁', rfl, h₁⟩ := hnx
  by_cases htaken : (if o.nx then (live r₁ m key).isSome else false) = true
  · rw [if_pos htaken]
    refine Among.pure (hrefused r₁ t₁ s₁ hr₁ hr₁' h₁ ?_)
    cases hnx : o.nx with
    | true =>
        have hsome : (live r₁ m key).isSome = true := by simpa [hnx] using htaken
        simp [SetOptions.refuses, hnx, hsome]
    | false => simp [hnx] at htaken
  · rw [if_neg htaken]
    refine Among.bind ((h₁.existsIf o.xx key true).weaken fun t₂ present s₂ _ _ hxx => ?_)
    obtain ⟨r₂, hr₂, hr₂', rfl, h₂⟩ := hxx
    -- the second look decides: a key that `NX` has found dead is dead to `XX` too
    have hsame : o.refuses ((live r₂ m key).map Item.value) =
        !(if o.xx then (live r₂ m key).isSome else true) := by
      cases hnx : o.nx with
      | false => cases hxx : o.xx <;> simp [SetOptions.refuses, hnx, hxx]
      | true =>
          have hdead : live r₁ m key = none := by simpa [hnx] using htaken
          have hlater := live_none_of_le (hr₁'.trans hr₂) hdead
          cases hxx : o.xx <;> simp [SetOptions.refuses, hnx, hxx, hlater]
    have hr := (hr₁.trans hr₁').trans hr₂
    cases hpresent : (if o.xx then (live r₂ m key).isSome else true) with
    | false =>
        rw [if_pos (by rfl)]
        exact Among.pure (hrefused r₂ t₂ s₂ hr hr₂' h₂ (by rw [hsame, hpresent]; rfl))
    | true =>
        rw [if_neg (by decide)]
        exact hp r₂ t₂ s₂ hr hr₂' h₂ (by rw [hsame, hpresent]; rfl)

theorem Backs.set_command (maxKeys : Nat) (h : Backs P m n t s) (key value : Bytes)
    (o : SetOptions) :
    Among (sweeper P) (Done P (maxKeys ≤ n) m (.set key value o) t) t
      ((Command.set key value o).prog P maxKeys) s := by
  refine h.gated (fun r t' s' hr hr' h' hrefuses => ?_) fun r t' s' hr hr' h' hrefuses => ?_
  · refine ⟨fun _ => r, m, .const hr hr', ⟨0, 0, le_rfl, ?_⟩, h'.mirrors⟩
    rw [if_pos hrefuses]
    exact ⟨rfl, rfl⟩
  · refine Among.bind ((h'.set maxKeys key value o.ttlMs).weaken fun t₂ _ s₂ _ _ hset => ?_)
    obtain ⟨m₀, r', hforgets, hr₁, hr₂, h₂⟩ := hset
    refine Among.pure ⟨twice r r', _, .twice hr (hr'.trans hr₁) hr₂,
      ⟨0, 1, Nat.zero_le 1, ?_⟩, h₂⟩
    simp only [twice, hrefuses, Bool.false_eq_true, if_false, true_and]
    exact ⟨m₀, hforgets, rfl⟩

/-! ### INCRBY -/

theorem Backs.incrby_command (maxKeys : Nat) (h : Backs P m n t s) (key : Bytes) (delta : Int) :
    Among (sweeper P) (Done P (maxKeys ≤ n) m (.incrby key delta) t) t
      ((Command.incrby key delta).prog P maxKeys) s := by
  refine Among.bind ((h.get key).weaken fun t₁ curStr s₁ _ _ hget => ?_)
  obtain ⟨r, hr, hr', rfl, h₁⟩ := hget
  have hcounter := Mirrors.counterOf_eq_current r m key
  by_cases hec : (currentOf ((live r m key).map Item.value)).ec = none
  · have hsum : sumAt r m key delta =
        some (i64 ((currentOf ((live r m key).map Item.value)).value + delta)) := by
      rw [sumAt, hcounter, if_neg (not_not.mpr hec), Option.map_some]
    rw [if_neg (not_not.mpr hec)]
    refine Among.bind ((h₁.set maxKeys key _ (-1)).weaken fun t₂ _ s₂ _ _ hset => ?_)
    obtain ⟨m₀, r', hforgets, hr₁, hr₂, h₂⟩ := hset
    rw [Store.deadlineOf_of_nonpos (by decide)] at h₂
    refine Among.pure ⟨fun _ => r, _, .const hr (hr'.trans (hr₁.trans hr₂)), ⟨0, ?_, ?_⟩, h₂⟩
    · rw [hsum]
      rfl
    · rw [hsum]
      exact ⟨m₀, hforgets, rfl⟩
  · have hsum : sumAt r m key delta = none := by
      rw [sumAt, hcounter, if_pos hec, Option.map_none]
    rw [if_pos hec]
    refine Among.pure ⟨fun _ => r, m, .const hr hr', ⟨0, ?_, ?_⟩, h₁.mirrors⟩
    · rw [hsum]
      rfl
    · rw [hsum]

/-! ### Commands over several keys -/

theorem Backs.countOf_exists (h : Backs P m n t s) (ks : List Bytes) (acc : Nat) :
    Among (sweeper P) (fun t' c s' => ∃ rs : List Int, rs.length = ks.length ∧
        rs.Pairwise (· ≤ ·) ∧ (∀ r ∈ rs, t ≤ r ∧ r ≤ t') ∧
        c = i64 (acc + (ks.zip rs).countP fun x => (live x.2 m x.1).isSome) ∧ Mirrors P t' s' m)
      t (countOf (Store.existsKey P) ks (i64 acc)) s := by
  induction ks generalizing t s acc with
  | nil =>
      refine Among.pure ⟨[], rfl, List.Pairwise.nil, by simp, ?_, h.mirrors⟩
      simp
  | cons k ks ih =>
      refine Among.bind ((h.existsKey k).weaken fun t₁ b s₁ _ _ hexists => ?_)
      obtain ⟨r, hr, hr', rfl, h₁⟩ := hexists
      have hnext : (if (live r m k).isSome = true then i64 (i64 acc + 1) else i64 acc) =
          i64 ((acc + if (live r m k).isSome then 1 else 0 : Nat) : Int) := by
        split
        · rw [i64_add_left]
          push_cast
          rfl
        · rfl
      rw [hnext]
      refine (ih h₁ (acc + if (live r m k).isSome then 1 else 0)).weaken
        fun t₂ c s₂ hle _ hrest => ?_
      obtain ⟨rs, hlen, hsorted, hrs, hc, h₂⟩ := hrest
      refine ⟨r :: rs, by simp [hlen], ?_, ?_, ?_, h₂⟩
      · exact List.pairwise_cons.mpr ⟨fun r' hr₁ => hr'.trans (hrs r' hr₁).1, hsorted⟩
      · intro r' hmem
        rcases List.mem_cons.mp hmem with rfl | hmem
        · exact ⟨hr, hr'.trans hle⟩
        · exact ⟨(hr.trans hr').trans (hrs r' hmem).1, (hrs r' hmem).2⟩
      · rw [hc, List.zip_cons_cons, List.countP_cons]
        push_cast
        congr 1
        ring

theorem Backs.exist_command (maxKeys : Nat) (h : Backs P m n t s) (ks : List Bytes) :
    Among (sweeper P) (Done P (maxKeys ≤ n) m (.exist ks) t) t
      ((Command.exist ks).prog P maxKeys) s := by
  refine Among.map ((h.countOf_exists ks 0).weaken fun t' c s' hle _ hcount => ?_)
  obtain ⟨rs, hlen, hsorted, hrs, hc, h'⟩ := hcount
  refine ⟨fun k => rs.getD k t', m, .list hle hsorted hrs,
    ⟨List.range ks.length, List.length_range, ?_, ?_, rfl⟩, h'⟩
  · exact (List.pairwise_lt_range).imp fun h => h.le
  · have hzip : ks.zip rs =
        (ks.zip (List.range ks.length)).map (Prod.map id fun k => rs.getD k t') := by
      rw [← List.zip_map_right]
      congr 1
      refine List.ext_getElem (by simp [hlen]) fun i hi _ => ?_
      simp [List.getElem?_eq_getElem hi]
    rw [hc, hzip, List.countP_map, liveCount]
    simp only [Nat.cast_zero, Int.zero_add]
    rfl

/-- The cache without some keys. -/
def without (m : Cache) (ks : List Bytes) : Cache := fun k => if ks.contains k then none else m k

theorem live_without (r : Int) (m : Cache) {ks : List Bytes} {k : Bytes} (hk : k ∉ ks) :
    live r (without m ks) k = live r m k := by
  simp [live, without, hk]

theorem without_append (m : Cache) (ks : List Bytes) (k : Bytes) :
    without m (ks ++ [k]) = Function.update (without m ks) k none := by
  funext k'
  by_cases hk : k' = k
  · subst hk
    simp [without]
  · simp [without, hk]

/-- `DEL` under way: the keys `done` are gone, and `acc` of them were there. -/
structure Deleting (P : Platform) (m : Cache) (done : List Bytes) (acc : Nat) (t : Int)
    (s : Shards) : Prop where
  mirrors : Mirrors P t s (without m done)
  gone : ∀ k ∈ done, view P s k = none
  atLeast : (found (live t m) done).card ≤ acc
  atMost : acc ≤ (found m done).card

theorem found_append (m : Cache) (ks : List Bytes) (k : Bytes) :
    found m (ks ++ [k]) = if (m k).isSome then insert k (found m ks) else found m ks := by
  have hset : (ks ++ [k]).toFinset = insert k ks.toFinset := by
    ext k'
    simp
  rw [found, hset, Finset.filter_insert]
  rfl

/-- The section for one more key, alone on what the sweeps have left. -/
theorem Deleting.key {done : List Bytes} {acc : Nat} (h : Deleting P m done acc t s)
    {u : Nat → Int} {s' : Shards} (hu : (sweeper P).Shows t u)
    (hs : (sweeper P).others (u 0) s s') (k : Bytes) :
    Deleting P m (done ++ [k]) (acc + if (view P s' k).isSome then 1 else 0) (u 1)
      ((Store.del P k).run ⟨u, s'⟩).2.cells := by
  have htwin := hs h.mirrors.valid
  have h' : Mirrors P (u 0) s' (without m done) :=
    mirrors_stable P _ t (u 0) s s' hu.start hs h.mirrors
  have hview := Store.view_run_del P ⟨u, s'⟩ k
  have hgone : ∀ k' ∈ done, view P s' k' = none := by
    intro k' hk'
    by_contra hin
    exact htwin.tidied.subset hin (h.gone k' hk')
  -- time only takes away
  have hfewer : (found (live (u 1) m) done).card ≤ acc := by
    refine le_trans (Finset.card_le_card fun k' hk' => ?_) h.atLeast
    simp only [found, Finset.mem_filter, Option.isSome_iff_ne_none] at hk' ⊢
    exact ⟨hk'.1, fun hnone => hk'.2 (live_none_of_le hu.le_one hnone)⟩
  refine ⟨?_, fun k' hk' => ?_, ?_, ?_⟩
  · rw [without_append]
    exact (h'.write ((Store.del_safe P k).run (w := ⟨u, s'⟩) h'.valid) hview).later
      hu.zero_le_one
  · rw [hview]
    by_cases hkk : k' = k
    · simp [hkk]
    · rw [Function.update_of_ne hkk]
      exact hgone k' (by simpa [hkk] using hk')
  · rw [found_append]
    by_cases hlive : (live (u 1) m k).isSome = true
    · rw [if_pos hlive]
      by_cases hdone : k ∈ done
      · -- deleted before, and counted then
        have hmem : k ∈ found (live (u 1) m) done := by simp [found, hdone, hlive]
        rw [Finset.insert_eq_of_mem hmem]
        exact le_add_right hfewer
      · have hthere : (view P s' k).isSome = true := by
          have hkey := (h'.later hu.zero_le_one).live_key k
          rw [live_without _ _ hdone] at hkey
          obtain ⟨it, hit⟩ := Option.isSome_iff_exists.mp (hkey ▸ hlive)
          rw [(live_eq_some.mp hit).1]
          rfl
        rw [if_pos hthere]
        exact (Finset.card_insert_le _ _).trans (Nat.add_le_add_right hfewer 1)
    · rw [if_neg hlive]
      exact le_add_right hfewer
  · rw [found_append]
    by_cases hthere : (view P s' k).isSome = true
    · -- not deleted before, and known to the cache
      have hdone : k ∉ done := fun hdone => by simp [hgone k hdone] at hthere
      have hknown : (m k).isSome = true := by
        have hk := h'.tidied.subset (Option.isSome_iff_ne_none.mp hthere)
        rw [Option.isSome_iff_ne_none]
        simpa [without, hdone] using hk
      have hnew : k ∉ found m done := by simp [found, hdone]
      rw [if_pos hthere, if_pos hknown, Finset.card_insert_of_notMem hnew]
      exact Nat.add_le_add_right h.atMost 1
    · rw [if_neg hthere, Nat.add_zero]
      split
      · exact h.atMost.trans (Finset.card_le_card (Finset.subset_insert _ _))
      · exact h.atMost

theorem Deleting.countOf {done : List Bytes} {acc : Nat} (h : Deleting P m done acc t s)
    (ks : List Bytes) :
    Among (sweeper P) (fun t' c s' => ∃ acc' : Nat, c = i64 acc' ∧
      Deleting P m (done ++ ks) acc' t' s') t (countOf (Store.del P) ks (i64 acc)) s := by
  induction ks generalizing t s done acc with
  | nil =>
      rw [List.append_nil]
      exact Among.pure ⟨acc, rfl, h⟩
  | cons k ks ih =>
      refine Among.bind (Among.locked fun u s' hu hs => ?_)
      have hkey := h.key hu hs k
      have hfst := Store.run_del_fst P ⟨u, s'⟩ k
      have hnext : (if ((Store.del P k).run ⟨u, s'⟩).1 = true then i64 (i64 acc + 1)
          else i64 acc) = i64 ((acc + if (view P s' k).isSome then 1 else 0 : Nat) : Int) := by
        rw [hfst]
        split
        · rw [i64_add_left]
          push_cast
          rfl
        · rfl
      have hrest := ih hkey
      rw [← hnext, List.append_assoc] at hrest
      exact hrest

theorem Backs.del_command (maxKeys : Nat) (h : Backs P m n t s) (ks : List Bytes) :
    Among (sweeper P) (Done P (maxKeys ≤ n) m (.del ks) t) t
      ((Command.del ks).prog P maxKeys) s := by
  have hstart : Deleting P m [] 0 t s :=
    ⟨h.mirrors, by simp, by simp [found], Nat.zero_le _⟩
  refine Among.map ((hstart.countOf ks).weaken fun t' c s' hle _ hdel => ?_)
  obtain ⟨acc, hc, hend⟩ := hdel
  exact ⟨fun _ => t', without m ks, .const hle le_rfl,
    ⟨0, acc, congrArg _ hc, hend.atLeast, hend.atMost, rfl⟩, hend.mirrors⟩

/-! ### Commands over all keys -/

theorem Backs.keys_command (maxKeys : Nat) (h : Backs P m n t s) (pattern : Bytes) :
    Among (sweeper P) (Done P (maxKeys ≤ n) m (.keys pattern) t) t
      ((Command.keys pattern).prog P maxKeys) s := by
  refine Among.map (Among.bind (Among.now fun u s₁ hu hs => ?_))
  have h₁ := h.swept hu.start hs
  refine Among.bind (((h₁.later hu.zero_le_one).walk fun sh => sh.keys P pattern (u 0)).weaken
    fun t' found s' hle _ hwalk => ?_)
  obtain ⟨h', seen, rfl, htwin⟩ := hwalk
  -- what was seen is a store, and the list is what `keys` would give on it
  obtain ⟨hnd, hmem⟩ := Store.run_keys_view P (w := ⟨fun _ => u 0, seen⟩) htwin.valid' pattern
  rw [Store.run_keys] at hnd hmem
  refine Among.pure ⟨twice (u 0) t', m, .twice hu.start (hu.zero_le_one.trans hle) le_rfl,
    ⟨0, 1, _, Nat.zero_le 1, rfl, hnd, fun k hk => ?_, fun k hk hmatch => ?_, rfl⟩, h'.mirrors⟩
  · obtain ⟨hlive, hmatch⟩ := (hmem k).mp hk
    refine ⟨?_, hmatch⟩
    obtain ⟨it, hit⟩ := Option.isSome_iff_exists.mp hlive
    obtain ⟨hin, halive⟩ := live_eq_some.mp hit
    have hthere : view P s₁ k = some it := by
      rcases htwin.tidied k with hsame | ⟨hnone, -⟩
      · rw [← hsame, hin]
      · rw [hnone] at hin
        cases hin
    have hstart : live (u 0) m k = some it := by
      rw [← h₁.mirrors.live_key]
      exact live_eq_some.mpr ⟨hthere, halive⟩
    simp [twice, hstart]
  · refine (hmem k).mpr ⟨?_, hmatch⟩
    obtain ⟨it, hit⟩ := Option.isSome_iff_exists.mp hk
    rw [show twice (u 0) t' 1 = t' from rfl] at hit
    have hle' : u 0 ≤ t' := hu.zero_le_one.trans hle
    rw [← (h₁.mirrors.later hle').live_key, ← htwin.live_eq le_rfl] at hit
    obtain ⟨hin, halive⟩ := live_eq_some.mp hit
    rw [live_eq_some.mpr ⟨hin, Item.alive_of_le hle' halive⟩]
    rfl

theorem Backs.dbsize_command (maxKeys : Nat) (h : Backs P m n t s) :
    Among (sweeper P) (Done P (maxKeys ≤ n) m .dbsize t) t (Command.dbsize.prog P maxKeys) s := by
  refine Among.map (Among.bind ((h.walk Shard.size).weaken fun t' ns s' hle _ hwalk => ?_))
  obtain ⟨h', seen, rfl, htwin⟩ := hwalk
  -- what was seen is a store that mirrors the cache at the end of the walk
  have hseen := (h.mirrors.later hle).dropped htwin.valid' htwin.tidied
  exact Among.pure ⟨fun _ => t', m, .const hle le_rfl,
    ⟨0, Store.total seen, rfl, hseen.live_le_total, hseen.total_le, rfl⟩, h'.mirrors⟩

/-- `FLUSHALL` under way: the shards behind the walk are empty and stay so. -/
structure Flushing (P : Platform) (rest : List Index) (s : Shards) : Prop where
  valid : ∀ i, Valid P i (s i)
  gone : ∀ k, Store.shardFor P k ∉ rest → view P s k = none

theorem Flushing.shard {i : Index} {rest : List Index} {s' : Shards}
    (h : Flushing P (i :: rest) s) (hs : (sweeper P).others t s s') :
    Flushing P rest (Function.update s' i (s' i).flush) := by
  have htwin := hs h.valid
  refine ⟨valid_update htwin.valid' (htwin.valid' i).flush, fun k hk => ?_⟩
  by_cases hi : Store.shardFor P k = i
  · subst hi
    simp [view, Shard.flush_find]
  · rw [view, Function.update_of_ne hi]
    by_contra hin
    exact htwin.tidied.subset hin (h.gone k (by simp [hi, hk]))

theorem Backs.flushall_command (maxKeys : Nat) (h : Backs P m n t s) :
    Among (sweeper P) (Done P (maxKeys ≤ n) m .flushall t) t
      (Command.flushall.prog P maxKeys) s := by
  have hstart : Flushing P Store.shards s :=
    ⟨h.mirrors.valid, fun k hk => absurd (Store.mem_shards _) hk⟩
  have hwalk : Among (sweeper P) (fun _ _ s => Flushing P [] s) t
      (Prog.eachCell (fun sh => ((), sh.flush)) Store.shards) s :=
    Among.eachCell (J := fun rest _ _ s => Flushing P rest s)
      (fun _ _ _ _ _ _ _ hrest _ hs => hrest.shard hs) [] hstart
  refine Among.bind (Among.bind (hwalk.weaken fun t' _ s' hle _ hend => ?_))
  have hnone : view P s' = fun _ => none := funext fun k => hend.gone k (by simp)
  have hmirrors := Mirrors.of_valid t' hend.valid
  rw [hnone] at hmirrors
  exact Among.pure (Among.pure ⟨fun _ => t', fun _ => none, .const hle le_rfl, ⟨rfl, rfl⟩,
    hmirrors⟩)

/-! ### Commands of one section -/

/-- A command that is one section does next to the others what it does alone. -/
theorem Backs.one_section {α : Type} {c : Command} {i : Index} {f : α → Bytes} (maxKeys : Nat)
    (h : Backs P m n t s) (body : (Nat → Int) → Shard → α × Shard)
    (hprog : c.prog P maxKeys = f <$> Prog.locked i body)
    (hbrief : ∀ u, body (frozen u 1) = body u)
    (hmight : ∀ full rd r m', c.May P full rd m r m' → c.Might P (maxKeys ≤ n) rd m r m') :
    Among (sweeper P) (Done P (maxKeys ≤ n) m c t) t (c.prog P maxKeys) s := by
  rw [hprog]
  refine Among.map (h.locked fun u s' hu h' => ?_)
  have hclock : ClockFrom (u 0) (frozen u 1) :=
    ⟨fun k => hu.mono (Nat.zero_le _), frozen_monotone hu.mono 1, fun k => hu.ranged _⟩
  obtain ⟨m', hmay, hend⟩ := h'.mirrors.command maxKeys hclock c
  rw [hprog, Prog.run_map, Prog.run_locked] at hmay hend
  simp only [hbrief] at hmay hend
  exact ⟨frozen u 1, m', ⟨hclock.mono, fun k => hu.start.trans (hclock.start k),
    fun k => hu.mono (min_le_right k 1)⟩, hmight _ _ _ _ hmay, hend.later hu.zero_le_one⟩

/-- **The step, next to a sweeping thread**: whatever is swept while it runs, a
command does what the abstract cache might do. -/
theorem Backs.command (maxKeys : Nat) (h : Backs P m n t s) (c : Command) :
    Among (sweeper P) (Done P (maxKeys ≤ n) m c t) t (c.prog P maxKeys) s := by
  cases c with
  | reply r => exact Among.pure ⟨fun _ => t, m, .const le_rfl le_rfl, ⟨rfl, rfl⟩, h.mirrors⟩
  | set key value o => exact h.set_command maxKeys key value o
  | get key =>
      refine Among.map ((h.get key).weaken fun t' v s' _ _ hget => ?_)
      obtain ⟨r, hr, hr', rfl, h'⟩ := hget
      exact ⟨fun _ => r, m, .const hr hr', ⟨0, rfl, rfl⟩, h'.mirrors⟩
  | del ks => exact h.del_command maxKeys ks
  | exist ks => exact h.exist_command maxKeys ks
  | expire key ttlMs =>
      exact h.one_section maxKeys (fun u sh => sh.expire key ttlMs (u 0) (u 1)) rfl (fun _ => rfl)
        fun _ _ _ _ hmay => hmay
  | ttl key =>
      exact h.one_section maxKeys (fun u sh => (sh.ttl key (u 0), sh)) rfl (fun _ => rfl)
        fun _ _ _ _ hmay => hmay
  | pttl key =>
      exact h.one_section maxKeys (fun u sh => (sh.ttl key (u 0), sh)) rfl (fun _ => rfl)
        fun _ _ _ _ hmay => hmay
  | incr key =>
      exact h.one_section maxKeys (fun u sh => sh.incr key (u 0)) rfl (fun _ => rfl)
        fun _ _ _ _ hmay => hmay
  | incrby key delta => exact h.incrby_command maxKeys key delta
  | keys pattern => exact h.keys_command maxKeys pattern
  | dbsize => exact h.dbsize_command maxKeys
  | flushall => exact h.flushall_command maxKeys

end Commands

end RedisCache.Commands
