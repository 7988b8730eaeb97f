import Mathlib
import RedisCache.Network.Received

/-!
# One order for all clients

Any number of connections come and go, descriptors are used again, input
arrives in pieces. There is one order of all requests that were executed,
such that the store is what serving them in that order leaves behind, and
every connection — in the map or gone — has been answered for its own part
of the order, and for nothing else. That part is what the parser finds in the
bytes the connection has read (`Heeds`). What was executed earlier stays in
front.

A connection needs a name that outlives its descriptor. `Names` gives every
connection the number of those made before it; neither the program nor the
model of it keeps such numbers.
-/

namespace RedisCache.Network

open Loop Protocol

variable {σ : Type}

/-- Requests with their replies, each under the name of the connection that
asked. -/
abbrev Schedule := List (Nat × RespValue × Bytes)

/-- What one connection asked, and what it was told. -/
def asked (order : Schedule) (name : Nat) : Log := (order.filter fun x => x.1 = name).map Prod.snd

/-- All requests of an order. -/
def requests (order : Schedule) : List RespValue := order.map fun x => x.2.1

/-- Exchanges under one name. -/
def signed (name : Nat) (log : Log) : Schedule := log.map fun x => (name, x)

theorem asked_append (order order' : Schedule) (name : Nat) :
    asked (order ++ order') name = asked order name ++ asked order' name := by
  rw [asked, List.filter_append, List.map_append]
  rfl

theorem asked_signed (name : Nat) (log : Log) : asked (signed name log) name = log := by
  induction log with
  | nil => rfl
  | cons x log ih =>
      rw [signed, List.map_cons, asked, List.filter_cons_of_pos (by simp), List.map_cons]
      exact congrArg _ ih

theorem asked_signed_ne {name other : Nat} (h : other ≠ name) (log : Log) :
    asked (signed name log) other = [] := by
  have hnone : ((signed name log).filter fun x => x.1 = other) = [] := by
    rw [List.filter_eq_nil_iff]
    intro x hx
    obtain ⟨y, -, rfl⟩ := List.mem_map.mp hx
    simpa using Ne.symm h
  rw [asked, hnone, List.map_nil]

theorem asked_eq_nil {order : Schedule} {name : Nat} (h : ∀ x ∈ order, x.1 ≠ name) :
    asked order name = [] := by
  rw [asked, List.filter_eq_nil_iff.mpr fun x hx => by simpa using h x hx, List.map_nil]

theorem requests_append (order order' : Schedule) :
    requests (order ++ order') = requests order ++ requests order' := List.map_append

theorem requests_signed (name : Nat) (log : Log) :
    requests (signed name log) = log.map Prod.fst := by
  rw [requests, signed, List.map_map]
  rfl

theorem exchanges_append (dispatch : Dispatch σ) (vs ws : List RespValue) (s : σ) :
    exchanges dispatch (vs ++ ws) s =
      exchanges dispatch vs s ++ exchanges dispatch ws (Conn.serve dispatch vs s).2 := by
  induction vs generalizing s with
  | nil => rfl
  | cons v vs ih => rw [List.cons_append, exchanges, ih, exchanges, Conn.serve, List.cons_append]

/-- The names of the connections: by descriptor of those in the map, in order
of those that are gone, and the next one to be given. -/
structure Names where
  live : Nat → Nat := fun _ => 0
  gone : List Nat := []
  next : Nat := 0

/-- The next name, for the connection at `fd`. -/
def Names.give (names : Names) (fd : Nat) : Names :=
  { names with live := Function.update names.live fd names.next, next := names.next + 1 }

theorem Names.live_give (names : Names) (fd : Nat) : (names.give fd).live fd = names.next :=
  Function.update_self _ _ _

theorem Names.live_give_ne (names : Names) {fd fd' : Nat} (h : fd' ≠ fd) :
    (names.give fd).live fd' = names.live fd' := Function.update_of_ne h _ _

namespace EventLoop

/-! ## What one call executes -/

/-- The connection at `fd` has executed `vs` and is dropped or kept. -/
structure Took (dispatch : Dispatch σ) (L : EventLoop σ) (fd : Nat) (vs : List RespValue)
    (L' : EventLoop σ) : Prop where
  store : L'.store = (Conn.serve dispatch vs L.store).2
  log : ∃ c c', L.connections.lookup fd = some c ∧
    c'.store = c.store ++ exchanges dispatch vs L.store ∧
    (Dropped fd c' L L' ∨ Kept fd c' L L')

theorem Took.of_event {P : Platform} {dispatch : Dispatch σ} {L L' : EventLoop σ} {fd : Nat}
    {c c' : Conn Log} {script : List Conn.Recv} {ok : Bool}
    (hc : L.connections.lookup fd = some c)
    (hevent : c.ReadEvent P dispatch L.store script ok c' L'.store)
    (hend : Dropped fd c' L L' ∨ Kept fd c' L L') : ∃ vs, Took dispatch L fd vs L' := by
  generalize hs : L'.store = s' at hevent
  cases hevent with
  | peerGone _ stop sent log =>
      exact ⟨[], hs, c, c', hc, by rw [log, exchanges, List.append_nil], hend⟩
  | refused vs rest _ stop fits found sent log => exact ⟨vs, hs, c, c', hc, log, hend⟩
  | served vs rest _ stop fits found live unread log => exact ⟨vs, hs, c, c', hc, log, hend⟩

/-- A call accepts, does nothing, or is about one connection. -/
theorem Sound.took (P : Platform) (dispatch : Dispatch σ) {L L' : EventLoop σ} (hL : L.Sound)
    {call : Call} (h : L.handle P dispatch call = some (.ok L')) :
    (∃ script, L' = L.handleAccept script) ∨ L' = L ∨ ∃ fd vs, Took dispatch L fd vs L' := by
  cases call with
  | accept script =>
      cases h
      exact .inl ⟨script, rfl⟩
  | remove fd =>
      cases h
      cases hfd : L.connections.lookup fd with
      | none => exact .inr (.inl (removeConnection_of_none hfd))
      | some c =>
          refine .inr (.inr ⟨fd, [], store_removeConnection L fd, c, c, hfd, ?_, ?_⟩)
          · rw [exchanges, List.append_nil]
          · exact .inl (dropped_removeConnection hfd)
  | readable fd script =>
      cases hfd : L.connections.lookup fd with
      | none =>
          simp only [EventLoop.handle, handleReadable, hfd] at h
          cases h
          exact .inr (.inl rfl)
      | some c =>
          obtain ⟨c', ⟨hevent, hdrop⟩ | ⟨hevent, hkeep⟩⟩ :=
            handleReadable_spec P dispatch hfd (hL.live fd c hfd) h
          · exact .inr (.inr ⟨fd, Took.of_event hfd hevent (.inl hdrop)⟩)
          · exact .inr (.inr ⟨fd, Took.of_event hfd hevent (.inr hkeep)⟩)
  | writable fd script =>
      cases hfd : L.connections.lookup fd with
      | none =>
          simp only [EventLoop.handle, handleWritable, hfd] at h
          cases h
          exact .inr (.inl rfl)
      | some c =>
          obtain ⟨hstore, c', hlog, -, -, hend⟩ :=
            handleWritable_spec hfd (hL.live fd c hfd) (hL.waits fd c hfd) h
          refine .inr (.inr ⟨fd, [], hstore, c, c', hfd, ?_, hend.imp And.right And.right⟩)
          rw [hlog, exchanges, List.append_nil]

/-! ## The order -/

/-- `order` is an order of all that the loop has executed since its store was
`s₀`. -/
structure Serial (dispatch : Dispatch σ) (s₀ : σ) (L : EventLoop σ) (names : Names)
    (order : Schedule) : Prop where
  /-- Each reply is the one the dispatcher gives at its place in the order. -/
  replied : order.map Prod.snd = exchanges dispatch (requests order) s₀
  store : L.store = (Conn.serve dispatch (requests order) s₀).2
  live : ∀ fd c, L.connections.lookup fd = some c → c.store = asked order (names.live fd)
  gone : (L.gone.map fun x => x.2.store) = names.gone.map (asked order)
  /-- Nobody else has asked. -/
  known : ∀ x ∈ order, x.1 ∈ names.gone ∨
    ∃ fd c, L.connections.lookup fd = some c ∧ names.live fd = x.1
  /-- Two connections never share a name. -/
  distinct : ∀ fd fd' c c', L.connections.lookup fd = some c →
    L.connections.lookup fd' = some c' → names.live fd = names.live fd' → fd = fd'
  apart : ∀ fd c, L.connections.lookup fd = some c → names.live fd ∉ names.gone
  nodup : names.gone.Nodup
  used : ∀ fd c, L.connections.lookup fd = some c → names.live fd < names.next
  spent : ∀ name ∈ names.gone, name < names.next

namespace Serial

variable {dispatch : Dispatch σ} {s₀ : σ} {L L' : EventLoop σ} {names : Names} {order : Schedule}

theorem start (dispatch : Dispatch σ) (s₀ : σ) :
    Serial dispatch s₀ { store := s₀ } {} [] where
  replied := rfl
  store := rfl
  live fd c h := by cases h
  gone := rfl
  known x hx := by cases hx
  distinct fd fd' c c' h := by cases h
  apart fd c h := by cases h
  nodup := List.nodup_nil
  used fd c h := by cases h
  spent name h := by cases h

/-- The next name is new. -/
theorem asked_next (h : Serial dispatch s₀ L names order) : asked order names.next = [] := by
  refine asked_eq_nil fun x hx heq => ?_
  rcases h.known x hx with hgone | ⟨fd, c, hfd, hname⟩
  · exact absurd (h.spent _ hgone) (by omega)
  · exact absurd (h.used fd c hfd) (by omega)

theorem addConnection (h : Serial dispatch s₀ L names order) (fd : Nat) :
    ∃ names', Serial dispatch s₀ (L.addConnection fd { store := [] }) names' order ∧
      names'.gone = names.gone := by
  cases hfd : L.connections.lookup fd with
  | some c =>
      simp only [EventLoop.addConnection, hfd]
      exact ⟨names, h, rfl⟩
  | none =>
      simp only [EventLoop.addConnection, hfd]
      refine ⟨names.give fd, ?_, rfl⟩
      -- a descriptor of the new map is the new one, or one of the old map
      have hold : ∀ fd' c', (L.connections.insert fd { store := [] }).lookup fd' = some c' →
          fd' = fd ∧ c'.store = [] ∨ fd' ≠ fd ∧ L.connections.lookup fd' = some c' := by
        intro fd' c' hc'
        by_cases heq : fd' = fd
        · subst heq
          rw [AList.lookup_insert] at hc'
          cases hc'
          exact .inl ⟨rfl, rfl⟩
        · rw [AList.lookup_insert_ne heq] at hc'
          exact .inr ⟨heq, hc'⟩
      refine ⟨h.replied, h.store, ?_, h.gone, ?_, ?_, ?_, h.nodup, ?_, ?_⟩
      · intro fd' c' hc'
        rcases hold fd' c' hc' with ⟨rfl, hempty⟩ | ⟨hne, hc⟩
        · rw [hempty, names.live_give, h.asked_next]
        · rw [names.live_give_ne hne]
          exact h.live fd' c' hc
      · intro x hx
        refine (h.known x hx).imp id ?_
        rintro ⟨fd', c', hc', hname⟩
        have hne : fd' ≠ fd := by
          rintro rfl
          rw [hfd] at hc'
          cases hc'
        exact ⟨fd', c', by rwa [AList.lookup_insert_ne hne], by rwa [names.live_give_ne hne]⟩
      · intro fd₁ fd₂ c₁ c₂ h₁ h₂ heq
        rcases hold fd₁ c₁ h₁ with ⟨rfl, -⟩ | ⟨hne₁, hc₁⟩
        · rcases hold fd₂ c₂ h₂ with ⟨rfl, -⟩ | ⟨hne₂, hc₂⟩
          · rfl
          · rw [names.live_give, names.live_give_ne hne₂] at heq
            exact absurd (h.used fd₂ c₂ hc₂) (by omega)
        · rcases hold fd₂ c₂ h₂ with ⟨rfl, -⟩ | ⟨hne₂, hc₂⟩
          · rw [names.live_give, names.live_give_ne hne₁] at heq
            exact absurd (h.used fd₁ c₁ hc₁) (by omega)
          · rw [names.live_give_ne hne₁, names.live_give_ne hne₂] at heq
            exact h.distinct fd₁ fd₂ c₁ c₂ hc₁ hc₂ heq
      · intro fd' c' hc' hmem
        rcases hold fd' c' hc' with ⟨rfl, -⟩ | ⟨hne, hc⟩
        · rw [names.live_give] at hmem
          exact absurd (h.spent _ hmem) (by omega)
        · rw [names.live_give_ne hne] at hmem
          exact h.apart fd' c' hc hmem
      · intro fd' c' hc'
        rcases hold fd' c' hc' with ⟨rfl, -⟩ | ⟨hne, hc⟩
        · rw [names.live_give]
          exact Nat.lt_succ_self _
        · rw [names.live_give_ne hne]
          exact (h.used fd' c' hc).trans (Nat.lt_succ_self _)
      · intro name hname
        exact (h.spent name hname).trans (Nat.lt_succ_self _)

theorem handleAccept (h : Serial dispatch s₀ L names order) (script : List Accept) :
    ∃ names', Serial dispatch s₀ (L.handleAccept script) names' order ∧
      names'.gone = names.gone := by
  induction script generalizing L names with
  | nil => exact ⟨names, h, rfl⟩
  | cons a script ih =>
      cases a with
      | client fd =>
          obtain ⟨names₁, h₁, hgone₁⟩ := h.addConnection fd
          obtain ⟨names₂, h₂, hgone₂⟩ := ih h₁
          exact ⟨names₂, h₂, hgone₂.trans hgone₁⟩
      | eintr => exact ih h
      | eagain => exact ⟨names, h, rfl⟩
      | error => exact ⟨names, h, rfl⟩

/-- The order after the connection at `fd` has executed `vs`. -/
def extended (dispatch : Dispatch σ) (L : EventLoop σ) (names : Names) (order : Schedule) (fd : Nat)
    (vs : List RespValue) : Schedule :=
  order ++ signed (names.live fd) (exchanges dispatch vs L.store)

theorem requests_extended (fd : Nat) (vs : List RespValue) :
    requests (extended dispatch L names order fd vs) = requests order ++ vs := by
  rw [extended, requests_append, requests_signed, map_fst_exchanges]

theorem replied_extended (h : Serial dispatch s₀ L names order) (fd : Nat) (vs : List RespValue) :
    (extended dispatch L names order fd vs).map Prod.snd =
      exchanges dispatch (requests (extended dispatch L names order fd vs)) s₀ := by
  rw [requests_extended, exchanges_append, ← h.replied, ← h.store, extended, List.map_append,
    signed, List.map_map]
  exact congrArg _ (List.map_id _)

theorem store_extended (h : Serial dispatch s₀ L names order) {fd : Nat} {vs : List RespValue}
    (hstore : L'.store = (Conn.serve dispatch vs L.store).2) :
    L'.store =
      (Conn.serve dispatch (requests (extended dispatch L names order fd vs)) s₀).2 := by
  rw [requests_extended, Conn.serve_append, ← h.store, hstore]

theorem asked_extended_self (h : Serial dispatch s₀ L names order) {fd : Nat} {c : Conn Log}
    (hc : L.connections.lookup fd = some c) (vs : List RespValue) :
    asked (extended dispatch L names order fd vs) (names.live fd) =
      c.store ++ exchanges dispatch vs L.store := by
  rw [extended, asked_append, asked_signed, h.live fd c hc]

theorem asked_extended_ne {fd name : Nat} (hne : name ≠ names.live fd) (vs : List RespValue) :
    asked (extended dispatch L names order fd vs) name = asked order name := by
  rw [extended, asked_append, asked_signed_ne hne, List.append_nil]

theorem gone_extended (h : Serial dispatch s₀ L names order) {fd : Nat} {c : Conn Log}
    (hc : L.connections.lookup fd = some c) (vs : List RespValue) :
    names.gone.map (asked (extended dispatch L names order fd vs)) =
      names.gone.map (asked order) := by
  refine List.map_congr_left fun name hname => asked_extended_ne ?_ vs
  rintro rfl
  exact h.apart fd c hc hname

theorem mem_extended {fd : Nat} {vs : List RespValue} {x : Nat × RespValue × Bytes}
    (hx : x ∈ extended dispatch L names order fd vs) : x ∈ order ∨ x.1 = names.live fd := by
  rcases List.mem_append.mp hx with hx | hx
  · exact .inl hx
  · obtain ⟨y, -, rfl⟩ := List.mem_map.mp hx
    exact .inr rfl

theorem kept (h : Serial dispatch s₀ L names order) {fd : Nat} {vs : List RespValue}
    {c c' : Conn Log} (hc : L.connections.lookup fd = some c)
    (hstore : L'.store = (Conn.serve dispatch vs L.store).2)
    (hlog : c'.store = c.store ++ exchanges dispatch vs L.store) (hkept : Kept fd c' L L') :
    Serial dispatch s₀ L' names (extended dispatch L names order fd vs) := by
  -- the same descriptors are in the map
  have hback : ∀ fd' d', L'.connections.lookup fd' = some d' →
      ∃ d, L.connections.lookup fd' = some d := by
    intro fd' d' hd'
    by_cases heq : fd' = fd
    · exact ⟨c, heq ▸ hc⟩
    · exact ⟨d', hkept.only.lookup fd' heq ▸ hd'⟩
  refine ⟨h.replied_extended fd vs, h.store_extended hstore, ?_, ?_, ?_, ?_, ?_, h.nodup, ?_,
    h.spent⟩
  · intro fd' d' hd'
    by_cases heq : fd' = fd
    · subst heq
      rw [hkept.lookup] at hd'
      cases hd'
      rw [hlog, h.asked_extended_self hc]
    · rw [hkept.only.lookup fd' heq] at hd'
      rw [asked_extended_ne (fun hname => heq (h.distinct fd' fd d' c hd' hc hname))]
      exact h.live fd' d' hd'
  · rw [hkept.gone, h.gone, h.gone_extended hc]
  · intro x hx
    rcases mem_extended hx with hx | hname
    · refine (h.known x hx).imp id ?_
      rintro ⟨fd', d, hd, hname⟩
      by_cases heq : fd' = fd
      · exact ⟨fd', c', heq ▸ hkept.lookup, hname⟩
      · exact ⟨fd', d, by rwa [hkept.only.lookup fd' heq], hname⟩
    · exact .inr ⟨fd, c', hkept.lookup, hname.symm⟩
  · intro fd₁ fd₂ d₁ d₂ h₁ h₂ heq
    obtain ⟨e₁, he₁⟩ := hback fd₁ d₁ h₁
    obtain ⟨e₂, he₂⟩ := hback fd₂ d₂ h₂
    exact h.distinct fd₁ fd₂ e₁ e₂ he₁ he₂ heq
  · intro fd' d' hd'
    obtain ⟨d, hd⟩ := hback fd' d' hd'
    exact h.apart fd' d hd
  · intro fd' d' hd'
    obtain ⟨d, hd⟩ := hback fd' d' hd'
    exact h.used fd' d hd

/-- A connection that is dropped takes its name with it. -/
theorem dropped (h : Serial dispatch s₀ L names order) {fd : Nat} {vs : List RespValue}
    {c c' : Conn Log} (hc : L.connections.lookup fd = some c)
    (hstore : L'.store = (Conn.serve dispatch vs L.store).2)
    (hlog : c'.store = c.store ++ exchanges dispatch vs L.store) (hdrop : Dropped fd c' L L') :
    Serial dispatch s₀ L' { names with gone := names.gone ++ [names.live fd] }
      (extended dispatch L names order fd vs) := by
  have hback : ∀ fd' d', L'.connections.lookup fd' = some d' →
      fd' ≠ fd ∧ L.connections.lookup fd' = some d' := by
    intro fd' d' hd'
    have hne : fd' ≠ fd := by
      rintro rfl
      rw [hdrop.lookup] at hd'
      cases hd'
    exact ⟨hne, hdrop.only.lookup fd' hne ▸ hd'⟩
  have hother : ∀ fd' d', L'.connections.lookup fd' = some d' → names.live fd' ≠ names.live fd := by
    intro fd' d' hd' hname
    obtain ⟨hne, hd⟩ := hback fd' d' hd'
    exact hne (h.distinct fd' fd d' c hd hc hname)
  refine ⟨h.replied_extended fd vs, h.store_extended hstore, ?_, ?_, ?_, ?_, ?_, ?_, ?_, ?_⟩
  · intro fd' d' hd'
    rw [asked_extended_ne (hother fd' d' hd')]
    exact h.live fd' d' (hback fd' d' hd').2
  · rw [hdrop.gone, List.map_append, List.map_append, h.gone, h.gone_extended hc]
    refine congrArg _ ?_
    rw [List.map_singleton, List.map_singleton, h.asked_extended_self hc, hlog]
  · intro x hx
    rcases mem_extended hx with hx | hname
    · rcases h.known x hx with hgone | ⟨fd', d, hd, hname⟩
      · exact .inl (List.mem_append_left _ hgone)
      · by_cases heq : fd' = fd
        · subst heq
          exact .inl (by simp [hname])
        · exact .inr ⟨fd', d, by rwa [hdrop.only.lookup fd' heq], hname⟩
    · exact .inl (by simp [hname])
  · intro fd₁ fd₂ d₁ d₂ h₁ h₂ heq
    exact h.distinct fd₁ fd₂ d₁ d₂ (hback fd₁ d₁ h₁).2 (hback fd₂ d₂ h₂).2 heq
  · intro fd' d' hd' hmem
    rcases List.mem_append.mp hmem with hmem | hmem
    · exact h.apart fd' d' (hback fd' d' hd').2 hmem
    · exact hother fd' d' hd' (List.mem_singleton.mp hmem)
  · rw [List.nodup_append]
    refine ⟨h.nodup, List.nodup_singleton _, fun a ha b hb => ?_⟩
    obtain rfl := List.mem_singleton.mp hb
    rintro rfl
    exact h.apart fd c hc ha
  · intro fd' d' hd'
    exact h.used fd' d' (hback fd' d' hd').2
  · intro name hname
    rcases List.mem_append.mp hname with hname | hname
    · exact h.spent name hname
    · obtain rfl := List.mem_singleton.mp hname
      exact h.used fd c hc

/-- The step lemma: a call puts what it executes behind the order. -/
theorem step (P : Platform) (hL : L.Sound) (h : Serial dispatch s₀ L names order) {call : Call}
    (hstep : L.handle P dispatch call = some (.ok L')) :
    ∃ names' more, Serial dispatch s₀ L' names' (order ++ more) ∧ names.gone <+: names'.gone := by
  rcases hL.took P dispatch hstep with ⟨script, rfl⟩ | rfl | ⟨fd, vs, hstore, c, c', hc, hlog, hend⟩
  · obtain ⟨names', h', hgone⟩ := h.handleAccept script
    exact ⟨names', [], by rwa [List.append_nil], by rw [hgone]⟩
  · exact ⟨names, [], by rwa [List.append_nil], List.prefix_rfl⟩
  · rcases hend with hdrop | hkept
    · exact ⟨_, _, h.dropped hc hstore hlog hdrop, List.prefix_append _ _⟩
    · exact ⟨names, _, h.kept hc hstore hlog hkept, List.prefix_rfl⟩

/-- The run lemma. -/
theorem run (P : Platform) (hL : L.Sound) (h : Serial dispatch s₀ L names order)
    {polls : List (List Ready)} (hrun : L.run P dispatch polls = some (.ok L')) :
    ∃ names' more, Serial dispatch s₀ L' names' (order ++ more) ∧ names.gone <+: names'.gone := by
  rw [run_eq P dispatch hL] at hrun
  have hinv := runAll_inv
    (I := fun _ M => M.Sound ∧ ∃ names' more, Serial dispatch s₀ M names' (order ++ more) ∧
      names.gone <+: names'.gone) ?_ ⟨hL, names, [], by rwa [List.append_nil], List.prefix_rfl⟩ hrun
  · exact hinv.2
  · rintro call calls M M' ⟨hM, names₁, more₁, h₁, hpre₁⟩ hstep
    obtain ⟨names₂, more₂, h₂, hpre₂⟩ := h₁.step P hM hstep
    refine ⟨hM.handle P dispatch hstep, names₂, more₁ ++ more₂, ?_, hpre₁.trans hpre₂⟩
    rwa [← List.append_assoc]

end Serial

/-! ## Every run -/

/-- What the clients of a loop have been sent, when its requests were executed
in this order: of each connection in the map a front part of the replies to
its own requests with the rest pending, of each that is gone a front part. -/
structure Delivered (L : EventLoop σ) (names : Names) (order : Schedule) : Prop where
  live : ∀ fd c, L.connections.lookup fd = some c →
    c.sent ++ c.outBuf.readable = replies (asked order (names.live fd))
  gone : List.Forall₂ (fun x name => x.2.sent <+: replies (asked order name)) L.gone names.gone

theorem Serial.delivered {dispatch : Dispatch σ} {s₀ : σ} {L : EventLoop σ} {names : Names}
    {order : Schedule} (h : Serial dispatch s₀ L names order) (hL : L.Sound) :
    Delivered L names order where
  live fd c hc := by rw [← h.live fd c hc, (hL.live fd c hc).replied]
  gone := by
    have hsent := hL.gone
    have hlogs := h.gone
    generalize L.gone = gone at hsent hlogs
    generalize names.gone = ns at hlogs
    induction gone generalizing ns with
    | nil =>
        cases ns with
        | nil => exact .nil
        | cons n ns => cases hlogs
    | cons x gone ih =>
        cases ns with
        | nil => cases hlogs
        | cons n ns =>
            rw [List.map_cons, List.map_cons, List.cons.injEq] at hlogs
            refine .cons ?_ (ih (fun y hy => hsent y (List.mem_cons_of_mem x hy)) ns hlogs.2)
            rw [← hlogs.1]
            exact hsent x List.mem_cons_self

/-- **The server is serial.** Whatever the sockets do, over any number of
connections: all requests executed so far have one order, the store and every
reply are those of serving them one after the other, each connection's part of
the order is what the parser finds in the bytes it has read, the connection is
sent the replies to that part, and later events only add to the end of the
order. -/
theorem requests_serial (P : Platform) (dispatch : Dispatch σ) (s₀ : σ)
    {polls more : List (List Ready)} {L L' : EventLoop σ}
    (hrun : EventLoop.run P dispatch { store := s₀ } polls = some (.ok L))
    (hmore : L.run P dispatch more = some (.ok L')) :
    Heeds P L (heard P dispatch s₀ polls) ∧ Heeds P L' (heard P dispatch s₀ (polls ++ more)) ∧
    ∃ names order names' order',
      Serial dispatch s₀ L names order ∧ Delivered L names order ∧
      Serial dispatch s₀ L' names' order' ∧ Delivered L' names' order' ∧
      order <+: order' ∧ names.gone <+: names'.gone := by
  have hall : EventLoop.run P dispatch { store := s₀ } (polls ++ more) = some (.ok L') := by
    rw [EventLoop.run] at hrun hmore ⊢
    rw [runAll_append, hrun]
    exact hmore
  refine ⟨heeds_run P dispatch s₀ hrun, heeds_run P dispatch s₀ hall, ?_⟩
  have hL := (Sound.start s₀).run P dispatch hrun
  have hL' := hL.run P dispatch hmore
  obtain ⟨names, order, h, -⟩ := (Serial.start dispatch s₀).run P (Sound.start s₀) hrun
  obtain ⟨names', rest, h', hgone⟩ := h.run P hL hmore
  exact ⟨names, _, names', _, h, h.delivered hL, h', h'.delivered hL', List.prefix_append _ _,
    hgone⟩

/-- Answers with the number of requests before. -/
def counting : Dispatch Int := fun _ n => (RespSerializer.integer n, n + 1)

/-- Two clients, the first sends a request and a byte of the next. -/
def twoClients : List (List Ready) :=
  [[.listener [.client 5, .client 6], .client 5 false (some [.data 43 (ascii "a\r\n+")]) none]]

/-- The second sends one, the first hangs up, and a third gets its descriptor. -/
def thirdClient : List (List Ready) :=
  [[.client 6 false (some [.data 43 (ascii "b\r\n")]) none, .client 5 true none none],
    [.listener [.client 5], .client 5 false (some [.data 43 (ascii "c\r\n")]) none]]

theorem requests_serial_reused :
    ∃ (L L' : EventLoop Int) (names names' : Names) (order order' : Schedule), L'.store = 3 ∧
      Heeds .concrete L (heard .concrete counting 0 twoClients) ∧
      Heeds .concrete L' (heard .concrete counting 0 (twoClients ++ thirdClient)) ∧
      Serial counting 0 L names order ∧ Delivered L names order ∧
      Serial counting 0 L' names' order' ∧ Delivered L' names' order' ∧
      order <+: order' ∧ names.gone <+: names'.gone := by
  obtain ⟨L', hrun⟩ := exists_ok (r := EventLoop.run .concrete counting { store := 0 }
    (twoClients ++ thirdClient)) (by decide +kernel)
  have hstore : ((EventLoop.run .concrete counting { store := 0 }
      (twoClients ++ thirdClient)).bind Except.toOption).map EventLoop.store = some 3 := by
    decide +kernel
  rw [hrun] at hstore
  obtain ⟨L, hfirst, hmore⟩ := of_runAll_append hrun
  obtain ⟨hread, hread', names, order, names', order', h⟩ :=
    requests_serial .concrete counting 0 hfirst hmore
  exact ⟨L, L', names, names', order, order', Option.some.inj hstore, hread, hread', h⟩

end EventLoop

end RedisCache.Network
