import Mathlib
import RedisCache.Network.Removal

/-!
# The connection gauge

`Metrics` counts connections: `record_connection_open` is called by the
accept callback in `Server::run`, `record_connection_close` by nobody. So the
gauge `active_connections` counts the connections that ever were, those that
are in the map and those that are gone (`Counted`), and it is right as long
as none is gone: exactly while no handler call has removed one
(`gauge_accurate_iff`).

The other counters of `Metrics` are left out. A descriptor is an `int`, and
the kernel gives out none that is still open (`Fresh`).
-/

namespace RedisCache.Server

open Loop Network EventLoop

variable {σ : Type}

/-- The counters of connections. -/
structure Metrics where
  activeConnections : Int := 0
  totalConnections : Int := 0

namespace Metrics

/-- `fetch_add` on a `std::atomic<int64_t>` wraps around. -/
def recordConnectionOpen (m : Metrics) : Metrics :=
  { activeConnections := i64 (m.activeConnections + 1)
    totalConnections := i64 (m.totalConnections + 1) }

/-- Never called. -/
def recordConnectionClose (m : Metrics) : Metrics :=
  { m with activeConnections := i64 (m.activeConnections - 1) }

theorem iterate_recordConnectionClose {m : Metrics} {x : Int} (h : m.activeConnections = i64 x)
    (n : Nat) : (recordConnectionClose^[n] m).activeConnections = i64 (x - n) := by
  induction n generalizing m x with
  | zero => simpa using h
  | succ n ih =>
      have hone : m.recordConnectionClose.activeConnections = i64 (x - 1) := by
        rw [recordConnectionClose, h, sub_eq_add_neg, i64_add_left, ← sub_eq_add_neg]
      rw [Function.iterate_succ_apply, ih hone]
      congr 1
      push_cast
      ring

end Metrics

/-- The event loop, and the counters that its accept callback writes. -/
structure Monitored (σ : Type) where
  loop : EventLoop σ
  metrics : Metrics := {}

/-- One event of a poll, or `reap_closed`. -/
inductive Action where
  | event (e : Ready)
  | reap

namespace Monitored

/-- The callback counts a new descriptor and makes a connection for it, which
is added. -/
def accepted (M : Monitored σ) (fd : Nat) : Monitored σ :=
  { loop := M.loop.addConnection fd { store := [] }
    metrics := M.metrics.recordConnectionOpen }

def handleAccept : Monitored σ → List Accept → Monitored σ
  | M, .client fd :: rest => handleAccept (M.accepted fd) rest
  | M, .eintr :: rest => handleAccept M rest
  | M, [] | M, .eagain :: _ | M, .error :: _ => M

/-- The other handlers do not touch the counters. -/
def handle (P : Platform) (dispatch : Dispatch σ) (M : Monitored σ) :
    Call → Option (Except Exn (Monitored σ))
  | .accept script => some (.ok (M.handleAccept script))
  | call => (M.loop.handle P dispatch call).map fun r => r.map fun L => { M with loop := L }

def act (P : Platform) (dispatch : Dispatch σ) (M : Monitored σ) :
    Action → Option (Except Exn (Monitored σ))
  | .event e => runAll (handle P dispatch) M (calls e)
  | .reap => some (.ok { M with loop := M.loop.reapClosed })

/-- The gauge is right. -/
def Accurate (M : Monitored σ) : Prop := M.metrics.activeConnections = M.loop.size

end Monitored

/-- The handler calls of an action. -/
def Action.calls : Action → List Call
  | .event e => EventLoop.calls e
  | .reap => []

/-- `accept` returns descriptors, each of them an `int` and none in use. -/
def Fresh : EventLoop σ → List Accept → Prop
  | L, .client fd :: rest =>
      fd < 2 ^ 31 ∧ L.connections.lookup fd = none ∧ Fresh (L.addConnection fd { store := [] }) rest
  | L, .eintr :: rest => Fresh L rest
  | _, [] | _, .eagain :: _ | _, .error :: _ => True

def FreshCall (M : Monitored σ) : Call → Prop
  | .accept script => Fresh M.loop script
  | _ => True

namespace Monitored

/-! ## The loop does not see the counters -/

theorem loop_handleAccept (M : Monitored σ) (script : List Accept) :
    (M.handleAccept script).loop = M.loop.handleAccept script := by
  induction script generalizing M with
  | nil => rfl
  | cons a script ih =>
      cases a with
      | client fd => exact ih (M.accepted fd)
      | eintr => exact ih M
      | eagain => rfl
      | error => rfl

theorem loop_handle {P : Platform} {dispatch : Dispatch σ} {M M' : Monitored σ} {call : Call}
    (h : M.handle P dispatch call = some (.ok M')) :
    M.loop.handle P dispatch call = some (.ok M'.loop) ∧
      ((∃ script, call = .accept script) ∨ M'.metrics = M.metrics) := by
  have hother : (M.loop.handle P dispatch call).map
      (fun r => r.map fun L => ({ M with loop := L } : Monitored σ)) = some (.ok M') →
      M.loop.handle P dispatch call = some (.ok M'.loop) ∧ M'.metrics = M.metrics := by
    intro hmap
    cases hr : M.loop.handle P dispatch call with
    | none => simp [hr] at hmap
    | some r =>
        cases r with
        | error e => simp [hr, Except.map] at hmap
        | ok L =>
            simp only [hr, Option.map_some, Except.map, Option.some.injEq, Except.ok.injEq] at hmap
            subst hmap
            exact ⟨rfl, rfl⟩
  cases call with
  | accept script =>
      cases h
      exact ⟨by rw [loop_handleAccept]; rfl, .inl ⟨script, rfl⟩⟩
  | remove fd => exact (hother h).imp_right .inr
  | readable fd script => exact (hother h).imp_right .inr
  | writable fd script => exact (hother h).imp_right .inr

/-- What the loop does, the monitored loop does. -/
theorem handle_of_about {P : Platform} {dispatch : Dispatch σ} {M : Monitored σ} {call : Call}
    {fd : Nat} (habout : call.about = some fd) {L : EventLoop σ}
    (h : M.loop.handle P dispatch call = some (.ok L)) :
    M.handle P dispatch call = some (.ok { M with loop := L }) := by
  cases call with
  | accept script => cases habout
  | remove fd => simp only [handle, h, Option.map_some, Except.map]
  | readable fd script => simp only [handle, h, Option.map_some, Except.map]
  | writable fd script => simp only [handle, h, Option.map_some, Except.map]

/-- Nothing is reaped, so an action is its handler calls. -/
theorem act_eq (P : Platform) (dispatch : Dispatch σ) {M : Monitored σ} (hM : M.loop.Sound)
    (a : Action) : M.act P dispatch a = runAll (handle P dispatch) M a.calls := by
  cases a with
  | event e => rfl
  | reap =>
      have hreap := reapClosed_eq fun fd c hfd => (hM.live fd c hfd).isOpen
      simp only [act, hreap]
      rfl

/-! ## What the gauge counts -/

/-- The gauge counts the connections in the map and those that are gone. -/
structure Counted (M : Monitored σ) : Prop where
  sound : M.loop.Sound
  small : ∀ fd ∈ M.loop.connections, fd < 2 ^ 31
  active : M.metrics.activeConnections = i64 (M.loop.size + M.loop.gone.length)

theorem Counted.start (s : σ) : Counted { loop := { store := s } } where
  sound := .start s
  small fd hfd := absurd hfd (AList.notMem_empty fd)
  active := by
    show (0 : Int) = i64 ((0 : Nat) + (0 : Nat))
    decide

theorem Counted.size_le {M : Monitored σ} (h : M.Counted) : M.loop.size ≤ 2 ^ 31 := by
  have hsub : M.loop.connections.keys.toFinset ⊆ Finset.range (2 ^ 31) := by
    intro fd hfd
    rw [List.mem_toFinset] at hfd
    exact Finset.mem_range.mpr (h.small fd hfd)
  have hcard := Finset.card_le_card hsub
  rwa [List.toFinset_card_of_nodup M.loop.connections.keys_nodup, Finset.card_range] at hcard

/-- **The gauge is right exactly while nothing is gone**, as long as fewer than
`2 ^ 64` connections are. -/
theorem Counted.accurate_iff {M : Monitored σ} (h : M.Counted)
    (hgone : M.loop.gone.length < 2 ^ 64) : M.Accurate ↔ M.loop.gone = [] := by
  have hsize := h.size_le
  rw [Accurate, h.active, ← List.length_eq_zero_iff]
  unfold i64
  omega

/-- What is missing: a `record_connection_close` for every connection that is
gone makes the gauge right. -/
theorem Counted.accurate_of_close {M : Monitored σ} (h : M.Counted) :
    (Metrics.recordConnectionClose^[M.loop.gone.length] M.metrics).activeConnections =
      M.loop.size := by
  have hsize := h.size_le
  rw [Metrics.iterate_recordConnectionClose h.active, add_sub_cancel_right]
  exact i64_of_inRange ⟨by omega, by omega⟩

theorem Counted.accepted {M : Monitored σ} (h : M.Counted) {fd : Nat} (hsmall : fd < 2 ^ 31)
    (hnew : M.loop.connections.lookup fd = none) : (M.accepted fd).Counted where
  sound := h.sound.addConnection fd
  small fd' hfd' := by
    simp only [Monitored.accepted, addConnection, hnew, AList.mem_insert] at hfd'
    rcases hfd' with rfl | hfd'
    · exact hsmall
    · exact h.small fd' hfd'
  active := by
    have hgone : (M.loop.addConnection fd { store := [] }).gone = M.loop.gone := by
      simp only [addConnection, hnew]
    simp only [Monitored.accepted, Metrics.recordConnectionOpen, hgone, size_addConnection hnew,
      h.active, i64_add_left]
    congr 1
    push_cast
    ring

theorem Counted.handleAccept {M : Monitored σ} (h : M.Counted) {script : List Accept}
    (hfresh : Fresh M.loop script) : (M.handleAccept script).Counted := by
  induction script generalizing M with
  | nil => exact h
  | cons a script ih =>
      cases a with
      | client fd =>
          obtain ⟨hsmall, hnew, hrest⟩ := hfresh
          exact ih (h.accepted hsmall hnew) hrest
      | eintr => exact ih h hfresh
      | eagain => exact h
      | error => exact h

/-- The step lemma: a handler call moves a connection out of the map to those
that are gone, and the gauge stays. -/
theorem Counted.handle {P : Platform} {dispatch : Dispatch σ} {M M' : Monitored σ} (h : M.Counted)
    {call : Call} (hfresh : FreshCall M call)
    (hstep : M.handle P dispatch call = some (.ok M')) : M'.Counted := by
  obtain ⟨hloop, haccept | hmetrics⟩ := loop_handle hstep
  · obtain ⟨script, rfl⟩ := haccept
    cases hstep
    exact h.handleAccept hfresh
  · have hsound := h.sound.handle P dispatch hloop
    cases h.sound.outcome P dispatch call with
    | removes L' fd c c' removes about before run dropped =>
        rw [hloop] at run
        cases run
        refine ⟨hsound, fun fd' hfd' => h.small fd' ?_, ?_⟩
        · by_cases heq : fd' = fd
          · rw [← AList.lookup_isSome, heq, before]
            rfl
          · rwa [← AList.lookup_isSome, ← dropped.only.lookup fd' heq, AList.lookup_isSome]
        · rw [hmetrics, h.active, dropped.size before, dropped.gone, List.length_append]
          congr 1
          push_cast
          simp
          ring
    | stays stays run =>
        rcases run M'.loop hloop with ⟨script, rfl⟩ | hkeys
        · cases hstep
          exact h.handleAccept hfresh
        · exact ⟨hsound, fun fd hfd => h.small fd ((hkeys.mem fd).mp hfd), by
            rw [hmetrics, h.active, hkeys.size, hkeys.gone]⟩

/-! ## Calls that remove -/

/-- A call that does not remove leaves what is gone. -/
theorem gone_handle {P : Platform} {dispatch : Dispatch σ} {M M' : Monitored σ}
    (h : M.loop.Sound) {call : Call} (hstays : ¬ call.Removes P M.loop)
    (hstep : M.handle P dispatch call = some (.ok M')) : M'.loop.gone = M.loop.gone := by
  obtain ⟨hloop, -⟩ := loop_handle hstep
  cases h.outcome P dispatch call with
  | removes L' fd c c' removes => exact absurd removes hstays
  | stays _ run =>
      rcases run M'.loop hloop with ⟨script, rfl⟩ | hkeys
      · simp only [EventLoop.handle, Option.some.injEq, Except.ok.injEq] at hloop
        rw [← hloop, gone_handleAccept]
      · exact hkeys.gone

/-- Calls about a descriptor that is not in the map do nothing. -/
theorem runAll_absent {P : Platform} {dispatch : Dispatch σ} {M : Monitored σ} {fd : Nat}
    (hfd : M.loop.connections.lookup fd = none) {cs : List Call}
    (habout : ∀ call ∈ cs, call.about = some fd) :
    runAll (handle P dispatch) M cs = some (.ok M) := by
  induction cs with
  | nil => rfl
  | cons call cs ih =>
      have hcall : M.loop.handle P dispatch call = some (.ok M.loop) := by
        have hone := habout call (by simp)
        cases call with
        | accept script => cases hone
        | remove fd' =>
            cases hone
            rw [EventLoop.handle, removeConnection_of_none hfd]
        | readable fd' script =>
            cases hone
            simp only [EventLoop.handle, handleReadable, hfd]
        | writable fd' script =>
            cases hone
            simp only [EventLoop.handle, handleWritable, hfd]
      rw [runAll_cons (handle_of_about (habout call (by simp)) hcall)]
      exact ih fun call' h => habout call' (by simp [h])

/-- Calls about one descriptor: none removes, or one does and they all return. -/
theorem removes_once (P : Platform) (dispatch : Dispatch σ) {M : Monitored σ} (h : M.loop.Sound)
    {fd : Nat} {cs : List Call} (habout : ∀ call ∈ cs, call.about = some fd) :
    Always (handle P dispatch) (fun M call => ¬ call.Removes P M.loop) M cs ∨
      ∃ M', runAll (handle P dispatch) M cs = some (.ok M') ∧
        M'.loop.gone.length = M.loop.gone.length + 1 := by
  induction cs generalizing M with
  | nil => exact .inl trivial
  | cons call cs ih =>
      have hrest : ∀ call' ∈ cs, call'.about = some fd := fun call' hmem =>
        habout call' (by simp [hmem])
      cases h.outcome P dispatch call with
      | removes L' fd' c c' removes about before run dropped =>
          -- what follows finds no connection any more
          rw [habout call (by simp)] at about
          cases about
          refine .inr ⟨{ M with loop := L' }, ?_, by simp [dropped.gone]⟩
          rw [runAll_cons (handle_of_about (habout call (by simp)) run)]
          exact runAll_absent dropped.lookup hrest
      | stays stays run =>
          cases hstep : M.handle P dispatch call with
          | none => exact .inl ⟨stays, fun M₁ h₁ => by simp [hstep] at h₁⟩
          | some r =>
              cases r with
              | error e => exact .inl ⟨stays, fun M₁ h₁ => by simp [hstep] at h₁⟩
              | ok M₁ =>
                  have hM₁ := h.handle P dispatch (loop_handle hstep).1
                  have hgone := gone_handle h stays hstep
                  rcases ih hM₁ hrest with halways | ⟨M', hrun, hlen⟩
                  · refine .inl ⟨stays, fun M₂ h₂ => ?_⟩
                    rw [hstep] at h₂
                    cases h₂
                    exact halways
                  · exact .inr ⟨M', by rw [runAll_cons hstep, hrun], by rw [hlen, hgone]⟩

/-- An action removes at most one connection, and then it returns. -/
theorem act_removes_once (P : Platform) (dispatch : Dispatch σ) {M : Monitored σ}
    (h : M.loop.Sound) (a : Action) :
    Always (handle P dispatch) (fun M call => ¬ call.Removes P M.loop) M a.calls ∨
      ∃ M', M.act P dispatch a = some (.ok M') ∧
        M'.loop.gone.length = M.loop.gone.length + 1 := by
  rw [act_eq P dispatch h]
  cases a with
  | reap => exact .inl trivial
  | event e =>
      cases e with
      | listener script => exact .inl ⟨id, fun _ _ => trivial⟩
      | client fd hup input output =>
          have habout : ∀ call ∈ (Action.event (.client fd hup input output)).calls,
              call.about = some fd := by
            cases hup <;> cases input <;> cases output <;>
              simp [Action.calls, EventLoop.calls, Call.about]
          exact removes_once P dispatch h habout

/-! ## Runs -/

section Runs

variable {P : Platform} {dispatch : Dispatch σ} {M M' : Monitored σ} {cs : List Call}

theorem counted_runAll (h : M.Counted) (hfresh : Always (handle P dispatch) FreshCall M cs)
    (hrun : Loop.runAll (handle P dispatch) M cs = some (.ok M')) : M'.Counted :=
  hfresh.runAll_inv (fun _ _ _ hs hQ hstep => hs.handle hQ hstep) h hrun

/-- Calls that remove nothing leave what is gone. -/
theorem gone_runAll (h : M.loop.Sound)
    (hkeep : Always (handle P dispatch) (fun M call => ¬ call.Removes P M.loop) M cs)
    (hrun : Loop.runAll (handle P dispatch) M cs = some (.ok M')) :
    M'.loop.gone = M.loop.gone := by
  refine (hkeep.runAll_inv (I := fun N => N.loop.Sound ∧ N.loop.gone = M.loop.gone)
    (fun N call N' hN hstays hstep => ?_) ⟨h, rfl⟩ hrun).2
  exact ⟨hN.1.handle P dispatch (loop_handle hstep).1, (gone_handle hN.1 hstays hstep).trans hN.2⟩

theorem Counted.accurate (h : M.Counted) (hnone : M.loop.gone = []) : M.Accurate :=
  (h.accurate_iff (by rw [hnone]; decide)).mpr hnone

/-- From a state in which nothing is gone. -/
theorem throughout_iff {actions : List Action} (h : M.Counted) (hnone : M.loop.gone = [])
    (hfresh : Always (handle P dispatch) FreshCall M (actions.flatMap Action.calls)) :
    Throughout (act P dispatch) Accurate M actions ↔
      Always (handle P dispatch) (fun M call => ¬ call.Removes P M.loop) M
        (actions.flatMap Action.calls) := by
  induction actions generalizing M with
  | nil =>
      simp only [Throughout, List.flatMap_nil, Always, iff_true]
      exact h.accurate hnone
  | cons a actions ih =>
      rw [List.flatMap_cons, always_append] at hfresh ⊢
      obtain ⟨hfirst, hlater⟩ := hfresh
      rcases act_removes_once P dispatch h.sound a with hkeep | ⟨M', hact, hlen⟩
      · -- nothing is removed here: the gauge is right, and the rest decides
        have hnext : ∀ M', Loop.runAll (handle P dispatch) M a.calls = some (.ok M') →
            (Throughout (act P dispatch) Accurate M' actions ↔
              Always (handle P dispatch) (fun M call => ¬ call.Removes P M.loop) M'
                (actions.flatMap Action.calls)) := fun M' hrun =>
          ih (counted_runAll h hfirst hrun) ((gone_runAll h.sound hkeep hrun).trans hnone)
            (hlater M' hrun)
        rw [Throughout, act_eq P dispatch h.sound]
        constructor
        · rintro ⟨-, hrest⟩
          exact ⟨hkeep, fun M' hrun => (hnext M' hrun).mp (hrest M' hrun)⟩
        · rintro ⟨-, hrest⟩
          exact ⟨h.accurate hnone, fun M' hrun => (hnext M' hrun).mpr (hrest M' hrun)⟩
      · -- one connection is gone, and the gauge still counts it
        have hrun := act_eq P dispatch h.sound a ▸ hact
        rw [hnone, List.length_nil] at hlen
        constructor
        · rintro ⟨-, hrest⟩
          have hM' := counted_runAll h hfirst hrun
          have hgone := (hM'.accurate_iff (by omega)).mp (hrest M' hact).first
          simp [hgone] at hlen
        · rintro ⟨hkeep, -⟩
          simp [gone_runAll h.sound hkeep hrun, hnone] at hlen

end Runs

/-- **When the gauge is right.** In any run of events and reaping, in any order
and over any number of connections, `active_connections` is the number of
connections between all events exactly if no handler call removes one. -/
theorem gauge_accurate_iff (P : Platform) (dispatch : Dispatch σ) (s : σ) (actions : List Action)
    (hfresh : Always (handle P dispatch) FreshCall { loop := { store := s } }
      (actions.flatMap Action.calls)) :
    Throughout (act P dispatch) Accurate { loop := { store := s } } actions ↔
      Always (handle P dispatch) (fun M call => ¬ call.Removes P M.loop)
        { loop := { store := s } } (actions.flatMap Action.calls) :=
  throughout_iff (.start s) rfl hfresh

/-- One connection that stays. -/
theorem gauge_accurate_accepted :
    Throughout (act .concrete (Conn.dispatcher .concrete 4)) Accurate
      { loop := { store := (⟨fun _ => 0, Storage.Store.empty⟩ :
        Sections.World Storage.Index Storage.Shard) } }
      [.event (.listener [.client 5]), .reap] :=
  (gauge_accurate_iff .concrete (Conn.dispatcher .concrete 4) ⟨fun _ => 0, Storage.Store.empty⟩
    [.event (.listener [.client 5]), .reap]
    ⟨⟨by decide, rfl, trivial⟩, fun _ _ => trivial⟩).mpr ⟨id, fun _ _ => trivial⟩

/-- One connection that closes: the gauge stays at one. -/
theorem gauge_counts_closed :
    ((runAll (act .concrete (Conn.dispatcher .concrete 4))
        { loop := { store := (⟨fun _ => 0, Storage.Store.empty⟩ :
          Sections.World Storage.Index Storage.Shard) } }
        [.event (.listener [.client 5]), .event (.client 5 false (some [.eof]) none), .reap]).bind
      Except.toOption).map (fun M => (M.metrics.activeConnections, M.loop.size)) =
    some (1, 0) := by
  decide +kernel

end Monitored

end RedisCache.Server
