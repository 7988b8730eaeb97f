import Mathlib
import RedisCache.Network.EventLoop

/-!
# What holds of every run of the event loop

`EventLoop.Sound` is the invariant, from the empty loop through any events
on any number of connections:

* a connection in the map is open, with well-formed buffers, and the bytes
  its socket has taken followed by those in `out_buf_` are the replies to
  the requests it has executed;
* while `out_buf_` holds anything, `EPOLLOUT` is registered, so no reply is
  forgotten;
* of a connection that is gone, the socket has taken a front part of those
  replies.

A connection marked closed never stays in the map, so `reap_closed` finds
nothing and a run is the sequence of its handler calls (`run_eq`).
-/

namespace RedisCache.Network

open Loop Framing Protocol

variable {σ : Type}

/-! ## Logs -/

/-- What serving `vs` writes to the log. -/
def exchanges (dispatch : Dispatch σ) : List RespValue → σ → Log
  | [], _ => []
  | v :: vs, s => (v, (dispatch v s).1) :: exchanges dispatch vs (dispatch v s).2

theorem replies_exchanges (dispatch : Dispatch σ) (vs : List RespValue) (s : σ) :
    replies (exchanges dispatch vs s) = (Conn.serve dispatch vs s).1 := by
  induction vs generalizing s with
  | nil => rfl
  | cons v vs ih =>
      rw [exchanges, Conn.serve, ← ih]
      rfl

theorem map_fst_exchanges (dispatch : Dispatch σ) (vs : List RespValue) (s : σ) :
    (exchanges dispatch vs s).map Prod.fst = vs := by
  induction vs generalizing s with
  | nil => rfl
  | cons v vs ih => rw [exchanges, List.map_cons, ih]

theorem replies_append (log log' : Log) : replies (log ++ log') = replies log ++ replies log' :=
  List.flatMap_append

theorem serve_noted (dispatch : Dispatch σ) (vs : List RespValue) (s : σ) (log : Log) :
    Conn.serve (noted dispatch) vs (s, log) =
      ((Conn.serve dispatch vs s).1,
        ((Conn.serve dispatch vs s).2, log ++ exchanges dispatch vs s)) := by
  induction vs generalizing s log with
  | nil => simp [Conn.serve, exchanges]
  | cons v vs ih =>
      simp only [Conn.serve, noted, exchanges] at ih ⊢
      rw [ih]
      simp

namespace Conn

/-! ## One handler on one connection -/

/-- A connection in its normal state. -/
structure Live (c : Conn Log) : Prop where
  wf : c.Wf
  isOpen : c.closed = false
  replied : c.sent ++ c.outBuf.readable = replies c.store

theorem Live.new : Live { store := [] } where
  wf := Wf.new []
  isOpen := rfl
  replied := by rw [Buffer.readable_new]; rfl

theorem Live.sent_front {c : Conn Log} (h : c.Live) : c.sent <+: replies c.store :=
  ⟨_, h.replied⟩

/-- How `on_readable` ends when it returns: the peer is gone and nothing is
executed; the input is malformed behind the requests `vs`; or exactly `vs`
have been executed. -/
inductive ReadEvent (P : Platform) (dispatch : Dispatch σ) (c : Conn Log) (s : σ)
    (script : List Recv) : Bool → Conn Log → σ → Prop
  | peerGone (c' : Conn Log) (stop : drained script = false) (sent : c'.sent = c.sent)
      (log : c'.store = c.store) : ReadEvent P dispatch c s script false c' s
  | refused (vs : List RespValue) (rest : Bytes) (c' : Conn Log) (stop : drained script = true)
      (fits : (c.inBuf.readable ++ received script).length < sizeLimit)
      (found : scan (verdict P) (c.inBuf.readable ++ received script) = (vs, rest, .refused))
      (sent : c'.sent = c.sent) (log : c'.store = c.store ++ exchanges dispatch vs s) :
      ReadEvent P dispatch c s script false c' (serve dispatch vs s).2
  | served (vs : List RespValue) (rest : Bytes) (c' : Conn Log) (stop : drained script = true)
      (fits : (c.inBuf.readable ++ received script).length < sizeLimit)
      (found : scan (verdict P) (c.inBuf.readable ++ received script) = (vs, rest, .starved))
      (live : c'.Live) (unread : c'.inBuf.readable = rest)
      (log : c'.store = c.store ++ exchanges dispatch vs s) :
      ReadEvent P dispatch c s script true c' (serve dispatch vs s).2

theorem ReadEvent.live {P : Platform} {dispatch : Dispatch σ} {c c' : Conn Log} {s s' : σ}
    {script : List Recv} (h : ReadEvent P dispatch c s script true c' s') : c'.Live := by
  cases h with
  | served vs rest _ stop fits found live unread log => exact live

/-- Nothing is sent while reading, and the log only grows. -/
theorem ReadEvent.sent_front {P : Platform} {dispatch : Dispatch σ} {c c' : Conn Log} {s s' : σ}
    {script : List Recv} {ok : Bool} (h : ReadEvent P dispatch c s script ok c' s')
    (hc : c.Live) : c'.sent <+: replies c'.store := by
  cases h with
  | peerGone _ stop sent log =>
      rw [sent, log]
      exact hc.sent_front
  | refused vs rest _ stop fits found sent log =>
      rw [sent, log, replies_append]
      exact hc.sent_front.trans (List.prefix_append _ _)
  | served vs rest _ stop fits found live unread log => exact live.sent_front

theorem ReadEvent.store {P : Platform} {dispatch : Dispatch σ} {c c' : Conn Log} {s s' : σ}
    {script : List Recv} {ok : Bool} (h : ReadEvent P dispatch c s script ok c' s') :
    ∃ vs, s' = (serve dispatch vs s).2 := by
  cases h with
  | peerGone _ stop sent log => exact ⟨[], rfl⟩
  | refused vs rest _ stop fits found sent log => exact ⟨vs, rfl⟩
  | served vs rest _ stop fits found live unread log => exact ⟨vs, rfl⟩

/-- When the peer is gone nothing has been executed. -/
theorem ReadEvent.of_gone {P : Platform} {dispatch : Dispatch σ} {c c' : Conn Log} {s s' : σ}
    {script : List Recv} {ok : Bool} (h : ReadEvent P dispatch c s script ok c' s')
    (hgone : drained script = false) : ok = false ∧ c'.store = c.store := by
  cases h with
  | peerGone _ stop sent log => exact ⟨rfl, log⟩
  | refused vs rest _ stop => simp [hgone] at stop
  | served vs rest _ stop => simp [hgone] at stop

/-- The command loop on a live connection with input `buf`. -/
theorem processed_event (P : Platform) (dispatch : Dispatch σ) {c : Conn Log} (h : c.Live)
    (s : σ) {script : List Recv} (hd : drained script = true)
    (hfits : (c.inBuf.readable ++ received script).length < sizeLimit) {buf : Buffer}
    (hread : buf.readable = c.inBuf.readable ++ received script) {c' : Conn (σ × Log)}
    (hproc : Processed P (noted dispatch) { c.withStore (s, c.store) with inBuf := buf } []
      (.ok c')) :
    ReadEvent P dispatch c s script (!c'.closed) (c'.withStore c'.store.2) c'.store.1 := by
  simp only [Processed, hread, Conn.withStore, serve_noted, List.nil_append] at hproc
  split at hproc
  · rename_i vs rest hscan
    obtain ⟨hwf, hrest, hout, hclosed, hstore, hsent⟩ := hproc.of_ok
    simp only [h.isOpen, Bool.or_false] at hclosed
    have hlog : (c'.withStore c'.store.2).store = c.store ++ exchanges dispatch vs s := by
      simp only [Conn.withStore, hstore]
    have hlive : (c'.withStore c'.store.2).Live := by
      refine ⟨hwf.withStore _, hclosed, ?_⟩
      simp only [Conn.withStore, hstore, hsent, hout, replies_append, replies_exchanges,
        ← h.replied, List.append_assoc]
    have hafter : c'.store.1 = (serve dispatch vs s).2 := by rw [hstore]
    rw [hclosed, hafter]
    exact .served vs rest _ hd hfits hscan hlive hrest hlog
  · rename_i vs rest hscan
    obtain ⟨-, -, -, hclosed, hstore, hsent⟩ := hproc.of_ok
    have hlog : (c'.withStore c'.store.2).store = c.store ++ exchanges dispatch vs s := by
      simp only [Conn.withStore, hstore]
    have hafter : c'.store.1 = (serve dispatch vs s).2 := by rw [hstore]
    rw [hclosed, hafter, Bool.or_true]
    exact .refused vs rest _ hd hfits hscan hsent hlog
  · simp at hproc

/-- **`on_readable`** on a live connection over any store raises or ends in one
of the three ways, and asks for removal exactly when it has set `closed_`. -/
theorem onReadable_event (P : Platform) (dispatch : Dispatch σ) {c : Conn Log} (h : c.Live)
    (s : σ) (script : List Recv) :
    (∃ e, (c.withStore (s, c.store)).onReadable P (noted dispatch) script = some (.error e)) ∨
    ∃ c', (c.withStore (s, c.store)).onReadable P (noted dispatch) script =
        some (.ok (!c'.closed, c')) ∧
      ReadEvent P dispatch c s script (!c'.closed) (c'.withStore c'.store.2) c'.store.1 := by
  have hwf := h.wf.withStore (s, c.store)
  rcases onReadable_cases P (noted dispatch) hwf script with
    ⟨-, hrun⟩ | ⟨-, hd, buf, -, hrun⟩ | ⟨-, hd, buf, r, hbuf, hread, hproc, hrun⟩
  · exact .inl ⟨_, hrun⟩
  · exact .inr ⟨{ c.withStore (s, c.store) with inBuf := buf, closed := true }, hrun,
      .peerGone _ hd rfl rfl⟩
  · cases r with
    | error e => exact .inl ⟨e, hrun⟩
    | ok c' =>
        have hfits : (c.inBuf.readable ++ received script).length < sizeLimit :=
          lt_of_le_of_lt (hread ▸ hbuf.readable_le) (by decide)
        exact .inr ⟨c', hrun, processed_event P dispatch h s hd hfits hread hproc⟩

/-- **`on_writable`**: bytes move from `out_buf_` to the peer, and the
connection stays live unless `send` fails. -/
theorem onWritable_event {c : Conn Log} (h : c.Live) (s : σ) (script : List Send) :
    ∃ c', (c.withStore (s, c.store)).onWritable script = some (!c'.closed, c') ∧
      c'.store = (s, c.store) ∧ c'.inBuf = c.inBuf ∧
      c'.outBuf.readable <:+ c.outBuf.readable ∧ c'.sent <+: replies c.store ∧
      (c'.closed = true → .error ∈ script) ∧
      (c'.closed = false → (c'.withStore c'.store.2).Live) := by
  have hwf := h.wf.withStore (s, c.store)
  obtain ⟨⟨b, c'⟩, hrun, ⟨buf, taken, hbuf, hread, hc'⟩, herr⟩ := onWritable_spec hwf script
  simp only [Conn.withStore, h.isOpen, Bool.false_or] at hread hc'
  have hmoved : c.sent ++ taken ++ buf.readable = replies c.store := by
    rw [List.append_assoc, ← hread, h.replied]
  subst hc'
  refine ⟨{ c.withStore (s, c.store) with outBuf := buf, sent := c.sent ++ taken, closed := !b },
    by rw [hrun]; simp [Conn.withStore], rfl, rfl, ⟨taken, hread.symm⟩, ⟨_, hmoved⟩, ?_,
    fun hopen => ?_⟩
  · intro hclosed
    exact herr (by simpa using hclosed)
  · exact ⟨⟨h.wf.inBuf, hbuf⟩, hopen, hmoved⟩

end Conn

namespace EventLoop

/-! ## One handler on the loop -/

/-- Outside `fd` nothing changes. -/
structure OnlyAt (fd : Nat) (L L' : EventLoop σ) : Prop where
  lookup : ∀ fd', fd' ≠ fd → L'.connections.lookup fd' = L.connections.lookup fd'
  interest : ∀ fd', fd' ≠ fd → L'.writeInterest fd' = L.writeInterest fd'

theorem OnlyAt.removeConnection (L : EventLoop σ) (fd : Nat) :
    OnlyAt fd L (L.removeConnection fd) := by
  refine ⟨fun fd' h => lookup_removeConnection_ne L h, fun fd' h => ?_⟩
  unfold EventLoop.removeConnection
  split
  · rfl
  · exact Function.update_of_ne h _ _

theorem OnlyAt.put (L : EventLoop σ) (fd : Nat) (c : Conn (σ × Log)) : OnlyAt fd L (L.put fd c) :=
  ⟨fun _ h => lookup_put_ne L h c, fun _ _ => rfl⟩

theorem OnlyAt.updateWriteInterest (L : EventLoop σ) (fd : Nat) (b : Bool) :
    OnlyAt fd L (L.updateWriteInterest fd b) :=
  ⟨fun _ _ => rfl, fun _ h => Function.update_of_ne h _ _⟩

theorem OnlyAt.trans {fd : Nat} {L₁ L₂ L₃ : EventLoop σ} (h : OnlyAt fd L₁ L₂)
    (h' : OnlyAt fd L₂ L₃) : OnlyAt fd L₁ L₃ :=
  ⟨fun fd' hne => (h'.lookup fd' hne).trans (h.lookup fd' hne),
    fun fd' hne => (h'.interest fd' hne).trans (h.interest fd' hne)⟩

/-- The connection at `fd` has been destroyed as `c`. -/
structure Dropped (fd : Nat) (c : Conn Log) (L L' : EventLoop σ) : Prop where
  only : OnlyAt fd L L'
  lookup : L'.connections.lookup fd = none
  gone : L'.gone = L.gone ++ [(fd, c)]

/-- The connection at `fd` is now `c`, and is waited for if it has output. -/
structure Kept (fd : Nat) (c : Conn Log) (L L' : EventLoop σ) : Prop where
  only : OnlyAt fd L L'
  lookup : L'.connections.lookup fd = some c
  gone : L'.gone = L.gone
  waits : c.outBuf.readable ≠ [] → L'.writeInterest fd = true

theorem dropped_of_put (L : EventLoop σ) (fd : Nat) (c : Conn (σ × Log)) :
    Dropped fd (c.withStore c.store.2) L ((L.put fd c).removeConnection fd) where
  only := (OnlyAt.put L fd c).trans (.removeConnection _ fd)
  lookup := lookup_removeConnection _ fd
  gone := gone_removeConnection _ (lookup_put L fd c)

theorem store_removeConnection (L : EventLoop σ) (fd : Nat) :
    (L.removeConnection fd).store = L.store := by
  unfold removeConnection
  split <;> rfl

/-- **`handle_readable`** on a live connection: it is dropped or kept, as its
`on_readable` went, and the loop's store is the one that left behind. -/
theorem handleReadable_spec (P : Platform) (dispatch : Dispatch σ) {L L' : EventLoop σ} {fd : Nat}
    {c : Conn Log} (hc : L.connections.lookup fd = some c) (hlive : c.Live)
    {script : List Conn.Recv}
    (h : L.handleReadable P dispatch fd script = some (.ok L')) :
    ∃ c', (c.ReadEvent P dispatch L.store script false c' L'.store ∧ Dropped fd c' L L') ∨
      (c.ReadEvent P dispatch L.store script true c' L'.store ∧ Kept fd c' L L') := by
  rw [handleReadable] at h
  simp only [hc] at h
  rcases Conn.onReadable_event P dispatch hlive L.store script with
    ⟨e, hrun⟩ | ⟨c', hrun, hevent⟩
  · simp [hrun] at h
  · simp only [hrun] at h
    refine ⟨c'.withStore c'.store.2, ?_⟩
    cases hclosed : c'.closed with
    | true =>
        simp only [hclosed, Bool.not_true, Bool.not_false, Bool.true_or, if_true,
          Option.some.injEq, Except.ok.injEq] at h hevent
        subst h
        rw [store_removeConnection]
        exact .inl ⟨hevent, dropped_of_put L fd c'⟩
    | false =>
        simp only [hclosed, Bool.not_false, Bool.not_true, Bool.or_self, Bool.false_eq_true,
          if_false] at h hevent
        refine .inr ?_
        cases hempty : c'.outBuf.empty with
        | true =>
            simp only [hempty, Bool.not_true, Bool.false_eq_true, if_false, Option.some.injEq,
              Except.ok.injEq] at h
            subst h
            refine ⟨hevent, .put L fd c', lookup_put L fd c', rfl, fun hpending => ?_⟩
            exact absurd (Buffer.readable_of_empty hempty) hpending
        | false =>
            simp only [hempty, Bool.not_false, if_true, Option.some.injEq, Except.ok.injEq] at h
            subst h
            exact ⟨hevent, (OnlyAt.put L fd c').trans (.updateWriteInterest _ fd true),
              lookup_put L fd c', rfl, fun _ => Function.update_self _ _ _⟩

/-- **`handle_writable`**: nothing is executed. -/
theorem handleWritable_spec {L L' : EventLoop σ} {fd : Nat} {c : Conn Log}
    (hc : L.connections.lookup fd = some c) (hlive : c.Live)
    (hwaits : c.outBuf.readable ≠ [] → L.writeInterest fd = true) {script : List Conn.Send}
    (h : L.handleWritable fd script = some (.ok L')) :
    L'.store = L.store ∧ ∃ c', c'.store = c.store ∧ c'.inBuf = c.inBuf ∧
      c'.sent <+: replies c'.store ∧
      ((.error ∈ script ∧ Dropped fd c' L L') ∨ (c'.Live ∧ Kept fd c' L L')) := by
  rw [handleWritable] at h
  simp only [hc] at h
  obtain ⟨c', hrun, hstore, hin, hout, hsent, herror, hopen⟩ :=
    Conn.onWritable_event hlive L.store script
  have hlog : (c'.withStore c'.store.2).store = c.store := by rw [hstore]; rfl
  simp only [hrun] at h
  cases hclosed : c'.closed with
  | true =>
      simp only [hclosed, Bool.not_true, Bool.not_false, Bool.true_or, if_true,
        Option.some.injEq, Except.ok.injEq] at h
      subst h
      refine ⟨by rw [store_removeConnection, put, hstore], c'.withStore c'.store.2, hlog, hin,
        hlog ▸ hsent, .inl ⟨herror hclosed, dropped_of_put L fd c'⟩⟩
  | false =>
      simp only [hclosed, Bool.not_false, Bool.not_true, Bool.or_self, Bool.false_eq_true,
        if_false] at h
      cases hempty : c'.outBuf.empty with
      | true =>
          simp only [hempty, if_true, Option.some.injEq, Except.ok.injEq] at h
          subst h
          refine ⟨by rw [updateWriteInterest, put, hstore], c'.withStore c'.store.2, hlog, hin,
            hlog ▸ hsent, .inr ⟨hopen hclosed,
              (OnlyAt.put L fd c').trans (.updateWriteInterest _ fd false), lookup_put L fd c', rfl,
              fun hpending => ?_⟩⟩
          exact absurd (Buffer.readable_of_empty hempty) hpending
      | false =>
          simp only [hempty, Bool.false_eq_true, if_false, Option.some.injEq,
            Except.ok.injEq] at h
          subst h
          refine ⟨by rw [put, hstore], c'.withStore c'.store.2, hlog, hin, hlog ▸ hsent,
            .inr ⟨hopen hclosed, .put L fd c', lookup_put L fd c', rfl, fun hpending => ?_⟩⟩
          -- what is pending now was pending before
          refine hwaits fun hnone => hpending ?_
          rw [hnone] at hout
          exact List.suffix_nil.mp hout

/-! ## The invariant -/

structure Sound (L : EventLoop σ) : Prop where
  live : ∀ fd c, L.connections.lookup fd = some c → c.Live
  waits : ∀ fd c, L.connections.lookup fd = some c → c.outBuf.readable ≠ [] →
    L.writeInterest fd = true
  gone : ∀ x ∈ L.gone, x.2.sent <+: replies x.2.store

theorem Sound.start (s : σ) : Sound ({ store := s } : EventLoop σ) where
  live fd c h := by cases h
  waits fd c h := by cases h
  gone x hx := by cases hx

/-- The descriptor a call is about. -/
def Call.about : Call → Option Nat
  | .accept _ => none
  | .remove fd => some fd
  | .readable fd _ => some fd
  | .writable fd _ => some fd

/-- What a handler call does to a sound loop. -/
inductive Handled (P : Platform) (dispatch : Dispatch σ) (L : EventLoop σ) :
    Call → EventLoop σ → Prop
  | accept (script : List Accept) : Handled P dispatch L (.accept script) (L.handleAccept script)
  | absent (call : Call) (fd : Nat) (about : call.about = some fd)
      (missing : L.connections.lookup fd = none) : Handled P dispatch L call L
  | removed (fd : Nat) (c : Conn Log) (L' : EventLoop σ) (live : c.Live)
      (before : L.connections.lookup fd = some c) (store : L'.store = L.store)
      (dropped : Dropped fd c L L') : Handled P dispatch L (.remove fd) L'
  | readDropped (fd : Nat) (script : List Conn.Recv) (c c' : Conn Log) (L' : EventLoop σ)
      (live : c.Live) (before : L.connections.lookup fd = some c)
      (event : c.ReadEvent P dispatch L.store script false c' L'.store)
      (dropped : Dropped fd c' L L') : Handled P dispatch L (.readable fd script) L'
  | readKept (fd : Nat) (script : List Conn.Recv) (c c' : Conn Log) (L' : EventLoop σ)
      (live : c.Live) (before : L.connections.lookup fd = some c)
      (event : c.ReadEvent P dispatch L.store script true c' L'.store)
      (kept : Kept fd c' L L') : Handled P dispatch L (.readable fd script) L'
  | writeDropped (fd : Nat) (script : List Conn.Send) (c c' : Conn Log) (L' : EventLoop σ)
      (before : L.connections.lookup fd = some c) (store : L'.store = L.store)
      (log : c'.store = c.store) (sent : c'.sent <+: replies c'.store) (error : .error ∈ script)
      (dropped : Dropped fd c' L L') : Handled P dispatch L (.writable fd script) L'
  | writeKept (fd : Nat) (script : List Conn.Send) (c c' : Conn Log) (L' : EventLoop σ)
      (before : L.connections.lookup fd = some c) (store : L'.store = L.store)
      (live : c'.Live) (log : c'.store = c.store) (unread : c'.inBuf = c.inBuf)
      (kept : Kept fd c' L L') : Handled P dispatch L (.writable fd script) L'

theorem dropped_removeConnection {L : EventLoop σ} {fd : Nat} {c : Conn Log}
    (h : L.connections.lookup fd = some c) : Dropped fd c L (L.removeConnection fd) :=
  ⟨.removeConnection L fd, lookup_removeConnection L fd, gone_removeConnection L h⟩

theorem removeConnection_of_none {L : EventLoop σ} {fd : Nat}
    (h : L.connections.lookup fd = none) : L.removeConnection fd = L := by
  simp only [removeConnection, h]

/-- Every call that returns is one of those. -/
theorem Sound.handled (P : Platform) (dispatch : Dispatch σ) {L L' : EventLoop σ} (hL : L.Sound)
    {call : Call} (h : L.handle P dispatch call = some (.ok L')) :
    Handled P dispatch L call L' := by
  cases call with
  | accept script =>
      cases h
      exact .accept script
  | remove fd =>
      cases h
      cases hfd : L.connections.lookup fd with
      | none =>
          rw [removeConnection_of_none hfd]
          exact .absent _ fd rfl hfd
      | some c =>
          exact .removed fd c _ (hL.live fd c hfd) hfd (store_removeConnection L fd)
            (dropped_removeConnection hfd)
  | readable fd script =>
      cases hfd : L.connections.lookup fd with
      | none =>
          simp only [handle, handleReadable, hfd] at h
          cases h
          exact .absent _ fd rfl hfd
      | some c =>
          have hlive := hL.live fd c hfd
          obtain ⟨c', ⟨hevent, hdrop⟩ | ⟨hevent, hkeep⟩⟩ :=
            handleReadable_spec P dispatch hfd hlive h
          · exact .readDropped fd script c c' L' hlive hfd hevent hdrop
          · exact .readKept fd script c c' L' hlive hfd hevent hkeep
  | writable fd script =>
      cases hfd : L.connections.lookup fd with
      | none =>
          simp only [handle, handleWritable, hfd] at h
          cases h
          exact .absent _ fd rfl hfd
      | some c =>
          obtain ⟨hstore, c', hlog, hin, hsent, ⟨herr, hdrop⟩ | ⟨hlive, hkeep⟩⟩ :=
            handleWritable_spec hfd (hL.live fd c hfd) (hL.waits fd c hfd) h
          · exact .writeDropped fd script c c' L' hfd hstore hlog hsent herr hdrop
          · exact .writeKept fd script c c' L' hfd hstore hlive hlog hin hkeep

theorem Sound.dropped {L L' : EventLoop σ} (hL : L.Sound) {fd : Nat} {c : Conn Log}
    (h : Dropped fd c L L') (hc : c.sent <+: replies c.store) : L'.Sound := by
  refine ⟨fun fd' c' hfd' => ?_, fun fd' c' hfd' => ?_, fun x hx => ?_⟩
  · by_cases heq : fd' = fd
    · subst heq
      rw [h.lookup] at hfd'
      cases hfd'
    · exact hL.live fd' c' (h.only.lookup fd' heq ▸ hfd')
  · by_cases heq : fd' = fd
    · subst heq
      rw [h.lookup] at hfd'
      cases hfd'
    · rw [h.only.interest fd' heq]
      exact hL.waits fd' c' (h.only.lookup fd' heq ▸ hfd')
  · rw [h.gone, List.mem_append, List.mem_singleton] at hx
    rcases hx with hx | rfl
    · exact hL.gone x hx
    · exact hc

theorem Sound.kept {L L' : EventLoop σ} (hL : L.Sound) {fd : Nat} {c : Conn Log}
    (h : Kept fd c L L') (hc : c.Live) : L'.Sound := by
  refine ⟨fun fd' c' hfd' => ?_, fun fd' c' hfd' => ?_, h.gone ▸ hL.gone⟩
  · by_cases heq : fd' = fd
    · subst heq
      rw [h.lookup] at hfd'
      cases hfd'
      exact hc
    · exact hL.live fd' c' (h.only.lookup fd' heq ▸ hfd')
  · by_cases heq : fd' = fd
    · subst heq
      rw [h.lookup] at hfd'
      cases hfd'
      exact h.waits
    · rw [h.only.interest fd' heq]
      exact hL.waits fd' c' (h.only.lookup fd' heq ▸ hfd')

theorem Sound.addConnection {L : EventLoop σ} (hL : L.Sound) (fd : Nat) :
    (L.addConnection fd { store := [] }).Sound := by
  cases hfd : L.connections.lookup fd with
  | some c =>
      simp only [EventLoop.addConnection, hfd]
      exact hL
  | none =>
      have hkept : Kept fd { store := [] } L (L.addConnection fd { store := [] }) := by
        simp only [EventLoop.addConnection, hfd]
        exact ⟨⟨fun fd' hne => AList.lookup_insert_ne hne,
          fun fd' hne => Function.update_of_ne hne _ _⟩, AList.lookup_insert _, rfl,
          fun hpending => absurd Buffer.readable_new hpending⟩
      exact hL.kept hkept .new

theorem Sound.handleAccept {L : EventLoop σ} (hL : L.Sound) (script : List Accept) :
    (L.handleAccept script).Sound := by
  induction script generalizing L with
  | nil => exact hL
  | cons a script ih =>
      cases a with
      | client fd => exact ih (hL.addConnection fd)
      | eintr => exact ih hL
      | eagain => exact hL
      | error => exact hL

/-- The step lemma. -/
theorem Sound.handle (P : Platform) (dispatch : Dispatch σ) {L L' : EventLoop σ} (hL : L.Sound)
    {call : Call} (h : L.handle P dispatch call = some (.ok L')) : L'.Sound := by
  cases hL.handled P dispatch h with
  | accept script => exact hL.handleAccept script
  | absent _ fd about missing => exact hL
  | removed fd c _ live before store dropped => exact hL.dropped dropped live.sent_front
  | readDropped fd script c c' _ live before event dropped =>
      exact hL.dropped dropped (event.sent_front live)
  | readKept fd script c c' _ live before event kept => exact hL.kept kept event.live
  | writeDropped fd script c c' _ before store log sent error dropped =>
      exact hL.dropped dropped sent
  | writeKept fd script c c' _ before store live log unread kept => exact hL.kept kept live

/-! ## Runs -/

/-- Nothing is reaped, so a turn of the loop is its handler calls. -/
theorem turn_eq (P : Platform) (dispatch : Dispatch σ) {L : EventLoop σ} (hL : L.Sound)
    (events : List Ready) : L.turn P dispatch events = L.pollOnce P dispatch events := by
  rw [turn]
  cases hpoll : L.pollOnce P dispatch events with
  | none => rfl
  | some r =>
      cases r with
      | error e => rfl
      | ok L' =>
          have hL' : L'.Sound :=
            runAll_inv (I := fun _ L => L.Sound) (fun _ _ _ _ h hstep => h.handle P dispatch hstep)
              hL hpoll
          have hreap : L'.reapClosed = L' :=
            reapClosed_eq fun fd c hfd => (hL'.live fd c hfd).isOpen
          simp only [Option.map_some, Except.map, hreap]

theorem Sound.turn (P : Platform) (dispatch : Dispatch σ) {L L' : EventLoop σ} (hL : L.Sound)
    {events : List Ready} (h : L.turn P dispatch events = some (.ok L')) : L'.Sound := by
  rw [turn_eq P dispatch hL] at h
  exact runAll_inv (I := fun _ L => L.Sound) (fun _ _ _ _ hs hstep => hs.handle P dispatch hstep)
    hL h

/-- The run lemma: every state of every run is sound. -/
theorem Sound.run (P : Platform) (dispatch : Dispatch σ) {L L' : EventLoop σ} (hL : L.Sound)
    {polls : List (List Ready)} (h : L.run P dispatch polls = some (.ok L')) : L'.Sound :=
  runAll_inv (I := fun _ L => L.Sound) (fun _ _ _ _ hs hstep => hs.turn P dispatch hstep) hL h

/-- The handler calls of a run, in order. -/
def callsOf (polls : List (List Ready)) : List Call := polls.flatten.flatMap calls

/-- **A run is the sequence of its handler calls.** -/
theorem run_eq (P : Platform) (dispatch : Dispatch σ) {L : EventLoop σ} (hL : L.Sound)
    (polls : List (List Ready)) :
    L.run P dispatch polls = runAll (handle P dispatch) L (callsOf polls) := by
  induction polls generalizing L with
  | nil => rfl
  | cons events polls ih =>
      have hcalls : callsOf (events :: polls) = events.flatMap calls ++ callsOf polls := by
        rw [callsOf, List.flatten_cons, List.flatMap_append, callsOf]
      have hturn : runAll (handle P dispatch) L (events.flatMap calls) =
          L.pollOnce P dispatch events := rfl
      rw [hcalls, runAll_append, hturn, run, runAll, turn_eq P dispatch hL]
      cases hpoll : L.pollOnce P dispatch events with
      | none => rfl
      | some r =>
          cases r with
          | error e => rfl
          | ok L' =>
              have hstep : L.turn P dispatch events = some (.ok L') := by
                rw [turn_eq P dispatch hL, hpoll]
              exact ih (hL.turn P dispatch hstep)

/-! ## The store -/

theorem store_handleAccept (L : EventLoop σ) (script : List Accept) :
    (L.handleAccept script).store = L.store := by
  induction script generalizing L with
  | nil => rfl
  | cons a script ih =>
      cases a with
      | eintr => exact ih L
      | eagain => rfl
      | error => rfl
      | client fd =>
          rw [handleAccept, ih]
          unfold addConnection
          split <;> rfl

/-- A handler serves some requests, one after the other. -/
theorem Handled.store {P : Platform} {dispatch : Dispatch σ} {L L' : EventLoop σ} {call : Call}
    (h : Handled P dispatch L call L') : ∃ vs, L'.store = (Conn.serve dispatch vs L.store).2 := by
  cases h with
  | accept script => exact ⟨[], store_handleAccept L script⟩
  | absent _ fd about missing => exact ⟨[], rfl⟩
  | removed fd c _ live before store dropped => exact ⟨[], store⟩
  | readDropped fd script c c' _ live before event dropped => exact event.store
  | readKept fd script c c' _ live before event kept => exact event.store
  | writeDropped fd script c c' _ before store log sent error dropped => exact ⟨[], store⟩
  | writeKept fd script c c' _ before store live log unread kept => exact ⟨[], store⟩

/-- **The connections take turns**: whatever the events were, the store is the
one that serving some sequence of requests leaves behind. -/
theorem store_run (P : Platform) (dispatch : Dispatch σ) {L L' : EventLoop σ} (hL : L.Sound)
    {polls : List (List Ready)} (h : L.run P dispatch polls = some (.ok L')) :
    ∃ vs, L'.store = (Conn.serve dispatch vs L.store).2 := by
  rw [run_eq P dispatch hL] at h
  have hinv := runAll_inv
    (I := fun _ M => M.Sound ∧ ∃ vs, M.store = (Conn.serve dispatch vs L.store).2) ?_
    ⟨hL, [], rfl⟩ h
  · exact hinv.2
  · rintro call calls M M' ⟨hM, vs, hvs⟩ hstep
    obtain ⟨ws, hws⟩ := (hM.handled P dispatch hstep).store
    refine ⟨hM.handle P dispatch hstep, vs ++ ws, ?_⟩
    rw [hws, hvs, Conn.serve_append]

end EventLoop

end RedisCache.Network
