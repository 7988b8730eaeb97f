import Mathlib
import RedisCache.Network.Sessions
import RedisCache.Protocol.Extension

/-!
# How a connection ends

A connection among any number of others, followed from `accept` to its
removal. Its client sends whole requests `vs` and then `t`: nothing, or
bytes that the parser refuses.

`Reading` is the invariant between two events: some of `vs` have been
executed, the bytes read and those still to come are the rest of the
stream, and the command loop has found nothing more in `in_buf_`.

Two ways to end lose something. A protocol error drops the replies of its
batch, and its own reply is queued but never sent, because the loop destroys
the connection at once. An end of stream that is read together with data
drops the requests in those data.
-/

namespace RedisCache.Network

open Loop Framing Protocol Storage Sections

variable {σ : Type}

/-! ## Streams -/

/-- `t` holds no request, however much of it has come, and raises nothing. -/
def Barren (P : Platform) (t : Bytes) : Prop :=
  ∀ r, r <+: t → r.length < sizeLimit →
    ∃ stop, scan (verdict P) r = ([], r, stop) ∧ stop ≠ .raised

theorem Barren.nil (P : Platform) : Barren P [] := by
  intro r hr _
  obtain rfl := List.prefix_nil.mp hr
  exact ⟨.starved, rfl, by decide⟩

theorem Barren.malformed (P : Platform) {t : Bytes} (ht : verdict P t = .error)
    (hlt : t.length < sizeLimit) : Barren P t := by
  intro r hr hr'
  by_cases hnil : r = []
  · subst hnil
    exact ⟨.starved, rfl, by decide⟩
  · have hscan := scan_cons (verdict_progress P) hnil hr'
    rcases verdict_front P hr hlt ht with hwait | herr
    · simp only [hwait] at hscan
      exact ⟨.starved, hscan, by decide⟩
    · simp only [herr] at hscan
      exact ⟨.refused, hscan, by decide⟩

namespace Conn

/-- The connection is somewhere in the stream `vs` and `t`, with `todo` still
to come. -/
structure Reading (P : Platform) (vs : List Resp) (t todo : Bytes) (c : Conn Log) : Prop where
  cut : ∃ vs₁ vs₂, vs = vs₁ ++ vs₂ ∧ c.store.map Prod.fst = vs₁.map Resp.toValue ∧
    c.inBuf.readable ++ todo = vs₂.flatMap Resp.encode ++ t
  quiet : scan (verdict P) c.inBuf.readable = ([], c.inBuf.readable, .starved)

theorem Reading.new {P : Platform} {vs : List Resp} {t todo : Bytes}
    (h : todo = vs.flatMap Resp.encode ++ t) : Reading P vs t todo { store := [] } where
  cut := ⟨[], vs, rfl, rfl, by rw [Buffer.readable_new, List.nil_append, h]⟩
  quiet := by rw [Buffer.readable_new]; rfl

/-- All of `vs` has been executed and a front part of `t` has been refused. -/
def Refused (P : Platform) (vs : List Resp) (t : Bytes) (c : Conn Log) : Prop :=
  c.store.map Prod.fst = vs.map Resp.toValue ∧
    ∃ r, r <+: t ∧ (scan (verdict P) r).2.2 = .refused

/-- What the command loop finds when the next chunk has come: some more of
`vs`, and then a cut of the next one or a part of `t`. -/
theorem scan_chunk {P : Platform} {vs : List Resp} (hvs : ∀ v ∈ vs, v.Fits P) {t : Bytes}
    (ht : Barren P t) {q todo : Bytes} (hq : q ++ todo = vs.flatMap Resp.encode ++ t)
    (hlt : q.length < sizeLimit) :
    ∃ vs₁ vs₂ r stop, vs = vs₁ ++ vs₂ ∧ r ++ todo = vs₂.flatMap Resp.encode ++ t ∧
      scan (verdict P) q = (vs₁.map Resp.toValue, r, stop) ∧
      scan (verdict P) r = ([], r, stop) ∧ stop ≠ .raised ∧
      (stop = .refused → vs₂ = [] ∧ r <+: t) := by
  obtain ⟨vs₁, vs₂, r, rfl, rfl, hr⟩ := split_stream Resp.encode vs t ⟨todo, hq⟩
  have hrest : r ++ todo = vs₂.flatMap Resp.encode ++ t := by
    rw [List.flatMap_append, List.append_assoc, List.append_assoc] at hq
    exact List.append_cancel_left hq
  have hr' : r.length < sizeLimit := by
    rw [List.length_append] at hlt
    omega
  have hfound : ∃ stop, scan (verdict P) r = ([], r, stop) ∧ stop ≠ .raised ∧
      (stop = .refused → vs₂ = [] ∧ r <+: t) := by
    rcases hr with ⟨hnil, hfront⟩ | ⟨v, vs', rfl, hcut⟩
    · obtain ⟨stop, hscan, hstop⟩ := ht r hfront hr'
      exact ⟨stop, hscan, hstop, fun _ => ⟨hnil, hfront⟩⟩
    · have hrem : Remnant (Resp.Fits P) Resp.encode r := .inr ⟨v, hvs v (by simp), hcut⟩
      exact ⟨.starved, (verdict_code P).scan_remnant (verdict_progress P) hrem hr', by decide,
        fun hc => by cases hc⟩
  obtain ⟨stop, hscan, hstop, href⟩ := hfound
  refine ⟨vs₁, vs₂, r, stop, rfl, hrest, ?_, hscan, hstop, href⟩
  rw [(verdict_code P).scan_front (verdict_progress P) (fun v hv => hvs v (by simp [hv])) hlt,
    hscan, List.append_nil]

/-- The step lemma: with the next chunk the connection goes on reading, or
all of `vs` is executed and the rest refused. -/
theorem Reading.step {P : Platform} {dispatch : Dispatch σ} {vs : List Resp}
    (hvs : ∀ v ∈ vs, v.Fits P) {t : Bytes} (ht : Barren P t) {c c' : Conn Log} {s s' : σ}
    {script : List Recv} {todo : Bytes} (hd : drained script = true) {ok : Bool}
    (h : Reading P vs t (received script ++ todo) c)
    (hevent : c.ReadEvent P dispatch s script ok c' s') :
    if ok then Reading P vs t todo c' else Refused P vs t c' := by
  obtain ⟨⟨vs₁, vs₂, rfl, hlog, hbytes⟩, -⟩ := h
  rw [← List.append_assoc] at hbytes
  have hvs₂ : ∀ v ∈ vs₂, v.Fits P := fun v hv => hvs v (by simp [hv])
  cases hevent with
  | peerGone _ stop sent log =>
      rw [hd] at stop
      cases stop
  | refused ws rest _ stop fits found sent log =>
      -- the requests before `t` cannot be refused, so the reading has reached `t`
      obtain ⟨ws₁, ws₂, r, why, rfl, -, hscan, hrest, -, href⟩ :=
        scan_chunk hvs₂ ht hbytes fits
      rw [found] at hscan
      cases hscan
      obtain ⟨rfl, hfront⟩ := href rfl
      refine ⟨?_, rest, hfront, by rw [hrest]⟩
      rw [log, List.map_append, map_fst_exchanges, hlog, List.append_nil, List.map_append]
  | served ws rest _ stop fits found live unread log =>
      obtain ⟨ws₁, ws₂, r, why, rfl, htodo, hscan, hrest, -, -⟩ :=
        scan_chunk hvs₂ ht hbytes fits
      rw [found] at hscan
      cases hscan
      refine ⟨⟨vs₁ ++ ws₁, ws₂, by rw [List.append_assoc], ?_, by rw [unread, htodo]⟩,
        by rw [unread, hrest]⟩
      rw [log, List.map_append, map_fst_exchanges, hlog, List.map_append]

/-- At the end of the stream nothing is left unexecuted. -/
theorem Reading.done {P : Platform} {vs : List Resp} (hvs : ∀ v ∈ vs, v.Fits P) {t : Bytes}
    {c : Conn Log} (hwf : c.Wf) (h : Reading P vs t [] c) :
    c.store.map Prod.fst = vs.map Resp.toValue ∧ scan (verdict P) t = ([], t, .starved) := by
  obtain ⟨⟨vs₁, vs₂, rfl, hlog, hbytes⟩, hquiet⟩ := h
  rw [List.append_nil] at hbytes
  have hlt : c.inBuf.readable.length < sizeLimit :=
    lt_of_le_of_lt hwf.inBuf.readable_le (by decide)
  rw [hbytes] at hquiet hlt
  rw [(verdict_code P).scan_front (verdict_progress P) (fun v hv => hvs v (by simp [hv])) hlt]
    at hquiet
  obtain ⟨hnone, hrest⟩ := Prod.mk.inj hquiet
  obtain ⟨hnil, hnothing⟩ := List.append_eq_nil_iff.mp hnone
  obtain rfl := List.map_eq_nil_iff.mp hnil
  rw [List.append_nil, hlog, List.flatMap_nil, List.nil_append] at *
  exact ⟨rfl, Prod.ext hnothing hrest⟩

end Conn

namespace EventLoop

/-! ## One connection among many -/

/-- Bytes that come for the connection at `fd`. -/
def Call.bytes (fd : Nat) : Call → Bytes
  | .readable fd' script => if fd' = fd then Conn.received script else []
  | _ => []

/-- The bytes a run brings for the connection at `fd`. -/
def arrived (fd : Nat) (polls : List (List Ready)) : Bytes :=
  (callsOf polls).flatMap (Call.bytes fd)

/-- The socket at `fd` works: no hang-up, data end in `EAGAIN`, `send` does not
fail. -/
def Call.Healthy (fd : Nat) : Call → Prop
  | .accept _ => True
  | .remove fd' => fd' ≠ fd
  | .readable fd' script => fd' = fd → Conn.drained script = true
  | .writable fd' script => fd' = fd → .error ∉ script

def Healthy (fd : Nat) (polls : List (List Ready)) : Prop :=
  ∀ call ∈ callsOf polls, call.Healthy fd

theorem lookup_handleAccept {L : EventLoop σ} {fd : Nat} {c : Conn Log}
    (h : L.connections.lookup fd = some c) (script : List Accept) :
    (L.handleAccept script).connections.lookup fd = some c := by
  induction script generalizing L with
  | nil => exact h
  | cons a script ih =>
      cases a with
      | eintr => exact ih h
      | eagain => exact h
      | error => exact h
      | client fd' =>
          refine ih ?_
          by_cases hfd : fd = fd'
          · subst hfd
            simp only [addConnection, h]
          · rw [lookup_addConnection_ne L hfd, h]

theorem gone_handleAccept (L : EventLoop σ) (script : List Accept) :
    (L.handleAccept script).gone = L.gone := by
  induction script generalizing L with
  | nil => rfl
  | cons a script ih =>
      cases a with
      | eintr => exact ih L
      | eagain => rfl
      | error => rfl
      | client fd =>
          rw [handleAccept, ih]
          unfold addConnection
          split <;> rfl

theorem Dropped.gone_prefix {L L' : EventLoop σ} {fd : Nat} {c : Conn Log}
    (h : Dropped fd c L L') : L.gone <+: L'.gone := by
  rw [h.gone]
  exact List.prefix_append _ _

theorem Kept.gone_prefix {L L' : EventLoop σ} {fd : Nat} {c : Conn Log} (h : Kept fd c L L') :
    L.gone <+: L'.gone := by
  rw [h.gone]

/-- What a call does to the connections: it accepts, or it changes the one it is
about and nothing that is gone. -/
theorem Handled.connections {P : Platform} {dispatch : Dispatch σ} {L L' : EventLoop σ}
    {call : Call} (h : Handled P dispatch L call L') :
    (∃ script, L' = L.handleAccept script) ∨ L' = L ∨
      ∃ fd, call.about = some fd ∧ OnlyAt fd L L' ∧ L.gone <+: L'.gone := by
  cases h with
  | accept script => exact .inl ⟨script, rfl⟩
  | absent _ fd about missing => exact .inr (.inl rfl)
  | removed fd c _ live before store dropped =>
      exact .inr (.inr ⟨fd, rfl, dropped.only, dropped.gone_prefix⟩)
  | readDropped fd script c c' _ live before event dropped =>
      exact .inr (.inr ⟨fd, rfl, dropped.only, dropped.gone_prefix⟩)
  | readKept fd script c c' _ live before event kept =>
      exact .inr (.inr ⟨fd, rfl, kept.only, kept.gone_prefix⟩)
  | writeDropped fd script c c' _ before store log sent error dropped =>
      exact .inr (.inr ⟨fd, rfl, dropped.only, dropped.gone_prefix⟩)
  | writeKept fd script c c' _ before store live log unread kept =>
      exact .inr (.inr ⟨fd, rfl, kept.only, kept.gone_prefix⟩)

/-- What is gone stays gone. -/
theorem Handled.gone {P : Platform} {dispatch : Dispatch σ} {L L' : EventLoop σ} {call : Call}
    (h : Handled P dispatch L call L') : L.gone <+: L'.gone := by
  rcases h.connections with ⟨script, rfl⟩ | rfl | ⟨fd, -, -, hgone⟩
  · rw [gone_handleAccept]
  · exact List.prefix_rfl
  · exact hgone

/-- A call about another descriptor leaves a connection as it is. -/
theorem Handled.other {P : Platform} {dispatch : Dispatch σ} {L L' : EventLoop σ} {call : Call}
    (h : Handled P dispatch L call L') {fd : Nat} {c : Conn Log}
    (hc : L.connections.lookup fd = some c) (hne : call.about ≠ some fd) :
    L'.connections.lookup fd = some c := by
  rcases h.connections with ⟨script, rfl⟩ | rfl | ⟨fd', habout, honly, -⟩
  · exact lookup_handleAccept hc script
  · exact hc
  · have hfd : fd ≠ fd' := by
      rintro rfl
      exact hne habout
    rw [honly.lookup fd hfd, hc]

/-- Where the connection at `fd` is: still reading, or gone with all of `vs`
executed. -/
def Followed (P : Platform) (fd : Nat) (vs : List Resp) (t todo : Bytes) (L : EventLoop σ) :
    Prop :=
  (∃ c, L.connections.lookup fd = some c ∧ c.Reading P vs t todo) ∨
    ∃ c, (fd, c) ∈ L.gone ∧ c.Refused P vs t

/-- The step lemma, on the whole loop. -/
theorem Followed.step {P : Platform} {dispatch : Dispatch σ} {fd : Nat} {vs : List Resp}
    (hvs : ∀ v ∈ vs, v.Fits P) {t : Bytes} (ht : Barren P t) {L L' : EventLoop σ} {call : Call}
    {todo : Bytes} (h : Followed P fd vs t (call.bytes fd ++ todo) L) (hcall : call.Healthy fd)
    (hstep : Handled P dispatch L call L') : Followed P fd vs t todo L' := by
  rcases h with ⟨c, hc, hreading⟩ | ⟨c, hgone, href⟩
  swap
  · exact .inr ⟨c, hstep.gone.subset hgone, href⟩
  by_cases habout : call.about = some fd
  · cases hstep with
    | accept script => cases habout
    | absent _ fd' about missing =>
        rw [habout] at about
        cases about
        rw [hc] at missing
        cases missing
    | removed fd' c₁ _ live before store dropped =>
        cases habout
        exact absurd rfl hcall
    | readDropped fd' script c₁ c' _ live before event dropped =>
        cases habout
        rw [hc] at before
        cases before
        rw [Call.bytes, if_pos rfl] at hreading
        have href := Conn.Reading.step hvs ht (hcall rfl) hreading event
        exact .inr ⟨c', by simp [dropped.gone], href⟩
    | readKept fd' script c₁ c' _ live before event kept =>
        cases habout
        rw [hc] at before
        cases before
        rw [Call.bytes, if_pos rfl] at hreading
        have hnext := Conn.Reading.step hvs ht (hcall rfl) hreading event
        exact .inl ⟨c', kept.lookup, hnext⟩
    | writeDropped fd' script c₁ c' _ before store log sent error dropped =>
        cases habout
        exact absurd error (hcall rfl)
    | writeKept fd' script c₁ c' _ before store live log unread kept =>
        cases habout
        rw [hc] at before
        cases before
        refine .inl ⟨c', kept.lookup, ?_⟩
        obtain ⟨hcut, hquiet⟩ := hreading
        rw [← log, ← unread] at hcut
        rw [← unread] at hquiet
        exact ⟨hcut, hquiet⟩
  · -- another connection's turn brings this one no bytes
    have hbytes : call.bytes fd = [] := by
      cases call with
      | readable fd' script => exact if_neg fun heq => habout (by rw [heq]; rfl)
      | accept script => rfl
      | remove fd' => rfl
      | writable fd' script => rfl
    rw [hbytes, List.nil_append] at hreading
    exact .inl ⟨c, hstep.other hc habout, hreading⟩

/-- The run lemma: a new connection, followed through healthy events that
bring `vs`, then `t`, up to `rest`. -/
theorem follow {P : Platform} {dispatch : Dispatch σ} {fd : Nat} {vs : List Resp}
    (hvs : ∀ v ∈ vs, v.Fits P) {t : Bytes} (ht : Barren P t) {L L' : EventLoop σ} (hL : L.Sound)
    (hfd : L.connections.lookup fd = some { store := [] }) {polls : List (List Ready)}
    (hhealthy : Healthy fd polls) {rest : Bytes}
    (hbytes : arrived fd polls ++ rest = vs.flatMap Resp.encode ++ t)
    (hrun : L.run P dispatch polls = some (.ok L')) : Followed P fd vs t rest L' := by
  rw [run_eq P dispatch hL] at hrun
  have hfollow := runAll_inv
    (I := fun calls L => L.Sound ∧ (∀ call ∈ calls, call.Healthy fd) ∧
      Followed P fd vs t (calls.flatMap (Call.bytes fd) ++ rest) L)
    ?_ ⟨hL, hhealthy, .inl ⟨_, hfd, .new hbytes⟩⟩ hrun
  · exact hfollow.2.2
  · rintro call calls M M' ⟨hM, hcalls, hM'⟩ hstep
    rw [List.flatMap_cons, List.append_assoc] at hM'
    exact ⟨hM.handle P dispatch hstep, fun call' h => hcalls call' (by simp [h]),
      hM'.step hvs ht (hcalls call (by simp)) (hM.handled P dispatch hstep)⟩

/-! ## A protocol error -/

/-- **No reply to a protocol error is ever sent.** In any run of the server
from its start, with any other connections, let a connection that has just
been accepted get whole requests `vs` and then bytes `bad` that `parse`
refuses, in whatever pieces, while its socket works. Then it is destroyed
with all of `vs` executed; and what any destroyed connection's socket has
taken is a front part of the replies to the requests it executed, never
those replies followed by the protocol-error reply. -/
theorem protocol_error_never_sent (P : Platform) (maxKeys : Nat) (w : World Index Shard)
    (before polls : List (List Ready)) (L L' : EventLoop (World Index Shard))
    (hbefore : EventLoop.run P (Conn.dispatcher P maxKeys) { store := w } before = some (.ok L))
    (fd : Nat) (hfd : L.connections.lookup fd = some { store := [] })
    (vs : List Resp) (hvs : ∀ v ∈ vs, v.Fits P) (bad : Bytes) (hlt : bad.length < sizeLimit)
    (hbad : ∃ r, parse P bad = .ok r ∧ r.status = .error) (hhealthy : Healthy fd polls)
    (hbytes : arrived fd polls = vs.flatMap Resp.encode ++ bad)
    (hrun : L.run P (Conn.dispatcher P maxKeys) polls = some (.ok L')) :
    (∃ c, (fd, c) ∈ L'.gone ∧ c.store.map Prod.fst = vs.map Resp.toValue) ∧
      ∀ fd' c, (fd', c) ∈ L'.gone → c.sent <+: replies c.store ∧
        c.sent ≠ replies c.store ++ Conn.protocolError := by
  have hL : L.Sound := (Sound.start w).run P _ hbefore
  have hverdict : verdict P bad = .error := by
    obtain ⟨r, hr, hstatus⟩ := hbad
    simp only [verdict, hr, hstatus]
  constructor
  · rcases follow hvs (.malformed P hverdict hlt) hL hfd hhealthy
      (by rw [hbytes, List.append_nil]) hrun with ⟨c, hc, hreading⟩ | ⟨c, hgone, href, -⟩
    · -- still open, it would hold all of `bad` and find nothing wrong with it
      have hscan := (hreading.done hvs ((hL.run P _ hrun).live fd c hc).wf).2
      have hne : bad ≠ [] := by
        rintro rfl
        cases hverdict
      rw [scan_cons (verdict_progress P) hne hlt, hverdict] at hscan
      cases hscan
    · exact ⟨c, hgone, href⟩
  · intro fd' c hgone
    -- `remove_connection` comes before any flush, so the error reply is never sent
    have hfront : c.sent <+: replies c.store := (hL.run P _ hrun).gone _ hgone
    refine ⟨hfront, fun hall => ?_⟩
    have hlen := hfront.length_le
    rw [hall, List.length_append] at hlen
    have hpos : 0 < Conn.protocolError.length := by decide
    omega

/-- One `PING` and a byte that no value starts with, in one piece. -/
theorem protocol_error_never_sent_ping :
    ∃ L' : EventLoop (World Index Shard), ∃ c, (5, c) ∈ L'.gone ∧
      c.store.map Prod.fst = [Resp.array [.bulkString (ascii "PING")]].map Resp.toValue ∧
      c.sent ≠ replies c.store ++ Conn.protocolError := by
  obtain ⟨L, hbefore⟩ := exists_ok (r := EventLoop.run .concrete (Conn.dispatcher .concrete 4)
    { store := (⟨fun _ => 0, Store.empty⟩ : World Index Shard) } [[.listener [.client 5]]])
    (by decide +kernel)
  cases hbefore
  obtain ⟨L', hrun⟩ := exists_ok (r := EventLoop.run .concrete (Conn.dispatcher .concrete 4)
    (EventLoop.addConnection { store := (⟨fun _ => 0, Store.empty⟩ : World Index Shard) } 5
      { store := [] })
    [[.client 5 false (some [.data 42 (ascii "1\r\n$4\r\nPING\r\nx")]) none]])
    (by decide +kernel)
  obtain ⟨⟨c, hgone, hlog⟩, hall⟩ := protocol_error_never_sent .concrete 4
    ⟨fun _ => 0, Store.empty⟩ [[.listener [.client 5]]]
    [[.client 5 false (some [.data 42 (ascii "1\r\n$4\r\nPING\r\nx")]) none]] _ L' rfl 5 rfl
    [.array [.bulkString (ascii "PING")]]
    Conn.ping_fits
    (ascii "x") (by decide) ⟨_, rfl, rfl⟩
    (by
      intro call hcall
      obtain rfl := List.mem_singleton.mp hcall
      exact fun _ => rfl)
    (by decide) hrun
  exact ⟨L', c, hgone, hlog, (hall 5 c hgone).2⟩

/-- The reply to the `PING` is lost as well. -/
theorem protocol_error_loses_replies :
    ((EventLoop.run .concrete (Conn.dispatcher .concrete 4)
        { store := (⟨fun _ => 0, Store.empty⟩ : World Index Shard) }
        [[.listener [.client 5]],
          [.client 5 false (some [.data 42 (ascii "1\r\n$4\r\nPING\r\nx")]) none],
          [.client 5 false none (some [.took 100])]]).bind Except.toOption).map
      (fun L => L.gone.map fun x => (x.1, x.2.sent, replies x.2.store)) =
    some [(5, [], ascii "+PONG\r\n")] := by
  decide +kernel

/-! ## The end of the stream -/

/-- A connection that sees the end of the stream is destroyed as it was, with
whatever has just been read. -/
theorem eof_event (P : Platform) (dispatch : Dispatch σ) {L L' : EventLoop σ} (hL : L.Sound)
    {fd : Nat} {c : Conn Log} (hc : L.connections.lookup fd = some c) {last : List Conn.Recv}
    (hlast : Conn.drained last = false) {output : Option (List Conn.Send)}
    (h : L.turn P dispatch [.client fd false (some last) output] = some (.ok L')) :
    ∃ c', L'.gone = L.gone ++ [(fd, c')] ∧ c'.store = c.store := by
  rw [turn_eq P dispatch hL, pollOnce, List.flatMap_singleton, calls, Option.map_some,
    Option.toList_some, List.singleton_append] at h
  obtain ⟨L₁, hread, hrest⟩ := of_runAll_cons h
  have hread' := hL.handled P dispatch hread
  cases hread' with
  | absent _ fd' about missing =>
      cases about
      rw [hc] at missing
      cases missing
  | readKept _ _ c₁ c' _ live before event kept =>
      cases (event.of_gone hlast).1
  | readDropped _ _ c₁ c' _ live before event dropped =>
      rw [hc] at before
      cases before
      refine ⟨c', ?_, (event.of_gone hlast).2⟩
      -- an `EPOLLOUT` in the same event finds no connection any more
      have hsame : L' = L₁ := by
        cases output with
        | none =>
            cases hrest
            rfl
        | some script =>
            obtain ⟨L₂, hwrite, hend⟩ := of_runAll_cons hrest
            simp only [handle, handleWritable, dropped.lookup] at hwrite
            cases hwrite
            cases hend
            rfl
      rw [hsame, dropped.gone]

/-- **When the requests before an end of stream are executed.** In any run of
the server from its start, with any other connections, let a connection that
has just been accepted get whole requests `vs` in whatever pieces, the last
bytes of them in the event that also reports the end. It is destroyed with
every request of `vs` executed exactly once if and only if that event brings
no data (and no exception ended the server). -/
theorem eof_drops_nothing_iff (P : Platform) (maxKeys : Nat) (w : World Index Shard)
    (before polls : List (List Ready)) (L : EventLoop (World Index Shard))
    (hbefore : EventLoop.run P (Conn.dispatcher P maxKeys) { store := w } before = some (.ok L))
    (fd : Nat) (hfd : L.connections.lookup fd = some { store := [] })
    (vs : List Resp) (hvs : ∀ v ∈ vs, v.Fits P) (hhealthy : Healthy fd polls)
    (last : List Conn.Recv) (hlast : Conn.drained last = false)
    (output : Option (List Conn.Send))
    (hbytes : arrived fd polls ++ Conn.received last = vs.flatMap Resp.encode) :
    (∃ L' c, L.run P (Conn.dispatcher P maxKeys)
          (polls ++ [[.client fd false (some last) output]]) = some (.ok L') ∧
        L'.gone.getLast? = some (fd, c) ∧ c.store.map Prod.fst = vs.map Resp.toValue) ↔
      Conn.received last = [] ∧ ∃ L', L.run P (Conn.dispatcher P maxKeys)
        (polls ++ [[.client fd false (some last) output]]) = some (.ok L') := by
  have hL : L.Sound := (Sound.start w).run P _ hbefore
  -- before the last event the connection is somewhere in the stream
  have hreach : ∀ L', L.run P (Conn.dispatcher P maxKeys)
      (polls ++ [[.client fd false (some last) output]]) = some (.ok L') →
      ∃ c c' : Conn Log, c.Wf ∧ c.Reading P vs [] (Conn.received last) ∧
        L'.gone.getLast? = some (fd, c') ∧ c'.store = c.store := by
    intro L' hrun
    obtain ⟨L₁, hpolls, hend⟩ := of_runAll_append hrun
    obtain ⟨L₂, hturn, hnil⟩ := of_runAll_cons hend
    cases hnil
    rcases follow hvs (.nil P) hL hfd hhealthy (by rw [hbytes, List.append_nil]) hpolls with
      ⟨c, hc, hreading⟩ | ⟨c, -, -, r, hr, href⟩
    · have hL₁ : L₁.Sound := hL.run P _ hpolls
      obtain ⟨c', hgone, hlog⟩ := eof_event P _ hL₁ hc hlast hturn
      exact ⟨c, c', (hL₁.live fd c hc).wf, hreading, by rw [hgone, List.getLast?_concat], hlog⟩
    · obtain rfl := List.prefix_nil.mp hr
      cases href
  constructor
  · rintro ⟨L', c', hrun, hgone, hlog⟩
    refine ⟨?_, L', hrun⟩
    obtain ⟨c, c₁, -, ⟨⟨vs₁, vs₂, rfl, hexec, hrest⟩, -⟩, hgone₁, hlog₁⟩ := hreach L' hrun
    rw [hgone] at hgone₁
    cases hgone₁
    -- all of `vs` executed: none of it is unread
    rw [hlog₁, hexec, List.map_append, List.self_eq_append_right, List.map_eq_nil_iff] at hlog
    subst hlog
    rw [List.flatMap_nil, List.append_nil, List.append_eq_nil_iff] at hrest
    exact hrest.2
  · rintro ⟨hnone, L', hrun⟩
    obtain ⟨c, c', hwf, hreading, hgone, hlog⟩ := hreach L' hrun
    rw [hnone] at hreading
    exact ⟨L', c', hrun, hgone, by rw [hlog, (hreading.done hvs hwf).1]⟩

/-- One `PING`, and the end of the stream in an event of its own. -/
theorem eof_drops_nothing_ping :
    ∃ L' : EventLoop (World Index Shard), ∃ c, L'.gone.getLast? = some (5, c) ∧
      c.store.map Prod.fst = [Resp.array [.bulkString (ascii "PING")]].map Resp.toValue := by
  have hrun := exists_ok (r := EventLoop.run .concrete (Conn.dispatcher .concrete 4)
    (EventLoop.addConnection { store := (⟨fun _ => 0, Store.empty⟩ : World Index Shard) } 5
      { store := [] })
    ([[.client 5 false (some [.data 42 (ascii "1\r\n$4\r\nPING\r\n")]) none]] ++
      [[.client 5 false (some [.eof]) none]]))
    (by decide +kernel)
  obtain ⟨L', c, -, hgone, hlog⟩ := (eof_drops_nothing_iff .concrete 4
    ⟨fun _ => 0, Store.empty⟩ [[.listener [.client 5]]]
    [[.client 5 false (some [.data 42 (ascii "1\r\n$4\r\nPING\r\n")]) none]] _ rfl 5 rfl
    [.array [.bulkString (ascii "PING")]]
    Conn.ping_fits
    (by
      intro call hcall
      obtain rfl := List.mem_singleton.mp hcall
      exact fun _ => rfl)
    [.eof] rfl none (by decide)).mpr ⟨rfl, hrun⟩
  exact ⟨L', c, hgone, hlog⟩

/-- The same `PING` and the end of the stream in one event: it is read, and
never executed. -/
theorem eof_drops_ping :
    ((EventLoop.run .concrete (Conn.dispatcher .concrete 4)
        { store := (⟨fun _ => 0, Store.empty⟩ : World Index Shard) }
        [[.listener [.client 5]],
          [.client 5 false (some [.data 42 (ascii "1\r\n$4\r\nPING\r\n"), .eof]) none]]).bind
      Except.toOption).map
      (fun L => L.gone.map fun x => (x.1, x.2.inBuf.readable, x.2.store.length)) =
    some [(5, ascii "*1\r\n$4\r\nPING\r\n", 0)] := by
  decide +kernel

end EventLoop

end RedisCache.Network
