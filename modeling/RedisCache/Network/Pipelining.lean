import Mathlib
import RedisCache.Network.Processing
import RedisCache.Commands.Dispatcher

/-!
# Pipelining and fragmentation are invisible

A client sends whole requests and perhaps the beginning of one more. TCP
cuts the stream anywhere — inside a length header, between CR and LF, inside
a payload — and every chunk is one `on_readable`, with flushes of the
output in between. The connection serves the same requests with the same
replies, and keeps exactly the unfinished rest.

The invariant between two events is that `in_buf_` holds a `Remnant`: nothing,
or one request cut short. `split_stream` finds where the next chunk ends,
`scan_stream` what the command loop finds in it.
-/

namespace RedisCache.Network

open Framing Protocol Storage Sections

namespace Conn

variable {σ : Type}

/-- What the event loop reports about one connection. -/
inductive Event where
  | readable (script : List Recv)
  | writable (script : List Send)

/-- The bytes an event brings. -/
def Event.bytes : Event → Bytes
  | .readable script => received script
  | .writable _ => []

/-- The socket works: data end in `EAGAIN`, and `send` does not fail. -/
def Event.Healthy : Event → Prop
  | .readable script => drained script = true
  | .writable script => .error ∉ script

def step (P : Platform) (dispatch : Dispatch σ) (c : Conn σ) :
    Event → Option (Except Exn (Conn σ))
  | .readable script => (c.onReadable P dispatch script).map fun r => r.map Prod.snd
  | .writable script => (c.onWritable script).map fun r => .ok r.2

/-- One event after the other, until an exception. -/
def runEvents (P : Platform) (dispatch : Dispatch σ) :
    Conn σ → List Event → Option (Except Exn (Conn σ))
  | c, [] => some (.ok c)
  | c, e :: es =>
      match c.step P dispatch e with
      | some (.ok c') => runEvents P dispatch c' es
      | r => r

/-- Within the buffers' limit: unread input leaves the 4096 bytes that are
asked for before every `recv`, and the replies of a batch go behind those
still pending. -/
def Fits (P : Platform) (dispatch : Dispatch σ) (c : Conn σ) : Event → Prop
  | .readable script =>
      c.inBuf.readable.length + (received script).length + 4096 ≤ Buffer.maxCap ∧
      c.outBuf.readable.length + (serve dispatch
        (scan (verdict P) (c.inBuf.readable ++ received script)).1 c.store).1.length ≤
          Buffer.maxCap
  | .writable _ => True

def Roomy (P : Platform) (dispatch : Dispatch σ) : Conn σ → List Event → Prop
  | _, [] => True
  | c, e :: es =>
      c.Fits P dispatch e ∧ ∀ c', c.step P dispatch e = some (.ok c') → Roomy P dispatch c' es

/-- Every connection a server has is well formed. -/
theorem runEvents_wf (P : Platform) (dispatch : Dispatch σ) (events : List Event) {c c' : Conn σ}
    (h : c.Wf) (hrun : c.runEvents P dispatch events = some (.ok c')) : c'.Wf := by
  induction events generalizing c with
  | nil =>
      cases hrun
      exact h
  | cons e es ih =>
      rw [runEvents] at hrun
      split at hrun
      · rename_i c'' hstep
        refine ih ?_ hrun
        cases e with
        | readable script =>
            obtain ⟨r, hr, hok⟩ := Option.map_eq_some_iff.mp hstep
            cases r with
            | error e => cases hok
            | ok x =>
                cases hok
                exact onReadable_wf P dispatch h hr
        | writable script =>
            obtain ⟨r, hr, hok⟩ := Option.map_eq_some_iff.mp hstep
            cases hok
            exact onWritable_wf h hr
      · rename_i hno
        exact absurd hrun (hno c')

/-! ## One event -/

theorem serve_append (dispatch : Dispatch σ) (vs ws : List RespValue) (s : σ) :
    serve dispatch (vs ++ ws) s =
      ((serve dispatch vs s).1 ++ (serve dispatch ws (serve dispatch vs s).2).1,
        (serve dispatch ws (serve dispatch vs s).2).2) := by
  induction vs generalizing s with
  | nil => rfl
  | cons v vs ih => simp only [List.cons_append, serve, ih, List.append_assoc]

/-- A chunk that ends inside a request, after the requests `vs`. -/
theorem step_readable (P : Platform) (dispatch : Dispatch σ) {c : Conn σ} (h : c.Wf)
    (hopen : c.closed = false) {script : List Recv} (hd : drained script = true)
    {vs : List Resp} (hvs : ∀ v ∈ vs, v.Fits P) {r : Bytes}
    (hr : Remnant (Resp.Fits P) Resp.encode r)
    (hbytes : c.inBuf.readable ++ received script = vs.flatMap Resp.encode ++ r)
    (hroom : c.Fits P dispatch (.readable script)) :
    ∃ c', c.step P dispatch (.readable script) = some (.ok c') ∧ c'.Wf ∧ c'.closed = false ∧
      c'.store = (serve dispatch (vs.map Resp.toValue) c.store).2 ∧ c'.inBuf.readable = r ∧
      c'.sent ++ c'.outBuf.readable =
        c.sent ++ c.outBuf.readable ++ (serve dispatch (vs.map Resp.toValue) c.store).1 := by
  obtain ⟨hin, hout⟩ := hroom
  rcases onReadable_cases P dispatch h script with
    ⟨hover, -⟩ | ⟨-, hgone, -⟩ | ⟨-, -, buf, res, hbuf, hread, hproc, hrun⟩
  · omega
  · rw [hd] at hgone
    cases hgone
  · have hlen : (vs.flatMap Resp.encode ++ r).length < sizeLimit := by
      rw [← hbytes, List.length_append]
      exact lt_of_lt_of_le (by omega) (show Buffer.maxCap ≤ sizeLimit by decide)
    have hscan := (verdict_code P).scan_stream (verdict_progress P) hvs hr hlen
    rw [hbytes, hscan] at hout
    simp only [Processed, hread, hbytes, hscan, List.nil_append] at hproc
    obtain ⟨inBuf, outBuf, hwin, hwout, hrest, hreply, rfl⟩ := hproc.queued hout
    refine ⟨_, by rw [step, hrun]; rfl, ⟨hwin, hwout⟩, ?_, rfl, hrest, ?_⟩
    · simp [hopen]
    · simp only [hreply, List.append_assoc]

/-- A flush moves pending replies to the peer and touches nothing else. -/
theorem step_writable (P : Platform) (dispatch : Dispatch σ) {c : Conn σ} (h : c.Wf)
    (hopen : c.closed = false) {script : List Send} (hok : .error ∉ script) :
    ∃ c', c.step P dispatch (.writable script) = some (.ok c') ∧ c'.Wf ∧ c'.closed = false ∧
      c'.store = c.store ∧ c'.inBuf = c.inBuf ∧
      c'.sent ++ c'.outBuf.readable = c.sent ++ c.outBuf.readable := by
  obtain ⟨⟨b, c'⟩, hrun, ⟨buf, taken, hbuf, hread, hc'⟩, herr⟩ := onWritable_spec h script
  have hb : b = true := by
    cases b with
    | true => rfl
    | false => exact absurd (herr rfl) hok
  subst hb
  simp only [Bool.not_true, Bool.or_false] at hc'
  subst hc'
  refine ⟨{ c with outBuf := buf, sent := c.sent ++ taken }, by rw [step, hrun]; rfl,
    ⟨h.inBuf, hbuf⟩, hopen, rfl, rfl, ?_⟩
  simp only [hread, List.append_assoc]

/-! ## Whole streams -/

/-- Between two messages nothing is left to find. -/
theorem no_request_in_remnant (P : Platform) {vs : List Resp} (hvs : ∀ v ∈ vs, v.Fits P)
    {r p : Bytes} (hr : Remnant (Resp.Fits P) Resp.encode r)
    (hp : Remnant (Resp.Fits P) Resp.encode p) (hlen : r.length < sizeLimit)
    (h : r = vs.flatMap Resp.encode ++ p) : vs = [] ∧ r = p := by
  have hnone := (verdict_code P).scan_remnant (verdict_progress P) hr hlen
  have hall := (verdict_code P).scan_stream (verdict_progress P) hvs hp (h ▸ hlen)
  rw [← h, hnone] at hall
  simp only [Prod.mk.injEq, and_true] at hall
  exact ⟨List.map_eq_nil_iff.mp hall.1.symm, hall.2⟩

/-- A front part of a remnant is a remnant. -/
theorem remnant_of_front {P : Platform} {r p : Bytes} (h : r <+: p)
    (hp : Remnant (Resp.Fits P) Resp.encode p) : Remnant (Resp.Fits P) Resp.encode r := by
  rcases hp with rfl | ⟨v, hv, hcut⟩
  · exact Or.inl (List.prefix_nil.mp h)
  · refine Or.inr ⟨v, hv, h.trans hcut.1, ?_⟩
    rintro rfl
    exact absurd h.length_le (by have := hcut.length_lt; omega)

/-- A chunk of a stream ends inside one of the requests, or in the rest. -/
theorem chunk_of_stream {P : Platform} {vs : List Resp} (hvs : ∀ v ∈ vs, v.Fits P) {p q : Bytes}
    (hp : Remnant (Resp.Fits P) Resp.encode p) (h : q <+: vs.flatMap Resp.encode ++ p) :
    ∃ vs₁ vs₂ r, vs = vs₁ ++ vs₂ ∧ q = vs₁.flatMap Resp.encode ++ r ∧
      Remnant (Resp.Fits P) Resp.encode r := by
  obtain ⟨vs₁, vs₂, r, rfl, hq, hr⟩ := split_stream Resp.encode vs p h
  refine ⟨vs₁, vs₂, r, rfl, hq, ?_⟩
  rcases hr with ⟨-, hfront⟩ | ⟨v, vs', rfl, hcut⟩
  · exact remnant_of_front hfront hp
  · exact Or.inr ⟨v, hvs v (by simp), hcut⟩

/-- The run lemma: from a remnant in `in_buf_`, events whose bytes complete it
to the requests `vs` and the rest `p`. -/
theorem run_stream (P : Platform) (dispatch : Dispatch σ) {p : Bytes}
    (hp : Remnant (Resp.Fits P) Resp.encode p) (events : List Event) {c : Conn σ} (h : c.Wf)
    (hopen : c.closed = false) (hrem : Remnant (Resp.Fits P) Resp.encode c.inBuf.readable)
    (hhealthy : ∀ e ∈ events, e.Healthy) {vs : List Resp} (hvs : ∀ v ∈ vs, v.Fits P)
    (hbytes : c.inBuf.readable ++ events.flatMap Event.bytes = vs.flatMap Resp.encode ++ p)
    (hroom : Roomy P dispatch c events) :
    ∃ c', c.runEvents P dispatch events = some (.ok c') ∧ c'.closed = false ∧
      c'.store = (serve dispatch (vs.map Resp.toValue) c.store).2 ∧ c'.inBuf.readable = p ∧
      c'.sent ++ c'.outBuf.readable =
        c.sent ++ c.outBuf.readable ++ (serve dispatch (vs.map Resp.toValue) c.store).1 := by
  induction events generalizing c vs with
  | nil =>
      rw [List.flatMap_nil, List.append_nil] at hbytes
      have hlen : c.inBuf.readable.length < sizeLimit :=
        lt_of_le_of_lt h.inBuf.readable_le (by decide)
      obtain ⟨rfl, hrest⟩ := no_request_in_remnant P hvs hrem hp hlen hbytes
      exact ⟨c, rfl, hopen, rfl, hrest, by simp [serve]⟩
  | cons e es ih =>
      obtain ⟨hfits, hnext⟩ := hroom
      have hhealthy' : ∀ e ∈ es, e.Healthy := fun e he => hhealthy e (by simp [he])
      have he := hhealthy e (by simp)
      rw [List.flatMap_cons, ← List.append_assoc] at hbytes
      cases e with
      | writable script =>
          obtain ⟨c', hstep, hwf, hopen', hstore, hin, hout⟩ :=
            step_writable P dispatch h hopen he
          obtain ⟨c'', hrun, hres⟩ := ih hwf hopen' (hin ▸ hrem) hhealthy' hvs
            (by rw [hin]; simpa [Event.bytes] using hbytes) (hnext c' hstep)
          rw [hstore, hout] at hres
          exact ⟨c'', by rw [runEvents, hstep]; exact hrun, hres⟩
      | readable script =>
          obtain ⟨vs₁, vs₂, r, rfl, hq, hrem'⟩ :=
            chunk_of_stream hvs hp (hbytes ▸ List.prefix_append _ _)
          have hvs₁ : ∀ v ∈ vs₁, v.Fits P := fun v hv => hvs v (by simp [hv])
          have hvs₂ : ∀ v ∈ vs₂, v.Fits P := fun v hv => hvs v (by simp [hv])
          obtain ⟨c', hstep, hwf, hopen', hstore, hin, hout⟩ :=
            step_readable P dispatch h hopen he hvs₁ hrem' hq hfits
          have hbytes' : c'.inBuf.readable ++ es.flatMap Event.bytes =
              vs₂.flatMap Resp.encode ++ p := by
            rw [hin]
            rw [hq, List.flatMap_append, List.append_assoc, List.append_assoc] at hbytes
            exact List.append_cancel_left hbytes
          obtain ⟨c'', hrun, hopen'', hstore', hin', hout'⟩ :=
            ih hwf hopen' (hin ▸ hrem') hhealthy' hvs₂ hbytes' (hnext c' hstep)
          refine ⟨c'', by rw [runEvents, hstep]; exact hrun, hopen'', ?_, hin', ?_⟩
          · rw [hstore', hstore, List.map_append, serve_append]
          · rw [hout', hout, hstore, List.map_append, serve_append]
            simp only [List.append_assoc]

/-! ## The server's dispatcher -/

/-- The dispatcher over a store and the clock readings to come. -/
def dispatcher (P : Platform) (maxKeys : Nat) : Dispatch (World Index Shard) :=
  fun req w => (Commands.dispatch P maxKeys req).run w

/-- The same, keeping a list of the requests it was given. -/
def logged (dispatch : Dispatch σ) : Dispatch (σ × List RespValue) :=
  fun req s => ((dispatch req s.1).1, ((dispatch req s.1).2, s.2 ++ [req]))

theorem serve_logged (dispatch : Dispatch σ) (vs : List RespValue) (s : σ)
    (log : List RespValue) :
    serve (logged dispatch) vs (s, log) =
      ((serve dispatch vs s).1, ((serve dispatch vs s).2, log ++ vs)) := by
  induction vs generalizing s log with
  | nil => simp [serve]
  | cons v vs ih =>
      simp only [serve, logged] at ih ⊢
      rw [ih]
      simp

/-- **Pipelining and fragmentation are invisible.** However the encodings of
`vs` and the unfinished rest `p` are cut into chunks, on a new connection over
any store: the connection stays open, the dispatcher gets exactly `vs`, the
replies are those of serving `vs` one by one, so is the store, and `in_buf_`
holds exactly `p`. -/
theorem pipelining_invisible (P : Platform) (maxKeys : Nat) (w : World Index Shard)
    (vs : List Resp) (hvs : ∀ v ∈ vs, v.Fits P) (p : Bytes)
    (hp : Remnant (Resp.Fits P) Resp.encode p) (events : List Event)
    (hhealthy : ∀ e ∈ events, e.Healthy)
    (hbytes : events.flatMap Event.bytes = vs.flatMap Resp.encode ++ p)
    (hroom : Roomy P (logged (dispatcher P maxKeys)) { store := (w, []) } events) :
    ∃ c, runEvents P (logged (dispatcher P maxKeys)) { store := (w, []) } events =
        some (.ok c) ∧
      c.closed = false ∧ c.store.2 = vs.map Resp.toValue ∧
      c.sent ++ c.outBuf.readable =
        (serve (dispatcher P maxKeys) (vs.map Resp.toValue) w).1 ∧
      c.store.1 = (serve (dispatcher P maxKeys) (vs.map Resp.toValue) w).2 ∧
      c.inBuf.readable = p := by
  obtain ⟨c, hrun, hopen, hstore, hin, hout⟩ :=
    run_stream P (logged (dispatcher P maxKeys)) hp events (Wf.new (w, [])) rfl
      (Or.inl Buffer.readable_new) hhealthy hvs
      (by rw [Buffer.readable_new, List.nil_append, hbytes]) hroom
  rw [serve_logged] at hstore hout
  refine ⟨c, hrun, hopen, by rw [hstore, List.nil_append], ?_, by rw [hstore], hin⟩
  simpa only [Buffer.readable_new, List.nil_append] using hout

theorem ping_fits :
    ∀ v ∈ [Resp.array [.bulkString (ascii "PING")]], v.Fits .concrete := by
  intro v hv
  obtain rfl := List.mem_singleton.mp hv
  exact ⟨by decide, (by decide : (ascii "PING").length < 2 ^ 63), trivial⟩

/-- `PING` and the first bytes of another one, in two pieces with an interrupt
between them. -/
theorem pipelining_invisible_ping :
    ∃ c, runEvents .concrete (logged (dispatcher .concrete 4))
        { store := (⟨fun _ => 0, Store.empty⟩, []) }
        [.readable [.data 42 (ascii "1\r\n$4"), .eintr, .data 13 (ascii "\nPING\r\n*1")]] =
        some (.ok c) ∧
      c.closed = false ∧
      c.store.2 = [Resp.array [.bulkString (ascii "PING")]].map Resp.toValue ∧
      c.inBuf.readable = ascii "*1" := by
  obtain ⟨c, hrun, hopen, hlog, -, -, hin⟩ :=
    pipelining_invisible .concrete 4 ⟨fun _ => 0, Store.empty⟩
      [.array [.bulkString (ascii "PING")]]
      ping_fits
      (ascii "*1")
      (Or.inr ⟨.array [.nullBulk], ⟨by decide, trivial, trivial⟩, by decide, by decide⟩)
      [.readable [.data 42 (ascii "1\r\n$4"), .eintr, .data 13 (ascii "\nPING\r\n*1")]]
      (by
        intro e he
        obtain rfl := List.mem_singleton.mp he
        exact rfl)
      (by decide)
      (by
        refine ⟨⟨?_, ?_⟩, fun _ _ => trivial⟩
        · rw [Buffer.readable_new]
          decide
        · rw [Buffer.readable_new]
          decide)
  exact ⟨c, hrun, hopen, hlog, hin⟩

end Conn

end RedisCache.Network
