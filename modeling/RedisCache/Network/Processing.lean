import Mathlib
import RedisCache.Network.Connection
import RedisCache.Protocol.Bounds

/-!
# What one readiness event does

The loops of a connection, each as one statement over the BYTES in its
buffers:

* `readAll_spec` — the `recv` loop queues what arrived behind what was
  unread, or the buffer refuses;
* `processCommands_spec` — the command loop serves the requests that `scan`
  finds in the unread bytes and leaves the rest;
* `onWritable_spec` — `send` moves bytes from the front of `out_buf_` to the
  peer.

All three loops end. `Conn.Wf` (both buffers well formed) is kept.
-/

namespace RedisCache.Network

open Loop Framing Protocol

namespace Conn

variable {σ : Type}

structure Wf (c : Conn σ) : Prop where
  inBuf : c.inBuf.Wf
  outBuf : c.outBuf.Wf

theorem Wf.new (s : σ) : Wf ({ store := s } : Conn σ) := ⟨Buffer.Wf.new, Buffer.Wf.new⟩

/-! ## The `recv` loop -/

/-- The bytes that arrive before the script says stop. -/
def received : List Recv → Bytes
  | .data b bs :: rest => b :: bs ++ received rest
  | .eintr :: rest => received rest
  | [] | .eagain :: _ | .eof :: _ | .error :: _ => []

/-- Whether the stop is `EAGAIN`. -/
def drained : List Recv → Bool
  | .data _ _ :: rest => drained rest
  | .eintr :: rest => drained rest
  | [] | .eagain :: _ => true
  | .eof :: _ | .error :: _ => false

theorem received_leftover (bs : Bytes) (rest : List Recv) :
    received (leftover bs rest) = bs ++ received rest := by
  cases bs <;> rfl

theorem drained_leftover (bs : Bytes) (rest : List Recv) :
    drained (leftover bs rest) = drained rest := by
  cases bs <;> rfl

theorem scriptSize_leftover (bs : Bytes) (rest : List Recv) :
    scriptSize (leftover bs rest) ≤ bs.length + 1 + scriptSize rest := by
  cases bs with
  | nil => simp only [leftover, List.length_nil]; omega
  | cons b bs => simp only [leftover, scriptSize, List.length_cons]; omega

/-- What the loop has done when it leaves. Every turn asks for 4096 bytes of
room, the last one with everything queued already. -/
structure Read (c : Conn σ) (script : List Recv) (r : Except Exn (Bool × Conn σ)) : Prop where
  refused : Buffer.maxCap < c.inBuf.readable.length + (received script).length + 4096 →
    r = .error .bufferExceeded
  queued : c.inBuf.readable.length + (received script).length + 4096 ≤ Buffer.maxCap →
    ∃ buf : Buffer, buf.Wf ∧ buf.readable = c.inBuf.readable ++ received script ∧
      r = .ok (drained script, { c with inBuf := buf, closed := c.closed || !drained script })

/-- A turn that leaves: nothing more arrives, and there was room. -/
theorem Read.leave {c : Conn σ} {script : List Recv} {buf : Buffer} {d closed : Bool}
    (hbuf : buf.Wf) (hread : buf.readable = c.inBuf.readable)
    (hroom : c.inBuf.readable.length + 4096 ≤ Buffer.maxCap) (hnone : received script = [])
    (hd : drained script = d) (hclosed : closed = (c.closed || !d)) :
    Read c script (.ok (d, { c with inBuf := buf, closed := closed })) := by
  subst hd hclosed
  refine ⟨fun hover => ?_, fun _ => ⟨buf, hbuf, by rw [hnone, hread, List.append_nil], rfl⟩⟩
  rw [hnone, List.length_nil] at hover
  omega

/-- A turn that goes round: bytes move from the script to the buffer. -/
theorem Read.again {c : Conn σ} {script script' : List Recv} {buf : Buffer}
    {r : Except Exn (Bool × Conn σ)}
    (hbytes : buf.readable ++ received script' = c.inBuf.readable ++ received script)
    (hd : drained script' = drained script) (h : Read { c with inBuf := buf } script' r) :
    Read c script r := by
  obtain ⟨hrefused, hqueued⟩ := h
  have hlen := congrArg List.length hbytes
  rw [List.length_append, List.length_append] at hlen
  simp only [hlen, hbytes, hd] at hrefused hqueued
  exact ⟨hrefused, hqueued⟩

/-- The loop ends, having done that. -/
theorem readAll_spec {c : Conn σ} (h : c.Wf) (script : List Recv) :
    ∃ r, c.readAll script = some r ∧ Read c script r := by
  refine run_spec (I := fun x : Conn σ × List Recv => x.1.Wf) (m := fun x => scriptSize x.2)
    (Q := fun x => Read x.1 x.2) ?_ h (Nat.lt_succ_self _)
  rintro ⟨c, script⟩ (hwf : c.Wf)
  simp only [readTurn]
  rcases Buffer.ensureWritable_cases hwf.inBuf 4096 with
    ⟨buf, hbuf, hb, hread, hroom, hle⟩ | ⟨hfull, hover⟩
  · simp only [hbuf]
    cases script with
    | nil => exact Or.inl ⟨_, rfl, .leave hb hread hle rfl rfl (by simp)⟩
    | cons x rest =>
        cases x with
        | eagain => exact Or.inl ⟨_, rfl, .leave hb hread hle rfl rfl (by simp)⟩
        | eof => exact Or.inl ⟨_, rfl, .leave hb hread hle rfl rfl (by simp)⟩
        | error => exact Or.inl ⟨_, rfl, .leave hb hread hle rfl rfl (by simp)⟩
        | eintr =>
            refine Or.inr ⟨_, rfl, ⟨hb, hwf.outBuf⟩, ?_, fun r hr => .again ?_ ?_ hr⟩
            · simp only [scriptSize]
              omega
            · rw [hread, received]
            · rw [drained]
        | data b bs =>
            have hn : ((b :: bs).take buf.writableSize).length ≤ buf.writableSize := by
              rw [List.length_take]
              exact Nat.min_le_left _ _
            refine Or.inr ⟨_, rfl, ⟨hb.write hn, hwf.outBuf⟩, ?_, fun r hr => .again ?_ ?_ hr⟩
            · have := scriptSize_leftover ((b :: bs).drop buf.writableSize) rest
              simp only [scriptSize, List.length_drop, List.length_cons] at this ⊢
              omega
            · -- what was written and what is left over make up the piece
              rw [hb.readable_write, hread, received_leftover, received, List.append_assoc,
                ← List.append_assoc (List.take _ _), List.take_append_drop]
            · rw [drained_leftover, drained]
  · simp only [hfull]
    exact Or.inl ⟨_, rfl, fun _ => rfl, fun hle => by omega⟩

/-! ## The command loop -/

/-- The replies to a list of requests, and the store behind them. -/
def serve (dispatch : Dispatch σ) : List RespValue → σ → Bytes × σ
  | [], s => ([], s)
  | v :: vs, s =>
      ((dispatch v s).1 ++ (serve dispatch vs (dispatch v s).2).1,
        (serve dispatch vs (dispatch v s).2).2)

/-- The end of the loop: `rest` is still unread and `reply` is queued, unless
`out_buf_` has no room for it. -/
structure Replied (c : Conn σ) (rest reply : Bytes) (closing : Bool)
    (r : Except Exn (Conn σ)) : Prop where
  refused : Buffer.maxCap < c.outBuf.readable.length + reply.length →
    r = .error .bufferExceeded
  queued : c.outBuf.readable.length + reply.length ≤ Buffer.maxCap →
    ∃ inBuf outBuf : Buffer, inBuf.Wf ∧ outBuf.Wf ∧ inBuf.readable = rest ∧
      outBuf.readable = c.outBuf.readable ++ reply ∧
      r = .ok { c with inBuf := inBuf, outBuf := outBuf, closed := c.closed || closing }

/-- What `in_buf_` held before does not matter. -/
theorem Replied.of_inBuf {c : Conn σ} {buf : Buffer} {rest reply : Bytes} {closing : Bool}
    {r : Except Exn (Conn σ)} (h : Replied { c with inBuf := buf } rest reply closing r) :
    Replied c rest reply closing r := ⟨h.refused, h.queued⟩

/-- What the loop has done when it leaves: the requests that `scan` finds have
been served. An exception from the parser loses their replies, a protocol
error replaces them. -/
def Processed (P : Platform) (dispatch : Dispatch σ) (c : Conn σ) (batch : Bytes)
    (r : Except Exn (Conn σ)) : Prop :=
  match scan (verdict P) c.inBuf.readable with
  | (vs, rest, .starved) =>
      Replied { c with store := (serve dispatch vs c.store).2 } rest
        (batch ++ (serve dispatch vs c.store).1) false r
  | (vs, rest, .refused) =>
      Replied { c with store := (serve dispatch vs c.store).2 } rest protocolError true r
  | (_, rest, .raised) => ∃ e, parse P rest = .error e ∧ r = .error e

theorem writeResponse_replied {c : Conn σ} (h : c.Wf) (reply : Bytes) (closing : Bool) :
    Replied c c.inBuf.readable reply closing
      ((c.writeResponse reply).map fun c => { c with closed := c.closed || closing }) := by
  refine ⟨fun hover => ?_, fun hle => ?_⟩
  · rw [writeResponse, Buffer.append_full h.outBuf hover]
    rfl
  · obtain ⟨buf, hbuf, hwf, hread⟩ := Buffer.append_ok h.outBuf hle
    refine ⟨c.inBuf, buf, h.inBuf, hwf, rfl, hread, ?_⟩
    rw [writeResponse, hbuf]
    rfl

theorem finish_replied {c : Conn σ} (h : c.Wf) (batch : Bytes) :
    Replied c c.inBuf.readable batch false (c.finish batch) := by
  unfold finish
  split
  · rename_i hnil
    rw [List.isEmpty_iff] at hnil
    subst hnil
    have hout := h.outBuf.readable_le
    refine ⟨fun hover => ?_, fun _ => ⟨c.inBuf, c.outBuf, h.inBuf, h.outBuf, rfl, ?_, ?_⟩⟩
    · rw [List.length_nil] at hover
      omega
    · rw [List.append_nil]
    · simp
  · have hsame : (c.writeResponse batch).map (fun c => { c with closed := c.closed || false }) =
        c.writeResponse batch := by
      cases c.writeResponse batch <;> simp [Except.map]
    exact hsame ▸ writeResponse_replied h batch false

/-- One request served: its bytes are consumed. -/
def served (dispatch : Dispatch σ) (c : Conn σ) (v : RespValue) (n : Nat) : Conn σ :=
  { c with inBuf := c.inBuf.consume n, store := (dispatch v c.store).2 }

/-- What is served from there on belongs to the same run. -/
theorem Processed.of_served {P : Platform} {dispatch : Dispatch σ} {c : Conn σ} (h : c.Wf)
    {v : RespValue} {n : Nat}
    (hscan : scan (verdict P) c.inBuf.readable =
      (v :: (scan (verdict P) (c.inBuf.readable.drop n)).1,
        (scan (verdict P) (c.inBuf.readable.drop n)).2))
    {batch : Bytes} {r : Except Exn (Conn σ)}
    (hr : Processed P dispatch (served dispatch c v n) (batch ++ (dispatch v c.store).1) r) :
    Processed P dispatch c batch r := by
  simp only [Processed, served, h.inBuf.readable_consume n] at hr
  simp only [Processed, hscan]
  cases hrest : scan (verdict P) (c.inBuf.readable.drop n) with
  | mk vs tail =>
      obtain ⟨rest, stop⟩ := tail
      rw [hrest] at hr
      cases stop with
      | starved =>
          simp only [List.append_assoc] at hr
          exact Replied.of_inBuf hr
      | refused => exact Replied.of_inBuf hr
      | raised => exact hr

/-- A turn leaves, or has served one request. -/
theorem processTurn_cases (P : Platform) (dispatch : Dispatch σ) {c : Conn σ} (h : c.Wf)
    (batch : Bytes) :
    (∃ r, processTurn P dispatch (c, batch) = .exit r ∧ Processed P dispatch c batch r) ∨
    ∃ v n, 0 < n ∧ n ≤ c.inBuf.readable.length ∧
      processTurn P dispatch (c, batch) =
        .again (served dispatch c v n, batch ++ (dispatch v c.store).1) ∧
      ∀ r, Processed P dispatch (served dispatch c v n) (batch ++ (dispatch v c.store).1) r →
        Processed P dispatch c batch r := by
  have hlimit : c.inBuf.readable.length < sizeLimit :=
    lt_of_le_of_lt h.inBuf.readable_le (by decide)
  have hfin := finish_replied h batch
  simp only [processTurn]
  split
  · rename_i hnil
    rw [List.isEmpty_iff] at hnil
    refine Or.inl ⟨_, rfl, ?_⟩
    simpa only [Processed, hnil, scan_nil, serve, List.append_nil] using hfin
  · rename_i hne
    rw [List.isEmpty_iff] at hne
    have hscan := scan_cons (verdict_progress P) hne hlimit
    rcases answer P hlimit with
      ⟨v, n, hparse, hv, hpos, hn⟩ | ⟨v, n, hparse, hv⟩ | ⟨v, n, hparse, hv⟩ | ⟨e, hparse, hv⟩
    · simp only [hv] at hscan
      exact Or.inr ⟨v, n, hpos, hn, by simp only [hparse, served], fun r => .of_served h hscan⟩
    · simp only [hparse]
      refine Or.inl ⟨_, rfl, ?_⟩
      simpa only [Processed, hscan, hv, serve, List.append_nil] using hfin
    · simp only [hparse]
      refine Or.inl ⟨_, rfl, ?_⟩
      have hw := writeResponse_replied h protocolError true
      simpa only [Processed, hscan, hv, serve, Bool.or_true] using hw
    · simp only [hparse]
      exact Or.inl ⟨_, rfl, by simp only [Processed, hscan, hv]; exact ⟨e, hparse, rfl⟩⟩

theorem Wf.served {c : Conn σ} (h : c.Wf) (dispatch : Dispatch σ) (v : RespValue) {n : Nat}
    (hn : n ≤ c.inBuf.readable.length) : Wf (c.served dispatch v n) :=
  ⟨h.inBuf.consume hn, h.outBuf⟩

/-- The loop ends, having done that. -/
theorem processCommands_spec (P : Platform) (dispatch : Dispatch σ) {c : Conn σ} (h : c.Wf) :
    ∃ r, c.processCommands P dispatch = some r ∧ Processed P dispatch c [] r := by
  refine run_spec (I := fun x : Conn σ × Bytes => x.1.Wf)
    (m := fun x => x.1.inBuf.readable.length) (Q := fun x => Processed P dispatch x.1 x.2) ?_ h
    (Nat.lt_succ_self _)
  rintro ⟨c, batch⟩ (hwf : c.Wf)
  rcases processTurn_cases P dispatch hwf batch with hexit | ⟨v, n, hpos, hn, hagain, hpost⟩
  · exact Or.inl hexit
  · refine Or.inr ⟨_, hagain, hwf.served dispatch v hn, ?_, hpost⟩
    simp only [Conn.served, hwf.inBuf.readable_consume n, List.length_drop]
    omega

/-! ## One readiness event -/

/-- The three ways `on_readable` goes: the input does not fit, the peer is
gone, or all data are queued and the command loop runs over them. -/
theorem onReadable_cases (P : Platform) (dispatch : Dispatch σ) {c : Conn σ} (h : c.Wf)
    (script : List Recv) :
    (Buffer.maxCap < c.inBuf.readable.length + (received script).length + 4096 ∧
      c.onReadable P dispatch script = some (.error .bufferExceeded)) ∨
    (c.inBuf.readable.length + (received script).length + 4096 ≤ Buffer.maxCap ∧
      drained script = false ∧ ∃ buf : Buffer, buf.Wf ∧
        c.onReadable P dispatch script =
          some (.ok (false, { c with inBuf := buf, closed := true }))) ∨
    (c.inBuf.readable.length + (received script).length + 4096 ≤ Buffer.maxCap ∧
      drained script = true ∧ ∃ (buf : Buffer) (r : Except Exn (Conn σ)), buf.Wf ∧
        buf.readable = c.inBuf.readable ++ received script ∧
        Processed P dispatch { c with inBuf := buf } [] r ∧
        c.onReadable P dispatch script = some (r.map fun c => (!c.closed, c))) := by
  obtain ⟨r, hr, hread⟩ := readAll_spec h script
  by_cases hfit : c.inBuf.readable.length + (received script).length + 4096 ≤ Buffer.maxCap
  · obtain ⟨buf, hbuf, hbytes, rfl⟩ := hread.queued hfit
    refine Or.inr ?_
    cases hd : drained script with
    | false =>
        rw [hd, Bool.not_false, Bool.or_true] at hr
        exact Or.inl ⟨hfit, rfl, buf, hbuf, by rw [onReadable, hr]⟩
    | true =>
        rw [hd, Bool.not_true, Bool.or_false] at hr
        obtain ⟨r, hproc, hspec⟩ := processCommands_spec P dispatch
          (c := { c with inBuf := buf }) ⟨hbuf, h.outBuf⟩
        refine Or.inr ⟨hfit, rfl, buf, r, hbuf, hbytes, hspec, ?_⟩
        rw [onReadable, hr]
        simp only [hproc]
        cases r <;> rfl
  · obtain rfl := hread.refused (by omega)
    exact Or.inl ⟨by omega, by rw [onReadable, hr]⟩

/-- A reply that did not raise has been queued. -/
theorem Replied.of_ok {c : Conn σ} {rest reply : Bytes} {closing : Bool} {c' : Conn σ}
    (h : Replied c rest reply closing (.ok c')) :
    c'.Wf ∧ c'.inBuf.readable = rest ∧ c'.outBuf.readable = c.outBuf.readable ++ reply ∧
      c'.closed = (c.closed || closing) ∧ c'.store = c.store ∧ c'.sent = c.sent := by
  by_cases hle : c.outBuf.readable.length + reply.length ≤ Buffer.maxCap
  · obtain ⟨inBuf, outBuf, hin, hout, hrest, hreply, heq⟩ := h.queued hle
    cases heq
    exact ⟨⟨hin, hout⟩, hrest, hreply, rfl, rfl, rfl⟩
  · cases h.refused (by omega)

/-- The buffers stay well formed. -/
theorem onReadable_wf (P : Platform) (dispatch : Dispatch σ) {c : Conn σ} (h : c.Wf)
    {script : List Recv} {b : Bool} {c' : Conn σ}
    (hrun : c.onReadable P dispatch script = some (.ok (b, c'))) : c'.Wf := by
  rcases onReadable_cases P dispatch h script with
    ⟨-, hr⟩ | ⟨-, -, buf, hbuf, hr⟩ | ⟨-, -, buf, r, -, -, hproc, hr⟩
  · rw [hr] at hrun
    cases hrun
  · rw [hr] at hrun
    cases hrun
    exact ⟨hbuf, h.outBuf⟩
  · rw [hr] at hrun
    cases r with
    | error e => cases hrun
    | ok c'' =>
        cases hrun
        unfold Processed at hproc
        split at hproc
        · exact hproc.of_ok.1
        · exact hproc.of_ok.1
        · simp at hproc

/-! ## The `send` loop -/

/-- What the loop has done when it leaves: some bytes have moved to the peer,
in order, and it gave up only on an error. -/
structure Flushed (c : Conn σ) (script : List Send) (r : Bool × Conn σ) : Prop where
  moved : ∃ (outBuf : Buffer) (taken : Bytes), outBuf.Wf ∧
    c.outBuf.readable = taken ++ outBuf.readable ∧
    r.2 = { c with outBuf := outBuf, sent := c.sent ++ taken, closed := c.closed || !r.1 }
  error : r.1 = false → .error ∈ script

theorem Flushed.leave {c : Conn σ} (h : c.Wf) {script : List Send} {b : Bool}
    (hb : b = false → .error ∈ script) {closed : Bool} (hclosed : closed = (c.closed || !b)) :
    Flushed c script (b, { c with closed := closed }) := by
  subst hclosed
  exact ⟨⟨c.outBuf, [], h.outBuf, rfl, by simp⟩, hb⟩

theorem Flushed.skip {c : Conn σ} {x : Send} {script : List Send} {r : Bool × Conn σ}
    (h : Flushed c script r) : Flushed c (x :: script) r :=
  ⟨h.moved, fun hr => List.mem_cons_of_mem _ (h.error hr)⟩

/-- The loop ends, having done that. -/
theorem onWritable_spec {c : Conn σ} (h : c.Wf) (script : List Send) :
    ∃ r, c.onWritable script = some r ∧ Flushed c script r := by
  refine run_spec (I := fun x : Conn σ × List Send => x.1.Wf) (m := fun x => x.2.length)
    (Q := fun x => Flushed x.1 x.2) ?_ h (Nat.lt_succ_self _)
  rintro ⟨c, script⟩ (hwf : c.Wf)
  simp only [writeTurn]
  split
  · exact Or.inl ⟨_, rfl, .leave hwf (by simp) (by simp)⟩
  · cases script with
    | nil => exact Or.inl ⟨_, rfl, .leave hwf (by simp) (by simp)⟩
    | cons x rest =>
        cases x with
        | eagain => exact Or.inl ⟨_, rfl, .leave hwf (by simp) (by simp)⟩
        | error => exact Or.inl ⟨_, rfl, .leave hwf (by simp) (by simp)⟩
        | eintr => exact Or.inr ⟨_, rfl, hwf, Nat.lt_succ_self _, fun r hr => hr.skip⟩
        | zero => exact Or.inr ⟨_, rfl, hwf, Nat.lt_succ_self _, fun r hr => hr.skip⟩
        | took n =>
            have hn : (c.outBuf.readable.take (n + 1)).length ≤ c.outBuf.readable.length := by
              rw [List.length_take]
              exact Nat.min_le_right _ _
            refine Or.inr ⟨_, rfl, ⟨hwf.inBuf, hwf.outBuf.consume hn⟩, Nat.lt_succ_self _,
              fun r hr => ?_⟩
            obtain ⟨⟨buf, taken, hbuf, hread, hr'⟩, herr⟩ := hr
            refine Flushed.skip ⟨⟨buf, c.outBuf.readable.take (n + 1) ++ taken, hbuf, ?_, ?_⟩, herr⟩
            · rw [hwf.outBuf.readable_consume] at hread
              rw [List.append_assoc, ← hread]
              exact List.prefix_append_drop (List.take_prefix _ _)
            · simpa only [List.append_assoc] using hr'

theorem onWritable_wf {c : Conn σ} (h : c.Wf) {script : List Send} {b : Bool} {c' : Conn σ}
    (hrun : c.onWritable script = some (b, c')) : c'.Wf := by
  obtain ⟨r, hr, ⟨buf, taken, hbuf, -, heq⟩, -⟩ := onWritable_spec h script
  rw [hr] at hrun
  cases hrun
  simp only at heq
  subst heq
  exact ⟨h.inBuf, hbuf⟩

end Conn

end RedisCache.Network
