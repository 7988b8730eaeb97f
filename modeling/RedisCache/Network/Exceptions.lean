import Mathlib
import RedisCache.Network.Pipelining

/-!
# When an exception escapes

Nothing between `on_readable` and `main` catches, so the question is when
`on_readable` returns at all. There are three sources: `in_buf_` growing
past 64 MiB, `std::vector::reserve` on the element count of an array header,
and `out_buf_` growing past 64 MiB under a batch of replies.
`onReadable_returns_iff` says exactly when none of them strikes.
-/

namespace RedisCache.Network

open Framing Protocol Storage Sections

namespace Conn

variable {σ : Type}

/-- The bytes the command loop appends to `out_buf_`, for unread bytes `bytes`:
the replies to the requests in them, or the protocol error in their place. -/
def output (P : Platform) (dispatch : Dispatch σ) (s : σ) (bytes : Bytes) : Bytes :=
  match scan (verdict P) bytes with
  | (_, _, .refused) => protocolError
  | (vs, _, _) => (serve dispatch vs s).1

/-- The loop stops at an array header that `reserve` refuses, or it does not
raise. -/
theorem scan_raised_iff (P : Platform) (bytes : Bytes) (h : bytes.length < sizeLimit) :
    (scan (verdict P) bytes).2.2 = .raised ↔ BadHeader P (scan (verdict P) bytes).2.1 := by
  induction hk : bytes.length using Nat.strong_induction_on generalizing bytes with
  | _ k ih =>
      subst hk
      by_cases hnil : bytes = []
      · subst hnil
        rw [scan_nil]
        constructor <;> intro hc <;> cases hc
      · rw [scan_cons (verdict_progress P) hnil h]
        cases hv : verdict P bytes with
        | ok v n =>
            obtain ⟨hpos, hn⟩ := verdict_progress P _ _ _ h hv
            exact ih _ (by rw [List.length_drop]; omega) _ (by rw [List.length_drop]; omega) rfl
        | incomplete =>
            simp only [← verdict_raised_iff P h, hv, reduceCtorEq]
        | error =>
            simp only [← verdict_raised_iff P h, hv, reduceCtorEq]
        | raised => simp only [← verdict_raised_iff P h, hv]

/-- A reply that is queued returns, one that is not raises. -/
theorem Replied.returns_iff {c : Conn σ} {rest reply : Bytes} {closing : Bool}
    {r : Except Exn (Conn σ)} (h : Replied c rest reply closing r) :
    (∃ c', r = .ok c') ↔ c.outBuf.readable.length + reply.length ≤ Buffer.maxCap := by
  constructor
  · rintro ⟨c', rfl⟩
    by_contra hover
    cases h.refused (by omega)
  · intro hle
    obtain ⟨_, _, -, -, -, -, hok⟩ := h.queued hle
    exact ⟨_, hok⟩

theorem processed_returns_iff (P : Platform) (dispatch : Dispatch σ) {c : Conn σ} (h : c.Wf)
    {r : Except Exn (Conn σ)} (hr : Processed P dispatch c [] r) :
    (∃ c', r = .ok c') ↔
      ¬ BadHeader P (scan (verdict P) c.inBuf.readable).2.1 ∧
        c.outBuf.readable.length + (output P dispatch c.store c.inBuf.readable).length ≤
          Buffer.maxCap := by
  have hlen : c.inBuf.readable.length < sizeLimit :=
    lt_of_le_of_lt h.inBuf.readable_le (by decide)
  rw [← scan_raised_iff P _ hlen, output]
  unfold Processed at hr
  cases hscan : scan (verdict P) c.inBuf.readable with
  | mk vs tail =>
      obtain ⟨rest, stop⟩ := tail
      rw [hscan] at hr
      cases stop with
      | starved =>
          simp only [List.nil_append] at hr
          simpa using hr.returns_iff
      | refused =>
          simp only at hr
          simpa using hr.returns_iff
      | raised =>
          obtain ⟨e, -, rfl⟩ := hr
          simp only [not_true, false_and, iff_false]
          rintro ⟨c', hok⟩
          cases hok

/-- **When `on_readable` returns.** -/
theorem onReadable_returns_iff (P : Platform) (dispatch : Dispatch σ) {c : Conn σ} (h : c.Wf)
    (script : List Recv) :
    (∃ b c', c.onReadable P dispatch script = some (.ok (b, c'))) ↔
      c.inBuf.readable.length + (received script).length + 4096 ≤ Buffer.maxCap ∧
        (drained script = true →
          ¬ BadHeader P (scan (verdict P) (c.inBuf.readable ++ received script)).2.1 ∧
          c.outBuf.readable.length +
              (output P dispatch c.store (c.inBuf.readable ++ received script)).length ≤
            Buffer.maxCap) := by
  rcases onReadable_cases P dispatch h script with
    ⟨hover, hrun⟩ | ⟨hfit, hgone, buf, -, hrun⟩ | ⟨hfit, hd, buf, r, hbuf, hread, hproc, hrun⟩
  · rw [hrun]
    simp only [Option.some.injEq, reduceCtorEq, exists_false, false_iff]
    omega
  · rw [hrun, hgone]
    simp [hfit]
  · have hret := processed_returns_iff P dispatch (c := { c with inBuf := buf })
      ⟨hbuf, h.outBuf⟩ hproc
    simp only [hread] at hret
    rw [hrun, hd]
    simp only [hfit, true_and, forall_const, ← hret]
    cases r with
    | error e => simp [Except.map]
    | ok c' => simp [Except.map]

/-- **When one client can bring the server down**: for any connection in its
normal state, any store, any clock readings and any `recv` outcomes,
`on_readable` of the server's dispatcher returns exactly when the unread
input leaves 4096 bytes of `in_buf_`, no array header with a count below `-1`
or above what `reserve` can serve is reached, and the output fits `out_buf_`. -/
theorem server_survives_iff (P : Platform) (maxKeys : Nat) (c : Conn (World Index Shard))
    (h : c.Wf) (script : List Recv) :
    (∃ b c', c.onReadable P (dispatcher P maxKeys) script = some (.ok (b, c'))) ↔
      c.inBuf.readable.length + (received script).length + 4096 ≤ Buffer.maxCap ∧
        (drained script = true →
          ¬ BadHeader P (scan (verdict P) (c.inBuf.readable ++ received script)).2.1 ∧
          c.outBuf.readable.length + (output P (dispatcher P maxKeys) c.store
              (c.inBuf.readable ++ received script)).length ≤ Buffer.maxCap) :=
  onReadable_returns_iff P (dispatcher P maxKeys) h script

/-- A new connection that gets `PING`. -/
theorem server_survives_ping :
    ∃ b c', ({ store := ⟨fun _ => 0, Store.empty⟩ } : Conn (World Index Shard)).onReadable
        .concrete (dispatcher .concrete 4) [.data 42 (ascii "1\r\n$4\r\nPING\r\n")] =
      some (.ok (b, c')) := by
  refine (server_survives_iff .concrete 4 _ (Wf.new _) _).mpr ⟨?_, fun _ => ⟨?_, ?_⟩⟩
  · rw [Buffer.readable_new]
    decide
  · rw [Buffer.readable_new]
    intro hbad
    cases (show BadHeader .concrete [] from hbad)
  · rw [Buffer.readable_new]
    decide

/-- Five bytes, `*-2` and a line end: `reserve` is asked for `2^64 - 2`
elements, and the exception escapes. -/
theorem server_down :
    ¬ ∃ b c', ({ store := ⟨fun _ => 0, Store.empty⟩ } : Conn (World Index Shard)).onReadable
        .concrete (dispatcher .concrete 4) [.data 42 (ascii "-2\r\n")] = some (.ok (b, c')) := by
  rw [onReadable_returns_iff .concrete _ (Wf.new _)]
  rintro ⟨-, h⟩
  refine (h rfl).1 ?_
  rw [Buffer.readable_new]
  exact BadHeader.here (show findCrlf (ascii "-2\r\n") = some 2 by decide)
    (show parseLength (ascii "-2") = some (-2) by decide) (by decide)

end Conn

end RedisCache.Network
