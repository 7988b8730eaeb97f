import Mathlib
import RedisCache.Network.Processing
import RedisCache.Persistence.Aof

/-!
# The parser's callers make progress

The command loop of a connection and the replay of the log both drop what
`parse` says it consumed. A turn that goes round again has dropped at least
one byte and no byte that was not there, whatever the input; so both loops
end.
-/

namespace RedisCache

open Loop Protocol Network Persistence

variable {σ : Type}

/-- A turn of the command loop that goes round has consumed one request. -/
theorem Network.Conn.processTurn_again (P : Platform) (dispatch : Dispatch σ) {c : Conn σ}
    (h : c.Wf) {batch : Bytes} {x : Conn σ × Bytes}
    (hturn : Conn.processTurn P dispatch (c, batch) = .again x) :
    ∃ n, 0 < n ∧ n ≤ c.inBuf.readableSize ∧ x.1.inBuf = c.inBuf.consume n ∧
      x.1.inBuf.readable = c.inBuf.readable.drop n ∧ x.1.Wf := by
  rcases Conn.processTurn_cases P dispatch h batch with
    ⟨r, hexit, -⟩ | ⟨v, n, hpos, hn, hagain, -⟩
  · rw [hexit] at hturn
    cases hturn
  · rw [hagain] at hturn
    cases hturn
    exact ⟨n, hpos, h.inBuf.readable_length ▸ hn, rfl, h.inBuf.readable_consume n,
      h.served dispatch v hn⟩

/-- A turn of the replay that goes round has removed one command. -/
theorem Persistence.Aof.replayTurn_again (P : Platform) (executor : RespValue → σ → σ)
    {x y : Aof.Replay σ} (h : x.view.length < sizeLimit)
    (hturn : Aof.replayTurn P executor x = .again y) :
    ∃ n, 0 < n ∧ n ≤ x.view.length ∧ y.view = x.view.drop n := by
  rcases Aof.replayTurn_cases P executor x h with ⟨r, hexit, -⟩ | ⟨v, n, hpos, hn, hagain, -⟩
  · rw [hexit] at hturn
    cases hturn
  · rw [hagain] at hturn
    cases hturn
    exact ⟨n, hpos, hn, rfl⟩

/-- **Parser progress**: an accepted value took at least one byte and stayed
inside the buffer. Hence each turn of the two loops that parse drops at least
one byte and only bytes that are there, and both loops end. -/
theorem parser_progress (P : Platform) :
    (∀ (buf : Bytes) (res : ParseResult), buf.length < 2 ^ 62 → parse P buf = .ok res →
      res.status = .ok → 0 < res.consumed ∧ res.consumed ≤ buf.length) ∧
    (∀ (σ : Type) (dispatch : Dispatch σ) (c : Conn σ), c.Wf →
      (∀ batch x, Conn.processTurn P dispatch (c, batch) = .again x →
        ∃ n, 0 < n ∧ n ≤ c.inBuf.readableSize ∧ x.1.inBuf = c.inBuf.consume n ∧
          x.1.inBuf.readable = c.inBuf.readable.drop n ∧ x.1.Wf) ∧
      ∃ r, c.processCommands P dispatch = some r) ∧
    (∀ (σ : Type) (executor : RespValue → σ → σ) (content : Bytes), content.length < 2 ^ 62 →
      (∀ x y : Aof.Replay σ, x.view <:+ content → Aof.replayTurn P executor x = .again y →
        ∃ n, 0 < n ∧ n ≤ x.view.length ∧ y.view = x.view.drop n ∧ y.view <:+ content) ∧
      ∀ s, ∃ r, Aof.replay P executor (some content) s = some r) := by
  have hlimit : 2 ^ 62 < sizeLimit := by decide
  refine ⟨fun buf res hlen hparse hok => ?_, fun σ dispatch c hwf => ⟨fun batch x hturn => ?_, ?_⟩,
    fun σ executor content hlen => ⟨fun x y hview hturn => ?_, fun s => ?_⟩⟩
  · exact parse_bounds P buf (by omega) hparse hok
  · exact Conn.processTurn_again P dispatch hwf hturn
  · obtain ⟨r, hr, -⟩ := Conn.processCommands_spec P dispatch hwf
    exact ⟨r, hr⟩
  · have hle := hview.length_le
    obtain ⟨n, hpos, hn, heq⟩ := Aof.replayTurn_again P executor (by omega) hturn
    exact ⟨n, hpos, hn, heq, heq ▸ (List.drop_suffix n _).trans hview⟩
  · obtain ⟨r, hr, -⟩ := Aof.replay_spec P executor (by omega : content.length < sizeLimit) s
    exact ⟨r, hr⟩

/-- A log of one command and a half. -/
theorem parser_progress_torn :
    ∃ r, Aof.replay .concrete (fun _ n => n + 1)
      (some (ascii "*1\r\n$4\r\nPING\r\n*1\r\n$")) 0 = some r :=
  ((parser_progress .concrete).2.2 Nat (fun _ n => n + 1) _ (by decide)).2 0

end RedisCache
