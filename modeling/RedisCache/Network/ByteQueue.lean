import Mathlib
import RedisCache.Lib.Fifo
import RedisCache.Lib.Loop
import RedisCache.Network.Buffer

/-!
# The buffer as a bounded queue

The operations of `Buffer.hpp` in any order, each as the program computes it
in `size_t`, with the buffer that an exception leaves behind. Next to the
buffer runs a queue with its history: what has been appended or committed
enters it, what is consumed leaves it. `Represents` ties the two, and every
operation that is used as it should be keeps it.

The growth loop doubles in 64 bits. Below `2 ^ 62` it never wraps around, so
it ends, and it computes `growCap` (`run_growTurn`).
-/

namespace RedisCache.Network

open Loop

namespace Buffer

/-! ## The operations -/

/-- One turn of `while (new_cap - write_pos_ < n) new_cap *= 2`. -/
def growTurn (writePos n cap : Nat) : Turn Nat Nat :=
  if u64 (cap + 2 ^ 64 - writePos) < n then .again (u64 (cap * 2)) else .exit cap

/-- `ensure_writable`, with what it throws and the buffer as it is then. The
growth loop is given 64 turns. -/
def tryEnsureWritable (b : Buffer) (n : Nat) : Option (Buffer × Option Exn) :=
  if n ≤ b.writableSize then some (b, none)
  else
    let b := b.compact
    if n ≤ b.writableSize then some (b, none)
    else
      match run (growTurn b.writePos n) 64 (u64 (b.data.length * 2)) with
      | none => none
      | some cap =>
          if maxCap < cap then some (b, some .bufferExceeded)
          else some (b.resize cap, none)

def tryAppend (b : Buffer) (s : Bytes) : Option (Buffer × Option Exn) :=
  match b.tryEnsureWritable s.length with
  | some (b, none) => some (b.write s, none)
  | r => r

/-- Bytes put at `write_ptr()`. -/
def poke (b : Buffer) (s : Bytes) : Buffer :=
  { b with data := b.data.take b.writePos ++ s ++ b.data.drop (b.writePos + s.length) }

def commitWrite (b : Buffer) (m : Nat) : Buffer := { b with writePos := b.writePos + m }

/-- What the `m` bytes behind the write cursor hold. -/
def tail (b : Buffer) (m : Nat) : Bytes := (b.data.drop b.writePos).take m

theorem write_eq (b : Buffer) (s : Bytes) : b.write s = (b.poke s).commitWrite s.length := rfl

/-! ## The growth loop -/

/-- The loop ends within 64 turns, with the capacity that `growCap` finds. -/
theorem run_growTurn {writePos n : Nat} (hn : writePos + n ≤ 4096 * 2 ^ 51) {turns fuel k : Nat}
    (hk : k ≤ 51) (hturns : 51 - k < turns) (hpos : writePos ≤ 4096 * 2 ^ k)
    (hfuel : writePos + n ≤ 4096 * 2 ^ k + fuel) :
    run (growTurn writePos n) turns (4096 * 2 ^ k) =
      some (growCap writePos n fuel (4096 * 2 ^ k)) := by
  induction turns generalizing k fuel with
  | zero => omega
  | succ turns ih =>
      have hcap : 4096 * 2 ^ k ≤ 4096 * 2 ^ 51 :=
        Nat.mul_le_mul_left _ (Nat.pow_le_pow_right (by omega) hk)
      have hsub : u64 (4096 * 2 ^ k + 2 ^ 64 - writePos) = 4096 * 2 ^ k - writePos := by
        unfold u64
        omega
      rw [run, growTurn, hsub]
      by_cases hsmall : 4096 * 2 ^ k - writePos < n
      · -- too small, so below `2 ^ 63`, and doubling does not wrap around
        have hk' : k < 51 := by
          by_contra hge
          have : k = 51 := by omega
          subst this
          omega
        have htwo : 0 < 2 ^ k := Nat.two_pow_pos k
        have hdouble : 4096 * 2 ^ k * 2 = 4096 * 2 ^ (k + 1) := by ring
        have hwrap : u64 (4096 * 2 ^ k * 2) = 4096 * 2 ^ (k + 1) := by
          unfold u64
          omega
        obtain ⟨fuel, rfl⟩ : ∃ m, fuel = m + 1 := ⟨fuel - 1, by omega⟩
        rw [if_pos hsmall, growCap, if_pos hsmall]
        simp only [hwrap]
        rw [hdouble]
        exact ih (by omega) (by omega) (by omega) (by omega)
      · rw [if_neg hsmall]
        cases fuel with
        | zero => rfl
        | succ fuel => rw [growCap, if_neg hsmall]

/-- Below `2 ^ 62`, `ensure_writable` does what it does without wrapping
around; what it throws leaves the buffer compacted. -/
theorem tryEnsureWritable_eq {b : Buffer} (h : b.Wf) {n : Nat} (hn : n < 2 ^ 62) :
    b.tryEnsureWritable n =
      match b.ensureWritable n with
      | .ok b' => some (b', none)
      | .error e => some (b.compact, some e) := by
  unfold tryEnsureWritable ensureWritable
  by_cases hroom : n ≤ b.writableSize
  · simp only [if_pos hroom]
  · simp only [if_neg hroom]
    by_cases hroom' : n ≤ b.compact.writableSize
    · simp only [if_pos hroom']
    · simp only [if_neg hroom']
      obtain ⟨k, hk, hlen⟩ := h.compact.cap
      have hpos := h.compact.write_le
      have hmax := h.compact.length_le
      rw [maxCap_eq] at hmax
      have hdouble : u64 (b.compact.data.length * 2) = 4096 * 2 ^ (k + 1) := by
        unfold u64
        omega
      have hgrow : Loop.run (growTurn b.compact.writePos n) 64 (4096 * 2 ^ (k + 1)) =
          some (growCap b.compact.writePos n (b.compact.writePos + n) (4096 * 2 ^ (k + 1))) :=
        run_growTurn (by omega) (by omega) (by omega) (by omega) (by omega)
      have hsame : b.compact.data.length * 2 = 4096 * 2 ^ (k + 1) := by
        rw [hlen]
        ring
      rw [hdouble, hgrow, hsame]
      by_cases hover : maxCap < growCap b.compact.writePos n (b.compact.writePos + n)
          (4096 * 2 ^ (k + 1))
      · simp only [if_pos hover]
      · simp only [if_neg hover]

/-! ## Content -/

theorem Wf.poke {b : Buffer} (h : b.Wf) {s : Bytes} (hs : s.length ≤ b.writableSize) :
    Wf (b.poke s) := by
  have h₂ := h.write_le
  unfold writableSize at hs
  have hlen : (b.poke s).data.length = b.data.length := by
    simp only [Buffer.poke, List.length_append, List.length_take, List.length_drop]
    omega
  exact ⟨h.read_le, hlen ▸ h₂, hlen ▸ h.cap⟩

theorem Wf.commitWrite {b : Buffer} (h : b.Wf) {m : Nat} (hm : m ≤ b.writableSize) :
    Wf (b.commitWrite m) := by
  have h₁ := h.read_le
  have h₂ := h.write_le
  unfold writableSize at hm
  exact ⟨by simp only [Buffer.commitWrite]; omega, by simp only [Buffer.commitWrite]; omega, h.cap⟩

/-- Committing appends what the bytes behind the cursor hold. -/
theorem Wf.readable_commitWrite {b : Buffer} (h : b.Wf) (m : Nat) :
    (b.commitWrite m).readable = b.readable ++ b.tail m := by
  have h₁ := h.read_le
  have hsplit : b.writePos + m - b.readPos = (b.writePos - b.readPos) + m := by omega
  have hdrop : b.readPos + (b.writePos - b.readPos) = b.writePos := by omega
  simp only [readable, Buffer.commitWrite, tail]
  rw [hsplit, List.take_add, List.drop_drop, hdrop]

/-- Bytes put behind the cursor are not content yet. -/
theorem Wf.readable_poke {b : Buffer} (h : b.Wf) {s : Bytes} (hs : s.length ≤ b.writableSize) :
    (b.poke s).readable = b.readable := by
  have hp := h.poke hs
  have happend := h.readable_write s
  rw [write_eq, hp.readable_commitWrite] at happend
  refine (List.append_inj happend ?_).1
  rw [hp.readable_length, h.readable_length]
  rfl

/-- **`ensure_writable`**: it throws exactly if the content and `n` more bytes
pass 64 MiB; the content stays, and if it does not throw there is room. -/
theorem tryEnsureWritable_spec {b : Buffer} (h : b.Wf) {n : Nat} (hn : n < 2 ^ 62) :
    ∃ b', b.tryEnsureWritable n =
        some (b', if maxCap < b.readableSize + n then some .bufferExceeded else none) ∧
      b'.Wf ∧ b'.readable = b.readable ∧ (b.readableSize + n ≤ maxCap → n ≤ b'.writableSize) := by
  rw [tryEnsureWritable_eq h hn, ← h.readable_length]
  rcases ensureWritable_cases h n with ⟨b', hb', hwf, hread, hroom, hle⟩ | ⟨hfull, hover⟩
  · rw [hb', if_neg (by omega)]
    exact ⟨b', rfl, hwf, hread, fun _ => hroom⟩
  · rw [hfull, if_pos hover]
    exact ⟨b.compact, rfl, h.compact, h.readable_compact, fun hle => by omega⟩

/-- **`append`** throws exactly then, and has not changed the content. -/
theorem tryAppend_spec {b : Buffer} (h : b.Wf) {s : Bytes} (hs : s.length < 2 ^ 62) :
    ∃ b', b.tryAppend s =
        some (b', if maxCap < b.readableSize + s.length then some .bufferExceeded else none) ∧
      b'.Wf ∧
      b'.readable = if maxCap < b.readableSize + s.length then b.readable else b.readable ++ s := by
  obtain ⟨b', hb', hwf, hread, hroom⟩ := tryEnsureWritable_spec h hs
  rw [tryAppend, hb']
  by_cases hover : maxCap < b.readableSize + s.length
  · simp only [if_pos hover]
    exact ⟨b', rfl, hwf, hread⟩
  · simp only [if_neg hover]
    exact ⟨b'.write s, rfl, hwf.write (hroom (by omega)), by rw [hwf.readable_write, hread]⟩

end Buffer

/-! ## Any sequence of operations -/

/-- What is done with a buffer from outside. -/
inductive BufferOp where
  | append (s : Bytes)
  | ensureWritable (n : Nat)
  /-- `s` is put at `write_ptr()`, then `commit_write(m)`. -/
  | commit (s : Bytes) (m : Nat)
  | consume (m : Nat)

/-- A buffer, and the queue it should be. -/
structure Queued where
  buffer : Buffer := .new
  queue : Fifo UInt8 := {}

namespace Queued

/-- An operation on both. An exception is caught outside, and the buffer used
further. -/
def step (q : Queued) : BufferOp → Option (Queued × Option Exn)
  | .append s =>
      (q.buffer.tryAppend s).map fun r =>
        (⟨r.1, if r.2 = none then q.queue.push s else q.queue⟩, r.2)
  | .ensureWritable n => (q.buffer.tryEnsureWritable n).map fun r => (⟨r.1, q.queue⟩, r.2)
  | .commit s m =>
      some (⟨(q.buffer.poke s).commitWrite m, q.queue.push ((q.buffer.poke s).tail m)⟩, none)
  | .consume m => some (⟨q.buffer.consume m, q.queue.pop m⟩, none)

def turn (q : Queued) (op : BufferOp) : Option (Except Exn Queued) :=
  (q.step op).map fun r => .ok r.1

/-- The operation is used as it should be. -/
def Allowed (q : Queued) : BufferOp → Prop
  | .append s => s.length < 2 ^ 62
  | .ensureWritable n => n < 2 ^ 62
  | .commit s m => s.length ≤ q.buffer.writableSize ∧ m ≤ q.buffer.writableSize
  | .consume m => m ≤ q.buffer.readableSize

instance (q : Queued) (op : BufferOp) : Decidable (q.Allowed op) := by
  cases op <;> unfold Allowed <;> infer_instance

/-- The bytes an operation consumes. -/
def consumed : BufferOp → Nat
  | .consume m => m
  | _ => 0

/-- The buffer holds what is waiting. -/
structure Represents (q : Queued) : Prop where
  wf : q.buffer.Wf
  content : q.buffer.readable = q.queue.waiting

theorem Represents.new : Represents {} := ⟨.new, Buffer.readable_new⟩

/-- The step lemma. -/
theorem Represents.turn {q : Queued} (h : q.Represents) {op : BufferOp} (hop : q.Allowed op) :
    ∃ q', q.turn op = some (.ok q') ∧ q'.Represents ∧
      q'.queue.done.length = q.queue.done.length + consumed op := by
  cases op with
  | append s =>
      obtain ⟨b', hb', hwf, hread⟩ := Buffer.tryAppend_spec h.wf hop
      rw [h.content] at hread
      simp only [Queued.turn, step, hb', Option.map_some]
      by_cases hover : Buffer.maxCap < q.buffer.readableSize + s.length
      · simp only [if_pos hover] at hread ⊢
        exact ⟨_, rfl, ⟨hwf, hread⟩, rfl⟩
      · simp only [if_neg hover] at hread ⊢
        exact ⟨_, rfl, ⟨hwf, hread⟩, rfl⟩
  | ensureWritable n =>
      obtain ⟨b', hb', hwf, hread, -⟩ := Buffer.tryEnsureWritable_spec h.wf hop
      simp only [Queued.turn, step, hb', Option.map_some]
      exact ⟨_, rfl, ⟨hwf, hread.trans h.content⟩, rfl⟩
  | commit s m =>
      obtain ⟨hs, hm⟩ := hop
      have hp := h.wf.poke hs
      have hlen : (q.buffer.poke s).writableSize = q.buffer.writableSize := by
        unfold Buffer.writableSize at hs ⊢
        have := h.wf.write_le
        simp only [Buffer.poke, List.length_append, List.length_take, List.length_drop]
        omega
      refine ⟨_, rfl, ⟨hp.commitWrite (hlen.symm ▸ hm), ?_⟩, rfl⟩
      rw [hp.readable_commitWrite, h.wf.readable_poke hs, h.content]
      rfl
  | consume m =>
      have hm : m ≤ q.buffer.readable.length := h.wf.readable_length ▸ hop
      refine ⟨_, rfl, ⟨h.wf.consume hm, ?_⟩, Fifo.length_done_pop (h.content ▸ hm)⟩
      rw [h.wf.readable_consume, h.content]
      rfl

/-- The run lemma. -/
theorem Represents.run {q : Queued} (h : q.Represents) {ops : List BufferOp}
    (hops : Always Queued.turn Allowed q ops) :
    ∃ q', runAll Queued.turn q ops = some (.ok q') ∧ q'.Represents ∧
      q'.queue.done.length = q.queue.done.length + (ops.map consumed).sum := by
  induction ops generalizing q with
  | nil => exact ⟨q, rfl, h, rfl⟩
  | cons op ops ih =>
      obtain ⟨q₁, hturn, h₁, hdone₁⟩ := h.turn hops.1
      obtain ⟨q', hrun, h', hdone'⟩ := ih h₁ (hops.2 q₁ hturn)
      refine ⟨q', by rw [runAll_cons hturn, hrun], h', ?_⟩
      rw [hdone', hdone₁, List.map_cons, List.sum_cons, Nat.add_assoc]

/-- **The buffer is a bounded queue of bytes.** After any sequence of
operations on a new buffer, used as they should be: the cursors are in order
and inside the block, the block has at most 64 MiB, and the content is
everything appended or committed without the front that was consumed. From
there `ensure_writable(n)` and `append` end; they throw exactly if the content
and the new bytes pass 64 MiB, and the content is then what it was; otherwise
there is room for `n` bytes, or the bytes are appended. -/
theorem buffer_bounded_queue (ops : List BufferOp) (hops : Always Queued.turn Allowed {} ops) :
    ∃ q : Queued, runAll Queued.turn {} ops = some (.ok q) ∧
      q.buffer.readPos ≤ q.buffer.writePos ∧ q.buffer.writePos ≤ q.buffer.data.length ∧
      q.buffer.data.length ≤ Buffer.maxCap ∧
      q.buffer.readable = q.queue.pushed.drop (ops.map consumed).sum ∧
      (∀ n < 2 ^ 62, ∃ b', q.buffer.tryEnsureWritable n = some (b',
          if Buffer.maxCap < q.buffer.readableSize + n then some .bufferExceeded else none) ∧
        b'.readable = q.buffer.readable ∧
        (q.buffer.readableSize + n ≤ Buffer.maxCap → n ≤ b'.writableSize)) ∧
      ∀ s : Bytes, s.length < 2 ^ 62 → ∃ b', q.buffer.tryAppend s = some (b',
          if Buffer.maxCap < q.buffer.readableSize + s.length then some .bufferExceeded
          else none) ∧
        b'.readable = if Buffer.maxCap < q.buffer.readableSize + s.length then q.buffer.readable
          else q.buffer.readable ++ s := by
  obtain ⟨q, hrun, hq, hdone⟩ := Represents.new.run hops
  rw [show ({} : Queued).queue.done.length = 0 from rfl, Nat.zero_add] at hdone
  refine ⟨q, hrun, hq.wf.read_le, hq.wf.write_le, hq.wf.length_le, ?_, fun n hn => ?_,
    fun s hs => ?_⟩
  · rw [hq.content, q.queue.waiting_eq, hdone]
  · obtain ⟨b', hb', -, hread, hroom⟩ := Buffer.tryEnsureWritable_spec hq.wf hn
    exact ⟨b', hb', hread, hroom⟩
  · obtain ⟨b', hb', -, hread⟩ := Buffer.tryAppend_spec hq.wf hs
    exact ⟨b', hb', hread⟩

/-- Five bytes in, by both ways, and four of them out again. -/
theorem buffer_bounded_queue_five :
    ∃ q : Queued, runAll Queued.turn {} [.append (ascii "abc"), .ensureWritable 5000,
        .commit (ascii "de") 2, .consume 4] = some (.ok q) ∧
      q.buffer.readable = q.queue.pushed.drop 4 := by
  obtain ⟨q, hrun, -, -, -, hread, -⟩ := buffer_bounded_queue
    [.append (ascii "abc"), .ensureWritable 5000, .commit (ascii "de") 2, .consume 4]
    (by decide +kernel)
  exact ⟨q, hrun, hread⟩

end Queued

end RedisCache.Network
