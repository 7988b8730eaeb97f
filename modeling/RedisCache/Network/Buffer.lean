import Mathlib
import RedisCache.Protocol.RespParser

/-!
# The byte buffer

`Buffer.hpp`: a contiguous block with a read and a write cursor. Data
between the cursors are unread, data before the read cursor are dead space
that `compact` reclaims, and the block doubles when that is not enough, up
to `MAX_CAP`.

Under `Wf` the buffer is a queue of bytes: `readable` is its content,
writing appends to it and consuming drops from its front, whatever the
cursors and the block do meanwhile. It refuses to grow exactly when the
content would pass 64 MiB (`ensureWritable_ok`, `ensureWritable_full`).
-/

namespace RedisCache.Network

structure Buffer where
  data : Bytes
  readPos : Nat := 0
  writePos : Nat := 0

namespace Buffer

def initialCap : Nat := 4096

/-- 64 MiB. -/
def maxCap : Nat := 64 * 1024 * 1024

/-- `Buffer()`: `data_.resize(INITIAL_CAP)` fills with zeros. -/
def new : Buffer := { data := List.replicate initialCap 0 }

def writableSize (b : Buffer) : Nat := b.data.length - b.writePos

/-- Bytes put at `write_ptr()`, then `commit_write`. -/
def write (b : Buffer) (s : Bytes) : Buffer :=
  { b with
    data := b.data.take b.writePos ++ s ++ b.data.drop (b.writePos + s.length)
    writePos := b.writePos + s.length }

def readable (b : Buffer) : Bytes := (b.data.drop b.readPos).take (b.writePos - b.readPos)

def readableSize (b : Buffer) : Nat := b.writePos - b.readPos

def empty (b : Buffer) : Bool := b.writePos == b.readPos

def consume (b : Buffer) (n : Nat) : Buffer :=
  if b.readPos + n = b.writePos then { b with readPos := 0, writePos := 0 }
  else { b with readPos := b.readPos + n }

/-- `memmove` the unread data to the front. -/
def compact (b : Buffer) : Buffer :=
  if b.readPos = 0 then b
  else
    { data := b.readable ++ b.data.drop b.readableSize
      readPos := 0
      writePos := b.readableSize }

/-- `while (new_cap - write_pos_ < n) new_cap *= 2`; one turn for each missing
byte is more than enough. -/
def growCap (writePos n : Nat) : Nat → Nat → Nat
  | 0, cap => cap
  | fuel + 1, cap => if cap - writePos < n then growCap writePos n fuel (cap * 2) else cap

/-- `data_.resize(cap)`, to a larger block. -/
def resize (b : Buffer) (cap : Nat) : Buffer :=
  { b with data := b.data ++ List.replicate (cap - b.data.length) 0 }

def ensureWritable (b : Buffer) (n : Nat) : Except Exn Buffer :=
  if n ≤ b.writableSize then .ok b
  else
    let b := b.compact
    if n ≤ b.writableSize then .ok b
    else
      let cap := growCap b.writePos n (b.writePos + n) (b.data.length * 2)
      if maxCap < cap then .error .bufferExceeded
      else .ok (b.resize cap)

def append (b : Buffer) (s : Bytes) : Except Exn Buffer :=
  match b.ensureWritable s.length with
  | .error e => .error e
  | .ok b => .ok (b.write s)

theorem readable_of_empty {b : Buffer} (h : b.empty = true) : b.readable = [] := by
  have hpos : b.writePos = b.readPos := by simpa [empty] using h
  rw [readable, hpos, Nat.sub_self, List.take_zero]

/-! ## The invariant -/

/-- The cursors are in order, and the block is `INITIAL_CAP` doubled some
times. -/
structure Wf (b : Buffer) : Prop where
  read_le : b.readPos ≤ b.writePos
  write_le : b.writePos ≤ b.data.length
  cap : ∃ k ≤ 14, b.data.length = 4096 * 2 ^ k

theorem maxCap_eq : maxCap = 4096 * 2 ^ 14 := by decide

theorem Wf.length_le {b : Buffer} (h : b.Wf) : b.data.length ≤ maxCap := by
  obtain ⟨k, hk, hlen⟩ := h.cap
  rw [hlen, maxCap_eq]
  exact Nat.mul_le_mul_left _ (Nat.pow_le_pow_right (by omega) hk)

theorem Wf.readable_length {b : Buffer} (h : b.Wf) : b.readable.length = b.readableSize := by
  have h₁ := h.read_le
  have h₂ := h.write_le
  simp only [readable, readableSize, List.length_take, List.length_drop]
  omega

theorem Wf.new : Wf new where
  read_le := Nat.le_refl _
  write_le := Nat.zero_le _
  cap := ⟨0, by omega, List.length_replicate⟩

theorem readable_new : new.readable = [] := by
  simp only [readable, new, List.take_zero, Nat.sub_self]

theorem Wf.readable_le {b : Buffer} (h : b.Wf) : b.readable.length ≤ maxCap := by
  have h₁ := h.write_le
  have h₂ := h.length_le
  rw [h.readable_length, readableSize]
  omega

/-! ## The queue laws -/

theorem Wf.write {b : Buffer} (h : b.Wf) {s : Bytes} (hroom : s.length ≤ b.writableSize) :
    Wf (b.write s) := by
  have h₁ := h.read_le
  have h₂ := h.write_le
  unfold writableSize at hroom
  have hlen : (b.write s).data.length = b.data.length := by
    simp only [Buffer.write, List.length_append, List.length_take, List.length_drop]
    omega
  refine ⟨?_, ?_, hlen ▸ h.cap⟩
  · simp only [Buffer.write]
    omega
  · rw [hlen]
    simp only [Buffer.write]
    omega

/-- Writing appends. -/
theorem Wf.readable_write {b : Buffer} (h : b.Wf) (s : Bytes) :
    (b.write s).readable = b.readable ++ s := by
  have h₁ := h.read_le
  have h₂ := h.write_le
  have htake : (b.data.take b.writePos).length = b.writePos := by
    rw [List.length_take]
    omega
  simp only [readable, Buffer.write]
  rw [List.append_assoc, List.drop_append_of_le_length (by omega), List.drop_take,
    ← List.append_assoc, List.take_append_of_le_length]
  · rw [List.take_of_length_le]
    simp only [List.length_append, List.length_take, List.length_drop]
    omega
  · simp only [List.length_append, List.length_take, List.length_drop]
    omega

theorem Wf.consume {b : Buffer} (h : b.Wf) {n : Nat} (hn : n ≤ b.readable.length) :
    Wf (b.consume n) := by
  have h₁ := h.read_le
  have h₂ := h.write_le
  rw [h.readable_length, readableSize] at hn
  unfold Buffer.consume
  split
  · exact ⟨Nat.le_refl _, Nat.zero_le _, h.cap⟩
  · exact ⟨by simp only; omega, h₂, h.cap⟩

/-- Consuming drops from the front. -/
theorem Wf.readable_consume {b : Buffer} (h : b.Wf) (n : Nat) :
    (b.consume n).readable = b.readable.drop n := by
  have hlen := h.readable_length
  rw [readableSize] at hlen
  unfold Buffer.consume
  split
  · rename_i hall
    rw [List.drop_of_length_le (by omega)]
    simp [readable]
  · simp only [readable, List.drop_take, List.drop_drop]
    congr 1
    omega

theorem Wf.compact {b : Buffer} (h : b.Wf) : Wf b.compact := by
  have h₁ := h.read_le
  have h₂ := h.write_le
  have hlen := h.readable_length
  unfold Buffer.compact
  split
  · exact h
  · have hdata : (b.readable ++ b.data.drop b.readableSize).length = b.data.length := by
      rw [List.length_append, List.length_drop, hlen, readableSize]
      omega
    exact ⟨Nat.zero_le _, by simp only [hdata]; rw [readableSize]; omega, hdata ▸ h.cap⟩

theorem Wf.readable_compact {b : Buffer} (h : b.Wf) : b.compact.readable = b.readable := by
  unfold Buffer.compact
  split
  · rfl
  · show (b.readable ++ b.data.drop b.readableSize).take b.readableSize = b.readable
    rw [← h.readable_length, List.take_left]

/-- After compaction everything that is not content is room. -/
theorem Wf.writableSize_compact {b : Buffer} (h : b.Wf) :
    b.compact.writePos = b.readable.length ∧ b.compact.data.length = b.data.length := by
  have h₁ := h.read_le
  have h₂ := h.write_le
  have hlen := h.readable_length
  unfold Buffer.compact
  split
  · rename_i hzero
    exact ⟨by rw [hlen, readableSize, hzero, Nat.sub_zero], rfl⟩
  · refine ⟨hlen.symm, ?_⟩
    rw [List.length_append, List.length_drop, hlen, readableSize]
    omega

/-! ## Growing -/

/-- The doubling stops at the first power that is large enough. -/
theorem growCap_spec {writePos n fuel k : Nat} (hfuel : writePos + n ≤ 4096 * 2 ^ k + fuel) :
    ∃ j, growCap writePos n fuel (4096 * 2 ^ k) = 4096 * 2 ^ j ∧
      (n = 0 ∨ writePos + n ≤ 4096 * 2 ^ j) ∧ (j = k ∨ 4096 * 2 ^ (j - 1) < writePos + n) := by
  induction fuel generalizing k with
  | zero => exact ⟨k, rfl, Or.inr hfuel, Or.inl rfl⟩
  | succ fuel ih =>
      rw [growCap]
      split
      · rename_i hsmall
        have hdouble : 4096 * 2 ^ k * 2 = 4096 * 2 ^ (k + 1) := by ring
        have hpos : 0 < 2 ^ k := Nat.two_pow_pos k
        obtain ⟨j, hj, hroom, hfirst⟩ := ih (k := k + 1) (by omega)
        refine ⟨j, hdouble ▸ hj, hroom, Or.inr ?_⟩
        rcases hfirst with rfl | hfirst
        · rw [Nat.add_sub_cancel]
          omega
        · exact hfirst
      · exact ⟨k, rfl, by omega, Or.inl rfl⟩

theorem resize_length {b : Buffer} {cap : Nat} (h : b.data.length ≤ cap) :
    (b.resize cap).data.length = cap := by
  rw [resize, List.length_append, List.length_replicate]
  omega

theorem Wf.resize {b : Buffer} (h : b.Wf) {j : Nat} (hj : j ≤ 14)
    (hle : b.data.length ≤ 4096 * 2 ^ j) : Wf (b.resize (4096 * 2 ^ j)) := by
  have hlen := resize_length hle
  exact ⟨h.read_le, hlen.symm ▸ le_trans h.write_le hle, j, hj, hlen⟩

theorem Wf.readable_resize {b : Buffer} (h : b.Wf) (cap : Nat) :
    (b.resize cap).readable = b.readable := by
  have h₁ := h.read_le
  have h₂ := h.write_le
  simp only [readable, Buffer.resize]
  rw [List.drop_append_of_le_length (by omega), List.take_append_of_le_length]
  rw [List.length_drop]
  omega

/-- The capacity the growth step asks for, from a block that is too small. -/
theorem Wf.grown {b : Buffer} (h : b.Wf) {n : Nat} (hsmall : b.data.length < b.writePos + n) :
    ∃ j, growCap b.writePos n (b.writePos + n) (b.data.length * 2) = 4096 * 2 ^ j ∧
      b.writePos + n ≤ 4096 * 2 ^ j ∧ (b.writePos + n ≤ maxCap → j ≤ 14) := by
  obtain ⟨k, hk, hlen⟩ := h.cap
  have hwrite := h.write_le
  have hdouble : b.data.length * 2 = 4096 * 2 ^ (k + 1) := by rw [hlen]; ring
  obtain ⟨j, hj, hroom, hfirst⟩ :=
    @growCap_spec b.writePos n (b.writePos + n) (k + 1) (by omega)
  refine ⟨j, hdouble ▸ hj, by omega, fun hmax => ?_⟩
  -- the power before is smaller than what is asked for, so below the limit
  have hbelow : ∀ i, 4096 * 2 ^ i < b.writePos + n → i < 14 := by
    intro i hi
    by_contra hge
    have := Nat.pow_le_pow_right (n := 2) (by omega) (Nat.le_of_not_lt hge)
    rw [maxCap_eq] at hmax
    omega
  rcases hfirst with rfl | hfirst
  · exact hbelow k (hlen ▸ hsmall)
  · have := hbelow (j - 1) hfirst
    omega

theorem ensureWritable_cases {b : Buffer} (h : b.Wf) (n : Nat) :
    (∃ b', b.ensureWritable n = .ok b' ∧ b'.Wf ∧ b'.readable = b.readable ∧
      n ≤ b'.writableSize ∧ b.readable.length + n ≤ maxCap) ∨
    (b.ensureWritable n = .error .bufferExceeded ∧ maxCap < b.readable.length + n) := by
  have hlen := h.readable_length
  have h₁ := h.read_le
  have h₂ := h.write_le
  have hmax := h.length_le
  unfold readableSize at hlen
  unfold ensureWritable
  split
  · rename_i hroom
    unfold writableSize at hroom
    exact Or.inl ⟨b, rfl, h, rfl, hroom, by omega⟩
  · obtain ⟨hpos, hcap⟩ := h.writableSize_compact
    have hc := h.compact
    have hread := h.readable_compact
    simp only
    split
    · rename_i hroom
      unfold writableSize at hroom
      exact Or.inl ⟨_, rfl, hc, hread, hroom, by omega⟩
    · rename_i hfull
      unfold writableSize at hfull
      have hwc := hc.write_le
      obtain ⟨j, hj, hroom, hj14⟩ := hc.grown (n := n) (by omega)
      rw [hj]
      split
      · rename_i hover
        refine Or.inr ⟨rfl, ?_⟩
        by_contra hle
        have := Nat.pow_le_pow_right (n := 2) (by omega) (hj14 (by omega))
        rw [maxCap_eq] at hover
        omega
      · have hj' : j ≤ 14 := hj14 (by omega)
        have hle : b.compact.data.length ≤ 4096 * 2 ^ j := by omega
        refine Or.inl ⟨_, rfl, hc.resize hj' hle, (hc.readable_resize _).trans hread, ?_, ?_⟩
        · rw [writableSize, resize_length hle]
          show n ≤ 4096 * 2 ^ j - b.compact.writePos
          omega
        · omega

/-- There is room as long as the content stays within 64 MiB. -/
theorem ensureWritable_ok {b : Buffer} (h : b.Wf) {n : Nat}
    (hn : b.readable.length + n ≤ maxCap) :
    ∃ b', b.ensureWritable n = .ok b' ∧ b'.Wf ∧ b'.readable = b.readable ∧
      n ≤ b'.writableSize := by
  rcases ensureWritable_cases h n with ⟨b', hb', hwf, hread, hroom, -⟩ | ⟨-, hover⟩
  · exact ⟨b', hb', hwf, hread, hroom⟩
  · omega

/-- And none beyond. -/
theorem ensureWritable_full {b : Buffer} (h : b.Wf) {n : Nat}
    (hn : maxCap < b.readable.length + n) :
    b.ensureWritable n = .error .bufferExceeded := by
  rcases ensureWritable_cases h n with ⟨b', -, -, -, -, hle⟩ | ⟨hfull, -⟩
  · omega
  · exact hfull

theorem append_ok {b : Buffer} (h : b.Wf) {s : Bytes}
    (hs : b.readable.length + s.length ≤ maxCap) :
    ∃ b', b.append s = .ok b' ∧ b'.Wf ∧ b'.readable = b.readable ++ s := by
  obtain ⟨b', hb', hwf, hread, hroom⟩ := ensureWritable_ok h hs
  refine ⟨b'.write s, by rw [append, hb'], hwf.write hroom, ?_⟩
  rw [hwf.readable_write, hread]

theorem append_full {b : Buffer} (h : b.Wf) {s : Bytes}
    (hs : maxCap < b.readable.length + s.length) : b.append s = .error .bufferExceeded := by
  rw [append, ensureWritable_full h hs]

end Buffer

end RedisCache.Network
