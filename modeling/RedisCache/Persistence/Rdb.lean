import Mathlib
import RedisCache.Lib.BigEndian
import RedisCache.Storage.Contents

/-!
# The binary snapshot

`Rdb.cpp`. `save` writes the records of `for_each` to a temporary file and
renames it; `load` reads records until the end marker, which stands where the
next key length would, and puts each into the store with the time it has
left.

Both streams are modelled with their failures. An output stream that has
failed takes nothing more. A read that comes short leaves the rest of its
target as it was, and the targets of `read_u32` and `read_i64` are local
arrays nobody has initialised: what they hold is a parameter.

* `loadLoop_eq` — `load` is a pure reader of records followed by one `set`
  for each of them;
* `readRecords_file` — the reader finds exactly the records of a file that
  `save` wrote, and stops behind its end marker.
-/

namespace RedisCache.Persistence.Rdb

open Sections Storage

def magic : Bytes := ascii "CACHDB"

def version : UInt8 := 1

def eofMarker : Nat := 0xFFFFFFFF

/-! ## Numbers -/

/-- The bytes of `write_u32`. -/
def u32Bytes (v : Nat) : Bytes :=
  [UInt8.ofNat (v >>> 24), UInt8.ofNat (v >>> 16), UInt8.ofNat (v >>> 8), UInt8.ofNat v]

/-- The loop of `write_i64`, from `b[i - 1]` down. -/
def fillI64 : Nat → Nat → Bytes → Bytes
  | 0, _, b => b
  | i + 1, u, b => fillI64 i (u >>> 8) (UInt8.ofNat (u &&& 0xFF) :: b)

/-- The bytes of `write_i64`. -/
def i64Bytes (v : Int) : Bytes := fillI64 8 (toSizeT v) []

/-- What `read_u32` makes of its array. -/
def u32Of : Bytes → Nat
  | [b₀, b₁, b₂, b₃] => b₀.toNat <<< 24 ||| b₁.toNat <<< 16 ||| b₂.toNat <<< 8 ||| b₃.toNat
  | _ => 0

/-- What `read_i64` makes of its array. -/
def i64Of (b : Bytes) : Int := i64 (b.foldl (fun u c => u <<< 8 ||| c.toNat) 0 : Nat)

/-! ## Saving -/

/-- What goes wrong while saving: whether the file cannot be opened, where the
n-th write stops short, what is left after a failed `close`, and whether the
rename fails. -/
structure Faults where
  openFails : Bool := false
  writeStops : Nat → Option Nat := fun _ => none
  closeStops : Option Nat := none
  renameFails : Bool := false

/-- A `std::ofstream`. -/
structure Output where
  bytes : Bytes := []
  good : Bool := true
  writes : Nat := 0

def Output.write (io : Faults) (f : Output) (data : Bytes) : Output :=
  if !f.good then f
  else
    match io.writeStops f.writes with
    | none => ⟨f.bytes ++ data, true, f.writes + 1⟩
    | some n => ⟨f.bytes ++ data.take n, false, f.writes + 1⟩

/-- The lambda `save` passes to `for_each`. Lengths are cast to `uint32_t`. -/
def writeRecord (io : Faults) (f : Output) (r : Record) : Output :=
  let f := f.write io (u32Bytes (r.1.length % 2 ^ 32))
  let f := f.write io r.1
  let f := f.write io (u32Bytes (r.2.1.length % 2 ^ 32))
  let f := f.write io r.2.1
  f.write io (i64Bytes r.2.2)

/-- The snapshot and the temporary file next to it. -/
structure Files where
  path : Option Bytes := none
  tmp : Option Bytes := none

/-- `Rdb::save`. The lambda only writes to the file, so the records are
collected first. -/
def save (io : Faults) (files : Files) : StoreProg (Bool × Files) :=
  if io.openFails then pure (false, files)
  else do
    let records ← Store.forEach
    let f := ({} : Output).write io magic
    let f := f.write io [version]
    let f := records.foldl (writeRecord io) f
    let f := f.write io (u32Bytes eofMarker)
    match io.closeStops with
    | some n => pure (false, { files with tmp := some (f.bytes.take n) })
    | none =>
        if !f.good then pure (false, { files with tmp := some f.bytes })
        else if io.renameFails then pure (false, { files with tmp := some f.bytes })
        else pure (true, { path := some f.bytes, tmp := none })

/-! ## Loading -/

/-- A `std::ifstream`, and what the next uninitialised local bytes hold. -/
structure Input where
  rest : Bytes
  good : Bool := true
  junk : Nat → UInt8

/-- `f.read` into `buf`. -/
def Input.read (f : Input) (buf : Bytes) : Bytes × Input :=
  if !f.good then (buf, f)
  else
    (f.rest.take buf.length ++ buf.drop f.rest.length,
      { f with rest := f.rest.drop buf.length, good := decide (buf.length ≤ f.rest.length) })

/-- `f.read` into an array of `n` bytes that is not initialised. -/
def Input.readLocal (f : Input) (n : Nat) : Bytes × Input :=
  Input.read { f with junk := fun i => f.junk (i + n) } ((List.range n).map f.junk)

/-- `f.read` into a string of `n` NULs. -/
def Input.readString (f : Input) (n : Nat) : Bytes × Input := f.read (List.replicate n 0)

/-- `static_cast<uint8_t>(f.get())`: the end of the file reads as `0xFF`. -/
def Input.get (f : Input) : UInt8 × Input :=
  if !f.good then (0xFF, f)
  else
    match f.rest with
    | [] => (0xFF, { f with good := false })
    | b :: rest => (b, { f with rest := rest })

def readU32 (f : Input) : Nat × Input :=
  (u32Of (f.readLocal 4).1, (f.readLocal 4).2)

def readI64 (f : Input) : Int × Input :=
  (i64Of (f.readLocal 8).1, (f.readLocal 8).2)

/-- The rest of a record, behind its key length. -/
def readRecord (klen : Nat) (f : Input) : Record × Input :=
  let key := f.readString klen
  let vlen := readU32 key.2
  let val := vlen.2.readString vlen.1
  let exp := readI64 val.2
  ((key.1, val.1, exp.1), exp.2)

/-- Expired at rest. -/
def stale (now : Int) (r : Record) : Bool := decide (0 < r.2.2) && decide (r.2.2 ≤ now)

/-- The time a record has left, `-1` for no expiry. -/
def ttlOf (now : Int) (r : Record) : Int := if 0 < r.2.2 then i64 (r.2.2 - now) else -1

/-- `while (f)`, with the count so far. It returns the count and what is left
of the file; `none` says that it did not end. -/
def loadLoop (P : Platform) (maxKeys : Nat) (now : Int) :
    Nat → Input → Nat → StoreProg (Option (Nat × Bytes))
  | 0, _, _ => pure none
  | fuel + 1, f, count =>
      if !f.good then pure (some (count, f.rest))
      else if (readU32 f).1 = eofMarker then pure (some (count, (readU32 f).2.rest))
      else
        let r := readRecord (readU32 f).1 (readU32 f).2
        if stale now r.1 then loadLoop P maxKeys now fuel r.2 count
        else do
          Store.set P maxKeys r.1.1 r.1.2.1 (ttlOf now r.1)
          loadLoop P maxKeys now fuel r.2 (count + 1)

/-- `Rdb::load`, on the snapshot file or `none` when there is none. A version
mismatch is only logged. Every turn of the loop reads four bytes or ends the
stream. -/
def load (P : Platform) (maxKeys : Nat) (junk : Nat → UInt8) (file : Option Bytes) :
    StoreProg (Option (Nat × Bytes)) :=
  match file with
  | none => pure (some (0, []))
  | some bytes =>
      let header := Input.readLocal ⟨bytes, true, junk⟩ 6
      if header.1 ≠ magic then pure (some (0, header.2.rest))
      else
        let f := header.2.get.2
        do
          let now ← Prog.now
          loadLoop P maxKeys now (f.rest.length + 2) f 0

/-! ## Numbers read back -/

theorem u32Bytes_eq (v : Nat) : u32Bytes v = BigEndian.bytes 4 v := by
  simp [u32Bytes, BigEndian.bytes, Nat.shiftRight_eq_div_pow, Nat.div_div_eq_div_mul]

theorem u32Of_eq (b : Bytes) (h : b.length = 4) : u32Of b = BigEndian.value b := by
  match b, h with
  | [b₀, b₁, b₂, b₃], _ =>
      simp only [u32Of, BigEndian.value, List.foldl_cons, List.foldl_nil, Nat.zero_mul,
        Nat.zero_add]
      rw [← BigEndian.or_shift, ← BigEndian.or_shift, ← BigEndian.or_shift,
        Nat.shiftLeft_or_distrib, Nat.shiftLeft_or_distrib, Nat.shiftLeft_or_distrib,
        ← Nat.shiftLeft_add, ← Nat.shiftLeft_add, ← Nat.shiftLeft_add]

theorem fillI64_eq (i u : Nat) (b : Bytes) : fillI64 i u b = BigEndian.bytes i u ++ b := by
  induction i generalizing u b with
  | zero => rfl
  | succ i ih =>
      have hmask : UInt8.ofNat (u &&& 0xFF) = UInt8.ofNat u := by
        rw [← UInt8.toNat_inj, UInt8.toNat_ofNat', UInt8.toNat_ofNat',
          show (0xFF : Nat) = 2 ^ 8 - 1 from rfl, Nat.and_two_pow_sub_one_eq_mod, Nat.mod_mod]
      rw [fillI64, ih, BigEndian.bytes_shift, List.append_assoc, hmask]
      rfl

theorem i64Of_eq (b : Bytes) : i64Of b = i64 (BigEndian.value b : Nat) := by
  rw [i64Of, BigEndian.value]
  simp only [BigEndian.or_shift]

theorem u32Of_u32Bytes {v : Nat} (h : v < 2 ^ 32) : u32Of (u32Bytes v) = v := by
  rw [u32Bytes_eq, u32Of_eq _ (BigEndian.length_bytes 4 v), BigEndian.value_bytes_of_lt]
  simpa using h

theorem i64Of_i64Bytes {v : Int} (h : Decimal.InRange v) : i64Of (i64Bytes v) = v := by
  have hlt : toSizeT v < 256 ^ 8 := lt_of_lt_of_eq (toSizeT_lt v) (by norm_num)
  rw [i64Bytes, fillI64_eq, List.append_nil, i64Of_eq, BigEndian.value_bytes_of_lt hlt,
    i64_toSizeT h]

@[simp] theorem u32Bytes_length (v : Nat) : (u32Bytes v).length = 4 := rfl

@[simp] theorem i64Bytes_length (v : Int) : (i64Bytes v).length = 8 := by
  rw [i64Bytes, fillI64_eq, List.append_nil, BigEndian.length_bytes]

/-! ## The file -/

/-- One record in the file. -/
def encode (r : Record) : Bytes :=
  u32Bytes (r.1.length % 2 ^ 32) ++ (r.1 ++ (u32Bytes (r.2.1.length % 2 ^ 32) ++
    (r.2.1 ++ i64Bytes r.2.2)))

/-- A snapshot without its header. -/
def body (rs : List Record) : Bytes := rs.flatMap encode ++ u32Bytes eofMarker

theorem Output.write_ok {f : Output} (h : f.good = true) (data : Bytes) :
    (f.write {} data).good = true ∧ (f.write {} data).bytes = f.bytes ++ data := by
  simp [Output.write, h]

theorem writeRecord_ok {f : Output} (h : f.good = true) (r : Record) :
    (writeRecord {} f r).good = true ∧ (writeRecord {} f r).bytes = f.bytes ++ encode r := by
  simp [writeRecord, Output.write, h, encode]

theorem writeRecords_ok {f : Output} (h : f.good = true) (rs : List Record) :
    (rs.foldl (writeRecord {}) f).good = true ∧
      (rs.foldl (writeRecord {}) f).bytes = f.bytes ++ rs.flatMap encode := by
  induction rs generalizing f with
  | nil => exact ⟨h, (List.append_nil _).symm⟩
  | cons r rs ih =>
      obtain ⟨hgood, hbytes⟩ := writeRecord_ok h r
      obtain ⟨hgood', hbytes'⟩ := ih hgood
      refine ⟨hgood', ?_⟩
      rw [List.foldl_cons, hbytes', hbytes, List.flatMap_cons, List.append_assoc]

/-- What a `save` that found `rs` leaves behind, when nothing fails. -/
def saved (rs : List Record) : Bool × Files :=
  (true, ⟨some (magic ++ version :: body rs), none⟩)

theorem save_eq (files : Files) : save {} files = Store.forEach >>= fun rs => pure (saved rs) := by
  simp only [save, Bool.false_eq_true, if_false]
  refine congrArg _ (funext fun rs => ?_)
  obtain ⟨hgood, hbytes⟩ := writeRecords_ok
    (f := Output.write {} (Output.write {} {} magic) [version]) rfl rs
  obtain ⟨hgood', hbytes'⟩ := Output.write_ok hgood (u32Bytes eofMarker)
  rw [hgood', hbytes', hbytes]
  simp [saved, body, Output.write]

/-- `save`, alone. -/
theorem exec_save (files : Files) (now : Int) (s : Shards) :
    (save {} files).exec now s = (saved (Store.records now s), s) := by
  rw [save_eq, Prog.exec_bind, Store.exec_forEach, Prog.exec_pure]

/-! ## Reading a file back -/

section Reading

variable (rest : Bytes) (junk : Nat → UInt8)

theorem read_append {buf data : Bytes} (h : buf.length = data.length) :
    Input.read ⟨data ++ rest, true, junk⟩ buf = (data, ⟨rest, true, junk⟩) := by
  simp [Input.read, h]

theorem readLocal_append {n : Nat} {data : Bytes} (h : data.length = n) :
    Input.readLocal ⟨data ++ rest, true, junk⟩ n =
      (data, ⟨rest, true, fun i => junk (i + n)⟩) := by
  rw [Input.readLocal, read_append]
  simp [h]

theorem readString_append (data : Bytes) :
    Input.readString ⟨data ++ rest, true, junk⟩ data.length = (data, ⟨rest, true, junk⟩) := by
  rw [Input.readString, read_append]
  simp

theorem readU32_append {v : Nat} (h : v < 2 ^ 32) :
    readU32 ⟨u32Bytes v ++ rest, true, junk⟩ = (v, ⟨rest, true, fun i => junk (i + 4)⟩) := by
  rw [readU32, readLocal_append rest junk (u32Bytes_length v), u32Of_u32Bytes h]

theorem readI64_append {v : Int} (h : Decimal.InRange v) :
    readI64 ⟨i64Bytes v ++ rest, true, junk⟩ = (v, ⟨rest, true, fun i => junk (i + 8)⟩) := by
  rw [readI64, readLocal_append rest junk (i64Bytes_length v), i64Of_i64Bytes h]

end Reading

/-- The fields of the format hold the record: lengths below the end marker,
and a deadline that is an `int64_t`. -/
structure Fits (r : Record) : Prop where
  key : r.1.length < 2 ^ 32 - 1
  value : r.2.1.length < 2 ^ 32 - 1
  deadline : Decimal.InRange r.2.2

theorem readRecord_encode {r : Record} (h : Fits r) (rest : Bytes) (junk : Nat → UInt8) :
    readU32 ⟨encode r ++ rest, true, junk⟩ = (r.1.length,
      ⟨r.1 ++ (u32Bytes (r.2.1.length % 2 ^ 32) ++ (r.2.1 ++ i64Bytes r.2.2)) ++ rest, true,
        fun i => junk (i + 4)⟩) ∧
    readRecord r.1.length (readU32 ⟨encode r ++ rest, true, junk⟩).2 =
      (r, ⟨rest, true, fun i => junk (i + 8 + 4 + 4)⟩) := by
  obtain ⟨hkey, hvalue, hdeadline⟩ := h
  have hklen : r.1.length % 2 ^ 32 = r.1.length := Nat.mod_eq_of_lt (by omega)
  have hvlen : r.2.1.length % 2 ^ 32 = r.2.1.length := Nat.mod_eq_of_lt (by omega)
  have hread : readU32 ⟨encode r ++ rest, true, junk⟩ = (r.1.length,
      ⟨r.1 ++ (u32Bytes (r.2.1.length % 2 ^ 32) ++ (r.2.1 ++ i64Bytes r.2.2)) ++ rest, true,
        fun i => junk (i + 4)⟩) := by
    rw [encode, hklen, List.append_assoc, readU32_append _ _ (by omega)]
  refine ⟨hread, ?_⟩
  simp only [hread, readRecord, hvlen, List.append_assoc]
  rw [readString_append]
  simp only
  rw [readU32_append _ _ (by omega)]
  simp only
  rw [readString_append]
  simp only
  rw [readI64_append _ _ hdeadline]

/-! ## The reader and the store -/

/-- The records `load` puts into the store, and what it leaves of the file. -/
def readRecords (now : Int) : Nat → Input → List Record × Option Bytes
  | 0, _ => ([], none)
  | fuel + 1, f =>
      if !f.good then ([], some f.rest)
      else if (readU32 f).1 = eofMarker then ([], some (readU32 f).2.rest)
      else
        let r := readRecord (readU32 f).1 (readU32 f).2
        let more := readRecords now fuel r.2
        if stale now r.1 then more else (r.1 :: more.1, more.2)

def setRecords (P : Platform) (maxKeys : Nat) (now : Int) : List Record → StoreProg Unit
  | [] => pure ()
  | r :: rs => do
      Store.set P maxKeys r.1 r.2.1 (ttlOf now r)
      setRecords P maxKeys now rs

/-- Reading does not depend on the store: the loop is its reader, and then the
`set`s in file order. -/
theorem loadLoop_eq (P : Platform) (maxKeys : Nat) (now : Int) (fuel : Nat) (f : Input)
    (count : Nat) :
    loadLoop P maxKeys now fuel f count =
      setRecords P maxKeys now (readRecords now fuel f).1 >>= fun _ =>
        pure ((readRecords now fuel f).2.map fun rest =>
          (count + (readRecords now fuel f).1.length, rest)) := by
  induction fuel generalizing f count with
  | zero => rfl
  | succ fuel ih =>
      simp only [loadLoop, readRecords]
      split
      · rfl
      · split
        · rfl
        · split
          · exact ih _ _
          · simp only [setRecords, bind_assoc, ih, List.length_cons, Nat.add_assoc,
              Nat.add_comm 1]

/-- What the reader finds has been read as a record, and has not expired. -/
theorem mem_readRecords {now : Int} {fuel : Nat} {f : Input} {r : Record}
    (h : r ∈ (readRecords now fuel f).1) :
    stale now r = false ∧ ∃ klen g, r = (readRecord klen g).1 := by
  induction fuel generalizing f with
  | zero => simp [readRecords] at h
  | succ fuel ih =>
      simp only [readRecords] at h
      split at h
      · simp at h
      · split at h
        · simp at h
        · split at h
          · exact ih h
          · rename_i hstale
            rcases List.mem_cons.mp h with rfl | h
            · exact ⟨by simpa using hstale, _, _, rfl⟩
            · exact ih h

theorem encode_length (r : Record) : 16 ≤ (encode r).length := by
  simp only [encode, List.length_append, u32Bytes_length, i64Bytes_length]
  omega

theorem length_le_encoded (rs : List Record) : rs.length ≤ (rs.flatMap encode).length := by
  induction rs with
  | nil => exact Nat.le_refl 0
  | cons r rs ih =>
      have := encode_length r
      rw [List.flatMap_cons, List.length_append, List.length_cons]
      omega

/-- The reader, over records that are whole: those that are not stale, and then
what it makes of the rest. -/
theorem readRecords_append (now : Int) {rs : List Record} (hfits : ∀ r ∈ rs, Fits r)
    (rest : Bytes) (junk : Nat → UInt8) (fuel : Nat) :
    readRecords now (rs.length + fuel) ⟨rs.flatMap encode ++ rest, true, junk⟩ =
      ((rs.filter fun r => !stale now r) ++
          (readRecords now fuel ⟨rest, true, fun i => junk (i + 16 * rs.length)⟩).1,
        (readRecords now fuel ⟨rest, true, fun i => junk (i + 16 * rs.length)⟩).2) := by
  induction rs generalizing junk with
  | nil => simp
  | cons r rs ih =>
      have hfit := hfits r (by simp)
      have hne : r.1.length ≠ eofMarker := by
        have := hfit.key
        unfold eofMarker
        omega
      obtain ⟨hklen, hrec⟩ := readRecord_encode hfit (rs.flatMap encode ++ rest) junk
      rw [hklen] at hrec
      have hmore := ih (fun r' h => hfits r' (by simp [h])) (fun i => junk (i + 8 + 4 + 4))
      have hshift : (fun i => junk (i + 16 * rs.length + 8 + 4 + 4)) =
          fun i => junk (i + 16 * (rs.length + 1)) := by
        funext i
        exact congrArg junk (by omega)
      rw [hshift] at hmore
      rw [List.length_cons, show rs.length + 1 + fuel = rs.length + fuel + 1 by omega,
        List.flatMap_cons, List.append_assoc, readRecords]
      simp only [hklen, hne, Bool.not_true, Bool.false_eq_true, if_false, hrec, hmore]
      cases hstale : stale now r <;> simp [hstale]

/-- **The reader undoes the writer**: it finds the records of a snapshot that
are not stale in order, and stops behind the end marker, whatever follows. -/
theorem readRecords_file (now : Int) {rs : List Record} (hfits : ∀ r ∈ rs, Fits r)
    (tail : Bytes) (junk : Nat → UInt8) {fuel : Nat} (hfuel : rs.length < fuel) :
    readRecords now fuel ⟨body rs ++ tail, true, junk⟩ =
      (rs.filter fun r => !stale now r, some tail) := by
  obtain ⟨k, rfl⟩ : ∃ k, fuel = rs.length + (k + 1) := ⟨fuel - rs.length - 1, by omega⟩
  rw [body, List.append_assoc, readRecords_append now hfits]
  have hmarker := readU32_append tail (fun i => junk (i + 16 * rs.length))
    (show eofMarker < 2 ^ 32 by decide)
  simp [readRecords, hmarker]

/-! ## The header -/

/-- `load` on a file with a header. -/
theorem load_eq (P : Platform) (maxKeys : Nat) (junk : Nat → UInt8) (rest : Bytes) :
    load P maxKeys junk (some (magic ++ version :: rest)) = Prog.now >>= fun now =>
      loadLoop P maxKeys now (rest.length + 2) ⟨rest, true, fun i => junk (i + 6)⟩ 0 := by
  have hheader : Input.readLocal ⟨magic ++ version :: rest, true, junk⟩ 6 =
      (magic, ⟨version :: rest, true, fun i => junk (i + 6)⟩) :=
    readLocal_append _ junk rfl
  simp only [load, hheader, ne_eq, not_true_eq_false, if_false, Input.get, Bool.not_true,
    Bool.false_eq_true]

/-! ## Enough turns -/

/-- What is left to read; every turn of the loop makes it smaller. -/
def Input.left (f : Input) : Nat := if f.good then f.rest.length + 1 else 0

section Turns

variable {f : Input}

theorem Input.left_read_le (f : Input) (buf : Bytes) : (f.read buf).2.left ≤ f.left := by
  cases hgood : f.good with
  | false => simp [Input.read, hgood]
  | true =>
      by_cases h : buf.length ≤ f.rest.length
      · simp [Input.left, Input.read, hgood, h]
      · simp [Input.left, Input.read, hgood, h]

theorem left_readU32_lt (hgood : f.good = true) : (readU32 f).2.left < f.left := by
  by_cases h : 4 ≤ f.rest.length
  · simp [readU32, Input.readLocal, Input.left, Input.read, hgood, h]
    omega
  · simp [readU32, Input.readLocal, Input.left, Input.read, hgood, h]

theorem left_readRecord_le (klen : Nat) (f : Input) : (readRecord klen f).2.left ≤ f.left := by
  have hkey : (f.readString klen).2.left ≤ f.left := f.left_read_le _
  have hvlen : (readU32 (f.readString klen).2).2.left ≤ (f.readString klen).2.left :=
    Input.left_read_le _ _
  have hval : ((readU32 (f.readString klen).2).2.readString
      (readU32 (f.readString klen).2).1).2.left ≤ (readU32 (f.readString klen).2).2.left :=
    Input.left_read_le _ _
  have hexp : (readRecord klen f).2.left ≤ ((readU32 (f.readString klen).2).2.readString
      (readU32 (f.readString klen).2).1).2.left :=
    Input.left_read_le _ _
  exact hexp.trans (hval.trans (hvlen.trans hkey))

/-- With enough turns the reader ends, and more of them change nothing. -/
theorem readRecords_enough (now : Int) {fuel fuel' : Nat} (h : f.left < fuel)
    (h' : f.left < fuel') :
    readRecords now fuel f = readRecords now fuel' f ∧
      (readRecords now fuel f).2.isSome = true := by
  induction fuel generalizing f fuel' with
  | zero => omega
  | succ fuel ih =>
      obtain ⟨fuel', rfl⟩ : ∃ k, fuel' = k + 1 := ⟨fuel' - 1, by omega⟩
      simp only [readRecords]
      cases hgood : f.good with
      | false => simp
      | true =>
          have hlt := left_readU32_lt hgood
          have hle := left_readRecord_le (readU32 f).1 (readU32 f).2
          obtain ⟨heq, hsome⟩ := ih (f := (readRecord (readU32 f).1 (readU32 f).2).2)
            (by omega) (show _ < fuel' by omega)
          rw [← heq]
          simp only [Bool.not_true, Bool.false_eq_true, if_false, true_and]
          split
          · rfl
          · split
            · exact hsome
            · exact hsome

end Turns

/-! ## The whole file -/

/-- The records `load` calls `Store::set` for, with `rest` behind the header. -/
def found (now : Int) (junk : Nat → UInt8) (rest : Bytes) : List Record :=
  (readRecords now (rest.length + 2) ⟨rest, true, fun i => junk (i + 6)⟩).1

/-- `load` sets what it finds and returns how many records that was. -/
theorem load_found (P : Platform) (maxKeys : Nat) (junk : Nat → UInt8) (rest : Bytes) :
    ∃ left : Int → Bytes, load P maxKeys junk (some (magic ++ version :: rest)) =
      (Prog.now >>= fun now => setRecords P maxKeys now (found now junk rest) >>= fun _ =>
        pure (some ((found now junk rest).length, left now))) := by
  have hends : ∀ now, ∃ left, (readRecords now (rest.length + 2)
      ⟨rest, true, fun i => junk (i + 6)⟩).2 = some left := by
    intro now
    exact Option.isSome_iff_exists.mp (readRecords_enough now
      (show _ < rest.length + 2 from Nat.lt_succ_self _) (Nat.lt_succ_self _)).2
  choose left hleft using hends
  refine ⟨left, ?_⟩
  rw [load_eq]
  refine congrArg _ (funext fun now => ?_)
  rw [loadLoop_eq, hleft]
  simp [found]

end RedisCache.Persistence.Rdb
