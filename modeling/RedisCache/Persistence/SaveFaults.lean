import Mathlib
import RedisCache.Persistence.Rdb

/-!
# A save that fails

`Rdb::save` looks at the stream once, after `close`. That is enough: a stream
that is good there has taken every write before (`Output.Holds`), and only then
the rename puts the temporary file in the place of the snapshot. So `save`
either says `true` and has left a complete snapshot, or says `false` and has
left the old one.
-/

namespace RedisCache.Persistence.Rdb

open Sections Storage

variable {f : Output} {data : Bytes}

/-- As long as the stream is good, it has everything written to it. -/
def Output.Holds (f : Output) (data : Bytes) : Prop := f.good = true → f.bytes = data

theorem Output.Holds.write (h : f.Holds data) (io : Faults) (more : Bytes) :
    (f.write io more).Holds (data ++ more) := by
  intro hgood
  cases hf : f.good with
  | false =>
      -- the error is sticky
      simp [Output.write, hf] at hgood
  | true =>
      cases hio : io.writeStops f.writes with
      | none => simp [Output.write, hf, hio, h hf]
      | some n => simp [Output.write, hf, hio] at hgood

theorem Output.Holds.writeRecord (h : f.Holds data) (io : Faults) (r : Record) :
    (writeRecord io f r).Holds (data ++ encode r) := by
  simpa [Rdb.writeRecord, encode] using
    ((((h.write io _).write io r.1).write io _).write io r.2.1).write io (i64Bytes r.2.2)

theorem Output.Holds.writeRecords (h : f.Holds data) (io : Faults) (rs : List Record) :
    (rs.foldl (Rdb.writeRecord io) f).Holds (data ++ rs.flatMap encode) := by
  induction rs generalizing f data with
  | nil => simpa using h
  | cons r rs ih =>
      rw [List.foldl_cons, List.flatMap_cons, ← List.append_assoc]
      exact ih (h.writeRecord io r)

/-- The stream as it is closed, after the records `rs`. -/
def written (io : Faults) (rs : List Record) : Output :=
  (rs.foldl (writeRecord io) ((({} : Output).write io magic).write io [version])).write io
    (u32Bytes eofMarker)

theorem written_holds (io : Faults) (rs : List Record) :
    (written io rs).Holds (magic ++ version :: body rs) := by
  have hempty : ({} : Output).Holds [] := fun _ => rfl
  simpa [written, body] using
    ((((hempty.write io magic).write io [version]).writeRecords io rs).write io
      (u32Bytes eofMarker))

/-- **A failed save keeps the snapshot.** Whatever fails, `save` leaves the
encoding of the records it visited, up to the end marker, or the file that was
there. -/
theorem save_keeps_or_completes (io : Faults) (files : Files) (w : World Index Shard) :
    (((save io files).run w).1.1 = true ∧
      ((save io files).run w).1.2.path =
        some (magic ++ version :: ((Store.forEach.run w).1.flatMap encode ++
          [0xFF, 0xFF, 0xFF, 0xFF]))) ∨
    (((save io files).run w).1.1 = false ∧
      ((save io files).run w).1.2.path = files.path) := by
  cases hopen : io.openFails with
  | true => simp [save, hopen]
  | false =>
      have hholds := written_holds io (Store.forEach.run w).1
      cases hclose : io.closeStops with
      | some n => simp [save, hopen, hclose]
      | none =>
          simp only [save, hopen, hclose, Bool.false_eq_true, if_false, Prog.run_bind]
          rw [← written]
          cases hgood : (written io (Store.forEach.run w).1).good with
          | false => simp
          | true =>
              cases hrename : io.renameFails with
              | true => simp
              | false =>
                  exact Or.inl ⟨rfl, congrArg some (hholds hgood)⟩

/-! ## In two parts -/

/-- `save` behind `for_each`. -/
def finish (io : Faults) (files : Files) (rs : List Record) : Bool × Files :=
  match io.closeStops with
  | some n => (false, { files with tmp := some ((written io rs).bytes.take n) })
  | none =>
      if !(written io rs).good then (false, { files with tmp := some (written io rs).bytes })
      else if io.renameFails then (false, { files with tmp := some (written io rs).bytes })
      else (true, { path := some (written io rs).bytes, tmp := none })

theorem save_eq_finish {io : Faults} (h : io.openFails = false) (files : Files) :
    save io files = Store.forEach >>= fun rs => pure (finish io files rs) := by
  simp only [save, h, Bool.false_eq_true, if_false]
  refine congrArg _ (funext fun rs => ?_)
  rw [← written, finish]
  cases io.closeStops with
  | some n => rfl
  | none =>
      simp only
      split
      · rfl
      · split
        · rfl
        · rfl

/-- The old snapshot or a whole new one. -/
theorem finish_path (io : Faults) (files : Files) (rs : List Record) :
    (finish io files rs).2.path = files.path ∨
      (finish io files rs).2.path = some (magic ++ version :: body rs) := by
  have hholds := written_holds io rs
  rw [finish]
  cases io.closeStops with
  | some n => exact .inl rfl
  | none =>
      cases hgood : (written io rs).good with
      | false => exact .inl rfl
      | true =>
          cases io.renameFails with
          | true => exact .inl rfl
          | false => exact .inr (congrArg some (hholds hgood))

theorem finish_path_ok (files : Files) (rs : List Record) :
    (finish {} files rs).2.path = some (magic ++ version :: body rs) := by
  have hgood : (written {} rs).good = true :=
    (Output.write_ok (writeRecords_ok (f := Output.write {} (Output.write {} {} magic) [version])
      rfl rs).1 _).1
  have hholds := written_holds {} rs hgood
  simp only [finish, hgood, Bool.not_true, Bool.false_eq_true, if_false, hholds]

end RedisCache.Persistence.Rdb
