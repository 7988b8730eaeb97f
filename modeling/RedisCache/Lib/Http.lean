import Mathlib
import RedisCache.Lib.Decimal
import RedisCache.Lib.Framing

/-!
# Where a message with a length ends

HTTP/1.1 messages whose body is as long as a `Content-Length` line says: a
client's reader, and what it makes of a message that was put together the
other way, or of one that was cut short.
-/

namespace Http

open Framing

abbrev Bytes := List UInt8

def eol : Bytes := [13, 10]

/-- The lines up to the empty one, and what follows it. `line` is the part of the
first line that was read before. -/
def readHead (line : Bytes) : Bytes → Option (List Bytes × Bytes)
  | [] => none
  | 13 :: 10 :: s =>
      if line = [] then some ([], s) else (readHead [] s).map fun r => (line :: r.1, r.2)
  | b :: s => readHead (line ++ [b]) s

def lengthField : Bytes := "Content-Length: ".toList.map fun c => UInt8.ofNat c.toNat

/-- The number in the first line that gives a length. -/
def bodyLength (lines : List Bytes) : Option Nat :=
  lines.findSome? fun l =>
    if l.take 16 = lengthField then some (Decimal.value (l.drop 16)) else none

/-- The body, if all of it is there. -/
def read (s : Bytes) : Option Bytes :=
  (readHead [] s).bind fun r => (bodyLength r.1).bind fun n =>
    if n ≤ r.2.length then some (r.2.take n) else none

/-- The lines of the head, and the body. -/
def message (lines : List Bytes) (body : Bytes) : Bytes := lines.flatMap (· ++ eol) ++ (eol ++ body)

/-- A line may not be empty, nor hold a carriage return. -/
def IsLine (l : Bytes) : Prop := l ≠ [] ∧ 13 ∉ l

theorem readHead_cons {b : UInt8} {s : Bytes} (h : ∀ s', b = 13 → s = 10 :: s' → False)
    (line : Bytes) : readHead line (b :: s) = readHead (line ++ [b]) s := by
  rw [readHead]
  exact h

theorem readHead_line {l : Bytes} (h : 13 ∉ l) (line s : Bytes) :
    readHead line (l ++ (eol ++ s)) = readHead (line ++ l) (eol ++ s) := by
  induction l generalizing line with
  | nil => rw [List.nil_append, List.append_nil]
  | cons b l ih =>
      rw [List.mem_cons, not_or] at h
      rw [List.cons_append, readHead_cons fun _ hb _ => h.1 hb.symm, ih h.2, List.append_assoc,
        List.singleton_append]

theorem readHead_message {lines : List Bytes} (h : ∀ l ∈ lines, IsLine l) (body : Bytes) :
    readHead [] (message lines body) = some (lines, body) := by
  induction lines with
  | nil => rfl
  | cons l lines ih =>
      obtain ⟨hne, hcr⟩ := h l List.mem_cons_self
      have hrest := ih fun l' hl' => h l' (List.mem_cons_of_mem l hl')
      have hmessage : message (l :: lines) body = l ++ (eol ++ message lines body) := by
        simp only [message, List.flatMap_cons, List.append_assoc]
      rw [hmessage, readHead_line hcr, List.nil_append]
      show (if l = [] then _ else (readHead [] (message lines body)).map _) = _
      rw [if_neg hne, hrest, Option.map_some]

/-- What was found is still found with more behind it. -/
theorem readHead_append {line s : Bytes} {r : List Bytes × Bytes} (h : readHead line s = some r)
    (x : Bytes) : readHead line (s ++ x) = some (r.1, r.2 ++ x) := by
  induction line, s using readHead.induct generalizing r with
  | case1 => cases h
  | case2 s =>
      cases h
      rfl
  | case3 line s hline ih =>
      rw [readHead, if_neg hline, Option.map_eq_some_iff] at h
      obtain ⟨r', hr', rfl⟩ := h
      show (if line = [] then _ else (readHead [] (s ++ x)).map _) = _
      rw [if_neg hline, ih hr', Option.map_some]
  | case4 line b s hcase ih =>
      rw [readHead_cons hcase] at h
      cases s with
      | nil => cases h
      | cons c s =>
          rw [List.cons_append, readHead_cons, ih h]
          -- the line does not end with `b`, and what follows does not change that
          intro s' hb hs'
          obtain ⟨rfl, -⟩ := List.cons.inj hs'
          exact hcase s hb rfl

theorem read_message {lines : List Bytes} (h : ∀ l ∈ lines, IsLine l) {body : Bytes}
    (hlen : bodyLength lines = some body.length) : read (message lines body) = some body := by
  rw [read, readHead_message h, Option.bind_some, hlen, Option.bind_some, if_pos le_rfl,
    List.take_length]

/-- A message cut short gives no body. -/
theorem read_cut {lines : List Bytes} (h : ∀ l ∈ lines, IsLine l) {body : Bytes}
    (hlen : bodyLength lines = some body.length) {p : Bytes} (hp : CutOf p (message lines body)) :
    read p = none := by
  obtain ⟨⟨x, hx⟩, hne⟩ := hp
  cases hread : readHead [] p with
  | none => rw [read, hread, Option.bind_none]
  | some r =>
      have hwhole := readHead_append hread x
      rw [hx, readHead_message h, Option.some.injEq] at hwhole
      obtain ⟨rfl, rfl⟩ := Prod.mk.inj hwhole
      have hshort : ¬ (r.2 ++ x).length ≤ r.2.length := by
        intro hle
        rw [List.length_append] at hle
        obtain rfl : x = [] := List.length_eq_zero_iff.mp (by omega)
        exact hne (by rw [← hx, List.append_nil])
      rw [read, hread, Option.bind_some, hlen, Option.bind_some, if_neg hshort]

end Http
