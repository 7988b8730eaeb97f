import Mathlib

/-!
# Glob patterns

A pattern is a list of pieces, each of which stands for any string or for one
character of a set; it matches a string as a whole (`Matches`, decided by
`accepts`). `compile` reads a byte string as a pattern: `*`, `?`, sets in
brackets with ranges and negation, and `\` before a character that is to be
taken for itself. Character classes and collating symbols are left out.

Implementations differ in such corners. `Semantics` is what they have in
common and what a program may rely on: `*` matches everything, and a pattern
without special characters matches itself and nothing else.
-/

namespace Glob

/-! ## Pieces -/

section Pieces

variable {α : Type*}

inductive Piece (α : Type*) where
  | many
  | one (set : α → Bool)

inductive Matches : List (Piece α) → List α → Prop
  | nil : Matches [] []
  | one {set : α → Bool} {c : α} {ps : List (Piece α)} {s : List α} :
      set c = true → Matches ps s → Matches (.one set :: ps) (c :: s)
  | many (skipped : List α) {ps : List (Piece α)} {s : List α} :
      Matches ps s → Matches (.many :: ps) (skipped ++ s)

def accepts : List (Piece α) → List α → Bool
  | [], s => s.isEmpty
  | .many :: ps, s => s.tails.any (accepts ps)
  | .one _ :: _, [] => false
  | .one set :: ps, c :: s => set c && accepts ps s

theorem matches_nil {s : List α} : Matches [] s ↔ s = [] := by
  constructor
  · intro h
    cases h
    rfl
  · rintro rfl
    exact .nil

theorem matches_many {ps : List (Piece α)} {s : List α} :
    Matches (.many :: ps) s ↔ ∃ t, t <:+ s ∧ Matches ps t := by
  constructor
  · intro h
    cases h with
    | many skipped h => exact ⟨_, List.suffix_append _ _, h⟩
  · rintro ⟨t, ⟨skipped, rfl⟩, h⟩
    exact .many skipped h

theorem matches_one {set : α → Bool} {ps : List (Piece α)} {s : List α} :
    Matches (.one set :: ps) s ↔ ∃ c t, s = c :: t ∧ set c = true ∧ Matches ps t := by
  constructor
  · intro h
    cases h with
    | one hc h => exact ⟨_, _, rfl, hc, h⟩
  · rintro ⟨c, t, rfl, hc, h⟩
    exact .one hc h

theorem accepts_iff (ps : List (Piece α)) (s : List α) : accepts ps s = true ↔ Matches ps s := by
  induction ps generalizing s with
  | nil => rw [accepts, List.isEmpty_iff, matches_nil]
  | cons piece ps ih =>
      cases piece with
      | many => simp only [accepts, List.any_eq_true, List.mem_tails, ih, matches_many]
      | one set =>
          cases s with
          | nil => simp [accepts, matches_one]
          | cons c s => simp [accepts, matches_one, ih]

instance (ps : List (Piece α)) (s : List α) : Decidable (Matches ps s) :=
  decidable_of_iff _ (accepts_iff ps s)

theorem matches_everything (s : List α) : Matches [.many] s :=
  matches_many.mpr ⟨[], List.nil_suffix, .nil⟩

/-- Characters that stand for themselves. -/
theorem matches_exactly [DecidableEq α] (p s : List α) :
    Matches (p.map fun c => .one (· == c)) s ↔ s = p := by
  induction p generalizing s with
  | nil => exact matches_nil
  | cons c p ih =>
      rw [List.map_cons, matches_one]
      simp only [beq_iff_eq, ih]
      constructor
      · rintro ⟨c', t, rfl, rfl, rfl⟩
        rfl
      · rintro rfl
        exact ⟨c, p, rfl, rfl, rfl⟩

end Pieces

/-! ## Patterns as byte strings -/

/-- `x` is one of the characters between brackets, `a-z` being all from `a` to
`z`. -/
def inSet : List UInt8 → UInt8 → Bool
  | c :: 45 :: d :: p, x => (decide (c ≤ x) && decide (x ≤ d)) || inSet p x
  | c :: p, x => x == c || inSet p x
  | [], _ => false

/-- The set that ends with the next closing bracket, but not with one that comes
first, and the pattern behind it. -/
def closed (negated : Bool) : List UInt8 → Option ((UInt8 → Bool) × List UInt8)
  | [] => none
  | c :: p =>
      match p.dropWhile (· ≠ 93) with
      | [] => none
      | _ :: behind =>
          some (fun x => (inSet (c :: p.takeWhile (· ≠ 93)) x).xor negated, behind)

/-- The set behind an opening bracket; `!` or `^` in front negates it. -/
def bracket : List UInt8 → Option ((UInt8 → Bool) × List UInt8)
  | [] => none
  | c :: p => if c = 33 ∨ c = 94 then closed true p else closed false (c :: p)

theorem closed_length {negated : Bool} {p : List UInt8} {r : (UInt8 → Bool) × List UInt8}
    (h : closed negated p = some r) : r.2.length < p.length := by
  cases p with
  | nil => cases h
  | cons c p =>
      rw [closed] at h
      split at h
      · cases h
      · rename_i d behind hbehind
        cases h
        have hle := (List.dropWhile_sublist (l := p) (· ≠ 93)).length_le
        rw [hbehind, List.length_cons] at hle
        exact (Nat.lt_of_succ_le hle).trans (Nat.lt_succ_self _)

theorem bracket_length {p : List UInt8} {r : (UInt8 → Bool) × List UInt8}
    (h : bracket p = some r) : r.2.length < p.length := by
  cases p with
  | nil => cases h
  | cons c p =>
      rw [bracket] at h
      split at h
      · exact (closed_length h).trans (Nat.lt_succ_self _)
      · exact closed_length h

/-- A bracket that is not closed stands for itself; a `\` at the end matches
nothing. -/
def compile : List UInt8 → List (Piece UInt8)
  | [] => []
  | c :: p =>
      if c = 42 then .many :: compile p
      else if c = 63 then .one (fun _ => true) :: compile p
      else if c = 92 then .one (fun x => p.head? == some x) :: compile p.tail
      else if c = 91 then
        match _ : bracket p with
        | some r => .one r.1 :: compile r.2
        | none => .one (· == c) :: compile p
      else .one (· == c) :: compile p
termination_by p => p.length
decreasing_by
  · exact Nat.lt_succ_self _
  · exact Nat.lt_succ_self _
  · exact Nat.lt_succ_of_le p.tail_sublist.length_le
  · exact (bracket_length ‹bracket p = some r›).trans (Nat.lt_succ_self _)
  · exact Nat.lt_succ_self _
  · exact Nat.lt_succ_self _

/-- The characters that do not stand for themselves: `*`, `?`, `[` and `\`. -/
def special : List UInt8 := [42, 63, 91, 92]

/-- No character is special. -/
def Plain (p : List UInt8) : Prop := ∀ c ∈ p, c ∉ special

instance (p : List UInt8) : Decidable (Plain p) :=
  inferInstanceAs (Decidable (∀ c ∈ p, c ∉ special))

theorem Plain.compile_eq {p : List UInt8} (h : Plain p) :
    compile p = p.map fun c => .one (· == c) := by
  induction p with
  | nil => rw [compile, List.map_nil]
  | cons c p ih =>
      obtain ⟨hc, hp⟩ := List.forall_mem_cons.mp h
      simp only [special, List.mem_cons, List.not_mem_nil, or_false, not_or] at hc
      rw [compile, if_neg hc.1, if_neg hc.2.1, if_neg hc.2.2.2, if_neg hc.2.2.1, ih hp,
        List.map_cons]

/-- A way to read byte strings as patterns. -/
structure Semantics where
  Matches : List UInt8 → List UInt8 → Prop
  star : ∀ s, Matches [42] s
  plain : ∀ {p}, Plain p → ∀ s, Matches p s ↔ s = p

/-- The patterns of this file. -/
def shell : Semantics where
  Matches p s := Matches (compile p) s
  star s := by
    have hcompile : compile [42] = [.many] := by
      rw [compile, if_pos rfl, compile]
    rw [hcompile]
    exact matches_everything s
  plain h s := by
    rw [h.compile_eq]
    exact matches_exactly _ s

instance (p s : List UInt8) : Decidable (shell.Matches p s) :=
  inferInstanceAs (Decidable (Matches (compile p) s))

-- `h[^ae-]*o\?`
example : shell.Matches [104, 91, 94, 97, 101, 45, 93, 42, 111, 92, 63] [104, 105, 0, 111, 63] := by
  decide +kernel

end Glob
