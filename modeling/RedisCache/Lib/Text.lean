import Mathlib

/-!
# Cutting texts apart

What a reader of a small text format does with lists of symbols: take them
apart into lines, cut a line in two at a symbol, drop what surrounds a word.
Each operation comes with the rule for a text that was put together the
other way.
-/

namespace Text

variable {α : Type*}

section Trim

variable (p : α → Bool)

/-- Without what `p` holds of at both ends. -/
def trim (s : List α) : List α := (s.dropWhile p).rdropWhile p

/-- There is nothing to trim. -/
def Tight (s : List α) : Prop := (∀ a ∈ s.head?, p a = false) ∧ ∀ a ∈ s.getLast?, p a = false

variable {p}

theorem Tight.reverse {s : List α} (h : Tight p s) : Tight p s.reverse := by
  constructor
  · intro a ha
    rw [List.head?_reverse] at ha
    exact h.2 a ha
  · intro a ha
    rw [List.getLast?_reverse] at ha
    exact h.1 a ha

/-- What `>>` takes from a stream: the first word, and what follows it. -/
def word (p : α → Bool) (s : List α) : List α × List α :=
  ((s.dropWhile p).takeWhile fun a => !p a, (s.dropWhile p).dropWhile fun a => !p a)

end Trim

section Cuts

variable [DecidableEq α]

/-- The parts before and behind the first `c`. -/
def cut (c : α) : List α → Option (List α × List α)
  | [] => none
  | a :: s => if a = c then some ([], s) else (cut c s).map fun r => (a :: r.1, r.2)

theorem cut_append {c : α} {s : List α} (h : c ∉ s) (r : List α) :
    cut c (s ++ c :: r) = some (s, r) := by
  induction s with
  | nil => rw [List.nil_append, cut, if_pos rfl]
  | cons a s ih =>
      rw [List.mem_cons, not_or] at h
      rw [List.cons_append, cut, if_neg (Ne.symm h.1), ih h.2, Option.map_some]

/-- The lines of a text; the last one may lack its end. -/
def lines (sep : α) : List α → List (List α)
  | [] => []
  | a :: s =>
      if a = sep then [] :: lines sep s
      else
        match lines sep s with
        | [] => [[a]]
        | l :: ls => (a :: l) :: ls

theorem lines_append {sep : α} {l : List α} (h : sep ∉ l) (s : List α) :
    lines sep (l ++ sep :: s) = l :: lines sep s := by
  induction l with
  | nil => rw [List.nil_append, lines, if_pos rfl]
  | cons a l ih =>
      rw [List.mem_cons, not_or] at h
      rw [List.cons_append, lines, if_neg (Ne.symm h.1), ih h.2]

end Cuts

end Text
