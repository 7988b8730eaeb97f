import Mathlib
import RedisCache.Protocol.Bounds

/-!
# More input does not change an answer

Once the parser has an answer for a view — accepted, malformed or raised —
it gives the same answer, with the same count, when more bytes follow.

The accepted VALUE is not part of this. A bulk string whose length is below
`-1` takes all that is left of the view as its payload, so its value grows
with the input while its count stays.
-/

namespace RedisCache.Protocol

open Framing

/-- An answer without its value: the status and the count. -/
def gist (r : Except Exn ParseResult) : Except Exn (ParseStatus × Nat) :=
  r.map fun r => (r.status, r.consumed)

/-- `a` asks for more input, or says what `b` says. -/
def Settles (a b : Except Exn ParseResult) : Prop :=
  a = .ok .incomplete ∨ gist b = gist a

theorem Settles.refl (a : Except Exn ParseResult) : Settles a a := .inr rfl

theorem findCrlf_append {buf : Bytes} {n : Nat} (h : findCrlf buf = some n) (x : Bytes) :
    findCrlf (buf ++ x) = some n := by
  induction buf using findCrlf.induct generalizing n with
  | case1 => simp [findCrlf] at h
  | case2 => simp [findCrlf] at h
  | case3 a b rest hab => simpa only [List.cons_append, findCrlf, if_pos hab] using h
  | case4 a b rest hab ih =>
      simp only [findCrlf, if_neg hab, Option.map_eq_some_iff] at h
      obtain ⟨m, hm, rfl⟩ := h
      have hx := ih hm
      rw [List.cons_append] at hx
      simp only [List.cons_append, findCrlf, if_neg hab, hx, Option.map_some]

/-- The line is found again, at the same place. -/
theorem crlfLine_append {buf : Bytes} {n : Nat} (h : findCrlf buf = some n) (x : Bytes) :
    (buf ++ x).take n = buf.take n := by
  have := findCrlf_bound h
  exact List.take_append_of_le_length (by omega)

theorem parseSimpleString_settles (buf x : Bytes) :
    Settles (.ok (parseSimpleString buf)) (.ok (parseSimpleString (buf ++ x))) := by
  unfold parseSimpleString
  cases hc : findCrlf buf with
  | none => exact .inl rfl
  | some n =>
      rw [findCrlf_append hc x]
      exact .inr rfl

theorem parseError_settles (buf x : Bytes) :
    Settles (.ok (parseError buf)) (.ok (parseError (buf ++ x))) := by
  unfold parseError
  cases hc : findCrlf buf with
  | none => exact .inl rfl
  | some n =>
      rw [findCrlf_append hc x]
      exact .inr rfl

theorem parseInteger_settles (buf x : Bytes) :
    Settles (.ok (parseInteger buf)) (.ok (parseInteger (buf ++ x))) := by
  unfold parseInteger
  cases hc : findCrlf buf with
  | none => exact .inl rfl
  | some n =>
      simp only [findCrlf_append hc x, crlfLine_append hc x]
      exact .refl _

/-- The size check only gets easier with more input. -/
theorem parseBulkString_settles (buf x : Bytes) :
    Settles (.ok (parseBulkString buf)) (.ok (parseBulkString (buf ++ x))) := by
  unfold parseBulkString
  cases hc : findCrlf buf with
  | none => exact .inl rfl
  | some n =>
      simp only [findCrlf_append hc x, crlfLine_append hc x]
      cases hl : parseLength (buf.take n) with
      | none => exact .refl _
      | some len =>
          by_cases hnull : len = -1
          · simp only [if_pos hnull]
            exact .refl _
          · simp only [if_neg hnull]
            by_cases hfit : buf.length < u64 (n + 2 + u64 (toSizeT len + 2))
            · rw [if_pos hfit]
              exact .inl rfl
            · have hfit' : ¬ (buf ++ x).length < u64 (n + 2 + u64 (toSizeT len + 2)) := by
                rw [List.length_append]
                omega
              rw [if_neg hfit, if_neg hfit']
              exact .inr rfl

/-- The element loop, from any element on: each element's answer stands, so
the offsets agree. -/
theorem parseElements_settles (P : Platform) {buf x : Bytes}
    (hlt : (buf ++ x).length + 1 < sizeLimit)
    (ih : ∀ b, b.length ≤ buf.length → Settles (parse P b) (parse P (b ++ x)))
    (i : Nat) {offset : Nat} (hoff : offset ≤ buf.length) (arr arr' : List RespValue) :
    Settles (parseElements (parse P) buf i offset arr)
      (parseElements (parse P) (buf ++ x) i offset arr') := by
  induction i generalizing offset arr arr' with
  | zero => exact .inr rfl
  | succ i ihi =>
      rw [List.length_append] at hlt
      rw [parseElements, parseElements]
      by_cases hend : buf.length ≤ offset
      · rw [if_pos hend]
        exact .inl rfl
      · have hend' : ¬ (buf ++ x).length ≤ offset := by
          rw [List.length_append]
          omega
        have hdrop : (buf.drop offset).length ≤ buf.length := by
          rw [List.length_drop]
          omega
        rw [if_neg hend, if_neg hend', List.drop_append_of_le_length hoff]
        rcases ih _ hdrop with hwait | hsame
        · rw [hwait]
          exact .inl rfl
        · cases hp : parse P (buf.drop offset) with
          | error e =>
              cases hp' : parse P (buf.drop offset ++ x) with
              | error e' =>
                  rw [hp, hp'] at hsame
                  cases hsame
                  exact .refl _
              | ok r' => simp [hp, hp', gist, Except.map] at hsame
          | ok r =>
              cases hp' : parse P (buf.drop offset ++ x) with
              | error e' => simp [hp, hp', gist, Except.map] at hsame
              | ok r' =>
                  simp only [hp, hp', gist, Except.map, Except.ok.injEq, Prod.mk.injEq] at hsame
                  obtain ⟨hstatus, hcount⟩ := hsame
                  simp only [hstatus, hcount]
                  cases hs : r.status with
                  | incomplete => exact .inl rfl
                  | error => exact .refl _
                  | ok =>
                      obtain ⟨-, hle⟩ := parse_bounds P _ (by omega) hp hs
                      rw [List.length_drop] at hle
                      unfold sizeLimit at hlt
                      refine ihi ?_ _ _
                      rw [u64_of_lt (by omega)]
                      omega

theorem parseArray_settles (P : Platform) {buf x : Bytes}
    (hlt : (buf ++ x).length + 1 < sizeLimit)
    (ih : ∀ b, b.length ≤ buf.length → Settles (parse P b) (parse P (b ++ x))) :
    Settles (parseArray P (parse P) buf) (parseArray P (parse P) (buf ++ x)) := by
  unfold parseArray
  cases hc : findCrlf buf with
  | none => exact .inl rfl
  | some n =>
      simp only [findCrlf_append hc x, crlfLine_append hc x]
      cases hl : parseLength (buf.take n) with
      | none => exact .refl _
      | some count =>
          by_cases hnull : count = -1
          · simp only [if_pos hnull]
            exact .refl _
          · simp only [if_neg hnull]
            cases hres : reserve P (toSizeT count) with
            | error e => exact .refl _
            | ok _ =>
              have hn := findCrlf_bound hc
              refine parseElements_settles P hlt ih _ ?_ [] []
              rw [List.length_append] at hlt
              unfold sizeLimit at hlt
              rw [u64_of_lt (by omega)]
              exact hn

/-- **An answer stands**: with more bytes behind the view, the parser accepts,
refuses or raises as it did, with the same count. -/
theorem parse_settles (P : Platform) (buf x : Bytes) (hlt : (buf ++ x).length < sizeLimit) :
    Settles (parse P buf) (parse P (buf ++ x)) := by
  -- elements of an array are shorter views with the same bytes behind them
  induction hk : buf.length using Nat.strong_induction_on generalizing buf with
  | _ k ih =>
      rcases buf with _ | ⟨t, buf⟩
      · exact .inl rfl
      · rw [List.cons_append, List.length_cons] at hlt
        rw [List.length_cons] at hk
        have helem : ∀ b, b.length ≤ buf.length → Settles (parse P b) (parse P (b ++ x)) := by
          intro b hb
          refine ih b.length (by omega) b ?_ rfl
          rw [List.length_append] at hlt ⊢
          omega
        rw [List.cons_append, parse_cons, parse_cons]
        split_ifs
        · exact parseSimpleString_settles buf x
        · exact parseError_settles buf x
        · exact parseInteger_settles buf x
        · exact parseBulkString_settles buf x
        · exact parseArray_settles P hlt helem
        · exact .refl _

/-- A view that is refused in the end was refused or incomplete at every point
before. -/
theorem verdict_front (P : Platform) {p b : Bytes} (h : p <+: b) (hlt : b.length < sizeLimit)
    (hb : verdict P b = .error) : verdict P p = .incomplete ∨ verdict P p = .error := by
  obtain ⟨x, rfl⟩ := h
  have hp : p.length < sizeLimit := by
    rw [List.length_append] at hlt
    omega
  rcases parse_settles P p x hlt with hwait | hsame
  · exact .inl (by rw [verdict, hwait]; rfl)
  · cases answer P hlt with
    | ok v c hparse hv hpos hle => simp [hv] at hb
    | incomplete v c hparse hv => simp [hv] at hb
    | raised e hparse hv => simp [hv] at hb
    | error v c hparse hv =>
        cases answer P hp with
        | error v' c' hparse' hv' => exact .inr hv'
        | incomplete v' c' hparse' hv' => exact .inl hv'
        | ok v' c' hparse' hv' hpos' hle' =>
            simp [hparse, hparse', gist, Except.map] at hsame
        | raised e hparse' hv' => simp [hparse, hparse', gist, Except.map] at hsame

end RedisCache.Protocol
