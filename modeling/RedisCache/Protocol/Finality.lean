import Mathlib
import RedisCache.Protocol.Grammar

/-!
# When an answer is final

A refusal is final: it has no value and no count, whatever follows. An
accepted value is final exactly if the view meets no bulk string with a
length below `-1` (`Meets AnyBytes`): such a string takes all there is as
its payload, and with more bytes behind it there is more to take.
-/

namespace RedisCache.Protocol

open Decimal

/-! ## Refusals -/

theorem parseElements_refuses {f : Bytes → Except Exn ParseResult} {buf : Bytes} {i offset : Nat}
    {arr : List RespValue} {r : ParseResult} (h : parseElements f buf i offset arr = .ok r)
    (hr : r.status = .error) : r = .error := by
  induction i generalizing offset arr with
  | zero =>
      simp only [parseElements, Except.ok.injEq] at h
      subst h
      cases hr
  | succ i ih =>
      rw [parseElements] at h
      split_ifs at h
      · cases h
        cases hr
      · cases hsub : f (buf.drop offset) with
        | error e => simp [hsub] at h
        | ok res =>
            rw [hsub] at h
            cases hs : res.status with
            | incomplete =>
                simp only [hs, Except.ok.injEq] at h
                subst h
                cases hr
            | error =>
                simp only [hs, Except.ok.injEq] at h
                exact h.symm
            | ok =>
                simp only [hs] at h
                exact ih h

theorem parseArray_refuses {P : Platform} {f : Bytes → Except Exn ParseResult} {buf : Bytes}
    {r : ParseResult} (h : parseArray P f buf = .ok r) (hr : r.status = .error) : r = .error := by
  unfold parseArray at h
  split at h
  · cases h
    cases hr
  · split at h
    · exact (Except.ok.inj h).symm
    · split_ifs at h
      · cases h
        cases hr
      · split at h
        · cases h
        · exact parseElements_refuses h hr

theorem parseBulkString_refuses {buf : Bytes} (hr : (parseBulkString buf).status = .error) :
    parseBulkString buf = .error := by
  revert hr
  unfold parseBulkString
  split
  · exact fun hr => by cases hr
  · split
    · exact fun _ => rfl
    · simp only
      split_ifs <;> exact fun hr => by cases hr

theorem parseInteger_refuses {buf : Bytes} (hr : (parseInteger buf).status = .error) :
    parseInteger buf = .error := by
  revert hr
  unfold parseInteger
  split
  · exact fun hr => by cases hr
  · split
    · exact fun _ => rfl
    · exact fun hr => by cases hr

/-- **A refusal** has no value and no count. -/
theorem parse_refuses {P : Platform} {buf : Bytes} {r : ParseResult} (h : parse P buf = .ok r)
    (hr : r.status = .error) : r = .error := by
  cases buf with
  | nil =>
      cases h
      cases hr
  | cons t buf =>
      rw [parse_cons] at h
      split_ifs at h
      · cases h
        unfold parseSimpleString at hr
        split at hr <;> cases hr
      · cases h
        unfold parseError at hr
        split at hr <;> cases hr
      · cases h
        exact parseInteger_refuses hr
      · cases h
        exact parseBulkString_refuses hr
      · exact parseArray_refuses h hr
      · exact (Except.ok.inj h).symm

/-! ## Elements behind a row -/

/-- A derivation at the front is what the parser accepts there. -/
theorem Derives.accepted {P : Platform} {w x : Bytes} {v v' : RespValue} {c : Nat}
    (h : Derives AnyBytes w v) (hlt : (w ++ x).length < sizeLimit)
    (hp : parse P (w ++ x) = .ok ⟨.ok, v', c⟩) (hc : c ≤ (w ++ x).length) :
    v' = v ∧ c = w.length := by
  have hcases : Derives AnyBytes ((w ++ x).take c) v' ∨ Meets AnyBytes (w ++ x) :=
    derives_or_meets P _ hlt hp
  rcases hcases with hd | hm
  · have heq : (w ++ x).take c ++ (w ++ x).drop c = w ++ x := List.take_append_drop _ _
    obtain ⟨htake, rfl⟩ := Derives.front hd h heq
    refine ⟨rfl, ?_⟩
    rw [← htake, List.length_take]
    omega
  · exact (hm.not_row h (by simp)).elim

theorem Row.head {ends : Bytes → Prop} {w : Bytes} {v : RespValue} {vs : List RespValue}
    (h : Row ends w (v :: vs)) : ∃ u x, w = u ++ x ∧ Derives ends u v ∧ Row ends x vs := by
  cases h with
  | @leaf u x _ _ hleaf hrow =>
      exact ⟨u, x, rfl, hleaf.derives, hrow⟩
  | @array l u x us _ hn hin hrow =>
      exact ⟨line 42 l ++ u, x, (List.append_assoc _ _ _).symm, hin.derives hn, hrow⟩

/-- The array loop takes the values of a row, and goes on behind it. -/
theorem Row.elements {P : Platform} {w x : Bytes} {vs us : List RespValue} {c : Nat}
    (h : Row AnyBytes w vs) (hlt : (w ++ x).length < sizeLimit) (he : Elements P (w ++ x) us c)
    (hle : vs.length ≤ us.length) : ∃ us' c', us = vs ++ us' ∧ Elements P x us' c' := by
  induction vs generalizing w us c with
  | nil =>
      cases h
      exact ⟨us, c, rfl, he⟩
  | cons v vs ih =>
      obtain ⟨u, y, rfl, hv, hrow⟩ := h.head
      rw [List.append_assoc] at hlt he
      generalize hbuf : u ++ (y ++ x) = buf at he
      cases he with
      | nil => simp at hle
      | cons hp hc hrest =>
          subst hbuf
          obtain ⟨rfl, rfl⟩ := hv.accepted hlt hp hc
          rw [List.drop_left] at hrest
          rw [List.length_append] at hlt
          obtain ⟨us', c', rfl, htail⟩ := ih hrow (by omega) hrest (by simpa using hle)
          exact ⟨us', c', rfl, htail⟩

/-! ## Accepted values -/

/-- Without a length below `-1`, what is accepted stays. -/
theorem accepted_stays (P : Platform) {buf x : Bytes} {v v' : RespValue} {c c' : Nat}
    (hlt : (buf ++ x).length < sizeLimit) (hp : parse P buf = .ok ⟨.ok, v, c⟩)
    (hp' : parse P (buf ++ x) = .ok ⟨.ok, v', c'⟩) (hmeets : ¬ Meets AnyBytes buf) : v' = v := by
  have hb : buf.length < sizeLimit := by
    rw [List.length_append] at hlt
    omega
  obtain ⟨-, hc'⟩ := parse_bounds P _ hlt hp' rfl
  have hd := (derives_or_meets P buf hb hp).resolve_right hmeets
  have hbuf : buf ++ x = buf.take c ++ (buf.drop c ++ x) := by
    rw [← List.append_assoc, List.take_append_drop]
  rw [hbuf] at hlt hp' hc'
  exact (hd.accepted hlt hp' hc').1

/-- A bulk string with a length below `-1` takes all there is. -/
theorem accepted_negative (P : Platform) {l y : Bytes} {n : Int} {v : RespValue} {c : Nat}
    (hn : Numeral l n) (hneg : n < -1) (hlt : (line 36 l ++ y).length < sizeLimit)
    (hp : parse P (line 36 l ++ y) = .ok ⟨.ok, v, c⟩) :
    v = { type := .bulkString, str := y } := by
  cases parse_accepted P hlt hp with
  | leaf w x split size leaf =>
      have hmeets : Meets AnyBytes (w ++ x) := split ▸ .here hn (.inl hneg)
      exact (hmeets.not_row leaf.derives (by simp)).elim
  | negative l' x n' split length negative value =>
      obtain ⟨-, -, -, rfl⟩ := header_inj hn length split
      exact value
  | array l' x vs c' split length elements value size =>
      have := (header_inj hn length split).1
      exact absurd this (by decide)

/-- An array with a count holds as many elements. -/
theorem accepted_array (P : Platform) {l y : Bytes} {n : Int} {v : RespValue} {c : Nat}
    (hn : Numeral l n) (h0 : 0 ≤ n) (hlt : (line 42 l ++ y).length < sizeLimit)
    (hp : parse P (line 42 l ++ y) = .ok ⟨.ok, v, c⟩) :
    ∃ us c', us.length = n ∧ Elements P y us c' ∧ v = { type := .array, array := us } := by
  cases parse_accepted P hlt hp with
  | leaf w x split size leaf => exact (leaf.not_header hn h0 split.symm).elim
  | negative l' x n' split length negative value =>
      have := (header_inj hn length split).1
      exact absurd this (by decide)
  | array l' x vs c' split length elements value size =>
      obtain ⟨-, rfl, hcount, rfl⟩ := header_inj hn length split
      exact ⟨vs, c', hcount.symm, elements, value⟩

/-- With one, what is accepted grows. -/
theorem Meets.grows {P : Platform} {buf x : Bytes} {v v' : RespValue} {c c' : Nat}
    (h : Meets AnyBytes buf) (hlt : (buf ++ x).length < sizeLimit) (hx : x ≠ [])
    (hp : parse P buf = .ok ⟨.ok, v, c⟩) (hp' : parse P (buf ++ x) = .ok ⟨.ok, v', c'⟩) :
    v' ≠ v := by
  induction h generalizing v v' c c' with
  | @here l rest n hn hbad =>
      have hneg : n < -1 := hbad.resolve_right fun hend => hend.2 trivial
      rw [List.append_assoc] at hlt hp'
      obtain rfl := accepted_negative P hn hneg
        (by simp only [List.length_append] at hlt ⊢; omega) hp
      obtain rfl := accepted_negative P hn hneg hlt hp'
      intro heq
      have hstr : rest ++ x = rest := congrArg RespValue.str heq
      exact hx (List.append_right_eq_self.mp hstr)
  | @inside l w rest n vs hn hrow hcount hmeets ih =>
      simp only [List.append_assoc] at hlt hp'
      have hlt' := hlt
      simp only [List.length_append] at hlt'
      obtain ⟨us, d, hus, helems, rfl⟩ := accepted_array P hn (by omega)
        (by simp only [List.length_append]; omega) hp
      obtain ⟨us', d', hus', helems', rfl⟩ := accepted_array P hn (by omega) hlt hp'
      -- both loops take the row, and go on at the element that grows
      obtain ⟨ts, e, rfl, htail⟩ := hrow.elements
        (by simp only [List.length_append]; omega) helems (by omega)
      obtain ⟨ts', e', rfl, htail'⟩ := hrow.elements
        (by simp only [List.length_append]; omega) helems' (by omega)
      simp only [List.length_append] at hus hus'
      cases htail with
      | nil =>
          rw [List.length_nil] at hus
          omega
      | cons hq hle hrest =>
          generalize hbuf : rest ++ x = buf' at htail'
          cases htail' with
          | nil =>
              rw [List.length_nil] at hus'
              omega
          | cons hq' hle' hrest' =>
              subst hbuf
              intro heq
              have harr := List.append_cancel_left (congrArg RespValue.array heq)
              exact ih (by simp only [List.length_append]; omega) hq hq' (List.cons.inj harr).1

/-- **Which verdicts are final.** When a view is accepted or refused, a longer
one gets the same answer exactly if it was refused, or it meets no bulk
string with a length below `-1`. -/
theorem verdict_final_iff (P : Platform) (b x : Bytes) (hlt : (b ++ x).length < sizeLimit)
    (r : ParseResult) (hp : parse P b = .ok r) (hr : r.status = .ok ∨ r.status = .error) :
    parse P (b ++ x) = .ok r ↔ x = [] ∨ r.status = .error ∨ ¬ Meets AnyBytes b := by
  have hsettled : ∃ v c, parse P (b ++ x) = .ok ⟨r.status, v, c⟩ ∧ c = r.consumed := by
    rcases parse_settles P b x hlt with hwait | hsame
    · rw [hp, Except.ok.injEq] at hwait
      subst hwait
      simp [ParseResult.incomplete] at hr
    · rw [hp] at hsame
      cases hp' : parse P (b ++ x) with
      | error e => simp [hp', gist, Except.map] at hsame
      | ok r' =>
          obtain ⟨s, v, c⟩ := r'
          simp only [hp', gist, Except.map, Except.ok.injEq, Prod.mk.injEq] at hsame
          exact ⟨v, c, by rw [hsame.1], hsame.2⟩
  obtain ⟨v', c', hp', hc'⟩ := hsettled
  constructor
  · intro hsame
    by_contra hnot
    push Not at hnot
    obtain ⟨hx, hok, hmeets⟩ := hnot
    obtain ⟨s, v, c⟩ := r
    obtain rfl : s = .ok := hr.resolve_right hok
    exact hmeets.grows hlt hx hp hsame rfl
  · intro hfinal
    by_cases herr : r.status = .error
    · rw [hp', parse_refuses hp' herr, parse_refuses hp herr]
    · rcases hfinal with rfl | hrefused | hmeets
      · rwa [List.append_nil]
      · exact absurd hrefused herr
      · obtain ⟨s, v, c⟩ := r
        obtain rfl : s = .ok := hr.resolve_right herr
        rw [hp', accepted_stays P hlt hp hp' hmeets, hc']

/-- A `PING` that was accepted stays one with more behind it. -/
theorem verdict_final_ping : parse .concrete (ascii "+PING\r\n" ++ ascii "$-2\r\n") =
    .ok ⟨.ok, { type := .simpleString, str := ascii "PING" }, 7⟩ := by
  have hping : Derives AnyBytes (ascii "+PING\r\n")
      { type := .simpleString, str := ascii "PING" } :=
    (Leaf.simpleString (s := ascii "PING") (not_infix_of_notMem (by decide))).derives
  refine (verdict_final_iff .concrete (ascii "+PING\r\n") (ascii "$-2\r\n") (by decide)
    ⟨.ok, { type := .simpleString, str := ascii "PING" }, 7⟩ rfl (.inl rfl)).mpr
    (.inr (.inr fun hmeets => ?_))
  exact Meets.not_row (x := []) hmeets hping (by simp)

/-- A length of `-2`: one byte more changes the value. -/
theorem verdict_changes :
    parse .concrete (ascii "$-2\r\n") = .ok ⟨.ok, { type := .bulkString, str := [] }, 5⟩ ∧
      parse .concrete (ascii "$-2\r\n" ++ ascii "a") =
        .ok ⟨.ok, { type := .bulkString, str := ascii "a" }, 5⟩ :=
  ⟨rfl, rfl⟩

end RedisCache.Protocol
