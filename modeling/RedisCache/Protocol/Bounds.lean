import Mathlib
import RedisCache.Protocol.RoundTrip

/-!
# Progress, bounds and raised exceptions

Three facts about EVERY view, well-formed or not.

* `parse_bounds`: an accepted value takes at least one byte and stays
  inside the view. The count is a `size_t` sum of attacker-chosen signed
  lengths; a length below `-1` passes the size check only when the wrapped
  sum lands inside the header that declared it.
* `BadHeader`: the headers on which `reserve` raises, said without the
  parser's control flow, and `parse_raises_iff`: they are exactly the
  views on which `parse` raises.
* `verdict`: the parser as an incremental decoder, with the framing laws
  that the read loops use.
-/

namespace RedisCache.Protocol

open Framing

/-- One more than the longest `std::string` there can be. -/
def sizeLimit : Nat := 2 ^ 63 - 1

/-! ## Progress and bounds -/

theorem findCrlf_consumed {buf : Bytes} {n : Nat} (h : findCrlf buf = some n)
    (hlt : buf.length + 1 < sizeLimit) :
    0 < u64 (1 + n + 2) ∧ u64 (1 + n + 2) ≤ buf.length + 1 := by
  have := findCrlf_bound h
  unfold sizeLimit at hlt
  rw [u64_of_lt (by omega)]
  omega

theorem parseSimpleString_bounds {buf : Bytes} (hlt : buf.length + 1 < sizeLimit)
    (hok : (parseSimpleString buf).status = .ok) :
    0 < (parseSimpleString buf).consumed ∧ (parseSimpleString buf).consumed ≤ buf.length + 1 := by
  unfold parseSimpleString at hok ⊢
  cases hc : findCrlf buf with
  | none => simp [hc, ParseResult.incomplete] at hok
  | some n => exact findCrlf_consumed hc hlt

theorem parseError_bounds {buf : Bytes} (hlt : buf.length + 1 < sizeLimit)
    (hok : (parseError buf).status = .ok) :
    0 < (parseError buf).consumed ∧ (parseError buf).consumed ≤ buf.length + 1 := by
  unfold parseError at hok ⊢
  cases hc : findCrlf buf with
  | none => simp [hc, ParseResult.incomplete] at hok
  | some n => exact findCrlf_consumed hc hlt

theorem parseInteger_bounds {buf : Bytes} (hlt : buf.length + 1 < sizeLimit)
    (hok : (parseInteger buf).status = .ok) :
    0 < (parseInteger buf).consumed ∧ (parseInteger buf).consumed ≤ buf.length + 1 := by
  unfold parseInteger at hok ⊢
  cases hc : findCrlf buf with
  | none => simp [hc, ParseResult.incomplete] at hok
  | some n =>
      cases hl : parseLength (buf.take n) with
      | none => simp [hc, hl, ParseResult.error] at hok
      | some len =>
          simp only [hl]
          exact findCrlf_consumed hc hlt

/-- A length below `-1` is the delicate case: the count is then the header's
size less a number the size check has bounded by it. -/
theorem parseBulkString_bounds {buf : Bytes} (hlt : buf.length + 1 < sizeLimit)
    (hok : (parseBulkString buf).status = .ok) :
    0 < (parseBulkString buf).consumed ∧ (parseBulkString buf).consumed ≤ buf.length + 1 := by
  unfold parseBulkString at hok ⊢
  cases hc : findCrlf buf with
  | none => simp [hc, ParseResult.incomplete] at hok
  | some n =>
      have hn := findCrlf_bound hc
      cases hl : parseLength (buf.take n) with
      | none => simp [hc, hl, ParseResult.error] at hok
      | some len =>
          obtain ⟨hlo, hhi⟩ := parseLength_inRange hl
          simp only [hc, hl] at hok ⊢
          split at hok
          · rename_i hnull
            rw [if_pos hnull]
            exact findCrlf_consumed hc hlt
          · rename_i hnull
            split at hok
            · simp [ParseResult.incomplete] at hok
            · rename_i hfit
              rw [if_neg hnull, if_neg hfit]
              simp only [ParseResult.ok]
              unfold sizeLimit at hlt
              unfold u64 toSizeT at *
              omega

/-- The element loop keeps its offset inside the view. -/
theorem parseElements_bounds (P : Platform) {buf : Bytes} (hlt : buf.length + 1 < sizeLimit)
    (ih : ∀ b r, b.length ≤ buf.length → parse P b = .ok r → r.status = .ok →
      0 < r.consumed ∧ r.consumed ≤ b.length)
    {i offset : Nat} (hoff : offset ≤ buf.length) {arr : List RespValue} {r : ParseResult}
    (hr : parseElements (parse P) buf i offset arr = .ok r) (hok : r.status = .ok) :
    0 < r.consumed ∧ r.consumed ≤ buf.length + 1 := by
  induction i generalizing offset arr with
  | zero =>
      simp only [parseElements, Except.ok.injEq] at hr
      subst hr
      unfold sizeLimit at hlt
      simp only [ParseResult.ok]
      rw [u64_of_lt (by omega)]
      omega
  | succ i ihi =>
      rw [parseElements] at hr
      split at hr
      · cases hr
        simp [ParseResult.incomplete] at hok
      · rename_i hmore
        cases hsub : parse P (buf.drop offset) with
        | error e => simp [hsub] at hr
        | ok res =>
            rw [hsub] at hr
            simp only at hr
            split at hr
            · cases hr
              simp [ParseResult.incomplete] at hok
            · cases hr
              simp [ParseResult.error] at hok
            · rename_i hres
              have hlen : (buf.drop offset).length = buf.length - offset := List.length_drop
              obtain ⟨h0, hle⟩ := ih _ res (by omega) hsub hres
              unfold sizeLimit at hlt
              refine ihi ?_ hr
              rw [u64_of_lt (by omega)]
              omega

/-- The cast to `size_t` turns a negative count into one `reserve` refuses. -/
theorem reserve_refuses_iff (P : Platform) {count : Int} (h : Decimal.InRange count)
    (hnull : count ≠ -1) :
    P.reserveLimit < toSizeT count ↔ (count < -1 ∨ (P.reserveLimit : Int) < count) := by
  have hmax := P.reserveLimit_lt
  obtain ⟨hlo, hhi⟩ := h
  unfold toSizeT
  omega

/-- What `parse_array` makes of its header line. -/
inductive ArrayHeader (P : Platform) (parse : Bytes → Except Exn ParseResult) (buf : Bytes) : Prop
  | more (line : findCrlf buf = none) (result : parseArray P parse buf = .ok .incomplete)
  | malformed (result : parseArray P parse buf = .ok .error)
  | null (n : Nat) (line : findCrlf buf = some n)
      (result : parseArray P parse buf =
        .ok (.ok { type := .array, isNull := true } (1 + n + 2)))
  | refused (n : Nat) (count : Int) (line : findCrlf buf = some n)
      (length : parseLength (buf.take n) = some count)
      (range : count < -1 ∨ (P.reserveLimit : Int) < count)
      (result : ∃ e, parseArray P parse buf = .error e)
  | elements (n : Nat) (count : Int) (line : findCrlf buf = some n)
      (length : parseLength (buf.take n) = some count)
      (nonneg : 0 ≤ count) (le : count ≤ P.reserveLimit)
      (result : parseArray P parse buf = parseElements parse buf count.toNat (n + 2) [])

theorem arrayHeader (P : Platform) (parse : Bytes → Except Exn ParseResult) {buf : Bytes}
    (hlt : buf.length + 1 < sizeLimit) : ArrayHeader P parse buf := by
  cases hc : findCrlf buf with
  | none => exact .more hc (by simp only [parseArray, hc])
  | some n =>
      have hn := findCrlf_bound hc
      unfold sizeLimit at hlt
      cases hl : parseLength (buf.take n) with
      | none => exact .malformed (by simp only [parseArray, hc, hl])
      | some count =>
          by_cases hnull : count = -1
          · exact .null n hc (by simp only [parseArray, hc, hl, if_pos hnull])
          · have hiff := reserve_refuses_iff P (parseLength_inRange hl) hnull
            by_cases hres : P.reserveLimit < toSizeT count
            · obtain ⟨e, he⟩ := reserve_error hres
              exact .refused n count hc hl (hiff.mp hres)
                ⟨e, by simp only [parseArray, hc, hl, if_neg hnull, he]⟩
            · have hrange := mt hiff.mpr hres
              have hoffset : u64 (n + 2) = n + 2 := u64_of_lt (by omega)
              have hserved := reserve_ok (not_lt.mp hres)
              exact .elements n count hc hl (by omega) (by omega)
                (by simp only [parseArray, hc, hl, if_neg hnull, hserved, hoffset])

/-- **Progress and bounds**: an accepted value takes at least one byte and at
most the whole view. -/
theorem parse_bounds (P : Platform) (buf : Bytes) (hlt : buf.length < sizeLimit)
    {r : ParseResult} (hr : parse P buf = .ok r) (hok : r.status = .ok) :
    0 < r.consumed ∧ r.consumed ≤ buf.length := by
  induction hk : buf.length using Nat.strong_induction_on generalizing buf r with
  | _ k ih =>
      rcases buf with _ | ⟨t, buf⟩
      · rw [parse_nil] at hr
        cases hr
        simp [ParseResult.incomplete] at hok
      · simp only [List.length_cons] at hk hlt
        subst hk
        rw [parse_cons] at hr
        split_ifs at hr
        · cases hr
          exact parseSimpleString_bounds hlt hok
        · cases hr
          exact parseError_bounds hlt hok
        · cases hr
          exact parseInteger_bounds hlt hok
        · cases hr
          exact parseBulkString_bounds hlt hok
        · cases arrayHeader P (parse P) hlt with
          | more hc hres =>
              rw [hres] at hr
              cases hr
              simp [ParseResult.incomplete] at hok
          | malformed hres =>
              rw [hres] at hr
              cases hr
              simp [ParseResult.error] at hok
          | null n hc hres =>
              rw [hres] at hr
              cases hr
              exact findCrlf_consumed hc hlt
          | refused n count hc hl hrange hres =>
              obtain ⟨e, he⟩ := hres
              rw [he] at hr
              cases hr
          | elements n count hc hl h0 hmax hres =>
              rw [hres] at hr
              refine parseElements_bounds P hlt ?_ (findCrlf_bound hc) hr hok
              intro b r hb hbr hrok
              exact ih b.length (by omega) b (by omega) hbr hrok rfl
        · cases hr
          simp [ParseResult.error] at hok

/-! ## The headers that raise -/

mutual
/-- The view starts with an array whose header — or the header of one of the
nested arrays the parser gets to — declares a count that `reserve` refuses. -/
inductive BadHeader (P : Platform) : Bytes → Prop
  | here {buf : Bytes} {n : Nat} {count : Int} :
      findCrlf buf = some n → parseLength (buf.take n) = some count →
      (count < -1 ∨ (P.reserveLimit : Int) < count) → BadHeader P (42 :: buf)
  | element {buf : Bytes} {n : Nat} {count : Int} :
      findCrlf buf = some n → parseLength (buf.take n) = some count →
      0 ≤ count → count ≤ P.reserveLimit → BadElement P buf count.toNat (n + 2) →
      BadHeader P (42 :: buf)

/-- Among the next `i` elements, the first at `offset`, there is a bad one
behind whole ones. -/
inductive BadElement (P : Platform) : Bytes → Nat → Nat → Prop
  | found {buf : Bytes} {i offset : Nat} :
      offset < buf.length → BadHeader P (buf.drop offset) → BadElement P buf (i + 1) offset
  | later {buf : Bytes} {i offset : Nat} {v : RespValue} {c : Nat} :
      offset < buf.length → parse P (buf.drop offset) = .ok ⟨.ok, v, c⟩ →
      BadElement P buf i (offset + c) → BadElement P buf (i + 1) offset
end

theorem raises_of_badHeader (P : Platform) {buf : Bytes} (h : BadHeader P buf)
    (hlt : buf.length < sizeLimit) : ∃ e, parse P buf = .error e := by
  -- by induction on both predicates, with the element loop's claim for the second
  refine @BadHeader.rec P
    (fun buf _ => buf.length < sizeLimit → ∃ e, parse P buf = .error e)
    (fun buf i offset _ => buf.length + 1 < sizeLimit → ∀ arr, ∃ e,
      parseElements (parse P) buf i offset arr = .error e) ?_ ?_ ?_ ?_ buf h hlt
  · intro buf n count hc hl hbad _
    have hne : count ≠ -1 := by omega
    obtain ⟨e, he⟩ := reserve_error ((reserve_refuses_iff P (parseLength_inRange hl) hne).mpr hbad)
    exact ⟨e, by simp only [parse_array, parseArray, hc, hl, if_neg hne, he]⟩
  · intro buf n count hc hl h0 hmax _ ih hlt
    have hn := findCrlf_bound hc
    have hlt' := hlt
    simp only [List.length_cons, sizeLimit] at hlt'
    have hserved : reserve P (toSizeT count) = .ok () := by
      refine reserve_ok (not_lt.mp fun hbad => ?_)
      rw [reserve_refuses_iff P (parseLength_inRange hl) (by omega)] at hbad
      omega
    rw [parse_array]
    simp only [parseArray, hc, hl, hserved]
    rw [if_neg (by omega), u64_of_lt (by omega)]
    exact ih hlt []
  · intro buf i offset hoff _ ih hlt arr
    obtain ⟨e, he⟩ := ih (by rw [List.length_drop]; omega)
    exact ⟨e, by rw [parseElements, if_neg (by omega), he]⟩
  · intro buf i offset v c hoff hp _ ih hlt arr
    obtain ⟨h0, hle⟩ := parse_bounds P _ (by rw [List.length_drop]; omega) hp rfl
    rw [List.length_drop] at hle
    simp only at hle
    have hlt' := hlt
    unfold sizeLimit at hlt'
    rw [parseElements, if_neg (by omega), hp]
    simp only
    rw [u64_of_lt (by omega)]
    exact ih hlt _

/-- If the loop raises, one of the elements it got to is bad. -/
theorem badElement_of_raises (P : Platform) {buf : Bytes} (hlt : buf.length + 1 < sizeLimit)
    (ih : ∀ b e, b.length ≤ buf.length → parse P b = .error e → BadHeader P b)
    {i offset : Nat} {arr : List RespValue} {e : Exn}
    (h : parseElements (parse P) buf i offset arr = .error e) : BadElement P buf i offset := by
  induction i generalizing offset arr with
  | zero => simp [parseElements] at h
  | succ i ihi =>
      rw [parseElements] at h
      split at h
      · cases h
      · rename_i hmore
        have hlen : (buf.drop offset).length = buf.length - offset := List.length_drop
        cases hsub : parse P (buf.drop offset) with
        | error e' => exact .found (by omega) (ih _ e' (by omega) hsub)
        | ok res =>
            obtain ⟨status, v, c⟩ := res
            rw [hsub] at h
            cases status with
            | incomplete => simp at h
            | error => simp at h
            | ok =>
                obtain ⟨h0, hle⟩ := parse_bounds P _ (by omega) hsub rfl
                simp only at h h0 hle
                unfold sizeLimit at hlt
                rw [u64_of_lt (by omega)] at h
                exact .later (by omega) hsub (ihi h)

theorem badHeader_of_raises (P : Platform) (buf : Bytes) (hlt : buf.length < sizeLimit)
    {e : Exn} (h : parse P buf = .error e) : BadHeader P buf := by
  induction hk : buf.length using Nat.strong_induction_on generalizing buf e with
  | _ k ih =>
      rcases buf with _ | ⟨t, buf⟩
      · simp at h
      · simp only [List.length_cons] at hk hlt
        subst hk
        rw [parse_cons] at h
        split_ifs at h with h1 h2 h3 h4 h5
        subst h5
        cases arrayHeader P (parse P) hlt with
        | more hc hres => simp [hres] at h
        | malformed hres => simp [hres] at h
        | null n hc hres => simp [hres] at h
        | refused n count hc hl hrange hres => exact .here hc hl hrange
        | elements n count hc hl h0 hmax hres =>
            rw [hres] at h
            refine .element hc hl h0 hmax (badElement_of_raises P hlt ?_ h)
            intro b e hb hbe
            exact ih b.length (by omega) b (by omega) hbe rfl

/-- **When a parse raises**: exactly on the bad headers. -/
theorem parse_raises_iff (P : Platform) {buf : Bytes} (hlt : buf.length < sizeLimit) :
    (∃ e, parse P buf = .error e) ↔ BadHeader P buf :=
  ⟨fun ⟨_, h⟩ => badHeader_of_raises P buf hlt h, fun h => raises_of_badHeader P h hlt⟩

/-! ## The parser as an incremental decoder -/

/-- The parser's answer, as a decoder's verdict. -/
def verdict (P : Platform) (buf : Bytes) : Verdict RespValue :=
  match parse P buf with
  | .error _ => .raised
  | .ok r =>
      match r.status with
      | .ok => .ok r.value r.consumed
      | .incomplete => .incomplete
      | .error => .error

theorem verdict_code (P : Platform) :
    Code (Resp.Fits P) sizeLimit Resp.encode Resp.toValue (verdict P) where
  whole v x hv hlt := by
    unfold sizeLimit at hlt
    rw [verdict, (roundTrips P v hv).whole x (by omega)]
  cut v p hv hlt hp := by
    unfold sizeLimit at hlt
    rw [verdict, (roundTrips P v hv).cut p (by omega) hp]
  nonempty := Resp.encode_ne_nil

/-- The four answers of the parser, with what each says about the buffer. -/
inductive Answer (P : Platform) (buf : Bytes) : Prop
  | ok (v : RespValue) (n : Nat) (parsed : parse P buf = .ok ⟨.ok, v, n⟩)
      (verdict : verdict P buf = .ok v n) (pos : 0 < n) (le : n ≤ buf.length)
  | incomplete (v : RespValue) (n : Nat) (parsed : parse P buf = .ok ⟨.incomplete, v, n⟩)
      (verdict : verdict P buf = .incomplete)
  | error (v : RespValue) (n : Nat) (parsed : parse P buf = .ok ⟨.error, v, n⟩)
      (verdict : verdict P buf = .error)
  | raised (e : Exn) (parsed : parse P buf = .error e) (verdict : verdict P buf = .raised)

theorem answer (P : Platform) {buf : Bytes} (hlt : buf.length < sizeLimit) : Answer P buf := by
  cases hparse : parse P buf with
  | error e => exact .raised e hparse (by rw [verdict, hparse])
  | ok r =>
      obtain ⟨status, v, n⟩ := r
      cases status with
      | ok =>
          obtain ⟨hpos, hle⟩ := parse_bounds P buf hlt hparse rfl
          exact .ok v n hparse (by rw [verdict, hparse]) hpos hle
      | incomplete => exact .incomplete v n hparse (by rw [verdict, hparse])
      | error => exact .error v n hparse (by rw [verdict, hparse])

/-- The decoder moves on: what it accepts is a nonempty part of the buffer. -/
theorem verdict_progress (P : Platform) : Progress sizeLimit (verdict P) := by
  intro buf a n hlt h
  cases answer P hlt with
  | ok v c hparse hv hpos hle =>
      rw [hv] at h
      cases h
      exact ⟨hpos, hle⟩
  | incomplete v c hparse hv => simp [hv] at h
  | error v c hparse hv => simp [hv] at h
  | raised e hparse hv => simp [hv] at h

/-- The decoder raises exactly on the bad headers. -/
theorem verdict_raised_iff (P : Platform) {buf : Bytes} (hlt : buf.length < sizeLimit) :
    verdict P buf = .raised ↔ BadHeader P buf := by
  rw [← parse_raises_iff P hlt]
  cases answer P hlt with
  | ok v c hparse hv hpos hle => simp [hparse, hv]
  | incomplete v c hparse hv => simp [hparse, hv]
  | error v c hparse hv => simp [hparse, hv]
  | raised e hparse hv => simp [hparse, hv]

end RedisCache.Protocol
