import Mathlib
import RedisCache.Protocol.Lines

/-!
# Decoding undoes encoding, incrementally

`RoundTrips P v`: the encoding of `v`, followed by anything, parses to `v`
and takes exactly the encoding's bytes; every cut of it parses to
`Incomplete` with nothing consumed. `roundTrips` proves it for every value
by induction over the nesting, the element loop of `parse_array` by
induction over the elements that are still to come.
-/

namespace RedisCache.Protocol

open Framing

/-- What it means for the parser to undo the encoding of `v`. -/
structure RoundTrips (P : Platform) (v : Resp) : Prop where
  whole : ∀ x, (v.encode ++ x).length < 2 ^ 63 →
    parse P (v.encode ++ x) = .ok ⟨.ok, v.toValue, v.encode.length⟩
  cut : ∀ p, p.length < 2 ^ 63 → CutOf p v.encode → parse P p = .ok ⟨.incomplete, {}, 0⟩

/-! ## Lines -/

/-- The type bytes of the protocol. -/
def IsTypeByte (t : UInt8) : Prop := t = 43 ∨ t = 45 ∨ t = 58 ∨ t = 36 ∨ t = 42

/-- No line end yet: every helper asks for more. -/
theorem parse_of_findCrlf_none (P : Platform) {t : UInt8} (ht : IsTypeByte t) {q : Bytes}
    (h : findCrlf q = none) : parse P (t :: q) = .ok .incomplete := by
  rcases ht with rfl | rfl | rfl | rfl | rfl
  · simp only [parse_simpleString, parseSimpleString, h]
  · simp only [parse_error, parseError, h]
  · simp only [parse_integer, parseInteger, h]
  · simp only [parse_bulkString, parseBulkString, h]
  · simp only [parse_array, parseArray, h]

theorem parse_cut_line (P : Platform) {t : UInt8} (ht : IsTypeByte t) {l p : Bytes}
    (hl : ¬ crlf <:+: l) (hp : CutOf p (line t l)) : parse P p = .ok .incomplete := by
  rcases hp.of_cons with rfl | ⟨q, rfl, hq⟩
  · rfl
  · exact parse_of_findCrlf_none P ht (findCrlf_cut hl hq)

theorem take_line (l x : Bytes) : (l ++ crlf ++ x).take l.length = l := by
  rw [List.append_assoc, List.take_left]

theorem drop_line (l x : Bytes) : (l ++ crlf ++ x).drop (l.length + 2) = x := by
  rw [show l.length + 2 = (l ++ crlf).length by simp [crlf], List.drop_left]

theorem length_line_rest (l x : Bytes) : (l ++ crlf ++ x).length = l.length + 2 + x.length := by
  simp only [crlf, List.length_append, List.length_cons, List.length_nil]

theorem line_append (t : UInt8) (l x : Bytes) : line t l ++ x = t :: (l ++ crlf ++ x) := rfl

theorem line_length (t : UInt8) (l : Bytes) : (line t l).length = 1 + l.length + 2 := by
  simp [line, crlf]
  omega

/-- The consumed count of a line-shaped value is the line's length. -/
theorem ok_line (v : RespValue) {t : UInt8} {l x : Bytes}
    (h : (line t l ++ x).length < 2 ^ 63) :
    ParseResult.ok v (1 + l.length + 2) = ⟨.ok, v, (line t l).length⟩ := by
  rw [List.length_append] at h
  rw [ParseResult.ok, line_length, u64_of_lt]
  rw [line_length] at h
  omega

/-! ## The line-shaped values -/

theorem roundTrips_simpleString (P : Platform) (s : Text) :
    RoundTrips P (.simpleString s) where
  whole x hx := by
    rw [encode_simpleString] at hx ⊢
    rw [line_append, parse_simpleString, parseSimpleString, findCrlf_line s.2, ← ok_line _ hx]
    simp only [take_line, Resp.toValue]
  cut p _ hp := parse_cut_line P (.inl rfl) s.2 hp

theorem roundTrips_error (P : Platform) (s : Text) : RoundTrips P (.error s) where
  whole x hx := by
    rw [encode_error] at hx ⊢
    rw [line_append, parse_error, parseError, findCrlf_line s.2, ← ok_line _ hx]
    simp only [take_line, Resp.toValue]
  cut p _ hp := parse_cut_line P (.inr (.inl rfl)) s.2 hp

theorem roundTrips_integer (P : Platform) (n : I64) : RoundTrips P (.integer n) where
  whole x hx := by
    rw [encode_integer] at hx ⊢
    rw [line_append, parse_integer, parseInteger, findCrlf_line (not_infix_ofInt _),
      ← ok_line _ hx]
    simp only [take_line, parseLength_ofInt n.2, Resp.toValue]
  cut p _ hp := parse_cut_line P (.inr (.inr (.inl rfl))) (not_infix_ofInt _) hp

theorem roundTrips_nullBulk (P : Platform) : RoundTrips P .nullBulk where
  whole x hx := by
    rw [encode_nullBulk] at hx ⊢
    rw [line_append, parse_bulkString, parseBulkString, findCrlf_line (not_infix_ofInt _),
      ← ok_line _ hx]
    simp only [take_line, parseLength_ofInt (show Decimal.InRange (-1) by decide), if_true,
      Resp.toValue]
  cut p _ hp := by
    rw [encode_nullBulk] at hp
    exact parse_cut_line P (.inr (.inr (.inr (.inl rfl)))) (not_infix_ofInt _) hp

theorem roundTrips_nullArray (P : Platform) : RoundTrips P .nullArray where
  whole x hx := by
    rw [encode_nullArray] at hx ⊢
    rw [line_append, parse_array, parseArray, findCrlf_line (not_infix_ofInt _),
      ← ok_line _ hx]
    simp only [take_line, parseLength_ofInt (show Decimal.InRange (-1) by decide), if_true,
      Resp.toValue]
  cut p _ hp := by
    rw [encode_nullArray] at hp
    exact parse_cut_line P (.inr (.inr (.inr (.inr rfl)))) (not_infix_ofInt _) hp

/-! ## Bulk strings -/

theorem inRange_length {n : Nat} (h : n < 2 ^ 63) : Decimal.InRange (n : Int) := by
  unfold Decimal.InRange
  omega

theorem toSizeT_length {n : Nat} (h : n < 2 ^ 63) : toSizeT (n : Int) = n := by
  rw [toSizeT_of_nonneg (by omega) (by omega), Int.toNat_natCast]

/-- Past its header, `parse_bulk_string` compares the payload it has with the
payload it needs; below `2^63` bytes nothing wraps. -/
theorem parse_bulk_header (P : Platform) {n : Nat} (hn : n < 2 ^ 63) {x : Bytes}
    (hx : (line 36 (Decimal.ofInt n) ++ x).length < 2 ^ 63) :
    parse P (line 36 (Decimal.ofInt n) ++ x) =
      .ok (if x.length < n + 2 then .incomplete
        else .ok { type := .bulkString, str := x.take n }
          ((line 36 (Decimal.ofInt n)).length + n + 2)) := by
  have hlen := length_line_rest (Decimal.ofInt n) x
  rw [line_append, List.length_cons, hlen] at hx
  rw [line_append, parse_bulkString, parseBulkString, findCrlf_line (not_infix_ofInt _)]
  have hne : ¬ ((n : Int) = -1) := by omega
  have hcontent : u64 (n + 2) = n + 2 := u64_of_lt (by omega)
  have hheader : u64 (1 + (Decimal.ofInt n).length + 2) = (line 36 (Decimal.ofInt n)).length := by
    rw [line_length, u64_of_lt (by omega)]
  have hneed : u64 ((Decimal.ofInt n).length + 2 + (n + 2))
      = (Decimal.ofInt n).length + 2 + (n + 2) := u64_of_lt (by omega)
  simp only [take_line, drop_line, parseLength_ofInt (inRange_length hn), if_neg hne,
    toSizeT_length hn, hcontent, hheader, hneed, hlen]
  by_cases hshort : x.length < n + 2
  · rw [if_pos hshort, if_pos (by omega)]
  · rw [if_neg hshort, if_neg (by omega)]

theorem roundTrips_bulkString (P : Platform) {s : Bytes} (hs : s.length < 2 ^ 63) :
    RoundTrips P (.bulkString s) where
  whole x hx := by
    rw [encode_bulkString, List.append_assoc] at hx ⊢
    rw [parse_bulk_header P hs hx]
    have hlen := length_line_rest s x
    rw [if_neg (by omega), take_line]
    have htotal : (line 36 (Decimal.ofInt s.length) ++ (s ++ crlf)).length
        = (line 36 (Decimal.ofInt s.length)).length + s.length + 2 := by
      simp [crlf, Nat.add_assoc]
    rw [List.length_append, hlen] at hx
    rw [ParseResult.ok, htotal, u64_of_lt (by omega), Resp.toValue]
  cut p hlt hp := by
    rw [encode_bulkString] at hp
    rcases hp.of_append with hp | ⟨r, rfl, hr⟩
    · exact parse_cut_line P (.inr (.inr (.inr (.inl rfl)))) (not_infix_ofInt _) hp
    · have hshort := hr.length_lt
      rw [show (s ++ crlf).length = s.length + 2 by simp [crlf]] at hshort
      rw [parse_bulk_header P hs hlt, if_pos hshort]
      rfl

/-! ## Arrays -/

/-- The element loop over whole elements: `pre` is what the loop has behind
it, `vs` what it has ahead. -/
theorem parseElements_whole (P : Platform) {vs : List Resp} (hvs : ∀ v ∈ vs, RoundTrips P v)
    {pre x : Bytes} (arr : List RespValue)
    (h : 1 + (pre ++ (Resp.encodeAll vs ++ x)).length < 2 ^ 63) :
    parseElements (parse P) (pre ++ (Resp.encodeAll vs ++ x)) vs.length pre.length arr =
      .ok ⟨.ok, { type := .array, array := arr ++ Resp.toValues vs },
        1 + pre.length + (Resp.encodeAll vs).length⟩ := by
  induction vs generalizing pre arr with
  | nil =>
      simp only [List.length_append] at h
      rw [Resp.encodeAll, Resp.toValues, List.length_nil, parseElements, ParseResult.ok,
        u64_of_lt (by omega), List.append_nil, List.length_nil, Nat.add_zero]
  | cons v vs ih =>
      have hv := hvs v (by simp)
      have hne : 0 < v.encode.length := List.length_pos_iff.mpr v.encode_ne_nil
      rw [Resp.encodeAll] at h ⊢
      simp only [List.length_append] at h
      have hmore : ¬ (pre ++ (v.encode ++ Resp.encodeAll vs ++ x)).length ≤ pre.length := by
        simp only [List.length_append]
        omega
      have hparse : parse P ((pre ++ (v.encode ++ Resp.encodeAll vs ++ x)).drop pre.length)
          = .ok ⟨.ok, v.toValue, v.encode.length⟩ := by
        rw [List.drop_left, List.append_assoc]
        apply hv.whole
        simp only [List.length_append]
        omega
      rw [List.length_cons, parseElements, if_neg hmore, hparse]
      -- the loop goes on with `v` moved behind it
      have hshift : pre ++ (v.encode ++ Resp.encodeAll vs ++ x)
          = (pre ++ v.encode) ++ (Resp.encodeAll vs ++ x) := by simp
      have hrest := @ih (fun w hw => hvs w (by simp [hw])) (pre ++ v.encode)
        (arr ++ [v.toValue]) (by simp only [List.length_append]; omega)
      simp only [hshift, u64_of_lt (show pre.length + v.encode.length < 2 ^ 64 by omega)]
      rw [← List.length_append, hrest]
      simp only [Resp.toValues, List.append_assoc, List.singleton_append, List.length_append,
        Nat.add_assoc]

/-- The element loop over a cut: some elements whole, one cut short or not
there at all. -/
theorem parseElements_cut (P : Platform) {vs : List Resp} (hvs : ∀ v ∈ vs, RoundTrips P v)
    {pre r : Bytes} (arr : List RespValue) (h : (pre ++ r).length < 2 ^ 63)
    (hr : CutOf r (Resp.encodeAll vs)) :
    parseElements (parse P) (pre ++ r) vs.length pre.length arr = .ok .incomplete := by
  induction vs generalizing pre r arr with
  | nil => exact absurd rfl hr.ne_nil
  | cons v vs ih =>
      have hv := hvs v (by simp)
      simp only [List.length_append] at h
      rw [Resp.encodeAll] at hr
      rw [List.length_cons, parseElements]
      rcases hr.of_append with hcut | ⟨r', rfl, hr'⟩
      · by_cases hnil : (pre ++ r).length ≤ pre.length
        · rw [if_pos hnil]
        · rw [if_neg hnil, List.drop_left, hv.cut r (by omega) hcut]
      · have hne : 0 < v.encode.length := List.length_pos_iff.mpr v.encode_ne_nil
        simp only [List.length_append] at h
        have hmore : ¬ (pre ++ (v.encode ++ r')).length ≤ pre.length := by
          simp only [List.length_append]
          omega
        rw [if_neg hmore, List.drop_left, hv.whole r' (by simp only [List.length_append]; omega)]
        have hrest := @ih (fun w hw => hvs w (by simp [hw])) (pre ++ v.encode) r'
          (arr ++ [v.toValue]) (by simp only [List.length_append]; omega) hr'
        simp only [u64_of_lt (show pre.length + v.encode.length < 2 ^ 64 by omega)]
        rw [← List.length_append, ← List.append_assoc, hrest]

/-- Past its header, `parse_array` runs the element loop. -/
theorem parse_array_header (P : Platform) {n : Nat} (hn : n ≤ P.reserveLimit) {x : Bytes}
    (hx : (line 42 (Decimal.ofInt n) ++ x).length < 2 ^ 63) :
    parse P (line 42 (Decimal.ofInt n) ++ x) =
      parseElements (parse P) (Decimal.ofInt n ++ crlf ++ x) n
        (Decimal.ofInt n ++ crlf).length [] := by
  have hmax := P.reserveLimit_lt
  have hn' : n < 2 ^ 63 := by omega
  have hne : ¬ ((n : Int) = -1) := by omega
  have hlen : (Decimal.ofInt n).length + 2 = (Decimal.ofInt n ++ crlf).length := by simp [crlf]
  rw [line_append, List.length_cons, List.length_append] at hx
  rw [line_append, parse_array, parseArray, findCrlf_line (not_infix_ofInt _)]
  simp only [take_line, parseLength_ofInt (inRange_length hn'), if_neg hne,
    toSizeT_length hn', reserve_ok hn, Int.toNat_natCast, hlen]
  rw [u64_of_lt (by omega)]

theorem roundTrips_array (P : Platform) {vs : List Resp} (hlen : vs.length ≤ P.reserveLimit)
    (hvs : ∀ v ∈ vs, RoundTrips P v) : RoundTrips P (.array vs) where
  whole x hx := by
    rw [encode_array, List.append_assoc] at hx ⊢
    rw [parse_array_header P hlen hx]
    rw [line_append, List.length_cons] at hx
    rw [parseElements_whole P hvs [] (by omega), List.nil_append, Resp.toValue]
    simp only [line, List.cons_append, List.length_cons, List.length_append]
    congr 2
    omega
  cut p hlt hp := by
    rw [encode_array] at hp
    rcases hp.of_append with hp | ⟨r, rfl, hr⟩
    · exact parse_cut_line P (.inr (.inr (.inr (.inr rfl)))) (not_infix_ofInt _) hp
    · rw [parse_array_header P hlen hlt]
      rw [line_append, List.length_cons] at hlt
      exact parseElements_cut P hvs [] (by omega) hr

/-! ## Every value -/

mutual
theorem roundTrips (P : Platform) : ∀ v : Resp, v.Fits P → RoundTrips P v
  | .simpleString s, _ => roundTrips_simpleString P s
  | .error s, _ => roundTrips_error P s
  | .integer n, _ => roundTrips_integer P n
  | .bulkString _, h => roundTrips_bulkString P h
  | .nullBulk, _ => roundTrips_nullBulk P
  | .array vs, h => roundTrips_array P h.1 (roundTrips_all P vs h.2)
  | .nullArray, _ => roundTrips_nullArray P

theorem roundTrips_all (P : Platform) :
    ∀ vs : List Resp, Resp.FitsAll P vs → ∀ v ∈ vs, RoundTrips P v
  | [], _ => by simp
  | w :: ws, h => by
      have hw := roundTrips P w h.1
      have hws := roundTrips_all P ws h.2
      intro v hv
      rcases List.mem_cons.mp hv with rfl | hv
      · exact hw
      · exact hws v hv
end

mutual
/-- The record stands for one value only. -/
theorem toValue_inj : ∀ v w : Resp, v.toValue = w.toValue → v = w
  | .array vs, .array ws, h => by
      rw [Resp.toValue, Resp.toValue, RespValue.mk.injEq] at h
      rw [toValues_inj vs ws h.2.2.2.1]
  | .simpleString s, w, h => by cases w <;> simp_all [Resp.toValue, Subtype.ext_iff]
  | .error s, w, h => by cases w <;> simp_all [Resp.toValue, Subtype.ext_iff]
  | .integer n, w, h => by cases w <;> simp_all [Resp.toValue, Subtype.ext_iff]
  | .bulkString s, w, h => by cases w <;> simp_all [Resp.toValue]
  | .nullBulk, w, h => by cases w <;> simp_all [Resp.toValue]
  | .nullArray, w, h => by cases w <;> simp_all [Resp.toValue]
  | .array vs, .simpleString _, h | .array vs, .error _, h | .array vs, .integer _, h
  | .array vs, .bulkString _, h | .array vs, .nullBulk, h | .array vs, .nullArray, h => by
      simp [Resp.toValue] at h

theorem toValues_inj : ∀ vs ws : List Resp, Resp.toValues vs = Resp.toValues ws → vs = ws
  | [], [], _ => rfl
  | v :: vs, w :: ws, h => by
      rw [Resp.toValues, Resp.toValues, List.cons.injEq] at h
      rw [toValue_inj v w h.1, toValues_inj vs ws h.2]
  | [], _ :: _, h | _ :: _, [], h => by simp [Resp.toValues] at h
end

/-- **Decoding undoes encoding**: an encoding, whatever follows it, parses to
the record of its value and to no other value's, and takes the encoding's
bytes; a front part that is not the whole parses to `Incomplete`, with
nothing consumed. -/
theorem decode_encode (P : Platform) (v : Resp) (h : v.Fits P) :
    (∀ x, (v.encode ++ x).length < 2 ^ 63 →
      parse P (v.encode ++ x) = .ok ⟨.ok, v.toValue, v.encode.length⟩) ∧
    (∀ w : Resp, w.toValue = v.toValue → w = v) ∧
    ∀ p, p <+: v.encode → p ≠ v.encode → p.length < 2 ^ 63 →
      parse P p = .ok ⟨.incomplete, {}, 0⟩ := by
  refine ⟨(roundTrips P v h).whole, fun w => toValue_inj w v, fun p hp hne hlen => ?_⟩
  exact (roundTrips P v h).cut p hlen ⟨hp, hne⟩

/-- An array of the smallest integer, a null and a bulk string that is a line
end, cut in its middle. -/
theorem decode_encode_nested :
    parse .concrete (ascii "*3\r\n:-9223372036854775808\r\n$-1\r\n$2\r\n\r") =
      .ok ⟨.incomplete, {}, 0⟩ := by
  refine (decode_encode .concrete
    (.array [.integer ⟨-2 ^ 63, by decide⟩, .nullBulk, .bulkString crlf])
    ⟨by decide, trivial, trivial, show crlf.length < 2 ^ 63 by decide, trivial⟩).2.2 _ ?_
      (by decide) (by decide)
  decide

end RedisCache.Protocol
