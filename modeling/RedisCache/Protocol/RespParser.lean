import Mathlib
import RedisCache.Protocol.RespTypes

/-!
# The incremental RESP parser

`RespParser.cpp`, function by function. Views are byte lists; the five
`parse_*` helpers get the view AFTER the type byte, as in the source, and
report `consumed` counts that include it.

`parse` and `parse_array` call each other. The model cuts the knot with
fuel — one unit for each nesting level, and the view shrinks at every
level — and `parse_cons` gives back the source's recursion equation, so
that nothing after this module mentions fuel.

The exceptions of a parse are those of `std::vector::reserve`, on the
element count of an array header: `length_error` for a count that no vector
can have, `bad_alloc` for one that there is no memory for.
-/

namespace RedisCache

/-- The exceptions the server's own code can raise: `std::length_error` and
`std::bad_alloc` from a vector, `std::runtime_error` from a full buffer. -/
inductive Exn where
  | lengthError
  | badAlloc
  | bufferExceeded
deriving DecidableEq, Repr

namespace Protocol

inductive ParseStatus where
  | ok
  | incomplete
  | error
deriving DecidableEq, Repr

structure ParseResult where
  status : ParseStatus
  value : RespValue
  consumed : Nat

/-- `{ParseStatus::Ok, v, consumed}`, with `consumed` a `size_t`. -/
def ParseResult.ok (v : RespValue) (consumed : Nat) : ParseResult :=
  ⟨.ok, v, u64 consumed⟩

def ParseResult.incomplete : ParseResult := ⟨.incomplete, {}, 0⟩

def ParseResult.error : ParseResult := ⟨.error, {}, 0⟩

/-- `buf.find("\r\n")`. -/
def findCrlf : Bytes → Option Nat
  | [] => none
  | [_] => none
  | a :: b :: rest =>
      if a = 13 ∧ b = 10 then some 0 else (findCrlf (b :: rest)).map (· + 1)

/-- The whole line must be one `int64_t` numeral. -/
def parseLength (line : Bytes) : Option Int :=
  let r := Decimal.fromChars 0 line
  if r.ec ≠ none ∨ r.rest ≠ [] then none else some r.value

def parseSimpleString (buf : Bytes) : ParseResult :=
  match findCrlf buf with
  | none => .incomplete
  | some n => .ok { type := .simpleString, str := buf.take n } (1 + n + 2)

def parseError (buf : Bytes) : ParseResult :=
  match findCrlf buf with
  | none => .incomplete
  | some n => .ok { type := .error, str := buf.take n } (1 + n + 2)

def parseInteger (buf : Bytes) : ParseResult :=
  match findCrlf buf with
  | none => .incomplete
  | some n =>
      match parseLength (buf.take n) with
      | none => .error
      | some len => .ok { type := .integer, integer := len } (1 + n + 2)

def parseBulkString (buf : Bytes) : ParseResult :=
  match findCrlf buf with
  | none => .incomplete
  | some n =>
      match parseLength (buf.take n) with
      | none => .error
      | some len =>
          if len = -1 then .ok { type := .bulkString, isNull := true } (1 + n + 2)
          else
            let headerSize := u64 (1 + n + 2)
            let contentSize := u64 (toSizeT len + 2)
            if buf.length < u64 (n + 2 + contentSize) then .incomplete
            else
              -- `substr(pos, len)` is cut at the end of the view
              .ok { type := .bulkString, str := (buf.drop (n + 2)).take (toSizeT len) }
                (headerSize + toSizeT len + 2)

/-- The element loop of `parse_array`: `i` elements to go, the next one at
`offset`. -/
def parseElements (parse : Bytes → Except Exn ParseResult) (buf : Bytes) :
    Nat → Nat → List RespValue → Except Exn ParseResult
  | 0, offset, arr => .ok (.ok { type := .array, array := arr } (1 + offset))
  | i + 1, offset, arr =>
      if buf.length ≤ offset then .ok .incomplete
      else
        match parse (buf.drop offset) with
        | .error e => .error e
        | .ok res =>
            match res.status with
            | .incomplete => .ok .incomplete
            | .error => .ok .error
            | .ok => parseElements parse buf i (u64 (offset + res.consumed))
                (arr ++ [res.value])

/-- `std::vector<RespValue>::reserve`. -/
def reserve (P : Platform) (n : Nat) : Except Exn Unit :=
  if P.vectorMaxSize < n then .error .lengthError
  else if P.reserveLimit < n then .error .badAlloc
  else .ok ()

def parseArray (P : Platform) (parse : Bytes → Except Exn ParseResult) (buf : Bytes) :
    Except Exn ParseResult :=
  match findCrlf buf with
  | none => .ok .incomplete
  | some n =>
      match parseLength (buf.take n) with
      | none => .ok .error
      | some count =>
          if count = -1 then .ok (.ok { type := .array, isNull := true } (1 + n + 2))
          else
            match reserve P (toSizeT count) with
            | .error e => .error e
            | .ok _ => parseElements parse buf count.toNat (u64 (n + 2)) []

/-- The dispatch on the type byte. -/
def parseTyped (P : Platform) (parse : Bytes → Except Exn ParseResult) :
    Bytes → Except Exn ParseResult
  | [] => .ok .incomplete
  | t :: buf =>
      if t = 43 then .ok (parseSimpleString buf)
      else if t = 45 then .ok (parseError buf)
      else if t = 58 then .ok (parseInteger buf)
      else if t = 36 then .ok (parseBulkString buf)
      else if t = 42 then parseArray P parse buf
      else .ok .error

def parseFuel (P : Platform) : Nat → Bytes → Except Exn ParseResult
  | 0, _ => .ok .incomplete
  | fuel + 1, buf => parseTyped P (parseFuel P fuel) buf

/-- `RespParser::parse`. -/
def parse (P : Platform) (buf : Bytes) : Except Exn ParseResult :=
  parseFuel P (buf.length + 1) buf

/-! ## What `reserve` serves -/

theorem reserve_ok {P : Platform} {n : Nat} (h : n ≤ P.reserveLimit) : reserve P n = .ok () := by
  have hmax := P.reserveLimit_le
  rw [reserve, if_neg (by omega), if_neg (by omega)]

theorem reserve_error {P : Platform} {n : Nat} (h : P.reserveLimit < n) :
    ∃ e, reserve P n = .error e := by
  unfold reserve
  split_ifs
  · exact ⟨.lengthError, rfl⟩
  · exact ⟨.badAlloc, rfl⟩

-- below `max_size`, but more than there is memory for
example : reserve .concrete (10 ^ 17) = .error .badAlloc := rfl

/-! ## The recursion equation -/

theorem parseElements_congr {f g : Bytes → Except Exn ParseResult} {buf : Bytes}
    (h : ∀ b, b.length ≤ buf.length → f b = g b) (i offset : Nat) (arr : List RespValue) :
    parseElements f buf i offset arr = parseElements g buf i offset arr := by
  induction i generalizing offset arr with
  | zero => rfl
  | succ i ih =>
      have hsub : f (buf.drop offset) = g (buf.drop offset) :=
        h _ (by simp only [List.length_drop]; omega)
      simp only [parseElements, hsub, ih]

theorem parseTyped_congr (P : Platform) {f g : Bytes → Except Exn ParseResult} {buf : Bytes}
    (h : ∀ b, b.length < buf.length → f b = g b) :
    parseTyped P f buf = parseTyped P g buf := by
  cases buf with
  | nil => rfl
  | cons t buf =>
      have hloop : ∀ i offset arr,
          parseElements f buf i offset arr = parseElements g buf i offset arr :=
        parseElements_congr (fun b hb => h b (by simp only [List.length_cons]; omega))
      simp only [parseTyped, parseArray, hloop]

/-- Fuel beyond the view's length changes nothing. -/
theorem parseFuel_eq (P : Platform) (buf : Bytes) :
    ∀ {m n : Nat}, buf.length < m → buf.length < n → parseFuel P m buf = parseFuel P n buf := by
  induction hk : buf.length using Nat.strong_induction_on generalizing buf with
  | _ k ih =>
      intro m n hm hn
      obtain ⟨m, rfl⟩ : ∃ m', m = m' + 1 := ⟨m - 1, by omega⟩
      obtain ⟨n, rfl⟩ : ∃ n', n = n' + 1 := ⟨n - 1, by omega⟩
      simp only [parseFuel]
      apply parseTyped_congr
      intro b hb
      exact ih b.length (by omega) b rfl (by omega) (by omega)

/-- **The source's recursion**: `parse` is the dispatch on the type byte with
`parse` itself as the element parser. -/
theorem parse_eq (P : Platform) (buf : Bytes) : parse P buf = parseTyped P (parse P) buf := by
  show parseTyped P (parseFuel P buf.length) buf = _
  apply parseTyped_congr
  intro b hb
  exact parseFuel_eq P b hb (by omega)

@[simp] theorem parse_nil (P : Platform) : parse P [] = .ok .incomplete := rfl

theorem parse_cons (P : Platform) (t : UInt8) (buf : Bytes) :
    parse P (t :: buf) =
      if t = 43 then .ok (parseSimpleString buf)
      else if t = 45 then .ok (parseError buf)
      else if t = 58 then .ok (parseInteger buf)
      else if t = 36 then .ok (parseBulkString buf)
      else if t = 42 then parseArray P (parse P) buf
      else .ok .error := by
  rw [parse_eq, parseTyped]

/-! What each type byte leads to. -/

theorem parse_simpleString (P : Platform) (buf : Bytes) :
    parse P (43 :: buf) = .ok (parseSimpleString buf) := by
  rw [parse_cons, if_pos rfl]

theorem parse_error (P : Platform) (buf : Bytes) :
    parse P (45 :: buf) = .ok (parseError buf) := by
  rw [parse_cons, if_neg (by decide), if_pos rfl]

theorem parse_integer (P : Platform) (buf : Bytes) :
    parse P (58 :: buf) = .ok (parseInteger buf) := by
  rw [parse_cons, if_neg (by decide), if_neg (by decide), if_pos rfl]

theorem parse_bulkString (P : Platform) (buf : Bytes) :
    parse P (36 :: buf) = .ok (parseBulkString buf) := by
  rw [parse_cons, if_neg (by decide), if_neg (by decide), if_neg (by decide), if_pos rfl]

theorem parse_array (P : Platform) (buf : Bytes) :
    parse P (42 :: buf) = parseArray P (parse P) buf := by
  rw [parse_cons, if_neg (by decide), if_neg (by decide), if_neg (by decide),
    if_neg (by decide), if_pos rfl]

end Protocol

end RedisCache
