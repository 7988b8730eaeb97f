import Mathlib
import RedisCache.Protocol.RespTypes

/-!
# The RESP serializer

`RespSerializer.cpp`'s reply builders, and `Resp.encode`: the encoding of
an arbitrary protocol value out of the same forms. The serializer itself
only ever writes arrays of bulk strings; `Resp.encode` nests.
-/

namespace RedisCache.Protocol

namespace RespSerializer

def ok : Bytes := ascii "+OK" ++ crlf

def error (msg : Bytes) : Bytes := ascii "-ERR " ++ msg ++ crlf

def nullBulk : Bytes := ascii "$-1" ++ crlf

def bulk (s : Bytes) : Bytes :=
  ascii "$" ++ Decimal.ofInt s.length ++ crlf ++ s ++ crlf

def integer (n : Int) : Bytes := ascii ":" ++ Decimal.ofInt n ++ crlf

def simple (s : Bytes) : Bytes := ascii "+" ++ s ++ crlf

def array (elements : List Bytes) : Bytes :=
  ascii "*" ++ Decimal.ofInt elements.length ++ crlf ++ elements.flatMap bulk

def nilArray : Bytes := ascii "*-1" ++ crlf

theorem integer_inj {n n' : Int} (hn : Decimal.InRange n) (hn' : Decimal.InRange n')
    (h : integer n = integer n') : n = n' :=
  Decimal.ofInt_inj hn hn' (List.append_cancel_left (List.append_cancel_right h))

end RespSerializer

mutual
/-- The wire form of a value. -/
def Resp.encode : Resp → Bytes
  | .simpleString s => RespSerializer.simple s.1
  | .error s => ascii "-" ++ s.1 ++ crlf
  | .integer n => RespSerializer.integer n.1
  | .bulkString s => RespSerializer.bulk s
  | .nullBulk => RespSerializer.nullBulk
  | .array vs => ascii "*" ++ Decimal.ofInt vs.length ++ crlf ++ Resp.encodeAll vs
  | .nullArray => RespSerializer.nilArray

def Resp.encodeAll : List Resp → Bytes
  | [] => []
  | v :: vs => v.encode ++ Resp.encodeAll vs
end

theorem Resp.encodeAll_eq_flatMap (vs : List Resp) :
    Resp.encodeAll vs = vs.flatMap Resp.encode := by
  induction vs with
  | nil => rfl
  | cons v vs ih => rw [Resp.encodeAll, ih, List.flatMap_cons]

/-! ## Shape of an encoding

Every encoding is a type byte followed by a line: what decides the parser's
dispatch is the first byte, what decides its CRLF search is the line. -/

/-- `t`, the line `l`, CRLF. -/
def line (t : UInt8) (l : Bytes) : Bytes := t :: (l ++ crlf)

theorem encode_simpleString (s : Text) : (Resp.simpleString s).encode = line 43 s.1 := rfl

theorem encode_error (s : Text) : (Resp.error s).encode = line 45 s.1 := rfl

theorem encode_integer (n : I64) :
    (Resp.integer n).encode = line 58 (Decimal.ofInt n.1) := rfl

theorem encode_nullBulk : Resp.nullBulk.encode = line 36 (Decimal.ofInt (-1)) := by
  decide

theorem encode_nullArray : Resp.nullArray.encode = line 42 (Decimal.ofInt (-1)) := by
  decide

theorem encode_bulkString (s : Bytes) :
    (Resp.bulkString s).encode = line 36 (Decimal.ofInt s.length) ++ (s ++ crlf) := by
  show RespSerializer.bulk s = _
  simp [RespSerializer.bulk, line, ascii, List.append_assoc]

theorem encode_array (vs : List Resp) :
    (Resp.array vs).encode = line 42 (Decimal.ofInt vs.length) ++ Resp.encodeAll vs := by
  show ascii "*" ++ Decimal.ofInt vs.length ++ crlf ++ Resp.encodeAll vs = _
  simp [line, ascii, List.append_assoc]

theorem Resp.encode_ne_nil (v : Resp) : v.encode ≠ [] := by
  cases v <;>
    simp [encode_simpleString, encode_error, encode_integer, encode_bulkString,
      encode_nullBulk, encode_array, encode_nullArray, line]

end RedisCache.Protocol
