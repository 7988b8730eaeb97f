import Mathlib
import RedisCache.Platform

/-!
# RESP values

`RespValue` is the parser's unified value record, field for field. `Resp`
is the protocol's own notion of a value — what a peer can mean to send —
and `Resp.toValue` the record that stands for it: the parser fills the
fields a type does not use with their defaults.
-/

namespace RedisCache.Protocol

inductive RespType where
  | simpleString
  | error
  | integer
  | bulkString
  | array
  | null
deriving DecidableEq, Repr

/-- The unified RESP value of `RespTypes.hpp`. -/
structure RespValue where
  type : RespType := .null
  str : Bytes := []
  integer : Int := 0
  array : List RespValue := []
  isNull : Bool := false

instance : Inhabited RespValue := ⟨{}⟩

/-! ## The protocol's values -/

/-- Line text: no CRLF inside, so that the line ends where it should. -/
abbrev Text := {s : Bytes // ¬ crlf <:+: s}

/-- An `int64_t`. -/
abbrev I64 := {n : Int // Decimal.InRange n}

inductive Resp where
  | simpleString (s : Text)
  | error (s : Text)
  | integer (n : I64)
  | bulkString (s : Bytes)
  | nullBulk
  | array (vs : List Resp)
  | nullArray

mutual
/-- The record the parser builds for a value. -/
def Resp.toValue : Resp → RespValue
  | .simpleString s => { type := .simpleString, str := s.1 }
  | .error s => { type := .error, str := s.1 }
  | .integer n => { type := .integer, integer := n.1 }
  | .bulkString s => { type := .bulkString, str := s }
  | .nullBulk => { type := .bulkString, isNull := true }
  | .array vs => { type := .array, array := Resp.toValues vs }
  | .nullArray => { type := .array, isNull := true }

def Resp.toValues : List Resp → List RespValue
  | [] => []
  | v :: vs => v.toValue :: Resp.toValues vs
end

mutual
/-- The value fits the containers the parser builds for it: no
`std::vector` that `reserve` has no memory for, no `std::string` above
`2^63 - 1` bytes. Every value the parser has built does. -/
def Resp.Fits (P : Platform) : Resp → Prop
  | .bulkString s => s.length < 2 ^ 63
  | .array vs => vs.length ≤ P.reserveLimit ∧ Resp.FitsAll P vs
  | _ => True

def Resp.FitsAll (P : Platform) : List Resp → Prop
  | [] => True
  | v :: vs => v.Fits P ∧ Resp.FitsAll P vs
end

theorem Resp.toValues_eq_map (vs : List Resp) :
    Resp.toValues vs = vs.map Resp.toValue := by
  induction vs with
  | nil => rfl
  | cons v vs ih => rw [Resp.toValues, ih, List.map_cons]

theorem Resp.fitsAll_iff (P : Platform) (vs : List Resp) :
    Resp.FitsAll P vs ↔ ∀ v ∈ vs, v.Fits P := by
  induction vs with
  | nil => simp [Resp.FitsAll]
  | cons v vs ih => simp [Resp.FitsAll, ih]

end RedisCache.Protocol
