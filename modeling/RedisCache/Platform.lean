import Mathlib
import RedisCache.Lib.Decimal

/-!
# The platform

What the server takes from its compiler and its libraries, and the
fixed-width arithmetic it computes in.

Byte strings (`std::string`, `std::string_view`) are lists of bytes.
`int64_t` values are `Int`s and `size_t` values are `Nat`s; wherever the
source's arithmetic could leave the 64-bit range the model wraps
explicitly, with `u64` / `i64`.
-/

namespace RedisCache

/-- A `std::string` or a `std::string_view`. -/
abbrev Bytes := List UInt8

/-- The bytes of an ASCII literal of the source. -/
def ascii (s : String) : Bytes := s.toList.map fun c => UInt8.ofNat c.toNat

/-- `"\r\n"`. -/
def crlf : Bytes := [13, 10]

@[simp] theorem crlf_length : crlf.length = 2 := rfl

/-- The library functions and limits the server is built on. They are
parameters of the model: `std::hash<std::string>`, `fnmatch(pattern,
string, 0) == 0` on NUL-terminated strings,
`std::vector<RespValue>::max_size()`, of which only that it fits a
`ptrdiff_t` is used, and the largest count of `RespValue`s for which
`reserve` finds memory. -/
structure Platform where
  hash : Bytes → Nat
  fnmatch : Bytes → Bytes → Bool
  vectorMaxSize : Nat
  vectorMaxSize_lt : vectorMaxSize < 2 ^ 63
  reserveLimit : Nat
  reserveLimit_le : reserveLimit ≤ vectorMaxSize

theorem Platform.reserveLimit_lt (P : Platform) : P.reserveLimit < 2 ^ 63 :=
  P.reserveLimit_le.trans_lt P.vectorMaxSize_lt

/-- A platform to run the model on: the sum of the bytes as hash, patterns
taken literally, and the limits of a 64-bit machine for an 80-byte element,
with 47 bits of addresses to allocate from. -/
def Platform.concrete : Platform where
  hash key := (key.map UInt8.toNat).sum
  fnmatch pattern key := pattern == key
  vectorMaxSize := (2 ^ 63 - 1) / 80
  vectorMaxSize_lt := by decide
  reserveLimit := 2 ^ 47 / 80
  reserveLimit_le := by decide

/-! ## 64-bit arithmetic -/

/-- `size_t` arithmetic is modulo `2^64`. -/
def u64 (n : Nat) : Nat := n % 2 ^ 64

/-- `static_cast<size_t>(n)` of an `int64_t`. -/
def toSizeT (n : Int) : Nat := (n % 2 ^ 64).toNat

/-- The two's complement value of an `int64_t` computation. Signed overflow
is undefined in C++; the model takes the wrapped value there. -/
def i64 (n : Int) : Int := (n + 2 ^ 63) % 2 ^ 64 - 2 ^ 63

theorem u64_of_lt {n : Nat} (h : n < 2 ^ 64) : u64 n = n := Nat.mod_eq_of_lt h

theorem toSizeT_of_nonneg {n : Int} (h0 : 0 ≤ n) (h : n < 2 ^ 64) :
    toSizeT n = n.toNat := by
  unfold toSizeT
  omega

theorem i64_of_inRange {n : Int} (h : Decimal.InRange n) : i64 n = n := by
  unfold Decimal.InRange at h
  unfold i64
  omega

/-- Through `uint64_t` and back. -/
theorem i64_toSizeT {n : Int} (h : Decimal.InRange n) : i64 (toSizeT n : Int) = n := by
  unfold Decimal.InRange at h
  unfold i64 toSizeT
  omega

theorem toSizeT_lt (n : Int) : toSizeT n < 2 ^ 64 := by
  unfold toSizeT
  omega

theorem i64_inRange (n : Int) : Decimal.InRange (i64 n) := by
  unfold Decimal.InRange i64
  omega

/-- Wrapping early changes nothing. -/
theorem i64_add_left (a b : Int) : i64 (i64 a + b) = i64 (a + b) := by
  unfold i64
  omega

end RedisCache
