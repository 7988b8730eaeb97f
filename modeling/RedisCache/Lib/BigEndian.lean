import Mathlib

/-!
# Big-endian numbers

A natural number as a fixed number of bytes, the most significant one first.
`bytes` takes the digits off the low end, `value` puts them back by Horner's
rule; what does not fit is lost on the way (`value_bytes`).

Programs shift and mask where the arithmetic divides and adds: `or_shift` and
`bytes_shift` translate.
-/

namespace BigEndian

/-- The last `k` base-256 digits of `n`. -/
def bytes : Nat → Nat → List UInt8
  | 0, _ => []
  | k + 1, n => bytes k (n / 256) ++ [UInt8.ofNat n]

def value (bs : List UInt8) : Nat := bs.foldl (fun u b => u * 256 + b.toNat) 0

@[simp] theorem length_bytes (k n : Nat) : (bytes k n).length = k := by
  induction k generalizing n with
  | zero => rfl
  | succ k ih => rw [bytes, List.length_append, ih, List.length_singleton]

@[simp] theorem value_nil : value [] = 0 := rfl

theorem value_concat (bs : List UInt8) (b : UInt8) :
    value (bs ++ [b]) = value bs * 256 + b.toNat := by
  rw [value, List.foldl_append]
  rfl

/-- **Reading back**: the number, as far as `k` bytes hold it. -/
theorem value_bytes (k n : Nat) : value (bytes k n) = n % 256 ^ k := by
  induction k generalizing n with
  | zero => rw [bytes, value_nil, pow_zero, Nat.mod_one]
  | succ k ih =>
      rw [bytes, value_concat, ih, UInt8.toNat_ofNat', pow_succ' 256 k, Nat.mod_mul]
      omega

theorem value_bytes_of_lt {k n : Nat} (h : n < 256 ^ k) : value (bytes k n) = n := by
  rw [value_bytes, Nat.mod_eq_of_lt h]

/-- Making room for a byte and putting it there. -/
theorem or_shift (u : Nat) (b : UInt8) : u <<< 8 ||| b.toNat = u * 256 + b.toNat := by
  rw [← Nat.shiftLeft_add_eq_or_of_lt b.toNat_lt, Nat.shiftLeft_eq]

/-- Taking a byte off. -/
theorem bytes_shift (k n : Nat) : bytes (k + 1) n = bytes k (n >>> 8) ++ [UInt8.ofNat n] := by
  rw [bytes, Nat.shiftRight_eq_div_pow]

end BigEndian
