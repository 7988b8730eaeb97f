import Mathlib

/-!
# Decimal numerals over bytes

Printing and parsing of decimal numerals as byte strings, at the
granularity `std::to_string` / `fmt` (printing) and `std::from_chars`
(parsing) have: a numeral is read from the FRONT of the input, the
unread rest is reported, and a value outside the signed 64-bit range is
an error that leaves the output variable untouched.

* `ofNat` / `ofInt` — the numeral of a number, no leading zeros;
* `value` — the number a list of digit bytes denotes;
* `fromChars` — the front parser, with its three outcomes;
* `Numeral` — what a whole numeral is, said without the parser, and
  `numeral_iff`: the parser reads it to its end and nothing else.

The round trip `fromChars_ofInt` is what every length header and every
integer reply of a client of this module rests on.
-/

namespace Decimal

/-! ## Digits -/

/-- `'0'` … `'9'`. -/
def isDigit (b : UInt8) : Bool := decide (48 ≤ b.toNat ∧ b.toNat ≤ 57)

/-- The byte of a digit `d < 10`. -/
def digit (d : Nat) : UInt8 := UInt8.ofNat (48 + d)

/-- The number a list of digit bytes denotes, most significant first. -/
def value (bs : List UInt8) : Nat :=
  bs.foldl (fun acc b => 10 * acc + (b.toNat - 48)) 0

/-- The numeral of `n`. `Nat.digits` has no digit for `0`. -/
def ofNat (n : Nat) : List UInt8 :=
  if n = 0 then [digit 0] else (Nat.digits 10 n).reverse.map digit

/-- The numeral of `n`, with a minus sign when it is negative. -/
def ofInt : Int → List UInt8
  | .ofNat n => ofNat n
  | .negSucc n => 45 :: ofNat (n + 1)

theorem digit_toNat {d : Nat} (h : d < 10) : (digit d).toNat = 48 + d := by
  simp only [digit, UInt8.toNat_ofNat']
  omega

theorem isDigit_digit {d : Nat} (h : d < 10) : isDigit (digit d) = true := by
  simp only [isDigit, digit_toNat h, decide_eq_true_eq]
  omega

theorem isDigit_of_mem_ofNat {n : Nat} {b : UInt8} (h : b ∈ ofNat n) :
    isDigit b = true := by
  unfold ofNat at h
  split at h
  · rw [List.mem_singleton.mp h]
    exact isDigit_digit (by omega)
  · obtain ⟨d, hd, rfl⟩ := List.mem_map.mp h
    exact isDigit_digit (Nat.digits_lt_base (by omega) (List.mem_reverse.mp hd))

theorem ofNat_ne_nil (n : Nat) : ofNat n ≠ [] := by
  unfold ofNat
  split
  · simp
  · rename_i hn
    simpa [Nat.digits_ne_nil_iff_ne_zero] using hn

/-- Folding the digits back, generalized over the little-endian list. -/
theorem value_digits {ds : List Nat} (h : ∀ d ∈ ds, d < 10) :
    value (ds.reverse.map digit) = Nat.ofDigits 10 ds := by
  unfold value
  rw [List.map_reverse, List.foldl_reverse, List.foldr_map]
  induction ds with
  | nil => rfl
  | cons d ds ih =>
      rw [List.foldr_cons, ih (fun e he => h e (by simp [he])), Nat.ofDigits_cons,
        digit_toNat (h d (by simp))]
      omega

theorem value_ofNat (n : Nat) : value (ofNat n) = n := by
  unfold ofNat
  split
  · rename_i hn
    subst hn
    rfl
  · rw [value_digits (fun d hd => Nat.digits_lt_base (by omega) hd),
      Nat.ofDigits_digits]

/-- No byte of a numeral is `b` unless `b` is a digit or the sign. -/
theorem notMem_ofInt {v : Int} {b : UInt8} (hd : isDigit b = false)
    (hs : b ≠ 45) : b ∉ ofInt v := by
  intro h
  cases v with
  | ofNat n => exact absurd (isDigit_of_mem_ofNat h) (by simp [hd])
  | negSucc n =>
      rcases List.mem_cons.mp h with h | h
      · exact hs h
      · exact absurd (isDigit_of_mem_ofNat h) (by simp [hd])

/-! ## The front parser -/

/-- The two ways a front parse fails. -/
inductive Errc where
  | invalidArgument
  | resultOutOfRange
deriving DecidableEq, Repr

/-- The signed 64-bit range. -/
def InRange (v : Int) : Prop := -2 ^ 63 ≤ v ∧ v < 2 ^ 63

instance (v : Int) : Decidable (InRange v) := by
  unfold InRange
  infer_instance

/-- A 64-bit numeral has at most 19 digits and a sign. -/
theorem ofInt_length_le {v : Int} (h : InRange v) : (ofInt v).length ≤ 20 := by
  have hnat : ∀ n : Nat, n < 10 ^ 19 → (ofNat n).length ≤ 19 := by
    intro n hn
    unfold ofNat
    split
    · simp
    · rw [List.length_map, List.length_reverse, Nat.digits_length_le_iff (by omega)]
      exact hn
  obtain ⟨hlo, hhi⟩ := h
  cases v with
  | ofNat n =>
      have := hnat n (by simp only [Int.ofNat_eq_natCast] at hhi; omega)
      exact le_trans this (by omega)
  | negSucc n =>
      have := hnat (n + 1) (by omega)
      simp only [ofInt, List.length_cons]
      omega

/-- What the call leaves behind: the output variable, the unread rest of
the input, and the error code (`none` for success). -/
structure Outcome where
  value : Int
  rest : List UInt8
  ec : Option Errc

/-- The digits of `body`, with `sign` applied; `s` is the whole input, where
the read pointer stays when there is no digit at all. -/
def readDigits (init : Int) (s : List UInt8) (sign : Int) (body : List UInt8) : Outcome :=
  if body.takeWhile isDigit = [] then ⟨init, s, some .invalidArgument⟩
  else if InRange (sign * value (body.takeWhile isDigit)) then
    ⟨sign * value (body.takeWhile isDigit), body.dropWhile isDigit, none⟩
  else ⟨init, body.dropWhile isDigit, some .resultOutOfRange⟩

/-- `std::from_chars(first, last, out)` for a signed 64-bit `out` holding
`init`: an optional minus sign and then as many digits as there are. -/
def fromChars (init : Int) (s : List UInt8) : Outcome :=
  if s.head? = some 45 then readDigits init s (-1) s.tail
  else readDigits init s 1 s

theorem takeWhile_append_of_all {ds rest : List UInt8}
    (hd : ∀ b ∈ ds, isDigit b = true) (hr : ∀ b ∈ rest.head?, isDigit b = false) :
    (ds ++ rest).takeWhile isDigit = ds ∧ (ds ++ rest).dropWhile isDigit = rest := by
  constructor
  · rw [List.takeWhile_append_of_pos hd]
    cases rest with
    | nil => simp
    | cons b rest => simp [hr b (by simp)]
  · rw [List.dropWhile_append_of_pos hd]
    cases rest with
    | nil => simp
    | cons b rest => simp [hr b (by simp)]

theorem readDigits_ofNat (init : Int) (s : List UInt8) {sign : Int} {n : Nat}
    (hv : InRange (sign * n)) {rest : List UInt8}
    (hr : ∀ b ∈ rest.head?, isDigit b = false) :
    readDigits init s sign (ofNat n ++ rest) = ⟨sign * n, rest, none⟩ := by
  obtain ⟨ht, hdw⟩ := takeWhile_append_of_all
    (fun b hb => isDigit_of_mem_ofNat (n := n) hb) hr
  rw [readDigits, ht, hdw, value_ofNat, if_neg (ofNat_ne_nil n), if_pos hv]

theorem head?_ofNat_append_ne (n : Nat) (rest : List UInt8) :
    (ofNat n ++ rest).head? ≠ some 45 := by
  obtain ⟨b, bs, hb⟩ := List.exists_cons_of_ne_nil (ofNat_ne_nil n)
  have hdig : isDigit b = true := isDigit_of_mem_ofNat (n := n) (by simp [hb])
  rw [hb]
  simp only [List.cons_append, List.head?_cons, ne_eq, Option.some.injEq]
  rintro rfl
  exact absurd hdig (by decide)

/-- **The round trip**: the numeral of an in-range value, followed by
anything that does not start with a digit, reads back as that value. -/
theorem fromChars_ofInt (init : Int) {v : Int} (hv : InRange v) {rest : List UInt8}
    (hr : ∀ b ∈ rest.head?, isDigit b = false) :
    fromChars init (ofInt v ++ rest) = ⟨v, rest, none⟩ := by
  cases v with
  | ofNat n =>
      have hv' : InRange (1 * (n : Int)) := by rwa [one_mul]
      rw [fromChars, ofInt, if_neg (head?_ofNat_append_ne n rest),
        readDigits_ofNat init _ hv' hr, one_mul]
      rfl
  | negSucc n =>
      have hneg : -1 * ((n + 1 : Nat) : Int) = Int.negSucc n := by
        rw [Int.negSucc_eq]
        omega
      rw [fromChars, ofInt, List.cons_append, List.head?_cons, if_pos rfl,
        List.tail_cons, readDigits_ofNat init _ (by rwa [hneg]) hr, hneg]

theorem fromChars_ofInt_alone (init : Int) {v : Int} (hv : InRange v) :
    fromChars init (ofInt v) = ⟨v, [], none⟩ := by
  have hread : fromChars init (ofInt v ++ []) = ⟨v, [], none⟩ := fromChars_ofInt init hv (by simp)
  rwa [List.append_nil] at hread

theorem ofInt_inj {v v' : Int} (hv : InRange v) (hv' : InRange v') (h : ofInt v = ofInt v') :
    v = v' := by
  have hread := fromChars_ofInt_alone 0 hv
  rw [h, fromChars_ofInt_alone 0 hv'] at hread
  exact (congrArg Outcome.value hread).symm

/-- The output variable stays in range, whatever the input. -/
theorem fromChars_inRange {init : Int} (h : InRange init) (s : List UInt8) :
    InRange (fromChars init s).value := by
  have hread : ∀ sign body, InRange (readDigits init s sign body).value := by
    intro sign body
    unfold readDigits
    split
    · exact h
    · split
      · assumption
      · exact h
  unfold fromChars
  split <;> exact hread _ _

/-! ## Whole numerals -/

/-- `s` is the decimal numeral of the 64-bit value `v`: digits, at least one,
behind a minus sign at most. -/
def Numeral (s : List UInt8) (v : Int) : Prop :=
  InRange v ∧ ∃ ds, ds ≠ [] ∧ (∀ b ∈ ds, isDigit b = true) ∧
    ((s = ds ∧ v = value ds) ∨ (s = 45 :: ds ∧ v = -value ds))

theorem readDigits_all (init : Int) (s : List UInt8) {sign : Int} {ds : List UInt8}
    (hne : ds ≠ []) (hd : ∀ b ∈ ds, isDigit b = true) (hv : InRange (sign * value ds)) :
    readDigits init s sign ds = ⟨sign * value ds, [], none⟩ := by
  obtain ⟨ht, hdw⟩ : (ds ++ []).takeWhile isDigit = ds ∧ (ds ++ []).dropWhile isDigit = [] :=
    takeWhile_append_of_all hd (by simp)
  rw [List.append_nil] at ht hdw
  rw [readDigits, ht, hdw, if_neg hne, if_pos hv]

/-- A digit parse without error or rest has read digits only. -/
theorem of_readDigits {init : Int} {s body : List UInt8} {sign v : Int}
    (h : readDigits init s sign body = ⟨v, [], none⟩) :
    body ≠ [] ∧ (∀ b ∈ body, isDigit b = true) ∧ InRange v ∧ v = sign * value body := by
  unfold readDigits at h
  split at h
  · cases h
  · rename_i hne
    split at h
    · rename_i hv
      obtain ⟨rfl, hrest, -⟩ := Outcome.mk.inj h
      have hall : body.takeWhile isDigit = body := by
        have happ := List.takeWhile_append_dropWhile (p := isDigit) (l := body)
        rwa [hrest, List.append_nil] at happ
      rw [hall] at hne hv ⊢
      exact ⟨hne, List.takeWhile_eq_self_iff.mp hall, hv, rfl⟩
    · exact absurd (Outcome.mk.inj h).2.2 (by simp)

/-- **The parser reads exactly the whole numerals to their end.** -/
theorem numeral_iff (init : Int) {s : List UInt8} {v : Int} :
    Numeral s v ↔ fromChars init s = ⟨v, [], none⟩ := by
  constructor
  · rintro ⟨hv, ds, hne, hd, ⟨rfl, rfl⟩ | ⟨rfl, rfl⟩⟩
    · have hhead : s.head? ≠ some 45 := by
        intro hhead
        have := hd 45 (List.mem_of_mem_head? hhead)
        simp [isDigit] at this
      rw [fromChars, if_neg hhead, readDigits_all init s hne hd (by rwa [one_mul]), one_mul]
    · rw [fromChars, List.head?_cons, if_pos rfl, List.tail_cons,
        readDigits_all init _ hne hd (by rwa [neg_one_mul]), neg_one_mul]
  · intro h
    unfold fromChars at h
    split at h
    · rename_i hhead
      obtain ⟨tail, rfl⟩ := List.head?_eq_some_iff.mp hhead
      obtain ⟨hne, hd, hv, hval⟩ := of_readDigits h
      exact ⟨hv, tail, hne, hd, .inr ⟨rfl, by rw [hval, List.tail_cons, neg_one_mul]⟩⟩
    · obtain ⟨hne, hd, hv, hval⟩ := of_readDigits h
      exact ⟨hv, s, hne, hd, .inl ⟨rfl, by rw [hval, one_mul]⟩⟩

theorem Numeral.unique {s : List UInt8} {v v' : Int} (h : Numeral s v) (h' : Numeral s v') :
    v = v' := by
  rw [numeral_iff 0] at h h'
  rw [h] at h'
  exact (Outcome.mk.inj h').1

end Decimal
