import Mathlib
import RedisCache.Protocol.Extension

/-!
# The grammar, and what the parser takes for it

`Derives ends w v`: the bytes `w` are a derivation of the value `v`. The
grammar has one parameter, which two bytes may end the payload of a bulk
string. With `IsCrlf` it is RESP2; with `AnyBytes` it is what `parse`
checks, because it skips these two bytes without a look.

A derivation is determined by the bytes it is at the front of
(`Row.front`), so a buffer that starts with one does not also start with
something else. What else there is, is `Meets`: behind whole elements stands
a bulk string with a length below `-1`, or with a payload that does not end
as it should. An accepted buffer starts with a derivation of the accepted
value exactly if it meets no such thing (`accepts_grammar_iff`).
-/

namespace RedisCache.Protocol

open Decimal

/-! ## The grammar -/

/-- The values without elements. -/
inductive Leaf (ends : Bytes → Prop) : Bytes → RespValue → Prop
  | simpleString {s : Bytes} : ¬ crlf <:+: s →
      Leaf ends (line 43 s) { type := .simpleString, str := s }
  | error {s : Bytes} : ¬ crlf <:+: s → Leaf ends (line 45 s) { type := .error, str := s }
  | integer {l : Bytes} {n : Int} : Numeral l n →
      Leaf ends (line 58 l) { type := .integer, integer := n }
  | nullBulk {l : Bytes} : Numeral l (-1) →
      Leaf ends (line 36 l) { type := .bulkString, isNull := true }
  | bulkString {l s t : Bytes} : Numeral l s.length → t.length = 2 → ends t →
      Leaf ends (line 36 l ++ (s ++ t)) { type := .bulkString, str := s }
  | nullArray {l : Bytes} : Numeral l (-1) →
      Leaf ends (line 42 l) { type := .array, isNull := true }

/-- Values one after the other. -/
inductive Row (ends : Bytes → Prop) : Bytes → List RespValue → Prop
  | nil : Row ends [] []
  | leaf {w x : Bytes} {v : RespValue} {vs : List RespValue} :
      Leaf ends w v → Row ends x vs → Row ends (w ++ x) (v :: vs)
  | array {l u x : Bytes} {us vs : List RespValue} :
      Numeral l us.length → Row ends u us → Row ends x vs →
      Row ends (line 42 l ++ (u ++ x)) ({ type := .array, array := us } :: vs)

/-- One value. -/
def Derives (ends : Bytes → Prop) (w : Bytes) (v : RespValue) : Prop := Row ends w [v]

/-- RESP2. -/
def IsCrlf (t : Bytes) : Prop := t = crlf

/-- No condition. -/
def AnyBytes (_ : Bytes) : Prop := True

/-- The parser comes, behind whole elements, to a bulk string with a length
below `-1`, or to one whose payload is followed by the wrong bytes. -/
inductive Meets (ends : Bytes → Prop) : Bytes → Prop
  | here {l rest : Bytes} {n : Int} : Numeral l n →
      (n < -1 ∨ 0 ≤ n ∧ ¬ ends ((rest.drop n.toNat).take 2)) → Meets ends (line 36 l ++ rest)
  | inside {l w rest : Bytes} {n : Int} {vs : List RespValue} : Numeral l n →
      Row ends w vs → vs.length < n → Meets ends rest → Meets ends (line 42 l ++ (w ++ rest))

/-! ## Lines determine their value -/

theorem findCrlf_split {buf : Bytes} {n : Nat} (h : findCrlf buf = some n) :
    buf = buf.take n ++ crlf ++ buf.drop (n + 2) := by
  induction buf using findCrlf.induct generalizing n with
  | case1 => simp [findCrlf] at h
  | case2 => simp [findCrlf] at h
  | case3 a b rest hab =>
      simp only [findCrlf, if_pos hab, Option.some.injEq] at h
      obtain ⟨rfl, rfl⟩ := hab
      subst h
      rfl
  | case4 a b rest hab ih =>
      simp only [findCrlf, if_neg hab, Option.map_eq_some_iff] at h
      obtain ⟨m, hm, rfl⟩ := h
      simpa using ih hm

/-- The line that the search finds holds no CRLF itself. -/
theorem not_infix_take {buf : Bytes} {n : Nat} (h : findCrlf buf = some n) :
    ¬ crlf <:+: buf.take n := by
  rintro ⟨a, u, hline⟩
  have hn := findCrlf_bound h
  have hlen : (buf.take n).length = n := by
    rw [List.length_take]
    omega
  obtain ⟨m, hm, hle⟩ := findCrlf_first a (u ++ (crlf ++ buf.drop (n + 2)))
  have hbuf : a ++ crlf ++ (u ++ (crlf ++ buf.drop (n + 2))) = buf := by
    rw [← List.append_assoc, hline, ← List.append_assoc, ← findCrlf_split h]
  rw [hbuf, h, Option.some.injEq] at hm
  rw [← hline, List.length_append, List.length_append, crlf_length] at hlen
  omega

/-- Two buffers that start with a line each: the lines are the same. -/
theorem line_inj {t t' : UInt8} {l l' x x' : Bytes} (hl : ¬ crlf <:+: l) (hl' : ¬ crlf <:+: l')
    (h : line t l ++ x = line t' l' ++ x') : t = t' ∧ l = l' ∧ x = x' := by
  rw [line_append, line_append, List.cons.injEq] at h
  obtain ⟨rfl, hrest⟩ := h
  have hfind := findCrlf_line hl x
  rw [hrest, findCrlf_line hl' x', Option.some.injEq] at hfind
  rw [List.append_assoc, List.append_assoc] at hrest
  obtain ⟨rfl, htail⟩ := List.append_inj hrest hfind.symm
  exact ⟨rfl, rfl, List.append_cancel_left htail⟩

/-- A length line holds digits and a sign. -/
theorem not_infix_numeral {l : Bytes} {n : Int} (h : Numeral l n) : ¬ crlf <:+: l := by
  refine not_infix_of_notMem fun hmem => ?_
  obtain ⟨-, ds, -, hd, ⟨rfl, -⟩ | ⟨rfl, -⟩⟩ := h
  · exact absurd (hd 13 hmem) (by decide)
  · rcases List.mem_cons.mp hmem with h13 | hmem
    · exact absurd h13 (by decide)
    · exact absurd (hd 13 hmem) (by decide)

/-- Two buffers that start with a numeral line each: the numbers are the same,
too. -/
theorem header_inj {t t' : UInt8} {l l' x x' : Bytes} {n n' : Int} (hn : Numeral l n)
    (hn' : Numeral l' n') (h : line t l ++ x = line t' l' ++ x') :
    t = t' ∧ l = l' ∧ n = n' ∧ x = x' := by
  obtain ⟨htype, rfl, hrest⟩ := line_inj (not_infix_numeral hn) (not_infix_numeral hn') h
  exact ⟨htype, rfl, hn.unique hn', hrest⟩

theorem parseLength_iff {l : Bytes} {n : Int} : parseLength l = some n ↔ Numeral l n := by
  rw [numeral_iff 0, parseLength]
  cases hr : fromChars 0 l with
  | mk v rest ec =>
      simp only [Outcome.mk.injEq]
      split
      · rename_i hbad
        simp only [reduceCtorEq, false_iff]
        rintro ⟨-, hrest, hec⟩
        exact hbad.elim (fun h => h hec) fun h => h hrest
      · rename_i hgood
        push Not at hgood
        simp [hgood]

/-! ## Derivations determine themselves -/

/-- The first byte of a derivation, by the type of its value; no value of type
`null` is on the wire. -/
def typeByte : RespType → UInt8
  | .simpleString => 43
  | .error => 45
  | .integer => 58
  | .bulkString => 36
  | .array => 42
  | .null => 0

theorem typeByte_inj {t t' : RespType} (h : typeByte t = typeByte t') : t = t' := by
  revert h
  cases t <;> cases t' <;> decide

section Front

variable {ends : Bytes → Prop}

/-- A leaf starts with a line. -/
theorem Leaf.line {w : Bytes} {v : RespValue} (h : Leaf ends w v) :
    ∃ l r, ¬ crlf <:+: l ∧ w = Protocol.line (typeByte v.type) l ++ r := by
  cases h with
  | simpleString hs => exact ⟨_, [], hs, (List.append_nil _).symm⟩
  | error hs => exact ⟨_, [], hs, (List.append_nil _).symm⟩
  | integer hn => exact ⟨_, [], not_infix_numeral hn, (List.append_nil _).symm⟩
  | nullBulk hn => exact ⟨_, [], not_infix_numeral hn, (List.append_nil _).symm⟩
  | bulkString hn ht hends => exact ⟨_, _, not_infix_numeral hn, rfl⟩
  | nullArray hn => exact ⟨_, [], not_infix_numeral hn, (List.append_nil _).symm⟩

theorem Leaf.type_eq {w x l y : Bytes} {v : RespValue} {t : RespType} (h : Leaf ends w v)
    (hl : ¬ crlf <:+: l) (heq : w ++ x = Protocol.line (typeByte t) l ++ y) : v.type = t := by
  obtain ⟨l', r, hl', rfl⟩ := h.line
  rw [List.append_assoc] at heq
  exact typeByte_inj (line_inj hl' hl heq).1

/-- Two leaves at the front of one buffer are the same. -/
theorem Leaf.front {w w' x x' : Bytes} {v v' : RespValue} (h : Leaf ends w v)
    (h' : Leaf ends w' v') (heq : w ++ x = w' ++ x') : w = w' ∧ v = v' := by
  have htype : v.type = v'.type := by
    obtain ⟨l', r', hl', rfl⟩ := h'.line
    rw [List.append_assoc] at heq
    exact h.type_eq hl' heq
  cases h with
  | simpleString hs =>
      cases h' with
      | simpleString hs' =>
          obtain ⟨-, rfl, -⟩ := line_inj hs hs' heq
          exact ⟨rfl, rfl⟩
      | error | integer | nullBulk | bulkString | nullArray => cases htype
  | error hs =>
      cases h' with
      | error hs' =>
          obtain ⟨-, rfl, -⟩ := line_inj hs hs' heq
          exact ⟨rfl, rfl⟩
      | simpleString | integer | nullBulk | bulkString | nullArray => cases htype
  | integer hn =>
      cases h' with
      | integer hn' =>
          obtain ⟨-, rfl, rfl, -⟩ := header_inj hn hn' heq
          exact ⟨rfl, rfl⟩
      | simpleString | error | nullBulk | bulkString | nullArray => cases htype
  | nullBulk hn =>
      cases h' with
      | nullBulk hn' =>
          obtain ⟨-, rfl, -⟩ := header_inj hn hn' heq
          exact ⟨rfl, rfl⟩
      | bulkString hn' ht' hends' =>
          rw [List.append_assoc] at heq
          have := (header_inj hn hn' heq).2.2.1
          omega
      | simpleString | error | integer | nullArray => cases htype
  | bulkString hn ht hends =>
      rw [List.append_assoc] at heq
      cases h' with
      | nullBulk hn' =>
          have := (header_inj hn hn' heq).2.2.1
          omega
      | bulkString hn' ht' hends' =>
          simp only [List.append_assoc] at heq
          obtain ⟨-, rfl, hlen, hrest⟩ := header_inj hn hn' heq
          -- the same length, so the same payload and the same two bytes behind it
          obtain ⟨rfl, htail⟩ := List.append_inj hrest (Int.natCast_inj.mp hlen)
          obtain ⟨rfl, -⟩ := List.append_inj htail (ht.trans ht'.symm)
          exact ⟨rfl, rfl⟩
      | simpleString | error | integer | nullArray => cases htype
  | nullArray hn =>
      cases h' with
      | nullArray hn' =>
          obtain ⟨-, rfl, -⟩ := header_inj hn hn' heq
          exact ⟨rfl, rfl⟩
      | simpleString | error | integer | nullBulk | bulkString => cases htype

/-- No leaf starts with the header of an array that has a count. -/
theorem Leaf.not_header {w x l y : Bytes} {v : RespValue} {n : Int} (h : Leaf ends w v)
    (hn : Numeral l n) (h0 : 0 ≤ n) (heq : w ++ x = Protocol.line 42 l ++ y) : False := by
  have htype : v.type = .array := h.type_eq (not_infix_numeral hn) heq
  cases h with
  | nullArray hn' =>
      have := (header_inj hn' hn heq).2.2.1
      omega
  | simpleString | error | integer | nullBulk | bulkString => cases htype

/-- **A row is determined by what it is at the front of**: of two rows at the
front of one buffer, the one with fewer values is the beginning of the
other. -/
theorem Row.front {w w' x x' : Bytes} {vs vs' : List RespValue} (h : Row ends w vs)
    (h' : Row ends w' vs') (hle : vs.length ≤ vs'.length) (heq : w ++ x = w' ++ x') :
    ∃ u us, w' = w ++ u ∧ vs' = vs ++ us ∧ Row ends u us := by
  induction h generalizing w' x x' vs' with
  | nil => exact ⟨w', vs', rfl, rfl, h'⟩
  | leaf hleaf hrow ih =>
      rw [List.append_assoc] at heq
      cases h' with
      | nil => simp at hle
      | leaf hleaf' hrow' =>
          rw [List.append_assoc] at heq
          obtain ⟨rfl, rfl⟩ := hleaf.front hleaf' heq
          obtain ⟨u, us, rfl, rfl, hu⟩ :=
            ih hrow' (by simpa using hle) (List.append_cancel_left heq)
          exact ⟨u, us, (List.append_assoc _ _ _).symm, rfl, hu⟩
      | array hn' =>
          rw [List.append_assoc] at heq
          exact (hleaf.not_header hn' (by omega) heq).elim
  | array hn hin hrow ihin ih =>
      rw [List.append_assoc] at heq
      cases h' with
      | nil => simp at hle
      | leaf hleaf' hrow' =>
          simp only [List.append_assoc] at heq
          exact (hleaf'.not_header hn (by omega) heq.symm).elim
      | array hn' hin' hrow' =>
          simp only [List.append_assoc] at heq
          obtain ⟨-, rfl, hcount, hrest⟩ := header_inj hn hn' heq
          have hlen := Int.natCast_inj.mp hcount
          -- the same count, so nothing is left of the inner row
          obtain ⟨u, us, rfl, rfl, hu⟩ := ihin hin' hlen.le hrest
          have hnil : us = [] := List.eq_nil_of_length_eq_zero (by simpa using hlen)
          subst hnil
          cases hu
          simp only [List.append_nil] at hrest hle ⊢
          obtain ⟨y, ys, rfl, rfl, hy⟩ :=
            ih hrow' (by simpa using hle) (List.append_cancel_left hrest)
          exact ⟨y, ys, by simp only [List.append_assoc], rfl, hy⟩

theorem Row.append {w x : Bytes} {us vs : List RespValue} (h : Row ends w us)
    (h' : Row ends x vs) : Row ends (w ++ x) (us ++ vs) := by
  induction h with
  | nil => exact h'
  | leaf hleaf hrow ih =>
      rw [List.append_assoc]
      exact .leaf hleaf ih
  | array hn hin hrow ihin ih =>
      rw [List.append_assoc, List.append_assoc]
      exact .array hn hin ih

theorem Leaf.derives {w : Bytes} {v : RespValue} (h : Leaf ends w v) : Derives ends w v := by
  have hrow := Row.leaf h .nil
  rwa [List.append_nil] at hrow

theorem Row.derives {l u : Bytes} {us : List RespValue} (h : Row ends u us)
    (hn : Numeral l us.length) :
    Derives ends (Protocol.line 42 l ++ u) { type := .array, array := us } := by
  have hrow := Row.array hn h .nil
  rwa [List.append_nil] at hrow

theorem Derives.front {w w' x x' : Bytes} {v v' : RespValue} (h : Derives ends w v)
    (h' : Derives ends w' v') (heq : w ++ x = w' ++ x') : w = w' ∧ v = v' := by
  obtain ⟨u, us, rfl, hus, hu⟩ := Row.front h h' le_rfl heq
  obtain ⟨rfl, rfl⟩ := List.cons_eq_cons.mp hus
  cases hu
  exact ⟨(List.append_nil w).symm, rfl⟩

/-- **A derivation meets nothing stray.** -/
theorem Meets.not_row {w x : Bytes} {vs : List RespValue} (h : Meets ends (w ++ x))
    (hrow : Row ends w vs) (hne : vs ≠ []) : False := by
  generalize hbuf : w ++ x = buf at h
  induction h generalizing w x vs with
  | @here l rest n hn hbad =>
      cases hrow with
      | nil => exact hne rfl
      | array hn' =>
          rw [List.append_assoc] at hbuf
          exact absurd (header_inj hn' hn hbuf).1 (by decide)
      | leaf hleaf hrow' =>
          rw [List.append_assoc] at hbuf
          have htype : _ = RespType.bulkString := hleaf.type_eq (not_infix_numeral hn) hbuf
          cases hleaf with
          | nullBulk hn' =>
              have := (header_inj hn' hn hbuf).2.2.1
              omega
          | @bulkString _ s t hn' ht hends =>
              rw [List.append_assoc] at hbuf
              obtain ⟨-, rfl, rfl, rfl⟩ := header_inj hn' hn hbuf
              refine (hbad.resolve_left (by omega)).2 ?_
              rw [Int.toNat_natCast, List.append_assoc, List.drop_left, ← ht, List.take_left]
              exact hends
          | simpleString | error | integer | nullArray => cases htype
  | inside hn hin hlt hmeets ih =>
      cases hrow with
      | nil => exact hne rfl
      | leaf hleaf hrow' =>
          rw [List.append_assoc] at hbuf
          exact hleaf.not_header hn (by omega) hbuf
      | array hn' hin' hrow' =>
          rw [List.append_assoc] at hbuf
          obtain ⟨-, rfl, rfl, hrest⟩ := header_inj hn' hn hbuf
          rw [List.append_assoc] at hrest
          -- what is met lies at the start of one of the elements
          obtain ⟨u, us, rfl, rfl, hu⟩ := hin.front hin' (by omega) hrest.symm
          rw [List.append_assoc] at hrest
          refine ih hu ?_ (List.append_cancel_left hrest)
          rintro rfl
          simp at hlt

end Front

/-! ## What the parser accepts -/

/-- Elements that the array loop takes one after the other, with their total
count. -/
inductive Elements (P : Platform) : Bytes → List RespValue → Nat → Prop
  | nil {x : Bytes} : Elements P x [] 0
  | cons {x : Bytes} {v : RespValue} {vs : List RespValue} {c c' : Nat} :
      parse P x = .ok ⟨.ok, v, c⟩ → c ≤ x.length → Elements P (x.drop c) vs c' →
      Elements P x (v :: vs) (c + c')

theorem Elements.le {P : Platform} {x : Bytes} {vs : List RespValue} {c : Nat}
    (h : Elements P x vs c) : c ≤ x.length := by
  induction h with
  | nil => exact Nat.zero_le _
  | cons hp hle hrest ih =>
      rw [List.length_drop] at ih
      omega

/-- What an accepted buffer is: a leaf, whatever two bytes end it; a bulk
string with a length below `-1`, which takes all there is; or an array. -/
inductive Accepted (P : Platform) (buf : Bytes) (v : RespValue) (c : Nat) : Prop
  | leaf (w x : Bytes) (split : buf = w ++ x) (size : c = w.length) (leaf : Leaf AnyBytes w v)
  | negative (l x : Bytes) (n : Int) (split : buf = line 36 l ++ x) (length : Numeral l n)
      (negative : n < -1) (value : v = { type := .bulkString, str := x })
  | array (l x : Bytes) (vs : List RespValue) (c' : Nat) (split : buf = line 42 l ++ x)
      (length : Numeral l vs.length) (elements : Elements P x vs c')
      (value : v = { type := .array, array := vs }) (size : c = (line 42 l).length + c')

/-- The buffer behind the type byte, cut at the end of its first line. -/
theorem exists_line {buf : Bytes} {n : Nat} (h : findCrlf buf = some n) (t : UInt8) :
    ∃ l x, t :: buf = line t l ++ x ∧ buf.take n = l ∧ buf.drop (n + 2) = x ∧ l.length = n ∧
      ¬ crlf <:+: l := by
  have hn := findCrlf_bound h
  refine ⟨_, _, ?_, rfl, rfl, ?_, not_infix_take h⟩
  · rw [line_append, ← findCrlf_split h]
  · rw [List.length_take]
    omega

/-- A leaf that is a line and nothing else. -/
theorem Accepted.of_line (P : Platform) {buf : Bytes} (hlt : buf.length + 1 < sizeLimit) {n : Nat}
    (hc : findCrlf buf = some n) {t : UInt8} {v v' : RespValue} {c : Nat}
    (hleaf : Leaf AnyBytes (line t (buf.take n)) v)
    (h : ParseResult.ok v (1 + n + 2) = ⟨.ok, v', c⟩) : Accepted P (t :: buf) v' c := by
  have hn := findCrlf_bound hc
  obtain ⟨l, x, hbuf, rfl, -, hlen, -⟩ := exists_line hc t
  unfold sizeLimit at hlt
  rw [ParseResult.ok, u64_of_lt (by omega)] at h
  obtain ⟨-, rfl, rfl⟩ := ParseResult.mk.inj h
  exact .leaf _ x hbuf (by rw [line_length, hlen]) hleaf

theorem parseSimpleString_accepted (P : Platform) {buf : Bytes} {v : RespValue} {c : Nat}
    (hlt : buf.length + 1 < sizeLimit) (h : parseSimpleString buf = ⟨.ok, v, c⟩) :
    Accepted P (43 :: buf) v c := by
  unfold parseSimpleString at h
  cases hc : findCrlf buf with
  | none => simp [hc, ParseResult.incomplete] at h
  | some n =>
      simp only [hc] at h
      exact .of_line P hlt hc (.simpleString (not_infix_take hc)) h

theorem parseError_accepted (P : Platform) {buf : Bytes} {v : RespValue} {c : Nat}
    (hlt : buf.length + 1 < sizeLimit) (h : parseError buf = ⟨.ok, v, c⟩) :
    Accepted P (45 :: buf) v c := by
  unfold parseError at h
  cases hc : findCrlf buf with
  | none => simp [hc, ParseResult.incomplete] at h
  | some n =>
      simp only [hc] at h
      exact .of_line P hlt hc (.error (not_infix_take hc)) h

theorem parseInteger_accepted (P : Platform) {buf : Bytes} {v : RespValue} {c : Nat}
    (hlt : buf.length + 1 < sizeLimit) (h : parseInteger buf = ⟨.ok, v, c⟩) :
    Accepted P (58 :: buf) v c := by
  unfold parseInteger at h
  cases hc : findCrlf buf with
  | none => simp [hc, ParseResult.incomplete] at h
  | some n =>
      cases hl : parseLength (buf.take n) with
      | none => simp [hc, hl, ParseResult.error] at h
      | some len =>
          simp only [hc, hl] at h
          exact .of_line P hlt hc (.integer (parseLength_iff.mp hl)) h

/-- A payload of `n` bytes and the two bytes behind it. -/
theorem split_payload {x : Bytes} {n : Nat} (h : n + 2 ≤ x.length) :
    ∃ s t rest, x = s ++ t ++ rest ∧ x.take n = s ∧ s.length = n ∧ t.length = 2 := by
  refine ⟨x.take n, (x.drop n).take 2, (x.drop n).drop 2, ?_, rfl, ?_, ?_⟩
  · rw [List.append_assoc, List.take_append_drop, List.take_append_drop]
  · rw [List.length_take]
    omega
  · rw [List.length_take, List.length_drop]
    omega

theorem parseBulkString_accepted (P : Platform) {buf : Bytes} {v : RespValue} {c : Nat}
    (hlt : buf.length + 1 < sizeLimit) (h : parseBulkString buf = ⟨.ok, v, c⟩) :
    Accepted P (36 :: buf) v c := by
  unfold parseBulkString at h
  cases hc : findCrlf buf with
  | none => simp [hc, ParseResult.incomplete] at h
  | some n =>
      cases hl : parseLength (buf.take n) with
      | none => simp [hc, hl, ParseResult.error] at h
      | some len =>
          have hnum := parseLength_iff.mp hl
          simp only [hc, hl] at h
          by_cases hnull : len = -1
          · subst hnull
            rw [if_pos rfl] at h
            exact .of_line P hlt hc (.nullBulk hnum) h
          · rw [if_neg hnull] at h
            by_cases hfit : buf.length < u64 (n + 2 + u64 (toSizeT len + 2))
            · simp [hfit, ParseResult.incomplete] at h
            · have hn := findCrlf_bound hc
              obtain ⟨hlo, hhi⟩ := hnum.1
              obtain ⟨l, x, hbuf, rfl, rfl, hlen, -⟩ := exists_line hc 36
              have hx : (buf.drop (n + 2)).length = buf.length - (n + 2) := List.length_drop
              unfold sizeLimit at hlt
              simp only [hfit, if_false, ParseResult.ok] at h
              obtain ⟨-, rfl, rfl⟩ := ParseResult.mk.inj h
              by_cases hneg : len < -1
              · -- as a `size_t` the length is past the end of any buffer
                refine .negative _ _ len hbuf hnum hneg ?_
                rw [List.take_of_length_le]
                unfold toSizeT
                omega
              · have hsize : toSizeT len = len.toNat := toSizeT_of_nonneg (by omega) (by omega)
                rw [hsize] at hfit ⊢
                unfold u64 at hfit ⊢
                obtain ⟨s, t, rest, hsplit, hs, hslen, ht⟩ :=
                  split_payload (x := buf.drop (n + 2)) (n := len.toNat) (by omega)
                rw [hs]
                refine .leaf _ rest (hbuf.trans ?_) ?_ (.bulkString (l := buf.take n) ?_ ht trivial)
                · rw [List.append_assoc, ← hsplit]
                · rw [List.length_append, List.length_append, hslen, ht, line_length, hlen]
                  omega
                · rw [hslen, Int.toNat_of_nonneg (by omega)]
                  exact hnum

/-- The element loop, from `offset` on. -/
theorem parseElements_accepted (P : Platform) {buf : Bytes} (hlt : buf.length + 1 < sizeLimit)
    {i offset : Nat} (hoff : offset ≤ buf.length) {arr : List RespValue} {v : RespValue} {c : Nat}
    (h : parseElements (parse P) buf i offset arr = .ok ⟨.ok, v, c⟩) :
    ∃ vs c', vs.length = i ∧ Elements P (buf.drop offset) vs c' ∧
      v = { type := .array, array := arr ++ vs } ∧ c = 1 + offset + c' := by
  induction i generalizing offset arr with
  | zero =>
      unfold sizeLimit at hlt
      simp only [parseElements, ParseResult.ok, u64_of_lt (n := 1 + offset) (by omega),
        Except.ok.injEq] at h
      obtain ⟨-, rfl, rfl⟩ := ParseResult.mk.inj h
      exact ⟨[], 0, rfl, .nil, by rw [List.append_nil], rfl⟩
  | succ i ih =>
      rw [parseElements] at h
      split at h
      · simp [ParseResult.incomplete] at h
      · rename_i hmore
        cases hsub : parse P (buf.drop offset) with
        | error e => simp [hsub] at h
        | ok res =>
            obtain ⟨status, u, cu⟩ := res
            rw [hsub] at h
            cases status with
            | incomplete => simp [ParseResult.incomplete] at h
            | error => simp [ParseResult.error] at h
            | ok =>
                have hlen : (buf.drop offset).length = buf.length - offset := List.length_drop
                obtain ⟨-, hle⟩ := parse_bounds P _ (by omega) hsub rfl
                simp only at h hle
                have hlt' := hlt
                unfold sizeLimit at hlt'
                rw [u64_of_lt (by omega)] at h
                obtain ⟨vs, c', rfl, helems, rfl, rfl⟩ := ih (by omega) h
                refine ⟨u :: vs, cu + c', rfl, .cons hsub hle ?_, ?_, by omega⟩
                · rwa [List.drop_drop]
                · rw [List.append_assoc, List.singleton_append]

theorem parseArray_accepted (P : Platform) {buf : Bytes} {v : RespValue} {c : Nat}
    (hlt : buf.length + 1 < sizeLimit) (h : parseArray P (parse P) buf = .ok ⟨.ok, v, c⟩) :
    Accepted P (42 :: buf) v c := by
  unfold parseArray at h
  cases hc : findCrlf buf with
  | none => simp [hc, ParseResult.incomplete] at h
  | some n =>
      cases hl : parseLength (buf.take n) with
      | none => simp [hc, hl, ParseResult.error] at h
      | some count =>
          have hnum := parseLength_iff.mp hl
          simp only [hc, hl] at h
          by_cases hnull : count = -1
          · subst hnull
            rw [if_pos rfl] at h
            exact .of_line P hlt hc (.nullArray hnum) (Except.ok.inj h)
          · rw [if_neg hnull] at h
            by_cases hres : P.reserveLimit < toSizeT count
            · obtain ⟨e, he⟩ := reserve_error hres
              simp [he] at h
            · have hn := findCrlf_bound hc
              have hrange := mt (reserve_refuses_iff P hnum.1 hnull).mpr hres
              obtain ⟨l, x, hbuf, rfl, rfl, hlen, -⟩ := exists_line hc 42
              have hlt' := hlt
              unfold sizeLimit at hlt'
              rw [reserve_ok (not_lt.mp hres), u64_of_lt (by omega)] at h
              obtain ⟨vs, c', hcount, helems, hv, hc'⟩ := parseElements_accepted P hlt hn h
              refine .array _ _ vs c' hbuf ?_ helems hv (by rw [hc', line_length, hlen]; omega)
              rw [hcount, Int.toNat_of_nonneg (by omega)]
              exact hnum

/-- **What the parser has accepted.** -/
theorem parse_accepted (P : Platform) {buf : Bytes} (hlt : buf.length < sizeLimit)
    {v : RespValue} {c : Nat} (h : parse P buf = .ok ⟨.ok, v, c⟩) : Accepted P buf v c := by
  cases buf with
  | nil => simp [ParseResult.incomplete] at h
  | cons t buf =>
      rw [List.length_cons] at hlt
      rw [parse_cons] at h
      split_ifs at h with h1 h2 h3 h4 h5
      · subst h1
        exact parseSimpleString_accepted P hlt (Except.ok.inj h)
      · subst h2
        exact parseError_accepted P hlt (Except.ok.inj h)
      · subst h3
        exact parseInteger_accepted P hlt (Except.ok.inj h)
      · subst h4
        exact parseBulkString_accepted P hlt (Except.ok.inj h)
      · subst h5
        exact parseArray_accepted P hlt h
      · simp [ParseResult.error] at h

/-! ## Accepted and derived -/

section Sound

variable {ends : Bytes → Prop}

/-- A leaf ends as it should, or that is what the buffer meets. -/
theorem Leaf.ends_or {w : Bytes} {v : RespValue} (h : Leaf AnyBytes w v) (x : Bytes) :
    Leaf ends w v ∨ Meets ends (w ++ x) := by
  cases h with
  | simpleString hs => exact .inl (.simpleString hs)
  | error hs => exact .inl (.error hs)
  | integer hn => exact .inl (.integer hn)
  | nullBulk hn => exact .inl (.nullBulk hn)
  | nullArray hn => exact .inl (.nullArray hn)
  | @bulkString l s t hn ht =>
      by_cases hends : ends t
      · exact .inl (.bulkString hn ht hends)
      · refine .inr ?_
        rw [List.append_assoc]
        refine .here hn (.inr ⟨by omega, ?_⟩)
        rwa [Int.toNat_natCast, List.append_assoc, List.drop_left, ← ht, List.take_left]

/-- The elements form a row, or the row stops at an element that meets
something. -/
theorem Elements.row_or {P : Platform} {x : Bytes} {vs : List RespValue} {c : Nat}
    (h : Elements P x vs c)
    (ih : ∀ b v c, b.length ≤ x.length → parse P b = .ok ⟨.ok, v, c⟩ →
      Derives ends (b.take c) v ∨ Meets ends b) :
    Row ends (x.take c) vs ∨
      ∃ w us rest, x = w ++ rest ∧ Row ends w us ∧ us.length < vs.length ∧ Meets ends rest := by
  induction h with
  | nil => exact .inl .nil
  | @cons x v vs c c' hp hle hrest ihrest =>
      have hshort : (x.drop c).length ≤ x.length := by
        rw [List.length_drop]
        omega
      rcases ih x v c le_rfl hp with hv | hmeets
      · rcases ihrest fun b v c hb => ih b v c (hb.trans hshort) with hrow | hstop
        · refine .inl ?_
          rw [List.take_add]
          exact Row.append hv hrow
        · obtain ⟨w, us, rest, hx, hrow, hlen, hmeets⟩ := hstop
          refine .inr ⟨x.take c ++ w, v :: us, rest, ?_, Row.append hv hrow, ?_, hmeets⟩
          · rw [List.append_assoc, ← hx, List.take_append_drop]
          · rw [List.length_cons, List.length_cons]
            omega
      · exact .inr ⟨[], [], x, rfl, .nil, by simp, hmeets⟩

/-- **Accepted is derived**, or the buffer meets something. -/
theorem derives_or_meets (P : Platform) (buf : Bytes) (hlt : buf.length < sizeLimit)
    {v : RespValue} {c : Nat} (h : parse P buf = .ok ⟨.ok, v, c⟩) :
    Derives ends (buf.take c) v ∨ Meets ends buf := by
  -- the elements of an array are shorter than the array
  induction hk : buf.length using Nat.strong_induction_on generalizing buf v c with
  | _ k ih =>
      cases parse_accepted P hlt h with
      | leaf w x split size leaf =>
          subst split size
          rw [List.take_left]
          exact (leaf.ends_or x).imp_left Leaf.derives
      | negative l x n split length negative value =>
          subst split
          exact .inr (.here length (.inl negative))
      | array l x vs c' split length elements value size =>
          subst split value size
          rw [List.length_append] at hk hlt
          have hpos : 0 < (line 42 l).length := by
            rw [line_length]
            omega
          have helems : ∀ b v c, b.length ≤ x.length → parse P b = .ok ⟨.ok, v, c⟩ →
              Derives ends (b.take c) v ∨ Meets ends b := fun b v c hb hp =>
            ih b.length (by omega) b (by omega) hp rfl
          rcases elements.row_or helems with hrow | ⟨w, us, rest, rfl, hrow, hlen, hmeets⟩
          · refine .inl ?_
            rw [List.take_length_add_append]
            exact hrow.derives length
          · exact .inr (.inside length hrow (by omega) hmeets)

/-- **What the parser accepts.** An accepted buffer starts with a derivation
of the accepted value, of the length that is reported, exactly if it meets no
bulk string with a length below `-1` and none that does not end with CRLF. -/
theorem accepts_grammar_iff (P : Platform) (buf : Bytes) (hlt : buf.length < sizeLimit)
    (v : RespValue) (c : Nat) (h : parse P buf = .ok ⟨.ok, v, c⟩) :
    Derives IsCrlf (buf.take c) v ↔ ¬ Meets IsCrlf buf := by
  constructor
  · intro hderives hmeets
    rw [← List.take_append_drop c buf] at hmeets
    exact hmeets.not_row hderives (by simp)
  · exact (derives_or_meets P buf hlt h).resolve_right

end Sound

/-- A `PING`, with more behind it. -/
theorem accepts_grammar_ping :
    ¬ Meets IsCrlf (ascii "*1\r\n$4\r\nPING\r\n+more") := by
  have hfour : Numeral (ascii "4") (ascii "PING").length :=
    ⟨by decide, ascii "4", by decide +kernel, by decide +kernel, .inl ⟨rfl, by decide +kernel⟩⟩
  have hping : Leaf IsCrlf (line 36 (ascii "4") ++ (ascii "PING" ++ crlf))
      { type := .bulkString, str := ascii "PING" } :=
    .bulkString hfour rfl rfl
  have hone : Numeral (ascii "1") 1 :=
    ⟨by decide, ascii "1", by decide +kernel, by decide +kernel, .inl ⟨rfl, by decide +kernel⟩⟩
  have hrow : Derives IsCrlf
      (line 42 (ascii "1") ++ (line 36 (ascii "4") ++ (ascii "PING" ++ crlf)))
      { type := .array, array := [{ type := .bulkString, str := ascii "PING" }] } :=
    hping.derives.derives hone
  exact (accepts_grammar_iff .concrete _ (by decide)
    { type := .array, array := [{ type := .bulkString, str := ascii "PING" }] } 14 rfl).mp hrow

/-- Three bytes of payload and then no CRLF: accepted, and no derivation. -/
theorem accepts_unended_bulk :
    parse .concrete (ascii "$3\r\nabcXY") =
        .ok ⟨.ok, { type := .bulkString, str := ascii "abc" }, 9⟩ ∧
      ¬ Derives IsCrlf ((ascii "$3\r\nabcXY").take 9)
        { type := .bulkString, str := ascii "abc" } := by
  refine ⟨rfl, fun hderives => ?_⟩
  have hthree : Numeral (ascii "3") 3 :=
    ⟨by decide, ascii "3", by decide +kernel, by decide +kernel, .inl ⟨rfl, by decide +kernel⟩⟩
  have hmeets : Meets IsCrlf (line 36 (ascii "3") ++ ascii "abcXY") :=
    .here hthree (.inr ⟨by decide, by unfold IsCrlf; decide⟩)
  exact Meets.not_row (x := []) hmeets hderives (by simp)

end RedisCache.Protocol
