import Mathlib
import RedisCache.Lib.Framing
import RedisCache.Protocol.RespParser
import RedisCache.Protocol.RespSerializer

/-!
# Lines and length headers

The two primitives under every `parse_*` helper: the CRLF search and the
length parse. The search finds the END of a CRLF-free line whatever
follows it, finds nothing in a line cut short, and whatever it finds lies
inside the view.
-/

namespace RedisCache.Protocol

open Framing

/-! ## The CRLF search -/

theorem findCrlf_bound {buf : Bytes} {n : Nat} (h : findCrlf buf = some n) :
    n + 2 ≤ buf.length := by
  induction buf using findCrlf.induct generalizing n with
  | case1 => simp [findCrlf] at h
  | case2 => simp [findCrlf] at h
  | case3 a b rest hab =>
      simp only [findCrlf, if_pos hab, Option.some.injEq] at h
      simp only [List.length_cons]
      omega
  | case4 a b rest hab ih =>
      simp only [findCrlf, if_neg hab, Option.map_eq_some_iff] at h
      obtain ⟨m, hm, rfl⟩ := h
      have := ih hm
      simp only [List.length_cons] at this ⊢
      omega

theorem findCrlf_eq_none {s : Bytes} (h : ¬ crlf <:+: s) : findCrlf s = none := by
  induction s using findCrlf.induct with
  | case1 => rfl
  | case2 => rfl
  | case3 a b rest hab =>
      obtain ⟨rfl, rfl⟩ := hab
      exact absurd (List.prefix_append crlf rest).isInfix h
  | case4 a b rest hab ih =>
      simp only [findCrlf, if_neg hab, ih (fun hi => h (List.infix_cons hi)), Option.map_none]

/-- The line ends where its CRLF starts, whatever comes after. -/
theorem findCrlf_line {s : Bytes} (h : ¬ crlf <:+: s) (x : Bytes) :
    findCrlf (s ++ crlf ++ x) = some s.length := by
  induction s using findCrlf.induct with
  | case1 => rfl
  | case2 a => simp [crlf, findCrlf]
  | case3 a b rest hab =>
      obtain ⟨rfl, rfl⟩ := hab
      exact absurd (List.prefix_append crlf rest).isInfix h
  | case4 a b rest hab ih =>
      have hrest := ih (fun hi => h (List.infix_cons hi))
      simp only [List.cons_append, findCrlf, if_neg hab] at hrest ⊢
      rw [hrest]
      simp

/-- The search stops at the first CRLF. -/
theorem findCrlf_first (a u : Bytes) :
    ∃ n, findCrlf (a ++ crlf ++ u) = some n ∧ n ≤ a.length := by
  induction a using findCrlf.induct with
  | case1 => exact ⟨0, rfl, Nat.le_refl _⟩
  | case2 c => exact ⟨1, by simp [crlf, findCrlf], by simp⟩
  | case3 c d rest hcd => exact ⟨0, by simp [findCrlf, hcd], Nat.zero_le _⟩
  | case4 c d rest hcd ih =>
      obtain ⟨n, hn, hle⟩ := ih
      refine ⟨n + 1, ?_, by simp only [List.length_cons] at hle ⊢; omega⟩
      simp only [List.cons_append, findCrlf, if_neg hcd] at hn ⊢
      rw [hn]
      rfl

/-- A line cut short has no CRLF: the cut keeps at most the CR. -/
theorem findCrlf_cut {s p : Bytes} (h : ¬ crlf <:+: s) (hp : CutOf p (s ++ crlf)) :
    findCrlf p = none := by
  apply findCrlf_eq_none
  rintro ⟨a, b, rfl⟩
  -- a CRLF inside `p` would be found there in the whole line too
  have hlt := hp.length_lt
  obtain ⟨⟨t, ht⟩, -⟩ := hp
  obtain ⟨n, hn, hle⟩ := findCrlf_first a (b ++ t)
  rw [show a ++ crlf ++ (b ++ t) = s ++ crlf ++ [] by rw [List.append_nil, ← ht]; simp,
    findCrlf_line h] at hn
  simp only [Option.some.injEq] at hn
  simp only [List.length_append] at hlt
  omega

theorem not_infix_of_notMem {s : Bytes} (h : (13 : UInt8) ∉ s) : ¬ crlf <:+: s := by
  intro hi
  exact h (hi.subset (by simp [crlf]))

/-- Text without a CR in front does not matter. -/
theorem infix_append_iff {s t : Bytes} (h : (13 : UInt8) ∉ s) :
    crlf <:+: s ++ t ↔ crlf <:+: t := by
  induction s with
  | nil => rfl
  | cons c s ih =>
      rw [List.cons_append, List.infix_cons_iff, ih (fun hm => h (by simp [hm]))]
      have hc : ¬ crlf <+: c :: (s ++ t) := by
        intro hp
        rw [crlf, List.cons_prefix_cons] at hp
        exact h (by simp [hp.1])
      simp [hc]

/-- Neither does a byte at the end that is no LF. -/
theorem infix_concat_iff {s : Bytes} {c : UInt8} (h : c ≠ 10) :
    crlf <:+: s ++ [c] ↔ crlf <:+: s := by
  rw [List.infix_concat_iff]
  have hc : ¬ crlf <:+ s ++ [c] := by
    rintro ⟨a, ha⟩
    rw [show crlf = [13] ++ [10] from rfl, ← List.append_assoc] at ha
    exact h (by simpa using (List.append_inj_right' ha rfl).symm)
  simp [hc]

/-- A numeral is CRLF-free. -/
theorem not_infix_ofInt (v : Int) : ¬ crlf <:+: Decimal.ofInt v :=
  not_infix_of_notMem (Decimal.notMem_ofInt (by decide) (by decide))

/-! ## The length parse -/

theorem parseLength_ofInt {v : Int} (h : Decimal.InRange v) :
    parseLength (Decimal.ofInt v) = some v := by
  simp [parseLength, Decimal.fromChars_ofInt_alone 0 h]

/-- A length line is made of digits, behind a sign at most. -/
theorem parseLength_none {line : Bytes} {b : UInt8} (hb : Decimal.isDigit b = false)
    (hsign : b ≠ 45) (hmem : b ∈ line) : parseLength line = none := by
  have hread : ∀ sign body, b ∈ body → (Decimal.readDigits 0 line sign body).rest ≠ [] := by
    intro sign body hbody
    have hdrop : body.dropWhile Decimal.isDigit ≠ [] := by
      intro hnil
      have := List.dropWhile_eq_nil_iff.mp hnil b hbody
      simp [hb] at this
    unfold Decimal.readDigits
    split
    · exact List.ne_nil_of_mem hmem
    · split
      · exact hdrop
      · exact hdrop
  have hrest : (Decimal.fromChars 0 line).rest ≠ [] := by
    unfold Decimal.fromChars
    split
    · rename_i hhead
      obtain ⟨tail, rfl⟩ := List.head?_eq_some_iff.mp hhead
      exact hread _ _ (by simpa [hsign] using hmem)
    · exact hread _ _ hmem
  simp only [parseLength]
  exact if_pos (Or.inr hrest)

theorem parseLength_inRange {line : Bytes} {v : Int} (h : parseLength line = some v) :
    Decimal.InRange v := by
  simp only [parseLength] at h
  split at h
  · cases h
  · cases h
    exact Decimal.fromChars_inRange (by decide) line

end RedisCache.Protocol
