import Mathlib

/-!
# Incremental framing

The general theory of an incremental decoder over a byte stream, for any
alphabet `β`, any type `μ` of messages and any type `α` of decoded values.

* `CutOf p e` — `p` is `e` cut short, and how a cut of a concatenation
  falls into one of its parts (`CutOf.of_append`);
* `Verdict` — what a decoder says about the front of a buffer;
* `Code` — the decoder undoes an encoder and asks for more input on every
  cut of an encoding;
* `scan` — the reader's loop: decode, drop what was consumed, repeat. It
  runs to its end for every decoder that makes `Progress`;
* `Code.scan_stream` — on a stream of whole messages followed by a cut one
  the loop finds exactly the messages and stops at the cut;
* `split_stream` — wherever a stream is cut, the cut falls inside one
  message.
-/

namespace Framing

variable {α β μ : Type*}

/-! ## Cuts -/

/-- `p` is `e` cut short: a front part that is not the whole. -/
def CutOf (p e : List β) : Prop := p <+: e ∧ p ≠ e

theorem CutOf.length_lt {p e : List β} (h : CutOf p e) : p.length < e.length := by
  obtain ⟨⟨t, rfl⟩, hne⟩ := h
  have ht : t ≠ [] := by
    rintro rfl
    exact hne (by simp)
  have := List.length_pos_iff.mpr ht
  simp only [List.length_append]
  omega

theorem CutOf.ne_nil {p e : List β} (h : CutOf p e) : e ≠ [] := by
  rintro rfl
  exact h.2 (List.prefix_nil.mp h.1)

/-- A front part of `a ++ b` ends inside `a` or inside `b`. -/
theorem front_append_cases {p a b : List β} (h : p <+: a ++ b) :
    CutOf p a ∨ ∃ r, p = a ++ r ∧ r <+: b := by
  by_cases hpa : p <+: a
  · by_cases heq : p = a
    · exact .inr ⟨[], by simp [heq], List.nil_prefix⟩
    · exact .inl ⟨hpa, heq⟩
  · have hap : a <+: p := by
      rcases List.prefix_or_prefix_of_prefix h (List.prefix_append a b) with h1 | h1
      · exact absurd h1 hpa
      · exact h1
    obtain ⟨r, rfl⟩ := hap
    exact .inr ⟨r, rfl, (List.prefix_append_right_inj a).mp h⟩

/-- A cut of a concatenation is a cut of its first part, or the whole of it
followed by a cut of the second. -/
theorem CutOf.of_append {p a b : List β} (h : CutOf p (a ++ b)) :
    CutOf p a ∨ ∃ r, p = a ++ r ∧ CutOf r b := by
  rcases front_append_cases h.1 with hc | ⟨r, rfl, hr⟩
  · exact .inl hc
  · refine .inr ⟨r, rfl, hr, ?_⟩
    rintro rfl
    exact h.2 rfl

/-- A cut of a non-empty list with a known head is empty or keeps that head. -/
theorem CutOf.of_cons {p e : List β} {b : β} (h : CutOf p (b :: e)) :
    p = [] ∨ ∃ q, p = b :: q ∧ CutOf q e := by
  rcases CutOf.of_append (a := [b]) h with ⟨hp, hne⟩ | h
  · left
    rcases p with _ | ⟨c, p⟩
    · rfl
    · simp only [List.cons_prefix_cons, List.prefix_nil] at hp
      obtain ⟨rfl, rfl⟩ := hp
      exact absurd rfl hne
  · exact .inr h

/-! ## Decoders -/

/-- What a decoder says about the front of a buffer: a message and how many
symbols it took, too little input, malformed input, or that it raised. -/
inductive Verdict (α : Type*) where
  | ok (a : α) (consumed : Nat)
  | incomplete
  | error
  | raised

/-- Below `limit`, every accepted message takes at least one symbol and
stays inside the buffer. -/
def Progress (limit : Nat) (dec : List β → Verdict α) : Prop :=
  ∀ buf a n, buf.length < limit → dec buf = .ok a n → 0 < n ∧ n ≤ buf.length

/-- `dec` undoes `enc` on `valid` messages (up to `val`, the decoded form of
a message), in buffers shorter than `limit`, and asks for more input on every
cut of an encoding. -/
structure Code (valid : μ → Prop) (limit : Nat) (enc : μ → List β) (val : μ → α)
    (dec : List β → Verdict α) : Prop where
  whole : ∀ m x, valid m → (enc m ++ x).length < limit →
    dec (enc m ++ x) = .ok (val m) (enc m).length
  cut : ∀ m p, valid m → p.length < limit → CutOf p (enc m) → dec p = .incomplete
  nonempty : ∀ m, enc m ≠ []

/-! ## The reader's loop -/

/-- Why the loop stopped: it needs more input, the input is malformed, or the
decoder raised. -/
inductive Stop where
  | starved
  | refused
  | raised
deriving DecidableEq, Repr

def scanFuel (dec : List β → Verdict α) : Nat → List β → List α × List β × Stop
  | 0, buf => ([], buf, .starved)
  | _ + 1, [] => ([], [], .starved)
  | fuel + 1, b :: bs =>
      match dec (b :: bs) with
      | .ok a n =>
          let rest := scanFuel dec fuel ((b :: bs).drop n)
          (a :: rest.1, rest.2)
      | .incomplete => ([], b :: bs, .starved)
      | .error => ([], b :: bs, .refused)
      | .raised => ([], b :: bs, .raised)

/-- The messages at the front of `buf`, what is left, and why it stopped. -/
def scan (dec : List β → Verdict α) (buf : List β) : List α × List β × Stop :=
  scanFuel dec buf.length buf

theorem scanFuel_eq {limit : Nat} {dec : List β → Verdict α} (hp : Progress limit dec)
    (buf : List β) (hl : buf.length < limit) :
    ∀ {m n : Nat}, buf.length ≤ m → buf.length ≤ n → scanFuel dec m buf = scanFuel dec n buf := by
  induction hk : buf.length using Nat.strong_induction_on generalizing buf with
  | _ k ih =>
      intro m n hm hn
      rcases buf with _ | ⟨b, bs⟩
      · cases m <;> cases n <;> rfl
      · simp only [List.length_cons] at hk hl
        obtain ⟨m, rfl⟩ : ∃ m', m = m' + 1 := ⟨m - 1, by omega⟩
        obtain ⟨n, rfl⟩ : ∃ n', n = n' + 1 := ⟨n - 1, by omega⟩
        simp only [scanFuel]
        cases hd : dec (b :: bs) with
        | ok a c =>
            obtain ⟨h0, hc⟩ := hp _ _ _ (by simpa using hl) hd
            have hlen : ((b :: bs).drop c).length = k - c := by
              simp only [List.length_drop, List.length_cons]
              omega
            simp only [List.length_cons] at hc
            have hrest : scanFuel dec m ((b :: bs).drop c) = scanFuel dec n ((b :: bs).drop c) :=
              ih (k - c) (by omega) _ (by omega) hlen (by omega) (by omega)
            simp only [hrest]
        | incomplete => rfl
        | error => rfl
        | raised => rfl

theorem scan_nil (dec : List β → Verdict α) : scan dec [] = ([], [], .starved) := rfl

/-- **One turn of the loop**, with no trace of the fuel. -/
theorem scan_cons {limit : Nat} {dec : List β → Verdict α} (hp : Progress limit dec)
    {buf : List β} (hne : buf ≠ []) (hl : buf.length < limit) :
    scan dec buf =
      match dec buf with
      | .ok a n =>
          let rest := scan dec (buf.drop n)
          (a :: rest.1, rest.2)
      | .incomplete => ([], buf, .starved)
      | .error => ([], buf, .refused)
      | .raised => ([], buf, .raised) := by
  obtain ⟨b, bs, rfl⟩ := List.exists_cons_of_ne_nil hne
  simp only [scan, List.length_cons, scanFuel]
  cases hd : dec (b :: bs) with
  | ok a n =>
      obtain ⟨h0, hn⟩ := hp _ _ _ hl hd
      simp only [List.length_cons] at hl hn
      have hlen : ((b :: bs).drop n).length = bs.length + 1 - n := by simp
      have hrest : scanFuel dec bs.length ((b :: bs).drop n)
          = scanFuel dec ((b :: bs).drop n).length ((b :: bs).drop n) :=
        scanFuel_eq hp _ (by omega) (by omega) (Nat.le_refl _)
      simp only [hrest]
  | incomplete => rfl
  | error => rfl
  | raised => rfl

/-- The loop over input that comes in pieces, each put behind what the last turn
has left: the messages found, and what is left in the end. -/
def scanPieces (dec : List β → Verdict α) (pieces : List (List β)) : List α × List β :=
  pieces.foldl (fun x piece => (x.1 ++ (scan dec (x.2 ++ piece)).1,
    (scan dec (x.2 ++ piece)).2.1)) ([], [])

theorem scanPieces_concat (dec : List β → Verdict α) (pieces : List (List β)) (piece : List β) :
    scanPieces dec (pieces ++ [piece]) =
      ((scanPieces dec pieces).1 ++ (scan dec ((scanPieces dec pieces).2 ++ piece)).1,
        (scan dec ((scanPieces dec pieces).2 ++ piece)).2.1) := by
  rw [scanPieces, List.foldl_append]
  rfl

/-! ## Streams of messages -/

/-- Nothing, or a message cut short: what is left of a stream between two
messages. -/
def Remnant (valid : μ → Prop) (enc : μ → List β) (r : List β) : Prop :=
  r = [] ∨ ∃ m, valid m ∧ CutOf r (enc m)

section Streams

variable {valid : μ → Prop} {limit : Nat} {enc : μ → List β} {val : μ → α}
  {dec : List β → Verdict α}

/-- The loop stops at a cut message, asking for more. -/
theorem Code.scan_remnant (hc : Code valid limit enc val dec) (hp : Progress limit dec)
    {r : List β} (hr : Remnant valid enc r) (hl : r.length < limit) :
    scan dec r = ([], r, .starved) := by
  by_cases hnil : r = []
  · subst hnil
    rfl
  · obtain ⟨m, hm, hcut⟩ := hr.resolve_left hnil
    rw [scan_cons hp hnil hl, hc.cut m _ hm hl hcut]

/-- The loop takes the whole messages in front and goes on behind them. -/
theorem Code.scan_front (hc : Code valid limit enc val dec) (hp : Progress limit dec)
    {ms : List μ} (hms : ∀ m ∈ ms, valid m) {x : List β}
    (hl : (ms.flatMap enc ++ x).length < limit) :
    scan dec (ms.flatMap enc ++ x) = (ms.map val ++ (scan dec x).1, (scan dec x).2) := by
  induction ms with
  | nil => rfl
  | cons m ms ih =>
      rw [List.flatMap_cons, List.append_assoc] at hl ⊢
      have hne : enc m ++ (ms.flatMap enc ++ x) ≠ [] := by simp [hc.nonempty m]
      rw [scan_cons hp hne hl, hc.whole m _ (hms m (by simp)) hl]
      have hl' : (ms.flatMap enc ++ x).length < limit := by
        rw [List.length_append] at hl
        omega
      simp only [List.drop_left, ih (fun w hw => hms w (by simp [hw])) hl', List.map_cons,
        List.cons_append]

/-- **Whole messages, then a cut one**: the loop finds exactly the messages
and leaves exactly the cut. -/
theorem Code.scan_stream (hc : Code valid limit enc val dec) (hp : Progress limit dec)
    {ms : List μ} (hms : ∀ m ∈ ms, valid m) {r : List β} (hr : Remnant valid enc r)
    (hl : (ms.flatMap enc ++ r).length < limit) :
    scan dec (ms.flatMap enc ++ r) = (ms.map val, r, .starved) := by
  have hr' : r.length < limit := by
    rw [List.length_append] at hl
    omega
  rw [hc.scan_front hp hms hl, hc.scan_remnant hp hr hr', List.append_nil]

end Streams

/-- **Every cut of a stream falls inside one message**: any front part of
`ms` encoded, followed by `t`, is some of the messages whole and then a cut
of the next one (or a front part of `t` when none is left). -/
theorem split_stream (enc : μ → List β) (ms : List μ) (t : List β) {q : List β}
    (h : q <+: ms.flatMap enc ++ t) :
    ∃ ms₁ ms₂ r, ms = ms₁ ++ ms₂ ∧ q = ms₁.flatMap enc ++ r ∧
      ((ms₂ = [] ∧ r <+: t) ∨ ∃ m ms', ms₂ = m :: ms' ∧ CutOf r (enc m)) := by
  induction ms generalizing q with
  | nil => exact ⟨[], [], q, rfl, rfl, .inl ⟨rfl, h⟩⟩
  | cons m ms ih =>
      rw [List.flatMap_cons, List.append_assoc] at h
      rcases front_append_cases h with hcut | ⟨q', rfl, hq'⟩
      · exact ⟨[], m :: ms, q, rfl, rfl, .inr ⟨m, ms, rfl, hcut⟩⟩
      · obtain ⟨ms₁, ms₂, r, rfl, rfl, hr⟩ := ih hq'
        exact ⟨m :: ms₁, ms₂, r, rfl, by simp, hr⟩

/-- The whole messages at the front of such a cut are as many as it holds. -/
theorem isGreatest_whole (enc : μ → List β) (ms₁ : List μ) {ms₂ : List μ} {r : List β}
    (hr : (ms₂ = [] ∧ r = []) ∨ ∃ m ms', ms₂ = m :: ms' ∧ CutOf r (enc m)) :
    IsGreatest {k | k ≤ (ms₁ ++ ms₂).length ∧
      ((ms₁ ++ ms₂).take k).flatMap enc <+: ms₁.flatMap enc ++ r} ms₁.length := by
  refine ⟨⟨by simp, by simp⟩, ?_⟩
  rintro k ⟨hk, hfront⟩
  by_contra hlt
  rcases hr with ⟨rfl, rfl⟩ | ⟨m, ms', rfl, hcut⟩
  · simp only [List.append_nil] at hk
    omega
  · -- one message more is longer than the cut
    obtain ⟨d, rfl⟩ : ∃ d, k = ms₁.length + (d + 1) := ⟨k - ms₁.length - 1, by omega⟩
    rw [List.take_length_add_append, List.flatMap_append, List.prefix_append_right_inj,
      List.take_succ_cons, List.flatMap_cons] at hfront
    have hlen := hfront.length_le
    have hshort := hcut.length_lt
    rw [List.length_append] at hlen
    omega

end Framing
