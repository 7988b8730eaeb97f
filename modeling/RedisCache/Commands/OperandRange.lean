import Mathlib
import RedisCache.Commands.SetOptions

/-!
# The operand of EX and PX

`handle_set` reads the operand of an option with

    from_chars(args[++i].str.data(), args[i].str.data() + args[i].str.size(), secs)

which advances the loop index in one argument of the call and reads it in
another. C++20 initialises the parameters of a call one after the other, in an
order that it leaves open. With `first` before `last` the characters are those
of the operand; with `last` before `first` they end where the OPTION ends, in
another string.

The rest of the model takes the first of the two (`setOptions`). Here the
option loop is written with its index, and with an order for every call;
`set_operand_iff` says which orders are right.
-/

namespace RedisCache.Commands

open Sections Protocol Storage

/-! ## One call -/

/-- The parameters of `std::from_chars`. -/
inductive Param where
  | first
  | last
  | value
deriving DecidableEq

instance : Fintype Param where
  elems := {.first, .last, .value}
  complete p := by cases p <;> decide

/-- An order in which the parameters can be initialised: any. -/
abbrev Order := {ps : List Param // ps.Perm [.first, .last, .value]}

/-- `first` is initialised before `last`. -/
def Order.FirstBeforeLast (o : Order) : Prop := o.1.idxOf .first < o.1.idxOf .last

instance (o : Order) : Decidable o.FirstBeforeLast :=
  inferInstanceAs (Decidable (o.1.idxOf .first < o.1.idxOf .last))

def leftToRight : Order := ⟨[.first, .last, .value], List.Perm.refl _⟩

def rightToLeft : Order := ⟨[.value, .last, .first], by decide⟩

/-- A `const char*` into the string of an argument. -/
structure Pointer where
  arg : Nat
  offset : Nat
deriving DecidableEq

/-- The loop index and the pointers, while the parameters are initialised. -/
structure Passing where
  i : Nat
  first : Pointer := ⟨0, 0⟩
  last : Pointer := ⟨0, 0⟩

/-- `args[i].str`. -/
def strAt (args : List RespValue) (i : Nat) : Bytes := (args.getD i {}).str

def initParam (args : List RespValue) (p : Passing) : Param → Passing
  | .first => { p with i := p.i + 1, first := ⟨p.i + 1, 0⟩ }
  | .last => { p with last := ⟨p.i, (strAt args p.i).length⟩ }
  | .value => p

/-- The call for the option at `i`. -/
def passAt (o : Order) (args : List RespValue) (i : Nat) : Passing :=
  o.1.foldl (initParam args) { i := i }

/-- From the first byte of `args[i].str` to its end. -/
def wholeRange (args : List RespValue) (i : Nat) : Pointer × Pointer :=
  (⟨i, 0⟩, ⟨i, (strAt args i).length⟩)

theorem Order.cases (o : Order) :
    (o.FirstBeforeLast ∧
      (o.1 = [.first, .last, .value] ∨ o.1 = [.first, .value, .last] ∨
        o.1 = [.value, .first, .last])) ∨
    (¬ o.FirstBeforeLast ∧
      (o.1 = [.last, .first, .value] ∨ o.1 = [.last, .value, .first] ∨
        o.1 = [.value, .last, .first])) := by
  obtain ⟨ps, hperm⟩ := o
  obtain ⟨a, b, c, rfl⟩ := List.length_eq_three.mp hperm.length_eq
  revert a b c
  decide

/-- Whatever the order, the index ends at the operand and the range starts
there; it is the operand's if `first` comes before `last`, and ends with the
option if not. -/
theorem passAt_eq (o : Order) (args : List RespValue) (i : Nat) :
    passAt o args i =
      { i := i + 1
        first := ⟨i + 1, 0⟩
        last := if o.FirstBeforeLast then ⟨i + 1, (strAt args (i + 1)).length⟩
          else ⟨i, (strAt args i).length⟩ } := by
  rcases o.cases with ⟨hbefore, horder⟩ | ⟨hafter, horder⟩
  · rw [if_pos hbefore, passAt]
    rcases horder with h | h | h <;> rw [h] <;> rfl
  · rw [if_neg hafter, passAt]
    rcases horder with h | h | h <;> rw [h] <;> rfl

@[simp] theorem passAt_i (o : Order) (args : List RespValue) (i : Nat) :
    (passAt o args i).i = i + 1 := by
  rw [passAt_eq]

/-! ## The loop -/

/-- The characters from `p` to `q`. Between two strings there is no such range,
and what a read there finds (`outside`) is not the program's to say. -/
def charsIn (outside : Pointer → Pointer → Bytes) (args : List RespValue) (p q : Pointer) :
    Bytes :=
  if p.arg = q.arg then ((strAt args p.arg).take q.offset).drop p.offset else outside p q

/-- A call of `from_chars`, for the option at `option`. -/
structure OperandCall where
  option : Nat
  range : Pointer × Pointer
deriving DecidableEq

def callAt (orders : Nat → Order) (args : List RespValue) (i : Nat) : OperandCall :=
  ⟨i, (passAt (orders i) args i).first, (passAt (orders i) args i).last⟩

/-- The option loop from index `i` on, and the calls it makes. The call for the
option at `i` initialises its parameters in the order `orders i`. -/
def optionLoop (outside : Pointer → Pointer → Bytes) (orders : Nat → Order)
    (args : List RespValue) (i : Nat) (o : SetOptions) : SetOptions × List OperandCall :=
  if i < args.length then
    let opt := (strAt args i).map toUpper
    let p := passAt (orders i) args i
    if opt = ascii "EX" ∧ i + 1 < args.length then
      let secs := (Decimal.fromChars 0 (charsIn outside args p.first p.last)).value
      let more := optionLoop outside orders args (p.i + 1) { o with ttlMs := i64 (secs * 1000) }
      (more.1, callAt orders args i :: more.2)
    else if opt = ascii "PX" ∧ i + 1 < args.length then
      let ms := (Decimal.fromChars o.ttlMs (charsIn outside args p.first p.last)).value
      let more := optionLoop outside orders args (p.i + 1) { o with ttlMs := ms }
      (more.1, callAt orders args i :: more.2)
    else optionLoop outside orders args (i + 1) (o.flag opt)
  else (o, [])
termination_by args.length - i
decreasing_by
  · rw [passAt_i]
    omega
  · rw [passAt_i]
    omega
  · omega

/-- Where the options with an operand stand, the first argument being number
`i`. -/
def operandOptions : Nat → List RespValue → List Nat
  | _, [] => []
  | _, [_] => []
  | i, a :: b :: rest =>
      if Word "EX" a ∨ Word "PX" a then i :: operandOptions (i + 2) rest
      else operandOptions (i + 1) (b :: rest)

section Loop

variable {outside : Pointer → Pointer → Bytes} {orders : Nat → Order} {args : List RespValue}
  {i : Nat} {o : SetOptions} {a b : RespValue} {rest : List RespValue}

theorem strAt_of_drop (h : args.drop i = a :: rest) : strAt args i = a.str := by
  have hget : args[i]? = some a := by
    rw [← List.head?_drop, h, List.head?_cons]
  rw [strAt, List.getD_eq_getElem?_getD, hget, Option.getD_some]

theorem drop_succ_of_drop (h : args.drop i = a :: rest) : args.drop (i + 1) = rest := by
  rw [← List.drop_drop, h, List.drop_one, List.tail_cons]

theorem length_of_drop (h : args.drop i = rest) : args.length - i = rest.length := by
  rw [← h, List.length_drop]

theorem succ_lt_of_drop (h : args.drop i = a :: b :: rest) : i + 1 < args.length := by
  have hlength := length_of_drop h
  rw [List.length_cons, List.length_cons] at hlength
  omega

theorem optionLoop_nil (h : args.drop i = []) : optionLoop outside orders args i o = (o, []) := by
  have hlength := length_of_drop h
  rw [List.length_nil] at hlength
  rw [optionLoop, if_neg (by omega)]

/-- The last argument takes no operand. -/
theorem optionLoop_single (h : args.drop i = [a]) :
    optionLoop outside orders args i o = (o.flag (a.str.map toUpper), []) := by
  have hlength := length_of_drop h
  rw [List.length_singleton] at hlength
  have hend : ¬ i + 1 < args.length := by omega
  rw [optionLoop, if_pos (by omega), strAt_of_drop h]
  simp only [hend, and_false, if_false]
  exact optionLoop_nil (drop_succ_of_drop h)

theorem optionLoop_ex (h : args.drop i = a :: b :: rest) (ha : Word "EX" a) :
    optionLoop outside orders args i o =
      let p := passAt (orders i) args i
      let secs := (Decimal.fromChars 0 (charsIn outside args p.first p.last)).value
      let more := optionLoop outside orders args (i + 2) { o with ttlMs := i64 (secs * 1000) }
      (more.1, callAt orders args i :: more.2) := by
  have hlt := succ_lt_of_drop h
  rw [optionLoop, if_pos (Nat.lt_of_succ_lt hlt), strAt_of_drop h]
  simp only [passAt_i]
  rw [if_pos ⟨ha, hlt⟩]

theorem optionLoop_px (h : args.drop i = a :: b :: rest) (ha : Word "PX" a) :
    optionLoop outside orders args i o =
      let p := passAt (orders i) args i
      let ms := (Decimal.fromChars o.ttlMs (charsIn outside args p.first p.last)).value
      let more := optionLoop outside orders args (i + 2) { o with ttlMs := ms }
      (more.1, callAt orders args i :: more.2) := by
  have hlt := succ_lt_of_drop h
  rw [optionLoop, if_pos (Nat.lt_of_succ_lt hlt), strAt_of_drop h]
  simp only [passAt_i]
  rw [if_neg fun hand => absurd (ha.symm.trans hand.1) (by decide), if_pos ⟨ha, hlt⟩]

theorem optionLoop_flag (h : args.drop i = a :: b :: rest) (hex : ¬ Word "EX" a)
    (hpx : ¬ Word "PX" a) :
    optionLoop outside orders args i o =
      optionLoop outside orders args (i + 1) (o.flag (a.str.map toUpper)) := by
  have hlt := succ_lt_of_drop h
  rw [optionLoop, if_pos (Nat.lt_of_succ_lt hlt), strAt_of_drop h, if_neg fun hand => hex hand.1,
    if_neg fun hand => hpx hand.1]

/-- There is one call for each option with an operand. -/
theorem optionLoop_calls {l : List RespValue} (h : args.drop i = l) (o : SetOptions) :
    (optionLoop outside orders args i o).2 = (operandOptions i l).map (callAt orders args) := by
  induction i, l using operandOptions.induct generalizing o with
  | case1 i => rw [optionLoop_nil h, operandOptions, List.map_nil]
  | case2 i a => rw [optionLoop_single h, operandOptions, List.map_nil]
  | case3 i a b rest hword ih =>
      have hrest := drop_succ_of_drop (drop_succ_of_drop h)
      rw [operandOptions, if_pos hword, List.map_cons]
      rcases hword with hex | hpx
      · rw [optionLoop_ex h hex]
        exact congrArg _ (ih hrest _)
      · rw [optionLoop_px h hpx]
        exact congrArg _ (ih hrest _)
  | case4 i a b rest hword ih =>
      obtain ⟨hex, hpx⟩ := not_or.mp hword
      rw [operandOptions, if_neg hword, optionLoop_flag h hex hpx]
      exact ih (drop_succ_of_drop h) _

/-- In the right order the call reads the operand. -/
theorem charsIn_passAt (h : args.drop i = a :: b :: rest) (hi : (orders i).FirstBeforeLast) :
    charsIn outside args (passAt (orders i) args i).first (passAt (orders i) args i).last =
      b.str := by
  rw [passAt_eq, if_pos hi, charsIn, if_pos rfl, List.take_length, List.drop_zero]
  exact strAt_of_drop (drop_succ_of_drop h)

/-- In the right order the loop is the one of the model. -/
theorem optionLoop_options {l : List RespValue} (h : args.drop i = l)
    (hbefore : ∀ j ∈ operandOptions i l, (orders j).FirstBeforeLast) :
    (optionLoop outside orders args i o).1 = setOptions o l := by
  induction o, l using setOptions.induct generalizing i with
  | case1 o => rw [optionLoop_nil h, setOptions]
  | case2 o a => rw [optionLoop_single h, setOptions]
  | case3 o a b rest hex ih =>
      rw [operandOptions, if_pos (.inl hex)] at hbefore
      obtain ⟨hi, hlater⟩ := List.forall_mem_cons.mp hbefore
      rw [optionLoop_ex h hex, setOptions_ex hex]
      simp only [charsIn_passAt h hi]
      exact ih (drop_succ_of_drop (drop_succ_of_drop h)) hlater
  | case4 o a b rest hex hpx ih =>
      rw [operandOptions, if_pos (.inr hpx)] at hbefore
      obtain ⟨hi, hlater⟩ := List.forall_mem_cons.mp hbefore
      rw [optionLoop_px h hpx, setOptions_px hpx]
      simp only [charsIn_passAt h hi]
      exact ih (drop_succ_of_drop (drop_succ_of_drop h)) hlater
  | case5 o a b rest hex hpx ih =>
      rw [operandOptions, if_neg (not_or.mpr ⟨hex, hpx⟩)] at hbefore
      rw [optionLoop_flag h hex hpx, setOptions_flag hex hpx]
      exact ih (drop_succ_of_drop h) hbefore

end Loop

/-! ## SET -/

/-- `handle_set`, with an order for each of its calls. -/
def handleSetOrdered (P : Platform) (maxKeys : Nat) (outside : Pointer → Pointer → Bytes)
    (orders : Nat → Order) (args : List RespValue) : StoreProg Bytes :=
  match args with
  | _ :: key :: value :: _ =>
      (Command.set key.str value.str (optionLoop outside orders args 3 {}).1).prog P maxKeys
  | _ => pure (wrongArgs "set")

/-- The handler of the model is the one whose calls initialise `first` before
`last`. -/
theorem handleSetOrdered_eq (P : Platform) (maxKeys : Nat)
    (outside : Pointer → Pointer → Bytes) {orders : Nat → Order}
    (hbefore : ∀ i, (orders i).FirstBeforeLast) :
    handleSetOrdered P maxKeys outside orders = handleSet P maxKeys := by
  funext args
  rw [handleSet_eq]
  match args with
  | [] => rfl
  | [_] => rfl
  | [_, _] => rfl
  | name :: key :: value :: opts =>
      have hloop : (optionLoop outside orders (name :: key :: value :: opts) 3 {}).1 =
          setOptions {} opts := optionLoop_options rfl fun j _ => hbefore j
      rw [handleSetOrdered, hloop]
      rfl

/-- The calls of `from_chars` for a request. -/
def setCalls (outside : Pointer → Pointer → Bytes) (orders : Nat → Order)
    (args : List RespValue) : List OperandCall := (optionLoop outside orders args 3 {}).2

theorem callAt_range_iff (orders : Nat → Order) (args : List RespValue) (i : Nat) :
    ((callAt orders args i).range = wholeRange args (i + 1) ↔ (orders i).FirstBeforeLast) ∧
    ((callAt orders args i).range.1.arg = (callAt orders args i).range.2.arg ↔
      (orders i).FirstBeforeLast) := by
  rw [callAt, passAt_eq]
  by_cases hi : (orders i).FirstBeforeLast
  · simp [hi, wholeRange]
  · simp [hi, wholeRange]

/-- **Where the operand is read.** There is one call for every `EX` and `PX`
with an operand. Its range is the operand, from the first byte to the end, and
in one string at all, exactly if `first` is initialised before `last`; so for
every order only if there is no such option. -/
theorem set_operand_iff (outside : Pointer → Pointer → Bytes) (args : List RespValue) :
    (∀ orders,
      (setCalls outside orders args).map OperandCall.option = operandOptions 3 (args.drop 3) ∧
      ∀ c ∈ setCalls outside orders args,
        (c.range = wholeRange args (c.option + 1) ↔ (orders c.option).FirstBeforeLast) ∧
        (c.range.1.arg = c.range.2.arg ↔ (orders c.option).FirstBeforeLast)) ∧
    ((∀ orders, ∀ c ∈ setCalls outside orders args, c.range = wholeRange args (c.option + 1)) ↔
      operandOptions 3 (args.drop 3) = []) := by
  have hcalls : ∀ orders, setCalls outside orders args =
      (operandOptions 3 (args.drop 3)).map (callAt orders args) :=
    fun orders => optionLoop_calls rfl {}
  refine ⟨fun orders => ⟨?_, fun c hc => ?_⟩, fun hall => ?_, fun hnone orders c hc => ?_⟩
  · rw [hcalls, List.map_map]
    exact List.map_id _
  · rw [hcalls] at hc
    obtain ⟨i, -, rfl⟩ := List.mem_map.mp hc
    exact callAt_range_iff orders args i
  · -- with `last` first in every call, no call is right
    refine List.eq_nil_iff_forall_not_mem.mpr fun i hi => ?_
    have hc : callAt (fun _ => rightToLeft) args i ∈
        setCalls outside (fun _ => rightToLeft) args := by
      rw [hcalls]
      exact List.mem_map_of_mem hi
    have hbefore := (callAt_range_iff (fun _ => rightToLeft) args i).1.mp (hall _ _ hc)
    exact absurd hbefore (by decide)
  · rw [hcalls, hnone] at hc
    cases hc

/-- `SET k v EX 10 PX 500`. -/
def twoOperands : List RespValue :=
  [word "SET", word "k", word "v", word "EX", word "10", word "PX", word "500"]

theorem set_operand_leftToRight :
    setCalls (fun _ _ => []) (fun _ => leftToRight) twoOperands =
      [⟨3, ⟨4, 0⟩, ⟨4, 2⟩⟩, ⟨5, ⟨6, 0⟩, ⟨6, 3⟩⟩] ∧
    ∀ c ∈ setCalls (fun _ _ => []) (fun _ => leftToRight) twoOperands,
      c.range = wholeRange twoOperands (c.option + 1) :=
  ⟨by decide +kernel, fun c hc =>
    (((set_operand_iff (fun _ _ => []) twoOperands).1 _).2 c hc).1.mpr (by decide)⟩

/-- Right to left, the characters of `10` are to end with those of `EX`. -/
theorem set_operand_rightToLeft :
    setCalls (fun _ _ => []) (fun _ => rightToLeft) twoOperands =
      [⟨3, ⟨4, 0⟩, ⟨3, 2⟩⟩, ⟨5, ⟨6, 0⟩, ⟨5, 2⟩⟩] ∧
    wholeRange twoOperands 4 = (⟨4, 0⟩, ⟨4, 2⟩) := by
  decide +kernel

end RedisCache.Commands
