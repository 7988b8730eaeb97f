import Mathlib
import RedisCache.Persistence.Rdb

/-!
# Loading a snapshot that was cut

The loop of `Rdb::load` looks at the stream before a record, not after it. When
the file ends inside a record, the reads that come short leave their targets as
they were, and what they hold goes to `Store::set` like any other record: one
call for an entry nobody saved. Only the records before it are right.

`wholeIn` are the records that lie wholly in a cut file and `madeUp` is what
`load` makes of the bytes behind them. `load_damaged_iff` says when nothing is
added to the records of the file: the uninitialised bytes make an end marker of
the torn length, or a deadline in the past (`Hidden`). A key or value of
`2 ^ 32 - 1` bytes or more is torn without a cut, since its length does not fit
its field; the reader is lost from there on.
-/

namespace RedisCache.Persistence.Rdb

open Sections Storage

/-! ## Where the cut falls -/

/-- The records wholly in the first `n` bytes of a body. -/
def wholeIn : List Record → Nat → List Record
  | [], _ => []
  | r :: rs, n =>
      if (encode r).length ≤ n then r :: wholeIn rs (n - (encode r).length) else []

/-- A part of the end marker or of a record, but not all of it. -/
inductive Torn (rs : List Record) : Bytes → Prop
  | marker {n : Nat} : n < 4 → Torn rs ((u32Bytes eofMarker).take n)
  | record {r : Record} {n : Nat} :
      r ∈ rs → n < (encode r).length → Torn rs ((encode r).take n)

theorem Torn.cons {rs : List Record} {tail : Bytes} (h : Torn rs tail) (r : Record) :
    Torn (r :: rs) tail := by
  cases h with
  | marker hn => exact .marker hn
  | record hr hn => exact .record (List.mem_cons_of_mem r hr) hn

theorem wholeIn_subset (rs : List Record) (n : Nat) : wholeIn rs n ⊆ rs := by
  induction rs generalizing n with
  | nil => exact List.Subset.refl _
  | cons r rs ih =>
      rw [wholeIn]
      split
      · exact List.cons_subset_cons r (ih _)
      · exact List.nil_subset _

theorem body_cons (r : Record) (rs : List Record) : body (r :: rs) = encode r ++ body rs := by
  simp [body]

/-- A cut body is its whole records and a torn rest. -/
theorem take_body (rs : List Record) {n : Nat} (hn : n < (body rs).length) :
    ∃ tail, (body rs).take n = (wholeIn rs n).flatMap encode ++ tail ∧ Torn rs tail := by
  induction rs generalizing n with
  | nil => exact ⟨_, rfl, .marker hn⟩
  | cons r rs ih =>
      rw [body_cons, List.length_append] at hn
      rw [body_cons, wholeIn]
      by_cases h : (encode r).length ≤ n
      · obtain ⟨tail, htake, htorn⟩ :=
          ih (show n - (encode r).length < (body rs).length by omega)
        refine ⟨tail, ?_, htorn.cons r⟩
        rw [if_pos h, List.take_append, List.take_of_length_le h, htake, List.flatMap_cons,
          List.append_assoc]
      · refine ⟨(encode r).take n, ?_, .record List.mem_cons_self (by omega)⟩
        rw [if_neg h, List.take_append_of_le_length (by omega)]
        rfl

/-! ## Reading a torn record -/

/-- A stream that has failed at its end. -/
structure Input.Spent (f : Input) : Prop where
  bad : f.good = false
  empty : f.rest = []

section Spent

variable {f : Input}

theorem Input.Spent.read (h : f.Spent) (buf : Bytes) : (f.read buf).2.Spent := by
  simpa [Input.read, h.bad] using h

theorem Input.Spent.readLocal (h : f.Spent) (n : Nat) : (f.readLocal n).2.Spent := by
  have hjunk : ({ f with junk := fun i => f.junk (i + n) } : Input).Spent := ⟨h.bad, h.empty⟩
  exact hjunk.read _

theorem Input.Spent.readRecord (h : f.Spent) (klen : Nat) : (readRecord klen f).2.Spent := by
  have hkey : (f.readString klen).2.Spent := h.read _
  have hvlen : (readU32 (f.readString klen).2).2.Spent := hkey.readLocal 4
  exact Input.Spent.readLocal (hvlen.read _) 8

/-- A read that comes short ends the stream. -/
theorem Input.read_short {buf : Bytes} (hgood : f.good = true)
    (h : f.rest.length < buf.length) : (f.read buf).2.Spent := by
  constructor
  · simpa [Input.read, hgood] using h
  · simpa [Input.read, hgood] using h.le

theorem Input.readLocal_short {n : Nat} (hgood : f.good = true) (h : f.rest.length < n) :
    (f.readLocal n).2.Spent :=
  Input.read_short hgood (by simpa using h)

end Spent

section Reading

variable {m : Nat} (junk : Nat → UInt8)

/-- The last two reads of a record, cut. -/
theorem spent_value (value : Bytes) (d : Int) (h : m < (value ++ i64Bytes d).length) :
    (readI64 (Input.readString ⟨(value ++ i64Bytes d).take m, true, junk⟩
      value.length).2).2.Spent := by
  rw [List.length_append, i64Bytes_length] at h
  rcases lt_or_ge m value.length with hlt | hge
  · have hshort : (Input.readString ⟨(value ++ i64Bytes d).take m, true, junk⟩
        value.length).2.Spent :=
      Input.read_short rfl (by simp; omega)
    exact hshort.readLocal 8
  · rw [List.take_append, List.take_of_length_le hge, readString_append]
    exact Input.readLocal_short rfl (by simp; omega)

/-- The reads behind the key, cut. -/
theorem spent_valueLength {value : Bytes} (hvalue : value.length < 2 ^ 32) (d : Int)
    (h : m < (u32Bytes value.length ++ (value ++ i64Bytes d)).length) :
    let vlen := readU32 ⟨(u32Bytes value.length ++ (value ++ i64Bytes d)).take m, true, junk⟩
    (readI64 (vlen.2.readString vlen.1).2).2.Spent := by
  intro vlen
  rw [List.length_append, u32Bytes_length] at h
  rcases lt_or_ge m 4 with hlt | hge
  · have hshort : vlen.2.Spent := Input.readLocal_short rfl (by simp; omega)
    exact Input.Spent.readLocal (hshort.read _) 8
  · have hvlen : vlen = (value.length,
        ⟨(value ++ i64Bytes d).take (m - 4), true, fun i => junk (i + 4)⟩) := by
      simp only [vlen]
      rw [List.take_append, List.take_of_length_le (by simpa using hge),
        readU32_append _ _ hvalue, u32Bytes_length]
    rw [hvlen]
    exact spent_value _ value d (by omega)

/-- The reads behind the key length, cut. -/
theorem spent_key (key : Bytes) {value : Bytes} (hvalue : value.length < 2 ^ 32) (d : Int)
    (h : m < (key ++ (u32Bytes value.length ++ (value ++ i64Bytes d))).length) :
    (readRecord key.length ⟨(key ++ (u32Bytes value.length ++
      (value ++ i64Bytes d))).take m, true, junk⟩).2.Spent := by
  rw [List.length_append] at h
  rcases lt_or_ge m key.length with hlt | hge
  · have hshort : (Input.readString ⟨(key ++ (u32Bytes value.length ++
        (value ++ i64Bytes d))).take m, true, junk⟩ key.length).2.Spent :=
      Input.read_short rfl (by simp; omega)
    exact Input.Spent.readLocal (Input.Spent.read (hshort.readLocal 4) _) 8
  · have hrest := spent_valueLength (m := m - key.length) junk hvalue d (by omega)
    rw [List.take_append, List.take_of_length_le hge]
    simpa only [readRecord, readString_append] using hrest

/-- The record that is made of a torn tail ends the stream. -/
theorem spent_torn {rs : List Record} (hfits : ∀ r ∈ rs, Fits r) {tail : Bytes}
    (h : Torn rs tail) :
    (readRecord (readU32 ⟨tail, true, junk⟩).1 (readU32 ⟨tail, true, junk⟩).2).2.Spent := by
  -- short of the length itself, whatever it was cut from
  have hfew : tail.length < 4 →
      (readRecord (readU32 ⟨tail, true, junk⟩).1 (readU32 ⟨tail, true, junk⟩).2).2.Spent := by
    intro hlt
    have hshort : (readU32 ⟨tail, true, junk⟩).2.Spent := Input.readLocal_short rfl hlt
    exact hshort.readRecord _
  cases h with
  | @marker n hn => exact hfew (by simp; omega)
  | @record r n hr hn =>
      rcases lt_or_ge n 4 with hlt | hge
      · exact hfew (by simp; omega)
      · obtain ⟨hkey, hvalue, -⟩ := hfits r hr
        have hklen : r.1.length % 2 ^ 32 = r.1.length := Nat.mod_eq_of_lt (by omega)
        have hvlen : r.2.1.length % 2 ^ 32 = r.2.1.length := Nat.mod_eq_of_lt (by omega)
        rw [encode, hklen, hvlen, List.length_append, u32Bytes_length] at hn
        rw [encode, hklen, hvlen, List.take_append, List.take_of_length_le (by simpa using hge),
          readU32_append _ _ (by omega), u32Bytes_length]
        exact spent_key _ r.1 (by omega) r.2.2 (by omega)

end Reading

/-! ## The records of a cut file -/

/-- Nothing is made of the bytes of `f`: its length reads as the end marker, or
the record that is read has expired. -/
def Hidden (now : Int) (f : Input) : Prop :=
  (readU32 f).1 = eofMarker ∨ stale now (readRecord (readU32 f).1 (readU32 f).2).1 = true

/-- A torn tail gives one record, or none. -/
theorem readRecords_torn (now : Int) {rs : List Record} (hfits : ∀ r ∈ rs, Fits r)
    {tail : Bytes} (h : Torn rs tail) (junk : Nat → UInt8) (fuel : Nat) :
    (readRecords now (fuel + 2) ⟨tail, true, junk⟩).1 = [] ↔
      Hidden now ⟨tail, true, junk⟩ := by
  have hspent := spent_torn junk hfits h
  have hmore : readRecords now (fuel + 1)
      (readRecord (readU32 ⟨tail, true, junk⟩).1 (readU32 ⟨tail, true, junk⟩).2).2 =
      ([], some []) := by
    simp [readRecords, hspent.bad, hspent.empty]
  rw [readRecords, Hidden]
  simp only [Bool.not_true, Bool.false_eq_true, if_false, hmore]
  split
  · simp [*]
  · split
    · simp [*]
    · simp [*]

/-- The lengths of the record fit their fields. -/
def fits (r : Record) : Bool :=
  decide (r.1.length < 2 ^ 32 - 1) && decide (r.2.1.length < 2 ^ 32 - 1)

/-- The whole records that can be read back, up to the first that cannot. -/
def readable (rs : List Record) (n : Nat) : List Record := (wholeIn rs n).takeWhile fits

/-- The whole records from there on. -/
def unreadable (rs : List Record) (n : Nat) : List Record := (wholeIn rs n).dropWhile fits

/-- The stream as `load` comes to the end of the readable records. -/
def atTear (junk : Nat → UInt8) (rs : List Record) (n : Nat) : Input where
  rest := ((body rs).take n).drop ((readable rs n).flatMap encode).length
  junk := fun i => junk (i + 16 * (readable rs n).length + 6)

/-- The records `load` makes of what it finds there. -/
def madeUp (now : Int) (junk : Nat → UInt8) (rs : List Record) (n : Nat) : List Record :=
  (readRecords now ((atTear junk rs n).rest.length + 2) (atTear junk rs n)).1

section Cut

variable {rs : List Record} {n : Nat}

theorem fits_of_mem_readable (hd : ∀ r ∈ rs, Decimal.InRange r.2.2) {r : Record}
    (h : r ∈ readable rs n) : Fits r := by
  have hfits := List.mem_takeWhile_imp h
  rw [fits, Bool.and_eq_true, decide_eq_true_iff, decide_eq_true_iff] at hfits
  exact ⟨hfits.1, hfits.2, hd r (wholeIn_subset rs n (List.takeWhile_subset _ h))⟩

theorem readable_append : readable rs n ++ unreadable rs n = wholeIn rs n :=
  List.takeWhile_append_dropWhile

theorem take_readable (junk : Nat → UInt8) (hn : n < (body rs).length) :
    (body rs).take n = (readable rs n).flatMap encode ++ (atTear junk rs n).rest := by
  obtain ⟨tail, htake, -⟩ := take_body rs hn
  simp only [atTear]
  rw [htake, ← readable_append, List.flatMap_append, List.append_assoc, List.drop_left]

/-- What `load` finds: the readable records that have not expired, and what it
makes up. -/
theorem found_eq (now : Int) (junk : Nat → UInt8) (hd : ∀ r ∈ rs, Decimal.InRange r.2.2)
    (hn : n < (body rs).length) :
    found now junk ((body rs).take n) =
      ((readable rs n).filter fun r => !stale now r) ++ madeUp now junk rs n := by
  have htake := take_readable junk hn
  have hlen := length_le_encoded (readable rs n)
  obtain ⟨k, hk⟩ : ∃ k, ((body rs).take n).length + 2 =
      (readable rs n).length + ((atTear junk rs n).rest.length + 2 + k) := by
    refine ⟨((readable rs n).flatMap encode).length - (readable rs n).length, ?_⟩
    rw [htake, List.length_append]
    omega
  have henough := (readRecords_enough now (f := atTear junk rs n)
    (show (atTear junk rs n).rest.length + 1 < (atTear junk rs n).rest.length + 2 + k by omega)
    (show _ < (atTear junk rs n).rest.length + 2 from Nat.lt_succ_self _)).1
  rw [found, hk, htake, readRecords_append now fun r => fits_of_mem_readable hd, madeUp, ← henough]
  rfl

/-- **Only records of the file** are found, each at most once and in file order,
when what is made up is among the unreadable ones. -/
theorem found_sublist_iff (now : Int) (junk : Nat → UInt8)
    (hd : ∀ r ∈ rs, Decimal.InRange r.2.2) (hn : n < (body rs).length) :
    (found now junk ((body rs).take n)).Sublist (wholeIn rs n) ↔
      (madeUp now junk rs n).Sublist (unreadable rs n) := by
  rw [found_eq now junk hd hn, ← readable_append]
  constructor
  · intro hsub
    -- nothing that is found has expired, so the expired records play no part
    have hfresh : ((madeUp now junk rs n).filter fun r => !stale now r) =
        madeUp now junk rs n := by
      rw [List.filter_eq_self]
      exact fun r hr => by rw [(mem_readRecords hr).1, Bool.not_false]
    have hfilter := hsub.filter fun r => !stale now r
    rw [List.filter_append, List.filter_append, List.filter_filter, hfresh] at hfilter
    simp only [Bool.and_self] at hfilter
    exact ((List.append_sublist_append_left _).mp hfilter).trans List.filter_sublist
  · intro hsub
    exact List.filter_sublist.append hsub

/-- With lengths that fit, nothing at all may be made of the torn tail. -/
theorem madeUp_sublist_iff (now : Int) (junk : Nat → UInt8) (hfits : ∀ r ∈ rs, Fits r)
    (hn : n < (body rs).length) :
    (madeUp now junk rs n).Sublist (unreadable rs n) ↔ Hidden now (atTear junk rs n) := by
  obtain ⟨tail, htake, htorn⟩ := take_body rs hn
  have hall : ∀ r ∈ wholeIn rs n, fits r = true := by
    intro r hr
    have hfit := hfits r (wholeIn_subset rs n hr)
    rw [fits, decide_eq_true hfit.key, decide_eq_true hfit.value, Bool.and_self]
  have hreadable : readable rs n = wholeIn rs n := List.takeWhile_eq_self_iff.mpr hall
  have hnone : unreadable rs n = [] := List.dropWhile_eq_nil_iff.mpr hall
  have htail : (atTear junk rs n).rest = tail := by
    have h := take_readable junk hn
    rw [htake, hreadable] at h
    exact (List.append_cancel_left h).symm
  rw [hnone, List.sublist_nil, madeUp, htail,
    show atTear junk rs n = ⟨tail, true, (atTear junk rs n).junk⟩ by rw [← htail]; rfl]
  exact readRecords_torn now hfits htorn _ _

end Cut

/-- **Loading a cut snapshot.** `load` calls `Store::set` for the records it
finds, in order, and returns their number. They are records wholly in the
prefix, each at most once and in file order, exactly when what is made of the
bytes behind the readable ones is; with lengths that fit this means that
nothing is. -/
theorem load_damaged_iff (P : Platform) (maxKeys : Nat) (junk : Nat → UInt8)
    {rs : List Record} (hd : ∀ r ∈ rs, Decimal.InRange r.2.2) {n : Nat} (hheader : 7 ≤ n)
    (hn : n < (magic ++ version :: body rs).length) :
    ∃ left : Int → Bytes,
      load P maxKeys junk (some ((magic ++ version :: body rs).take n)) =
        (Prog.now >>= fun now =>
          setRecords P maxKeys now (found now junk ((body rs).take (n - 7))) >>= fun _ =>
            pure (some ((found now junk ((body rs).take (n - 7))).length, left now))) ∧
      ∀ now,
        ((found now junk ((body rs).take (n - 7))).Sublist (wholeIn rs (n - 7)) ↔
          (madeUp now junk rs (n - 7)).Sublist (unreadable rs (n - 7))) ∧
        ((∀ r ∈ rs, Fits r) →
          ((found now junk ((body rs).take (n - 7))).Sublist (wholeIn rs (n - 7)) ↔
            Hidden now (atTear junk rs (n - 7)))) := by
  have hmagic : magic.length = 6 := rfl
  have hlt : n - 7 < (body rs).length := by
    rw [List.length_append, List.length_cons, hmagic] at hn
    omega
  have hcut : (magic ++ version :: body rs).take n =
      magic ++ version :: (body rs).take (n - 7) := by
    rw [List.take_append, List.take_of_length_le (by omega), hmagic,
      show n - 6 = n - 7 + 1 by omega, List.take_succ_cons]
  obtain ⟨left, hload⟩ := load_found P maxKeys junk ((body rs).take (n - 7))
  refine ⟨left, by rw [hcut, hload], fun now => ⟨found_sublist_iff now junk hd hlt, ?_⟩⟩
  intro hfits
  exact (found_sublist_iff now junk hd hlt).trans (madeUp_sublist_iff now junk hfits hlt)

/-- The entry `k`, with the value `v` and no expiry. -/
def oneEntry : List Record := [(ascii "k", ascii "v", -1)]

/-- The end marker is cut off, and the array is full of `0xFF`. -/
theorem load_damaged_marker :
    (found 1000 (fun _ => 0xFF) ((body oneEntry).take 18)).Sublist (wholeIn oneEntry 18) := by
  have hd : ∀ r ∈ oneEntry, Decimal.InRange r.2.2 := by decide
  obtain ⟨_, -, hiff⟩ := load_damaged_iff .concrete 4 (fun _ => 0xFF) hd (n := 25) (by decide)
    (by decide)
  have hfits : ∀ r ∈ oneEntry, Fits r := by
    intro r hr
    obtain rfl := List.mem_singleton.mp hr
    exact ⟨by decide, by decide, by decide⟩
  exact ((hiff 1000).2 hfits).mpr (Or.inl (by decide +kernel))

/-- The end marker is cut off, and the arrays are full of zeros: `load` sets the
empty key and counts it. -/
theorem load_damaged_zeros :
    ¬ (found 1000 (fun _ => 0) ((body oneEntry).take 18)).Sublist (wholeIn oneEntry 18) ∧
    ((load .concrete 4 (fun _ => 0) (some ((magic ++ version :: body oneEntry).take 25))).exec
      1000 Store.empty).1 = some (2, []) ∧
    ((Store.get .concrete []).exec 1000 ((load .concrete 4 (fun _ => 0)
      (some ((magic ++ version :: body oneEntry).take 25))).exec 1000 Store.empty).2).1 =
        some [] := by
  decide +kernel

end RedisCache.Persistence.Rdb
