import Mathlib
import RedisCache.Protocol.Bounds
import RedisCache.Commands.Dispatcher
import RedisCache.Storage.Contents

/-!
# One request, one reply

`OneReply P r`: the bytes `r` are the encoding of one RESP value. Every
handler answers so, on every path. The reply of an unknown command repeats
the name the client sent, on a line that ends at the first CRLF: a CRLF in
the name ends it early, and what follows is read as the next reply.

Sizes: `StoreFits` and `RequestFits` say that the data are those of a
process with less than `2^58` bytes of it, and that the keys of the store
fit one vector.
-/

namespace RedisCache.Commands

open Sections Protocol Storage

/-- `r` is the encoding of one value. -/
def OneReply (P : Platform) (r : Bytes) : Prop :=
  ∃ v : Resp, v.Fits P ∧ r = v.encode ∧ r.length < sizeLimit

/-- Then the parser takes it whole. -/
theorem OneReply.parse {P : Platform} {r : Bytes} (h : OneReply P r) :
    ∃ v, parse P r = .ok ⟨.ok, v, r.length⟩ := by
  obtain ⟨v, hfit, rfl, hlen⟩ := h
  unfold sizeLimit at hlen
  have hwhole := (roundTrips P v hfit).whole [] (by rw [List.append_nil]; omega)
  rw [List.append_nil] at hwhole
  exact ⟨v.toValue, hwhole⟩

/-! ## The serializer's forms -/

section Forms

variable (P : Platform)

theorem oneReply_integer {n : Int} (h : Decimal.InRange n) :
    OneReply P (RespSerializer.integer n) := by
  refine ⟨.integer ⟨n, h⟩, trivial, rfl, ?_⟩
  have := Decimal.ofInt_length_le h
  rw [show RespSerializer.integer n = line 58 (Decimal.ofInt n) from rfl, line_length]
  unfold sizeLimit
  omega

theorem bulk_length {s : Bytes} (h : s.length < 2 ^ 58) :
    (RespSerializer.bulk s).length ≤ s.length + 25 := by
  have := Decimal.ofInt_length_le (inRange_length (show s.length < 2 ^ 63 by omega))
  rw [show RespSerializer.bulk s = _ from encode_bulkString s, List.length_append, line_length,
    List.length_append, crlf_length]
  omega

theorem oneReply_bulk {s : Bytes} (h : s.length < 2 ^ 58) :
    OneReply P (RespSerializer.bulk s) := by
  refine ⟨.bulkString s, show s.length < 2 ^ 63 by omega, rfl, ?_⟩
  have := bulk_length h
  unfold sizeLimit
  omega

theorem oneReply_nullBulk : OneReply P RespSerializer.nullBulk :=
  ⟨.nullBulk, trivial, rfl, by decide⟩

theorem oneReply_simple {s : Bytes} (h : ¬ crlf <:+: s) (hlen : s.length < 2 ^ 58) :
    OneReply P (RespSerializer.simple s) := by
  refine ⟨.simpleString ⟨s, h⟩, trivial, rfl, ?_⟩
  rw [show RespSerializer.simple s = line 43 s from rfl, line_length]
  unfold sizeLimit
  omega

theorem oneReply_ok : OneReply P RespSerializer.ok :=
  oneReply_simple P (s := ascii "OK") (not_infix_of_notMem (by decide)) (by decide)

/-- The line of an error reply. -/
theorem error_eq (msg : Bytes) :
    RespSerializer.error msg = line 45 (ascii "ERR " ++ msg) := by
  simp [RespSerializer.error, line, ascii]

theorem oneReply_error {msg : Bytes} (h : ¬ crlf <:+: msg) (hlen : msg.length < 2 ^ 59) :
    OneReply P (RespSerializer.error msg) := by
  have htext : ¬ crlf <:+: ascii "ERR " ++ msg := by
    rwa [infix_append_iff (by decide)]
  refine ⟨.error ⟨_, htext⟩, trivial, ?_, ?_⟩
  · rw [encode_error]
    exact error_eq msg
  · rw [error_eq, line_length, List.length_append, show (ascii "ERR ").length = 4 from rfl]
    unfold sizeLimit
    omega

theorem oneReply_wrongArgs {cmd : String} (h : (13 : UInt8) ∉ ascii cmd)
    (hlen : (ascii cmd).length < 2 ^ 58) : OneReply P (wrongArgs cmd) := by
  refine oneReply_error P (not_infix_of_notMem ?_) ?_
  · simp only [List.mem_append, not_or]
    exact ⟨⟨by decide, h⟩, by decide⟩
  · have h₁ : (ascii "wrong number of arguments for '").length = 31 := by decide
    have h₂ : (ascii "' command").length = 9 := by decide
    rw [List.length_append, List.length_append]
    omega

theorem oneReply_notAnInteger : OneReply P notAnInteger :=
  oneReply_error P (not_infix_of_notMem (by decide)) (by decide)

theorem oneReply_array {ks : List Bytes} (hcount : ks.length ≤ P.reserveLimit)
    (hlen : (ks.map fun k => k.length + 1).sum < 2 ^ 58) :
    OneReply P (RespSerializer.array ks) := by
  have hmax := P.reserveLimit_lt
  have hk : ∀ k ∈ ks, k.length < 2 ^ 58 := by
    intro k hmem
    have := List.le_sum_of_mem (List.mem_map_of_mem (f := fun k : Bytes => k.length + 1) hmem)
    omega
  have hshape : RespSerializer.array ks =
      line 42 (Decimal.ofInt ks.length) ++ ks.flatMap RespSerializer.bulk := by
    simp [RespSerializer.array, line, ascii]
  have henc : RespSerializer.array ks = (Resp.array (ks.map .bulkString)).encode := by
    rw [hshape, encode_array, Resp.encodeAll_eq_flatMap, List.flatMap_map, List.length_map]
    rfl
  refine ⟨.array (ks.map .bulkString), ⟨by simpa using hcount, ?_⟩, henc, ?_⟩
  · rw [Resp.fitsAll_iff]
    rintro v hv
    obtain ⟨k, hmem, rfl⟩ := List.mem_map.mp hv
    exact lt_trans (hk k hmem) (by norm_num)
  · have hnum := Decimal.ofInt_length_le (inRange_length (show ks.length < 2 ^ 63 by omega))
    have hbody : (ks.flatMap RespSerializer.bulk).length ≤
        25 * (ks.map fun k => k.length + 1).sum := by
      clear hcount hlen hshape henc hnum
      induction ks with
      | nil => simp
      | cons k ks ih =>
          have h₁ := ih (fun k' hk' => hk k' (by simp [hk']))
          have h₂ := bulk_length (hk k (by simp))
          simp only [List.flatMap_cons, List.length_append, List.map_cons, List.sum_cons]
          omega
    rw [hshape, List.length_append, line_length]
    unfold sizeLimit
    omega

end Forms

/-! ## Sizes -/

/-- The bytes of a shard's keys and values, and one for each entry. -/
def shardBytes (sh : Shard) : Nat :=
  (sh.map.entries.map fun e => e.1.length + e.2.value.length + 1).sum

/-- The store of a process with a finite memory. -/
structure StoreFits (P : Platform) (s : Shards) : Prop where
  count : (Store.shards.map fun i => (s i).map.entries.length).sum ≤ P.reserveLimit
  bytes : (Store.shards.map fun i => shardBytes (s i)).sum < 2 ^ 58

/-- The arguments of a request in such a process. -/
def RequestFits (req : RespValue) : Prop := ∀ a ∈ req.array, a.str.length < 2 ^ 58

theorem StoreFits.value {P : Platform} {s : Shards} (h : StoreFits P s) {i : Index} {k : Bytes}
    {e : Entry} (he : (s i).map.find k = some e) : e.value.length < 2 ^ 58 := by
  have h₁ : k.length + e.value.length + 1 ≤ shardBytes (s i) :=
    List.le_sum_of_mem (List.mem_map.mpr ⟨⟨k, e⟩, Map.mem_entries_iff.mpr he, rfl⟩)
  have h₂ : shardBytes (s i) ≤ (Store.shards.map fun i => shardBytes (s i)).sum :=
    List.le_sum_of_mem (List.mem_map.mpr ⟨i, Store.mem_shards i, rfl⟩)
  have := h.bytes
  omega

/-- The keys that match a pattern are no more, and no longer, than the keys
there are. -/
theorem StoreFits.keys {P : Platform} {s : Shards} (h : StoreFits P s) (pattern : Bytes)
    (now : Int) :
    let ks := (Store.shards.map fun i => (s i).keys P pattern now).flatten
    ks.length ≤ P.reserveLimit ∧ (ks.map fun k => k.length + 1).sum < 2 ^ 58 := by
  have hcount : ∀ i, ((s i).keys P pattern now).length ≤ (s i).map.entries.length := by
    intro i
    rw [Shard.keys, List.length_map]
    exact List.length_filter_le _ _
  have hbytes : ∀ i, (((s i).keys P pattern now).map fun k => k.length + 1).sum ≤
      shardBytes (s i) := by
    intro i
    rw [Shard.keys, List.map_map]
    refine le_trans (List.Sublist.sum_le_sum (List.filter_sublist.map _) (by simp)) ?_
    refine List.sum_le_sum fun e _ => ?_
    simp only [Function.comp]
    omega
  refine ⟨?_, ?_⟩
  · rw [List.length_flatten, List.map_map]
    exact le_trans (List.sum_le_sum fun i _ => hcount i) h.count
  · rw [List.map_flatten, List.sum_flatten, List.map_map, List.map_map]
    exact lt_of_le_of_lt (List.sum_le_sum fun i _ => hbytes i) h.bytes

/-! ## The handlers -/

section Handlers

variable (P : Platform) (maxKeys : Nat)

theorem ping_replies {args : List RespValue} (h : ∀ a ∈ args, a.str.length < 2 ^ 58) :
    Ensures (OneReply P) (handlePing args) := by
  have hpong : OneReply P (RespSerializer.simple (ascii "PONG")) :=
    oneReply_simple P (not_infix_of_notMem (by decide)) (by decide)
  match args, h with
  | [], _ => exact Ensures.pure hpong
  | [_], _ => exact Ensures.pure hpong
  | _ :: msg :: _, h =>
      simp only [handlePing]
      split
      · exact Ensures.pure (oneReply_bulk P (h msg (by simp)))
      · exact Ensures.pure hpong

theorem set_replies (args : List RespValue) :
    Ensures (OneReply P) (handleSet P maxKeys args) := by
  have hargs : OneReply P (wrongArgs "set") := oneReply_wrongArgs P (by decide) (by decide)
  match args with
  | [] => exact Ensures.pure hargs
  | [_] => exact Ensures.pure hargs
  | [_, _] => exact Ensures.pure hargs
  | _ :: key :: value :: opts =>
      simp only [handleSet]
      refine Ensures.bind (Ensures.any _) fun taken _ => ?_
      split
      · exact Ensures.pure (oneReply_nullBulk P)
      · refine Ensures.bind (Ensures.any _) fun present _ => ?_
        split
        · exact Ensures.pure (oneReply_nullBulk P)
        · exact Ensures.bind (Ensures.any _) fun _ _ => Ensures.pure (oneReply_ok P)

/-- The count stays an `int64_t`. -/
theorem countKeys_inRange (op : Bytes → StoreProg Bool) (args : List RespValue) {n : Int}
    (h : Decimal.InRange n) : Ensures Decimal.InRange (countKeys op args n) := by
  induction args generalizing n with
  | nil => exact Ensures.pure h
  | cons a args ih =>
      refine Ensures.bind (Ensures.any _) fun b _ => ih ?_
      split
      · exact i64_inRange _
      · exact h

theorem count_replies {cmd : String} (op : Bytes → StoreProg Bool)
    (hcmd : OneReply P (wrongArgs cmd)) (args : List RespValue) :
    Ensures (OneReply P) (countHandler cmd op args) := by
  match args with
  | [] => exact Ensures.pure hcmd
  | [_] => exact Ensures.pure hcmd
  | _ :: a :: rest =>
      exact Ensures.bind (countKeys_inRange op _ (by decide)) fun n hn =>
        Ensures.pure (oneReply_integer P hn)

theorem expire_replies {cmd : String} (toMs : Int → Int) (hcmd : OneReply P (wrongArgs cmd))
    (args : List RespValue) : Ensures (OneReply P) (expireHandler P cmd toMs args) := by
  match args with
  | [] => exact Ensures.pure hcmd
  | [_] => exact Ensures.pure hcmd
  | [_, _] => exact Ensures.pure hcmd
  | _ :: key :: amount :: _ =>
      refine Ensures.bind (Ensures.any _) fun ok _ => Ensures.pure (oneReply_integer P ?_)
      split <;> decide

theorem shard_ttl_inRange (sh : Shard) (key : Bytes) (now : Int) :
    Decimal.InRange (sh.ttl key now) := by
  unfold Shard.ttl
  split
  · decide
  · split
    · decide
    · simp only
      split
      · exact i64_inRange _
      · decide

theorem store_ttl_inRange (key : Bytes) : Ensures Decimal.InRange (Store.ttl P key) :=
  Ensures.locked fun t sh => shard_ttl_inRange sh key (t 0)

theorem tdiv_inRange {n : Int} (h : Decimal.InRange n) : Decimal.InRange (n.tdiv 1000) := by
  unfold Decimal.InRange at h ⊢
  rw [Int.tdiv_eq_ediv, show Int.sign 1000 = 1 from rfl]
  split <;> omega

theorem ttl_replies (args : List RespValue) : Ensures (OneReply P) (handleTtl P args) := by
  have hargs : OneReply P (wrongArgs "ttl") := oneReply_wrongArgs P (by decide) (by decide)
  match args with
  | [] => exact Ensures.pure hargs
  | [_] => exact Ensures.pure hargs
  | _ :: key :: _ =>
      refine Ensures.bind (store_ttl_inRange P _) fun ms hms => ?_
      split
      · exact Ensures.pure (oneReply_integer P (by decide))
      · split
        · exact Ensures.pure (oneReply_integer P (by decide))
        · exact Ensures.pure (oneReply_integer P (tdiv_inRange hms))

theorem pttl_replies (args : List RespValue) : Ensures (OneReply P) (handlePttl P args) := by
  have hargs : OneReply P (wrongArgs "pttl") := oneReply_wrongArgs P (by decide) (by decide)
  match args with
  | [] => exact Ensures.pure hargs
  | [_] => exact Ensures.pure hargs
  | _ :: key :: _ =>
      exact Ensures.bind (store_ttl_inRange P _) fun ms hms =>
        Ensures.pure (oneReply_integer P hms)

theorem incr_replies (args : List RespValue) : Ensures (OneReply P) (handleIncr P args) := by
  have hargs : OneReply P (wrongArgs "incr") := oneReply_wrongArgs P (by decide) (by decide)
  match args with
  | [] => exact Ensures.pure hargs
  | [_] => exact Ensures.pure hargs
  | _ :: key :: _ =>
      have hincr : Ensures (fun r => ∀ n, r = some n → Decimal.InRange n)
          (Store.incr P key.str) := by
        refine Ensures.locked fun t sh n hn => ?_
        rw [Shard.incr_eq, Option.map_eq_some_iff] at hn
        obtain ⟨c, -, rfl⟩ := hn
        exact i64_inRange _
      refine Ensures.bind hincr fun r hr => ?_
      cases r with
      | none => exact Ensures.pure (oneReply_notAnInteger P)
      | some n => exact Ensures.pure (oneReply_integer P (hr n rfl))

theorem incrby_replies (args : List RespValue) :
    Ensures (OneReply P) (handleIncrby P maxKeys args) := by
  have hargs : OneReply P (wrongArgs "incrby") := oneReply_wrongArgs P (by decide) (by decide)
  match args with
  | [] => exact Ensures.pure hargs
  | [_] => exact Ensures.pure hargs
  | [_, _] => exact Ensures.pure hargs
  | _ :: key :: amount :: _ =>
      simp only [handleIncrby]
      split
      · exact Ensures.pure (oneReply_notAnInteger P)
      · refine Ensures.bind (Ensures.any _) fun curStr _ => ?_
        split
        · exact Ensures.pure (oneReply_notAnInteger P)
        · exact Ensures.bind (Ensures.any _) fun _ _ =>
            Ensures.pure (oneReply_integer P (i64_inRange _))

theorem dbsize_replies (args : List RespValue) : Ensures (OneReply P) (handleDbsize args) := by
  unfold handleDbsize
  refine Ensures.bind (Ensures.any _) fun n _ => ?_
  exact Ensures.pure (oneReply_integer P (i64_inRange _))

theorem flushall_replies (args : List RespValue) : Ensures (OneReply P) (handleFlushall args) := by
  unfold handleFlushall
  refine Ensures.bind (Ensures.any _) fun _ _ => ?_
  exact Ensures.pure (oneReply_ok P)

/-- `get` returns a value some shard holds. -/
theorem run_get_mem (w : World Index Shard) (key : Bytes) {v : Bytes}
    (h : ((Store.get P key).run w).1 = some v) :
    ∃ e, (w.cells (Store.shardFor P key)).map.find key = some e ∧ e.value = v := by
  rw [Store.get, Prog.run_bind, Prog.run_locked_read _ fun t (sh : Shard) =>
    sh.getShared key (t 0)] at h
  simp only [Shard.getShared] at h
  cases he : (w.cells (Store.shardFor P key)).map.find key with
  | none => simp [he] at h
  | some e =>
      refine ⟨e, rfl, ?_⟩
      by_cases hexp : e.isExpired (w.clock 0) = true
      · -- the second section finds the entry again
        simp only [he, hexp, if_true] at h
        have h' : ((w.cells (Store.shardFor P key)).getExclusive key (w.clock 2)).1 = some v := h
        rw [Shard.getExclusive, he] at h'
        simp only at h'
        split at h'
        · cases h'
        · simpa using h'
      · simpa [he, hexp] using h

theorem get_replies {w : World Index Shard} (hw : StoreFits P w.cells) (args : List RespValue) :
    OneReply P ((handleGet P args).run w).1 := by
  have hargs : OneReply P (wrongArgs "get") := oneReply_wrongArgs P (by decide) (by decide)
  match args with
  | [] => exact hargs
  | [_] => exact hargs
  | _ :: key :: _ =>
      rw [handleGet, Prog.run_bind]
      cases hv : ((Store.get P key.str).run w).1 with
      | none => exact oneReply_nullBulk P
      | some v =>
          obtain ⟨e, he, rfl⟩ := run_get_mem P w key.str hv
          exact oneReply_bulk P (hw.value he)

theorem keys_replies {w : World Index Shard} (hw : StoreFits P w.cells) (args : List RespValue) :
    OneReply P ((handleKeys P args).run w).1 := by
  have hrun : ∀ pattern, ((Store.keys P pattern).run w).1 =
      (Store.shards.map fun i => (w.cells i).keys P pattern (w.clock 0)).flatten := by
    intro pattern
    rw [Store.keys, Prog.run_bind, Prog.run_bind,
      Prog.run_eachCell_read (fun sh : Shard => sh.keys P pattern _) Store.shards_nodup]
    rfl
  rw [handleKeys, Prog.run_bind, hrun]
  obtain ⟨hcount, hbytes⟩ := hw.keys _ (w.clock 0)
  exact oneReply_array P hcount hbytes

end Handlers

/-- Every registered command answers with one reply. -/
theorem IsHandler.reply {P : Platform} {maxKeys : Nat} {handler : Handler}
    (h : IsHandler P maxKeys handler) {w : World Index Shard} (hw : StoreFits P w.cells)
    {args : List RespValue} (hargs : ∀ a ∈ args, a.str.length < 2 ^ 58) :
    OneReply P ((handler args).run w).1 := by
  cases h with
  | ping => exact (ping_replies P hargs).run w
  | set => exact (set_replies P maxKeys args).run w
  | get => exact get_replies P hw args
  | del => exact (count_replies P _ (oneReply_wrongArgs P (by decide) (by decide)) args).run w
  | exist =>
      exact (count_replies P _ (oneReply_wrongArgs P (by decide) (by decide)) args).run w
  | expire => exact (expire_replies P _ (oneReply_wrongArgs P (by decide) (by decide)) args).run w
  | pexpire => exact (expire_replies P _ (oneReply_wrongArgs P (by decide) (by decide)) args).run w
  | ttl => exact (ttl_replies P args).run w
  | pttl => exact (pttl_replies P args).run w
  | incr => exact (incr_replies P args).run w
  | incrby => exact (incrby_replies P maxKeys args).run w
  | keys => exact keys_replies P hw args
  | dbsize => exact (dbsize_replies P args).run w
  | flushall => exact (flushall_replies P args).run w

/-! ## The dispatcher -/

/-- The request names a command that does not exist, with a line end in its
name. -/
def BreaksLine (P : Platform) (maxKeys : Nat) (req : RespValue) : Prop :=
  req.type = .array ∧ ∃ name args, req.array = name :: args ∧
    (handlers P maxKeys).lookup (name.str.map toLower) = none ∧ crlf <:+: name.str

theorem toLower_eq_iff {c d : UInt8} (hd : d = 13 ∨ d = 10) : toLower c = d ↔ c = d := by
  unfold toLower
  split
  · rename_i hc
    -- a capital and what it becomes are both letters
    obtain ⟨hlo, hhi⟩ := hc
    rw [UInt8.le_iff_toNat_le] at hlo hhi
    simp only [← UInt8.toNat_inj, UInt8.toNat_add] at hd ⊢
    simp only [UInt8.reduceToNat] at *
    omega
  · rfl

/-- Lower-casing neither makes nor unmakes a CRLF. -/
theorem infix_toLower_iff (s : Bytes) : crlf <:+: s.map toLower ↔ crlf <:+: s := by
  constructor
  · rintro ⟨a, b, hab⟩
    obtain ⟨l, r, rfl, hl, rfl⟩ := List.map_eq_append_iff.mp hab.symm
    obtain ⟨a', m, rfl, rfl, hm⟩ := List.map_eq_append_iff.mp hl
    obtain ⟨x, m', rfl, hx, hm'⟩ := List.map_eq_cons_iff.mp hm
    obtain ⟨y, m'', rfl, hy, hnil⟩ := List.map_eq_cons_iff.mp hm'
    rw [toLower_eq_iff (by simp)] at hx hy
    rw [List.map_eq_nil_iff] at hnil
    subst hx hy hnil
    exact ⟨a', r, rfl⟩
  · intro h
    exact h.map toLower

theorem infix_unknownCommand_iff (cmd : Bytes) :
    crlf <:+: ascii "unknown command '" ++ cmd ++ ascii "'" ↔ crlf <:+: cmd := by
  rw [List.append_assoc, infix_append_iff (by decide)]
  exact infix_concat_iff (by decide)

/-- A CRLF in the message ends the error reply early. -/
theorem parse_broken_error (P : Platform) {msg : Bytes} (h : crlf <:+: msg)
    (hlen : msg.length < 2 ^ 59) :
    ¬ ∃ v, parse P (RespSerializer.error msg) =
      .ok ⟨.ok, v, (RespSerializer.error msg).length⟩ := by
  rintro ⟨v, hv⟩
  obtain ⟨a, b, rfl⟩ := h
  obtain ⟨n, hn, hle⟩ := findCrlf_first (ascii "ERR " ++ a) (b ++ crlf)
  have hline : ascii "ERR " ++ (a ++ crlf ++ b) ++ crlf =
      ascii "ERR " ++ a ++ crlf ++ (b ++ crlf) := by simp
  rw [error_eq, line_length] at hv
  rw [line, hline, parse_error, parseError, hn] at hv
  simp only [ParseResult.ok, Except.ok.injEq, ParseResult.mk.injEq] at hv
  have hcount := hv.2.2
  have herr : (ascii "ERR ").length = 4 := by decide
  simp only [List.length_append, crlf_length] at hcount hle hlen
  rw [u64_of_lt (by omega)] at hcount
  omega

theorem unknown_length {name : Bytes} (h : name.length < 2 ^ 58) :
    (ascii "unknown command '" ++ name.map toLower ++ ascii "'").length < 2 ^ 59 := by
  have h₁ : (ascii "unknown command '").length = 17 := by decide
  have h₂ : (ascii "'").length = 1 := by decide
  rw [List.length_append, List.length_append, List.length_map]
  omega

/-- Away from such names, one request gets one reply. -/
theorem dispatch_oneReply (P : Platform) (maxKeys : Nat) {req : RespValue}
    {w : World Index Shard} (hw : StoreFits P w.cells) (hreq : RequestFits req)
    (h : ¬ BreaksLine P maxKeys req) : OneReply P ((dispatch P maxKeys req).run w).1 := by
  have hinvalid : OneReply P invalidRequest :=
    oneReply_error P (not_infix_of_notMem (by decide)) (by decide)
  unfold dispatch
  cases harr : req.array with
  | nil => exact hinvalid
  | cons name args =>
      simp only
      split
      · exact hinvalid
      · rename_i htype
        have hfit : ∀ a ∈ name :: args, a.str.length < 2 ^ 58 := harr ▸ hreq
        cases hl : (handlers P maxKeys).lookup (name.str.map toLower) with
        | none =>
            have hname : ¬ crlf <:+: name.str := by
              intro hi
              exact h ⟨by simpa using htype, name, args, harr, hl, hi⟩
            refine oneReply_error P ?_ (unknown_length (hfit name (by simp)))
            rwa [infix_unknownCommand_iff, infix_toLower_iff]
        | some handler =>
            exact (isHandler_of_lookup hl).reply hw hfit

/-- **When a reply is one reply**: on every store and at every clock, the bytes
`dispatch` returns parse as one value, whole, exactly when the request does
not name an unknown command with a CRLF in it; and then they are the encoding
of one value. -/
theorem dispatch_framed_iff (P : Platform) (maxKeys : Nat) (req : RespValue)
    (w : World Index Shard) (hw : StoreFits P w.cells) (hreq : RequestFits req) :
    ((∃ v, parse P ((dispatch P maxKeys req).run w).1 =
        .ok ⟨.ok, v, ((dispatch P maxKeys req).run w).1.length⟩) ↔
      ¬ BreaksLine P maxKeys req) ∧
    (¬ BreaksLine P maxKeys req →
      ∃ v : Resp, ((dispatch P maxKeys req).run w).1 = v.encode) := by
  refine ⟨⟨fun hv hbad => ?_, fun h => (dispatch_oneReply P maxKeys hw hreq h).parse⟩,
    fun h => ?_⟩
  · obtain ⟨htype, name, args, harr, hl, hi⟩ := hbad
    have hr : ((dispatch P maxKeys req).run w).1 = unknownCommand (name.str.map toLower) := by
      simp [dispatch, harr, htype, hl]
    rw [hr] at hv
    refine parse_broken_error P ?_ (unknown_length (hreq name (by simp [harr]))) hv
    rwa [infix_unknownCommand_iff, infix_toLower_iff]
  · obtain ⟨v, -, hv, -⟩ := dispatch_oneReply P maxKeys hw hreq h
    exact ⟨v, hv⟩

/-- `FOO` with no argument, on the empty store. -/
theorem dispatch_framed_unknown :
    ∃ v : Resp, ((dispatch .concrete 4
      { type := .array, array := [{ type := .bulkString, str := ascii "FOO" }] }).run
        ⟨fun _ => 0, Store.empty⟩).1 = v.encode := by
  refine (dispatch_framed_iff .concrete 4 _ ⟨fun _ => 0, Store.empty⟩ ⟨by decide, by decide⟩
    ?_).2 ?_
  · intro a ha
    obtain rfl := List.mem_singleton.mp ha
    decide
  · rintro ⟨-, name, args, harr, -, hi⟩
    obtain ⟨rfl, -⟩ := List.cons.inj harr
    exact absurd hi (by decide)

/-- The command name `x CR LF y`, alone in its array. -/
def brokenName : RespValue :=
  { type := .array, array := [{ type := .bulkString, str := [120, 13, 10, 121] }] }

/-- The reply to it parses, and leaves four bytes over. -/
theorem dispatch_unframed :
    ¬ ∃ v, parse .concrete ((dispatch .concrete 4 brokenName).run ⟨fun _ => 0, Store.empty⟩).1 =
      .ok ⟨.ok, v,
        ((dispatch .concrete 4 brokenName).run ⟨fun _ => 0, Store.empty⟩).1.length⟩ := by
  rintro ⟨v, hv⟩
  have hcount : (parse .concrete
      ((dispatch .concrete 4 brokenName).run ⟨fun _ => 0, Store.empty⟩).1).toOption.map
        ParseResult.consumed =
      some ((dispatch .concrete 4 brokenName).run ⟨fun _ => 0, Store.empty⟩).1.length :=
    congrArg (fun r => r.toOption.map ParseResult.consumed) hv
  exact absurd hcount (by decide)

end RedisCache.Commands
