import Mathlib
import RedisCache.Commands.Requests
import RedisCache.Persistence.Aof

/-!
# Appending behind a torn tail

A crash in the middle of an `append` leaves a piece of a command at the end
of the file. The next start opens the file for appending and replays it, and
neither step removes the piece: what is appended from then on is glued to it.
The replay after that reads the piece together with the new bytes, as a
command with the piece's number of arguments or as an error. It finds the new
commands again exactly if nothing was left of the torn one.
-/

namespace RedisCache.Persistence

open Framing Protocol Commands

namespace Aof

/-- `Aof::open`: `std::ios::app` keeps what is there. -/
def openLog (file : Bytes) : Log := { bytes := file }

/-- The file after the commands `cs` were appended to it, with no disk error. -/
def appended (file : Bytes) (cs : List RespValue) : Bytes :=
  (appendAll (openLog file) (cs.map fun c => (c, .ok))).2.bytes

/-- The requests that `append` takes. -/
def arrays (cs : List RespValue) : List RespValue := cs.filter fun c => c.type = .array

theorem appendAll_ok (log : Log) (hgood : log.good = true) (cs : List RespValue) :
    (appendAll log (cs.map fun c => (c, .ok))).2 =
      { log with bytes := log.bytes ++ (arrays cs).flatMap wire } := by
  induction cs generalizing log with
  | nil => simp [appendAll, arrays]
  | cons c cs ih =>
      rw [List.map_cons, appendAll]
      by_cases hc : c.type = .array
      · have hstep : (append log c .ok).2 = { log with bytes := log.bytes ++ wire c } := by
          simp [append, hc, hgood]
        simp only [hstep]
        rw [ih { log with bytes := log.bytes ++ wire c } hgood]
        simp [arrays, hc]
      · have hstep : (append log c .ok).2 = log := by simp [append, hc]
        simp only [hstep]
        rw [ih log hgood]
        simp [arrays, hc]

theorem appended_arrays (file : Bytes) (cs : List RespValue) :
    appended file cs = file ++ (arrays cs).flatMap wire := by
  rw [appended, appendAll_ok _ rfl]
  rfl

theorem appended_eq (file : Bytes) {cs : List RespValue} (hcs : ∀ c ∈ cs, c.type = .array) :
    appended file cs = file ++ cs.flatMap wire := by
  rw [appended_arrays, arrays, List.filter_eq_self.mpr fun c hc => by simpa using hcs c hc]

/-- A replay of the file executes exactly `cs`, in order, whatever executing
means. -/
def Recovers (P : Platform) (file : Bytes) (cs : List RespValue) : Prop :=
  ∀ (σ : Type) (exec : RespValue → σ → σ) (s : σ), replay P exec (some file) s =
    some (.ok (cs.length, cs.foldl (fun s c => exec (asBulks c) s) s))

/-! ## What the parser makes of a piece -/

/-- An array that is parsed has as many elements as its header says. -/
theorem parseElements_count {parse : Bytes → Except Exn ParseResult} {buf : Bytes} {i offset : Nat}
    {arr : List RespValue} {res : ParseResult}
    (h : parseElements parse buf i offset arr = .ok res) (hok : res.status = .ok) :
    res.value.array.length = arr.length + i := by
  induction i generalizing offset arr with
  | zero =>
      cases h
      rfl
  | succ i ih =>
      rw [parseElements] at h
      split at h
      · cases h
        cases hok
      · split at h
        · cases h
        · split at h
          · cases h
            cases hok
          · cases h
            cases hok
          · rw [ih h, List.length_append, List.length_singleton]
            omega

/-- The piece of a header line, with another command behind it, has a `*` in
its length. -/
theorem parse_glued_header (P : Platform) {n m : Nat} {p : Bytes} (hne : p ≠ [])
    (hp : CutOf p (line 42 (Decimal.ofInt n))) (x : Bytes) :
    parse P (p ++ (line 42 (Decimal.ofInt m) ++ x)) = .ok .error := by
  obtain ⟨q, rfl, hq⟩ := hp.of_cons.resolve_left hne
  have hfree : ¬ crlf <:+: q ++ 42 :: Decimal.ofInt m := by
    have hdigits : ∀ k : Nat, (13 : UInt8) ∉ Decimal.ofInt k := fun k =>
      Decimal.notMem_ofInt (by decide) (by decide)
    have hstar : ¬ crlf <:+: 42 :: Decimal.ofInt m :=
      not_infix_of_notMem (by simpa using hdigits m)
    rcases hq.of_append with hcut | ⟨r, rfl, hr⟩
    · rwa [infix_append_iff fun hmem => hdigits n (hcut.1.subset hmem)]
    · rw [List.append_assoc, infix_append_iff (hdigits n)]
      rcases hr.of_cons with rfl | ⟨r', rfl, hr'⟩
      · exact hstar
      · obtain rfl : r' = [] := hr'.of_cons.resolve_right fun ⟨_, _, h⟩ => h.ne_nil rfl
        rw [List.cons_append, List.nil_append, List.infix_cons_iff]
        rintro (hpre | hinf)
        · simp [crlf] at hpre
        · exact hstar hinf
  have hshape : q ++ (line 42 (Decimal.ofInt m) ++ x) =
      (q ++ 42 :: Decimal.ofInt m) ++ crlf ++ x := by simp [line]
  rw [List.cons_append, parse_array, parseArray, hshape, findCrlf_line hfree]
  simp only [take_line, parseLength_none (b := 42) (by decide) (by decide)
    (List.mem_append_right q List.mem_cons_self)]

/-- Whatever a command is parsed to from a piece of `c` and another command
behind it, it has as many arguments as `c`. -/
theorem glued_count (P : Platform) {c c' : RespValue} (hc : Holds P c) {p x : Bytes}
    (hne : p ≠ []) (hp : CutOf p (wire c)) (hlen : (p ++ (wire c' ++ x)).length < 2 ^ 63)
    {v : RespValue} {n : Nat} (hparse : verdict P (p ++ (wire c' ++ x)) = .ok v n) :
    v.array.length = c.array.length := by
  have hwire : ∀ c : RespValue, wire c = line 42 (Decimal.ofInt c.array.length) ++
      c.array.flatMap fun arg => RespSerializer.bulk arg.str := by
    intro c
    simp [wire, line, ascii]
  rw [hwire c] at hp
  rcases hp.of_append with hcut | ⟨r, rfl, hr⟩
  · rw [hwire c', List.append_assoc] at hparse
    rw [verdict, parse_glued_header P hne hcut] at hparse
    cases hparse
  · rw [List.append_assoc] at hparse hlen
    rw [verdict, parse_array_header P hc.1 hlen] at hparse
    split at hparse
    · cases hparse
    · rename_i res helems
      split at hparse
      · rename_i hok
        cases hparse
        simpa using parseElements_count helems hok
      · cases hparse
      · cases hparse

/-! ## The replay after the next one -/

/-- What `append` takes and a replay can read back. -/
def Loggable (P : Platform) (cs : List RespValue) : Prop :=
  ∀ c ∈ cs, c.type = .array ∧ Holds P c

theorem foldl_log (vs log : List RespValue) :
    vs.foldl (fun log v => log ++ [v]) log = log ++ vs := by
  induction vs generalizing log with
  | nil => simp
  | cons v vs ih => rw [List.foldl_cons, ih, List.append_assoc, List.singleton_append]

/-- The executed commands are what `scan` finds. -/
theorem Recovers.scan {P : Platform} {file : Bytes} {cs : List RespValue} (h : Recovers P file cs)
    (hlen : file.length < sizeLimit) : (scan (verdict P) file).1 = cs.map asBulks := by
  obtain ⟨r, hrun, hout⟩ := replay_spec P (fun v log => log ++ [v]) hlen ([] : List RespValue)
  obtain rfl := Option.some_inj.mp (hrun.symm.trans (h _ _ _))
  have hwant : cs.foldl (fun log c => log ++ [asBulks c]) [] = cs.map asBulks := by
    rw [← List.foldl_map (f := asBulks) (g := fun log v => log ++ [v]), foldl_log,
      List.nil_append]
  simp only [Replay.Outcome, hwant, foldl_log, List.nil_append] at hout
  split at hout
  · obtain ⟨e, -, hraised⟩ := hout
    cases hraised
  · rename_i vs rest stop hscan
    simp only [Except.ok.injEq, Prod.mk.injEq] at hout
    rw [hscan]
    exact hout.2.symm

/-- A command with another number of arguments than the torn one is not
recovered. -/
theorem not_recovers_glued {P : Platform} {cs : List RespValue} (hcs : ∀ x ∈ cs, Holds P x)
    {c c' : RespValue} (hc : Holds P c) (hcount : c'.array.length ≠ c.array.length)
    {p x : Bytes} (hne : p ≠ []) (hp : CutOf p (wire c))
    (hlen : (cs.flatMap wire ++ (p ++ (wire c' ++ x))).length < sizeLimit)
    (cs' : List RespValue) :
    ¬ Recovers P (cs.flatMap wire ++ (p ++ (wire c' ++ x))) (cs ++ c' :: cs') := by
  intro h
  have hscan := h.scan hlen
  have hrest : (p ++ (wire c' ++ x)).length < sizeLimit := by
    rw [List.length_append] at hlen
    omega
  obtain ⟨hfits, hwire⟩ := recorded_stream hcs
  rw [hwire] at hlen hscan
  rw [(verdict_code P).scan_front (verdict_progress P) hfits hlen, List.map_append,
    List.map_map] at hscan
  have hval : cs.map (Resp.toValue ∘ recorded) = cs.map asBulks :=
    List.map_congr_left fun c _ => recorded_toValue c
  -- both sides start with `cs`; what is left is the verdict on the torn bytes
  have hfound := List.append_cancel_left (hval ▸ hscan)
  rw [scan_cons (verdict_progress P) (by simp [hne]) hrest] at hfound
  cases hv : verdict P (p ++ (wire c' ++ x)) with
  | ok v n =>
      rw [hv, List.map_cons] at hfound
      obtain ⟨hhead, -⟩ := List.cons_eq_cons.mp hfound
      unfold sizeLimit at hrest
      -- the torn header still says how many arguments to read
      have hlength := glued_count P hc hne hp (by omega) hv
      rw [hhead, asBulks, List.length_map] at hlength
      exact hcount hlength
  | incomplete => simp [hv] at hfound
  | error => simp [hv] at hfound
  | raised => simp [hv] at hfound

theorem loggable_requestOf {P : Platform} {words : List String}
    (hcount : words.length ≤ P.reserveLimit) (hsize : ∀ w ∈ words, (ascii w).length < 2 ^ 63) :
    Loggable P [requestOf words] := by
  intro c hc
  obtain rfl := List.mem_singleton.mp hc
  refine ⟨rfl, by simpa [requestOf] using hcount, fun arg harg => ?_⟩
  obtain ⟨w, hw, rfl⟩ := List.mem_map.mp harg
  exact hsize w hw

/-- `PING` is one word, `GET k` is two. -/
theorem exists_other_count {P : Platform} (hP : 2 ≤ P.reserveLimit) (n : Nat) :
    ∃ c, Loggable P [c] ∧ (wire c).length ≤ 64 ∧ c.array.length ≠ n := by
  by_cases hn : n = 1
  · refine ⟨requestOf ["GET", "k"], loggable_requestOf hP (by simp [ascii]), by decide, ?_⟩
    simp [requestOf, hn]
  · refine ⟨requestOf ["PING"], loggable_requestOf (le_trans (by decide) hP) (by simp [ascii]),
      by decide, ?_⟩
    simpa [requestOf] using Ne.symm hn

/-- **A torn tail damages what is appended behind it.** The file of the commands
`cs` and `c`, cut inside `c`, replays to `cs`. What is appended after that
restart is recovered in full, whatever it is, exactly if the cut left nothing
of `c`; otherwise no next command with another number of arguments is. -/
theorem torn_tail_iff {P : Platform} (hP : 2 ≤ P.reserveLimit) {cs : List RespValue} {c : RespValue}
    (hcs : Loggable P (cs ++ [c])) {file : Bytes} (hfile : file <+: appended [] (cs ++ [c]))
    (hinside : file ≠ appended [] (cs ++ [c])) (hlast : appended [] cs <+: file)
    (hlen : file.length < 2 ^ 60) :
    Recovers P file cs ∧
    ((∀ cs', Loggable P cs' → (appended file cs').length < sizeLimit →
        Recovers P (appended file cs') (cs ++ cs')) ↔ file = appended [] cs) ∧
    (file ≠ appended [] cs → ∀ c' cs', Loggable P (c' :: cs') →
      (appended file (c' :: cs')).length < sizeLimit → c'.array.length ≠ c.array.length →
        ¬ Recovers P (appended file (c' :: cs')) (cs ++ c' :: cs')) := by
  have hholds : ∀ x ∈ cs, Holds P x := fun x hx => (hcs x (by simp [hx])).2
  have hc : Holds P c := (hcs c (by simp)).2
  rw [appended_eq _ fun x hx => (hcs x hx).1, List.nil_append, List.flatMap_append] at hfile hinside
  have hbase : appended [] cs = cs.flatMap wire := by
    rw [appended_eq _ fun x hx => (hcs x (by simp [hx])).1, List.nil_append]
  rw [hbase] at hlast ⊢
  obtain ⟨p, rfl⟩ := hlast
  have hp : CutOf p (wire c) := by
    refine ⟨by simpa using (List.prefix_append_right_inj _).mp hfile, ?_⟩
    rintro rfl
    exact hinside (by simp)
  have hmine : cs.flatMap wire ++ p = cs.flatMap wire ↔ p = [] := by simp
  have hlost : p ≠ [] → ∀ c' cs', Loggable P (c' :: cs') →
      (appended (cs.flatMap wire ++ p) (c' :: cs')).length < sizeLimit →
        c'.array.length ≠ c.array.length →
          ¬ Recovers P (appended (cs.flatMap wire ++ p) (c' :: cs')) (cs ++ c' :: cs') := by
    intro hne c' cs' hlog hlong hcount
    have hshape : appended (cs.flatMap wire ++ p) (c' :: cs') =
        cs.flatMap wire ++ (p ++ (wire c' ++ cs'.flatMap wire)) := by
      rw [appended_eq _ fun x hx => (hlog x hx).1, List.flatMap_cons, List.append_assoc]
    rw [hshape] at hlong ⊢
    exact not_recovers_glued hholds hc hcount hne hp hlong cs'
  refine ⟨fun σ exec s => ?_, ?_, fun hne => hlost (hmine.not.mp hne)⟩
  · refine replay_log P exec hholds (Or.inr ⟨c, hc, hp⟩) ?_ s
    unfold sizeLimit
    omega
  · rw [hmine]
    constructor
    · intro hall
      by_contra hne
      -- one appended command with another count is enough to lose it
      obtain ⟨c', hlog, hshort, hcount⟩ := exists_other_count hP c.array.length
      have hlong : (appended (cs.flatMap wire ++ p) [c']).length < sizeLimit := by
        rw [appended_eq _ fun x hx => (hlog x hx).1, List.length_append]
        unfold sizeLimit
        simp only [List.flatMap_cons, List.flatMap_nil, List.append_nil]
        omega
      exact hlost hne c' [] hlog hlong hcount (hall [c'] hlog hlong)
    · rintro rfl cs' hlog hlong σ exec s
      have hshape : appended (cs.flatMap wire ++ []) cs' = (cs ++ cs').flatMap wire ++ [] := by
        rw [appended_eq _ fun x hx => (hlog x hx).1]
        simp
      rw [hshape] at hlong ⊢
      refine replay_log P exec (fun x hx => ?_) (Or.inl rfl) hlong s
      rcases List.mem_append.mp hx with hx | hx
      · exact hholds x hx
      · exact (hlog x hx).2

/-- `SET a 1` cut behind its `*`: nothing is recovered of what follows. -/
theorem torn_tail_iff_set :
    ¬ ∀ cs', Loggable .concrete cs' → (appended [42] cs').length < sizeLimit →
      Recovers .concrete (appended [42] cs') cs' := by
  have hlog : Loggable .concrete ([] ++ [requestOf ["SET", "a", "1"]]) :=
    loggable_requestOf (by decide) (by simp [ascii])
  have htorn := @torn_tail_iff .concrete (by decide) [] _ hlog [42] (by decide) (by decide)
    (by decide) (by decide)
  exact fun hall => absurd (htorn.2.1.mp hall) (by decide)

/-- A log of `SET a 1` torn behind its first byte, and `GET b` appended to it
after the restart: the replay executes nothing. -/
theorem torn_tail_loses_get :
    (wire (requestOf ["SET", "a", "1"])).take 1 = [42] ∧
      ¬ Recovers .concrete (appended [42] [requestOf ["GET", "b"]]) [requestOf ["GET", "b"]] := by
  refine ⟨by decide, ?_⟩
  have hlog : Loggable .concrete [requestOf ["SET", "a", "1"]] :=
    loggable_requestOf (by decide) (by simp [ascii])
  exact @not_recovers_glued .concrete [] (by simp) _ (requestOf ["GET", "b"])
    (hlog _ List.mem_cons_self).2 (by decide) [42] [] (by simp) ⟨by decide, by decide⟩
    (by decide) []

end Aof

end RedisCache.Persistence
