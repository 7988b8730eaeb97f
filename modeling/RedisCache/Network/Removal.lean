import Mathlib
import RedisCache.Network.Delivery

/-!
# When a connection is removed

Which handler calls take a connection out of the map, said of the call and
the state it finds: a hang-up; input that ends with the peer gone, or that
the parser refuses; output that `send` fails on before all of it is taken.
Nothing else does, and `reap_closed` finds nothing.
-/

namespace RedisCache.Network

open Loop Framing Protocol

variable {σ : Type}

namespace Conn

/-- `on_readable` asks for removal: the input fits, and the peer is gone or the
parser refuses what is left behind the requests. -/
def HangsUp (P : Platform) (c : Conn σ) (script : List Recv) : Prop :=
  c.inBuf.readable.length + (received script).length + 4096 ≤ Buffer.maxCap ∧
    (drained script = false ∨
      (scan (verdict P) (c.inBuf.readable ++ received script)).2.2 = .refused ∧
        c.outBuf.readable.length + protocolError.length ≤ Buffer.maxCap)

/-- `on_writable` asks for removal: `send` fails before it has taken `n`
bytes. -/
def fails : Nat → List Send → Bool
  | 0, _ => false
  | _ + 1, [] => false
  | n + 1, .took k :: rest => fails (n - k) rest
  | n + 1, .eintr :: rest => fails (n + 1) rest
  | n + 1, .zero :: rest => fails (n + 1) rest
  | _ + 1, .eagain :: _ => false
  | _ + 1, .error :: _ => true

/-- How `on_readable` ends. -/
inductive ReadEnd (P : Platform) (dispatch : Dispatch σ) (c : Conn σ) (script : List Recv) : Prop
  | closed (c' : Conn σ) (hangsUp : c.HangsUp P script)
      (run : c.onReadable P dispatch script = some (.ok (false, c')))
  | kept (c' : Conn σ) (stays : ¬ c.HangsUp P script) (isOpen : c'.closed = false)
      (run : c.onReadable P dispatch script = some (.ok (true, c')))
  | raised (e : Exn) (stays : ¬ c.HangsUp P script)
      (run : c.onReadable P dispatch script = some (.error e))

/-- The command loop, over input that was read completely. -/
theorem Processed.readEnd {P : Platform} {dispatch : Dispatch σ} {c : Conn σ}
    (hopen : c.closed = false) {script : List Recv}
    (hfits : c.inBuf.readable.length + (received script).length + 4096 ≤ Buffer.maxCap)
    (hd : drained script = true) {buf : Buffer}
    (hread : buf.readable = c.inBuf.readable ++ received script) {r : Except Exn (Conn σ)}
    (hproc : Processed P dispatch { c with inBuf := buf } [] r)
    (hrun : c.onReadable P dispatch script = some (r.map fun c => (!c.closed, c))) :
    ReadEnd P dispatch c script := by
  have hhangs : c.HangsUp P script ↔
      (scan (verdict P) (c.inBuf.readable ++ received script)).2.2 = .refused ∧
        c.outBuf.readable.length + protocolError.length ≤ Buffer.maxCap := by
    simp [HangsUp, hfits, hd]
  simp only [Processed, hread] at hproc
  split at hproc
  · -- the requests are served
    rename_i vs rest hscan
    have hstays : ¬ c.HangsUp P script := by
      rw [hhangs, hscan]
      simp
    cases r with
    | error e => exact .raised e hstays hrun
    | ok c' =>
        obtain ⟨-, -, -, hclosed, -, -⟩ := hproc.of_ok
        simp only [hopen, Bool.or_false] at hclosed
        simp only [Except.map, hclosed, Bool.not_false] at hrun
        exact .kept c' hstays hclosed hrun
  · -- a protocol error closes, if its reply fits
    rename_i vs rest hscan
    rw [hscan] at hhangs
    by_cases hroom : c.outBuf.readable.length + protocolError.length ≤ Buffer.maxCap
    · obtain ⟨inBuf, outBuf, -, -, -, -, rfl⟩ := hproc.queued hroom
      simp only [Except.map, hopen, Bool.or_true, Bool.not_true] at hrun
      exact .closed _ (hhangs.mpr ⟨rfl, hroom⟩) hrun
    · obtain rfl := hproc.refused (by simpa using hroom)
      exact .raised _ (fun h => hroom (hhangs.mp h).2) hrun
  · rename_i hscan
    obtain ⟨e, -, rfl⟩ := hproc
    refine .raised e ?_ hrun
    rw [hhangs, hscan]
    simp

theorem readEnd (P : Platform) (dispatch : Dispatch σ) {c : Conn σ} (h : c.Wf)
    (hopen : c.closed = false) (script : List Recv) : ReadEnd P dispatch c script := by
  rcases onReadable_cases P dispatch h script with
    ⟨hover, hrun⟩ | ⟨hfits, hd, buf, -, hrun⟩ | ⟨hfits, hd, buf, r, -, hread, hproc, hrun⟩
  · refine .raised _ (fun hhangs => ?_) hrun
    have := hhangs.1
    omega
  · exact .closed _ ⟨hfits, .inl hd⟩ hrun
  · exact hproc.readEnd hopen hfits hd hread hrun

/-- `on_writable` gives up exactly if `send` fails on the way. -/
theorem onWritable_fails {c : Conn σ} (h : c.Wf) (script : List Send) :
    ∃ r, c.onWritable script = some r ∧ r.1 = !fails c.outBuf.readable.length script := by
  refine run_spec (I := fun x : Conn σ × List Send => x.1.Wf) (m := fun x => x.2.length)
    (Q := fun x (r : Bool × Conn σ) => r.1 = !fails x.1.outBuf.readable.length x.2) ?_ h
    (Nat.lt_succ_self _)
  rintro ⟨c, script⟩ (hwf : c.Wf)
  simp only [writeTurn]
  split
  · rename_i hempty
    rw [Buffer.readable_of_empty hempty]
    exact .inl ⟨_, rfl, by simp [fails]⟩
  · rename_i hpending
    rw [hwf.outBuf.empty_iff] at hpending
    obtain ⟨n, hn⟩ : ∃ n, c.outBuf.readable.length = n + 1 :=
      Nat.exists_eq_succ_of_ne_zero fun h0 => hpending (List.eq_nil_of_length_eq_zero h0)
    cases script with
    | nil => exact .inl ⟨_, rfl, by rw [hn]; rfl⟩
    | cons x rest =>
        cases x with
        | eagain => exact .inl ⟨_, rfl, by rw [hn]; rfl⟩
        | error => exact .inl ⟨_, rfl, by rw [hn]; rfl⟩
        | eintr =>
            refine .inr ⟨_, rfl, hwf, Nat.lt_succ_self _, fun r hr => ?_⟩
            simp only [hn] at hr ⊢
            exact hr
        | zero =>
            refine .inr ⟨_, rfl, hwf, Nat.lt_succ_self _, fun r hr => ?_⟩
            simp only [hn] at hr ⊢
            exact hr
        | took k =>
            have htake : (c.outBuf.readable.take (k + 1)).length ≤ c.outBuf.readable.length := by
              rw [List.length_take]
              exact Nat.min_le_right _ _
            refine .inr ⟨_, rfl, ⟨hwf.inBuf, hwf.outBuf.consume htake⟩, Nat.lt_succ_self _,
              fun r hr => ?_⟩
            have hleft : n + 1 - min (k + 1) (n + 1) = n - k := by omega
            simp only [hwf.outBuf.readable_consume, List.length_drop, List.length_take, hn,
              hleft] at hr ⊢
            exact hr

end Conn

namespace EventLoop

/-- The call takes a connection out of the map. -/
def Call.Removes (P : Platform) (L : EventLoop σ) : Call → Prop
  | .accept _ => False
  | .remove fd => ∃ c, L.connections.lookup fd = some c
  | .readable fd script => ∃ c, L.connections.lookup fd = some c ∧ c.HangsUp P script
  | .writable fd script =>
      ∃ c, L.connections.lookup fd = some c ∧ Conn.fails c.outBuf.readable.length script = true

/-- The same descriptors are connected, and nothing more is gone. -/
structure SameKeys (L L' : EventLoop σ) : Prop where
  mem : ∀ fd, fd ∈ L'.connections ↔ fd ∈ L.connections
  gone : L'.gone = L.gone

theorem SameKeys.refl (L : EventLoop σ) : SameKeys L L := ⟨fun _ => Iff.rfl, rfl⟩

theorem SameKeys.put {L : EventLoop σ} {fd : Nat} {c : Conn Log}
    (h : L.connections.lookup fd = some c) (c' : Conn (σ × Log)) : SameKeys L (L.put fd c') := by
  refine ⟨fun fd' => ?_, rfl⟩
  have hmem : fd ∈ L.connections := by
    rw [← AList.lookup_isSome, h]
    rfl
  rw [EventLoop.put, AList.mem_insert]
  refine ⟨?_, .inr⟩
  rintro (rfl | hfd')
  · exact hmem
  · exact hfd'

theorem SameKeys.updateWriteInterest {L L' : EventLoop σ} (h : SameKeys L L') (fd : Nat)
    (b : Bool) : SameKeys L (L'.updateWriteInterest fd b) := ⟨h.mem, h.gone⟩

/-- What a call does to the map. -/
inductive Outcome (P : Platform) (dispatch : Dispatch σ) (L : EventLoop σ) (call : Call) : Prop
  | removes (L' : EventLoop σ) (fd : Nat) (c c' : Conn Log) (removes : call.Removes P L)
      (about : call.about = some fd) (before : L.connections.lookup fd = some c)
      (run : L.handle P dispatch call = some (.ok L')) (dropped : Dropped fd c' L L')
  | stays (stays : ¬ call.Removes P L)
      (run : ∀ L', L.handle P dispatch call = some (.ok L') →
        (∃ script, call = .accept script) ∨ SameKeys L L')

theorem handleReadable_outcome (P : Platform) (dispatch : Dispatch σ) {L : EventLoop σ}
    (hL : L.Sound) (fd : Nat) (script : List Conn.Recv) :
    Outcome P dispatch L (.readable fd script) := by
  cases hfd : L.connections.lookup fd with
  | none =>
      refine .stays (by simp [Call.Removes, hfd]) fun L' h => .inr ?_
      simp only [handle, handleReadable, hfd, Option.some.injEq, Except.ok.injEq] at h
      exact h ▸ .refl L
  | some c =>
      have hlive := hL.live fd c hfd
      have hwf := hlive.wf.withStore (L.store, c.store)
      have hremoves : (Call.readable fd script).Removes P L ↔ c.HangsUp P script := by
        simp [Call.Removes, hfd]
      cases Conn.readEnd P (noted dispatch) hwf hlive.isOpen script with
      | closed c' hangsUp run =>
          refine .removes ((L.put fd c').removeConnection fd) fd c (c'.withStore c'.store.2)
            (hremoves.mpr hangsUp) rfl hfd ?_ (dropped_of_put L fd c')
          simp [handle, handleReadable, hfd, run]
      | kept c' stays isOpen run =>
          refine .stays (mt hremoves.mp stays) fun L' h => .inr ?_
          simp only [handle, handleReadable, hfd, run, isOpen, Bool.not_true, Bool.or_self,
            Bool.false_eq_true, if_false] at h
          split_ifs at h
          · cases h
            exact (SameKeys.put hfd c').updateWriteInterest fd _
          · cases h
            exact .put hfd c'
      | raised e stays run =>
          refine .stays (mt hremoves.mp stays) fun L' h => ?_
          simp [handle, handleReadable, hfd, run] at h

theorem handleWritable_outcome (P : Platform) (dispatch : Dispatch σ) {L : EventLoop σ}
    (hL : L.Sound) (fd : Nat) (script : List Conn.Send) :
    Outcome P dispatch L (.writable fd script) := by
  cases hfd : L.connections.lookup fd with
  | none =>
      refine .stays (by simp [Call.Removes, hfd]) fun L' h => .inr ?_
      simp only [handle, handleWritable, hfd, Option.some.injEq, Except.ok.injEq] at h
      exact h ▸ .refl L
  | some c =>
      have hlive := hL.live fd c hfd
      have hwf := hlive.wf.withStore (L.store, c.store)
      obtain ⟨c', hrun, -⟩ := Conn.onWritable_event hlive L.store script
      obtain ⟨r, hr, hfails⟩ := Conn.onWritable_fails hwf script
      rw [hrun] at hr
      cases hr
      have hclosed : c'.closed = Conn.fails c.outBuf.readable.length script :=
        Bool.not_inj hfails
      have hremoves : (Call.writable fd script).Removes P L ↔ c'.closed = true := by
        simp [Call.Removes, hfd, hclosed]
      cases hc' : c'.closed with
      | true =>
          refine .removes ((L.put fd c').removeConnection fd) fd c (c'.withStore c'.store.2)
            (hremoves.mpr hc') rfl hfd ?_ (dropped_of_put L fd c')
          simp [handle, handleWritable, hfd, hrun, hc']
      | false =>
          refine .stays (by simp [hremoves, hc']) fun L' h => .inr ?_
          simp only [handle, handleWritable, hfd, hrun, hc', Bool.not_false, Bool.not_true,
            Bool.or_self, Bool.false_eq_true, if_false] at h
          split_ifs at h
          · cases h
            exact (SameKeys.put hfd c').updateWriteInterest fd _
          · cases h
            exact .put hfd c'

/-- **Every call** removes a connection or leaves the map its descriptors, and
which of the two is known before. -/
theorem Sound.outcome (P : Platform) (dispatch : Dispatch σ) {L : EventLoop σ} (hL : L.Sound)
    (call : Call) : Outcome P dispatch L call := by
  cases call with
  | accept script => exact .stays id fun L' _ => .inl ⟨script, rfl⟩
  | remove fd =>
      cases hfd : L.connections.lookup fd with
      | none =>
          refine .stays (by simp [Call.Removes, hfd]) fun L' h => .inr ?_
          cases h
          rw [removeConnection_of_none hfd]
          exact .refl L
      | some c =>
          exact .removes _ fd c c ⟨c, hfd⟩ rfl hfd rfl (dropped_removeConnection hfd)
  | readable fd script => exact handleReadable_outcome P dispatch hL fd script
  | writable fd script => exact handleWritable_outcome P dispatch hL fd script

/-! ## Counting -/

/-- `connections_.size()`. -/
def size (L : EventLoop σ) : Nat := L.connections.keys.length

theorem SameKeys.size {L L' : EventLoop σ} (h : SameKeys L L') : L'.size = L.size := by
  refine List.Perm.length_eq ?_
  rw [List.perm_ext_iff_of_nodup L'.connections.keys_nodup L.connections.keys_nodup]
  exact h.mem

theorem Dropped.size {L L' : EventLoop σ} {fd : Nat} {c c' : Conn Log} (h : Dropped fd c' L L')
    (hc : L.connections.lookup fd = some c) : L.size = L'.size + 1 := by
  have hout : fd ∉ L'.connections.keys := AList.lookup_eq_none.mp h.lookup
  have hin : fd ∈ L.connections := by
    rw [← AList.lookup_isSome, hc]
    rfl
  have hperm : L.connections.keys.Perm (fd :: L'.connections.keys) := by
    rw [List.perm_ext_iff_of_nodup L.connections.keys_nodup
      (List.nodup_cons.mpr ⟨hout, L'.connections.keys_nodup⟩)]
    intro fd'
    rw [List.mem_cons]
    by_cases heq : fd' = fd
    · subst heq
      exact ⟨fun _ => .inl rfl, fun _ => hin⟩
    · have hsame : fd' ∈ L'.connections ↔ fd' ∈ L.connections := by
        rw [← AList.lookup_isSome, ← AList.lookup_isSome, h.only.lookup fd' heq]
      exact ⟨fun hmem => .inr (hsame.mpr hmem), fun hmem => hsame.mp (hmem.resolve_left heq)⟩
  exact hperm.length_eq

theorem size_addConnection {L : EventLoop σ} {fd : Nat} (h : L.connections.lookup fd = none)
    (c : Conn Log) : (L.addConnection fd c).size = L.size + 1 := by
  simp only [size, addConnection, h, AList.keys_insert, List.length_cons]
  rw [List.erase_of_not_mem (AList.lookup_eq_none.mp h)]

end EventLoop

end RedisCache.Network
