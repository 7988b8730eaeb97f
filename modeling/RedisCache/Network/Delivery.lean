import Mathlib
import RedisCache.Network.Closing

/-!
# Replies are delivered

Between any two events, for every connection in the map: what its socket has
taken, followed by what `out_buf_` holds, are all the replies so far, in
order; and `EPOLLOUT` is registered exactly if `out_buf_` holds anything.

One half of the registration is in `Sound`: output is waited for. The other
half is `Armed`: what is waited for is output. The two handlers keep it for
different reasons. Reading only adds to `out_buf_`, so a registration that
was right stays right. Writing takes from it, and takes the registration
back when nothing is left.
-/

namespace RedisCache.Network

open Loop Framing Protocol Storage Sections

variable {σ : Type}

namespace Buffer

theorem Wf.empty_iff {b : Buffer} (h : b.Wf) : b.empty = true ↔ b.readable = [] := by
  refine ⟨readable_of_empty, fun hnil => ?_⟩
  have hlen := h.readable_length
  have hle := h.read_le
  rw [hnil, List.length_nil, readableSize] at hlen
  rw [empty, beq_iff_eq]
  omega

end Buffer

/-- Reading only adds to `out_buf_`. -/
theorem Conn.onReadable_outBuf (P : Platform) (dispatch : Dispatch σ) {c : Conn σ} (h : c.Wf)
    {script : List Recv} {b : Bool} {c' : Conn σ}
    (hrun : c.onReadable P dispatch script = some (.ok (b, c'))) :
    c.outBuf.readable <+: c'.outBuf.readable := by
  rcases onReadable_cases P dispatch h script with
    ⟨-, hr⟩ | ⟨-, -, buf, -, hr⟩ | ⟨-, -, buf, r, -, -, hproc, hr⟩
  · rw [hr] at hrun
    cases hrun
  · rw [hr] at hrun
    cases hrun
    exact List.prefix_rfl
  · rw [hr] at hrun
    cases r with
    | error e => cases hrun
    | ok c'' =>
        cases hrun
        unfold Processed at hproc
        split at hproc
        · obtain ⟨-, -, hout, -⟩ := hproc.of_ok
          exact ⟨_, hout.symm⟩
        · obtain ⟨-, -, hout, -⟩ := hproc.of_ok
          exact ⟨_, hout.symm⟩
        · simp at hproc

namespace EventLoop

/-! ## Registered for output only -/

/-- `EPOLLOUT` is registered for no connection with an empty `out_buf_`. -/
def Armed (L : EventLoop σ) : Prop :=
  ∀ fd c, L.connections.lookup fd = some c → L.writeInterest fd = true → c.outBuf.readable ≠ []

theorem Armed.start (s : σ) : Armed ({ store := s } : EventLoop σ) := by
  intro fd c hfd
  cases hfd

/-- A new connection is registered for input. -/
theorem Armed.addConnection {L : EventLoop σ} (hL : L.Armed) (fd : Nat) :
    (L.addConnection fd { store := [] }).Armed := by
  cases hfd : L.connections.lookup fd with
  | some c =>
      simp only [EventLoop.addConnection, hfd]
      exact hL
  | none =>
      simp only [EventLoop.addConnection, hfd]
      intro fd' c hc hinterest
      by_cases heq : fd' = fd
      · subst heq
        simp at hinterest
      · rw [AList.lookup_insert_ne heq] at hc
        simp only [Function.update_of_ne heq] at hinterest
        exact hL fd' c hc hinterest

theorem Armed.handleAccept {L : EventLoop σ} (hL : L.Armed) (script : List Accept) :
    (L.handleAccept script).Armed := by
  induction script generalizing L with
  | nil => exact hL
  | cons a script ih =>
      cases a with
      | client fd => exact ih (hL.addConnection fd)
      | eintr => exact ih hL
      | eagain => exact hL
      | error => exact hL

/-- `handle_readable` does not touch the registration when `out_buf_` is empty,
and then it was empty before. -/
theorem armed_handleReadable (P : Platform) (dispatch : Dispatch σ) {L L' : EventLoop σ}
    (hL : L.Sound) (harmed : L.Armed) {fd : Nat} {script : List Conn.Recv}
    (h : L.handleReadable P dispatch fd script = some (.ok L')) {c' : Conn Log}
    (hc' : L'.connections.lookup fd = some c') (hinterest : L'.writeInterest fd = true) :
    c'.outBuf.readable ≠ [] := by
  rw [handleReadable] at h
  cases hfd : L.connections.lookup fd with
  | none =>
      simp only [hfd, Option.some.injEq, Except.ok.injEq] at h
      subst h
      rw [hfd] at hc'
      cases hc'
  | some c =>
      have hlive := hL.live fd c hfd
      have hwf := hlive.wf.withStore (L.store, c.store)
      simp only [hfd] at h
      split at h
      · cases h
      · cases h
      · rename_i ok d hrun
        have hgrows := Conn.onReadable_outBuf P (noted dispatch) hwf hrun
        have hd := Conn.onReadable_wf P (noted dispatch) hwf hrun
        split_ifs at h with hremove hpending
        · cases h
          rw [lookup_removeConnection] at hc'
          cases hc'
        · cases h
          cases (lookup_put L fd d).symm.trans hc'
          rw [Bool.not_eq_true', ← Bool.not_eq_true, hd.outBuf.empty_iff] at hpending
          exact hpending
        · cases h
          cases (lookup_put L fd d).symm.trans hc'
          have hbefore := harmed fd c hfd hinterest
          intro hnone
          exact hbefore (List.prefix_nil.mp (hnone ▸ hgrows))

/-- `handle_writable` takes the registration back when `out_buf_` is empty. -/
theorem armed_handleWritable {L L' : EventLoop σ} (hL : L.Sound) {fd : Nat}
    {script : List Conn.Send} (h : L.handleWritable fd script = some (.ok L')) {c' : Conn Log}
    (hc' : L'.connections.lookup fd = some c') (hinterest : L'.writeInterest fd = true) :
    c'.outBuf.readable ≠ [] := by
  rw [handleWritable] at h
  cases hfd : L.connections.lookup fd with
  | none =>
      simp only [hfd, Option.some.injEq, Except.ok.injEq] at h
      subst h
      rw [hfd] at hc'
      cases hc'
  | some c =>
      have hlive := hL.live fd c hfd
      have hwf := hlive.wf.withStore (L.store, c.store)
      simp only [hfd] at h
      split at h
      · cases h
      · rename_i ok d hrun
        have hd := Conn.onWritable_wf hwf hrun
        split_ifs at h with hremove hdone
        · cases h
          rw [lookup_removeConnection] at hc'
          cases hc'
        · cases h
          simp [updateWriteInterest] at hinterest
        · cases h
          cases (lookup_put L fd d).symm.trans hc'
          rwa [hd.outBuf.empty_iff] at hdone

/-- The step lemma. -/
theorem Armed.handle (P : Platform) (dispatch : Dispatch σ) {L L' : EventLoop σ} (hL : L.Sound)
    (harmed : L.Armed) {call : Call} (h : L.handle P dispatch call = some (.ok L')) :
    L'.Armed := by
  rcases (hL.handled P dispatch h).connections with ⟨script, rfl⟩ | rfl | ⟨fd, habout, honly, -⟩
  · exact harmed.handleAccept script
  · exact harmed
  · intro fd' c' hc' hinterest
    by_cases heq : fd' = fd
    · subst heq
      cases call with
      | accept script => cases habout
      | remove fd =>
          cases habout
          cases h
          rw [lookup_removeConnection] at hc'
          cases hc'
      | readable fd script =>
          cases habout
          exact armed_handleReadable P dispatch hL harmed h hc' hinterest
      | writable fd script =>
          cases habout
          exact armed_handleWritable hL h hc' hinterest
    · rw [honly.lookup fd' heq] at hc'
      rw [honly.interest fd' heq] at hinterest
      exact harmed fd' c' hc' hinterest

/-! ## Runs -/

/-- Sound, and registered for output only. -/
theorem armed_runAll (P : Platform) (dispatch : Dispatch σ) {L L' : EventLoop σ} (hL : L.Sound)
    (harmed : L.Armed) {work : List Call} (h : runAll (handle P dispatch) L work = some (.ok L')) :
    L'.Sound ∧ L'.Armed :=
  runAll_inv (I := fun _ L => L.Sound ∧ L.Armed)
    (fun _ _ _ _ hs hstep => ⟨hs.1.handle P dispatch hstep, hs.2.handle P dispatch hs.1 hstep⟩)
    ⟨hL, harmed⟩ h

/-- **No reply is lost, duplicated, reordered or stranded.** After any polls
and any events of the next one, over any number of connections and with any
dispatcher: of every connection in the map, what its socket has taken
followed by `out_buf_` are the replies to the requests it has executed, and
`EPOLLOUT` is registered for it exactly if `out_buf_` is not empty. -/
theorem replies_delivered (P : Platform) (dispatch : Dispatch σ) (s : σ)
    (polls : List (List Ready)) (events : List Ready) (L L' : EventLoop σ)
    (hpolls : EventLoop.run P dispatch { store := s } polls = some (.ok L))
    (hevents : L.pollOnce P dispatch events = some (.ok L')) (fd : Nat) (c : Conn Log)
    (hc : L'.connections.lookup fd = some c) :
    c.sent ++ c.outBuf.readable = replies c.store ∧
      (L'.writeInterest fd = true ↔ c.outBuf.empty = false) := by
  rw [run_eq P dispatch (Sound.start s)] at hpolls
  obtain ⟨hL, harmed⟩ := armed_runAll P dispatch (Sound.start s) (Armed.start s) hpolls
  obtain ⟨hL', harmed'⟩ := armed_runAll P dispatch hL harmed hevents
  have hlive := hL'.live fd c hc
  refine ⟨hlive.replied, ?_⟩
  rw [← Bool.not_eq_true, hlive.wf.outBuf.empty_iff]
  exact ⟨harmed' fd c hc, hL'.waits fd c hc⟩

/-- A `PING` is answered, and its socket takes three bytes of the answer. -/
theorem replies_delivered_partly :
    ∃ (L' : EventLoop (World Index Shard)) (c : Conn Log),
      L'.connections.lookup 5 = some c ∧
      c.sent ++ c.outBuf.readable = replies c.store ∧
      (L'.writeInterest 5 = true ↔ c.outBuf.empty = false) := by
  obtain ⟨L', hevents⟩ := exists_ok (r := EventLoop.pollOnce .concrete (Conn.dispatcher .concrete 4)
    (EventLoop.addConnection { store := (⟨fun _ => 0, Store.empty⟩ : World Index Shard) } 5
      { store := [] })
    [.client 5 false (some [.data 42 (ascii "1\r\n$4\r\nPING\r\n")]) (some [.took 2])])
    (by decide +kernel)
  have hlookup : (((EventLoop.pollOnce .concrete (Conn.dispatcher .concrete 4)
    (EventLoop.addConnection { store := (⟨fun _ => 0, Store.empty⟩ : World Index Shard) } 5
      { store := [] })
    [.client 5 false (some [.data 42 (ascii "1\r\n$4\r\nPING\r\n")]) (some [.took 2])]).bind
      Except.toOption).bind fun L => L.connections.lookup 5).isSome = true := by decide +kernel
  rw [hevents] at hlookup
  obtain ⟨c, hc⟩ := Option.isSome_iff_exists.mp hlookup
  exact ⟨L', c, hc, replies_delivered .concrete (Conn.dispatcher .concrete 4)
    ⟨fun _ => 0, Store.empty⟩ [[.listener [.client 5]]]
    [.client 5 false (some [.data 42 (ascii "1\r\n$4\r\nPING\r\n")]) (some [.took 2])]
    _ L' rfl hevents 5 c hc⟩

end EventLoop

end RedisCache.Network
