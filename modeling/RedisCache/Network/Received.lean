import Mathlib
import RedisCache.Network.Closing

/-!
# What the connections have read

Neither the program nor the model of it remembers the bytes a connection has
read. `Heard` is a record kept next to the loop, `heard` the one of a run; it is
filled from the events alone, the loop only says which connections there are.

`Heeds` compares the two: a connection has executed the requests that the parser
finds in what it has read, all of them, in that order and nothing else, and
its `in_buf_` is what they leave over.

The parser runs after every read, over what is there by then. Where it runs can
matter: behind a bulk string with a negative length it takes the rest of the
buffer for the string. So the record keeps the pieces, and `scanPieces` is the
parser over pieces.
-/

namespace RedisCache.Network

open Loop Framing Protocol

variable {σ : Type}

/-! ## The record -/

/-- What has been read, piece by piece: by the connections in the map, under
their descriptors, and by those that are gone, in the order they went. -/
structure Heard where
  live : Nat → List Bytes := fun _ => []
  gone : List (List Bytes) := []

namespace EventLoop

/-- What a call reads for the connection at `fd`. The data in front of an end of
stream or an error are not among it: `on_readable` returns with them unparsed. -/
def Call.reads (fd : Nat) : Call → List Bytes
  | .readable fd' script =>
      if fd' = fd ∧ Conn.drained script = true then [Conn.received script] else []
  | _ => []

/-- The record after a call that has turned `L` into `L'`. A connection that was
not in the map before has read nothing. -/
def heardAfter (L L' : EventLoop σ) (call : Call) (H : Heard) : Heard where
  live fd := if (L.connections.lookup fd).isSome then H.live fd ++ call.reads fd else []
  gone := H.gone ++ (L'.gone.drop L.gone.length).map fun x => H.live x.1 ++ call.reads x.1

def heardFrom (P : Platform) (dispatch : Dispatch σ) :
    EventLoop σ → Heard → List Call → Heard
  | _, H, [] => H
  | L, H, call :: calls =>
      match L.handle P dispatch call with
      | some (.ok L') => heardFrom P dispatch L' (heardAfter L L' call H) calls
      | _ => H

/-- What has been read in a run from an empty loop. -/
def heard (P : Platform) (dispatch : Dispatch σ) (s₀ : σ) (polls : List (List Ready)) : Heard :=
  heardFrom P dispatch { store := s₀ } {} (callsOf polls)

/-! ## What was read is what was executed -/

/-- The connections have executed what the parser finds in what they have
read. -/
structure Heeds (P : Platform) (L : EventLoop σ) (H : Heard) : Prop where
  live : ∀ fd c, L.connections.lookup fd = some c →
    scanPieces (verdict P) (H.live fd) = (c.store.map Prod.fst, c.inBuf.readable)
  gone : List.Forall₂ (fun x pieces => x.2.store.map Prod.fst = (scanPieces (verdict P) pieces).1)
    L.gone H.gone

theorem Call.reads_of_ne {fd : Nat} {call : Call} (h : call.about ≠ some fd) :
    call.reads fd = [] := by
  cases call with
  | readable fd' script =>
      rw [reads, if_neg]
      rintro ⟨rfl, -⟩
      exact h rfl
  | accept script => rfl
  | remove fd' => rfl
  | writable fd' script => rfl

theorem heardAfter_live {L L' : EventLoop σ} {call : Call} {H : Heard} {fd : Nat} {c : Conn Log}
    (hc : L.connections.lookup fd = some c) :
    (heardAfter L L' call H).live fd = H.live fd ++ call.reads fd := by
  simp only [heardAfter, hc, Option.isSome_some, if_true]

theorem heardAfter_gone_eq {L L' : EventLoop σ} {call : Call} {H : Heard}
    (h : L'.gone = L.gone) : (heardAfter L L' call H).gone = H.gone := by
  simp only [heardAfter, h, List.drop_length, List.map_nil, List.append_nil]

/-- A descriptor that was free has a new connection at most. -/
theorem new_handleAccept {L : EventLoop σ} {fd : Nat} {c : Conn Log}
    (h : L.connections.lookup fd = none) (script : List Accept)
    (hc : (L.handleAccept script).connections.lookup fd = some c) : c = { store := [] } := by
  induction script generalizing L with
  | nil =>
      rw [handleAccept, h] at hc
      cases hc
  | cons a script ih =>
      cases a with
      | eintr => exact ih h hc
      | eagain =>
          rw [handleAccept, h] at hc
          cases hc
      | error =>
          rw [handleAccept, h] at hc
          cases hc
      | client fd' =>
          rw [handleAccept] at hc
          by_cases hfd : fd = fd'
          · subst hfd
            have hnew : (L.addConnection fd { store := [] }).connections.lookup fd =
                some { store := [] } := by
              simp only [addConnection, h, AList.lookup_insert]
            rw [lookup_handleAccept hnew] at hc
            exact (Option.some.inj hc).symm
          · exact ih (by rw [lookup_addConnection_ne L hfd, h]) hc

namespace Heeds

variable {P : Platform} {dispatch : Dispatch σ} {L L' : EventLoop σ} {call : Call} {H : Heard}
  {fd : Nat} {c c' : Conn Log}

theorem start (P : Platform) (s : σ) : Heeds P ({ store := s } : EventLoop σ) {} where
  live fd c h := by cases h
  gone := .nil

/-- A connection that the call is not about. -/
theorem other (h : Heeds P L H) (hc : L.connections.lookup fd = some c)
    (hne : call.about ≠ some fd) :
    scanPieces (verdict P) ((heardAfter L L' call H).live fd) =
      (c.store.map Prod.fst, c.inBuf.readable) := by
  rw [heardAfter_live hc, Call.reads_of_ne hne, List.append_nil, h.live fd c hc]

/-- A connection at another descriptor than that of the call. -/
theorem aside (h : Heeds P L H) {fd' : Nat} (hc : L.connections.lookup fd' = some c)
    (habout : call.about = some fd) (hne : fd' ≠ fd) :
    scanPieces (verdict P) ((heardAfter L L' call H).live fd') =
      (c.store.map Prod.fst, c.inBuf.readable) := by
  refine h.other hc fun hfd' => hne ?_
  exact Option.some.inj (hfd'.symm.trans habout)

theorem accept (h : Heeds P L H) (script : List Accept) :
    Heeds P (L.handleAccept script) (heardAfter L (L.handleAccept script) (.accept script) H) := by
  refine ⟨fun fd c hc => ?_, ?_⟩
  · cases hfd : L.connections.lookup fd with
    | some c₀ =>
        rw [lookup_handleAccept hfd] at hc
        cases hc
        exact h.other hfd (by simp [Call.about])
    | none =>
        obtain rfl := new_handleAccept hfd script hc
        simp only [heardAfter, hfd, Option.isSome_none, Bool.false_eq_true, if_false]
        rw [Buffer.readable_new]
        rfl
  · rw [heardAfter_gone_eq (gone_handleAccept L script), gone_handleAccept]
    exact h.gone

/-- The call is about `fd`, and the connection there stays. -/
theorem kept (h : Heeds P L H) (habout : call.about = some fd)
    (hc : L.connections.lookup fd = some c) (hkept : Kept fd c' L L')
    (hread : scanPieces (verdict P) (H.live fd ++ call.reads fd) =
      (c'.store.map Prod.fst, c'.inBuf.readable)) :
    Heeds P L' (heardAfter L L' call H) := by
  refine ⟨fun fd' d hd => ?_, ?_⟩
  · by_cases heq : fd' = fd
    · subst heq
      rw [hkept.lookup] at hd
      cases hd
      rw [heardAfter_live hc, hread]
    · rw [hkept.only.lookup fd' heq] at hd
      exact h.aside hd habout heq
  · rw [heardAfter_gone_eq hkept.gone, hkept.gone]
    exact h.gone

/-- The call is about `fd`, and the connection there goes. -/
theorem dropped (h : Heeds P L H) (habout : call.about = some fd) (hdrop : Dropped fd c' L L')
    (hread : c'.store.map Prod.fst =
      (scanPieces (verdict P) (H.live fd ++ call.reads fd)).1) :
    Heeds P L' (heardAfter L L' call H) := by
  refine ⟨fun fd' d hd => ?_, ?_⟩
  · by_cases heq : fd' = fd
    · subst heq
      rw [hdrop.lookup] at hd
      cases hd
    · rw [hdrop.only.lookup fd' heq] at hd
      exact h.aside hd habout heq
  · simp only [heardAfter, hdrop.gone, List.drop_left, List.map_singleton]
    exact List.rel_append h.gone (.cons hread .nil)

/-- What `on_readable` has executed is what the parser finds in one piece
more. -/
theorem read (h : Heeds P L H) {script : List Conn.Recv} {ok : Bool}
    (hc : L.connections.lookup fd = some c)
    (hevent : c.ReadEvent P dispatch L.store script ok c' L'.store) :
    c'.store.map Prod.fst =
        (scanPieces (verdict P) (H.live fd ++ (Call.readable fd script).reads fd)).1 ∧
      (ok = true → c'.inBuf.readable =
        (scanPieces (verdict P) (H.live fd ++ (Call.readable fd script).reads fd)).2) := by
  have hbefore := h.live fd c hc
  generalize L'.store = s' at hevent
  cases hevent with
  | peerGone _ stop sent log =>
      simp only [Call.reads, stop, and_false, Bool.false_eq_true, if_false, List.append_nil,
        hbefore, log, false_implies, and_self]
  | refused vs rest _ stop fits found sent log =>
      simp only [Call.reads, stop, and_self, if_true, scanPieces_concat, hbefore, found, log,
        List.map_append, map_fst_exchanges, Bool.false_eq_true, false_implies]
  | served vs rest _ stop fits found live unread log =>
      simp only [Call.reads, stop, and_self, if_true, scanPieces_concat, hbefore, found, log,
        List.map_append, map_fst_exchanges, unread, implies_true]

/-- A call that reads nothing. -/
theorem unread (h : Heeds P L H) (hc : L.connections.lookup fd = some c)
    (hreads : call.reads fd = []) (hlog : c'.store = c.store) (hin : c'.inBuf = c.inBuf) :
    scanPieces (verdict P) (H.live fd ++ call.reads fd) =
      (c'.store.map Prod.fst, c'.inBuf.readable) := by
  rw [hreads, List.append_nil, h.live fd c hc, hlog, hin]

/-- The step lemma. -/
theorem step (h : Heeds P L H) (hstep : Handled P dispatch L call L') :
    Heeds P L' (heardAfter L L' call H) := by
  cases hstep with
  | accept script => exact h.accept script
  | absent _ fd about missing =>
      refine ⟨fun fd' c hc => h.other hc fun hfd' => ?_, ?_⟩
      · rw [about] at hfd'
        cases hfd'
        rw [missing] at hc
        cases hc
      · rw [heardAfter_gone_eq rfl]
        exact h.gone
  | removed fd c _ live before store dropped =>
      exact h.dropped rfl dropped (by rw [h.unread before rfl rfl rfl])
  | readDropped fd script c c' _ live before event dropped =>
      exact h.dropped rfl dropped (h.read before event).1
  | readKept fd script c c' _ live before event kept =>
      obtain ⟨hlog, hin⟩ := h.read before event
      exact h.kept rfl before kept (Prod.ext hlog.symm (hin rfl).symm)
  | writeDropped fd script c c' _ before store log sent error dropped =>
      have hnothing : (Call.writable fd script).reads fd = [] := rfl
      refine h.dropped rfl dropped ?_
      rw [hnothing, List.append_nil, h.live fd c before, log]
  | writeKept fd script c c' _ before store live log unread kept =>
      exact h.kept rfl before kept (h.unread before rfl log unread)

/-- The run lemma. -/
theorem calls (h : Heeds P L H) (hL : L.Sound) {calls : List Call}
    (hrun : runAll (EventLoop.handle P dispatch) L calls = some (.ok L')) :
    Heeds P L' (heardFrom P dispatch L H calls) := by
  induction calls generalizing L H with
  | nil =>
      cases hrun
      exact h
  | cons call calls ih =>
      obtain ⟨L₁, hfirst, hrest⟩ := of_runAll_cons hrun
      simp only [heardFrom, hfirst]
      exact ih (h.step (hL.handled P dispatch hfirst)) (hL.handle P dispatch hfirst) hrest

end Heeds

/-- Every run from an empty loop. -/
theorem heeds_run (P : Platform) (dispatch : Dispatch σ) (s₀ : σ) {polls : List (List Ready)}
    {L : EventLoop σ} (hrun : EventLoop.run P dispatch { store := s₀ } polls = some (.ok L)) :
    Heeds P L (heard P dispatch s₀ polls) := by
  rw [run_eq P dispatch (.start s₀)] at hrun
  exact (Heeds.start P s₀).calls (.start s₀) hrun

end EventLoop

end RedisCache.Network
