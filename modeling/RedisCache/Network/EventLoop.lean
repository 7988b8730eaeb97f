import Mathlib
import RedisCache.Network.Pipelining

/-!
# The event loop

`EventLoop.cpp`: the connections by descriptor, and what is done with each
event that `epoll_wait` (or `kevent`) reports. The connections share one
store, so the loop holds the store and lends it to a connection for the
time of one handler.

Two things are kept that the program does not keep, and nothing computed by
the program looks at them: each connection's `Log` of the requests it
executed with their replies, and in `gone` the connections destroyed so far,
with what their sockets had taken by then.
-/

namespace RedisCache.Network

open Loop Protocol

/-- Requests and the replies they were given. -/
abbrev Log := List (RespValue × Bytes)

/-- The reply bytes of a log. -/
def replies (log : Log) : Bytes := log.flatMap Prod.snd

/-- The dispatcher over a store, writing the log of the connection it serves. -/
def noted {σ : Type} (dispatch : Dispatch σ) : Dispatch (σ × Log) :=
  fun req s => ((dispatch req s.1).1, ((dispatch req s.1).2, s.2 ++ [(req, (dispatch req s.1).1)]))

/-- The same connection over another store. -/
def Conn.withStore {α β : Type} (c : Conn α) (s : β) : Conn β :=
  { inBuf := c.inBuf, outBuf := c.outBuf, closed := c.closed, store := s, sent := c.sent }

theorem Conn.Wf.withStore {α β : Type} {c : Conn α} (h : c.Wf) (s : β) : (c.withStore s).Wf :=
  ⟨h.inBuf, h.outBuf⟩

structure EventLoop (σ : Type) where
  connections : AList (fun _ : Nat => Conn Log) := ∅
  /-- The descriptors registered with `EPOLLOUT`. -/
  writeInterest : Nat → Bool := fun _ => false
  store : σ
  /-- The connections destroyed so far. -/
  gone : List (Nat × Conn Log) := []

/-- What `accept` returns. -/
inductive Accept where
  | client (fd : Nat)
  | eintr
  | eagain
  | error

/-- One event of a poll: on the listener, or on a client's descriptor with the
flags `EPOLLERR | EPOLLHUP`, `EPOLLIN`, `EPOLLOUT` and what the calls on the
socket will find. -/
inductive Ready where
  | listener (script : List Accept)
  | client (fd : Nat) (hup : Bool) (input : Option (List Conn.Recv))
      (output : Option (List Conn.Send))

namespace EventLoop

variable {σ : Type}

/-- `unordered_map::emplace` leaves an entry that is already there. -/
def addConnection (L : EventLoop σ) (fd : Nat) (c : Conn Log) : EventLoop σ :=
  match L.connections.lookup fd with
  | some _ => L
  | none =>
      { L with
        connections := L.connections.insert fd c
        writeInterest := Function.update L.writeInterest fd false }

/-- The destructor closes the socket: what `out_buf_` still holds is lost. -/
def removeConnection (L : EventLoop σ) (fd : Nat) : EventLoop σ :=
  match L.connections.lookup fd with
  | none => L
  | some c =>
      { L with
        connections := L.connections.erase fd
        writeInterest := Function.update L.writeInterest fd false
        gone := L.gone ++ [(fd, c)] }

def updateWriteInterest (L : EventLoop σ) (fd : Nat) (wantWrite : Bool) : EventLoop σ :=
  { L with writeInterest := Function.update L.writeInterest fd wantWrite }

/-- The `accept` loop. The callback makes a connection for every descriptor. -/
def handleAccept : EventLoop σ → List Accept → EventLoop σ
  | L, .client fd :: rest => handleAccept (L.addConnection fd { store := [] }) rest
  | L, .eintr :: rest => handleAccept L rest
  | L, [] | L, .eagain :: _ | L, .error :: _ => L

/-- The handler gives connection and store back. -/
def put (L : EventLoop σ) (fd : Nat) (c : Conn (σ × Log)) : EventLoop σ :=
  { L with
    connections := L.connections.insert fd (c.withStore c.store.2)
    store := c.store.1 }

def handleReadable (P : Platform) (dispatch : Dispatch σ) (L : EventLoop σ) (fd : Nat)
    (script : List Conn.Recv) : Option (Except Exn (EventLoop σ)) :=
  match L.connections.lookup fd with
  | none => some (.ok L)
  | some c =>
      match (c.withStore (L.store, c.store)).onReadable P (noted dispatch) script with
      | none => none
      | some (.error e) => some (.error e)
      | some (.ok (ok, c)) =>
          let L := L.put fd c
          if !ok || c.closed then some (.ok (L.removeConnection fd))
          else if !c.outBuf.empty then some (.ok (L.updateWriteInterest fd true))
          else some (.ok L)

def handleWritable (L : EventLoop σ) (fd : Nat) (script : List Conn.Send) :
    Option (Except Exn (EventLoop σ)) :=
  match L.connections.lookup fd with
  | none => some (.ok L)
  | some c =>
      match (c.withStore (L.store, c.store)).onWritable script with
      | none => none
      | some (ok, c) =>
          let L := L.put fd c
          if !ok || c.closed then some (.ok (L.removeConnection fd))
          else if c.outBuf.empty then some (.ok (L.updateWriteInterest fd false))
          else some (.ok L)

/-- The handlers an event is given to, in order. -/
inductive Call where
  | accept (script : List Accept)
  | remove (fd : Nat)
  | readable (fd : Nat) (script : List Conn.Recv)
  | writable (fd : Nat) (script : List Conn.Send)

/-- The body of the loop in `poll_once`. -/
def calls : Ready → List Call
  | .listener script => [.accept script]
  | .client fd true _ _ => [.remove fd]
  | .client fd false input output =>
      (input.map (Call.readable fd)).toList ++ (output.map (Call.writable fd)).toList

def handle (P : Platform) (dispatch : Dispatch σ) (L : EventLoop σ) :
    Call → Option (Except Exn (EventLoop σ))
  | .accept script => some (.ok (L.handleAccept script))
  | .remove fd => some (.ok (L.removeConnection fd))
  | .readable fd script => L.handleReadable P dispatch fd script
  | .writable fd script => L.handleWritable fd script

def pollOnce (P : Platform) (dispatch : Dispatch σ) (L : EventLoop σ) (events : List Ready) :
    Option (Except Exn (EventLoop σ)) :=
  runAll (handle P dispatch) L (events.flatMap calls)

def reapClosed (L : EventLoop σ) : EventLoop σ :=
  let toRemove := (L.connections.entries.filter fun e => e.2.closed).map Sigma.fst
  toRemove.foldl removeConnection L

/-- One turn of `EventLoop::run`. -/
def turn (P : Platform) (dispatch : Dispatch σ) (L : EventLoop σ) (events : List Ready) :
    Option (Except Exn (EventLoop σ)) :=
  (L.pollOnce P dispatch events).map fun r => r.map reapClosed

/-- `EventLoop::run`, for as many turns as there are polls. -/
def run (P : Platform) (dispatch : Dispatch σ) (L : EventLoop σ) (polls : List (List Ready)) :
    Option (Except Exn (EventLoop σ)) :=
  runAll (turn P dispatch) L polls

/-! ## What the small operations do to the map -/

theorem lookup_addConnection_ne (L : EventLoop σ) {fd fd' : Nat} (h : fd ≠ fd') (c : Conn Log) :
    (L.addConnection fd' c).connections.lookup fd = L.connections.lookup fd := by
  unfold addConnection
  split
  · rfl
  · exact AList.lookup_insert_ne h

theorem lookup_removeConnection (L : EventLoop σ) (fd : Nat) :
    (L.removeConnection fd).connections.lookup fd = none := by
  unfold removeConnection
  split
  · assumption
  · exact AList.lookup_erase _ _

theorem lookup_removeConnection_ne (L : EventLoop σ) {fd fd' : Nat} (h : fd ≠ fd') :
    (L.removeConnection fd').connections.lookup fd = L.connections.lookup fd := by
  unfold removeConnection
  split
  · rfl
  · exact AList.lookup_erase_ne h

theorem gone_removeConnection (L : EventLoop σ) {fd : Nat} {c : Conn Log}
    (h : L.connections.lookup fd = some c) :
    (L.removeConnection fd).gone = L.gone ++ [(fd, c)] := by
  simp only [removeConnection, h]

theorem lookup_put (L : EventLoop σ) (fd : Nat) (c : Conn (σ × Log)) :
    (L.put fd c).connections.lookup fd = some (c.withStore c.store.2) :=
  AList.lookup_insert _

theorem lookup_put_ne (L : EventLoop σ) {fd fd' : Nat} (h : fd ≠ fd') (c : Conn (σ × Log)) :
    (L.put fd' c).connections.lookup fd = L.connections.lookup fd :=
  AList.lookup_insert_ne h

/-- Nothing to reap. -/
theorem reapClosed_eq {L : EventLoop σ}
    (h : ∀ fd c, L.connections.lookup fd = some c → c.closed = false) : L.reapClosed = L := by
  have hnone : (L.connections.entries.filter fun e => e.2.closed) = [] := by
    rw [List.filter_eq_nil_iff]
    rintro ⟨fd, c⟩ hmem
    have hopen := h fd c (AList.mem_lookup_iff.mpr hmem)
    simp [hopen]
  simp only [reapClosed, hnone, List.map_nil, List.foldl_nil]

end EventLoop

end RedisCache.Network
