import Mathlib
import RedisCache.Lib.Loop
import RedisCache.Network.Buffer
import RedisCache.Protocol.RespSerializer

/-!
# A client connection

`Connection.cpp`. The socket's side is a script of what `recv` (or `send`)
will say, call after call; a script that has run out says `EAGAIN`. A piece
of data longer than the room `recv` was given stays in the kernel and comes
back on the next call.

The dispatcher and the store behind it are a parameter: any function that
answers a request with reply bytes and a new store. Metrics and logging are
left out.

Nothing between `on_readable` and `main` catches an exception, so an `.error`
result is the end of the server. The outer `Option` is `none` if a loop does
not end within the turns its input allows for, and the specifications show
that it always does.
-/

namespace RedisCache.Network

open Loop Protocol

structure Conn (σ : Type) where
  inBuf : Buffer := .new
  outBuf : Buffer := .new
  closed : Bool := false
  store : σ
  /-- What `send` has taken so far: the peer's side of `out_buf_`. -/
  sent : Bytes := []

/-- What the dispatcher does with one request. -/
abbrev Dispatch (σ : Type) := RespValue → σ → Bytes × σ

namespace Conn

variable {σ : Type}

/-! ## Reading -/

/-- What `recv` finds: data (at least one byte), or a reason for none. -/
inductive Recv where
  | data (b : UInt8) (bs : Bytes)
  | eintr
  | eagain
  | eof
  | error

/-- Data that did not fit come first the next time. -/
def leftover : Bytes → List Recv → List Recv
  | [], rest => rest
  | b :: bs, rest => .data b bs :: rest

/-- One turn of the `recv` loop. It leaves with `true` when all data have been
read, with `false` when the peer is gone. -/
def readTurn (x : Conn σ × List Recv) :
    Turn (Conn σ × List Recv) (Except Exn (Bool × Conn σ)) :=
  match x.1.inBuf.ensureWritable 4096 with
  | .error e => .exit (.error e)
  | .ok buf =>
      let c := { x.1 with inBuf := buf }
      match x.2 with
      | .data b bs :: rest =>
          let n := buf.writableSize
          .again ({ c with inBuf := buf.write ((b :: bs).take n) },
            leftover ((b :: bs).drop n) rest)
      | .eof :: _ => .exit (.ok (false, { c with closed := true }))
      | [] => .exit (.ok (true, c))
      | .eagain :: _ => .exit (.ok (true, c))
      | .eintr :: rest => .again (c, rest)
      | .error :: _ => .exit (.ok (false, { c with closed := true }))

/-- Calls the script can answer at most: one for each byte and one more for
each item. -/
def scriptSize : List Recv → Nat
  | [] => 0
  | .data _ bs :: rest => bs.length + 2 + scriptSize rest
  | _ :: rest => 1 + scriptSize rest

def readAll (c : Conn σ) (script : List Recv) : Option (Except Exn (Bool × Conn σ)) :=
  run readTurn (scriptSize script + 1) (c, script)

/-! ## Processing -/

def writeResponse (c : Conn σ) (resp : Bytes) : Except Exn (Conn σ) :=
  match c.outBuf.append resp with
  | .error e => .error e
  | .ok buf => .ok { c with outBuf := buf }

def protocolError : Bytes := RespSerializer.error (ascii "protocol error")

/-- Behind the loop: the coalesced replies go out together. -/
def finish (c : Conn σ) (batch : Bytes) : Except Exn (Conn σ) :=
  if batch.isEmpty then .ok c else c.writeResponse batch

/-- One turn of the command loop, with the replies so far. A protocol error
drops them. -/
def processTurn (P : Platform) (dispatch : Dispatch σ) (x : Conn σ × Bytes) :
    Turn (Conn σ × Bytes) (Except Exn (Conn σ)) :=
  if x.1.inBuf.readable.isEmpty then .exit (x.1.finish x.2)
  else
    match parse P x.1.inBuf.readable with
    | .error e => .exit (.error e)
    | .ok res =>
        match res.status with
        | .incomplete => .exit (x.1.finish x.2)
        | .error => .exit ((x.1.writeResponse protocolError).map fun c => { c with closed := true })
        | .ok =>
            let c := { x.1 with inBuf := x.1.inBuf.consume res.consumed }
            .again ({ c with store := (dispatch res.value c.store).2 },
              x.2 ++ (dispatch res.value c.store).1)

def processCommands (P : Platform) (dispatch : Dispatch σ) (c : Conn σ) :
    Option (Except Exn (Conn σ)) :=
  run (processTurn P dispatch) (c.inBuf.readable.length + 1) (c, [])

/-- `Connection::on_readable`: `false` asks the event loop to close. -/
def onReadable (P : Platform) (dispatch : Dispatch σ) (c : Conn σ) (script : List Recv) :
    Option (Except Exn (Bool × Conn σ)) :=
  match c.readAll script with
  | none => none
  | some (.error e) => some (.error e)
  | some (.ok (false, c)) => some (.ok (false, c))
  | some (.ok (true, c)) =>
      match c.processCommands P dispatch with
      | none => none
      | some (.error e) => some (.error e)
      | some (.ok c) => some (.ok (!c.closed, c))

/-! ## Writing -/

/-- What `send` does: take `n + 1` bytes (or as many as there are), take none,
or fail. -/
inductive Send where
  | took (n : Nat)
  | zero
  | eintr
  | eagain
  | error

def writeTurn (x : Conn σ × List Send) : Turn (Conn σ × List Send) (Bool × Conn σ) :=
  if x.1.outBuf.empty then .exit (true, x.1)
  else
    match x.2 with
    | .took n :: rest =>
        let data := x.1.outBuf.readable.take (n + 1)
        .again ({ x.1 with
          outBuf := x.1.outBuf.consume data.length
          sent := x.1.sent ++ data }, rest)
    | [] => .exit (true, x.1)
    | .eagain :: _ => .exit (true, x.1)
    | .eintr :: rest => .again (x.1, rest)
    | .zero :: rest => .again (x.1, rest)
    | .error :: _ => .exit (false, { x.1 with closed := true })

/-- `Connection::on_writable`. -/
def onWritable (c : Conn σ) (script : List Send) : Option (Bool × Conn σ) :=
  run writeTurn (script.length + 1) (c, script)

end Conn

end RedisCache.Network
