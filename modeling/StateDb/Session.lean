/-
  StateDb/Session.lean
  ====================
  **The server as one connection sees it** (`asio_server.cpp`, `connection.cpp`).

  The reads of a connection run the server: `received_hello`, then `handle_message` for
  a preamble, which dispatches it, and `handle_proccessed_data` for a body.  The rest of
  the server reaches a connection only by the SETs of other clients, which change the
  database and send an update.

  A handler that leaves its memory, or whose assertion fails in a debug build, ends the
  session with a `Fault`: nothing is said of what comes after it.
-/
import StateDb.Responses

namespace StateDb

open Lib

/-! ## Requests -/

structure ServerConfig where
  /-- The width of `size_t`. -/
  width : Nat
  /-- Assertions are compiled in. -/
  asserts : Bool
  /-- What the memory of the `size` of a pong held, after so many messages. -/
  pongMemory : Nat → Nat

inductive RequestHandler where
  | ping
  | get
  | set
  | getAll
deriving DecidableEq, Repr

/-- `init_dispatcher`, and the lookup of `dispatcher::call`. -/
def dispatcher (id : Nat) : Option RequestHandler :=
  [(requestPing, .ping), (requestGet, .get), (requestSet, .set), (requestGetAll, .getAll)].lookup id

/-- What a handler does: the new database, what it sends on the connection of the
request, and what it sends on every connection. -/
structure Effect where
  db : Db
  replies : List Submission := []
  broadcast : List Submission := []

/-- `get_handler`. -/
def getRequest (w : Nat) (db : Db) (body : List UInt8) : Except DataError Effect := do
  let key ← asCstr body
  let u ← answer w db key
  .ok { db := db, replies := [u] }

/-- The answer to a GET is the response of `get_handler`. -/
theorem getRequest_response (w : Nat) (db : Db) (body : List UInt8) :
    (getRequest w db body).map (fun e => e.replies.map Submission.response) =
      (getHandler w db body).map fun r => [r] := by
  unfold getRequest getHandler
  cases asCstr body with
  | error e => rfl
  | ok key =>
    simp only [bind_ok, ← answer_response]
    cases answer w db key <;> rfl

/-- A text of the source as a C string. -/
def Key.ofText (text : String) : Key := Key.ofBuffer (text.toList.map fun c => UInt8.ofNat c.toNat)

/-- `set_handler`. -/
def setRequest (w : Nat) (db : Db) (body : List UInt8) : Except DataError Effect :=
  match setHandler w db body with
  | .accepted db' key => do
      let u ← answer w db' key
      .ok { db := db', broadcast := [u] }
  | .refused text => .ok { db := db, replies := [.error (Key.ofText text)] }
  | .fault e => .error e

/-- `get_all_handler`: the objects are looked up again by their keys. -/
def getAllRequest (w : Nat) (db : Db) : Except DataError Effect := do
  let us ← db.tree.mapM fun p => answer w db p.2.key
  .ok { db := db, replies := us }

/-- The handlers that `process_message` wraps. -/
def bodyRequest (w : Nat) (db : Db) (msgp : MessagePreamble) (body : List UInt8) :
    Except DataError Effect :=
  match dispatcher msgp.id with
  | some .get => getRequest w db body
  | some .set => setRequest w db body
  | _ => .ok { db := db }

/-! ## Sessions -/

inductive Fault where
  | memory (e : DataError)
  | assertion
deriving DecidableEq, Repr

structure Session where
  db : Db
  conn : TcpConnection Part
  /-- What the client sent and the server did not read yet. -/
  unread : List UInt8
  /-- The preambles that were dispatched. -/
  dispatched : List MessagePreamble := []
  /-- The bodies that were given to a handler, with their preambles. -/
  handled : List (MessagePreamble × List UInt8) := []
  fault : Option Fault := none

namespace Session

def apply (s : Session) : Except DataError Effect → Session
  | .ok e => { s with
      db := e.db
      conn := (e.replies ++ e.broadcast).foldl TcpConnection.submit s.conn }
  | .error e => { s with fault := some (.memory e) }

/-- `asio_server::handle_message`. -/
def dispatch (cfg : ServerConfig) (s : Session) (msg : MessagePreamble) : Session :=
  let s := { s with dispatched := s.dispatched ++ [msg] }
  match dispatcher msg.id with
  | none => s
  | some .ping =>
      { s with conn := s.conn.submit (.pong (cfg.pongMemory s.dispatched.length)) }
  | some .getAll => s.apply (getAllRequest cfg.width s.db)
  | some .get | some .set =>
      -- `process_message`
      { s with conn := s.conn.asyncReadRaw msg.size (.handleProcessedData msg) netTimeout true }

/-- `start_read_message`, unless there was a fault. -/
def startReadMessage (s : Session) : Session :=
  if s.fault.isSome then s else { s with conn := s.conn.startReadMessage }

/-- The assertions of `get<T>` and `get_binary`. -/
def storageFails (cfg : ServerConfig) (s : Session) (typeName : StorageType) : Bool :=
  cfg.asserts && !s.conn.storage.assertType typeName

def receivedHello (cfg : ServerConfig) (s : Session) : Session :=
  if s.storageFails cfg .hello then { s with fault := some .assertion }
  else
    let s' := { s with conn := { s.conn with storage := s.conn.storage.deallocate } }
    if helloValid s.conn.storage.data then s'.startReadMessage
    else { s' with conn := s'.conn.close }

/-- `tcp_connection::handle_message`. -/
def handleMessage (cfg : ServerConfig) (s : Session) (failed : Bool) : Session :=
  if failed then { s with conn := s.conn.close }
  else if s.storageFails cfg .preamble then { s with fault := some .assertion }
  else
    let msg := MessagePreamble.ofBytes s.conn.storage.data
    let s := { s with conn := { s.conn with storage := s.conn.storage.deallocate } }
    (s.dispatch cfg msg).startReadMessage

/-- `handle_proccessed_data`. -/
def handleProcessedData (cfg : ServerConfig) (s : Session) (msgp : MessagePreamble) : Session :=
  if s.storageFails cfg .binary then { s with fault := some .assertion }
  else
    let body := s.conn.storage.data
    { s with handled := s.handled ++ [(msgp, body)] }.apply (bodyRequest cfg.width s.db msgp body)

def callHandler (cfg : ServerConfig) (s : Session) (failed : Bool) : ReadHandler → Session
  | .receivedHello => s.receivedHello cfg
  | .handleMessage => s.handleMessage cfg failed
  | .handleProcessedData msgp => s.handleProcessedData cfg msgp

/-- The end of `handle_data`. -/
def performPendingRead (s : Session) : Session :=
  if s.fault.isSome then s else { s with conn := s.conn.performPendingRead }

def handleData (cfg : ServerConfig) (s : Session) (failed : Bool) (number : Nat) (op : ReadOp) :
    Session :=
  let s := { s with conn := { s.conn with reads := s.conn.reads.setDone number } }
  if op.required && failed then { s with conn := s.conn.close }
  else
    let s := { s with conn := { s.conn with reads := s.conn.reads.release } }
    (s.callHandler cfg failed op.handler).performPendingRead

/-- The read that the socket was given succeeds, with the next `count` bytes of the
client. -/
def readDone (cfg : ServerConfig) (s : Session) (count : Nat) : Option Session :=
  match s.conn.reads.outstanding with
  | [] => none
  | (number, op) :: rest =>
      if count ≤ op.kind.size ∧ count ≤ s.unread.length ∧ (op.kind.size = 0 ∨ 0 < count) then
        let conn := { s.conn with
          reads := { s.conn.reads with outstanding := rest }
          storage := s.conn.storage.fill (s.unread.take count) }
        some ({ s with conn := conn, unread := s.unread.drop count }.handleData cfg false number op)
      else none

end Session

inductive SessionEvent where
  /-- The read of the socket succeeds, with so many bytes. -/
  | read (count : Nat)
  /-- The write of the socket succeeds, with so many bytes. -/
  | written (count : Nat)
  /-- The SET of another client is executed. -/
  | elsewhere (r : SetRequest)

def sessionStep (cfg : ServerConfig) (s : Session) (e : SessionEvent) : Option Session :=
  if s.fault.isSome then none
  else
    match e with
    | .read count => s.readDone cfg count
    | .written count => (s.conn.writeDone false count).map fun conn => { s with conn := conn }
    | .elsewhere r =>
        match setHandler cfg.width s.db r.body with
        | .accepted db key =>
            match answer cfg.width db key with
            | .ok u => some { s with db := db, conn := s.conn.submit u }
            | .error _ => none
        | _ => none

/-- A client is accepted; it is going to send `stream`. -/
def startSession (db : Db) (memory : Nat → Nat) (stream : List UInt8) : Session where
  db := db
  conn := (TcpConnection.fresh memory).start
  unread := stream

end StateDb
