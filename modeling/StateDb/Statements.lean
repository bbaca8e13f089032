/-
  StateDb/Statements.lean
  =======================
  **A connection statement by statement.**

  A step of `connectionStep` is a whole completion handler.  Here the handler is a list of
  statements that are left to execute, and each step executes one of them, so that there
  is a state between any two of them.  A completion comes only when no handler executes.

  The handlers of the server do what `Session` says.  Beyond that, whoever is called, by a
  signal or as the handler of an operation, may submit any operation and close the
  connection before it returns (`Statement.rest`), and so may the rest of the server
  between the handlers.

  The trace records what happens to the operations and to the buffers, in order.
-/
import StateDb.Lib.ActionLog
import StateDb.ConnectionRuns

namespace StateDb

open Lib

/-! ## Statements -/

inductive Statement where
  | write (op : WriteOp Part)
  | read (op : ReadOp)
  | startReadMessage
  | close
  /-- `next(ec, bt)` in `handle_data`, up to the first call that it makes. -/
  | callRead (failed : Bool) (handler : ReadHandler)
  /-- The end of `handle_data`. -/
  | performPendingRead
  /-- The end of `handle_write_operation`. -/
  | performPendingWrite
  /-- Whoever was called may do more. -/
  | rest

/-- What is recorded. -/
inductive Entry where
  | read (a : Action ReadOp)
  | write (a : Action (WriteOp Part))
  /-- The socket filled the buffer of the read that completes. -/
  | filled (data : List UInt8)
  | dispatched (msg : MessagePreamble)
  /-- The handler of a message has run on this body. -/
  | handled (msgp : MessagePreamble) (body : List UInt8)

structure Machine where
  session : Session
  /-- What is left of the handler that executes. -/
  todo : List Statement := []
  trace : List Entry := []

/-- What is recorded when the operation takes the slot, or finds it taken. -/
def Direction.claim {O : Type} (d : Direction O) (op : O) : List (Action O) :=
  if d.inProgress then [] else [.usesBuffer, .started d.operationDone.length op]

/-- A write that is dropped is not recorded. -/
def writeClaim (d : Direction (WriteOp Part)) (op : WriteOp Part) : List (Action (WriteOp Part)) :=
  if op.dropped then [] else d.claim op

namespace Machine

/-- A connection that was accepted, before its `start`. -/
def fresh (db : Db) (memory : Nat → Nat) (stream : List UInt8) : Machine where
  session := { db := db, conn := TcpConnection.fresh memory, unread := stream }

def onConn (m : Machine) (conn : TcpConnection Part) (entries : List Entry) : Machine :=
  { m with session := { m.session with conn := conn }, trace := m.trace ++ entries }

/-- Ends the session; the statement is not done. -/
def fault (m : Machine) (f : Fault) : Machine :=
  { m with session := { m.session with fault := some f } }

/-! ### Operations -/

def write (m : Machine) (op : WriteOp Part) : Machine :=
  let submitted := if op.dropped then [] else [Action.submitted op]
  m.onConn (m.session.conn.perform op)
    ((submitted ++ writeClaim m.session.conn.writes op).map .write)

def read (m : Machine) (op : ReadOp) : Machine :=
  m.onConn (m.session.conn.submitRead op)
    ((.submitted op :: m.session.conn.reads.claim op).map .read)

def close (m : Machine) : Machine := m.onConn m.session.conn.close []

def startReadMessage (m : Machine) : Machine :=
  if ¬ m.session.conn.isOpen then m else m.read ⟨.preamble, .handleMessage, 0, true⟩

def performPendingRead (m : Machine) : Machine :=
  m.onConn m.session.conn.performPendingRead
    ((m.session.conn.reads.pending.head?.elim [] m.session.conn.reads.claim).map .read)

def performPendingWrite (m : Machine) : Machine :=
  m.onConn m.session.conn.performPending
    ((m.session.conn.writes.pending.head?.elim [] (writeClaim m.session.conn.writes)).map .write)

/-! ### Handlers of reads -/

/-- `dynamic_storage_.deallocate()`. -/
def deallocate (m : Machine) : Machine :=
  m.onConn { m.session.conn with storage := m.session.conn.storage.deallocate } [.read .usesBuffer]

/-- `received_hello`; `todo` is what comes after it. -/
def receivedHello (cfg : ServerConfig) (m : Machine) (todo : List Statement) : Machine :=
  if m.session.storageFails cfg .hello then m.fault .assertion
  else if helloValid m.session.conn.storage.data then
    { m.deallocate with todo := .startReadMessage :: todo }
  else { m.close.deallocate with todo := todo }

/-- The statements of `asio_server::handle_message`. -/
def onNewMessage (cfg : ServerConfig) (s : Session) (msg : MessagePreamble) :
    Except DataError (List Statement) :=
  match dispatcher msg.id with
  | none => .ok []
  | some .ping =>
      .ok ((Submission.pong (cfg.pongMemory s.dispatched.length)).ops.map .write)
  | some .getAll => do
      let e ← getAllRequest cfg.width s.db
      .ok (((e.replies ++ e.broadcast).flatMap Submission.ops).map .write)
  | some .get | some .set =>
      .ok [.read ⟨.binary msg.size, .handleProcessedData msg, netTimeout, true⟩]

/-- `tcp_connection::handle_message`. -/
def handleMessage (cfg : ServerConfig) (m : Machine) (failed : Bool) (todo : List Statement) :
    Machine :=
  if failed then { m.close with todo := todo }
  else if m.session.storageFails cfg .preamble then m.fault .assertion
  else
    let msg := MessagePreamble.ofBytes m.session.conn.storage.data
    let m' := m.deallocate
    let s := { m'.session with dispatched := m'.session.dispatched ++ [msg] }
    match onNewMessage cfg s msg with
    | .ok statements =>
        { session := s
          todo := statements ++ .rest :: .startReadMessage :: todo
          trace := m'.trace ++ [.dispatched msg] }
    | .error e => m.fault (.memory e)

/-- `handle_proccessed_data`: the handler of the message works on the buffer, and then
sends. -/
def handleProcessedData (cfg : ServerConfig) (m : Machine) (msgp : MessagePreamble)
    (todo : List Statement) : Machine :=
  if m.session.storageFails cfg .binary then m.fault .assertion
  else
    let body := m.session.conn.storage.data
    match bodyRequest cfg.width m.session.db msgp body with
    | .ok e =>
        { session := { m.session with
            db := e.db
            handled := m.session.handled ++ [(msgp, body)] }
          todo := ((e.replies ++ e.broadcast).flatMap Submission.ops).map .write ++ .rest :: todo
          trace := m.trace ++ [.read .usesBuffer, .handled msgp body] }
    | .error e => m.fault (.memory e)

def callRead (cfg : ServerConfig) (m : Machine) (failed : Bool) (todo : List Statement) :
    ReadHandler → Machine
  | .receivedHello => m.receivedHello cfg todo
  | .handleMessage => m.handleMessage cfg failed todo
  | .handleProcessedData msgp => m.handleProcessedData cfg msgp todo

/-! ### Steps -/

/-- The next statement is executed. -/
def exec (cfg : ServerConfig) (m : Machine) : Option Machine :=
  match m.todo with
  | [] => none
  | .write op :: todo => some { m.write op with todo := todo }
  | .read op :: todo => some { m.read op with todo := todo }
  | .startReadMessage :: todo => some { m.startReadMessage with todo := todo }
  | .close :: todo => some { m.close with todo := todo }
  | .callRead failed handler :: todo => some (m.callRead cfg failed todo handler)
  | .performPendingRead :: todo => some { m.performPendingRead with todo := todo }
  | .performPendingWrite :: todo => some { m.performPendingWrite with todo := todo }
  | .rest :: todo => some { m with todo := todo }

/-- The server may use the connection: no handler executes, or it is called by one. -/
def mayCall (m : Machine) : Bool :=
  match m.todo with
  | [] | .rest :: _ => true
  | _ => false

/-- `handle_data`, up to the call of the handler. -/
def handleData (m : Machine) (failed : Bool) (number : Nat) (op : ReadOp) : Machine :=
  let conn := m.session.conn
  if op.required && failed then
    { m.onConn { conn with reads := conn.reads.setDone number } [] with todo := [.close] }
  else
    { m.onConn { conn with reads := (conn.reads.setDone number).release } [] with
      todo := [.callRead failed op.handler, .performPendingRead] }

/-- The read that the socket was given completes with success. -/
def readCompletes (m : Machine) (count : Nat) : Option Machine :=
  match m.session.conn.reads.outstanding with
  | [] => none
  | (number, op) :: rest =>
      if count ≤ op.kind.size ∧ count ≤ m.session.unread.length ∧
        (op.kind.size = 0 ∨ 0 < count) then
        let conn := { m.session.conn with
          reads := { m.session.conn.reads with outstanding := rest }
          storage := m.session.conn.storage.fill (m.session.unread.take count) }
        let m := m.onConn conn [.read (.completed number op), .filled conn.storage.data]
        let m := { m with session := { m.session with unread := m.session.unread.drop count } }
        some (m.handleData false number op)
      else none

def readFails (m : Machine) : Option Machine :=
  match m.session.conn.reads.outstanding with
  | [] => none
  | (number, op) :: rest =>
      let conn := { m.session.conn with
        reads := { m.session.conn.reads with outstanding := rest } }
      some ((m.onConn conn [.read (.completed number op)]).handleData true number op)

/-- `handle_write_operation`, up to the call of the handler. -/
def handleWriteOperation (m : Machine) (failed : Bool) (number : Nat) (op : WriteOp Part) :
    Machine :=
  let conn := { m.session.conn with writes := m.session.conn.writes.setDone number }
  if op.required && failed then { m.onConn conn [] with todo := [.close] }
  else
    let conn := { conn with
      writes := conn.writes.release
      log := conn.log ++ [WriteEntry.called number op.data !failed] }
    { m.onConn conn [] with todo := op.next.map .write ++ [.rest, .performPendingWrite] }

/-- The write that the socket was given completes, with so many bytes on the wire. -/
def writeCompletes (m : Machine) (failed : Bool) (count : Nat) : Option Machine :=
  match m.session.conn.writes.outstanding with
  | [] => none
  | (number, op) :: rest =>
      if count ≤ (Wire.bytes op.data).length ∧ (failed ∨ 0 < count) then
        let conn := { m.session.conn with
          writes := { m.session.conn.writes with outstanding := rest }
          log := m.session.conn.log ++ [WriteEntry.sent number op.data count] }
        some ((m.onConn conn [.write (.completed number op)]).handleWriteOperation failed number op)
      else none

end Machine

inductive MachineEvent where
  /-- The next statement is executed. -/
  | proceed
  | submitsRead (op : ReadOp)
  | submitsWrite (op : WriteOp Part)
  | closes
  /-- The rest of the server changes the database. -/
  | database (db : Db)
  | readCompletes (count : Nat)
  | readFails
  | writeCompletes (count : Nat)
  | writeFails (count : Nat)
  | readWaitEnds (i : Nat)
  | writeWaitEnds (i : Nat)

def machineStep (cfg : ServerConfig) (m : Machine) (e : MachineEvent) : Option Machine :=
  if m.session.fault.isSome then none
  else
    match e with
    | .proceed => m.exec cfg
    | .submitsRead op => if m.mayCall then some (m.read op) else none
    | .submitsWrite op => if m.mayCall then some (m.write op) else none
    | .closes => if m.mayCall then some m.close else none
    | .database db =>
        if m.mayCall then some { m with session := { m.session with db := db } } else none
    | .readCompletes count => if m.todo.isEmpty then m.readCompletes count else none
    | .readFails => if m.todo.isEmpty then m.readFails else none
    | .writeCompletes count => if m.todo.isEmpty then m.writeCompletes false count else none
    | .writeFails count => if m.todo.isEmpty then m.writeCompletes true count else none
    | .readWaitEnds i =>
        if m.todo.isEmpty then (m.session.conn.readWaitEnds i).map fun conn => m.onConn conn []
        else none
    | .writeWaitEnds i =>
        if m.todo.isEmpty then (m.session.conn.writeWaitEnds i).map fun conn => m.onConn conn []
        else none

namespace Machine

/-- What a step does, by its statement or its event. -/
inductive Steps (cfg : ServerConfig) (m : Machine) : MachineEvent → Machine → Prop
  | write (op : WriteOp Part) (todo : List Statement) : m.todo = .write op :: todo →
      Steps cfg m .proceed { m.write op with todo := todo }
  | read (op : ReadOp) (todo : List Statement) : m.todo = .read op :: todo →
      Steps cfg m .proceed { m.read op with todo := todo }
  | startReadMessage (todo : List Statement) : m.todo = .startReadMessage :: todo →
      Steps cfg m .proceed { m.startReadMessage with todo := todo }
  | close (todo : List Statement) : m.todo = .close :: todo →
      Steps cfg m .proceed { m.close with todo := todo }
  | callRead (failed : Bool) (handler : ReadHandler) (todo : List Statement) :
      m.todo = .callRead failed handler :: todo →
      Steps cfg m .proceed (m.callRead cfg failed todo handler)
  | performPendingRead (todo : List Statement) : m.todo = .performPendingRead :: todo →
      Steps cfg m .proceed { m.performPendingRead with todo := todo }
  | performPendingWrite (todo : List Statement) : m.todo = .performPendingWrite :: todo →
      Steps cfg m .proceed { m.performPendingWrite with todo := todo }
  | rest (todo : List Statement) : m.todo = .rest :: todo →
      Steps cfg m .proceed { m with todo := todo }
  | submitsRead (op : ReadOp) : m.mayCall = true → Steps cfg m (.submitsRead op) (m.read op)
  | submitsWrite (op : WriteOp Part) : m.mayCall = true →
      Steps cfg m (.submitsWrite op) (m.write op)
  | closes : m.mayCall = true → Steps cfg m .closes m.close
  | database (db : Db) : m.mayCall = true →
      Steps cfg m (.database db) { m with session := { m.session with db := db } }
  | readCompletes (count : Nat) (m' : Machine) : m.todo = [] → m.readCompletes count = some m' →
      Steps cfg m (.readCompletes count) m'
  | readFails (m' : Machine) : m.todo = [] → m.readFails = some m' → Steps cfg m .readFails m'
  | writeCompletes (count : Nat) (m' : Machine) : m.todo = [] →
      m.writeCompletes false count = some m' → Steps cfg m (.writeCompletes count) m'
  | writeFails (count : Nat) (m' : Machine) : m.todo = [] →
      m.writeCompletes true count = some m' → Steps cfg m (.writeFails count) m'
  | readWaitEnds (i : Nat) (conn : TcpConnection Part) : m.todo = [] →
      m.session.conn.readWaitEnds i = some conn → Steps cfg m (.readWaitEnds i) (m.onConn conn [])
  | writeWaitEnds (i : Nat) (conn : TcpConnection Part) : m.todo = [] →
      m.session.conn.writeWaitEnds i = some conn → Steps cfg m (.writeWaitEnds i) (m.onConn conn [])

theorem steps_of_exec {cfg : ServerConfig} {m m' : Machine} (h : m.exec cfg = some m') :
    Steps cfg m .proceed m' := by
  unfold exec at h
  split at h
  · cases h
  · exact Option.some.inj h ▸ .write _ _ ‹_›
  · exact Option.some.inj h ▸ .read _ _ ‹_›
  · exact Option.some.inj h ▸ .startReadMessage _ ‹_›
  · exact Option.some.inj h ▸ .close _ ‹_›
  · exact Option.some.inj h ▸ .callRead _ _ _ ‹_›
  · exact Option.some.inj h ▸ .performPendingRead _ ‹_›
  · exact Option.some.inj h ▸ .performPendingWrite _ ‹_›
  · exact Option.some.inj h ▸ .rest _ ‹_›

theorem steps_of_step {cfg : ServerConfig} {m m' : Machine} {e : MachineEvent}
    (h : machineStep cfg m e = some m') : Steps cfg m e m' := by
  unfold machineStep at h
  split at h
  · cases h
  · cases e with
    | proceed => exact steps_of_exec h
    | submitsRead op =>
      obtain ⟨hmay, h⟩ := Option.ite_none_right_eq_some.mp h
      exact Option.some.inj h ▸ .submitsRead op hmay
    | submitsWrite op =>
      obtain ⟨hmay, h⟩ := Option.ite_none_right_eq_some.mp h
      exact Option.some.inj h ▸ .submitsWrite op hmay
    | closes =>
      obtain ⟨hmay, h⟩ := Option.ite_none_right_eq_some.mp h
      exact Option.some.inj h ▸ .closes hmay
    | database db =>
      obtain ⟨hmay, h⟩ := Option.ite_none_right_eq_some.mp h
      exact Option.some.inj h ▸ .database db hmay
    | readCompletes count =>
      obtain ⟨hidle, h⟩ := Option.ite_none_right_eq_some.mp h
      exact .readCompletes count m' (List.isEmpty_iff.mp hidle) h
    | readFails =>
      obtain ⟨hidle, h⟩ := Option.ite_none_right_eq_some.mp h
      exact .readFails m' (List.isEmpty_iff.mp hidle) h
    | writeCompletes count =>
      obtain ⟨hidle, h⟩ := Option.ite_none_right_eq_some.mp h
      exact .writeCompletes count m' (List.isEmpty_iff.mp hidle) h
    | writeFails count =>
      obtain ⟨hidle, h⟩ := Option.ite_none_right_eq_some.mp h
      exact .writeFails count m' (List.isEmpty_iff.mp hidle) h
    | readWaitEnds i =>
      obtain ⟨hidle, h⟩ := Option.ite_none_right_eq_some.mp h
      obtain ⟨conn, hconn, rfl⟩ := Option.map_eq_some_iff.mp h
      exact .readWaitEnds i conn (List.isEmpty_iff.mp hidle) hconn
    | writeWaitEnds i =>
      obtain ⟨hidle, h⟩ := Option.ite_none_right_eq_some.mp h
      obtain ⟨conn, hconn, rfl⟩ := Option.map_eq_some_iff.mp h
      exact .writeWaitEnds i conn (List.isEmpty_iff.mp hidle) hconn

end Machine

/-- A client is accepted, and the connection started; it is going to send `stream`. -/
def startMachine (db : Db) (memory : Nat → Nat) (stream : List UInt8) : Machine :=
  (Machine.fresh db memory stream).read ⟨.hello, .receivedHello, netTimeout, true⟩

theorem startMachine_session (db : Db) (memory : Nat → Nat) (stream : List UInt8) :
    (startMachine db memory stream).session = startSession db memory stream := rfl

end StateDb
