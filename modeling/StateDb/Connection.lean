/-
  StateDb/Connection.lean
  =======================
  **The operations of a connection** (`connection.h`, `connection.cpp`,
  `dynamic_storage.h`).

  A connection gives the socket one read and one write at a time; the operations that
  come meanwhile wait in a queue.  The two directions have the same shape, a
  `Direction`: the flag, the queue, what the socket was given, the `operation_done`
  flag of each operation, and the waits of the deadline timer.

  What a write handler does is a list of further writes; what a read handler does is
  the subject of `Session.lean`.  `Part` is not mentioned here: a write is of any data
  that has bytes.

  While its writes succeed, a connection is a `Slot` for its writes
  (`perform_slot`, `writeDone_slot`).
-/
import StateDb.Lib.Slot
import StateDb.NetMessage

namespace StateDb

open Lib

/-- `STATEDB_NET_TIMEOUT`, in milliseconds. -/
def netTimeout : Nat := 6000

/-! ## Operations -/

/-- Data that is written to a socket. -/
class Wire (D : Type) where
  bytes : D → List UInt8

inductive WriteKind where
  | message  -- `async_write_message`
  | raw      -- `async_write_raw`
deriving DecidableEq, Repr

/-- A write, and the writes that its handler submits. -/
structure WriteOp (D : Type) where
  kind : WriteKind
  data : D
  next : List (WriteOp D)
  timeout : Nat
  required : Bool

inductive ReadKind where
  | hello                   -- `async_read_message<hello_message_static>`
  | preamble                -- `async_read_message<message_preamble>`
  | binary (amount : Nat)   -- `async_read_raw`
deriving DecidableEq, Repr

/-- The size of the buffer. -/
def ReadKind.size : ReadKind → Nat
  | .hello => 6
  | .preamble => 7
  | .binary amount => amount

/-- The functions that are bound to reads. -/
inductive ReadHandler where
  | receivedHello
  | handleMessage
  | handleProcessedData (msgp : MessagePreamble)
deriving DecidableEq, Repr

structure ReadOp where
  kind : ReadKind
  handler : ReadHandler
  timeout : Nat
  required : Bool
deriving DecidableEq, Repr

/-! ## One direction -/

/-- A wait of a deadline timer: the number of its operation, the time, and whether it
was cancelled. -/
structure Wait where
  number : Nat
  timeout : Nat
  cancelled : Bool
deriving DecidableEq, Repr

structure Direction (O : Type) where
  inProgress : Bool := false
  pending : List O := []
  /-- Given to the socket and not completed; an operation has the number of its
  `operation_done`. -/
  outstanding : List (Nat × O) := []
  operationDone : List Bool := []
  waits : List Wait := []

namespace Direction

variable {O : Type}

def push (d : Direction O) (op : O) : Direction O := { d with pending := d.pending ++ [op] }

/-- `deadline_timer::cancel`. -/
def cancel (d : Direction O) : Direction O :=
  { d with waits := d.waits.map fun w => { w with cancelled := true } }

/-- `run_timer`: `expires_from_now` cancels the wait that there is. -/
def runTimer (d : Direction O) (number timeout : Nat) : Direction O :=
  { d.cancel with waits := d.cancel.waits ++ [⟨number, timeout, false⟩] }

/-- The operation is given to the socket. -/
def start (d : Direction O) (op : O) (timeout : Nat) : Direction O :=
  let number := d.operationDone.length
  let d' := { d with
    inProgress := true
    operationDone := d.operationDone ++ [false]
    outstanding := d.outstanding ++ [(number, op)] }
  if timeout ≠ 0 then d'.runTimer number timeout else d'

def setDone (d : Direction O) (number : Nat) : Direction O :=
  { d with operationDone := d.operationDone.set number true }

/-- The operation succeeded, or was not required to. -/
def release (d : Direction O) : Direction O := { d.cancel with inProgress := false }

@[simp] theorem start_inProgress (d : Direction O) (op : O) (timeout : Nat) :
    (d.start op timeout).inProgress = true := by
  unfold start
  split <;> rfl

@[simp] theorem start_pending (d : Direction O) (op : O) (timeout : Nat) :
    (d.start op timeout).pending = d.pending := by
  unfold start
  split <;> rfl

@[simp] theorem start_outstanding (d : Direction O) (op : O) (timeout : Nat) :
    (d.start op timeout).outstanding = d.outstanding ++ [(d.operationDone.length, op)] := by
  unfold start
  split <;> rfl

@[simp] theorem start_operationDone (d : Direction O) (op : O) (timeout : Nat) :
    (d.start op timeout).operationDone = d.operationDone ++ [false] := by
  unfold start
  split <;> rfl

/-- The flag is set exactly while the socket has an operation, and it has one at a
time. -/
def Exclusive (d : Direction O) : Prop :=
  (d.inProgress = false ∧ d.outstanding = []) ∨
    (d.inProgress = true ∧ ∃ o, d.outstanding = [o])

theorem Exclusive.outstanding_nil {d : Direction O} (hd : d.Exclusive)
    (hfree : d.inProgress = false) : d.outstanding = [] := by
  rcases hd with ⟨-, hnone⟩ | ⟨htaken, -⟩
  · exact hnone
  · exact absurd htaken (by simp [hfree])

theorem Exclusive.single {d : Direction O} (hd : d.Exclusive) {o : Nat × O} {rest : List (Nat × O)}
    (hout : d.outstanding = o :: rest) : d.outstanding = [o] := by
  rcases hd with ⟨-, hnone⟩ | ⟨-, o', hone⟩
  · exact absurd (hout ▸ hnone) (by simp)
  · rw [hone] at hout ⊢
    rw [(List.cons.inj hout).1]

theorem Exclusive.start {d : Direction O} (hd : d.Exclusive) (hfree : d.inProgress = false)
    (op : O) (timeout : Nat) : (d.start op timeout).Exclusive := by
  refine Or.inr ⟨start_inProgress d op timeout, (d.operationDone.length, op), ?_⟩
  rw [start_outstanding, hd.outstanding_nil hfree, List.nil_append]

/-- The socket has one operation at most, and none while the flag is clear. -/
structure Guarded (d : Direction O) : Prop where
  single : d.outstanding.length ≤ 1
  free : d.inProgress = false → d.outstanding = []

theorem Guarded.of_same {d d' : Direction O} (h : d.Guarded) (hprog : d'.inProgress = d.inProgress)
    (hout : d'.outstanding = d.outstanding) : d'.Guarded := by
  constructor
  · rw [hout]
    exact h.single
  · intro hfree
    rw [hout]
    exact h.free (hprog ▸ hfree)

theorem guarded_of_nil {d : Direction O} (hout : d.outstanding = []) : d.Guarded := by
  constructor
  · simp [hout]
  · intro _
    exact hout

theorem Guarded.start {d : Direction O} (h : d.Guarded) (hfree : d.inProgress = false) (op : O)
    (timeout : Nat) : (d.start op timeout).Guarded := by
  constructor
  · rw [start_outstanding, h.free hfree]
    simp
  · intro hnot
    rw [start_inProgress] at hnot
    cases hnot

/-- When the operation that the socket has is taken, it has none. -/
theorem Guarded.rest_nil {d : Direction O} (h : d.Guarded) {o : Nat × O} {rest : List (Nat × O)}
    (hout : d.outstanding = o :: rest) : rest = [] := by
  have hlen := h.single
  rw [hout, List.length_cons] at hlen
  exact List.length_eq_zero_iff.mp (by omega)

end Direction

/-! ## `dynamic_storage` -/

inductive StorageType where
  | untyped
  | hello
  | preamble
  | binary
deriving DecidableEq, Repr

structure DynamicStorage where
  typeName : StorageType := .untyped
  data : List UInt8 := []
deriving DecidableEq, Repr

namespace DynamicStorage

def hasValue (s : DynamicStorage) : Bool := s.data.length ≠ 0

def deallocate (s : DynamicStorage) : DynamicStorage := if s.hasValue then {} else s

/-- `allocate<T>`, and `allocate_binary` without contents. -/
def allocate (_ : DynamicStorage) (typeName : StorageType) (size : Nat) : DynamicStorage :=
  ⟨typeName, List.replicate size 0⟩

/-- The socket wrote to the start of the buffer. -/
def fill (s : DynamicStorage) (bytes : List UInt8) : DynamicStorage :=
  { s with data := bytes ++ s.data.drop bytes.length }

/-- The assertions of `get<T>` and `get_binary`. -/
def assertType (s : DynamicStorage) (typeName : StorageType) : Bool :=
  s.hasValue && s.typeName = typeName

end DynamicStorage

def ReadKind.typeName : ReadKind → StorageType
  | .hello => .hello
  | .preamble => .preamble
  | .binary _ => .binary

/-! ## A connection -/

/-- What the writes did, in order. -/
inductive WriteEntry (D : Type) where
  /-- `async_write_some` of the whole buffer. -/
  | started (number : Nat) (data : D)
  /-- So many bytes reached the wire. -/
  | sent (number : Nat) (data : D) (count : Nat)
  /-- The handler was called, with success or not. -/
  | called (number : Nat) (data : D) (ok : Bool)
deriving DecidableEq, Repr

structure TcpConnection (D : Type) where
  isOpen : Bool := true
  /-- How often `on_closed_` was emitted. -/
  onClosed : Nat := 0
  reads : Direction ReadOp := {}
  writes : Direction (WriteOp D) := {}
  storage : DynamicStorage := {}
  writeStorage : List UInt8 := []
  /-- What the memory of the `i`-th `pending_write_operation` held before its
  construction. -/
  memory : Nat → Nat
  constructed : Nat := 0
  log : List (WriteEntry D) := []

namespace TcpConnection

variable {D : Type} [Wire D]

omit [Wire D] in
/-- A connection that was just made. -/
def fresh (memory : Nat → Nat) : TcpConnection D := { memory := memory }

def close (c : TcpConnection D) : TcpConnection D :=
  { c with isOpen := false, onClosed := c.onClosed + 1 }

/-! ### Writes -/

def startWrite (c : TcpConnection D) (op : WriteOp D) : TcpConnection D :=
  { c with
    writeStorage := Wire.bytes op.data
    writes := c.writes.start op op.timeout
    log := c.log ++ [.started c.writes.operationDone.length op.data] }

def asyncWriteMessage (c : TcpConnection D) (val : D) (next : List (WriteOp D)) (timeout : Nat)
    (required : Bool) : TcpConnection D :=
  if c.writes.inProgress then
    -- the constructor hands the member `timeout` to its base, not the argument
    { c with
      writes := c.writes.push ⟨.message, val, next, c.memory c.constructed, required⟩
      constructed := c.constructed + 1 }
  else c.startWrite ⟨.message, val, next, timeout, required⟩

def asyncWriteRaw (c : TcpConnection D) (memory : D) (next : List (WriteOp D)) (timeout : Nat)
    (required : Bool) : TcpConnection D :=
  if (Wire.bytes memory).length = 0 then c
  else if c.writes.inProgress then
    { c with writes := c.writes.push ⟨.raw, memory, next, timeout, required⟩ }
  else c.startWrite ⟨.raw, memory, next, timeout, required⟩

/-- `perform` of a pending write, which is also how it is submitted at first. -/
def perform (c : TcpConnection D) (op : WriteOp D) : TcpConnection D :=
  match op.kind with
  | .message => c.asyncWriteMessage op.data op.next op.timeout op.required
  | .raw => c.asyncWriteRaw op.data op.next op.timeout op.required

def performAll (c : TcpConnection D) (ops : List (WriteOp D)) : TcpConnection D :=
  ops.foldl perform c

/-- The end of `handle_write_operation`. -/
def performPending (c : TcpConnection D) : TcpConnection D :=
  match c.writes.pending with
  | [] => c
  | op :: rest => { c with writes := { c.writes with pending := rest } }.perform op

def handleWriteOperation (c : TcpConnection D) (failed : Bool) (number : Nat) (op : WriteOp D) :
    TcpConnection D :=
  let c := { c with writes := c.writes.setDone number }
  if op.required && failed then c.close
  else
    let c := { c with
      writes := c.writes.release
      log := c.log ++ [WriteEntry.called number op.data !failed] }
    (c.performAll op.next).performPending

/-- The write that the socket was given completes, with so many bytes on the wire. -/
def writeDone (c : TcpConnection D) (failed : Bool) (count : Nat) : Option (TcpConnection D) :=
  match c.writes.outstanding with
  | [] => none
  | (number, op) :: rest =>
      if count ≤ (Wire.bytes op.data).length ∧ (failed ∨ 0 < count) then
        let c := { c with
          writes := { c.writes with outstanding := rest }
          log := c.log ++ [WriteEntry.sent number op.data count] }
        some (c.handleWriteOperation failed number op)
      else none

/-! ### Reads -/

def startRead (c : TcpConnection D) (op : ReadOp) : TcpConnection D :=
  { c with
    storage := c.storage.allocate op.kind.typeName op.kind.size
    reads := c.reads.start op op.timeout }

/-- `async_read_message` and `async_read_raw`, and `perform` of a pending read. -/
def submitRead (c : TcpConnection D) (op : ReadOp) : TcpConnection D :=
  if c.reads.inProgress then { c with reads := c.reads.push op } else c.startRead op

def asyncReadRaw (c : TcpConnection D) (amount : Nat) (h : ReadHandler) (timeout : Nat)
    (required : Bool) : TcpConnection D :=
  c.submitRead ⟨.binary amount, h, timeout, required⟩

/-- `start`. -/
def start (c : TcpConnection D) : TcpConnection D :=
  c.submitRead ⟨.hello, .receivedHello, netTimeout, true⟩

def startReadMessage (c : TcpConnection D) : TcpConnection D :=
  if ¬ c.isOpen then c else c.submitRead ⟨.preamble, .handleMessage, 0, true⟩

def performPendingRead (c : TcpConnection D) : TcpConnection D :=
  match c.reads.pending with
  | [] => c
  | op :: rest => { c with reads := { c.reads with pending := rest } }.submitRead op

/-! ### Timers -/

/-- `handle_timeout_expiration`. -/
def handleTimeoutExpiration (c : TcpConnection D) (operationIsDone : Bool) : TcpConnection D :=
  if operationIsDone then c else c.close

/-- The `i`-th wait of the write timer ends: its time is over, or it was cancelled. -/
def writeWaitEnds (c : TcpConnection D) (i : Nat) : Option (TcpConnection D) := do
  let w ← c.writes.waits[i]?
  let done ← c.writes.operationDone[w.number]?
  some ({ c with writes := { c.writes with waits := c.writes.waits.eraseIdx i } }
    |>.handleTimeoutExpiration done)

/-- The `i`-th wait of the read timer ends. -/
def readWaitEnds (c : TcpConnection D) (i : Nat) : Option (TcpConnection D) := do
  let w ← c.reads.waits[i]?
  let done ← c.reads.operationDone[w.number]?
  some ({ c with reads := { c.reads with waits := c.reads.waits.eraseIdx i } }
    |>.handleTimeoutExpiration done)

omit [Wire D] in
/-- The end of a wait closes the connection, or does nothing. -/
theorem handleTimeoutExpiration_cases (c : TcpConnection D) (done : Bool) :
    c.handleTimeoutExpiration done = c ∨ c.handleTimeoutExpiration done = c.close := by
  cases done with
  | true => exact Or.inl rfl
  | false => exact Or.inr rfl

omit [Wire D] in
theorem readWaitEnds_cases {c c' : TcpConnection D} {i : Nat} (h : c.readWaitEnds i = some c') :
    ∃ waits, c' = { c with reads := { c.reads with waits := waits } } ∨
      c' = close { c with reads := { c.reads with waits := waits } } := by
  obtain ⟨w, -, h⟩ := Option.bind_eq_some_iff.mp h
  obtain ⟨done, -, h⟩ := Option.bind_eq_some_iff.mp h
  obtain rfl := Option.some.inj h
  exact ⟨c.reads.waits.eraseIdx i, handleTimeoutExpiration_cases _ done⟩

omit [Wire D] in
theorem writeWaitEnds_cases {c c' : TcpConnection D} {i : Nat} (h : c.writeWaitEnds i = some c') :
    ∃ waits, c' = { c with writes := { c.writes with waits := waits } } ∨
      c' = close { c with writes := { c.writes with waits := waits } } := by
  obtain ⟨w, -, h⟩ := Option.bind_eq_some_iff.mp h
  obtain ⟨done, -, h⟩ := Option.bind_eq_some_iff.mp h
  obtain rfl := Option.some.inj h
  exact ⟨c.writes.waits.eraseIdx i, handleTimeoutExpiration_cases _ done⟩

end TcpConnection

end StateDb
