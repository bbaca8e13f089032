/-
  StateDb/SessionSteps.lean
  =========================
  **What each read of a session does.**

  A session without a fault waits for one of three reads: the HELLO, a preamble, or a
  body, with the next preamble in the queue behind it (`Awaits`).  The lemmas say, for
  any count of bytes that the read reports, what it dispatches, what it gives to a
  handler, and what the session waits for next.
-/
import StateDb.Session

namespace StateDb

open Lib

/-! ## Writes do not touch the reads -/

namespace TcpConnection

variable {D : Type} [Wire D]

/-- The reads of two connections are the same. -/
structure SameReads (c c' : TcpConnection D) : Prop where
  reads : c'.reads = c.reads
  storage : c'.storage = c.storage
  isOpen : c'.isOpen = c.isOpen

omit [Wire D] in
theorem SameReads.refl (c : TcpConnection D) : SameReads c c := ⟨rfl, rfl, rfl⟩

omit [Wire D] in
theorem SameReads.trans {c c₁ c' : TcpConnection D} (h₁ : SameReads c c₁) (h : SameReads c₁ c') :
    SameReads c c' :=
  ⟨h.reads.trans h₁.reads, h.storage.trans h₁.storage, h.isOpen.trans h₁.isOpen⟩

theorem sameReads_perform (c : TcpConnection D) (op : WriteOp D) : SameReads c (c.perform op) := by
  rcases perform_cases c op with heq | ⟨op', constructed, heq⟩ | ⟨-, heq⟩
  · rw [heq]
    exact SameReads.refl c
  · rw [heq]
    exact ⟨rfl, rfl, rfl⟩
  · rw [heq]
    exact ⟨rfl, rfl, rfl⟩

theorem sameReads_performAll (c : TcpConnection D) (ops : List (WriteOp D)) :
    SameReads c (c.performAll ops) := by
  induction ops generalizing c with
  | nil => exact SameReads.refl c
  | cons op ops ih => exact (sameReads_perform c op).trans (ih (c.perform op))

theorem sameReads_submit (c : TcpConnection Part) (u : Submission) : SameReads c (c.submit u) :=
  Submission.submit_eq c u ▸ sameReads_performAll c u.ops

theorem sameReads_submitAll (c : TcpConnection Part) (us : List Submission) :
    SameReads c (us.foldl submit c) := by
  induction us generalizing c with
  | nil => exact SameReads.refl c
  | cons u us ih => exact (sameReads_submit c u).trans (ih (c.submit u))

theorem sameReads_writeDone {c c' : TcpConnection D} {count : Nat}
    (h : c.writeDone false count = some c') : SameReads c c' := by
  unfold writeDone at h
  split at h
  · cases h
  · rename_i number op rest hout
    split at h
    · obtain rfl := Option.some.inj h
      simp only [handleWriteOperation, Bool.and_false, Bool.false_eq_true, if_false]
      refine perform_induction (SameReads c) (fun d op hd => hd.trans (sameReads_perform d op))
        (fun d rest hd => ⟨hd.reads, hd.storage, hd.isOpen⟩) ?_ op.next
      exact ⟨rfl, rfl, rfl⟩
    · cases h

/-! ## Reads as a slot -/

omit [Wire D] in
theorem submitRead_free {c : TcpConnection D} (hfree : c.reads.inProgress = false) (op : ReadOp) :
    c.submitRead op = c.startRead op := by
  simp [submitRead, hfree]

omit [Wire D] in
theorem submitRead_taken {c : TcpConnection D} (htaken : c.reads.inProgress = true) (op : ReadOp) :
    c.submitRead op = { c with reads := c.reads.push op } := by
  simp [submitRead, htaken]

/-- The socket reads `op`, into a buffer of zeros, and `pending` waits. -/
structure Reading (c : TcpConnection D) (op : ReadOp) (pending : List ReadOp) : Prop where
  inProgress : c.reads.inProgress = true
  outstanding : ∃ number, c.reads.outstanding = [(number, op)]
  pending : c.reads.pending = pending
  storage : c.storage = ⟨op.kind.typeName, List.replicate op.kind.size 0⟩

/-- The socket reads nothing, and `pending` waits. -/
structure NotReading (c : TcpConnection D) (pending : List ReadOp) : Prop where
  inProgress : c.reads.inProgress = false
  outstanding : c.reads.outstanding = []
  pending : c.reads.pending = pending

omit [Wire D] in
theorem NotReading.submitRead {c : TcpConnection D} {pending : List ReadOp}
    (h : NotReading c pending) (op : ReadOp) : Reading (c.submitRead op) op pending := by
  rw [submitRead_free h.inProgress]
  constructor
  · exact Direction.start_inProgress _ _ _
  · refine ⟨c.reads.operationDone.length, ?_⟩
    rw [startRead, Direction.start_outstanding, h.outstanding]
    rfl
  · rw [startRead, Direction.start_pending, h.pending]
  · rfl

omit [Wire D] in
theorem Reading.submitRead {c : TcpConnection D} {op : ReadOp} {pending : List ReadOp}
    (h : Reading c op pending) (op' : ReadOp) :
    Reading (c.submitRead op') op (pending ++ [op']) := by
  rw [submitRead_taken h.inProgress]
  refine ⟨h.inProgress, h.outstanding, ?_, h.storage⟩
  show c.reads.pending ++ [op'] = pending ++ [op']
  rw [h.pending]

omit [Wire D] in
/-- A read that waits while the socket has one goes to the end of the queue again. -/
theorem Reading.performPendingRead {c : TcpConnection D} {op : ReadOp} {pending : List ReadOp}
    (h : Reading c op pending) : Reading c.performPendingRead op (pending.rotate 1) := by
  unfold TcpConnection.performPendingRead
  cases pending with
  | nil =>
    rw [h.pending]
    exact h
  | cons op' rest =>
    have hrest : Reading { c with reads := { c.reads with pending := rest } } op rest :=
      ⟨h.inProgress, h.outstanding, rfl, h.storage⟩
    rw [h.pending, List.rotate_cons_succ, List.rotate_zero]
    exact hrest.submitRead op'

omit [Wire D] in
theorem NotReading.performPendingRead {c : TcpConnection D} {op : ReadOp} {pending : List ReadOp}
    (h : NotReading c (op :: pending)) : Reading c.performPendingRead op pending := by
  have hrest : NotReading { c with reads := { c.reads with pending := pending } } pending :=
    ⟨h.inProgress, h.outstanding, rfl⟩
  unfold TcpConnection.performPendingRead
  rw [h.pending]
  exact hrest.submitRead op

omit [Wire D] in
theorem Reading.of_same {c c' : TcpConnection D} {op : ReadOp} {pending : List ReadOp}
    (h : Reading c op pending) (hsame : SameReads c c') : Reading c' op pending := by
  obtain ⟨hreads, hstorage, -⟩ := hsame
  exact ⟨hreads ▸ h.inProgress, hreads ▸ h.outstanding, hreads ▸ h.pending, hstorage ▸ h.storage⟩

omit [Wire D] in
theorem NotReading.of_same {c c' : TcpConnection D} {pending : List ReadOp}
    (h : NotReading c pending) (hsame : SameReads c c') : NotReading c' pending := by
  obtain ⟨hreads, -, -⟩ := hsame
  exact ⟨hreads ▸ h.inProgress, hreads ▸ h.outstanding, hreads ▸ h.pending⟩

end TcpConnection

/-! ## Handlers -/

/-- A handler is registered for its command. -/
theorem mem_of_dispatcher {id : Nat} {h : RequestHandler} (hid : dispatcher id = some h) :
    (id, h) ∈ [(requestPing, RequestHandler.ping), (requestGet, .get), (requestSet, .set),
      (requestGetAll, .getAll)] := by
  obtain ⟨before, after, heq, -⟩ := List.lookup_eq_some_iff.mp hid
  exact heq ▸ by simp

/-- Every object of a database can be sent. -/
theorem answer_ok (w : Nat) (db : Db) (key : Key) : ∃ u, answer w db key = .ok u := by
  unfold answer
  cases hget : db.getObject (makeHash w key) with
  | none => exact ⟨_, rfl⟩
  | some obj =>
    obtain ⟨enc, henc⟩ := Db.getObject_encodes hget
    simp only [sendObject_eq henc, bind_ok]
    exact ⟨_, rfl⟩

theorem getAllRequest_ok (w : Nat) (db : Db) :
    ∃ us, getAllRequest w db = .ok { db := db, replies := us } := by
  obtain ⟨us, hus, -⟩ := mapM_forall₂ (l := db.tree) (f := fun p => answer w db p.2.key)
    (R := fun _ _ => True) (by
      intro p hp
      obtain ⟨u, hu⟩ := answer_ok w db p.2.key
      exact ⟨u, hu, trivial⟩)
  exact ⟨us, by simp only [getAllRequest, hus, bind_ok]⟩

/-- The bodies on which the handler of a message leaves its memory: an empty one of a
GET, or one of a SET on which a decoder does. -/
def BodyOversteps (msg : MessagePreamble) (body : List UInt8) : Prop :=
  match dispatcher msg.id with
  | some .get => body = []
  | some .set => SetOversteps body
  | _ => False

theorem getRequest_error_iff (w : Nat) (db : Db) (body : List UInt8) :
    (∃ e, getRequest w db body = .error e) ↔ body = [] := by
  by_cases hbody : body = []
  · subst hbody
    exact iff_of_true ⟨.outOfBounds, rfl⟩ rfl
  · have hlen : body.length ≠ 0 := fun hzero => hbody (List.length_eq_zero_iff.mp hzero)
    have hkey : asCstr body = .ok (Key.ofBuffer (body.set (body.length - 1) 0)) := if_neg hlen
    obtain ⟨u, hu⟩ := answer_ok w db (Key.ofBuffer (body.set (body.length - 1) 0))
    refine iff_of_false ?_ hbody
    rintro ⟨e, he⟩
    simp only [getRequest, hkey, bind_ok, hu] at he
    cases he

theorem setRequest_error_iff (w : Nat) (db : Db) (body : List UInt8) :
    (∃ e, setRequest w db body = .error e) ↔ SetOversteps body := by
  rw [← setHandler_fault_iff w db body]
  unfold setRequest
  cases hset : setHandler w db body with
  | accepted db' key =>
    obtain ⟨u, hu⟩ := answer_ok w db' key
    exact iff_of_false (by simp [hu, bind_ok]) (by simp)
  | refused text => exact iff_of_false (by simp) (by simp)
  | fault e => exact iff_of_true ⟨e, rfl⟩ ⟨e, rfl⟩

theorem bodyRequest_error_iff (w : Nat) (db : Db) (msg : MessagePreamble) (body : List UInt8) :
    (∃ e, bodyRequest w db msg body = .error e) ↔ BodyOversteps msg body := by
  unfold bodyRequest BodyOversteps
  cases dispatcher msg.id with
  | none => exact iff_of_false (by simp) id
  | some h =>
    cases h with
    | ping => exact iff_of_false (by simp) id
    | get => exact getRequest_error_iff w db body
    | set => exact setRequest_error_iff w db body
    | getAll => exact iff_of_false (by simp) id

/-! ## Waiting for a read -/

def helloRead : ReadOp := ⟨.hello, .receivedHello, netTimeout, true⟩

def preambleRead : ReadOp := ⟨.preamble, .handleMessage, 0, true⟩

def bodyRead (msg : MessagePreamble) : ReadOp :=
  ⟨.binary msg.size, .handleProcessedData msg, netTimeout, true⟩

/-- The handler of the message reads a body. -/
def MessagePreamble.readsBody (msg : MessagePreamble) : Bool :=
  match dispatcher msg.id with
  | some .get | some .set => true
  | _ => false

/-- A buffer of zeros into which `bytes` were read. -/
def readBuffer (size : Nat) (bytes : List UInt8) : List UInt8 :=
  bytes ++ (List.replicate size 0).drop bytes.length

theorem readBuffer_full {size : Nat} {bytes : List UInt8} (h : bytes.length = size) :
    readBuffer size bytes = bytes := by
  rw [readBuffer, List.drop_of_length_le (by simp [h]), List.append_nil]

theorem length_readBuffer {size : Nat} {bytes : List UInt8} (h : bytes.length ≤ size) :
    (readBuffer size bytes).length = size := by
  simp [readBuffer]
  omega

structure Awaits (s : Session) (op : ReadOp) (pending : List ReadOp) : Prop where
  fault : s.fault = none
  isOpen : s.conn.isOpen = true
  reading : s.conn.Reading op pending

theorem Awaits.of_same {s : Session} {op : ReadOp} {pending : List ReadOp} (h : Awaits s op pending)
    {conn : TcpConnection Part} (hsame : s.conn.SameReads conn) (db : Db) :
    Awaits { s with db := db, conn := conn } op pending :=
  ⟨h.fault, hsame.isOpen.trans h.isOpen, h.reading.of_same hsame⟩

namespace Session

/-- The session when the handler of the read that completed is called. -/
def atHandler (s : Session) (number count : Nat) : Session where
  db := s.db
  conn := { s.conn with
    reads := (({ s.conn.reads with outstanding := [] } : Direction ReadOp).setDone number).release
    storage := s.conn.storage.fill (s.unread.take count) }
  unread := s.unread.drop count
  dispatched := s.dispatched
  handled := s.handled
  fault := s.fault

/-- The counts that a read of `size` bytes may report. -/
def Possible (s : Session) (size count : Nat) : Prop :=
  count ≤ size ∧ count ≤ s.unread.length ∧ (size = 0 ∨ 0 < count)

theorem readDone_eq {s : Session} {number : Nat} {op : ReadOp}
    (hout : s.conn.reads.outstanding = [(number, op)]) (cfg : ServerConfig) (count : Nat) :
    (s.Possible op.kind.size count → s.readDone cfg count = some
        ((s.atHandler number count).callHandler cfg false op.handler).performPendingRead) ∧
      (¬ s.Possible op.kind.size count → s.readDone cfg count = none) := by
  constructor
  · intro hpossible
    unfold Possible at hpossible
    simp only [readDone, hout, if_pos hpossible, handleData, Bool.and_false, Bool.false_eq_true,
      if_false]
    rfl
  · intro hnot
    unfold Possible at hnot
    simp only [readDone, hout, if_neg hnot]

/-- A read that succeeds calls its handler, and then the queue moves on. -/
theorem readDone_outstanding {cfg : ServerConfig} {s s' : Session} {number : Nat} {op : ReadOp}
    {count : Nat} (hout : s.conn.reads.outstanding = [(number, op)])
    (hrun : s.readDone cfg count = some s') : s.Possible op.kind.size count ∧
      s' = ((s.atHandler number count).callHandler cfg false op.handler).performPendingRead := by
  obtain ⟨hyes, hno⟩ := readDone_eq hout cfg count
  by_cases hpossible : s.Possible op.kind.size count
  · rw [hyes hpossible] at hrun
    exact ⟨hpossible, (Option.some.inj hrun).symm⟩
  · rw [hno hpossible] at hrun
    cases hrun

theorem readDone_possible {cfg : ServerConfig} {s s' : Session} {op : ReadOp}
    {pending : List ReadOp} {count : Nat} (h : Awaits s op pending)
    (hrun : s.readDone cfg count = some s') :
    ∃ number, s.Possible op.kind.size count ∧
      s' = ((s.atHandler number count).callHandler cfg false op.handler).performPendingRead := by
  obtain ⟨number, hout⟩ := h.reading.outstanding
  exact ⟨number, readDone_outstanding hout hrun⟩

theorem readDone_exists {s : Session} {op : ReadOp} {pending : List ReadOp} {count : Nat}
    (h : Awaits s op pending) (cfg : ServerConfig) (hpossible : s.Possible op.kind.size count) :
    ∃ s', s.readDone cfg count = some s' := by
  obtain ⟨number, hout⟩ := h.reading.outstanding
  exact ⟨_, (readDone_eq hout cfg count).1 hpossible⟩

/-- All but the connection is the same. -/
structure SameData (s s' : Session) : Prop where
  db : s'.db = s.db
  unread : s'.unread = s.unread
  dispatched : s'.dispatched = s.dispatched
  handled : s'.handled = s.handled
  fault : s'.fault = s.fault

theorem sameData_startReadMessage (s : Session) : SameData s s.startReadMessage := by
  unfold startReadMessage
  split <;> exact ⟨rfl, rfl, rfl, rfl, rfl⟩

theorem sameData_performPendingRead (s : Session) : SameData s s.performPendingRead := by
  unfold performPendingRead
  split <;> exact ⟨rfl, rfl, rfl, rfl, rfl⟩

theorem SameData.trans {s s₁ s' : Session} (h₁ : SameData s s₁) (h : SameData s₁ s') :
    SameData s s' :=
  ⟨h.db.trans h₁.db, h.unread.trans h₁.unread, h.dispatched.trans h₁.dispatched,
    h.handled.trans h₁.handled, h.fault.trans h₁.fault⟩

theorem startReadMessage_eq {s : Session} (hfault : s.fault = none) (hopen : s.conn.isOpen = true) :
    s.startReadMessage = { s with conn := s.conn.submitRead preambleRead } := by
  simp [startReadMessage, hfault, TcpConnection.startReadMessage, hopen, preambleRead]

theorem performPendingRead_eq {s : Session} (hfault : s.fault = none) :
    s.performPendingRead = { s with conn := s.conn.performPendingRead } := by
  simp [performPendingRead, hfault]

theorem performPendingRead_nil {s : Session} (h : s.conn.reads.pending = []) :
    s.performPendingRead = s := by
  unfold performPendingRead TcpConnection.performPendingRead
  rw [h]
  split <;> rfl

theorem submitRead_isOpen (c : TcpConnection Part) (op : ReadOp) :
    (c.submitRead op).isOpen = c.isOpen := by
  unfold TcpConnection.submitRead
  split <;> rfl

theorem performPendingRead_isOpen (c : TcpConnection Part) :
    c.performPendingRead.isOpen = c.isOpen := by
  unfold TcpConnection.performPendingRead
  split
  · rfl
  · exact submitRead_isOpen _ _

/-- The next preamble is read at once when the socket reads nothing. -/
theorem awaits_preamble_started {s : Session} (hfault : s.fault = none)
    (hopen : s.conn.isOpen = true) (h : s.conn.NotReading []) :
    Awaits s.startReadMessage.performPendingRead preambleRead [] := by
  have hnext : ({ s with conn := s.conn.submitRead preambleRead } : Session).fault = none := hfault
  rw [startReadMessage_eq hfault hopen, performPendingRead_eq hnext]
  refine ⟨hfault, ?_, (h.submitRead preambleRead).performPendingRead⟩
  rw [performPendingRead_isOpen, submitRead_isOpen]
  exact hopen

/-- The next preamble waits when the socket reads a body. -/
theorem awaits_preamble_queued {s : Session} {op : ReadOp} (hfault : s.fault = none)
    (hopen : s.conn.isOpen = true) (h : s.conn.Reading op []) :
    Awaits s.startReadMessage.performPendingRead op [preambleRead] := by
  have hnext : ({ s with conn := s.conn.submitRead preambleRead } : Session).fault = none := hfault
  rw [startReadMessage_eq hfault hopen, performPendingRead_eq hnext]
  refine ⟨hfault, ?_, (h.submitRead preambleRead).performPendingRead⟩
  rw [performPendingRead_isOpen, submitRead_isOpen]
  exact hopen

theorem awaits_pending {s : Session} {op : ReadOp} {pending : List ReadOp} (hfault : s.fault = none)
    (hopen : s.conn.isOpen = true) (h : s.conn.NotReading (op :: pending)) :
    Awaits s.performPendingRead op pending := by
  rw [performPendingRead_eq hfault]
  refine ⟨hfault, ?_, h.performPendingRead⟩
  rw [performPendingRead_isOpen]
  exact hopen

/-! ## The reads of a session -/

/-- The buffer when the handler is called. -/
theorem atHandler_storage {s : Session} {op : ReadOp} {pending : List ReadOp}
    (h : Awaits s op pending) (number count : Nat) :
    (s.atHandler number count).conn.storage =
      ⟨op.kind.typeName, readBuffer op.kind.size (s.unread.take count)⟩ := by
  simp [atHandler, h.reading.storage, DynamicStorage.fill, readBuffer]

theorem atHandler_notReading {s : Session} {op : ReadOp} {pending : List ReadOp}
    (h : Awaits s op pending) (number count : Nat) :
    (s.atHandler number count).conn.NotReading pending :=
  ⟨rfl, rfl, h.reading.pending⟩

/-- The assertion on a buffer fails only when the buffer is empty. -/
theorem atHandler_storageFails {s : Session} {op : ReadOp} {pending : List ReadOp} {count : Nat}
    (h : Awaits s op pending) (hpossible : s.Possible op.kind.size count) (cfg : ServerConfig)
    (number : Nat) : (s.atHandler number count).storageFails cfg op.kind.typeName =
      (cfg.asserts && decide (op.kind.size = 0)) := by
  have hlen : (readBuffer op.kind.size (s.unread.take count)).length = op.kind.size :=
    length_readBuffer (by rw [List.length_take]; exact (Nat.min_le_left _ _).trans hpossible.1)
  simp only [storageFails, atHandler_storage h, DynamicStorage.assertType, DynamicStorage.hasValue,
    hlen]
  cases cfg.asserts <;> simp

/-- The buffer of the session is given back. -/
def deallocated (s : Session) : Session :=
  { s with conn := { s.conn with storage := s.conn.storage.deallocate } }

/-- `received_hello` fails an assertion, or waits for a message after a valid HELLO, or
closes the connection. -/
theorem receivedHello_cases (s : Session) (cfg : ServerConfig) :
    (s.storageFails cfg .hello = true ∧
      s.receivedHello cfg = { s with fault := some .assertion }) ∨
    (helloValid s.conn.storage.data = true ∧
      s.receivedHello cfg = s.deallocated.startReadMessage) ∨
    (helloValid s.conn.storage.data = false ∧
      s.receivedHello cfg = { s.deallocated with conn := s.deallocated.conn.close }) := by
  unfold receivedHello
  split
  · rename_i hfails
    exact Or.inl ⟨hfails, rfl⟩
  · dsimp only
    split
    · rename_i hvalid
      exact Or.inr (Or.inl ⟨hvalid, rfl⟩)
    · rename_i hnot
      exact Or.inr (Or.inr ⟨by simpa using hnot, rfl⟩)

theorem readDone_hello {cfg : ServerConfig} {s s' : Session} {count : Nat}
    (h : Awaits s helloRead []) (hrun : s.readDone cfg count = some s') :
    s.Possible 6 count ∧ s'.unread = s.unread.drop count ∧ s'.db = s.db ∧
      s'.dispatched = s.dispatched ∧ s'.handled = s.handled ∧ s'.fault = none ∧
      (helloValid (readBuffer 6 (s.unread.take count)) = true → Awaits s' preambleRead []) ∧
      (helloValid (readBuffer 6 (s.unread.take count)) = false →
        s'.conn.reads.outstanding = []) := by
  obtain ⟨number, hpossible, rfl⟩ := readDone_possible h hrun
  have hfails : (s.atHandler number count).storageFails cfg .hello = false := by
    have hsize : decide (helloRead.kind.size = 0) = false := rfl
    exact (atHandler_storageFails h hpossible cfg number).trans (by rw [hsize, Bool.and_false])
  have hdata : (s.atHandler number count).conn.storage.data = readBuffer 6 (s.unread.take count) :=
    congrArg DynamicStorage.data (atHandler_storage h number count)
  have hread : (s.atHandler number count).deallocated.conn.NotReading [] :=
    let hold := atHandler_notReading h number count
    ⟨hold.inProgress, hold.outstanding, hold.pending⟩
  have hcall : (s.atHandler number count).callHandler cfg false helloRead.handler =
      (s.atHandler number count).receivedHello cfg := rfl
  rw [hcall, ← hdata]
  rcases (s.atHandler number count).receivedHello_cases cfg with ⟨hyes, -⟩ | ⟨hvalid, heq⟩ |
    ⟨hvalid, heq⟩
  · rw [hfails] at hyes
    cases hyes
  · have hsame := (sameData_startReadMessage (s.atHandler number count).deallocated).trans
      (sameData_performPendingRead _)
    rw [heq, hvalid]
    exact ⟨hpossible, hsame.unread, hsame.db, hsame.dispatched, hsame.handled,
      hsame.fault.trans h.fault, fun _ => awaits_preamble_started h.fault h.isOpen hread, by simp⟩
  · have hpend : ({ (s.atHandler number count).deallocated with
        conn := (s.atHandler number count).deallocated.conn.close } : Session).conn.reads.pending =
          [] := hread.pending
    rw [heq, hvalid, performPendingRead_nil hpend]
    exact ⟨hpossible, rfl, rfl, rfl, rfl, h.fault, by simp, fun _ => hread.outstanding⟩

/-- What a dispatched message leaves the connection with: a body is read, or nothing. -/
theorem dispatch_spec {s : Session} (hopen : s.conn.isOpen = true)
    (h : s.conn.NotReading []) (cfg : ServerConfig) (msg : MessagePreamble) :
    SameData { s with dispatched := s.dispatched ++ [msg] } (s.dispatch cfg msg) ∧
      (s.dispatch cfg msg).conn.isOpen = true ∧
      (msg.readsBody = true → (s.dispatch cfg msg).conn.Reading (bodyRead msg) []) ∧
      (msg.readsBody = false → (s.dispatch cfg msg).conn.NotReading []) := by
  have hbody : (s.conn.asyncReadRaw msg.size (.handleProcessedData msg) netTimeout true).Reading
      (bodyRead msg) [] := h.submitRead (bodyRead msg)
  unfold dispatch MessagePreamble.readsBody
  cases hhandler : dispatcher msg.id with
  | none => exact ⟨⟨rfl, rfl, rfl, rfl, rfl⟩, hopen, by simp, fun _ => h⟩
  | some handler =>
    cases handler with
    | ping =>
      have hsame := TcpConnection.sameReads_submit s.conn
        (.pong (cfg.pongMemory (s.dispatched ++ [msg]).length))
      exact ⟨⟨rfl, rfl, rfl, rfl, rfl⟩, hsame.isOpen.trans hopen, by simp, fun _ => h.of_same hsame⟩
    | get =>
      exact ⟨⟨rfl, rfl, rfl, rfl, rfl⟩, (submitRead_isOpen _ _).trans hopen, fun _ => hbody,
        by simp⟩
    | set =>
      exact ⟨⟨rfl, rfl, rfl, rfl, rfl⟩, (submitRead_isOpen _ _).trans hopen, fun _ => hbody,
        by simp⟩
    | getAll =>
      obtain ⟨us, hus⟩ := getAllRequest_ok cfg.width s.db
      simp only [hus, apply, List.append_nil]
      have hsame := TcpConnection.sameReads_submitAll s.conn us
      exact ⟨⟨rfl, rfl, rfl, rfl, rfl⟩, hsame.isOpen.trans hopen, by simp, fun _ => h.of_same hsame⟩

theorem readDone_preamble {cfg : ServerConfig} {s s' : Session} {count : Nat}
    (h : Awaits s preambleRead []) (hrun : s.readDone cfg count = some s') {msg : MessagePreamble}
    (hmsg : msg = MessagePreamble.ofBytes (readBuffer 7 (s.unread.take count))) :
    s.Possible 7 count ∧ s'.unread = s.unread.drop count ∧ s'.db = s.db ∧
      s'.dispatched = s.dispatched ++ [msg] ∧ s'.handled = s.handled ∧
      (msg.readsBody = true → Awaits s' (bodyRead msg) [preambleRead]) ∧
      (msg.readsBody = false → Awaits s' preambleRead []) := by
  obtain ⟨number, hpossible, rfl⟩ := readDone_possible h hrun
  have hfails : (s.atHandler number count).storageFails cfg .preamble = false := by
    have hsize : decide (preambleRead.kind.size = 0) = false := rfl
    exact (atHandler_storageFails h hpossible cfg number).trans (by rw [hsize, Bool.and_false])
  have hdata : (s.atHandler number count).conn.storage.data = readBuffer 7 (s.unread.take count) :=
    congrArg DynamicStorage.data (atHandler_storage h number count)
  let s₁ : Session := (s.atHandler number count).deallocated
  have hread : s₁.conn.NotReading [] :=
    let hold := atHandler_notReading h number count
    ⟨hold.inProgress, hold.outstanding, hold.pending⟩
  have heq : (s.atHandler number count).callHandler cfg false preambleRead.handler =
      (s₁.dispatch cfg msg).startReadMessage := by
    simp only [callHandler, preambleRead, handleMessage, hfails, hdata, Bool.false_eq_true,
      if_false, hmsg]
    rfl
  obtain ⟨hsame, hopen, hbody, hnobody⟩ := dispatch_spec (s := s₁) h.isOpen hread cfg msg
  have hnone : (s₁.dispatch cfg msg).fault = none := hsame.fault.trans h.fault
  rw [heq]
  have hend := (sameData_startReadMessage (s₁.dispatch cfg msg)).trans
    (sameData_performPendingRead _)
  refine ⟨hpossible, hend.unread.trans hsame.unread, hend.db.trans hsame.db,
    hend.dispatched.trans hsame.dispatched, hend.handled.trans hsame.handled, ?_, ?_⟩
  · intro hyes
    exact awaits_preamble_queued hnone hopen (hbody hyes)
  · intro hno
    exact awaits_preamble_started hnone hopen (hnobody hno)

/-- A body is given to its handler, which keeps to its memory, or not. -/
theorem readDone_body {cfg : ServerConfig} {s s' : Session} {count : Nat} {msg : MessagePreamble}
    (h : Awaits s (bodyRead msg) [preambleRead]) (hrun : s.readDone cfg count = some s')
    {body : List UInt8} (hbody : body = readBuffer msg.size (s.unread.take count)) :
    s.Possible msg.size count ∧ s'.unread = s.unread.drop count ∧ s'.dispatched = s.dispatched ∧
      ((cfg.asserts = true ∧ msg.size = 0 ∧ s'.fault = some .assertion ∧ s'.db = s.db ∧
          s'.handled = s.handled) ∨
        (¬ (cfg.asserts = true ∧ msg.size = 0) ∧ s'.handled = s.handled ++ [(msg, body)] ∧
          ((∃ e, bodyRequest cfg.width s.db msg body = .ok e ∧ s'.db = e.db ∧
              Awaits s' preambleRead []) ∨
            (∃ e, bodyRequest cfg.width s.db msg body = .error e ∧ s'.db = s.db ∧
              s'.fault = some (.memory e))))) := by
  obtain ⟨number, hpossible, rfl⟩ := readDone_possible h hrun
  have hfails : (s.atHandler number count).storageFails cfg .binary =
      (cfg.asserts && decide (msg.size = 0)) := atHandler_storageFails h hpossible cfg number
  have hdata : (s.atHandler number count).conn.storage.data = body :=
    (congrArg DynamicStorage.data (atHandler_storage h number count)).trans hbody.symm
  have hread := atHandler_notReading h number count
  have hend := sameData_performPendingRead
    ((s.atHandler number count).callHandler cfg false (bodyRead msg).handler)
  refine ⟨hpossible, ?_⟩
  by_cases hassert : cfg.asserts = true ∧ msg.size = 0
  · have heq : (s.atHandler number count).callHandler cfg false (bodyRead msg).handler =
        { s.atHandler number count with fault := some .assertion } := by
      have htrue : (s.atHandler number count).storageFails cfg .binary = true := by
        rw [hfails, hassert.1, hassert.2]
        rfl
      simp only [callHandler, bodyRead, handleProcessedData, htrue, if_true]
    rw [heq] at hend ⊢
    exact ⟨hend.unread, hend.dispatched, Or.inl ⟨hassert.1, hassert.2, hend.fault, hend.db,
      hend.handled⟩⟩
  · have heq : (s.atHandler number count).callHandler cfg false (bodyRead msg).handler =
        { s.atHandler number count with handled := s.handled ++ [(msg, body)] }.apply
          (bodyRequest cfg.width s.db msg body) := by
      have hfalse : (s.atHandler number count).storageFails cfg .binary = false := by
        rw [hfails]
        simpa using hassert
      simp only [callHandler, bodyRead, handleProcessedData, hfalse, Bool.false_eq_true, if_false,
        hdata]
      rfl
    rw [heq] at hend ⊢
    cases hrequest : bodyRequest cfg.width s.db msg body with
    | ok e =>
      rw [hrequest] at hend
      have hsame := TcpConnection.sameReads_submitAll (s.atHandler number count).conn
        (e.replies ++ e.broadcast)
      refine ⟨hend.unread, hend.dispatched, Or.inr ⟨hassert, hend.handled, Or.inl ⟨e, rfl, hend.db,
        ?_⟩⟩⟩
      exact awaits_pending h.fault (hsame.isOpen.trans h.isOpen) (hread.of_same hsame)
    | error e =>
      rw [hrequest] at hend
      exact ⟨hend.unread, hend.dispatched, Or.inr ⟨hassert, hend.handled, Or.inr ⟨e, rfl, hend.db,
        hend.fault⟩⟩⟩

/-! ## The other events -/

theorem awaits_start (db : Db) (memory : Nat → Nat) (stream : List UInt8) :
    Awaits (startSession db memory stream) helloRead [] := by
  have hfresh : (TcpConnection.fresh memory : TcpConnection Part).NotReading [] := ⟨rfl, rfl, rfl⟩
  exact ⟨rfl, (submitRead_isOpen _ _).trans rfl, hfresh.submitRead helloRead⟩

/-- A write, or a SET of another client, is no business of the reads. -/
theorem sessionStep_cases {cfg : ServerConfig} {s s' : Session} {e : SessionEvent}
    (hstep : sessionStep cfg s e = some s') : s.fault = none ∧
      ((∃ count, e = .read count ∧ s.readDone cfg count = some s') ∨
        (∃ count conn, e = .written count ∧ s.conn.SameReads conn ∧
          s' = { s with conn := conn }) ∨
        (∃ r db conn, e = .elsewhere r ∧ s.conn.SameReads conn ∧
          s' = { s with db := db, conn := conn })) := by
  unfold sessionStep at hstep
  by_cases hfault : s.fault.isSome = true
  · rw [if_pos hfault] at hstep
    cases hstep
  · rw [if_neg hfault] at hstep
    refine ⟨by simpa using hfault, ?_⟩
    cases e with
    | read count => exact Or.inl ⟨count, rfl, hstep⟩
    | written count =>
      obtain ⟨conn, hwritten, rfl⟩ := Option.map_eq_some_iff.mp hstep
      exact Or.inr (Or.inl ⟨count, conn, rfl, TcpConnection.sameReads_writeDone hwritten, rfl⟩)
    | elsewhere r =>
      refine Or.inr (Or.inr ?_)
      simp only at hstep
      split at hstep
      · split at hstep
        · obtain rfl := Option.some.inj hstep
          exact ⟨r, _, _, rfl, TcpConnection.sameReads_submit _ _, rfl⟩
        · cases hstep
      · cases hstep

theorem sessionStep_read {cfg : ServerConfig} {s : Session} (hfault : s.fault = none)
    (count : Nat) :
    sessionStep cfg s (.read count) = s.readDone cfg count := by
  simp [sessionStep, hfault]

end Session

end StateDb
