/-
  StateDb/Registry.lean
  =====================
  **The registry of connections** (`handle_accept`, `handle_connection_close`,
  `handle_connection_remove`; `close`).

  A connection that is closed posts the removal of its id from the registry.  `close`
  does not ask whether the connection is closed already, and the socket completes with an
  error whatever it has when it is closed: a connection that is closed while the socket
  has something closes again, and posts a second removal, which may meet the id of
  another connection.  In a run in which nothing is left to complete when a connection is
  closed, each connection closes once and is removed by its own call (`closes_once`).

  The registry owns the connections: one that is erased from it is destroyed, and all
  connections live in one process.  So a run of the server has no step in which a handler
  leaves its memory or fails an assertion, or uses a connection that was destroyed: the
  program ends there, or does what has no meaning, and with it the run.
-/
import StateDb.ConnectionRuns
import StateDb.Server

namespace StateDb

open Lib Lib.SortedAssoc

/-! ## Steps of the server -/

/-- The updates of the SETs that a step of a session executed. -/
def announced (cfg : ServerConfig) (s s' : Session) : List Submission :=
  (s'.handled.drop s.handled.length).flatMap fun h =>
    match bodyRequest cfg.width s.db h.1 h.2 with
    | .ok e => e.broadcast
    | .error _ => []

inductive ServerEvent where
  /-- A client is accepted under an id; it is going to send `stream`. -/
  | accept (id : Nat) (memory : Nat → Nat) (stream : List UInt8)
  /-- Something happens to the connection with this number. -/
  | connection (i : Nat) (e : ConnectionEvent)
  /-- The next posted call of `handle_connection_remove` is executed. -/
  | remove

/-- What the socket and the timers do; the server itself does the rest. -/
def ConnectionEvent.isExternal : ConnectionEvent → Bool
  | .submitted _ | .database _ => false
  | _ => true

/-- The wait of a timer belongs to an operation that is done. -/
def Direction.WaitDone {O : Type} (d : Direction O) (i : Nat) : Prop :=
  ∀ w ∈ d.waits[i]?, d.operationDone[w.number]? = some true

instance {O : Type} (d : Direction O) (i : Nat) : Decidable (d.WaitDone i) :=
  inferInstanceAs (Decidable (∀ w ∈ d.waits[i]?, _))

/-- The handler of the event uses the connection.  That of a wait does not when the operation
is done: it looks at its `operationIsDone` only. -/
def ConnectionEvent.usesConnection (c : TcpConnection Part) : ConnectionEvent → Bool
  | .readWaitEnds i => ¬ c.reads.WaitDone i
  | .writeWaitEnds i => ¬ c.writes.WaitDone i
  | _ => true

namespace Server

/-- `handle_accept`, of an accept that succeeded. -/
def handleAccept (sv : Server) (id : Nat) (memory : Nat → Nat) (stream : List UInt8) : Server :=
  { sv with
    accepted := sv.accepted ++ [⟨id, startSession sv.db memory stream⟩]
    connections := upsert id sv.accepted.length sv.connections }

/-- The session of the connection `i` went from `s` to `s'`.  The others get the updates,
and `handle_connection_close` is called for each emission of `on_closed_`. -/
def stepped (cfg : ServerConfig) (sv : Server) (i : Nat) (s s' : Session) : Server :=
  { sv with
    db := s'.db
    accepted := sv.accepted.mapIdx fun j a =>
      if j = i then { a with session := s' }
      else if sv.isRegistered j then
        a.onConn fun c => (announced cfg s s').foldl TcpConnection.submit c
      else a
    posted := sv.posted ++ List.replicate (s'.conn.onClosed - s.conn.onClosed) i }

/-- `handle_connection_remove`. -/
def handleConnectionRemove (sv : Server) : Option Server :=
  match sv.posted with
  | [] => none
  | i :: rest => do
      let a ← sv.accepted[i]?
      some { sv with
        posted := rest
        connections := SortedAssoc.remove a.id sv.connections
        removed := sv.removed ++ [(i, sv.connections.lookup a.id)] }

def step (cfg : ServerConfig) (sv : Server) : ServerEvent → Option Server
  | .accept id memory stream => some (sv.handleAccept id memory stream)
  | .connection i e =>
      if ¬ e.isExternal then none
      else do
        let a ← sv.accepted[i]?
        let s := { a.session with db := sv.db }
        let s' ← connectionStep cfg s e
        if s'.fault.isSome then none
        -- the connection was destroyed
        else if !sv.isRegistered i && e.usesConnection s.conn then none
        else some (sv.stepped cfg i s s')
  | .remove => sv.handleConnectionRemove

/-- Something happens to a connection that is registered, and no handler faults. -/
theorem step_connection {cfg : ServerConfig} {sv : Server} {i : Nat} {e : ConnectionEvent}
    {a : Accepted} {s' : Session} (hexternal : e.isExternal = true) (ha : sv.accepted[i]? = some a)
    (hs' : connectionStep cfg { a.session with db := sv.db } e = some s') (hfault : s'.fault = none)
    (hreg : sv.isRegistered i = true) : sv.step cfg (.connection i e) =
      some (sv.stepped cfg i { a.session with db := sv.db } s') := by
  simp [Server.step, hexternal, ha, hs', hfault, hreg]

/-- What a step of the server is. -/
inductive StepCases (cfg : ServerConfig) (sv : Server) : ServerEvent → Server → Prop
  | accept (id : Nat) (memory : Nat → Nat) (stream : List UInt8) :
      StepCases cfg sv (.accept id memory stream) (sv.handleAccept id memory stream)
  | remove (sv' : Server) : sv'.db = sv.db → sv'.accepted = sv.accepted →
      sv.handleConnectionRemove = some sv' → StepCases cfg sv .remove sv'
  | connection (i : Nat) (a : Accepted) (e : ConnectionEvent) (s' : Session) :
      e.isExternal = true → sv.accepted[i]? = some a →
      connectionStep cfg { a.session with db := sv.db } e = some s' → s'.fault = none →
      StepCases cfg sv (.connection i e) (sv.stepped cfg i { a.session with db := sv.db } s')

theorem step_cases {cfg : ServerConfig} {sv sv' : Server} {e : ServerEvent}
    (hstep : sv.step cfg e = some sv') : StepCases cfg sv e sv' := by
  cases e with
  | accept id memory stream =>
    obtain rfl := Option.some.inj hstep
    exact .accept id memory stream
  | connection i e =>
    unfold Server.step at hstep
    dsimp only at hstep
    split at hstep
    · cases hstep
    · rename_i hexternal
      obtain ⟨a, ha, hstep⟩ := Option.bind_eq_some_iff.mp hstep
      obtain ⟨s', hs', hstep⟩ := Option.bind_eq_some_iff.mp hstep
      split at hstep
      · cases hstep
      · rename_i hfault
        split at hstep
        · cases hstep
        · obtain rfl := Option.some.inj hstep
          exact .connection i a e s' (by simpa using hexternal) ha hs' (by simpa using hfault)
  | remove =>
    have hremove : sv.handleConnectionRemove = some sv' := hstep
    unfold Server.step handleConnectionRemove at hstep
    dsimp only at hstep
    split at hstep
    · cases hstep
    · obtain ⟨a, -, hstep⟩ := Option.bind_eq_some_iff.mp hstep
      obtain rfl := Option.some.inj hstep
      exact .remove _ rfl rfl hremove

end Server

/-! ## Closing once -/

/-- `on_closed_` is emitted at most once for each connection, which has at most one entry
removed, and this is its own. -/
structure ClosesOnce (sv : Server) : Prop where
  emitted : ∀ a ∈ sv.accepted, a.session.conn.onClosed ≤ 1
  once : (sv.removed.map Prod.fst).Nodup
  own : ∀ r ∈ sv.removed, ∀ i, r.2 = some i → i = r.1

/-- The step does not close the connection while the socket has something else. -/
def ClosesAlone (s : Session) : ConnectionEvent → Prop
  | .read count => ∀ o ∈ s.conn.reads.outstanding, o.2.handler = .receivedHello →
      helloValid (s.conn.storage.fill (s.unread.take count)).data = false →
      s.conn.writes.outstanding = []
  | .readFails => s.conn.writes.outstanding = []
  | .writeFails _ => ∀ o ∈ s.conn.writes.outstanding, o.2.required = true →
      s.conn.reads.outstanding = []
  | .readWaitEnds i => s.conn.reads.WaitDone i
  | .writeWaitEnds i => s.conn.writes.WaitDone i
  | .written _ | .submitted _ | .database _ => True

/-- The step reads the body of a SET. -/
def ReadsSet (s : Session) : ConnectionEvent → Prop
  | .read _ => ∃ o ∈ s.conn.reads.outstanding, ∃ msgp, o.2.handler = .handleProcessedData msgp ∧
      msgp.id = requestSet
  | _ => False

/-- A connection closes alone, no SET is executed while a closed connection is registered,
and no connection is accepted under an id that is registered. -/
def Untangled (sv : Server) : ServerEvent → Prop
  | .accept id _ _ => sv.connections.lookup id = none
  | .connection i e => ∀ a ∈ sv.accepted[i]?, ClosesAlone a.session e ∧
      (ReadsSet a.session e → ∀ j, sv.isRegistered j = true → ∀ b ∈ sv.accepted[j]?,
        b.session.conn.isOpen = true)
  | .remove => True

/-! ## What keeps a connection open -/

namespace TcpConnection

/-- The connection is open, and was never closed. -/
structure Live (c : TcpConnection Part) : Prop where
  isOpen : c.isOpen = true
  onClosed : c.onClosed = 0
  writes : c.writes.Guarded

theorem Live.perform {c : TcpConnection Part} (h : c.Live) (op : WriteOp Part) :
    (c.perform op).Live := by
  rcases perform_cases c op with heq | ⟨op', constructed, heq⟩ | ⟨hfree, heq⟩
  · rw [heq]
    exact h
  · rw [heq]
    exact ⟨h.isOpen, h.onClosed, h.writes.of_same rfl rfl⟩
  · rw [heq]
    exact ⟨h.isOpen, h.onClosed, h.writes.start hfree op op.timeout⟩

theorem Live.performAll {c : TcpConnection Part} (h : c.Live) (ops : List (WriteOp Part)) :
    (c.performAll ops).Live := by
  induction ops generalizing c with
  | nil => exact h
  | cons op ops ih => exact ih (h.perform op)

theorem Live.submitAll {c : TcpConnection Part} (h : c.Live) (us : List Submission) :
    (us.foldl submit c).Live := by
  induction us generalizing c with
  | nil => exact h
  | cons u us ih => exact ih (Submission.submit_eq c u ▸ h.performAll u.ops)

theorem Live.submitRead {c : TcpConnection Part} (h : c.Live) (op : ReadOp) :
    (c.submitRead op).Live := by
  unfold TcpConnection.submitRead
  split <;> exact ⟨h.isOpen, h.onClosed, h.writes⟩

/-- A write completes: the connection stays as it was, or a required write failed. -/
theorem Live.writeDone {c c' : TcpConnection Part} {failed : Bool} {count : Nat} (h : c.Live)
    (hdone : c.writeDone failed count = some c') : (c'.Live ∧ SameReads c c') ∨
      (failed = true ∧ (∃ o ∈ c.writes.outstanding, o.2.required = true) ∧ c'.isOpen = false ∧
        c'.onClosed = 1 ∧ c'.reads = c.reads ∧ c'.writes.outstanding = []) := by
  unfold TcpConnection.writeDone at hdone
  split at hdone
  · cases hdone
  · rename_i number op rest hout
    obtain rfl := h.writes.rest_nil hout
    split at hdone
    · obtain rfl := Option.some.inj hdone
      unfold handleWriteOperation
      dsimp only
      split
      · rename_i hrequired
        obtain ⟨hrequired, hfailed⟩ := Bool.and_eq_true_iff.mp hrequired
        refine Or.inr ⟨hfailed, ⟨(number, op), by simp [hout], hrequired⟩, rfl, ?_, rfl, rfl⟩
        exact congrArg (· + 1) h.onClosed
      · refine Or.inl (perform_induction (fun d => d.Live ∧ SameReads c d) ?_ ?_ ?_ op.next)
        · rintro d op ⟨hlive, hsame⟩
          exact ⟨hlive.perform op, hsame.trans (sameReads_perform d op)⟩
        · rintro d rest ⟨hlive, hsame⟩
          exact ⟨⟨hlive.isOpen, hlive.onClosed, hlive.writes.of_same rfl rfl⟩, hsame.reads,
            hsame.storage, hsame.isOpen⟩
        · exact ⟨⟨h.isOpen, h.onClosed, Direction.guarded_of_nil rfl⟩, rfl, rfl, rfl⟩
    · cases hdone

end TcpConnection

/-- The read is required, and is not that of a HELLO. -/
def ReadOp.Routine (op : ReadOp) : Prop := op.required = true ∧ op.handler ≠ .receivedHello

/-- The reads of a connection that has got its HELLO. -/
structure RoutineReads (d : Direction ReadOp) : Prop where
  guarded : d.Guarded
  current : ∀ o ∈ d.outstanding, o.2.Routine
  waiting : ∀ op ∈ d.pending, op.Routine

theorem RoutineReads.push {d : Direction ReadOp} (h : RoutineReads d) {op : ReadOp}
    (hop : op.Routine) : RoutineReads (d.push op) := by
  refine ⟨h.guarded.of_same rfl rfl, h.current, ?_⟩
  intro op' hop'
  rcases List.mem_append.mp hop' with hold | hnew
  · exact h.waiting op' hold
  · rw [List.mem_singleton.mp hnew]
    exact hop

theorem RoutineReads.start {d : Direction ReadOp} (h : RoutineReads d)
    (hfree : d.inProgress = false) {op : ReadOp} (hop : op.Routine) (timeout : Nat) :
    RoutineReads (d.start op timeout) := by
  refine ⟨h.guarded.start hfree op timeout, ?_, ?_⟩
  · rw [Direction.start_outstanding, h.guarded.free hfree]
    intro o ho
    rw [List.mem_singleton.mp ho]
    exact hop
  · rw [Direction.start_pending]
    exact h.waiting

/-- The connection is open, and has got its HELLO. -/
structure Steady (c : TcpConnection Part) : Prop where
  live : c.Live
  reads : RoutineReads c.reads

theorem Steady.submitRead {c : TcpConnection Part} (h : Steady c) {op : ReadOp} (hop : op.Routine) :
    Steady (c.submitRead op) := by
  refine ⟨h.live.submitRead op, ?_⟩
  unfold TcpConnection.submitRead
  split
  · exact h.reads.push hop
  · rename_i hfree
    exact h.reads.start (by simpa using hfree) hop op.timeout

theorem Steady.of_sameReads {c c' : TcpConnection Part} (h : Steady c) (hlive : c'.Live)
    (hsame : c.SameReads c') : Steady c' := by
  refine ⟨hlive, ?_⟩
  rw [hsame.reads]
  exact h.reads

theorem Steady.submitAll {c : TcpConnection Part} (h : Steady c) (us : List Submission) :
    Steady (us.foldl TcpConnection.submit c) :=
  h.of_sameReads (h.live.submitAll us) (TcpConnection.sameReads_submitAll c us)

theorem routine_preambleRead : preambleRead.Routine := ⟨rfl, by decide⟩

theorem routine_bodyRead (msg : MessagePreamble) : (bodyRead msg).Routine :=
  ⟨rfl, fun heq => by cases heq⟩

namespace Session

theorem steady_startReadMessage {s : Session} (h : Steady s.conn) :
    Steady s.startReadMessage.conn := by
  unfold startReadMessage
  split
  · exact h
  · show Steady s.conn.startReadMessage
    rw [TcpConnection.startReadMessage, if_neg (by simp [h.live.isOpen])]
    exact h.submitRead routine_preambleRead

theorem steady_performPendingRead {s : Session} (h : Steady s.conn) :
    Steady s.performPendingRead.conn := by
  unfold performPendingRead
  split
  · exact h
  · show Steady s.conn.performPendingRead
    unfold TcpConnection.performPendingRead
    split
    · exact h
    · rename_i op rest hpend
      have hrest : Steady { s.conn with reads := { s.conn.reads with pending := rest } } := by
        refine ⟨⟨h.live.isOpen, h.live.onClosed, h.live.writes⟩, h.reads.guarded.of_same rfl rfl,
          h.reads.current, ?_⟩
        intro op' hop'
        exact h.reads.waiting op' (hpend ▸ List.mem_cons_of_mem _ hop')
      exact hrest.submitRead (h.reads.waiting op (hpend ▸ List.mem_cons_self))

theorem steady_apply {s : Session} (h : Steady s.conn) (r : Except DataError Effect) :
    Steady (s.apply r).conn := by
  cases r with
  | ok e => exact h.submitAll (e.replies ++ e.broadcast)
  | error e => exact h

theorem steady_dispatch {s : Session} (h : Steady s.conn) (cfg : ServerConfig)
    (msg : MessagePreamble) : Steady (s.dispatch cfg msg).conn := by
  unfold dispatch
  cases dispatcher msg.id with
  | none => exact h
  | some handler =>
    cases handler with
    | ping => exact h.submitAll [.pong (cfg.pongMemory (s.dispatched ++ [msg]).length)]
    | getAll => exact @steady_apply { s with dispatched := s.dispatched ++ [msg] } h _
    | get => exact h.submitRead (routine_bodyRead msg)
    | set => exact h.submitRead (routine_bodyRead msg)

/-- A handler of a message keeps the connection open. -/
theorem steady_callHandler {s : Session} (h : Steady s.conn) (cfg : ServerConfig)
    {handler : ReadHandler} (hhandler : handler ≠ .receivedHello) :
    Steady (s.callHandler cfg false handler).conn := by
  cases handler with
  | receivedHello => exact absurd rfl hhandler
  | handleMessage =>
    show Steady (s.handleMessage cfg false).conn
    unfold handleMessage
    rw [if_neg (by simp)]
    split
    · exact h
    · apply steady_startReadMessage
      apply steady_dispatch
      exact ⟨⟨h.live.isOpen, h.live.onClosed, h.live.writes⟩, h.reads⟩
  | handleProcessedData msgp =>
    show Steady (s.handleProcessedData cfg msgp).conn
    unfold handleProcessedData
    split
    · exact h
    · exact @steady_apply { s with handled := s.handled ++ [(msgp, s.conn.storage.data)] } h _

/-- A HELLO is valid, or it closes the connection and starts no read. -/
theorem steady_receivedHello {s : Session} (h : Steady s.conn) (cfg : ServerConfig) :
    Steady (s.receivedHello cfg).conn ∨
      (helloValid s.conn.storage.data = false ∧ (s.receivedHello cfg).conn.isOpen = false ∧
        (s.receivedHello cfg).conn.onClosed = 1 ∧ (s.receivedHello cfg).conn.reads = s.conn.reads ∧
        (s.receivedHello cfg).conn.writes = s.conn.writes) := by
  rcases s.receivedHello_cases cfg with ⟨-, heq⟩ | ⟨-, heq⟩ | ⟨hvalid, heq⟩
  · rw [heq]
    exact Or.inl h
  · rw [heq]
    have hsteady : Steady s.deallocated.conn :=
      ⟨⟨h.live.isOpen, h.live.onClosed, h.live.writes⟩, h.reads⟩
    exact Or.inl (steady_startReadMessage hsteady)
  · rw [heq]
    exact Or.inr ⟨hvalid, rfl, congrArg (· + 1) h.live.onClosed, rfl, rfl⟩

end Session

/-! ## The life of a connection -/

inductive Life (c : TcpConnection Part) : Prop
  /-- The HELLO is being read. -/
  | greeting (number : Nat) : c.Live → c.reads.outstanding = [(number, helloRead)] →
      c.reads.pending = [] → Life c
  | steady : Steady c → Life c
  /-- It closed once, and nothing is left to complete. -/
  | closed : c.isOpen = false → c.onClosed = 1 → c.reads.outstanding = [] →
      c.writes.outstanding = [] → Life c

theorem Life.onClosed {c : TcpConnection Part} (h : Life c) :
    c.onClosed = if c.isOpen then 0 else 1 := by
  cases h with
  | greeting number hlive => rw [hlive.onClosed, hlive.isOpen, if_pos rfl]
  | steady hsteady => rw [hsteady.live.onClosed, hsteady.live.isOpen, if_pos rfl]
  | closed hopen hclosed => rw [hclosed, hopen, if_neg (by simp)]

theorem Life.onClosed_le_one {c : TcpConnection Part} (h : Life c) : c.onClosed ≤ 1 := by
  rw [h.onClosed]
  split <;> omega

theorem Life.isOpen_of_onClosed {c : TcpConnection Part} (h : Life c) (hzero : c.onClosed = 0) :
    c.isOpen = true := by
  by_contra hnot
  have hclosed := h.onClosed
  rw [if_neg hnot] at hclosed
  omega

/-- Updates do not end a life. -/
theorem Life.submitAll {c : TcpConnection Part} (h : Life c) (hopen : c.isOpen = true)
    (us : List Submission) : Life (us.foldl TcpConnection.submit c) := by
  have hsame := TcpConnection.sameReads_submitAll c us
  cases h with
  | greeting number hlive hout hpend =>
    exact .greeting number (hlive.submitAll us) (by rw [hsame.reads, hout])
      (by rw [hsame.reads, hpend])
  | steady hsteady => exact .steady (hsteady.submitAll us)
  | closed hnot => rw [hopen] at hnot; cases hnot

theorem Life.start (memory : Nat → Nat) : Life (TcpConnection.fresh memory).start :=
  .greeting 0 ⟨rfl, rfl, Direction.guarded_of_nil rfl⟩ rfl rfl

namespace Session

theorem atHandler_steady {s : Session} (hlive : s.conn.Live)
    (hpend : ∀ op ∈ s.conn.reads.pending, op.Routine) (number count : Nat) :
    Steady (s.atHandler number count).conn := by
  refine ⟨⟨hlive.isOpen, hlive.onClosed, hlive.writes⟩, Direction.guarded_of_nil rfl, ?_, hpend⟩
  intro o ho
  cases ho

theorem life_readDone {cfg : ServerConfig} {s s' : Session} {count : Nat} (h : Life s.conn)
    (halone : ClosesAlone s (.read count)) (hrun : s.readDone cfg count = some s') :
    Life s'.conn := by
  cases h with
  | greeting number hlive hout hpend =>
    obtain ⟨-, rfl⟩ := readDone_outstanding hout hrun
    have hsteady := atHandler_steady hlive (by simp [hpend]) number count
    rcases steady_receivedHello hsteady cfg with hgood | ⟨hvalid, hopen, hclosed, hreads, hwrites⟩
    · exact .steady (steady_performPendingRead hgood)
    · have hnone := halone (number, helloRead) (by simp [hout]) rfl hvalid
      have hempty : ((s.atHandler number count).receivedHello cfg).conn.reads.pending = [] := by
        rw [hreads]
        exact hpend
      show Life ((s.atHandler number count).receivedHello cfg).performPendingRead.conn
      rw [performPendingRead_nil hempty]
      refine .closed hopen hclosed (by rw [hreads]; rfl) ?_
      rw [hwrites]
      exact hnone
  | steady hsteady =>
    cases hout : s.conn.reads.outstanding with
    | nil =>
      simp only [readDone, hout] at hrun
      cases hrun
    | cons o rest =>
      obtain rfl := hsteady.reads.guarded.rest_nil hout
      obtain ⟨-, rfl⟩ := readDone_outstanding hout hrun
      apply Life.steady
      apply steady_performPendingRead
      apply steady_callHandler
      · exact atHandler_steady hsteady.live hsteady.reads.waiting o.1 count
      · exact (hsteady.reads.current o (by simp [hout])).2
  | closed hopen hclosed hreads hwrites =>
    simp only [readDone, hreads] at hrun
    cases hrun

/-- A required read that fails closes the connection, and that is all. -/
theorem readFails_closes {cfg : ServerConfig} {s s' : Session} (h : Life s.conn)
    (hrun : s.readFails cfg = some s') : s.conn.onClosed = 0 ∧
      ∃ reads, reads.outstanding = [] ∧
        s' = { s with conn := { s.conn with reads := reads }.close } := by
  have hfails : ∀ number op, op.required = true → s.conn.reads.outstanding = [(number, op)] →
      ∃ reads, reads.outstanding = [] ∧
        s' = { s with conn := { s.conn with reads := reads }.close } := by
    intro number op hrequired hout
    simp only [readFails, hout, handleData, hrequired, Bool.and_self, if_true] at hrun
    obtain rfl := Option.some.inj hrun
    exact ⟨_, rfl, rfl⟩
  cases h with
  | greeting number hlive hout hpend => exact ⟨hlive.onClosed, hfails number helloRead rfl hout⟩
  | steady hsteady =>
    cases hout : s.conn.reads.outstanding with
    | nil =>
      simp only [readFails, hout] at hrun
      cases hrun
    | cons o rest =>
      obtain rfl := hsteady.reads.guarded.rest_nil hout
      exact ⟨hsteady.live.onClosed,
        hfails o.1 o.2 (hsteady.reads.current o (by simp [hout])).1 hout⟩
  | closed hopen hclosed hreads hwrites =>
    simp only [readFails, hreads] at hrun
    cases hrun

theorem life_readFails {cfg : ServerConfig} {s s' : Session} (h : Life s.conn)
    (halone : ClosesAlone s .readFails) (hrun : s.readFails cfg = some s') : Life s'.conn := by
  obtain ⟨hclosed, reads, hout, rfl⟩ := readFails_closes h hrun
  exact .closed rfl (congrArg (· + 1) hclosed) hout halone

end Session

theorem life_writeDone {c c' : TcpConnection Part} {failed : Bool} {count : Nat} (h : Life c)
    (halone : failed = true → ∀ o ∈ c.writes.outstanding, o.2.required = true →
      c.reads.outstanding = []) (hdone : c.writeDone failed count = some c') : Life c' := by
  have hclose : (failed = true ∧ (∃ o ∈ c.writes.outstanding, o.2.required = true) ∧
      c'.isOpen = false ∧ c'.onClosed = 1 ∧ c'.reads = c.reads ∧ c'.writes.outstanding = []) →
      Life c' := by
    rintro ⟨hfailed, ⟨o, ho, hrequired⟩, hopen, hclosed, hreads, hwrites⟩
    exact .closed hopen hclosed (by rw [hreads]; exact halone hfailed o ho hrequired) hwrites
  cases h with
  | greeting number hlive hout hpend =>
    rcases hlive.writeDone hdone with ⟨hlive', hsame⟩ | hclosed
    · exact .greeting number hlive' (by rw [hsame.reads, hout]) (by rw [hsame.reads, hpend])
    · exact hclose hclosed
  | steady hsteady =>
    rcases hsteady.live.writeDone hdone with ⟨hlive', hsame⟩ | hclosed
    · exact .steady (hsteady.of_sameReads hlive' hsame)
    · exact hclose hclosed
  | closed hopen hclosed hreads hwrites =>
    simp only [TcpConnection.writeDone, hwrites] at hdone
    cases hdone

/-- The wait of an operation that is done has no effect. -/
theorem readWaitEnds_done {c c' : TcpConnection Part} {i : Nat} (hdone : c.reads.WaitDone i)
    (hends : c.readWaitEnds i = some c') :
    c' = { c with reads := { c.reads with waits := c.reads.waits.eraseIdx i } } := by
  obtain ⟨w, hw, hends⟩ := Option.bind_eq_some_iff.mp hends
  obtain ⟨done, hd, hends⟩ := Option.bind_eq_some_iff.mp hends
  obtain rfl := Option.some.inj ((hdone w hw).symm.trans hd)
  exact (Option.some.inj hends).symm

theorem writeWaitEnds_done {c c' : TcpConnection Part} {i : Nat} (hdone : c.writes.WaitDone i)
    (hends : c.writeWaitEnds i = some c') :
    c' = { c with writes := { c.writes with waits := c.writes.waits.eraseIdx i } } := by
  obtain ⟨w, hw, hends⟩ := Option.bind_eq_some_iff.mp hends
  obtain ⟨done, hd, hends⟩ := Option.bind_eq_some_iff.mp hends
  obtain rfl := Option.some.inj ((hdone w hw).symm.trans hd)
  exact (Option.some.inj hends).symm

theorem life_readWaits {c : TcpConnection Part} (h : Life c) (waits : List Wait) :
    Life { c with reads := { c.reads with waits := waits } } := by
  cases h with
  | greeting number hlive hout hpend =>
    exact .greeting number ⟨hlive.isOpen, hlive.onClosed, hlive.writes⟩ hout hpend
  | steady hsteady =>
    exact .steady ⟨⟨hsteady.live.isOpen, hsteady.live.onClosed, hsteady.live.writes⟩,
      hsteady.reads.guarded.of_same rfl rfl, hsteady.reads.current, hsteady.reads.waiting⟩
  | closed hopen hclosed hreads hwrites => exact .closed hopen hclosed hreads hwrites

theorem life_writeWaits {c : TcpConnection Part} (h : Life c) (waits : List Wait) :
    Life { c with writes := { c.writes with waits := waits } } := by
  cases h with
  | greeting number hlive hout hpend =>
    exact .greeting number ⟨hlive.isOpen, hlive.onClosed, hlive.writes.of_same rfl rfl⟩ hout hpend
  | steady hsteady =>
    exact .steady ⟨⟨hsteady.live.isOpen, hsteady.live.onClosed,
      hsteady.live.writes.of_same rfl rfl⟩, hsteady.reads⟩
  | closed hopen hclosed hreads hwrites => exact .closed hopen hclosed hreads hwrites

/-- A step that closes alone keeps the connection in its life, and a closed one closed. -/
theorem life_step {cfg : ServerConfig} {s s' : Session} {e : ConnectionEvent} (h : Life s.conn)
    (hexternal : e.isExternal = true) (halone : ClosesAlone s e)
    (hstep : connectionStep cfg s e = some s') :
    Life s'.conn ∧ s.conn.onClosed ≤ s'.conn.onClosed := by
  have hclosed : Life s'.conn → (s.conn.isOpen = false → s'.conn.onClosed = s.conn.onClosed) →
      Life s'.conn ∧ s.conn.onClosed ≤ s'.conn.onClosed := by
    intro hlife hsame
    refine ⟨hlife, ?_⟩
    by_cases hopen : s.conn.isOpen = true
    · rw [h.onClosed, if_pos hopen]
      exact Nat.zero_le _
    · exact Nat.le_of_eq (hsame (by simpa using hopen)).symm
  -- a closed connection has nothing to complete
  have hnothing : s.conn.isOpen = false →
      s.conn.reads.outstanding = [] ∧ s.conn.writes.outstanding = [] := by
    intro hopen
    cases h with
    | greeting number hlive => rw [hlive.isOpen] at hopen; cases hopen
    | steady hsteady => rw [hsteady.live.isOpen] at hopen; cases hopen
    | closed _ _ hreads hwrites => exact ⟨hreads, hwrites⟩
  unfold connectionStep at hstep
  split at hstep
  · cases hstep
  · cases e with
    | read count =>
      apply hclosed (Session.life_readDone h halone hstep)
      intro hopen
      simp only [Session.readDone, (hnothing hopen).1] at hstep
      cases hstep
    | readFails =>
      apply hclosed (Session.life_readFails h halone hstep)
      intro hopen
      simp only [Session.readFails, (hnothing hopen).1] at hstep
      cases hstep
    | written count =>
      obtain ⟨conn, hconn, rfl⟩ := Option.map_eq_some_iff.mp hstep
      apply hclosed (life_writeDone h (by simp) hconn)
      intro hopen
      simp only [TcpConnection.writeDone, (hnothing hopen).2] at hconn
      cases hconn
    | writeFails count =>
      obtain ⟨conn, hconn, rfl⟩ := Option.map_eq_some_iff.mp hstep
      apply hclosed (life_writeDone h (fun _ => halone) hconn)
      intro hopen
      simp only [TcpConnection.writeDone, (hnothing hopen).2] at hconn
      cases hconn
    | readWaitEnds i =>
      obtain ⟨conn, hconn, rfl⟩ := Option.map_eq_some_iff.mp hstep
      obtain rfl := readWaitEnds_done halone hconn
      exact ⟨life_readWaits h _, Nat.le_refl _⟩
    | writeWaitEnds i =>
      obtain ⟨conn, hconn, rfl⟩ := Option.map_eq_some_iff.mp hstep
      obtain rfl := writeWaitEnds_done halone hconn
      exact ⟨life_writeWaits h _, Nat.le_refl _⟩
    | submitted op => cases hexternal
    | database db => cases hexternal

/-! ## What a step announces -/

namespace Session

theorem apply_handled (s : Session) (r : Except DataError Effect) :
    (s.apply r).handled = s.handled := by
  cases r <;> rfl

theorem dispatch_handled (cfg : ServerConfig) (s : Session) (msg : MessagePreamble) :
    (s.dispatch cfg msg).handled = s.handled := by
  unfold dispatch
  cases dispatcher msg.id with
  | none => rfl
  | some handler =>
    cases handler with
    | getAll => exact apply_handled { s with dispatched := s.dispatched ++ [msg] } _
    | ping => rfl
    | get => rfl
    | set => rfl

theorem callHandler_handled (cfg : ServerConfig) (s : Session) (failed : Bool)
    (handler : ReadHandler) : (s.callHandler cfg failed handler).handled = s.handled ∨
      ∃ msgp, handler = .handleProcessedData msgp ∧ (s.callHandler cfg failed handler).handled =
        s.handled ++ [(msgp, s.conn.storage.data)] := by
  cases handler with
  | receivedHello =>
    apply Or.inl
    show (s.receivedHello cfg).handled = s.handled
    rcases s.receivedHello_cases cfg with ⟨-, heq⟩ | ⟨-, heq⟩ | ⟨-, heq⟩
    · rw [heq]
    · rw [heq]
      exact (sameData_startReadMessage _).handled
    · rw [heq]
      rfl
  | handleMessage =>
    apply Or.inl
    show (s.handleMessage cfg failed).handled = s.handled
    unfold handleMessage
    split
    · rfl
    · split
      · rfl
      · dsimp only
        rw [(sameData_startReadMessage _).handled, dispatch_handled]
  | handleProcessedData msgp =>
    by_cases hfails : s.storageFails cfg .binary = true
    · apply Or.inl
      show (s.handleProcessedData cfg msgp).handled = s.handled
      unfold handleProcessedData
      rw [if_pos hfails]
    · refine Or.inr ⟨msgp, rfl, ?_⟩
      show (s.handleProcessedData cfg msgp).handled = s.handled ++ [(msgp, s.conn.storage.data)]
      unfold handleProcessedData
      rw [if_neg hfails]
      exact apply_handled _ _

end Session

/-- A body is given to its handler when its read is done. -/
theorem readDone_handled {cfg : ServerConfig} {s s' : Session} {count : Nat}
    (hrun : s.readDone cfg count = some s') : s'.handled = s.handled ∨
      ∃ o ∈ s.conn.reads.outstanding, ∃ msgp body, o.2.handler = .handleProcessedData msgp ∧
        s'.handled = s.handled ++ [(msgp, body)] := by
  unfold Session.readDone at hrun
  split at hrun
  · cases hrun
  · rename_i number op rest hout
    split at hrun
    · obtain rfl := Option.some.inj hrun
      unfold Session.handleData
      dsimp only
      simp only [Bool.and_false, Bool.false_eq_true, if_false]
      rw [(Session.sameData_performPendingRead _).handled]
      rcases Session.callHandler_handled cfg _ false op.handler with hsame | ⟨msgp, hmsgp, hnew⟩
      · exact Or.inl hsame
      · exact Or.inr ⟨(number, op), by simp [hout], msgp, _, hmsgp, hnew⟩
    · cases hrun

/-- Only a SET is announced to the other connections. -/
theorem broadcast_set {w : Nat} {db : Db} {msgp : MessagePreamble} {body : List UInt8} {e : Effect}
    (h : bodyRequest w db msgp body = .ok e) (hne : e.broadcast ≠ []) : msgp.id = requestSet := by
  unfold bodyRequest at h
  cases hhandler : dispatcher msgp.id with
  | none =>
    rw [hhandler] at h
    obtain rfl := Except.ok.inj h
    exact absurd rfl hne
  | some handler =>
    have hmem := mem_of_dispatcher hhandler
    rw [hhandler] at h
    cases handler with
    | set => simpa using hmem
    | get =>
      obtain ⟨key, -, h⟩ := bind_eq_ok.mp h
      obtain ⟨u, -, h⟩ := bind_eq_ok.mp h
      obtain rfl := Except.ok.inj h
      exact absurd rfl hne
    | ping =>
      obtain rfl := Except.ok.inj h
      exact absurd rfl hne
    | getAll =>
      obtain rfl := Except.ok.inj h
      exact absurd rfl hne

/-- What a step announces, it does by a SET whose body was read. -/
theorem readsSet_of_announced {cfg : ServerConfig} {s s' : Session} {e : ConnectionEvent}
    (h : Life s.conn) (hstep : connectionStep cfg s e = some s') (hne : announced cfg s s' ≠ []) :
    ReadsSet s e := by
  have hquiet : s'.handled ≠ s.handled := by
    intro hsame
    apply hne
    rw [announced, hsame, List.drop_length]
    rfl
  obtain ⟨-, ⟨count, rfl, hread⟩ | ⟨rfl, hfails⟩ | ⟨-, db, conn, -, rfl⟩⟩ :=
    connectionStep_cases hstep
  · rcases readDone_handled hread with hsame | ⟨o, ho, msgp, body, hhandler, hnew⟩
    · exact absurd hsame hquiet
    · refine ⟨o, ho, msgp, hhandler, ?_⟩
      rw [announced, hnew, List.drop_left] at hne
      cases heffect : bodyRequest cfg.width s.db msgp body with
      | ok e => exact broadcast_set heffect (by simpa [heffect] using hne)
      | error e => exact absurd (by simp [heffect]) hne
  · obtain ⟨-, reads, -, rfl⟩ := Session.readFails_closes h hfails
    exact absurd rfl hquiet
  · exact absurd rfl hquiet

/-! ## The registry -/

/-- The registry and the posted calls fit the connections. -/
structure Server.Sound (sv : Server) : Prop where
  life : ∀ (i : Nat), ∀ a ∈ sv.accepted[i]?, Life a.session.conn
  /-- An open connection is registered. -/
  registered : ∀ (i : Nat), ∀ a ∈ sv.accepted[i]?, a.session.conn.isOpen = true →
    sv.connections.lookup a.id = some i
  /-- A closed connection whose removal is posted is still registered. -/
  waiting : ∀ i ∈ sv.posted, ∃ a ∈ sv.accepted[i]?, sv.connections.lookup a.id = some i
  /-- Each emission of `on_closed_` is posted once, or was executed. -/
  counted : ∀ (i : Nat), ∀ a ∈ sv.accepted[i]?,
    sv.posted.count i + (sv.removed.map Prod.fst).count i = a.session.conn.onClosed
  known : ∀ r ∈ sv.removed, r.1 < sv.accepted.length
  own : ∀ r ∈ sv.removed, r.2 = some r.1

theorem Server.Sound.closesOnce {sv : Server} (h : sv.Sound) : ClosesOnce sv := by
  have hemitted : ∀ (i : Nat), ∀ a ∈ sv.accepted[i]?, a.session.conn.onClosed ≤ 1 := by
    intro i a ha
    rw [(h.life i a ha).onClosed]
    split <;> omega
  constructor
  · intro a ha
    obtain ⟨i, hi⟩ := List.mem_iff_getElem?.mp ha
    exact hemitted i a hi
  · rw [List.nodup_iff_count_le_one]
    intro i
    by_cases hi : i < sv.accepted.length
    · have ha : sv.accepted[i]? = some sv.accepted[i] := List.getElem?_eq_getElem hi
      have hcount := h.counted i _ ha
      have hle := hemitted i _ ha
      omega
    · rw [List.count_eq_zero.mpr]
      · omega
      · intro hmem
        obtain ⟨r, hr, rfl⟩ := List.mem_map.mp hmem
        exact hi (h.known r hr)
  · intro r hr i hi
    rw [h.own r hr] at hi
    exact (Option.some.inj hi).symm

theorem mem_getElem?_concat {α : Type} {l : List α} {x a : α} {i : Nat} (h : a ∈ (l ++ [x])[i]?) :
    a ∈ l[i]? ∨ (i = l.length ∧ a = x) := by
  rcases Nat.lt_trichotomy i l.length with hlt | heq | hgt
  · rw [List.getElem?_append_left hlt] at h
    exact Or.inl h
  · rw [heq, List.getElem?_concat_length] at h
    exact Or.inr ⟨heq, (Option.some.inj h).symm⟩
  · rw [List.getElem?_eq_none (by simp; omega)] at h
    cases h

namespace Server.Sound

theorem closed_of_posted {sv : Server} (h : sv.Sound) {i : Nat} {a : Accepted}
    (ha : a ∈ sv.accepted[i]?) (hi : i ∈ sv.posted) :
    a.session.conn.isOpen = false ∧ sv.posted.count i = 1 := by
  have hpos : 0 < sv.posted.count i := List.count_pos_iff.mpr hi
  have hcount := h.counted i a ha
  have honce := (h.life i a ha).onClosed
  split at honce
  · omega
  · rename_i hopen
    exact ⟨by simpa using hopen, by omega⟩

theorem start (db : Db) : ({ db := db } : Server).Sound := by
  constructor <;> simp

theorem handleAccept {sv : Server} (h : sv.Sound) {id : Nat}
    (hfree : sv.connections.lookup id = none) (memory : Nat → Nat) (stream : List UInt8) :
    (sv.handleAccept id memory stream).Sound := by
  have hother : ∀ {id' n}, sv.connections.lookup id' = some n →
      (upsert id sv.accepted.length sv.connections).lookup id' = some n := by
    intro id' n hlookup
    have hne : id' ≠ id := by
      rintro rfl
      rw [hfree] at hlookup
      cases hlookup
    rw [lookup_upsert, if_neg hne, hlookup]
  have hbound : ∀ i ∈ sv.posted, i < sv.accepted.length := by
    intro i hi
    obtain ⟨a, ha, -⟩ := h.waiting i hi
    exact (List.getElem?_eq_some_iff.mp ha).1
  constructor
  · intro i a ha
    rcases mem_getElem?_concat ha with hold | ⟨-, rfl⟩
    · exact h.life i a hold
    · exact Life.start memory
  · intro i a ha hopen
    rcases mem_getElem?_concat ha with hold | ⟨rfl, rfl⟩
    · exact hother (h.registered i a hold hopen)
    · exact (lookup_upsert _ _ _ _).trans (if_pos rfl)
  · intro i hi
    obtain ⟨a, ha, hlookup⟩ := h.waiting i hi
    refine ⟨a, ?_, hother hlookup⟩
    exact (List.getElem?_append_left (hbound i hi)).trans ha
  · intro i a ha
    rcases mem_getElem?_concat ha with hold | ⟨rfl, rfl⟩
    · exact h.counted i a hold
    · have hposted : sv.posted.count sv.accepted.length = 0 := by
        rw [List.count_eq_zero]
        intro hmem
        exact Nat.lt_irrefl _ (hbound _ hmem)
      have hremoved : (sv.removed.map Prod.fst).count sv.accepted.length = 0 := by
        rw [List.count_eq_zero]
        intro hmem
        obtain ⟨r, hr, heq⟩ := List.mem_map.mp hmem
        exact Nat.lt_irrefl _ (heq ▸ h.known r hr)
      show sv.posted.count sv.accepted.length +
        (sv.removed.map Prod.fst).count sv.accepted.length = 0
      rw [hposted, hremoved]
  · intro r hr
    exact (h.known r hr).trans_le (by simp [Server.handleAccept])
  · exact h.own

theorem handleConnectionRemove {sv sv' : Server} (h : sv.Sound)
    (hstep : sv.handleConnectionRemove = some sv') : sv'.Sound := by
  unfold Server.handleConnectionRemove at hstep
  split at hstep
  · cases hstep
  · rename_i i rest hposted
    obtain ⟨a, ha, hstep⟩ := Option.bind_eq_some_iff.mp hstep
    obtain rfl := Option.some.inj hstep
    have hi : i ∈ sv.posted := hposted ▸ List.mem_cons_self
    obtain ⟨hclosed, honce⟩ := h.closed_of_posted ha hi
    obtain ⟨a', ha', hlookup⟩ := h.waiting i hi
    obtain rfl := Option.some.inj (ha.symm.trans ha')
    have hkeep : ∀ {id n}, sv.connections.lookup id = some n → n ≠ i →
        (SortedAssoc.remove a.id sv.connections).lookup id = some n := by
      intro id n hn hne
      have hid : id ≠ a.id := by
        rintro rfl
        exact hne (Option.some.inj (hn.symm.trans hlookup))
      rw [lookup_remove, if_neg hid, hn]
    constructor
    · exact h.life
    · intro j b hb hopen
      apply hkeep (h.registered j b hb hopen)
      rintro rfl
      obtain rfl := Option.some.inj (ha.symm.trans hb)
      rw [hclosed] at hopen
      cases hopen
    · intro j hj
      obtain ⟨b, hb, hlookup'⟩ := h.waiting j (hposted ▸ List.mem_cons_of_mem _ hj)
      refine ⟨b, hb, hkeep hlookup' ?_⟩
      rintro rfl
      rw [hposted, List.count_cons_self] at honce
      have hpos : 0 < rest.count j := List.count_pos_iff.mpr hj
      omega
    · intro j b hb
      have hcount := h.counted j b hb
      rw [hposted, List.count_cons] at hcount
      show rest.count j +
        ((sv.removed ++ [(i, sv.connections.lookup a.id)]).map Prod.fst).count j = _
      rw [List.map_append, List.count_append, ← hcount]
      simp only [List.map_cons, List.map_nil, List.count_singleton]
      omega
    · intro r hr
      rcases List.mem_append.mp hr with hold | hnew
      · exact h.known r hold
      · rw [List.mem_singleton.mp hnew]
        exact (List.getElem?_eq_some_iff.mp ha).1
    · intro r hr
      rcases List.mem_append.mp hr with hold | hnew
      · exact h.own r hold
      · rw [List.mem_singleton.mp hnew]
        exact hlookup

/-- The other connections are as they were, or get the updates of a SET. -/
theorem mem_stepped {cfg : ServerConfig} {sv : Server} {i j : Nat} {s s' : Session} {b' : Accepted}
    (hb' : b' ∈ (sv.stepped cfg i s s').accepted[j]?) : ∃ b ∈ sv.accepted[j]?, b'.id = b.id ∧
      ((j = i ∧ b'.session = s') ∨ (j ≠ i ∧ b'.session.conn = b.session.conn) ∨
        (j ≠ i ∧ sv.isRegistered j = true ∧ announced cfg s s' ≠ [] ∧
          b'.session.conn = (announced cfg s s').foldl TcpConnection.submit b.session.conn)) := by
  simp only [Server.stepped, List.getElem?_mapIdx, Option.mem_def, Option.map_eq_some_iff] at hb'
  obtain ⟨b, hb, rfl⟩ := hb'
  refine ⟨b, hb, ?_⟩
  by_cases hj : j = i
  · rw [if_pos hj]
    exact ⟨rfl, Or.inl ⟨hj, rfl⟩⟩
  · rw [if_neg hj]
    by_cases hreg : sv.isRegistered j = true
    · rw [if_pos hreg]
      by_cases hnone : announced cfg s s' = []
      · exact ⟨rfl, Or.inr (Or.inl ⟨hj, by rw [hnone]; rfl⟩)⟩
      · exact ⟨rfl, Or.inr (Or.inr ⟨hj, hreg, hnone, rfl⟩)⟩
    · rw [if_neg hreg]
      exact ⟨rfl, Or.inr (Or.inl ⟨hj, rfl⟩)⟩

theorem exists_stepped {sv : Server} {j : Nat} {b : Accepted} (cfg : ServerConfig) (i : Nat)
    (s s' : Session) (hb : b ∈ sv.accepted[j]?) :
    ∃ b' ∈ (sv.stepped cfg i s s').accepted[j]?, b'.id = b.id := by
  refine ⟨_, by rw [Server.stepped, List.getElem?_mapIdx, hb]; rfl, ?_⟩
  split
  · rfl
  · split <;> rfl

/-- A connection other than `i` goes on with its life, open or not as it was. -/
theorem stepped_cases {cfg : ServerConfig} {sv : Server} (h : sv.Sound) {i j : Nat} {s s' : Session}
    (hopen : announced cfg s s' ≠ [] → ∀ (j : Nat), sv.isRegistered j = true →
      ∀ b ∈ sv.accepted[j]?, b.session.conn.isOpen = true) {b' : Accepted}
    (hb' : b' ∈ (sv.stepped cfg i s s').accepted[j]?) : ∃ b ∈ sv.accepted[j]?, b'.id = b.id ∧
      ((j = i ∧ b'.session = s') ∨ (j ≠ i ∧ Life b'.session.conn ∧
        b'.session.conn.isOpen = b.session.conn.isOpen)) := by
  obtain ⟨b, hb, hid, hself | ⟨hj, hsame⟩ | ⟨hj, hreg, hne, hsubmit⟩⟩ := mem_stepped hb'
  · exact ⟨b, hb, hid, Or.inl hself⟩
  · refine ⟨b, hb, hid, Or.inr ⟨hj, ?_⟩⟩
    rw [hsame]
    exact ⟨h.life j b hb, rfl⟩
  · refine ⟨b, hb, hid, Or.inr ⟨hj, ?_⟩⟩
    rw [hsubmit]
    exact ⟨(h.life j b hb).submitAll (hopen hne j hreg b hb) _,
      (TcpConnection.sameReads_submitAll _ _).isOpen⟩

theorem stepped {cfg : ServerConfig} {sv : Server} (h : sv.Sound) {i : Nat} {a : Accepted}
    (ha : a ∈ sv.accepted[i]?) {s s' : Session} (hs : s.conn = a.session.conn)
    (hlife : Life s'.conn) (hmono : s.conn.onClosed ≤ s'.conn.onClosed)
    (hopen : announced cfg s s' ≠ [] → ∀ (j : Nat), sv.isRegistered j = true →
      ∀ b ∈ sv.accepted[j]?, b.session.conn.isOpen = true) :
    (sv.stepped cfg i s s').Sound := by
  have hfirst := hlife.onClosed_le_one
  -- the connection `i` was open before, if it has not been closed since
  have hregistered : s.conn.onClosed = 0 → sv.connections.lookup a.id = some i := by
    intro hzero
    exact h.registered i a ha ((h.life i a ha).isOpen_of_onClosed (hs ▸ hzero))
  constructor
  · intro j b' hb'
    obtain ⟨b, hb, -, ⟨rfl, hsession⟩ | ⟨-, hlife', -⟩⟩ := h.stepped_cases hopen hb'
    · rw [hsession]
      exact hlife
    · exact hlife'
  · intro j b' hb' hbopen
    obtain ⟨b, hb, hid, ⟨rfl, hsession⟩ | ⟨-, -, hsame⟩⟩ := h.stepped_cases hopen hb'
    · obtain rfl := Option.some.inj (ha.symm.trans hb)
      have hzero := hlife.onClosed
      rw [hsession] at hbopen
      rw [if_pos hbopen] at hzero
      rw [hid]
      exact hregistered (by omega)
    · rw [hid]
      exact h.registered j b hb (hsame ▸ hbopen)
  · intro j hj
    have hkept : ∀ b ∈ sv.accepted[j]?, sv.connections.lookup b.id = some j →
        ∃ b' ∈ (sv.stepped cfg i s s').accepted[j]?, sv.connections.lookup b'.id = some j := by
      intro b hb hlookup
      obtain ⟨b', hb', hid⟩ := exists_stepped cfg i s s' hb
      exact ⟨b', hb', by rw [hid, hlookup]⟩
    rcases List.mem_append.mp hj with hold | hnew
    · obtain ⟨b, hb, hlookup⟩ := h.waiting j hold
      exact hkept b hb hlookup
    · obtain ⟨hk, rfl⟩ := List.mem_replicate.mp hnew
      exact hkept a ha (hregistered (by omega))
  · intro j b' hb'
    have hcount : ∀ b ∈ sv.accepted[j]?, (sv.stepped cfg i s s').posted.count j +
        (sv.removed.map Prod.fst).count j =
          b.session.conn.onClosed + if i = j then s'.conn.onClosed - s.conn.onClosed else 0 := by
      intro b hb
      rw [← h.counted j b hb]
      show (sv.posted ++ List.replicate _ i).count j + _ = _
      rw [List.count_append, List.count_replicate]
      simp only [beq_iff_eq]
      omega
    obtain ⟨b, hb, -, ⟨rfl, hsession⟩ | ⟨hj, hlife', hsame⟩⟩ := h.stepped_cases hopen hb'
    · obtain rfl := Option.some.inj (ha.symm.trans hb)
      apply (hcount a ha).trans
      rw [if_pos rfl, hsession, ← hs]
      omega
    · apply (hcount b hb).trans
      rw [if_neg (Ne.symm hj), hlife'.onClosed, hsame, (h.life j b hb).onClosed]
      rfl
  · intro r hr
    exact (h.known r hr).trans_eq (by simp [Server.stepped])
  · exact h.own

end Server.Sound

theorem sound_step {cfg : ServerConfig} {sv sv' : Server} {e : ServerEvent} (h : sv.Sound)
    (hcond : Untangled sv e) (hstep : sv.step cfg e = some sv') : sv'.Sound := by
  cases Server.step_cases hstep with
  | accept id memory stream => exact h.handleAccept hcond memory stream
  | remove _ _ _ hremove => exact h.handleConnectionRemove hremove
  | connection i a e s' hexternal ha hs' =>
    obtain ⟨halone, hset⟩ := hcond a ha
    have hlife := h.life i a ha
    obtain ⟨hlife', hmono⟩ := @life_step cfg { a.session with db := sv.db } s' e hlife hexternal
      (by cases e <;> exact halone) hs'
    refine h.stepped ha rfl hlife' hmono ?_
    intro hne
    apply hset
    have hreads := @readsSet_of_announced cfg { a.session with db := sv.db } s' e hlife hs' hne
    cases e <;> exact hreads

/-- In every run whose steps are untangled, each connection is closed once, and is removed
by its own call. -/
theorem closes_once {cfg : ServerConfig} {db : Db} {es : List ServerEvent} {sv : Server}
    (hcond : Along (Server.step cfg) Untangled { db := db } es)
    (hrun : run (Server.step cfg) { db := db } es = some sv) : ClosesOnce sv :=
  (run_invariant Server.Sound sound_step (Server.Sound.start db) hcond hrun).closesOnce

/-- A client sends something else than a HELLO. -/
theorem closes_once_invalid : ∃ sv, run (Server.step ⟨64, false, fun _ => 0⟩) { db := Db.empty }
    [.accept 10 (fun _ => 0) [1], .connection 0 (.read 1), .remove] = some sv ∧
    sv.removed = [(0, some 0)] ∧ ClosesOnce sv := by
  refine ⟨_, rfl, rfl, @closes_once ⟨64, false, fun _ => 0⟩ Db.empty
    [.accept 10 (fun _ => 0) [1], .connection 0 (.read 1), .remove] _ ⟨rfl, ?_⟩ rfl⟩
  intro sv₁ h₁
  obtain rfl := Option.some.inj h₁
  refine ⟨?_, ?_⟩
  · intro a ha
    obtain rfl := Option.some.inj ha
    refine ⟨fun o ho _ _ => rfl, ?_⟩
    rintro ⟨o, ho, msgp, hhandler, -⟩
    obtain rfl := List.mem_singleton.mp ho
    cases hhandler
  · intro sv₂ _
    exact ⟨trivial, fun _ _ => trivial⟩

/-- The time of a HELLO is over while its read is outstanding.  The read completes with an
error, the connection closes again, and the second removal meets a new connection that
has the id of the first one. -/
theorem timeout_closes_twice : ∃ sv, run (Server.step ⟨64, false, fun _ => 0⟩) { db := Db.empty }
    [.accept 10 (fun _ => 0) [], .connection 0 (.readWaitEnds 0), .connection 0 .readFails, .remove,
      .accept 10 (fun _ => 0) [], .remove] = some sv ∧ sv.removed = [(0, some 0), (0, some 1)] ∧
    (sv.accepted.map fun a => a.session.conn.onClosed) = [2, 0] ∧ ¬ ClosesOnce sv := by
  refine ⟨_, rfl, rfl, rfl, ?_⟩
  intro h
  exact absurd (h.own (0, some 1) (by decide) 1 rfl) (by decide)

end StateDb
