/-
  StateDb/DeferralRuns.lean
  =========================
  **The queues of the server's connections.**

  The operations of `Connection.lean` are calls of `Deferral.lean`: the messages are those that
  the server reads, the handlers are the functions that it binds, and a binary write is of the
  memory of its data.  Every run of a connection, statement by statement, is a run of the queues
  (`machine_deferral`).
-/
import StateDb.Deferral

namespace StateDb.Deferral

open Lib Lib.Action

/-- The messages that the server reads. -/
inductive MessageType where
  | hello
  | preamble
deriving DecidableEq, Repr

/-- The functions that are bound to reads, and the writes that the handler of a write submits. -/
abbrev Handler := ReadHandler ⊕ List (WriteOp Part)

abbrev Calls := Request MessageType Part Part Handler

def partContents (data : Part) (i : Nat) : UInt8 := (Wire.bytes data).getD i 0

def ofRead (op : ReadOp) : Calls :=
  match op.kind with
  | .hello => .readMessage .hello (.inl op.handler) op.timeout op.required
  | .preamble => .readMessage .preamble (.inl op.handler) op.timeout op.required
  | .binary amount => .readRaw amount (.inl op.handler) op.timeout op.required

def ofWrite (op : WriteOp Part) : Calls :=
  match op.kind with
  | .message => .writeMessage op.data (.inr op.next) op.timeout op.required
  | .raw => .writeRaw op.data (Wire.bytes op.data).length (.inr op.next) op.timeout op.required

/-- The record of a call, with its timeout. -/
def recordOf (r : Calls) : PendingOperation MessageType Part Part Handler := r.record r.timeout

def startedOf (r : Calls) : Started MessageType Part Handler := r.started partContents r.timeout

abbrev Queues := Connection MessageType Part Part Handler

/-! ## One direction -/

/-- The flag, the queue and what was started are those of the direction. -/
structure ShowsLane {O : Type} (ofOp : O → Calls) (d : Direction O) (log : List (Nat × O))
    (l : Lane MessageType Part Part Handler) : Prop where
  inProgress : l.inProgress = d.inProgress
  pending : l.pending.map Prod.snd = d.pending.map fun op => recordOf (ofOp op)
  started : l.started.map Prod.snd = log.map fun o => startedOf (ofOp o.2)

namespace ShowsLane

variable {O : Type} {ofOp : O → Calls} {d d' : Direction O} {log : List (Nat × O)}
  {l : Lane MessageType Part Part Handler} {n : History MessageType Part Part Handler}

theorem of_same (h : ShowsLane ofOp d log l) (hflag : d'.inProgress = d.inProgress)
    (hpend : d'.pending = d.pending) : ShowsLane ofOp d' log l :=
  ⟨h.inProgress.trans hflag.symm, hpend ▸ h.pending, h.started⟩

theorem push (h : ShowsLane ofOp d log l) (op : O) :
    ShowsLane ofOp (d.push op) log (l.push n (recordOf (ofOp op))) := by
  refine ⟨h.inProgress, ?_, h.started⟩
  simp [Lane.push, Direction.push, h.pending]

theorem start (h : ShowsLane ofOp d log l) (op : O) (timeout : Nat) :
    ShowsLane ofOp (d.start op timeout) (log ++ [(d.operationDone.length, op)])
      (l.start n (startedOf (ofOp op))) := by
  refine ⟨?_, ?_, ?_⟩
  · rw [Direction.start_inProgress]
    rfl
  · rw [Direction.start_pending]
    exact h.pending
  · simp [Lane.start, h.started]

/-- The operation that waits longest. -/
theorem pop (h : ShowsLane ofOp d log l) {op : O} {rest : List O} (hpend : d.pending = op :: rest) :
    ∃ n rest', l.pending = (n, recordOf (ofOp op)) :: rest' ∧
      ShowsLane ofOp { d with pending := rest } log { l with pending := rest' } := by
  have hmap := h.pending
  rw [hpend, List.map_cons] at hmap
  obtain ⟨e, rest', hl, he, hrest⟩ := List.map_eq_cons_iff.mp hmap
  exact ⟨e.1, rest', by rw [hl, ← he], ⟨h.inProgress, hrest, h.started⟩⟩

theorem pending_nil (h : ShowsLane ofOp d log l) (hpend : d.pending = []) : l.pending = [] := by
  have hmap := h.pending
  rw [hpend, List.map_nil] at hmap
  exact List.map_eq_nil_iff.mp hmap

end ShowsLane

/-! ## A connection -/

/-- The queues are those of the connection; `rs` and `ws` are the reads and writes that were
started. -/
structure Shows (conn : TcpConnection Part) (rs : List (Nat × ReadOp))
    (ws : List (Nat × WriteOp Part)) (c : Queues) : Prop where
  reads : ShowsLane ofRead conn.reads rs c.reads
  writes : ShowsLane ofWrite conn.writes ws c.writes
  memory : ∀ i, c.memory i = conn.memory i
  constructed : c.constructed = conn.constructed

/-- The flags, the queues and the memory are the same. -/
structure SameQueues (conn conn' : TcpConnection Part) : Prop where
  reading : conn'.reads.inProgress = conn.reads.inProgress
  reads : conn'.reads.pending = conn.reads.pending
  writing : conn'.writes.inProgress = conn.writes.inProgress
  writes : conn'.writes.pending = conn.writes.pending
  memory : conn'.memory = conn.memory
  constructed : conn'.constructed = conn.constructed

namespace Shows

variable {conn conn' : TcpConnection Part} {rs : List (Nat × ReadOp)}
  {ws : List (Nat × WriteOp Part)} {c : Queues}

theorem same (h : Shows conn rs ws c) (hsame : SameQueues conn conn') : Shows conn' rs ws c where
  reads := h.reads.of_same hsame.reading hsame.reads
  writes := h.writes.of_same hsame.writing hsame.writes
  memory i := by
    rw [hsame.memory]
    exact h.memory i
  constructed := h.constructed.trans hsame.constructed.symm

theorem submitRead (h : Shows conn rs ws c) (n : History MessageType Part Part Handler)
    (op : ReadOp) :
    Shows (conn.submitRead op) (rs ++ starts (conn.reads.claim op)) ws
      (c.perform partContents n (recordOf (ofRead op))) := by
  cases hprog : conn.reads.inProgress with
  | false =>
    have hfree := h.reads.inProgress.trans hprog
    have hperform : c.perform partContents n (recordOf (ofRead op)) =
        { c with reads := c.reads.start n (startedOf (ofRead op)) } := by
      obtain ⟨kind, handler, timeout, required⟩ := op
      cases kind <;> exact if_neg (by simp [hfree])
    rw [hperform, TcpConnection.submitRead_free hprog, Direction.claim, hprog]
    exact ⟨h.reads.start op op.timeout, h.writes, h.memory, h.constructed⟩
  | true =>
    have htaken := h.reads.inProgress.trans hprog
    have hperform : c.perform partContents n (recordOf (ofRead op)) =
        { c with reads := c.reads.push n (recordOf (ofRead op)) } := by
      obtain ⟨kind, handler, timeout, required⟩ := op
      cases kind <;> exact if_pos htaken
    rw [hperform, TcpConnection.submitRead_taken hprog, Direction.claim, hprog]
    exact ⟨(List.append_nil rs).symm ▸ h.reads.push op, h.writes, h.memory, h.constructed⟩

theorem perform_free (h : Shows conn rs ws c) (hprog : conn.writes.inProgress = false)
    (n : History MessageType Part Part Handler) {op : WriteOp Part} (hkept : op.dropped = false) :
    Shows (conn.perform op) rs (ws ++ [(conn.writes.operationDone.length, op)])
      (c.perform partContents n (recordOf (ofWrite op))) := by
  have hfree := h.writes.inProgress.trans hprog
  have hperform : c.perform partContents n (recordOf (ofWrite op)) =
      { c with writes := c.writes.start n (startedOf (ofWrite op)) } := by
    obtain ⟨kind, data, next, timeout, required⟩ := op
    cases kind with
    | message => exact if_neg (by simp [hfree])
    | raw =>
      have hlen : (Wire.bytes data).length ≠ 0 := by simpa [WriteOp.dropped] using hkept
      exact (if_neg hlen).trans (if_neg (by simp [hfree]))
  rw [hperform, TcpConnection.perform_free hprog hkept]
  exact ⟨h.reads, h.writes.start op op.timeout, h.memory, h.constructed⟩

/-- The record of a message takes what it finds, that of a binary write its timeout. -/
theorem perform_taken (h : Shows conn rs ws c) (hprog : conn.writes.inProgress = true)
    (n : History MessageType Part Part Handler) {op : WriteOp Part} (hkept : op.dropped = false) :
    Shows (conn.perform op) rs ws (c.perform partContents n (recordOf (ofWrite op))) := by
  have htaken := h.writes.inProgress.trans hprog
  obtain ⟨kind, data, next, timeout, required⟩ := op
  cases kind with
  | message =>
    have hfound : c.memory c.constructed = conn.memory conn.constructed :=
      h.constructed ▸ h.memory c.constructed
    let op' : WriteOp Part := ⟨.message, data, next, conn.memory conn.constructed, required⟩
    have hconn : conn.perform ⟨.message, data, next, timeout, required⟩ =
        { conn with writes := conn.writes.push op', constructed := conn.constructed + 1 } :=
          if_pos hprog
    have hperform :
        c.perform partContents n (recordOf (ofWrite ⟨.message, data, next, timeout, required⟩)) =
        { c with
          writes := c.writes.push { n with found := n.found ++ [c.memory c.constructed] }
            (pendingWriteOperation data (.inr next) required timeout (c.memory c.constructed))
          constructed := c.constructed + 1 } := if_pos htaken
    rw [hconn, hperform, hfound]
    exact ⟨h.reads, h.writes.push op', h.memory, congrArg (· + 1) h.constructed⟩
  | raw =>
    have hlen : (Wire.bytes data).length ≠ 0 := by simpa [WriteOp.dropped] using hkept
    let op : WriteOp Part := ⟨.raw, data, next, timeout, required⟩
    have hconn : conn.perform op = { conn with writes := conn.writes.push op } :=
      (if_neg hlen).trans (if_pos hprog)
    have hperform : c.perform partContents n (recordOf (ofWrite op)) =
        { c with writes := c.writes.push n (recordOf (ofWrite op)) } :=
      (if_neg hlen).trans (if_pos htaken)
    rw [hconn, hperform]
    exact ⟨h.reads, h.writes.push op, h.memory, h.constructed⟩

theorem perform_dropped (h : Shows conn rs ws c) (n : History MessageType Part Part Handler)
    {op : WriteOp Part} (hdropped : op.dropped = true) :
    Shows (conn.perform op) rs ws (c.perform partContents n (recordOf (ofWrite op))) := by
  rw [TcpConnection.perform_dropped conn hdropped]
  obtain ⟨kind, data, next, timeout, required⟩ := op
  obtain ⟨rfl, hlen⟩ : kind = .raw ∧ (Wire.bytes data).length = 0 := by
    simpa [WriteOp.dropped] using hdropped
  have hperform : c.perform partContents n
      (recordOf (ofWrite ⟨.raw, data, next, timeout, required⟩)) =
      c := if_pos hlen
  rw [hperform]
  exact h

theorem perform (h : Shows conn rs ws c) (n : History MessageType Part Part Handler)
    (op : WriteOp Part) :
    Shows (conn.perform op) rs (ws ++ starts (writeClaim conn.writes op))
      (c.perform partContents n (recordOf (ofWrite op))) := by
  cases hdropped : op.dropped with
  | true =>
    rw [writeClaim, if_pos hdropped]
    exact (List.append_nil ws).symm ▸ h.perform_dropped n hdropped
  | false =>
    rw [writeClaim, if_neg (by simp [hdropped]), Direction.claim]
    cases hprog : conn.writes.inProgress with
    | false => exact h.perform_free hprog n hdropped
    | true => exact (List.append_nil ws).symm ▸ h.perform_taken hprog n hdropped

/-- The queue of the reads moves on. -/
theorem performPendingRead (h : Shows conn rs ws c) :
    Shows conn.performPendingRead
      (rs ++ starts (conn.reads.pending.head?.elim [] conn.reads.claim)) ws
      (c.performPendingRead partContents) := by
  unfold TcpConnection.performPendingRead Connection.performPendingRead
  cases hpend : conn.reads.pending with
  | nil =>
    rw [h.reads.pending_nil hpend]
    exact (List.append_nil rs).symm ▸ h
  | cons op rest =>
    obtain ⟨n, rest', hl, hreads⟩ := h.reads.pop hpend
    rw [hl]
    have hpopped : Shows { conn with reads := { conn.reads with pending := rest } } rs ws
        { c with reads := { c.reads with pending := rest' } } :=
      ⟨hreads, h.writes, h.memory, h.constructed⟩
    exact hpopped.submitRead n op

theorem performPending (h : Shows conn rs ws c) :
    Shows conn.performPending rs
      (ws ++ starts (conn.writes.pending.head?.elim [] (writeClaim conn.writes)))
      (c.performPendingWrite partContents) := by
  unfold TcpConnection.performPending Connection.performPendingWrite
  cases hpend : conn.writes.pending with
  | nil =>
    rw [h.writes.pending_nil hpend]
    exact (List.append_nil ws).symm ▸ h
  | cons op rest =>
    obtain ⟨n, rest', hl, hwrites⟩ := h.writes.pop hpend
    rw [hl]
    have hpopped : Shows { conn with writes := { conn.writes with pending := rest } } rs ws
        { c with writes := { c.writes with pending := rest' } } :=
      ⟨h.reads, hwrites, h.memory, h.constructed⟩
    exact hpopped.perform n op

end Shows

/-! ## Statement by statement -/

/-- The queues are those of the machine. -/
def ShowsMachine (m : Machine) (c : Queues) : Prop :=
  Shows m.session.conn (starts (readLog m.trace)) (starts (writeLog m.trace)) c

namespace ShowsMachine

variable {m m' : Machine} {c c' : Queues} {entries : List Entry}

theorem of_entries (htrace : m'.trace = m.trace ++ entries)
    (h : Shows m'.session.conn (starts (readLog m.trace) ++ starts (readLog entries))
      (starts (writeLog m.trace) ++ starts (writeLog entries)) c') : ShowsMachine m' c' := by
  rw [ShowsMachine, htrace, readLog_append, writeLog_append, starts_append, starts_append]
  exact h

/-- Nothing was started. -/
theorem same (h : ShowsMachine m c) (hsame : SameQueues m.session.conn m'.session.conn)
    (htrace : m'.trace = m.trace ++ entries) (hread : starts (readLog entries) = [])
    (hwrite : starts (writeLog entries) = []) : ShowsMachine m' c := by
  refine of_entries htrace ?_
  rw [hread, hwrite, List.append_nil, List.append_nil]
  exact Shows.same h hsame

theorem write (h : ShowsMachine m c) (op : WriteOp Part) (todo : List Statement) :
    ShowsMachine { m.write op with todo := todo } (c.submit partContents (ofWrite op)) := by
  refine of_entries rfl ?_
  rw [readLog_writes, writeLog_writes, starts_append, Connection.submit_eq]
  have hsubmitted : starts (if op.dropped then [] else [Action.submitted op]) = [] := by
    split <;> rfl
  rw [hsubmitted]
  exact (List.append_nil (starts (readLog m.trace))).symm ▸ Shows.perform h ⟨ofWrite op, []⟩ op

theorem read (h : ShowsMachine m c) (op : ReadOp) (todo : List Statement) :
    ShowsMachine { m.read op with todo := todo } (c.submit partContents (ofRead op)) := by
  refine of_entries rfl ?_
  rw [readLog_reads, writeLog_reads, Connection.submit_eq]
  exact (List.append_nil (starts (writeLog m.trace))).symm ▸ Shows.submitRead h ⟨ofRead op, []⟩ op

theorem performPendingRead (h : ShowsMachine m c) (todo : List Statement) :
    ShowsMachine { m.performPendingRead with todo := todo }
      (c.performPendingRead partContents) := by
  refine of_entries rfl ?_
  rw [readLog_reads, writeLog_reads]
  exact (List.append_nil (starts (writeLog m.trace))).symm ▸ Shows.performPendingRead h

theorem performPendingWrite (h : ShowsMachine m c) (todo : List Statement) :
    ShowsMachine { m.performPendingWrite with todo := todo }
      (c.performPendingWrite partContents) := by
  refine of_entries rfl ?_
  rw [readLog_writes, writeLog_writes]
  exact (List.append_nil (starts (readLog m.trace))).symm ▸ Shows.performPending h

theorem callRead {cfg : ServerConfig} (h : ShowsMachine m c) (failed : Bool) (handler : ReadHandler)
    (todo : List Statement) : ShowsMachine (m.callRead cfg failed todo handler) c := by
  have hfault (f : Fault) : ShowsMachine (m.fault f) c :=
    h.same ⟨rfl, rfl, rfl, rfl, rfl, rfl⟩ (List.append_nil _).symm rfl rfl
  cases handler with
  | receivedHello =>
    simp only [Machine.callRead, Machine.receivedHello]
    split
    · exact hfault _
    · split
      · exact h.same ⟨rfl, rfl, rfl, rfl, rfl, rfl⟩ rfl rfl rfl
      · exact h.same ⟨rfl, rfl, rfl, rfl, rfl, rfl⟩ (List.append_assoc _ _ _) rfl rfl
  | handleMessage =>
    simp only [Machine.callRead, Machine.handleMessage]
    split
    · exact h.same ⟨rfl, rfl, rfl, rfl, rfl, rfl⟩ rfl rfl rfl
    · split
      · exact hfault _
      · split
        · exact h.same ⟨rfl, rfl, rfl, rfl, rfl, rfl⟩ (List.append_assoc _ _ _) rfl rfl
        · exact hfault _
  | handleProcessedData msgp =>
    simp only [Machine.callRead, Machine.handleProcessedData]
    split
    · exact hfault _
    · split
      · exact h.same ⟨rfl, rfl, rfl, rfl, rfl, rfl⟩ rfl rfl rfl
      · exact hfault _

/-- The read that the socket has completes. -/
theorem handleData (h : ShowsMachine m c) (failed : Bool) (number : Nat) (op : ReadOp) :
    ∃ es, ShowsMachine (m.handleData failed number op) (steps partContents c es) := by
  unfold Machine.handleData
  dsimp only
  split
  · exact ⟨[], h.same ⟨rfl, rfl, rfl, rfl, rfl, rfl⟩ rfl rfl rfl⟩
  · refine ⟨[.readReleases], of_entries rfl ?_⟩
    rw [show starts (readLog []) = [] from rfl, show starts (writeLog []) = [] from rfl,
      List.append_nil, List.append_nil]
    exact ⟨⟨rfl, h.reads.pending, h.reads.started⟩, h.writes, h.memory, h.constructed⟩

theorem handleWriteOperation (h : ShowsMachine m c) (failed : Bool) (number : Nat)
    (op : WriteOp Part) :
    ∃ es, ShowsMachine (m.handleWriteOperation failed number op) (steps partContents c es) := by
  unfold Machine.handleWriteOperation
  dsimp only
  split
  · exact ⟨[], h.same ⟨rfl, rfl, rfl, rfl, rfl, rfl⟩ rfl rfl rfl⟩
  · refine ⟨[.writeReleases], of_entries rfl ?_⟩
    rw [show starts (readLog []) = [] from rfl, show starts (writeLog []) = [] from rfl,
      List.append_nil, List.append_nil]
    exact ⟨h.reads, ⟨rfl, h.writes.pending, h.writes.started⟩, h.memory, h.constructed⟩

theorem readCompletes {count : Nat} (h : ShowsMachine m c)
    (hdone : m.readCompletes count = some m') :
    ∃ es, ShowsMachine m' (steps partContents c es) := by
  unfold Machine.readCompletes at hdone
  split at hdone
  · cases hdone
  · split at hdone
    · obtain rfl := Option.some.inj hdone
      apply handleData
      exact h.same ⟨rfl, rfl, rfl, rfl, rfl, rfl⟩ rfl rfl rfl
    · cases hdone

theorem readFails (h : ShowsMachine m c) (hdone : m.readFails = some m') :
    ∃ es, ShowsMachine m' (steps partContents c es) := by
  unfold Machine.readFails at hdone
  split at hdone
  · cases hdone
  · obtain rfl := Option.some.inj hdone
    apply handleData
    exact h.same ⟨rfl, rfl, rfl, rfl, rfl, rfl⟩ rfl rfl rfl

theorem writeCompletes {failed : Bool} {count : Nat} (h : ShowsMachine m c)
    (hdone : m.writeCompletes failed count = some m') :
    ∃ es, ShowsMachine m' (steps partContents c es) := by
  unfold Machine.writeCompletes at hdone
  split at hdone
  · cases hdone
  · split at hdone
    · obtain rfl := Option.some.inj hdone
      apply handleWriteOperation
      exact h.same ⟨rfl, rfl, rfl, rfl, rfl, rfl⟩ rfl rfl rfl
    · cases hdone

/-- The end of a wait has no part in it. -/
theorem waitEnds {conn : TcpConnection Part} (h : ShowsMachine m c)
    (hsame : SameQueues m.session.conn conn) : ShowsMachine (m.onConn conn []) c :=
  h.same hsame rfl rfl rfl

/-- Every step of the machine is some steps of the queues, one at most. -/
theorem step {cfg : ServerConfig} {e : MachineEvent} (h : ShowsMachine m c)
    (hstep : machineStep cfg m e = some m') : ∃ es, ShowsMachine m' (steps partContents c es) := by
  cases Machine.steps_of_step hstep with
  | write op todo htodo => exact ⟨[.submits (ofWrite op)], h.write op todo⟩
  | read op todo htodo => exact ⟨[.submits (ofRead op)], h.read op todo⟩
  | startReadMessage todo htodo =>
    unfold Machine.startReadMessage
    split
    · exact ⟨[], h⟩
    · exact ⟨[.submits (ofRead preambleRead)], h.read preambleRead todo⟩
  | close todo htodo => exact ⟨[], h.same ⟨rfl, rfl, rfl, rfl, rfl, rfl⟩ rfl rfl rfl⟩
  | callRead failed handler todo htodo => exact ⟨[], h.callRead failed handler todo⟩
  | performPendingRead todo htodo => exact ⟨[.performsPendingRead], h.performPendingRead todo⟩
  | performPendingWrite todo htodo => exact ⟨[.performsPendingWrite], h.performPendingWrite todo⟩
  | rest todo htodo => exact ⟨[], h⟩
  | submitsRead op hmay => exact ⟨[.submits (ofRead op)], h.read op m.todo⟩
  | submitsWrite op hmay => exact ⟨[.submits (ofWrite op)], h.write op m.todo⟩
  | closes hmay => exact ⟨[], h.same ⟨rfl, rfl, rfl, rfl, rfl, rfl⟩ rfl rfl rfl⟩
  | database db hmay => exact ⟨[], h⟩
  | readCompletes count m' hidle hdone => exact h.readCompletes hdone
  | readFails m' hidle hdone => exact h.readFails hdone
  | writeCompletes count m' hidle hdone => exact h.writeCompletes hdone
  | writeFails count m' hidle hdone => exact h.writeCompletes hdone
  | readWaitEnds i conn hidle hconn =>
    obtain ⟨waits, rfl | rfl⟩ := TcpConnection.readWaitEnds_cases hconn
    all_goals exact ⟨[], h.waitEnds ⟨rfl, rfl, rfl, rfl, rfl, rfl⟩⟩
  | writeWaitEnds i conn hidle hconn =>
    obtain ⟨waits, rfl | rfl⟩ := TcpConnection.writeWaitEnds_cases hconn
    all_goals exact ⟨[], h.waitEnds ⟨rfl, rfl, rfl, rfl, rfl, rfl⟩⟩

end ShowsMachine

/-! ## Runs -/

theorem showsMachine_fresh (db : Db) (memory : Nat → Nat) (stream : List UInt8) :
    ShowsMachine (Machine.fresh db memory stream) (Connection.fresh fun i => (memory i : Int)) where
  reads := ⟨rfl, rfl, rfl⟩
  writes := ⟨rfl, rfl, rfl⟩
  memory _ := rfl
  constructed := rfl

theorem steps_append (contents : P → Nat → UInt8) (c : Connection T V P H)
    (es es' : List (Event T V P H)) :
    steps contents c (es ++ es') = steps contents (steps contents c es) es' := List.foldl_append

/-- Every run of a connection of the server is a run of the queues, with the same operations started
in the same order. -/
theorem machine_deferral {cfg : ServerConfig} {db : Db} {memory : Nat → Nat} {stream : List UInt8}
    {es : List MachineEvent} {m : Machine}
    (hrun : run (machineStep cfg) (startMachine db memory stream) es = some m) :
    ∃ events, ShowsMachine m
      (steps partContents (Connection.fresh fun i => (memory i : Int)) events) := by
  have hstart : ∃ events, ShowsMachine (startMachine db memory stream)
      (steps partContents (Connection.fresh fun i => (memory i : Int)) events) :=
    ⟨[.submits (ofRead helloRead)], (showsMachine_fresh db memory stream).read helloRead []⟩
  refine run_invariant (fun m => ∃ events, ShowsMachine m
      (steps partContents (Connection.fresh fun i => (memory i : Int)) events)) ?_ hstart
    (Along.of_forall (p := fun _ => True) (fun _ _ => trivial) _) hrun
  rintro m e m' ⟨events, hm⟩ - hstep
  obtain ⟨events', hm'⟩ := hm.step hstep
  exact ⟨events ++ events', by rwa [steps_append]⟩

end StateDb.Deferral
