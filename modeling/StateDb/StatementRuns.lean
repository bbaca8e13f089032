/-
  StateDb/StatementRuns.lean
  ==========================
  **The statements of a completion make a step of the connection.**

  `connectionStep` executes a completion handler in one step, the machine of
  `Statements.lean` statement by statement.  When nobody submits anything in between, the
  machine ends where the step does (`drains_step`), so every run of a connection is a run
  of the machine (`session_simulated`).
-/
import StateDb.Statements

namespace StateDb

open Lib

/-- The statements, executed one after the other, lead from one session to the other. -/
inductive Drains (cfg : ServerConfig) : Session → List Statement → Session → Prop
  | done (s : Session) : Drains cfg s [] s
  | next {s s₁ s' : Session} {st : Statement} {todo todo₁ : List Statement} : s.fault = none →
      (∀ trace, ∃ trace₁, Machine.exec cfg ⟨s, st :: todo, trace⟩ = some ⟨s₁, todo₁, trace₁⟩) →
      Drains cfg s₁ todo₁ s' → Drains cfg s (st :: todo) s'

variable {cfg : ServerConfig} {s s' : Session} {todo : List Statement}

theorem Drains.run (h : Drains cfg s todo s') (trace : List Entry) : ∃ n trace',
    run (machineStep cfg) ⟨s, todo, trace⟩ (List.replicate n .proceed) = some ⟨s', [], trace'⟩ := by
  induction h generalizing trace with
  | done s => exact ⟨0, trace, rfl⟩
  | next hfault hexec hrest ih =>
    obtain ⟨trace₁, hfirst⟩ := hexec trace
    obtain ⟨n, trace', hrun⟩ := ih trace₁
    refine ⟨n + 1, trace', run_cons_eq_some.mpr ⟨_, ?_, hrun⟩⟩
    simp only [machineStep, hfault, Option.isSome_none, Bool.false_eq_true, if_false]
    exact hfirst

/-! ## Statements -/

theorem drains_writes (ops : List (WriteOp Part)) (hfault : s.fault = none)
    (h : Drains cfg { s with conn := s.conn.performAll ops } todo s') :
    Drains cfg s (ops.map .write ++ todo) s' := by
  induction ops generalizing s with
  | nil => exact h
  | cons op ops ih =>
    exact .next hfault (fun _ => ⟨_, rfl⟩) (ih (s := { s with conn := s.conn.perform op }) hfault h)

theorem drains_rest (hfault : s.fault = none) (h : Drains cfg s todo s') :
    Drains cfg s (.rest :: todo) s' :=
  .next hfault (fun trace => ⟨trace, rfl⟩) h

theorem drains_close (hfault : s.fault = none) :
    Drains cfg s [.close] { s with conn := s.conn.close } :=
  .next hfault (fun _ => ⟨_, rfl⟩) (.done _)

theorem drains_startReadMessage (hfault : s.fault = none)
    (h : Drains cfg s.startReadMessage todo s') : Drains cfg s (.startReadMessage :: todo) s' := by
  have hstart : s.startReadMessage = { s with conn := s.conn.startReadMessage } := by
    simp [Session.startReadMessage, hfault]
  refine .next hfault ?_ h
  intro trace
  rw [hstart]
  simp only [Machine.exec, Machine.startReadMessage, TcpConnection.startReadMessage]
  split
  · exact ⟨trace, rfl⟩
  · exact ⟨_, rfl⟩

theorem drains_performPendingRead (hfault : s.fault = none) :
    Drains cfg s [.performPendingRead] s.performPendingRead := by
  rw [Session.performPendingRead_eq hfault]
  exact .next hfault (fun _ => ⟨_, rfl⟩) (.done _)

theorem drains_performPendingWrite (hfault : s.fault = none) :
    Drains cfg s [.performPendingWrite] { s with conn := s.conn.performPending } :=
  .next hfault (fun _ => ⟨_, rfl⟩) (.done _)

/-! ## Handlers -/

theorem submitAll_eq (c : TcpConnection Part) (us : List Submission) :
    us.foldl TcpConnection.submit c = c.performAll (us.flatMap Submission.ops) := by
  induction us generalizing c with
  | nil => rfl
  | cons u us ih =>
    rw [List.foldl_cons, ih, Submission.submit_eq, List.flatMap_cons]
    simp only [TcpConnection.performAll, List.foldl_append]

/-- The statements of a handler do what the handler does. -/
theorem drains_onNewMessage {msg : MessagePreamble} {statements : List Statement}
    {s₁ : Session} (hfault : s₁.fault = none)
    (hs₁ : s₁ = { s with dispatched := s.dispatched ++ [msg] })
    (hstatements : Machine.onNewMessage cfg s₁ msg = .ok statements)
    (h : Drains cfg (s.dispatch cfg msg) todo s') : Drains cfg s₁ (statements ++ todo) s' := by
  unfold Machine.onNewMessage at hstatements
  unfold Session.dispatch at h
  rw [← hs₁] at h
  split at hstatements
  · rename_i hnone
    rw [hnone] at h
    obtain rfl := Except.ok.inj hstatements
    exact h
  · rename_i hping
    rw [hping] at h
    obtain rfl := Except.ok.inj hstatements
    apply drains_writes _ hfault
    rw [← Submission.submit_eq]
    exact h
  · rename_i hgetAll
    rw [hgetAll] at h
    obtain ⟨us, hus⟩ := getAllRequest_ok cfg.width s₁.db
    simp only [hus, Session.apply] at h
    rw [hus] at hstatements
    obtain rfl := Except.ok.inj hstatements
    apply drains_writes _ hfault
    rw [← submitAll_eq]
    exact h
  all_goals
    rename_i hbody
    rw [hbody] at h
    obtain rfl := Except.ok.inj hstatements
    exact .next hfault (fun _ => ⟨_, rfl⟩) h

theorem drains_receivedHello {failed : Bool} (hfault : s.fault = none)
    (hnone : (s.receivedHello cfg).fault = none) :
    Drains cfg s [.callRead failed .receivedHello, .performPendingRead]
      (s.receivedHello cfg).performPendingRead := by
  unfold Session.receivedHello at hnone ⊢
  by_cases hfails : s.storageFails cfg .hello = true
  · rw [if_pos hfails] at hnone
    cases hnone
  · rw [if_neg hfails]
    let s₁ : Session := { s with conn := { s.conn with storage := s.conn.storage.deallocate } }
    by_cases hvalid : helloValid s.conn.storage.data = true
    · dsimp only
      rw [if_pos hvalid]
      refine @Drains.next _ _ s₁ _ _ _ [.startReadMessage, .performPendingRead] hfault ?_ ?_
      · intro trace
        simp only [Machine.exec, Machine.callRead, Machine.receivedHello, hfails, hvalid,
          Bool.false_eq_true, if_false, if_true]
        exact ⟨_, rfl⟩
      · have hstarted : s₁.startReadMessage.fault = none :=
          (Session.sameData_startReadMessage s₁).fault.trans hfault
        exact drains_startReadMessage hfault (drains_performPendingRead hstarted)
    · dsimp only
      rw [if_neg hvalid]
      refine @Drains.next _ _ { s₁ with conn := s₁.conn.close } _ _ _ [.performPendingRead]
        hfault ?_ (drains_performPendingRead hfault)
      intro trace
      simp only [Machine.exec, Machine.callRead, Machine.receivedHello, hfails, hvalid,
        Bool.false_eq_true, if_false]
      exact ⟨_, rfl⟩

theorem onNewMessage_ok (cfg : ServerConfig) (s : Session) (msg : MessagePreamble) :
    ∃ statements, Machine.onNewMessage cfg s msg = .ok statements := by
  unfold Machine.onNewMessage
  split
  · exact ⟨_, rfl⟩
  · exact ⟨_, rfl⟩
  · obtain ⟨us, hus⟩ := getAllRequest_ok cfg.width s.db
    exact ⟨_, by rw [hus]; rfl⟩
  all_goals exact ⟨_, rfl⟩

theorem drains_handleMessage {failed : Bool} (hfault : s.fault = none)
    (hnone : (s.handleMessage cfg failed).fault = none) :
    Drains cfg s [.callRead failed .handleMessage, .performPendingRead]
      (s.handleMessage cfg failed).performPendingRead := by
  unfold Session.handleMessage at hnone ⊢
  cases failed with
  | true =>
    refine @Drains.next _ _ { s with conn := s.conn.close } _ _ _ [.performPendingRead] hfault ?_
      (drains_performPendingRead hfault)
    intro _
    exact ⟨_, rfl⟩
  | false =>
    rw [if_neg Bool.false_ne_true] at hnone ⊢
    by_cases hfails : s.storageFails cfg .preamble = true
    · rw [if_pos hfails] at hnone
      cases hnone
    · rw [if_neg hfails] at hnone ⊢
      dsimp only at hnone ⊢
      let msg := MessagePreamble.ofBytes s.conn.storage.data
      let s₁ : Session := { s with conn := { s.conn with storage := s.conn.storage.deallocate } }
      let s₂ : Session := { s₁ with dispatched := s₁.dispatched ++ [msg] }
      obtain ⟨statements, hstatements⟩ := onNewMessage_ok cfg s₂ msg
      have hstarted : (s₁.dispatch cfg msg).startReadMessage.fault = none := hnone
      have hdispatched : (s₁.dispatch cfg msg).fault = none :=
        (Session.sameData_startReadMessage _).fault.symm.trans hstarted
      refine @Drains.next _ _ s₂ _ _ _
        (statements ++ [.rest, .startReadMessage, .performPendingRead]) hfault ?_ ?_
      · intro trace
        simp only [Machine.exec, Machine.callRead, Machine.handleMessage, hfails,
          Bool.false_eq_true, if_false]
        split
        · rename_i statements' hstatements'
          obtain rfl := Except.ok.inj (hstatements.symm.trans hstatements')
          exact ⟨_, rfl⟩
        · rename_i e herror
          cases hstatements.symm.trans herror
      · refine drains_onNewMessage (s := s₁) hfault rfl hstatements ?_
        exact drains_rest hdispatched
          (drains_startReadMessage hdispatched (drains_performPendingRead hstarted))

theorem drains_handleProcessedData {failed : Bool} {msgp : MessagePreamble}
    (hfault : s.fault = none) (hnone : (s.handleProcessedData cfg msgp).fault = none) :
    Drains cfg s [.callRead failed (.handleProcessedData msgp), .performPendingRead]
      (s.handleProcessedData cfg msgp).performPendingRead := by
  unfold Session.handleProcessedData at hnone ⊢
  by_cases hfails : s.storageFails cfg .binary = true
  · rw [if_pos hfails] at hnone
    cases hnone
  · rw [if_neg hfails] at hnone ⊢
    dsimp only at hnone ⊢
    cases hrequest : bodyRequest cfg.width s.db msgp s.conn.storage.data with
    | error e =>
      rw [hrequest] at hnone
      cases hnone
    | ok e =>
      let s₁ : Session := { s with
        db := e.db
        handled := s.handled ++ [(msgp, s.conn.storage.data)] }
      refine @Drains.next _ _ s₁ _ _ _
        (((e.replies ++ e.broadcast).flatMap Submission.ops).map .write ++
          [.rest, .performPendingRead]) hfault ?_ ?_
      · intro trace
        simp only [Machine.exec, Machine.callRead, Machine.handleProcessedData, hfails,
          Bool.false_eq_true, if_false, hrequest]
        exact ⟨_, rfl⟩
      · refine drains_writes _ hfault (drains_rest hfault ?_)
        rw [← submitAll_eq]
        exact drains_performPendingRead hfault

theorem drains_callHandler {failed : Bool} {handler : ReadHandler} (hfault : s.fault = none)
    (hnone : (s.callHandler cfg failed handler).fault = none) :
    Drains cfg s [.callRead failed handler, .performPendingRead]
      (s.callHandler cfg failed handler).performPendingRead := by
  cases handler with
  | receivedHello => exact drains_receivedHello hfault hnone
  | handleMessage => exact drains_handleMessage hfault hnone
  | handleProcessedData msgp => exact drains_handleProcessedData hfault hnone

/-! ## Completions -/

/-- What happens in a step of a connection, as an event of the machine. -/
def ConnectionEvent.toMachine : ConnectionEvent → MachineEvent
  | .read count => .readCompletes count
  | .readFails => .readFails
  | .written count => .writeCompletes count
  | .writeFails count => .writeFails count
  | .readWaitEnds i => .readWaitEnds i
  | .writeWaitEnds i => .writeWaitEnds i
  | .submitted op => .submitsWrite op
  | .database db => .database db

/-- What `handle_data` leaves to do leads to its end. -/
theorem drains_handleData (todo : List Statement) (trace : List Entry) {failed : Bool}
    {number : Nat} {op : ReadOp} (hfault : s.fault = none)
    (hnone : (s.handleData cfg failed number op).fault = none) :
    Drains cfg (Machine.handleData ⟨s, todo, trace⟩ failed number op).session
      (Machine.handleData ⟨s, todo, trace⟩ failed number op).todo
      (s.handleData cfg failed number op) := by
  unfold Session.handleData at hnone ⊢
  unfold Machine.handleData
  dsimp only at hnone ⊢
  split
  · exact drains_close hfault
  · rename_i hok
    rw [if_neg hok] at hnone
    refine drains_callHandler hfault ?_
    exact (Session.sameData_performPendingRead _).fault.symm.trans hnone

theorem drains_readDone (trace : List Entry) {count : Nat} (hfault : s.fault = none)
    (hdone : s.readDone cfg count = some s') (hnone : s'.fault = none) :
    ∃ m', Machine.readCompletes ⟨s, [], trace⟩ count = some m' ∧
      Drains cfg m'.session m'.todo s' := by
  unfold Session.readDone at hdone
  unfold Machine.readCompletes
  cases hout : s.conn.reads.outstanding with
  | nil =>
    rw [hout] at hdone
    cases hdone
  | cons o rest =>
    obtain ⟨number, op⟩ := o
    rw [hout] at hdone
    dsimp only at hdone ⊢
    obtain ⟨hpossible, hdone⟩ := Option.ite_none_right_eq_some.mp hdone
    obtain rfl := Option.some.inj hdone
    rw [if_pos hpossible]
    let s₁ : Session := { s with
      conn := { s.conn with
        reads := { s.conn.reads with outstanding := rest }
        storage := s.conn.storage.fill (s.unread.take count) }
      unread := s.unread.drop count }
    exact ⟨_, rfl, @drains_handleData cfg s₁ [] _ false number op hfault hnone⟩

theorem drains_readFails (trace : List Entry) (hfault : s.fault = none)
    (hdone : s.readFails cfg = some s') (hnone : s'.fault = none) :
    ∃ m', Machine.readFails ⟨s, [], trace⟩ = some m' ∧ Drains cfg m'.session m'.todo s' := by
  unfold Session.readFails at hdone
  unfold Machine.readFails
  cases hout : s.conn.reads.outstanding with
  | nil =>
    rw [hout] at hdone
    cases hdone
  | cons o rest =>
    obtain ⟨number, op⟩ := o
    rw [hout] at hdone
    obtain rfl := Option.some.inj hdone
    let s₁ : Session := { s with
      conn := { s.conn with reads := { s.conn.reads with outstanding := rest } } }
    exact ⟨_, rfl, @drains_handleData cfg s₁ [] _ true number op hfault hnone⟩

theorem drains_writeDone (trace : List Entry) {failed : Bool} {count : Nat}
    {conn : TcpConnection Part} (hfault : s.fault = none)
    (hdone : s.conn.writeDone failed count = some conn) :
    ∃ m', Machine.writeCompletes ⟨s, [], trace⟩ failed count = some m' ∧
      Drains cfg m'.session m'.todo { s with conn := conn } := by
  unfold TcpConnection.writeDone at hdone
  unfold Machine.writeCompletes
  cases hout : s.conn.writes.outstanding with
  | nil =>
    rw [hout] at hdone
    cases hdone
  | cons o rest =>
    obtain ⟨number, op⟩ := o
    rw [hout] at hdone
    dsimp only at hdone ⊢
    obtain ⟨hpossible, hdone⟩ := Option.ite_none_right_eq_some.mp hdone
    obtain rfl := Option.some.inj hdone
    rw [if_pos hpossible]
    refine ⟨_, rfl, ?_⟩
    unfold Machine.handleWriteOperation TcpConnection.handleWriteOperation
    dsimp only
    split
    · exact drains_close hfault
    · exact drains_writes _ hfault (drains_rest hfault (drains_performPendingWrite hfault))

/-! ## Steps and runs -/

/-- A step of the connection is the event on the machine, and then the statements that it
leaves. -/
theorem drains_step (trace : List Entry) {e : ConnectionEvent}
    (hstep : connectionStep cfg s e = some s') (hnone : s'.fault = none) :
    ∃ m', machineStep cfg ⟨s, [], trace⟩ e.toMachine = some m' ∧
      Drains cfg m'.session m'.todo s' := by
  have hfault : s.fault = none := (connectionStep_cases hstep).1
  have hgoes : ¬ s.fault.isSome = true := by simp [hfault]
  unfold connectionStep at hstep
  unfold machineStep
  rw [if_neg hgoes] at hstep ⊢
  cases e with
  | read count => exact drains_readDone trace hfault hstep hnone
  | readFails => exact drains_readFails trace hfault hstep hnone
  | written count =>
    obtain ⟨conn, hconn, rfl⟩ := Option.map_eq_some_iff.mp hstep
    exact drains_writeDone trace hfault hconn
  | writeFails count =>
    obtain ⟨conn, hconn, rfl⟩ := Option.map_eq_some_iff.mp hstep
    exact drains_writeDone trace hfault hconn
  | readWaitEnds i =>
    obtain ⟨conn, hconn, rfl⟩ := Option.map_eq_some_iff.mp hstep
    exact ⟨_, Option.map_eq_some_iff.mpr ⟨conn, hconn, rfl⟩, .done _⟩
  | writeWaitEnds i =>
    obtain ⟨conn, hconn, rfl⟩ := Option.map_eq_some_iff.mp hstep
    exact ⟨_, Option.map_eq_some_iff.mpr ⟨conn, hconn, rfl⟩, .done _⟩
  | submitted op =>
    obtain rfl := Option.some.inj hstep
    exact ⟨_, rfl, .done _⟩
  | database db =>
    obtain rfl := Option.some.inj hstep
    exact ⟨_, rfl, .done _⟩

/-- A session that a step leaves without a fault had none before. -/
theorem fault_none_of_run {es : List ConnectionEvent}
    (hrun : run (connectionStep cfg) s es = some s') (hnone : s'.fault = none) :
    s.fault = none := by
  cases es with
  | nil =>
    obtain rfl := Option.some.inj hrun
    exact hnone
  | cons e es =>
    obtain ⟨s₁, hfirst, -⟩ := run_cons_eq_some.mp hrun
    exact (connectionStep_cases hfirst).1

/-- Every run of a connection without a fault is a run of the machine. -/
theorem connection_simulated {es : List ConnectionEvent} (trace : List Entry)
    (hrun : run (connectionStep cfg) s es = some s') (hnone : s'.fault = none) :
    ∃ es' trace', run (machineStep cfg) ⟨s, [], trace⟩ es' = some ⟨s', [], trace'⟩ := by
  induction es generalizing s trace with
  | nil =>
    obtain rfl := Option.some.inj hrun
    exact ⟨[], trace, rfl⟩
  | cons e es ih =>
    obtain ⟨s₁, hfirst, hrest⟩ := run_cons_eq_some.mp hrun
    obtain ⟨m₁, hevent, hdrains⟩ := drains_step trace hfirst (fault_none_of_run hrest hnone)
    obtain ⟨n, trace₁, hstatements⟩ := hdrains.run m₁.trace
    obtain ⟨es', trace', hmore⟩ := ih trace₁ hrest
    refine ⟨e.toMachine :: (List.replicate n .proceed ++ es'), trace', ?_⟩
    refine run_cons_eq_some.mpr ⟨m₁, hevent, run_append_eq_some.mpr ⟨_, hstatements, hmore⟩⟩

/-- Every run of an accepted connection without a fault is a run of its machine. -/
theorem session_simulated {db : Db} {memory : Nat → Nat} {stream : List UInt8}
    {es : List ConnectionEvent}
    (hrun : run (connectionStep cfg) (startSession db memory stream) es = some s)
    (hnone : s.fault = none) :
    ∃ es' m, run (machineStep cfg) (startMachine db memory stream) es' = some m ∧ m.todo = [] ∧
      m.session = s := by
  rw [← startMachine_session] at hrun
  obtain ⟨es', trace', hmachine⟩ :=
    connection_simulated (startMachine db memory stream).trace hrun hnone
  exact ⟨es', _, hmachine, rfl, rfl⟩

end StateDb
