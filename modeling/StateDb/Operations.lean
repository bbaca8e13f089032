/-
  StateDb/Operations.lean
  =======================
  **The slots of a connection in every run** (`async_write_message`, `async_read_message`,
  `async_write_raw`, `async_read_raw`, `handle_data`, `handle_write_operation`).

  What a step can do to a direction is said once (`Direction.Moved`): an operation is
  queued, started, put back or completed, or the buffer is used while nothing is
  outstanding.  The last is where the handlers come in: the first call of a handler of a
  read comes before anything else can take the slot (`CallsFirst`).

  So the socket has one operation of a direction at a time, whose buffer is left alone
  (`exclusive_slots`).  No operation is lost or doubled, and none waits for ever behind
  a free slot (`no_operation_lost`).
-/
import StateDb.Statements

namespace StateDb

open Lib Lib.Action

/-! ## What a step does to a direction -/

namespace Direction

variable {O : Type}

variable {d d' : Direction O}

/-- The slot, the queue and the numbers are the same. -/
structure SameSlot (d d' : Direction O) : Prop where
  inProgress : d'.inProgress = d.inProgress
  outstanding : d'.outstanding = d.outstanding
  pending : d'.pending = d.pending
  numbers : d'.operationDone.length = d.operationDone.length

theorem SameSlot.of_eq (h : d' = d) : SameSlot d d' := by
  subst h
  exact ⟨rfl, rfl, rfl, rfl⟩

/-- The operations that may wait, and what waiting does not change of them. -/
structure Waiting (O : Type) where
  norm : O → O
  keep : O → Prop

/-- A step, with what is recorded.  `due` says that a statement is left to execute which
performs a pending operation; `fails` that an operation may fail. -/
inductive Moved (w : Waiting O) (fails : Prop) (d : Direction O) (due : Bool) :
    List (Action O) → Direction O → Bool → Prop
  | same {d' : Direction O} {due' : Bool} : SameSlot d d' → (due = true → due' = true) →
      Moved w fails d due [] d' due'
  | used {d' : Direction O} {due' : Bool} : SameSlot d d' → d.outstanding = [] →
      (due = true → due' = true) → Moved w fails d due [.usesBuffer] d' due'
  | queued {due' : Bool} (op op' : O) : w.norm op' = w.norm op → w.keep op' →
      d.inProgress = true → (due = true → due' = true) →
      Moved w fails d due [.submitted op] (d.push op') due'
  | started {due' : Bool} (op : O) (timeout : Nat) : d.inProgress = false →
      (due = true → due' = true) →
      Moved w fails d due [.submitted op, .usesBuffer, .started d.operationDone.length op]
        (d.start op timeout) due'
  /-- Nothing waits. -/
  | passed {due' : Bool} : d.pending = [] → Moved w fails d due [] d due'
  | requeued {due' : Bool} (op op' : O) (rest : List O) : d.pending = op :: rest →
      w.norm op' = w.norm op → w.keep op' → d.inProgress = true →
      Moved w fails d due [] ({ d with pending := rest }.push op') due'
  | resumed {due' : Bool} (op : O) (rest : List O) (timeout : Nat) : d.pending = op :: rest →
      d.inProgress = false →
      Moved w fails d due [.usesBuffer, .started d.operationDone.length op]
        ({ d with pending := rest }.start op timeout) due'
  | released {d' : Direction O} {due' : Bool} (number : Nat) (op : O) (rest : List (Nat × O)) :
      d.outstanding = (number, op) :: rest → d'.inProgress = false → d'.outstanding = rest →
      d'.pending = d.pending → d'.operationDone.length = d.operationDone.length → due' = true →
      Moved w fails d due [.completed number op] d' due'
  | failed {d' : Direction O} {due' : Bool} (number : Nat) (op : O) (rest : List (Nat × O)) :
      fails → d.outstanding = (number, op) :: rest → d'.outstanding = rest →
      d'.pending = d.pending → d'.operationDone.length = d.operationDone.length →
      Moved w fails d due [.completed number op] d' due'

/-- What holds of a direction and its log in every run. -/
structure Sound (w : Waiting O) (d : Direction O) (log : List (Action O)) : Prop where
  guarded : d.Guarded
  kept : ∀ op ∈ d.pending, w.keep op
  accounts : Accounts w.norm log d.outstanding d.pending d.operationDone.length

/-- What holds of a direction while no operation failed. -/
structure Attended (d : Direction O) (due : Bool) : Prop where
  taken : d.inProgress = true → d.outstanding ≠ []
  moving : d.pending ≠ [] → d.outstanding ≠ [] ∨ due = true

variable {w : Waiting O} {fails : Prop} {due due' : Bool} {log as : List (Action O)}

theorem Sound.of_same (h : Sound w d log) (hsame : SameSlot d d') : Sound w d' log where
  guarded := h.guarded.of_same hsame.inProgress hsame.outstanding
  kept := hsame.pending ▸ h.kept
  accounts := by
    rw [hsame.outstanding, hsame.pending, hsame.numbers]
    exact h.accounts

theorem Sound.pop (h : Sound w d log) {op : O} {rest : List O} (hpend : d.pending = op :: rest)
    (hout : d.outstanding = []) : Accounts w.norm log [] (op :: rest) d.operationDone.length := by
  have haccounts := h.accounts
  rwa [hout, hpend] at haccounts

/-- The accounts of an operation that was started, in terms of the direction. -/
theorem accounts_start {op : O} {timeout : Nat} (hout : d.outstanding = [])
    (h : Accounts w.norm log [(d.operationDone.length, op)] d.pending
      (d.operationDone.length + 1)) :
    Accounts w.norm log (d.start op timeout).outstanding (d.start op timeout).pending
      (d.start op timeout).operationDone.length := by
  rw [start_outstanding, start_pending, start_operationDone, hout, List.length_append]
  exact h

theorem Sound.complete (h : Sound w d log) {number : Nat} {op : O} {rest : List (Nat × O)}
    (hout : d.outstanding = (number, op) :: rest) (hrest : d'.outstanding = rest)
    (hpend : d'.pending = d.pending)
    (hnumbers : d'.operationDone.length = d.operationDone.length) :
    Sound w d' (log ++ [.completed number op]) := by
  obtain rfl : rest = [] := h.guarded.rest_nil hout
  have haccounts := h.accounts
  rw [hout] at haccounts
  constructor
  · exact guarded_of_nil hrest
  · exact hpend ▸ h.kept
  · rw [hrest, hpend, hnumbers]
    exact haccounts.complete

theorem Sound.moved (h : Sound w d log) (hmoved : Moved w fails d due as d' due') :
    Sound w d' (log ++ as) := by
  cases hmoved with
  | same hsame hdue =>
    rw [List.append_nil]
    exact h.of_same hsame
  | used hsame hout hdue =>
    have hsound := h.of_same hsame
    have haccounts := hsound.accounts
    rw [hsame.outstanding, hout] at haccounts
    refine ⟨hsound.guarded, hsound.kept, ?_⟩
    rw [hsame.outstanding, hout]
    exact haccounts.use
  | queued op op' hnorm hkeep htaken hdue =>
    constructor
    · exact h.guarded.of_same rfl rfl
    · intro o ho
      rcases List.mem_append.mp ho with hold | hnew
      · exact h.kept o hold
      · exact List.mem_singleton.mp hnew ▸ hkeep
    · exact h.accounts.queue hnorm
  | started op timeout hfree hdue =>
    have hout := h.guarded.free hfree
    have haccounts := h.accounts
    rw [hout] at haccounts
    constructor
    · exact h.guarded.start hfree op timeout
    · rw [start_pending]
      exact h.kept
    · exact accounts_start hout (haccounts.submit op)
  | passed hpend =>
    rw [List.append_nil]
    exact h
  | requeued op op' rest hpend hnorm hkeep htaken =>
    have haccounts := h.accounts
    rw [hpend] at haccounts
    rw [List.append_nil]
    constructor
    · exact h.guarded.of_same rfl rfl
    · intro o ho
      rcases List.mem_append.mp ho with hold | hnew
      · exact h.kept o (hpend ▸ List.mem_cons_of_mem _ hold)
      · exact List.mem_singleton.mp hnew ▸ hkeep
    · exact haccounts.rotate hnorm
  | resumed op rest timeout hpend hfree =>
    have hout := h.guarded.free hfree
    have hguarded : ({ d with pending := rest } : Direction O).Guarded := h.guarded.of_same rfl rfl
    constructor
    · exact hguarded.start hfree op timeout
    · intro o ho
      rw [start_pending] at ho
      exact h.kept o (hpend ▸ List.mem_cons_of_mem _ ho)
    · exact accounts_start (d := { d with pending := rest }) hout (h.pop hpend hout).start
  | released number op rest hout hfree hrest hpend hnumbers hdue =>
    exact h.complete hout hrest hpend hnumbers
  | failed number op rest hfails hout hrest hpend hnumbers =>
    exact h.complete hout hrest hpend hnumbers

theorem Attended.moved (h : Attended d due) (hmoved : Moved w False d due as d' due') :
    Attended d' due' := by
  cases hmoved with
  | same hsame hdue | used hsame hout hdue =>
    constructor
    · intro htaken
      rw [hsame.outstanding]
      exact h.taken (hsame.inProgress ▸ htaken)
    · intro hpend
      rw [hsame.outstanding]
      exact (h.moving (hsame.pending ▸ hpend)).imp_right hdue
  | queued op op' hnorm hkeep htaken hdue =>
    exact ⟨h.taken, fun _ => Or.inl (h.taken htaken)⟩
  | started op timeout hfree hdue =>
    have hout : (d.start op timeout).outstanding ≠ [] := by simp
    exact ⟨fun _ => hout, fun _ => Or.inl hout⟩
  | passed hpend => exact ⟨h.taken, fun hwaits => absurd hpend hwaits⟩
  | requeued op op' rest hpend hnorm hkeep htaken =>
    exact ⟨h.taken, fun _ => Or.inl (h.taken htaken)⟩
  | resumed op rest timeout hpend hfree =>
    have hout : (({ d with pending := rest } : Direction O).start op timeout).outstanding ≠ [] := by
      simp
    exact ⟨fun _ => hout, fun _ => Or.inl hout⟩
  | released number op rest hout hfree hrest hpend hnumbers hdue =>
    exact ⟨fun htaken => absurd htaken (by simp [hfree]), fun _ => Or.inr hdue⟩
  | failed number op rest hfails => exact hfails.elim

end Direction

/-! ## Reads and writes -/

/-- Reads wait unchanged. -/
def waitingReads : Direction.Waiting ReadOp := ⟨id, fun _ => True⟩

/-- A write that waits may have lost its timeout; one that would be dropped does not wait. -/
def waitingWrites : Direction.Waiting (WriteOp Part) :=
  ⟨WriteOp.untimed, fun op => op.dropped = false⟩

def readLog (trace : List Entry) : List (Action ReadOp) :=
  trace.filterMap fun
    | .read a => some a
    | _ => none

def writeLog (trace : List Entry) : List (Action (WriteOp Part)) :=
  trace.filterMap fun
    | .write a => some a
    | _ => none

theorem readLog_append (trace trace' : List Entry) :
    readLog (trace ++ trace') = readLog trace ++ readLog trace' := List.filterMap_append

theorem writeLog_append (trace trace' : List Entry) :
    writeLog (trace ++ trace') = writeLog trace ++ writeLog trace' := List.filterMap_append

@[simp] theorem readLog_reads (as : List (Action ReadOp)) : readLog (as.map .read) = as := by
  simp [readLog, List.filterMap_map]

@[simp] theorem readLog_writes (as : List (Action (WriteOp Part))) :
    readLog (as.map .write) = [] := by
  simp [readLog, List.filterMap_map]

@[simp] theorem writeLog_writes (as : List (Action (WriteOp Part))) :
    writeLog (as.map .write) = as := by
  simp [writeLog, List.filterMap_map]

@[simp] theorem writeLog_reads (as : List (Action ReadOp)) : writeLog (as.map .read) = [] := by
  simp [writeLog, List.filterMap_map]

namespace TcpConnection

open Direction

variable {fails : Prop} {due due' : Bool}

theorem perform_moved (c : TcpConnection Part) (op : WriteOp Part)
    (hdue : due = true → due' = true) :
    Moved waitingWrites fails c.writes due
      ((if op.dropped then [] else [.submitted op]) ++ writeClaim c.writes op)
      (c.perform op).writes due' := by
  by_cases hdrop : op.dropped = true
  · rw [perform_dropped c hdrop, writeClaim, if_pos hdrop, if_pos hdrop]
    exact .same (.of_eq rfl) hdue
  · have hkept : op.dropped = false := by simpa using hdrop
    rw [writeClaim, if_neg hdrop, if_neg hdrop]
    cases hprog : c.writes.inProgress with
    | false =>
      rw [perform_free hprog hkept, claim, hprog]
      exact .started op op.timeout hprog hdue
    | true =>
      obtain ⟨timeout, constructed, heq⟩ := perform_taken hprog hkept
      rw [heq, claim, hprog]
      exact .queued op { op with timeout := timeout } rfl hkept hprog hdue

theorem performPending_moved {c : TcpConnection Part}
    (hkept : ∀ op ∈ c.writes.pending, op.dropped = false) :
    Moved waitingWrites fails c.writes due (c.writes.pending.head?.elim [] (writeClaim c.writes))
      c.performPending.writes due' := by
  unfold performPending
  cases hpend : c.writes.pending with
  | nil => exact .passed hpend
  | cons op rest =>
    have hop : op.dropped = false := hkept op (hpend ▸ List.mem_cons_self)
    let c' : TcpConnection Part := { c with writes := { c.writes with pending := rest } }
    show Moved waitingWrites fails c.writes due (writeClaim c.writes op) (c'.perform op).writes due'
    rw [writeClaim, if_neg (by simp [hop])]
    cases hprog : c.writes.inProgress with
    | false =>
      rw [perform_free (show c'.writes.inProgress = false from hprog) hop, claim, hprog]
      exact .resumed op rest op.timeout hpend hprog
    | true =>
      obtain ⟨timeout, constructed, heq⟩ :=
        perform_taken (show c'.writes.inProgress = true from hprog) hop
      rw [heq, claim, hprog]
      exact .requeued op { op with timeout := timeout } rest hpend rfl hop hprog

theorem submitRead_moved (c : TcpConnection Part) (op : ReadOp) (hdue : due = true → due' = true) :
    Moved waitingReads fails c.reads due (.submitted op :: c.reads.claim op)
      (c.submitRead op).reads due' := by
  cases hprog : c.reads.inProgress with
  | false =>
    rw [submitRead_free hprog, claim, hprog]
    exact .started op op.timeout hprog hdue
  | true =>
    rw [submitRead_taken hprog, claim, hprog]
    exact .queued op op rfl trivial hprog hdue

theorem performPendingRead_moved (c : TcpConnection Part) :
    Moved waitingReads fails c.reads due (c.reads.pending.head?.elim [] c.reads.claim)
      c.performPendingRead.reads due' := by
  unfold performPendingRead
  cases hpend : c.reads.pending with
  | nil => exact .passed hpend
  | cons op rest =>
    let c' : TcpConnection Part := { c with reads := { c.reads with pending := rest } }
    show Moved waitingReads fails c.reads due (c.reads.claim op) (c'.submitRead op).reads due'
    cases hprog : c.reads.inProgress with
    | false =>
      rw [submitRead_free (show c'.reads.inProgress = false from hprog), claim, hprog]
      exact .resumed op rest op.timeout hpend hprog
    | true =>
      rw [submitRead_taken (show c'.reads.inProgress = true from hprog), claim, hprog]
      exact .requeued op op rest hpend rfl trivial hprog

theorem submitRead_writes (c : TcpConnection Part) (op : ReadOp) :
    (c.submitRead op).writes = c.writes := by
  unfold TcpConnection.submitRead
  split <;> rfl

theorem performPendingRead_writes (c : TcpConnection Part) :
    c.performPendingRead.writes = c.writes := by
  unfold TcpConnection.performPendingRead
  split
  · rfl
  · exact submitRead_writes _ _

theorem sameReads_performPending (c : TcpConnection Part) : SameReads c c.performPending := by
  unfold performPending
  split
  · exact .refl c
  · rename_i op rest hpend
    have hsame : SameReads c { c with writes := { c.writes with pending := rest } } :=
      ⟨rfl, rfl, rfl⟩
    exact hsame.trans (sameReads_perform _ op)

/-- A buffer is left alone while an operation that uses it is outstanding, unless the socket
fills it. -/
structure Untouched (fills : Prop) (c c' : TcpConnection Part) : Prop where
  storage : c.reads.outstanding ≠ [] → fills ∨ c'.storage = c.storage
  writeStorage : c.writes.outstanding ≠ [] → c'.writeStorage = c.writeStorage

variable {fills : Prop}

theorem untouched_of_eq {c c' : TcpConnection Part} (hstorage : c'.storage = c.storage)
    (hwrite : c'.writeStorage = c.writeStorage) : Untouched fills c c' :=
  ⟨fun _ => Or.inr hstorage, fun _ => hwrite⟩

theorem untouched_perform {c : TcpConnection Part} (h : c.writes.Guarded) (op : WriteOp Part) :
    Untouched fills c (c.perform op) := by
  rcases perform_cases c op with heq | ⟨op', constructed, heq⟩ | ⟨hfree, heq⟩
  · exact untouched_of_eq (by rw [heq]) (by rw [heq])
  · exact untouched_of_eq (by rw [heq]) (by rw [heq])
  · constructor
    · intro _
      rw [heq]
      exact Or.inr rfl
    · intro hout
      exact absurd (h.free hfree) hout

theorem untouched_performPending {c : TcpConnection Part} (h : c.writes.Guarded) :
    Untouched fills c c.performPending := by
  unfold performPending
  split
  · exact untouched_of_eq rfl rfl
  · rename_i op rest hpend
    have hrest : ({ c.writes with pending := rest } : Direction (WriteOp Part)).Guarded :=
      h.of_same rfl rfl
    obtain ⟨hstorage, hwrite⟩ := @untouched_perform fills
      { c with writes := { c.writes with pending := rest } } hrest op
    exact ⟨hstorage, hwrite⟩

theorem untouched_submitRead {c : TcpConnection Part} (h : c.reads.Guarded) (op : ReadOp) :
    Untouched fills c (c.submitRead op) := by
  cases hprog : c.reads.inProgress with
  | false =>
    rw [submitRead_free hprog]
    exact ⟨fun hout => absurd (h.free hprog) hout, fun _ => rfl⟩
  | true =>
    rw [submitRead_taken hprog]
    exact untouched_of_eq rfl rfl

theorem untouched_performPendingRead {c : TcpConnection Part} (h : c.reads.Guarded) :
    Untouched fills c c.performPendingRead := by
  unfold performPendingRead
  split
  · exact untouched_of_eq rfl rfl
  · rename_i op rest hpend
    have hrest : ({ c.reads with pending := rest } : Direction ReadOp).Guarded := h.of_same rfl rfl
    obtain ⟨hstorage, hwrite⟩ := @untouched_submitRead fills
      { c with reads := { c.reads with pending := rest } } hrest op
    exact ⟨hstorage, hwrite⟩

theorem sameSlot_readWaitEnds {c c' : TcpConnection Part} {i : Nat}
    (h : c.readWaitEnds i = some c') :
    SameSlot c.reads c'.reads ∧ SameSlot c.writes c'.writes ∧ Untouched fills c c' := by
  obtain ⟨waits, rfl | rfl⟩ := readWaitEnds_cases h <;>
    exact ⟨⟨rfl, rfl, rfl, rfl⟩, .of_eq rfl, untouched_of_eq rfl rfl⟩

theorem sameSlot_writeWaitEnds {c c' : TcpConnection Part} {i : Nat}
    (h : c.writeWaitEnds i = some c') :
    SameSlot c.reads c'.reads ∧ SameSlot c.writes c'.writes ∧ Untouched fills c c' := by
  obtain ⟨waits, rfl | rfl⟩ := writeWaitEnds_cases h <;>
    exact ⟨.of_eq rfl, ⟨rfl, rfl, rfl, rfl⟩, untouched_of_eq rfl rfl⟩

end TcpConnection

/-! ## Steps -/

def Statement.callsRead : Statement → Bool
  | .callRead _ _ => true
  | _ => false

def Statement.resumesRead : Statement → Bool
  | .performPendingRead => true
  | _ => false

def Statement.resumesWrite : Statement → Bool
  | .performPendingWrite => true
  | _ => false

/-- No handler of a read is going to be called. -/
def Quiet (todo : List Statement) : Prop := ∀ st ∈ todo, st.callsRead = false

theorem quiet_nil : Quiet [] := fun _ hst => absurd hst List.not_mem_nil

theorem Quiet.append {todo todo' : List Statement} (h : Quiet todo) (h' : Quiet todo') :
    Quiet (todo ++ todo') := by
  intro st hst
  rcases List.mem_append.mp hst with hst | hst
  · exact h st hst
  · exact h' st hst

theorem Quiet.cons {st : Statement} {todo : List Statement} (hst : st.callsRead = false)
    (h : Quiet todo) : Quiet (st :: todo) := by
  intro st' hmem
  rcases List.mem_cons.mp hmem with rfl | hmem
  · exact hst
  · exact h st' hmem

theorem quiet_writes (ops : List (WriteOp Part)) : Quiet (ops.map .write) := by
  intro st hst
  obtain ⟨op, -, rfl⟩ := List.mem_map.mp hst
  rfl

/-- What is left to do stays left, when another statement is executed. -/
theorem any_of_cons {p : Statement → Bool} {st : Statement} {todo : List Statement}
    (hst : p st = false) (pushed : List Statement) :
    (st :: todo).any p = true → (pushed ++ todo).any p = true := by
  rw [List.any_cons, hst, Bool.false_or, List.any_append]
  intro htodo
  rw [htodo, Bool.or_true]

namespace Machine

open Direction

def dueRead (m : Machine) : Bool := m.todo.any Statement.resumesRead

def dueWrite (m : Machine) : Bool := m.todo.any Statement.resumesWrite

/-- The handler of a read is called by the next statement, and nothing is outstanding, or
it is not called any more. -/
structure CallsFirst (m : Machine) : Prop where
  later : Quiet m.todo.tail
  first : ∀ st ∈ m.todo.head?, st.callsRead = true → m.session.conn.reads.outstanding = []

/-- What a step does to the slots. -/
structure Advance (fails fills : Prop) (m m' : Machine) (entries : List Entry) : Prop where
  trace : m'.trace = m.trace ++ entries
  reads : Moved waitingReads fails m.session.conn.reads m.dueRead (readLog entries)
    m'.session.conn.reads m'.dueRead
  writes : Moved waitingWrites fails m.session.conn.writes m.dueWrite (writeLog entries)
    m'.session.conn.writes m'.dueWrite
  buffers : TcpConnection.Untouched fills m.session.conn m'.session.conn
  callsFirst : m'.CallsFirst

variable {fails fills : Prop} {m m' : Machine} {st : Statement} {todo : List Statement}

theorem callsFirst_of_quiet (h : Quiet m.todo) : m.CallsFirst where
  later := fun st hst => h st (List.mem_of_mem_tail hst)
  first := by
    intro st hst hcalls
    rw [h st (List.mem_of_mem_head? hst)] at hcalls
    cases hcalls

theorem CallsFirst.quiet_tail (h : m.CallsFirst) (htodo : m.todo = st :: todo) : Quiet todo := by
  have hlater := h.later
  rwa [htodo] at hlater

theorem CallsFirst.outstanding_nil (h : m.CallsFirst) (htodo : m.todo = st :: todo)
    (hcalls : st.callsRead = true) : m.session.conn.reads.outstanding = [] :=
  h.first st (by rw [htodo]; rfl) hcalls

theorem quiet_of_idle (hidle : m.todo = []) : Quiet m.todo := by
  rw [hidle]
  exact quiet_nil

theorem CallsFirst.quiet_of_mayCall (h : m.CallsFirst) (hmay : m.mayCall = true) :
    Quiet m.todo := by
  unfold mayCall at hmay
  split at hmay
  · rename_i hnil
    rw [hnil]
    exact quiet_nil
  · rename_i todo htodo
    rw [htodo]
    exact (h.quiet_tail htodo).cons rfl
  · cases hmay

/-! ### Statements -/

theorem advance_write (op : WriteOp Part) (hguarded : m.session.conn.writes.Guarded)
    (hquiet : Quiet todo) (hread : m.dueRead = true → todo.any Statement.resumesRead = true)
    (hwrite : m.dueWrite = true → todo.any Statement.resumesWrite = true) :
    ∃ entries, Advance fails fills m { m.write op with todo := todo } entries := by
  refine ⟨_, rfl, ?_, ?_, ?_, callsFirst_of_quiet hquiet⟩
  · rw [readLog_writes]
    exact .same (.of_eq (TcpConnection.sameReads_perform m.session.conn op).reads) hread
  · rw [writeLog_writes]
    exact TcpConnection.perform_moved m.session.conn op hwrite
  · exact TcpConnection.untouched_perform hguarded op

theorem advance_read (op : ReadOp) (hguarded : m.session.conn.reads.Guarded) (hquiet : Quiet todo)
    (hread : m.dueRead = true → todo.any Statement.resumesRead = true)
    (hwrite : m.dueWrite = true → todo.any Statement.resumesWrite = true) :
    ∃ entries, Advance fails fills m { m.read op with todo := todo } entries := by
  refine ⟨_, rfl, ?_, ?_, ?_, callsFirst_of_quiet hquiet⟩
  · rw [readLog_reads]
    exact TcpConnection.submitRead_moved m.session.conn op hread
  · rw [writeLog_reads]
    exact .same (.of_eq (TcpConnection.submitRead_writes m.session.conn op)) hwrite
  · exact TcpConnection.untouched_submitRead hguarded op

/-- The slots are not touched. -/
theorem advance_same (htrace : m'.trace = m.trace ++ [])
    (hreads : SameSlot m.session.conn.reads m'.session.conn.reads)
    (hwrites : SameSlot m.session.conn.writes m'.session.conn.writes)
    (hbuffers : TcpConnection.Untouched fills m.session.conn m'.session.conn)
    (hquiet : Quiet m'.todo) (hread : m.dueRead = true → m'.dueRead = true)
    (hwrite : m.dueWrite = true → m'.dueWrite = true) : Advance fails fills m m' [] :=
  ⟨htrace, .same hreads hread, .same hwrites hwrite, hbuffers, callsFirst_of_quiet hquiet⟩

theorem advance_startReadMessage (hguarded : m.session.conn.reads.Guarded) (hquiet : Quiet todo)
    (hread : m.dueRead = true → todo.any Statement.resumesRead = true)
    (hwrite : m.dueWrite = true → todo.any Statement.resumesWrite = true) :
    ∃ entries, Advance fails fills m { m.startReadMessage with todo := todo } entries := by
  unfold startReadMessage
  split
  · exact ⟨[], advance_same (List.append_nil _).symm (.of_eq rfl) (.of_eq rfl)
      (TcpConnection.untouched_of_eq rfl rfl) hquiet hread hwrite⟩
  · exact advance_read _ hguarded hquiet hread hwrite

theorem advance_performPendingRead (hguarded : m.session.conn.reads.Guarded) (hquiet : Quiet todo)
    (hwrite : m.dueWrite = true → todo.any Statement.resumesWrite = true) :
    ∃ entries, Advance fails fills m { m.performPendingRead with todo := todo } entries := by
  refine ⟨_, rfl, ?_, ?_, ?_, callsFirst_of_quiet hquiet⟩
  · rw [readLog_reads]
    exact TcpConnection.performPendingRead_moved m.session.conn
  · rw [writeLog_reads]
    exact .same (.of_eq (TcpConnection.performPendingRead_writes m.session.conn)) hwrite
  · exact TcpConnection.untouched_performPendingRead hguarded

theorem advance_performPendingWrite (hguarded : m.session.conn.writes.Guarded)
    (hkept : ∀ op ∈ m.session.conn.writes.pending, op.dropped = false) (hquiet : Quiet todo)
    (hread : m.dueRead = true → todo.any Statement.resumesRead = true) :
    ∃ entries, Advance fails fills m { m.performPendingWrite with todo := todo } entries := by
  refine ⟨_, rfl, ?_, ?_, ?_, callsFirst_of_quiet hquiet⟩
  · rw [readLog_writes]
    exact .same (.of_eq (TcpConnection.sameReads_performPending m.session.conn).reads) hread
  · rw [writeLog_writes]
    exact TcpConnection.performPending_moved hkept
  · exact TcpConnection.untouched_performPending hguarded

/-- A handler of a read uses the buffer while nothing is outstanding, and what it pushes
comes before the rest. -/
theorem advance_call (pushed : List Statement) {entries : List Entry}
    (hout : m.session.conn.reads.outstanding = [])
    (hreads : m'.session.conn.reads = m.session.conn.reads)
    (hwrites : m'.session.conn.writes = m.session.conn.writes)
    (hbuffer : m'.session.conn.writeStorage = m.session.conn.writeStorage)
    (htrace : m'.trace = m.trace ++ entries) (hreadLog : readLog entries = [.usesBuffer])
    (hwriteLog : writeLog entries = []) (hst : st.resumesRead = false ∧ st.resumesWrite = false)
    (htodo : m.todo = st :: todo) (htodo' : m'.todo = pushed ++ todo) (hpushed : Quiet pushed)
    (hquiet : Quiet todo) : Advance fails fills m m' entries := by
  constructor
  · exact htrace
  · rw [hreadLog, dueRead, dueRead, htodo, htodo']
    exact .used (.of_eq hreads) hout (any_of_cons hst.1 pushed)
  · rw [hwriteLog, dueWrite, dueWrite, htodo, htodo']
    exact .same (.of_eq hwrites) (any_of_cons hst.2 pushed)
  · exact ⟨fun hsome => absurd hout hsome, fun _ => hbuffer⟩
  · exact callsFirst_of_quiet (htodo' ▸ hpushed.append hquiet)

/-- A fault leaves the statement undone. -/
theorem advance_fault (h : m.CallsFirst) (f : Fault) : Advance fails fills m (m.fault f) [] :=
  ⟨(List.append_nil _).symm, .same (.of_eq rfl) id, .same (.of_eq rfl) id,
    TcpConnection.untouched_of_eq rfl rfl, ⟨h.later, h.first⟩⟩

theorem quiet_onNewMessage {cfg : ServerConfig} {s : Session} {msg : MessagePreamble}
    {statements : List Statement} (h : onNewMessage cfg s msg = .ok statements) :
    Quiet statements := by
  unfold onNewMessage at h
  split at h
  · obtain rfl := Except.ok.inj h
    exact quiet_nil
  · obtain rfl := Except.ok.inj h
    exact quiet_writes _
  · obtain ⟨us, hus⟩ := getAllRequest_ok cfg.width s.db
    rw [hus] at h
    obtain rfl := Except.ok.inj h
    exact quiet_writes _
  all_goals
    obtain rfl := Except.ok.inj h
    exact quiet_nil.cons rfl

theorem advance_receivedHello {cfg : ServerConfig} {failed : Bool}
    (h : m.CallsFirst) (htodo : m.todo = .callRead failed .receivedHello :: todo) :
    ∃ entries, Advance fails fills m (m.callRead cfg failed todo .receivedHello) entries := by
  have hout := h.outstanding_nil htodo rfl
  have hquiet := h.quiet_tail htodo
  simp only [callRead, receivedHello]
  split
  · exact ⟨[], advance_fault h _⟩
  · refine ⟨[.read .usesBuffer], ?_⟩
    split
    · exact advance_call [.startReadMessage] hout rfl rfl rfl rfl rfl rfl ⟨rfl, rfl⟩ htodo
        rfl (quiet_nil.cons rfl) hquiet
    · have htrace : m.trace ++ [] ++ [.read .usesBuffer] = m.trace ++ [.read .usesBuffer] := by
        rw [List.append_nil]
      exact advance_call [] hout rfl rfl rfl htrace rfl rfl ⟨rfl, rfl⟩ htodo rfl quiet_nil
        hquiet

theorem advance_handleMessage {cfg : ServerConfig} {failed : Bool}
    (h : m.CallsFirst) (htodo : m.todo = .callRead failed .handleMessage :: todo) :
    ∃ entries, Advance fails fills m (m.callRead cfg failed todo .handleMessage) entries := by
  have hout := h.outstanding_nil htodo rfl
  have hquiet := h.quiet_tail htodo
  simp only [callRead, handleMessage]
  split
  · refine ⟨[], advance_same rfl (.of_eq rfl) (.of_eq rfl) (TcpConnection.untouched_of_eq rfl rfl)
      hquiet ?_ ?_⟩
    · rw [dueRead, htodo]
      exact any_of_cons rfl []
    · rw [dueWrite, htodo]
      exact any_of_cons rfl []
  · split
    · exact ⟨[], advance_fault h _⟩
    · split
      · rename_i statements hstatements
        refine ⟨[.read .usesBuffer, .dispatched (.ofBytes m.session.conn.storage.data)],
          advance_call (statements ++ [.rest, .startReadMessage]) hout rfl rfl rfl ?_ rfl rfl
            ⟨rfl, rfl⟩
          htodo ?_ ?_ hquiet⟩
        · exact List.append_assoc _ _ _
        · rw [List.append_assoc]
          rfl
        · exact (quiet_onNewMessage hstatements).append ((quiet_nil.cons rfl).cons rfl)
      · exact ⟨[], advance_fault h _⟩

theorem advance_handleProcessedData {cfg : ServerConfig} {failed : Bool} {msgp : MessagePreamble}
    (h : m.CallsFirst) (htodo : m.todo = .callRead failed (.handleProcessedData msgp) :: todo) :
    ∃ entries, Advance fails fills m
      (m.callRead cfg failed todo (.handleProcessedData msgp)) entries := by
  have hout := h.outstanding_nil htodo rfl
  have hquiet := h.quiet_tail htodo
  simp only [callRead, handleProcessedData]
  split
  · exact ⟨[], advance_fault h _⟩
  · split
    · rename_i e he
      refine ⟨[.read .usesBuffer, .handled msgp m.session.conn.storage.data], advance_call
        (((e.replies ++ e.broadcast).flatMap Submission.ops).map .write ++ [.rest]) hout rfl rfl
        rfl rfl rfl rfl ⟨rfl, rfl⟩ htodo ?_ ?_ hquiet⟩
      · rw [List.append_assoc]
        rfl
      · exact (quiet_writes _).append (quiet_nil.cons rfl)
    · exact ⟨[], advance_fault h _⟩

theorem advance_callRead {cfg : ServerConfig} {failed : Bool} {handler : ReadHandler}
    (h : m.CallsFirst) (htodo : m.todo = .callRead failed handler :: todo) :
    ∃ entries, Advance fails fills m (m.callRead cfg failed todo handler) entries := by
  cases handler with
  | receivedHello => exact advance_receivedHello h htodo
  | handleMessage => exact advance_handleMessage h htodo
  | handleProcessedData msgp => exact advance_handleProcessedData h htodo

/-- What holds of the slots in every run. -/
structure Slots (m : Machine) : Prop where
  reads : Sound waitingReads m.session.conn.reads (readLog m.trace)
  writes : Sound waitingWrites m.session.conn.writes (writeLog m.trace)
  callsFirst : m.CallsFirst

/-! ### Completions -/

/-- `m₁` is the connection when the operation was taken off the socket. -/
theorem advance_handleData {m₁ : Machine} {entries : List Entry} {failed : Bool} {number : Nat}
    {op : ReadOp} (hidle : m.todo = []) (hout : m.session.conn.reads.outstanding = [(number, op)])
    (hreads : m₁.session.conn.reads = { m.session.conn.reads with outstanding := [] })
    (hwrites : m₁.session.conn.writes = m.session.conn.writes)
    (hbuffers : TcpConnection.Untouched fills m.session.conn m₁.session.conn)
    (htrace : m₁.trace = m.trace ++ entries) (hreadLog : readLog entries = [.completed number op])
    (hwriteLog : writeLog entries = []) (hfails : failed = true → fails) :
    Advance fails fills m (m₁.handleData failed number op) entries := by
  have hdue : m.dueWrite = false := by rw [dueWrite, hidle]; rfl
  have hlength (done : List Bool) : (done.set number true).length = done.length := List.length_set
  unfold handleData
  dsimp only
  split
  · rename_i hrequired
    constructor
    · exact (List.append_nil _).trans htrace
    · rw [hreadLog]
      refine .failed number op [] (hfails (Bool.and_eq_true_iff.mp hrequired).2) hout ?_ ?_ ?_
      all_goals simp only [onConn, setDone, hreads, hlength]
    · rw [hwriteLog, hdue]
      exact .same (.of_eq hwrites) Bool.false_ne_true.elim
    · exact ⟨hbuffers.storage, hbuffers.writeStorage⟩
    · exact callsFirst_of_quiet (quiet_nil.cons rfl)
  · constructor
    · exact (List.append_nil _).trans htrace
    · rw [hreadLog]
      refine .released number op [] hout rfl ?_ ?_ ?_ rfl
      all_goals simp only [onConn, setDone, release, cancel, hreads, hlength]
    · rw [hwriteLog, hdue]
      exact .same (.of_eq hwrites) Bool.false_ne_true.elim
    · exact ⟨hbuffers.storage, hbuffers.writeStorage⟩
    · refine ⟨quiet_nil.cons rfl, ?_⟩
      intro _ _ _
      simp only [onConn, setDone, release, cancel, hreads]

theorem advance_readCompletes {count : Nat} (hguarded : m.session.conn.reads.Guarded)
    (hidle : m.todo = []) (hdone : m.readCompletes count = some m') :
    ∃ entries, Advance fails True m m' entries := by
  unfold readCompletes at hdone
  split at hdone
  · cases hdone
  · rename_i number op rest hout
    obtain rfl := hguarded.rest_nil hout
    split at hdone
    · obtain rfl := Option.some.inj hdone
      have hbuffers : ∀ c', c'.writeStorage = m.session.conn.writeStorage →
          TcpConnection.Untouched True m.session.conn c' :=
        fun c' heq => ⟨fun _ => Or.inl trivial, fun _ => heq⟩
      exact ⟨_, advance_handleData hidle hout rfl rfl (hbuffers _ rfl) rfl rfl rfl
        Bool.false_ne_true.elim⟩
    · cases hdone

theorem advance_readFails (hguarded : m.session.conn.reads.Guarded) (hidle : m.todo = [])
    (hdone : m.readFails = some m') : ∃ entries, Advance True fills m m' entries := by
  unfold readFails at hdone
  split at hdone
  · cases hdone
  · rename_i number op rest hout
    obtain rfl := hguarded.rest_nil hout
    obtain rfl := Option.some.inj hdone
    exact ⟨_, advance_handleData hidle hout rfl rfl (TcpConnection.untouched_of_eq rfl rfl) rfl
      rfl rfl fun _ => trivial⟩

theorem advance_writeCompletes {failed : Bool} {count : Nat}
    (hguarded : m.session.conn.writes.Guarded) (hidle : m.todo = [])
    (hfails : failed = true → fails) (hdone : m.writeCompletes failed count = some m') :
    ∃ entries, Advance fails fills m m' entries := by
  unfold writeCompletes at hdone
  split at hdone
  · cases hdone
  · rename_i number op rest hout
    obtain rfl := hguarded.rest_nil hout
    split at hdone
    · obtain rfl := Option.some.inj hdone
      have hdue : m.dueRead = false := by rw [dueRead, hidle]; rfl
      have hlength (done : List Bool) : (done.set number true).length = done.length :=
        List.length_set
      refine ⟨[.write (.completed number op)], ?_⟩
      unfold handleWriteOperation
      dsimp only
      split
      · rename_i hrequired
        constructor
        · exact List.append_nil _
        · rw [hdue]
          exact .same (.of_eq rfl) Bool.false_ne_true.elim
        · refine .failed number op [] (hfails (Bool.and_eq_true_iff.mp hrequired).2) hout rfl rfl ?_
          exact hlength m.session.conn.writes.operationDone
        · exact TcpConnection.untouched_of_eq rfl rfl
        · exact callsFirst_of_quiet (quiet_nil.cons rfl)
      · constructor
        · exact List.append_nil _
        · rw [hdue]
          exact .same (.of_eq rfl) Bool.false_ne_true.elim
        · have hresumes : (op.next.map Statement.write ++
              [Statement.rest, Statement.performPendingWrite]).any Statement.resumesWrite = true :=
            List.any_eq_true.mpr ⟨.performPendingWrite, by simp, rfl⟩
          exact .released number op [] hout rfl rfl rfl
            (hlength m.session.conn.writes.operationDone) hresumes
        · exact TcpConnection.untouched_of_eq rfl rfl
        · refine callsFirst_of_quiet ((quiet_writes op.next).append ?_)
          exact (quiet_nil.cons rfl).cons rfl
    · cases hdone

end Machine

/-! ### All steps -/

/-- An operation fails. -/
def MachineEvent.Fails : MachineEvent → Prop
  | .readFails | .writeFails _ => True
  | _ => False

/-- The socket fills the buffer of a read. -/
def MachineEvent.Fills : MachineEvent → Prop
  | .readCompletes _ => True
  | _ => False

namespace Machine

open Direction

/-- Every step advances the slots: each statement, each call of the server, each completion
and each wait. -/
theorem advance_step {cfg : ServerConfig} {m m' : Machine} {e : MachineEvent} (h : m.Slots)
    (hstep : machineStep cfg m e = some m') : ∃ entries, Advance e.Fails e.Fills m m' entries := by
  have hread : ∀ {st todo}, m.todo = st :: todo → st.resumesRead = false → m.dueRead = true →
      todo.any Statement.resumesRead = true := by
    intro st todo htodo hst
    rw [dueRead, htodo]
    exact any_of_cons hst []
  have hwrite : ∀ {st todo}, m.todo = st :: todo → st.resumesWrite = false → m.dueWrite = true →
      todo.any Statement.resumesWrite = true := by
    intro st todo htodo hst
    rw [dueWrite, htodo]
    exact any_of_cons hst []
  have hquiet : ∀ {st todo}, m.todo = st :: todo → Quiet todo := h.callsFirst.quiet_tail
  have hmayCall := fun hmay : m.mayCall = true => h.callsFirst.quiet_of_mayCall hmay
  cases steps_of_step hstep with
  | write op todo htodo =>
    exact advance_write op h.writes.guarded (hquiet htodo) (hread htodo rfl) (hwrite htodo rfl)
  | read op todo htodo =>
    exact advance_read op h.reads.guarded (hquiet htodo) (hread htodo rfl) (hwrite htodo rfl)
  | startReadMessage todo htodo =>
    exact advance_startReadMessage h.reads.guarded (hquiet htodo) (hread htodo rfl)
      (hwrite htodo rfl)
  | close todo htodo =>
    exact ⟨[], advance_same rfl (.of_eq rfl) (.of_eq rfl) (TcpConnection.untouched_of_eq rfl rfl)
      (hquiet htodo) (hread htodo rfl) (hwrite htodo rfl)⟩
  | callRead failed handler todo htodo => exact advance_callRead h.callsFirst htodo
  | performPendingRead todo htodo =>
    exact advance_performPendingRead h.reads.guarded (hquiet htodo) (hwrite htodo rfl)
  | performPendingWrite todo htodo =>
    exact advance_performPendingWrite h.writes.guarded h.writes.kept (hquiet htodo)
      (hread htodo rfl)
  | rest todo htodo =>
    exact ⟨[], advance_same (List.append_nil _).symm (.of_eq rfl) (.of_eq rfl)
      (TcpConnection.untouched_of_eq rfl rfl) (hquiet htodo) (hread htodo rfl) (hwrite htodo rfl)⟩
  | submitsRead op hmay => exact advance_read op h.reads.guarded (hmayCall hmay) id id
  | submitsWrite op hmay => exact advance_write op h.writes.guarded (hmayCall hmay) id id
  | closes hmay =>
    exact ⟨[], advance_same rfl (.of_eq rfl) (.of_eq rfl) (TcpConnection.untouched_of_eq rfl rfl)
      (hmayCall hmay) id id⟩
  | database db hmay =>
    exact ⟨[], advance_same (List.append_nil _).symm (.of_eq rfl) (.of_eq rfl)
      (TcpConnection.untouched_of_eq rfl rfl) (hmayCall hmay) id id⟩
  | readCompletes count m' hidle hdone => exact advance_readCompletes h.reads.guarded hidle hdone
  | readFails m' hidle hdone => exact advance_readFails h.reads.guarded hidle hdone
  | writeCompletes count m' hidle hdone =>
    exact advance_writeCompletes h.writes.guarded hidle Bool.false_ne_true.elim hdone
  | writeFails count m' hidle hdone =>
    exact advance_writeCompletes h.writes.guarded hidle (fun _ => trivial) hdone
  | readWaitEnds i conn hidle hconn =>
    obtain ⟨hreads, hwrites, hbuffers⟩ := TcpConnection.sameSlot_readWaitEnds hconn
    exact ⟨[], advance_same rfl hreads hwrites hbuffers (quiet_of_idle hidle) id id⟩
  | writeWaitEnds i conn hidle hconn =>
    obtain ⟨hreads, hwrites, hbuffers⟩ := TcpConnection.sameSlot_writeWaitEnds hconn
    exact ⟨[], advance_same rfl hreads hwrites hbuffers (quiet_of_idle hidle) id id⟩

/-- What holds of the slots while no operation failed. -/
structure Moving (m : Machine) : Prop where
  reads : Attended m.session.conn.reads m.dueRead
  writes : Attended m.session.conn.writes m.dueWrite

theorem Slots.advance {fails fills : Prop} {m m' : Machine} {entries : List Entry} (h : m.Slots)
    (hadvance : Advance fails fills m m' entries) : m'.Slots := by
  constructor
  · rw [hadvance.trace, readLog_append]
    exact h.reads.moved hadvance.reads
  · rw [hadvance.trace, writeLog_append]
    exact h.writes.moved hadvance.writes
  · exact hadvance.callsFirst

theorem Moving.advance {fills : Prop} {m m' : Machine} {entries : List Entry} (h : m.Moving)
    (hadvance : Advance False fills m m' entries) : m'.Moving :=
  ⟨h.reads.moved hadvance.reads, h.writes.moved hadvance.writes⟩

/-! ## Runs -/

theorem slots_fresh (db : Db) (memory : Nat → Nat) (stream : List UInt8) :
    (fresh db memory stream).Slots where
  reads := ⟨guarded_of_nil rfl, fun _ hop => absurd hop List.not_mem_nil, .nil _⟩
  writes := ⟨guarded_of_nil rfl, fun _ hop => absurd hop List.not_mem_nil, .nil _⟩
  callsFirst := callsFirst_of_quiet quiet_nil

theorem moving_fresh (db : Db) (memory : Nat → Nat) (stream : List UInt8) :
    (fresh db memory stream).Moving where
  reads := ⟨Bool.false_ne_true.elim, fun hpend => absurd rfl hpend⟩
  writes := ⟨Bool.false_ne_true.elim, fun hpend => absurd rfl hpend⟩

/-- `start` submits the read of the HELLO. -/
theorem advance_start {fails fills : Prop} (db : Db) (memory : Nat → Nat) (stream : List UInt8) :
    ∃ entries, Advance fails fills (fresh db memory stream)
      (startMachine db memory stream) entries :=
  advance_read _ (guarded_of_nil rfl) quiet_nil id id

theorem slots_run {cfg : ServerConfig} {db : Db} {memory : Nat → Nat} {stream : List UInt8}
    {es : List MachineEvent} {m : Machine}
    (hrun : run (machineStep cfg) (startMachine db memory stream) es = some m) : m.Slots := by
  have hstart : (startMachine db memory stream).Slots := by
    obtain ⟨entries, hadvance⟩ := @advance_start True True db memory stream
    exact (slots_fresh db memory stream).advance hadvance
  refine run_invariant Slots ?_ hstart (Along.of_forall (p := fun _ => True) (fun _ _ => trivial) _)
    hrun
  intro m e m' hm _ hstep
  obtain ⟨entries, hadvance⟩ := advance_step hm hstep
  exact hm.advance hadvance

theorem moving_run {cfg : ServerConfig} {db : Db} {memory : Nat → Nat} {stream : List UInt8}
    {es : List MachineEvent} {m : Machine} (hok : ∀ e ∈ es, ¬ e.Fails)
    (hrun : run (machineStep cfg) (startMachine db memory stream) es = some m) : m.Moving := by
  have hstart : (startMachine db memory stream).Slots ∧ (startMachine db memory stream).Moving := by
    obtain ⟨entries, hadvance⟩ := @advance_start False True db memory stream
    exact ⟨(slots_fresh db memory stream).advance hadvance,
      (moving_fresh db memory stream).advance hadvance⟩
  refine (run_invariant (fun m => m.Slots ∧ m.Moving) ?_ hstart (Along.of_forall hok _) hrun).2
  rintro m e m' ⟨hslots, hmoving⟩ hsucceeds hstep
  obtain ⟨entries, hadvance⟩ := advance_step hslots hstep
  rw [eq_false hsucceeds] at hadvance
  exact ⟨hslots.advance hadvance, hmoving.advance hadvance⟩

end Machine

/-! ## Exclusive slots -/

/-- In every run, whatever is submitted, also by the handlers, and whatever completes,
fails or expires: the socket has one read and one write at most.  Nothing is started,
and the buffer of a direction is not allocated, written or cleared, while an operation of
the direction is outstanding. -/
theorem exclusive_slots {cfg : ServerConfig} {db : Db} {memory : Nat → Nat} {stream : List UInt8}
    {es : List MachineEvent} {m : Machine}
    (hrun : run (machineStep cfg) (startMachine db memory stream) es = some m) :
    (m.session.conn.reads.outstanding.length ≤ 1 ∧ m.session.conn.writes.outstanding.length ≤ 1) ∧
      (outstanding (readLog m.trace) = m.session.conn.reads.outstanding ∧
        outstanding (writeLog m.trace) = m.session.conn.writes.outstanding) ∧
      (Exclusive (readLog m.trace) ∧ Exclusive (writeLog m.trace)) ∧
      ∀ e m', machineStep cfg m e = some m' →
        TcpConnection.Untouched e.Fills m.session.conn m'.session.conn := by
  have hslots := Machine.slots_run hrun
  have hreads := hslots.reads.accounts
  have hwrites := hslots.writes.accounts
  refine ⟨⟨hslots.reads.guarded.single, hslots.writes.guarded.single⟩,
    ⟨hreads.outstanding_eq, hwrites.outstanding_eq⟩, ⟨hreads.exclusive, hwrites.exclusive⟩, ?_⟩
  intro e m' hstep
  obtain ⟨entries, hadvance⟩ := Machine.advance_step hslots hstep
  exact hadvance.buffers

/-- A PING is handled: its pong is written, and the next preamble read, while the handler
still executes. -/
theorem exclusive_slots_ping : ∃ m, run (machineStep ⟨64, false, fun _ => 0⟩)
      (startMachine Db.empty (fun _ => 0) (hello ++ [3, 0, 0, 0, 0, 0, 0]))
      ([.readCompletes 6] ++ List.replicate 3 .proceed ++ [.readCompletes 7] ++
        List.replicate 4 .proceed) = some m ∧
    m.todo.length = 1 ∧ m.session.conn.reads.outstanding.length ≤ 1 ∧
      m.session.conn.writes.outstanding.length ≤ 1 := by
  refine ⟨_, rfl, rfl, ?_⟩
  exact (@exclusive_slots ⟨64, false, fun _ => 0⟩ Db.empty (fun _ => 0)
    (hello ++ [3, 0, 0, 0, 0, 0, 0])
    ([.readCompletes 6] ++ List.replicate 3 .proceed ++ [.readCompletes 7] ++
      List.replicate 4 .proceed) _ rfl).1

/-! ## No operation is lost -/

/-- Each operation that was submitted is in one place: it was completed, is outstanding or
waits.  Those that were started were started once. -/
structure Placed {O : Type} (norm : O → O) (d : Direction O) (log : List (Action O)) : Prop where
  places : ((submissions log).map norm).Perm
    (((completions log).map Prod.snd ++ d.outstanding.map Prod.snd ++ d.pending).map norm)
  started : starts log = completions log ++ d.outstanding
  once : ((starts log).map Prod.fst).Nodup

theorem Direction.Sound.placed {O : Type} {w : Direction.Waiting O} {d : Direction O}
    {log : List (Action O)} (h : d.Sound w log) : Placed w.norm d log where
  places := by
    simpa only [h.accounts.places, List.map_append] using h.accounts.conserved
  started := h.accounts.places
  once := by
    rw [h.accounts.numbers]
    exact List.nodup_range

/-- While no operation has failed: every operation that was submitted, but for the empty
writes, is completed, outstanding or waiting, once.  Whenever no handler executes, a
queue that is not empty has an operation of its kind outstanding. -/
theorem no_operation_lost {cfg : ServerConfig} {db : Db} {memory : Nat → Nat} {stream : List UInt8}
    {es : List MachineEvent} {m : Machine} (hok : ∀ e ∈ es, ¬ e.Fails)
    (hrun : run (machineStep cfg) (startMachine db memory stream) es = some m) :
    Placed id m.session.conn.reads (readLog m.trace) ∧
      Placed WriteOp.untimed m.session.conn.writes (writeLog m.trace) ∧
      (m.todo = [] →
        (m.session.conn.reads.pending ≠ [] → m.session.conn.reads.outstanding ≠ []) ∧
        (m.session.conn.writes.pending ≠ [] → m.session.conn.writes.outstanding ≠ [])) := by
  have hslots := Machine.slots_run hrun
  have hmoving := Machine.moving_run hok hrun
  refine ⟨hslots.reads.placed, hslots.writes.placed, ?_⟩
  intro hidle
  constructor
  · intro hpend
    have hdue : m.dueRead ≠ true := by simp [Machine.dueRead, hidle]
    exact (hmoving.reads.moving hpend).resolve_right hdue
  · intro hpend
    have hdue : m.dueWrite ≠ true := by simp [Machine.dueWrite, hidle]
    exact (hmoving.writes.moving hpend).resolve_right hdue

/-- Two writes are submitted, and the second one waits. -/
theorem no_operation_lost_two : ∃ m, run (machineStep ⟨64, false, fun _ => 0⟩)
      (startMachine Db.empty (fun _ => 0) [])
      [.submitsWrite (preambleWrite (pong 0) []), .submitsWrite (preambleWrite (pong 0) [])] =
        some m ∧
    m.session.conn.writes.pending.length = 1 ∧ m.session.conn.writes.outstanding ≠ [] := by
  refine ⟨_, rfl, rfl, ?_⟩
  have hok : ∀ e ∈ [MachineEvent.submitsWrite (preambleWrite (pong 0) []),
      .submitsWrite (preambleWrite (pong 0) [])], ¬ e.Fails := by
    intro e he
    simp only [List.mem_cons, List.not_mem_nil, or_false, or_self] at he
    rw [he]
    exact id
  exact ((@no_operation_lost ⟨64, false, fun _ => 0⟩ Db.empty (fun _ => 0) []
    [.submitsWrite (preambleWrite (pong 0) []), .submitsWrite (preambleWrite (pong 0) [])] _ hok
    rfl).2.2 rfl).2 (List.cons_ne_nil _ _)

end StateDb
