/-
  StateDb/Timers.lean
  ===================
  **The deadline timers** (`run_timer`, `handle_timeout_expiration`, `handle_data`,
  `handle_write_operation`).

  The operations of a direction have one timer after another.  A wait is cancelled when an
  operation completes, and when the timer is armed for the next one; the handler of a wait does
  not ask which of the two it was, nor whether the time is over.  It asks whether its operation
  is done, and in every run a cancelled wait finds that it is (`cancelled_waits_idle`).

  What a step does to the flags and the waits is said once (`Direction.Ticked`).
-/
import StateDb.Operations

namespace StateDb

open Lib

/-! ## What a step does to the waits -/

namespace Direction

variable {O : Type} {d d' d₁ : Direction O}

/-- The socket has the same operations, and the flags and the waits are the same. -/
structure SameTimers (d d' : Direction O) : Prop where
  outstanding : d'.outstanding = d.outstanding
  operationDone : d'.operationDone = d.operationDone
  waits : d'.waits = d.waits

inductive Ticked (d d' : Direction O) : Prop
  | same : SameTimers d d' → Ticked d d'
  | started (op : O) (timeout : Nat) : d.inProgress = false → SameTimers (d.start op timeout) d' →
      Ticked d d'
  | completed (number : Nat) (op : O) (rest : List (Nat × O)) :
      d.outstanding = (number, op) :: rest →
      d'.outstanding = rest → d'.operationDone = d.operationDone.set number true →
      (d'.waits = d.waits ∨ d'.waits = d.cancel.waits) → Ticked d d'
  | waitEnded (i : Nat) : d'.outstanding = d.outstanding → d'.operationDone = d.operationDone →
      d'.waits = d.waits.eraseIdx i → Ticked d d'

theorem SameTimers.refl (d : Direction O) : SameTimers d d := ⟨rfl, rfl, rfl⟩

theorem Ticked.of_eq (h : d' = d) : Ticked d d' := by
  subst h
  exact .same (.refl d')

/-- The queue has no part in it. -/
theorem Ticked.of_pending {pending : List O} (h : Ticked { d with pending := pending } d') :
    Ticked d d' := by
  cases h with
  | same hsame => exact .same ⟨hsame.outstanding, hsame.operationDone, hsame.waits⟩
  | started op timeout hfree hsame =>
    refine .started op timeout hfree ?_
    obtain ⟨hout, hdone, hwaits⟩ := hsame
    unfold start at hout hdone hwaits ⊢
    by_cases htimeout : timeout ≠ 0
    · rw [if_pos htimeout] at hout hdone hwaits ⊢
      exact ⟨hout, hdone, hwaits⟩
    · rw [if_neg htimeout] at hout hdone hwaits ⊢
      exact ⟨hout, hdone, hwaits⟩
  | completed number op rest hout hrest hdone hwaits =>
    exact .completed number op rest hout hrest hdone hwaits
  | waitEnded i hout hdone hwaits => exact .waitEnded i hout hdone hwaits

/-- What holds of the flags and the waits in every run. -/
structure Timed (d : Direction O) : Prop where
  undone : ∀ n, d.operationDone[n]? = some false → ∃ op, (n, op) ∈ d.outstanding
  numbered : ∀ w ∈ d.waits, w.number < d.operationDone.length
  cancelled : ∀ w ∈ d.waits, w.cancelled = true → d.operationDone[w.number]? = some true

/-- While nothing is outstanding, all operations are done. -/
theorem done_of_outstanding_nil
    (hundone : ∀ n, d.operationDone[n]? = some false → ∃ op, (n, op) ∈ d.outstanding)
    (hout : d.outstanding = []) {n : Nat} (hn : n < d.operationDone.length) :
    d.operationDone[n]? = some true := by
  rw [List.getElem?_eq_getElem hn]
  cases hflag : d.operationDone[n] with
  | true => rfl
  | false =>
    obtain ⟨op, hop⟩ := hundone n (by rw [List.getElem?_eq_getElem hn, hflag])
    rw [hout] at hop
    cases hop

theorem Timed.of_same (h : Timed d) (hsame : SameTimers d d') : Timed d' := by
  obtain ⟨hout, hdone, hwaits⟩ := hsame
  constructor
  · rw [hout, hdone]
    exact h.undone
  · rw [hdone, hwaits]
    exact h.numbered
  · rw [hdone, hwaits]
    exact h.cancelled

/-- The waits that `cancel` leaves are the same but for the flag. -/
theorem exists_of_mem_cancel {w : Wait} (hw : w ∈ d.cancel.waits) :
    ∃ w' ∈ d.waits, w'.number = w.number := by
  obtain ⟨w', hw', rfl⟩ := List.mem_map.mp hw
  exact ⟨w', hw', rfl⟩

theorem Timed.start (h : Timed d) (hout : d.outstanding = []) (op : O) (timeout : Nat) :
    Timed (d.start op timeout) := by
  have hdone {n : Nat} (hn : n < d.operationDone.length) :
      (d.operationDone ++ [false])[n]? = some true := by
    rw [List.getElem?_append_left hn]
    exact done_of_outstanding_nil h.undone hout hn
  have hnumber {w : Wait} (hw : w ∈ (d.start op timeout).waits) :
      w.number < d.operationDone.length ∨ w = ⟨d.operationDone.length, timeout, false⟩ := by
    unfold Direction.start at hw
    split at hw
    · rcases List.mem_append.mp hw with hw | hw
      · obtain ⟨w', hw', heq⟩ := exists_of_mem_cancel hw
        exact Or.inl (heq ▸ h.numbered w' hw')
      · exact Or.inr (List.mem_singleton.mp hw)
    · exact Or.inl (h.numbered w hw)
  constructor
  · intro n hn
    rw [start_operationDone] at hn
    rw [start_outstanding]
    by_cases hlt : n < d.operationDone.length
    · rw [hdone hlt] at hn
      cases hn
    · have hlen := (List.getElem?_eq_some_iff.mp hn).1
      rw [List.length_append, List.length_singleton] at hlen
      obtain rfl : n = d.operationDone.length := by omega
      exact ⟨op, List.mem_append_right _ (List.mem_singleton_self _)⟩
  · intro w hw
    rw [start_operationDone, List.length_append, List.length_singleton]
    rcases hnumber hw with hlt | rfl
    · omega
    · exact Nat.lt_succ_self _
  · intro w hw hcancelled
    rw [start_operationDone]
    rcases hnumber hw with hlt | rfl
    · exact hdone hlt
    · cases hcancelled

theorem Timed.ticked (h : Timed d) (hguarded : d.Guarded) (hticked : Ticked d d') : Timed d' := by
  cases hticked with
  | same hsame => exact h.of_same hsame
  | started op timeout hfree hsame => exact (h.start (hguarded.free hfree) op timeout).of_same hsame
  | completed number op rest hout hrest hdone hwaits =>
    obtain rfl := hguarded.rest_nil hout
    have hundone : ∀ n, d'.operationDone[n]? = some false → ∃ op, (n, op) ∈ d'.outstanding := by
      intro n hn
      rw [hdone] at hn
      by_cases heq : n = number
      · subst heq
        obtain ⟨hlt, hflag⟩ := List.getElem?_eq_some_iff.mp hn
        rw [List.getElem_set_self] at hflag
        cases hflag
      · rw [List.getElem?_set_ne (Ne.symm heq)] at hn
        obtain ⟨op', hop'⟩ := h.undone n hn
        rw [hout] at hop'
        exact absurd (Prod.mk.inj (List.mem_singleton.mp hop')).1 heq
    have hnumbered : ∀ w ∈ d'.waits, w.number < d'.operationDone.length := by
      intro w hw
      rw [hdone, List.length_set]
      rcases hwaits with hwaits | hwaits
      · exact h.numbered w (hwaits ▸ hw)
      · obtain ⟨w', hw', heq⟩ := exists_of_mem_cancel (hwaits ▸ hw)
        exact heq ▸ h.numbered w' hw'
    exact ⟨hundone, hnumbered, fun w hw _ => done_of_outstanding_nil hundone hrest (hnumbered w hw)⟩
  | waitEnded i hout hdone hwaits =>
    have hmem {w : Wait} (hw : w ∈ d'.waits) : w ∈ d.waits := by
      rw [hwaits] at hw
      exact List.mem_of_mem_eraseIdx hw
    constructor
    · rw [hout, hdone]
      exact h.undone
    · rw [hdone]
      exact fun w hw => h.numbered w (hmem hw)
    · rw [hdone]
      exact fun w hw => h.cancelled w (hmem hw)

end Direction

/-! ## Steps -/

namespace TcpConnection

open Direction

theorem ticked_perform (c : TcpConnection Part) (op : WriteOp Part) :
    Ticked c.writes (c.perform op).writes := by
  rcases perform_cases c op with heq | ⟨op', constructed, heq⟩ | ⟨hfree, heq⟩
  · rw [heq]
    exact .of_eq rfl
  · rw [heq]
    exact .same ⟨rfl, rfl, rfl⟩
  · rw [heq]
    exact .started op op.timeout hfree (.refl _)

theorem ticked_performPending (c : TcpConnection Part) :
    Ticked c.writes c.performPending.writes := by
  unfold performPending
  split
  · exact .of_eq rfl
  · rename_i op rest hpend
    exact (ticked_perform { c with writes := { c.writes with pending := rest } } op).of_pending

theorem ticked_submitRead (c : TcpConnection Part) (op : ReadOp) :
    Ticked c.reads (c.submitRead op).reads := by
  cases hprog : c.reads.inProgress with
  | false =>
    rw [submitRead_free hprog]
    exact .started op op.timeout hprog (.refl _)
  | true =>
    rw [submitRead_taken hprog]
    exact .same ⟨rfl, rfl, rfl⟩

theorem ticked_performPendingRead (c : TcpConnection Part) :
    Ticked c.reads c.performPendingRead.reads := by
  unfold performPendingRead
  split
  · exact .of_eq rfl
  · rename_i op rest hpend
    exact (ticked_submitRead { c with reads := { c.reads with pending := rest } } op).of_pending

/-- The `i`-th wait of the read timer is over, and nothing else happens. -/
def dropReadWait (c : TcpConnection Part) (i : Nat) : TcpConnection Part :=
  { c with reads := { c.reads with waits := c.reads.waits.eraseIdx i } }

def dropWriteWait (c : TcpConnection Part) (i : Nat) : TcpConnection Part :=
  { c with writes := { c.writes with waits := c.writes.waits.eraseIdx i } }

theorem readWaitEnds_eq {c : TcpConnection Part} {i : Nat} {w : Wait} {done : Bool}
    (hw : c.reads.waits[i]? = some w) (hdone : c.reads.operationDone[w.number]? = some done) :
    c.readWaitEnds i = some ((c.dropReadWait i).handleTimeoutExpiration done) := by
  simp only [readWaitEnds, hw, hdone, Option.bind_eq_bind, Option.bind_some]
  rfl

theorem writeWaitEnds_eq {c : TcpConnection Part} {i : Nat} {w : Wait} {done : Bool}
    (hw : c.writes.waits[i]? = some w) (hdone : c.writes.operationDone[w.number]? = some done) :
    c.writeWaitEnds i = some ((c.dropWriteWait i).handleTimeoutExpiration done) := by
  simp only [writeWaitEnds, hw, hdone, Option.bind_eq_bind, Option.bind_some]
  rfl

end TcpConnection

namespace Machine

open Direction TcpConnection

variable {m m' : Machine}

/-- What a step does to the timers of the two directions. -/
structure Ticks (m m' : Machine) : Prop where
  reads : Ticked m.session.conn.reads m'.session.conn.reads
  writes : Ticked m.session.conn.writes m'.session.conn.writes

theorem ticks_of_eq (hreads : m'.session.conn.reads = m.session.conn.reads)
    (hwrites : m'.session.conn.writes = m.session.conn.writes) : Ticks m m' :=
  ⟨.of_eq hreads, .of_eq hwrites⟩

theorem ticks_write (op : WriteOp Part) (todo : List Statement) :
    Ticks m { m.write op with todo := todo } :=
  ⟨.of_eq (sameReads_perform m.session.conn op).reads, ticked_perform m.session.conn op⟩

theorem ticks_read (op : ReadOp) (todo : List Statement) :
    Ticks m { m.read op with todo := todo } :=
  ⟨ticked_submitRead m.session.conn op, .of_eq (submitRead_writes m.session.conn op)⟩

theorem ticks_callRead {cfg : ServerConfig} (failed : Bool) (handler : ReadHandler)
    (todo : List Statement) : Ticks m (m.callRead cfg failed todo handler) := by
  cases handler with
  | receivedHello =>
    simp only [callRead, receivedHello]
    split
    · exact ticks_of_eq rfl rfl
    · split <;> exact ticks_of_eq rfl rfl
  | handleMessage =>
    simp only [callRead, handleMessage]
    split
    · exact ticks_of_eq rfl rfl
    · split
      · exact ticks_of_eq rfl rfl
      · split <;> exact ticks_of_eq rfl rfl
  | handleProcessedData msgp =>
    simp only [callRead, handleProcessedData]
    split
    · exact ticks_of_eq rfl rfl
    · split <;> exact ticks_of_eq rfl rfl

theorem ticks_handleData {m₁ : Machine} {failed : Bool} {number : Nat} {op : ReadOp}
    {rest : List (Nat × ReadOp)} (hout : m.session.conn.reads.outstanding = (number, op) :: rest)
    (hreads : m₁.session.conn.reads = { m.session.conn.reads with outstanding := rest })
    (hwrites : m₁.session.conn.writes = m.session.conn.writes) :
    Ticks m (m₁.handleData failed number op) := by
  unfold handleData
  dsimp only
  split
  · refine ⟨.completed number op rest hout ?_ ?_ (Or.inl ?_), .of_eq hwrites⟩
    all_goals simp only [onConn, setDone, hreads]
  · refine ⟨.completed number op rest hout ?_ ?_ (Or.inr ?_), .of_eq hwrites⟩
    all_goals simp only [onConn, setDone, release, cancel, hreads]

theorem ticks_readCompletes {count : Nat} (hdone : m.readCompletes count = some m') :
    Ticks m m' := by
  unfold readCompletes at hdone
  split at hdone
  · cases hdone
  · rename_i number op rest hout
    split at hdone
    · obtain rfl := Option.some.inj hdone
      exact ticks_handleData hout rfl rfl
    · cases hdone

theorem ticks_readFails (hdone : m.readFails = some m') : Ticks m m' := by
  unfold readFails at hdone
  split at hdone
  · cases hdone
  · rename_i number op rest hout
    obtain rfl := Option.some.inj hdone
    exact ticks_handleData hout rfl rfl

theorem ticks_writeCompletes {failed : Bool} {count : Nat}
    (hdone : m.writeCompletes failed count = some m') : Ticks m m' := by
  unfold writeCompletes at hdone
  split at hdone
  · cases hdone
  · rename_i number op rest hout
    split at hdone
    · obtain rfl := Option.some.inj hdone
      unfold handleWriteOperation
      dsimp only
      split
      · exact ⟨.of_eq rfl, .completed number op rest hout rfl rfl (Or.inl rfl)⟩
      · exact ⟨.of_eq rfl, .completed number op rest hout rfl rfl (Or.inr rfl)⟩
    · cases hdone

theorem ticks_readWaitEnds {i : Nat} {conn : TcpConnection Part}
    (hconn : m.session.conn.readWaitEnds i = some conn) : Ticks m (m.onConn conn []) := by
  obtain ⟨w, -, hconn⟩ := Option.bind_eq_some_iff.mp hconn
  obtain ⟨done, -, hconn⟩ := Option.bind_eq_some_iff.mp hconn
  obtain rfl := Option.some.inj hconn
  cases done with
  | true => exact ⟨.waitEnded i rfl rfl rfl, .of_eq rfl⟩
  | false => exact ⟨.waitEnded i rfl rfl rfl, .of_eq rfl⟩

theorem ticks_writeWaitEnds {i : Nat} {conn : TcpConnection Part}
    (hconn : m.session.conn.writeWaitEnds i = some conn) : Ticks m (m.onConn conn []) := by
  obtain ⟨w, -, hconn⟩ := Option.bind_eq_some_iff.mp hconn
  obtain ⟨done, -, hconn⟩ := Option.bind_eq_some_iff.mp hconn
  obtain rfl := Option.some.inj hconn
  cases done with
  | true => exact ⟨.of_eq rfl, .waitEnded i rfl rfl rfl⟩
  | false => exact ⟨.of_eq rfl, .waitEnded i rfl rfl rfl⟩

/-- Every step: each statement, each call of the server, each completion and each wait. -/
theorem ticks_step {cfg : ServerConfig} {e : MachineEvent} (hstep : machineStep cfg m e = some m') :
    Ticks m m' := by
  cases steps_of_step hstep with
  | write op todo htodo => exact ticks_write op todo
  | read op todo htodo => exact ticks_read op todo
  | startReadMessage todo htodo =>
    unfold startReadMessage
    split
    · exact ticks_of_eq rfl rfl
    · exact ticks_read _ todo
  | close todo htodo => exact ticks_of_eq rfl rfl
  | callRead failed handler todo htodo => exact ticks_callRead failed handler todo
  | performPendingRead todo htodo =>
    exact ⟨ticked_performPendingRead m.session.conn,
      .of_eq (performPendingRead_writes m.session.conn)⟩
  | performPendingWrite todo htodo =>
    exact ⟨.of_eq (sameReads_performPending m.session.conn).reads,
      ticked_performPending m.session.conn⟩
  | rest todo htodo => exact ticks_of_eq rfl rfl
  | submitsRead op hmay => exact ticks_read op m.todo
  | submitsWrite op hmay => exact ticks_write op m.todo
  | closes hmay => exact ticks_of_eq rfl rfl
  | database db hmay => exact ticks_of_eq rfl rfl
  | readCompletes count m' hidle hdone => exact ticks_readCompletes hdone
  | readFails m' hidle hdone => exact ticks_readFails hdone
  | writeCompletes count m' hidle hdone => exact ticks_writeCompletes hdone
  | writeFails count m' hidle hdone => exact ticks_writeCompletes hdone
  | readWaitEnds i conn hidle hconn => exact ticks_readWaitEnds hconn
  | writeWaitEnds i conn hidle hconn => exact ticks_writeWaitEnds hconn

/-! ## Runs -/

/-- What holds of the timers in every run. -/
structure Timers (m : Machine) : Prop where
  slots : m.Slots
  reads : Timed m.session.conn.reads
  writes : Timed m.session.conn.writes

theorem Timers.ticks (h : m.Timers) (hslots : m'.Slots) (hticks : Ticks m m') : m'.Timers :=
  ⟨hslots, h.reads.ticked h.slots.reads.guarded hticks.reads,
    h.writes.ticked h.slots.writes.guarded hticks.writes⟩

theorem timed_empty {O : Type} : Timed ({} : Direction O) where
  undone n hn := by simp at hn
  numbered w hw := absurd hw List.not_mem_nil
  cancelled w hw := absurd hw List.not_mem_nil

theorem timers_run {cfg : ServerConfig} {db : Db} {memory : Nat → Nat} {stream : List UInt8}
    {es : List MachineEvent}
    (hrun : run (machineStep cfg) (startMachine db memory stream) es = some m) : m.Timers := by
  have hfresh : (fresh db memory stream).Timers :=
    ⟨slots_fresh db memory stream, timed_empty, timed_empty⟩
  have hstart : (startMachine db memory stream).Timers :=
    hfresh.ticks (@slots_run cfg db memory stream [] _ rfl) (ticks_read _ _)
  refine run_invariant Timers ?_ hstart
    (Along.of_forall (p := fun _ => True) (fun _ _ => trivial) _) hrun
  intro m e m' hm _ hstep
  obtain ⟨entries, hadvance⟩ := advance_step hm.slots hstep
  exact hm.ticks (hm.slots.advance hadvance) (ticks_step hstep)

end Machine

/-! ## The waits -/

/-- The `i`-th wait of the direction ends: `dropped` is the connection without it, and `ends` what
the connection is when its handler has run.  If the wait was cancelled, its operation is done, and
the handler does nothing.  The handler closes the connection only if the operation of the wait is
outstanding, and was not completed. -/
def EndsRightly {O : Type} (d : Direction O) (log : List (Action O)) (i : Nat)
    (dropped : TcpConnection Part) (ends : Option (TcpConnection Part)) : Prop :=
  ∀ w, d.waits[i]? = some w →
    (w.cancelled = true → d.operationDone[w.number]? = some true ∧ ends = some dropped) ∧
    (ends = some dropped ∨ ends = some dropped.close ∧ d.operationDone[w.number]? = some false ∧
      (∃ op, (w.number, op) ∈ d.outstanding) ∧ ∀ op, (w.number, op) ∉ Action.completions log)

theorem Direction.Timed.endsRightly {O : Type} {norm : O → O} {d : Direction O}
    {log : List (Action O)} (h : d.Timed) (hplaced : Placed norm d log) {i : Nat}
    {dropped : TcpConnection Part} {ends : Option (TcpConnection Part)}
    (hends : ∀ {w done}, d.waits[i]? = some w → d.operationDone[w.number]? = some done →
      ends = some (dropped.handleTimeoutExpiration done)) : EndsRightly d log i dropped ends := by
  intro w hw
  have hmem := List.mem_of_getElem? hw
  obtain ⟨done, hdone⟩ : ∃ done, d.operationDone[w.number]? = some done :=
    ⟨_, List.getElem?_eq_getElem (h.numbered w hmem)⟩
  constructor
  · intro hcancelled
    have htrue := h.cancelled w hmem hcancelled
    exact ⟨htrue, hends hw htrue⟩
  · cases done with
    | true => exact Or.inl (hends hw hdone)
    | false =>
      obtain ⟨op, hop⟩ := h.undone w.number hdone
      refine Or.inr ⟨hends hw hdone, hdone, ⟨op, hop⟩, fun op' hop' => ?_⟩
      have honce := hplaced.once
      rw [hplaced.started, List.map_append] at honce
      exact (List.nodup_append.mp honce).2.2 w.number (List.mem_map.mpr ⟨_, hop', rfl⟩) w.number
        (List.mem_map.mpr ⟨_, hop, rfl⟩) rfl

/-- In every run: a wait that was cancelled finds its operation done and has no effect, and a wait
that closes the connection is that of an operation that has not completed. -/
theorem cancelled_waits_idle {cfg : ServerConfig} {db : Db} {memory : Nat → Nat}
    {stream : List UInt8} {es : List MachineEvent} {m : Machine}
    (hrun : run (machineStep cfg) (startMachine db memory stream) es = some m) (i : Nat) :
    EndsRightly m.session.conn.reads (readLog m.trace) i (m.session.conn.dropReadWait i)
        (m.session.conn.readWaitEnds i) ∧
      EndsRightly m.session.conn.writes (writeLog m.trace) i (m.session.conn.dropWriteWait i)
        (m.session.conn.writeWaitEnds i) := by
  obtain ⟨hslots, hreads, hwrites⟩ := Machine.timers_run hrun
  exact ⟨hreads.endsRightly hslots.reads.placed TcpConnection.readWaitEnds_eq,
    hwrites.endsRightly hslots.writes.placed TcpConnection.writeWaitEnds_eq⟩

/-- The HELLO was read, and its wait cancelled; the wait is over while the preamble is read. -/
theorem cancelled_waits_idle_hello : ∃ m, run (machineStep ⟨64, false, fun _ => 0⟩)
      (startMachine Db.empty (fun _ => 0) hello) ([.readCompletes 6] ++ List.replicate 3 .proceed) =
        some m ∧
    m.session.conn.reads.waits = [⟨0, 6000, true⟩] ∧ m.session.conn.reads.outstanding ≠ [] ∧
    m.session.conn.readWaitEnds 0 = some (m.session.conn.dropReadWait 0) := by
  refine ⟨_, rfl, rfl, List.cons_ne_nil _ _, ?_⟩
  exact (((@cancelled_waits_idle ⟨64, false, fun _ => 0⟩ Db.empty (fun _ => 0) hello
    ([.readCompletes 6] ++ List.replicate 3 .proceed) _ rfl 0).1 ⟨0, 6000, true⟩ rfl).1 rfl).2

end StateDb
