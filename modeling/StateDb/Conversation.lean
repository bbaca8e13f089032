/-
  StateDb/Conversation.lean
  =========================
  **One message after the other** (`async_read_raw`, `handle_data`, `start_read_message`,
  `handle_message`, `process_message`).

  `handle_message` starts the read of the body, and at once submits the read of the next
  preamble, which waits.  `handle_data` then pops it, finds the slot taken, and puts it
  back.  The reads of a connection go through a few stages (`ReadStage`): each says what the
  handler that executes has left to do with the reads, what the socket reads, what waits,
  and which messages were read before.  The other statements leave the stage alone
  (`ReadStage.of_keeps`), and each statement about reads leads from one stage to the next.
-/
import StateDb.Operations

namespace StateDb

open Lib Lib.Action

/-! ## What was read -/

inductive ReadEvent where
  | started (op : ReadOp)
  /-- The socket filled the buffer. -/
  | filled (data : List UInt8)
  | dispatched (msg : MessagePreamble)
  | handled (msgp : MessagePreamble) (body : List UInt8)
deriving DecidableEq, Repr

def conversation (trace : List Entry) : List ReadEvent :=
  trace.filterMap fun
    | .read (.started _ op) => some (.started op)
    | .filled data => some (.filled data)
    | .dispatched msg => some (.dispatched msg)
    | .handled msgp body => some (.handled msgp body)
    | _ => none

/-- The read of a HELLO. -/
def helloEvents (data : List UInt8) : List ReadEvent := [.started helloRead, .filled data]

/-- The read of a preamble, and the call of the handler of its command. -/
def preambleEvents (data : List UInt8) : List ReadEvent :=
  [.started preambleRead, .filled data, .dispatched (.ofBytes data)]

/-- The read of the body of a message, and the run of the handler on it. -/
def bodyEvents (msg : MessagePreamble) (body : List UInt8) : List ReadEvent :=
  [.started (bodyRead msg), .filled body, .handled msg body]

/-- A whole message: its body is read if the handler of the command asks for it. -/
def messageEvents (data body : List UInt8) : List ReadEvent :=
  let msg := MessagePreamble.ofBytes data
  preambleEvents data ++ if msg.readsBody then bodyEvents msg body else []

/-- A HELLO, and whole messages. -/
def Whole (events : List ReadEvent) : Prop :=
  ∃ (data : List UInt8) (messages : List (List UInt8 × List UInt8)),
    events = helloEvents data ++ messages.flatMap fun p => messageEvents p.1 p.2

theorem conversation_append (trace trace' : List Entry) :
    conversation (trace ++ trace') = conversation trace ++ conversation trace' :=
  List.filterMap_append

@[simp] theorem conversation_writes (as : List (Action (WriteOp Part))) :
    conversation (as.map .write) = [] := by
  simp [conversation, List.filterMap_map]

theorem whole_hello (data : List UInt8) : Whole (helloEvents data) := ⟨data, [], rfl⟩

theorem Whole.message {events : List ReadEvent} (h : Whole events) (data body : List UInt8) :
    Whole (events ++ messageEvents data body) := by
  obtain ⟨greeting, messages, rfl⟩ := h
  refine ⟨greeting, messages ++ [(data, body)], ?_⟩
  simp

/-! ## Stages -/

/-- The next preamble waits, unless the connection was closed. -/
def Queue (closed : Prop) (pending : List ReadOp) : Prop :=
  pending = [preambleRead] ∨ (pending = [] ∧ closed)

/-- How far the reads are, after `events`, with what the handler that executes has left to
do with them.  `closed` says that the connection is closed, or about to be. -/
inductive ReadStage (c : TcpConnection Part) (closed : Prop) (events : List ReadEvent) :
    List Statement → Prop
  /-- The HELLO is being read. -/
  | hello : c.Reading helloRead [] → events = [.started helloRead] → ReadStage c closed events []
  | greeting (data : List UInt8) : c.NotReading [] → events = helloEvents data →
      ReadStage c closed events [.callRead false .receivedHello, .performPendingRead]
  /-- The next message may be read. -/
  | next : c.NotReading [] → Whole events →
      ReadStage c closed events [.startReadMessage, .performPendingRead]
  /-- A preamble is being read. -/
  | preamble (before : List ReadEvent) (todo : List Statement) :
      todo = [.performPendingRead] ∨ todo = [] → c.Reading preambleRead [] → Whole before →
      events = before ++ [.started preambleRead] → ReadStage c closed events todo
  | message (before : List ReadEvent) : c.NotReading [] → Whole before →
      events = before ++ [.started preambleRead, .filled c.storage.data] →
      ReadStage c closed events [.callRead false .handleMessage, .performPendingRead]
  /-- The handler of the command reads a body. -/
  | asks (before : List ReadEvent) (data : List UInt8) (msg : MessagePreamble) : c.NotReading [] →
      msg = .ofBytes data → msg.readsBody = true → Whole before →
      events = before ++ preambleEvents data →
      ReadStage c closed events [.read (bodyRead msg), .startReadMessage, .performPendingRead]
  /-- The body is being read, and the next preamble is not yet submitted. -/
  | asked (before : List ReadEvent) (data : List UInt8) (msg : MessagePreamble) :
      c.Reading (bodyRead msg) [] → msg = .ofBytes data → msg.readsBody = true → Whole before →
      events = before ++ (preambleEvents data ++ [.started (bodyRead msg)]) →
      ReadStage c closed events [.startReadMessage, .performPendingRead]
  /-- The body is being read, and the next preamble waits. -/
  | body (before : List ReadEvent) (data : List UInt8) (msg : MessagePreamble)
      (pending : List ReadOp) (todo : List Statement) :
      todo = [.performPendingRead] ∨ todo = [] → c.Reading (bodyRead msg) pending →
      Queue closed pending → msg = .ofBytes data → msg.readsBody = true → Whole before →
      events = before ++ (preambleEvents data ++ [.started (bodyRead msg)]) →
      ReadStage c closed events todo
  | handling (before : List ReadEvent) (data : List UInt8) (msg : MessagePreamble)
      (pending : List ReadOp) : c.NotReading pending → Queue closed pending → msg = .ofBytes data →
      msg.readsBody = true → Whole before →
      events = before ++ (preambleEvents data ++
        [.started (bodyRead msg), .filled c.storage.data]) →
      ReadStage c closed events [.callRead false (.handleProcessedData msg), .performPendingRead]
  /-- The handler has run, and the next preamble waits. -/
  | handled (pending : List ReadOp) : c.NotReading pending → Queue closed pending → Whole events →
      ReadStage c closed events [.performPendingRead]
  /-- Nothing is read any more. -/
  | stopped (whole : List ReadEvent) : c.reads.outstanding = [] →
      c.reads.pending = [] ∨ c.reads.pending = [preambleRead] → closed → Whole whole →
      events <+: whole → ReadStage c closed events []

namespace TcpConnection

variable {c c' : TcpConnection Part}

theorem Reading.of_keeps {op : ReadOp} {pending : List ReadOp} (h : c.Reading op pending)
    (hkeeps : KeepsReads c c') : c'.Reading op pending := by
  constructor
  · exact hkeeps.inProgress.trans h.inProgress
  · obtain ⟨number, hout⟩ := h.outstanding
    exact ⟨number, hkeeps.outstanding.trans hout⟩
  · exact hkeeps.pending.trans h.pending
  · exact hkeeps.storage.trans h.storage

theorem NotReading.of_keeps {pending : List ReadOp} (h : c.NotReading pending)
    (hkeeps : KeepsReads c c') : c'.NotReading pending :=
  ⟨hkeeps.inProgress.trans h.inProgress, hkeeps.outstanding.trans h.outstanding,
    hkeeps.pending.trans h.pending⟩

theorem closed_readWaitEnds {i : Nat} (h : c.readWaitEnds i = some c')
    (hclosed : c.isOpen = false) :
    c'.isOpen = false := by
  obtain ⟨waits, rfl | rfl⟩ := readWaitEnds_cases h
  · exact hclosed
  · rfl

theorem closed_writeWaitEnds {i : Nat} (h : c.writeWaitEnds i = some c')
    (hclosed : c.isOpen = false) :
    c'.isOpen = false := by
  obtain ⟨waits, rfl | rfl⟩ := writeWaitEnds_cases h
  · exact hclosed
  · rfl

end TcpConnection

theorem Queue.mono {closed closed' : Prop} {pending : List ReadOp} (h : Queue closed pending)
    (himp : closed → closed') : Queue closed' pending :=
  h.imp_right fun ⟨hnil, hclosed⟩ => ⟨hnil, himp hclosed⟩

namespace ReadStage

variable {c c' : TcpConnection Part} {closed closed' : Prop} {events : List ReadEvent}
  {todo : List Statement}

/-- What does not touch the reads leaves the stage alone. -/
theorem of_keeps (h : ReadStage c closed events todo) (hkeeps : c.KeepsReads c')
    (hclosed : closed → closed') : ReadStage c' closed' events todo := by
  cases h with
  | hello hread hevents => exact .hello (hread.of_keeps hkeeps) hevents
  | greeting data hread hevents => exact .greeting data (hread.of_keeps hkeeps) hevents
  | next hread hwhole => exact .next (hread.of_keeps hkeeps) hwhole
  | preamble before todo htodo hread hwhole hevents =>
    exact .preamble before todo htodo (hread.of_keeps hkeeps) hwhole hevents
  | message before hread hwhole hevents =>
    exact .message before (hread.of_keeps hkeeps) hwhole (hkeeps.storage ▸ hevents)
  | asks before data msg hread hmsg hbody hwhole hevents =>
    exact .asks before data msg (hread.of_keeps hkeeps) hmsg hbody hwhole hevents
  | asked before data msg hread hmsg hbody hwhole hevents =>
    exact .asked before data msg (hread.of_keeps hkeeps) hmsg hbody hwhole hevents
  | body before data msg pending todo htodo hread hqueue hmsg hbody hwhole hevents =>
    exact .body before data msg pending todo htodo (hread.of_keeps hkeeps)
      (hqueue.mono hclosed) hmsg hbody hwhole hevents
  | handling before data msg pending hread hqueue hmsg hbody hwhole hevents =>
    exact .handling before data msg pending (hread.of_keeps hkeeps) (hqueue.mono hclosed) hmsg hbody
      hwhole (hkeeps.storage ▸ hevents)
  | handled pending hread hqueue hwhole =>
    exact .handled pending (hread.of_keeps hkeeps) (hqueue.mono hclosed) hwhole
  | stopped whole hout hpend hclose hwhole hevents =>
    exact .stopped whole (hkeeps.outstanding.trans hout) (hkeeps.pending.symm ▸ hpend)
      (hclosed hclose) hwhole hevents

/-! ### Statements -/

theorem read {op : ReadOp} (h : ReadStage c closed events (.read op :: todo)) :
    ReadStage (c.submitRead op) closed (events ++ if c.reads.inProgress then [] else [.started op])
      todo := by
  cases h with
  | preamble before todo htodo => simp at htodo
  | body before data msg pending todo htodo => simp at htodo
  | asks before data msg hread hmsg hbody hwhole hevents =>
    rw [hread.inProgress]
    refine .asked before data msg (hread.submitRead _) hmsg hbody hwhole ?_
    rw [hevents, List.append_assoc]
    rfl

/-- `start_read_message` on a connection that is open. -/
theorem startReadMessage (h : ReadStage c closed events (.startReadMessage :: todo)) :
    ReadStage (c.submitRead preambleRead) closed
      (events ++ if c.reads.inProgress then [] else [.started preambleRead]) todo := by
  cases h with
  | preamble before todo htodo => simp at htodo
  | body before data msg pending todo htodo => simp at htodo
  | next hread hwhole =>
    rw [hread.inProgress]
    exact .preamble events _ (Or.inl rfl) (hread.submitRead _) hwhole rfl
  | asked before data msg hread hmsg hbody hwhole hevents =>
    rw [hread.inProgress, if_pos rfl, List.append_nil]
    exact .body before data msg [preambleRead] _ (Or.inl rfl) (hread.submitRead _) (Or.inl rfl) hmsg
      hbody hwhole hevents

/-- `start_read_message` on a connection that is closed. -/
theorem startReadMessage_closed (h : ReadStage c closed events (.startReadMessage :: todo))
    (hclosed : closed) : ReadStage c closed events todo := by
  cases h with
  | preamble before todo htodo => simp at htodo
  | body before data msg pending todo htodo => simp at htodo
  | next hread hwhole => exact .handled [] hread (Or.inr ⟨rfl, hclosed⟩) hwhole
  | asked before data msg hread hmsg hbody hwhole hevents =>
    exact .body before data msg [] _ (Or.inl rfl) hread (Or.inr ⟨rfl, hclosed⟩) hmsg hbody hwhole
      hevents

/-- The pending preamble is started if the slot is free. -/
theorem performPendingRead (h : ReadStage c closed events (.performPendingRead :: todo)) :
    ReadStage c.performPendingRead closed
      (events ++ if c.reads.inProgress then [] else c.reads.pending.head?.toList.map .started)
      todo := by
  cases h with
  | preamble before todo htodo hread hwhole hevents =>
    obtain rfl : _ = [] := by simpa using htodo
    rw [hread.inProgress, if_pos rfl, List.append_nil]
    exact .preamble before [] (Or.inr rfl) hread.performPendingRead hwhole hevents
  | body before data msg pending todo htodo hread hqueue hmsg hbody hwhole hevents =>
    obtain rfl : _ = [] := by simpa using htodo
    rw [hread.inProgress, if_pos rfl, List.append_nil]
    have hrotate : pending.rotate 1 = pending := by
      rcases hqueue with rfl | ⟨rfl, -⟩ <;> rfl
    exact .body before data msg pending [] (Or.inr rfl) (hrotate ▸ hread.performPendingRead) hqueue
      hmsg hbody hwhole hevents
  | handled pending hread hqueue hwhole =>
    rw [hread.inProgress, hread.pending]
    rcases hqueue with rfl | ⟨rfl, hclosed⟩
    · exact .preamble events [] (Or.inr rfl) hread.performPendingRead hwhole rfl
    · have hsame : c.performPendingRead = c := by
        simp [TcpConnection.performPendingRead, hread.pending]
      rw [hsame]
      refine .stopped events hread.outstanding (Or.inl hread.pending) hclosed hwhole ?_
      exact (List.append_nil events).symm ▸ List.prefix_rfl

/-! ### Handlers -/

/-- `received_hello` is called. -/
theorem receivedHello {failed : Bool}
    (h : ReadStage c closed events (.callRead failed .receivedHello :: todo)) :
    c.NotReading [] ∧ Whole events ∧ todo = [.performPendingRead] := by
  cases h with
  | preamble before todo htodo => simp at htodo
  | body before data msg pending todo htodo => simp at htodo
  | greeting data hread hevents => exact ⟨hread, hevents ▸ whole_hello data, rfl⟩

/-- `handle_message` is called. -/
theorem handleMessage {failed : Bool}
    (h : ReadStage c closed events (.callRead failed .handleMessage :: todo)) :
    failed = false ∧ c.NotReading [] ∧ todo = [.performPendingRead] ∧ ∃ before, Whole before ∧
      events ++ [.dispatched (.ofBytes c.storage.data)] =
        before ++ preambleEvents c.storage.data := by
  cases h with
  | preamble before todo htodo => simp at htodo
  | body before data msg pending todo htodo => simp at htodo
  | message before hread hwhole hevents =>
    refine ⟨rfl, hread, rfl, before, hwhole, ?_⟩
    rw [hevents, List.append_assoc]
    rfl

/-- `handle_proccessed_data` is called; with its run the message is whole. -/
theorem handleProcessedData {failed : Bool} {msgp : MessagePreamble}
    (h : ReadStage c closed events (.callRead failed (.handleProcessedData msgp) :: todo)) :
    todo = [.performPendingRead] ∧ Whole (events ++ [.handled msgp c.storage.data]) ∧
      ∃ pending, c.NotReading pending ∧ Queue closed pending := by
  cases h with
  | preamble before todo htodo => simp at htodo
  | body before data msg pending todo htodo => simp at htodo
  | handling before data msg pending hread hqueue hmsg hbody hwhole hevents =>
    refine ⟨rfl, ?_, pending, hread, hqueue⟩
    have hmore := hwhole.message data c.storage.data
    rw [messageEvents, ← hmsg, hbody, if_pos rfl] at hmore
    rw [hevents]
    simpa [bodyEvents] using hmore

/-! ### Completions -/

/-- The read that the socket has succeeds. -/
theorem completes {number : Nat} {op : ReadOp} {rest : List (Nat × ReadOp)}
    (h : ReadStage c closed events []) (hout : c.reads.outstanding = (number, op) :: rest)
    (hfree : c'.reads.inProgress = false) (hout' : c'.reads.outstanding = rest)
    (hpend' : c'.reads.pending = c.reads.pending) (himp : closed → closed') :
    ReadStage c' closed' (events ++ [.filled c'.storage.data])
      [.callRead false op.handler, .performPendingRead] := by
  have hnext : ∀ {op' pending}, c.Reading op' pending → op = op' ∧ c'.NotReading pending := by
    intro op' pending hread
    obtain ⟨number', hone⟩ := hread.outstanding
    obtain ⟨heq, rfl⟩ := List.cons.inj (hout.symm.trans hone)
    exact ⟨congrArg Prod.snd heq, hfree, hout', hpend'.trans hread.pending⟩
  cases h with
  | hello hread hevents =>
    obtain ⟨rfl, hread'⟩ := hnext hread
    exact .greeting c'.storage.data hread' (hevents ▸ rfl)
  | preamble before todo htodo hread hwhole hevents =>
    obtain ⟨rfl, hread'⟩ := hnext hread
    refine .message before hread' hwhole ?_
    rw [hevents, List.append_assoc]
    rfl
  | body before data msg pending todo htodo hread hqueue hmsg hbody hwhole hevents =>
    obtain ⟨rfl, hread'⟩ := hnext hread
    refine .handling before data msg pending hread' (hqueue.mono himp) hmsg hbody hwhole ?_
    rw [hevents, List.append_assoc, List.append_assoc]
    rfl
  | stopped whole hnone => exact absurd (hout.symm.trans hnone) (List.cons_ne_nil _ _)

/-- At most one read of a preamble is outstanding or waits. -/
theorem one_preamble (h : ReadStage c closed events todo) :
    (c.reads.outstanding.map Prod.snd ++ c.reads.pending).count preambleRead ≤ 1 := by
  have hreading : ∀ {op pending}, c.Reading op pending →
      c.reads.outstanding.map Prod.snd ++ c.reads.pending = op :: pending := by
    intro op pending hread
    obtain ⟨number, hout⟩ := hread.outstanding
    rw [hout, hread.pending]
    rfl
  have hnotReading : ∀ {pending}, c.NotReading pending →
      c.reads.outstanding.map Prod.snd ++ c.reads.pending = pending := by
    intro pending hread
    rw [hread.outstanding, hread.pending]
    rfl
  have hbody : ∀ msg, bodyRead msg ≠ preambleRead := fun msg => by simp [bodyRead, preambleRead]
  cases h with
  | hello hread => rw [hreading hread]; decide
  | greeting data hread => rw [hnotReading hread]; decide
  | next hread => rw [hnotReading hread]; decide
  | preamble before todo htodo hread => rw [hreading hread]; decide
  | message before hread => rw [hnotReading hread]; decide
  | asks before data msg hread => rw [hnotReading hread]; decide
  | asked before data msg hread =>
    rw [hreading hread, List.count_cons_of_ne (hbody msg)]
    decide
  | body before data msg pending todo htodo hread hqueue =>
    rw [hreading hread, List.count_cons_of_ne (hbody msg)]
    rcases hqueue with rfl | ⟨rfl, -⟩ <;> decide
  | handling before data msg pending hread hqueue =>
    rw [hnotReading hread]
    rcases hqueue with rfl | ⟨rfl, -⟩ <;> decide
  | handled pending hread hqueue =>
    rw [hnotReading hread]
    rcases hqueue with rfl | ⟨rfl, -⟩ <;> decide
  | stopped whole hout hpend =>
    rw [hout]
    rcases hpend with hpend | hpend <;> rw [hpend] <;> decide

/-- When no handler executes, the last read that was started is outstanding, or the
connection is closed. -/
theorem listening (h : ReadStage c closed events []) : closed ∨ ∃ number op before,
    c.reads.outstanding = [(number, op)] ∧ events = before ++ [.started op] := by
  cases h with
  | hello hread hevents =>
    obtain ⟨number, hout⟩ := hread.outstanding
    exact Or.inr ⟨number, _, [], hout, hevents⟩
  | preamble before todo htodo hread hwhole hevents =>
    obtain ⟨number, hout⟩ := hread.outstanding
    exact Or.inr ⟨number, _, before, hout, hevents⟩
  | body before data msg pending todo htodo hread hqueue hmsg hbody hwhole hevents =>
    obtain ⟨number, hout⟩ := hread.outstanding
    refine Or.inr ⟨number, _, before ++ preambleEvents data, hout, ?_⟩
    rw [hevents, List.append_assoc]
  | stopped whole hout hpend hclosed => exact Or.inl hclosed

/-- What was read so far is the beginning of whole messages. -/
theorem isPrefix (h : ReadStage c closed events todo) :
    ∃ whole, Whole whole ∧ events <+: whole := by
  have hasked : ∀ {data : List UInt8} {msg : MessagePreamble}, msg = .ofBytes data →
      msg.readsBody = true → ∀ body : List UInt8,
        messageEvents data body = preambleEvents data ++ bodyEvents msg body := by
    rintro data _ rfl hbody body
    rw [messageEvents, if_pos hbody]
  cases h with
  | hello hread hevents => exact ⟨_, whole_hello [], [.filled []], hevents ▸ rfl⟩
  | greeting data hread hevents => exact ⟨_, whole_hello data, hevents ▸ List.prefix_rfl⟩
  | next hread hwhole => exact ⟨_, hwhole, List.prefix_rfl⟩
  | handled pending hread hqueue hwhole => exact ⟨_, hwhole, List.prefix_rfl⟩
  | stopped whole hout hpend hclosed hwhole hevents => exact ⟨whole, hwhole, hevents⟩
  | preamble before todo htodo hread hwhole hevents =>
    refine ⟨_, hwhole.message [] [], ?_⟩
    rw [hevents, List.prefix_append_right_inj]
    exact List.prefix_append _ _
  | message before hread hwhole hevents =>
    refine ⟨_, hwhole.message c.storage.data [], ?_⟩
    rw [hevents, List.prefix_append_right_inj]
    exact List.prefix_append _ _
  | asks before data msg hread hmsg hbody hwhole hevents =>
    refine ⟨_, hwhole.message data [], ?_⟩
    rw [hevents, List.prefix_append_right_inj]
    exact List.prefix_append _ _
  | asked before data msg hread hmsg hbody hwhole hevents =>
    refine ⟨_, hwhole.message data [], ?_⟩
    rw [hevents, List.prefix_append_right_inj, hasked hmsg hbody, List.prefix_append_right_inj]
    exact List.prefix_append _ _
  | body before data msg pending todo htodo hread hqueue hmsg hbody hwhole hevents =>
    refine ⟨_, hwhole.message data [], ?_⟩
    rw [hevents, List.prefix_append_right_inj, hasked hmsg hbody, List.prefix_append_right_inj]
    exact List.prefix_append _ _
  | handling before data msg pending hread hqueue hmsg hbody hwhole hevents =>
    refine ⟨_, hwhole.message data c.storage.data, ?_⟩
    rw [hevents, List.prefix_append_right_inj, hasked hmsg hbody, List.prefix_append_right_inj]
    exact List.prefix_append _ _

/-- The read that the socket has fails; it is required. -/
theorem fails {number : Nat} {op : ReadOp} {rest : List (Nat × ReadOp)}
    (h : ReadStage c closed events []) (hout : c.reads.outstanding = (number, op) :: rest)
    (hout' : c'.reads.outstanding = rest) (hpend' : c'.reads.pending = c.reads.pending)
    (hclosed : closed') : op.required = true ∧ ReadStage c' closed' events [] := by
  obtain ⟨whole, hwhole, hevents⟩ := h.isPrefix
  have hnext : ∀ {op' pending}, c.Reading op' pending → pending = [] ∨ pending = [preambleRead] →
      op = op' ∧ ReadStage c' closed' events [] := by
    intro op' pending hread hpending
    obtain ⟨number', hone⟩ := hread.outstanding
    obtain ⟨heq, rfl⟩ := List.cons.inj (hout.symm.trans hone)
    refine ⟨congrArg Prod.snd heq, .stopped whole hout' ?_ hclosed hwhole hevents⟩
    rwa [hpend', hread.pending]
  cases h with
  | hello hread =>
    obtain ⟨rfl, hstage⟩ := hnext hread (Or.inl rfl)
    exact ⟨rfl, hstage⟩
  | preamble before todo htodo hread =>
    obtain ⟨rfl, hstage⟩ := hnext hread (Or.inl rfl)
    exact ⟨rfl, hstage⟩
  | body before data msg pending todo htodo hread hqueue =>
    obtain ⟨rfl, hstage⟩ := hnext hread (hqueue.symm.imp_left And.left)
    exact ⟨rfl, hstage⟩
  | stopped whole hnone => exact absurd (hout.symm.trans hnone) (List.cons_ne_nil _ _)

end ReadStage

/-! ## Machines -/

/-- The statement is about the reads. -/
def Statement.ofRead : Statement → Bool
  | .read _ | .startReadMessage | .callRead _ _ | .performPendingRead => true
  | _ => false

/-- The connection is closed, or about to be. -/
def Closed (c : TcpConnection Part) (todo : List Statement) : Prop :=
  c.isOpen = false ∨ Statement.close ∈ todo

theorem Closed.of_cons {c c' : TcpConnection Part} {st : Statement} {todo : List Statement}
    (h : Closed c (st :: todo)) (hst : st ≠ .close) (hopen : c'.isOpen = c.isOpen)
    (pushed : List Statement) : Closed c' (pushed ++ todo) := by
  rcases h with hclosed | hmem
  · exact Or.inl (hopen.trans hclosed)
  · rcases List.mem_cons.mp hmem with heq | hmem
    · exact absurd heq.symm hst
    · exact Or.inr (List.mem_append_right _ hmem)

@[simp] theorem conversation_claim (d : Direction ReadOp) (op : ReadOp) :
    conversation ((d.claim op).map .read) = if d.inProgress then [] else [.started op] := by
  unfold Direction.claim
  split <;> rfl

theorem filter_writes (ops : List (WriteOp Part)) :
    (ops.map Statement.write).filter Statement.ofRead = [] := by
  rw [List.filter_eq_nil_iff]
  intro st hst
  obtain ⟨op, -, rfl⟩ := List.mem_map.mp hst
  exact Bool.false_ne_true

/-- A handler reads a body exactly if it is one that asks for it. -/
theorem onNewMessage_reads {cfg : ServerConfig} {s : Session} {msg : MessagePreamble}
    {statements : List Statement} (h : Machine.onNewMessage cfg s msg = .ok statements) :
    statements.filter Statement.ofRead =
      if msg.readsBody then [.read (bodyRead msg)] else [] := by
  unfold Machine.onNewMessage at h
  unfold MessagePreamble.readsBody
  split at h
  · rename_i hnone
    obtain rfl := Except.ok.inj h
    rw [hnone]
    rfl
  · rename_i hping
    obtain rfl := Except.ok.inj h
    rw [hping]
    exact filter_writes _
  · rename_i hgetAll
    obtain ⟨us, hus⟩ := getAllRequest_ok cfg.width s.db
    rw [hus] at h
    obtain rfl := Except.ok.inj h
    rw [hgetAll]
    exact filter_writes _
  all_goals
    rename_i hbody
    obtain rfl := Except.ok.inj h
    rw [hbody]
    rfl

namespace Machine

/-- The reads of the connection are at one of the stages. -/
def Conversing (m : Machine) : Prop :=
  ReadStage m.session.conn (Closed m.session.conn m.todo) (conversation m.trace)
    (m.todo.filter Statement.ofRead)

variable {m m' : Machine} {st : Statement} {todo : List Statement}

theorem conversing_start (db : Db) (memory : Nat → Nat) (stream : List UInt8) :
    (startMachine db memory stream).Conversing := by
  have hfresh : (TcpConnection.fresh memory : TcpConnection Part).NotReading [] := ⟨rfl, rfl, rfl⟩
  exact .hello (hfresh.submitRead helloRead) rfl

/-- A statement that is not about the reads, or a write that completes. -/
theorem Conversing.of_keeps (h : m.Conversing) (hkeeps : m.session.conn.KeepsReads m'.session.conn)
    (htrace : conversation m'.trace = conversation m.trace)
    (htodo : m'.todo.filter Statement.ofRead = m.todo.filter Statement.ofRead)
    (hclosed : Closed m.session.conn m.todo → Closed m'.session.conn m'.todo) : m'.Conversing := by
  unfold Conversing
  rw [htrace, htodo]
  exact ReadStage.of_keeps h hkeeps hclosed

theorem Conversing.cons (h : m.Conversing) (htodo : m.todo = st :: todo) (hst : st.ofRead = true) :
    ReadStage m.session.conn (Closed m.session.conn (st :: todo)) (conversation m.trace)
      (st :: todo.filter Statement.ofRead) := by
  unfold Conversing at h
  rwa [htodo, List.filter_cons_of_pos hst] at h

theorem Conversing.fault (h : m.Conversing) (f : Fault) : (m.fault f).Conversing := h

theorem conversing_receivedHello {cfg : ServerConfig} {failed : Bool}
    (h : m.Conversing) (htodo : m.todo = .callRead failed .receivedHello :: todo) :
    (m.callRead cfg failed todo .receivedHello).Conversing := by
  obtain ⟨hread, hwhole, hrest⟩ := (h.cons htodo rfl).receivedHello
  simp only [callRead, receivedHello]
  split
  · exact h.fault _
  · unfold Conversing
    split
    · show ReadStage _ _ (conversation (m.trace ++ [.read .usesBuffer]))
        (.startReadMessage :: todo.filter Statement.ofRead)
      rw [conversation_append, hrest]
      refine .next ⟨hread.inProgress, hread.outstanding, hread.pending⟩ ?_
      exact (List.append_nil _).symm ▸ hwhole
    · show ReadStage _ _ (conversation (m.trace ++ [] ++ [.read .usesBuffer]))
        (todo.filter Statement.ofRead)
      rw [conversation_append, List.append_nil, hrest]
      refine .handled [] ⟨hread.inProgress, hread.outstanding, hread.pending⟩
        (Or.inr ⟨rfl, Or.inl rfl⟩) ?_
      exact (List.append_nil _).symm ▸ hwhole

theorem conversing_handleMessage {cfg : ServerConfig} {failed : Bool}
    (h : m.Conversing) (htodo : m.todo = .callRead failed .handleMessage :: todo) :
    (m.callRead cfg failed todo .handleMessage).Conversing := by
  obtain ⟨rfl, hread, hrest, before, hwhole, hevents⟩ := (h.cons htodo rfl).handleMessage
  simp only [callRead, handleMessage, Bool.false_eq_true, if_false]
  split
  · exact h.fault _
  · split
    · rename_i statements hstatements
      have hreads := onNewMessage_reads hstatements
      have htrace : conversation (m.trace ++ [.read .usesBuffer] ++
            [.dispatched (.ofBytes m.session.conn.storage.data)]) =
          before ++ preambleEvents m.session.conn.storage.data := by
        rw [← hevents, conversation_append, conversation_append]
        exact congrArg (· ++ _) (List.append_nil _)
      have hread' : ({ m.session.conn with storage := m.session.conn.storage.deallocate } :
          TcpConnection Part).NotReading [] := ⟨hread.inProgress, hread.outstanding, hread.pending⟩
      unfold Conversing
      show ReadStage _ _ (conversation (m.trace ++ [.read .usesBuffer] ++
        [.dispatched (.ofBytes m.session.conn.storage.data)]))
        ((statements ++ Statement.rest :: .startReadMessage :: todo).filter Statement.ofRead)
      rw [htrace, List.filter_append, hreads]
      show ReadStage _ _ _ (_ ++ .startReadMessage :: todo.filter Statement.ofRead)
      rw [hrest]
      split
      · rename_i hbody
        exact .asks before _ _ hread' rfl hbody hwhole rfl
      · rename_i hnobody
        refine .next hread' ?_
        have hmore := hwhole.message m.session.conn.storage.data []
        rwa [messageEvents, if_neg hnobody, List.append_nil] at hmore
    · exact h.fault _

theorem conversing_handleProcessedData {cfg : ServerConfig} {failed : Bool} {msgp : MessagePreamble}
    (h : m.Conversing) (htodo : m.todo = .callRead failed (.handleProcessedData msgp) :: todo) :
    (m.callRead cfg failed todo (.handleProcessedData msgp)).Conversing := by
  obtain ⟨hrest, hwhole, pending, hread, hqueue⟩ := (h.cons htodo rfl).handleProcessedData
  simp only [callRead, handleProcessedData]
  split
  · exact h.fault _
  · split
    · rename_i e he
      unfold Conversing
      show ReadStage m.session.conn _
        (conversation (m.trace ++ [.read .usesBuffer, .handled msgp m.session.conn.storage.data]))
        ((((e.replies ++ e.broadcast).flatMap Submission.ops).map Statement.write ++
          .rest :: todo).filter Statement.ofRead)
      rw [conversation_append, List.filter_append, filter_writes]
      show ReadStage _ _ _ (todo.filter Statement.ofRead)
      rw [hrest]
      refine .handled pending hread (hqueue.mono ?_) hwhole
      intro hclosed
      have hmore : Closed m.session.conn (((e.replies ++ e.broadcast).flatMap
          Submission.ops).map .write ++ [.rest] ++ todo) := hclosed.of_cons (by simp) rfl _
      rwa [List.append_assoc] at hmore
    · exact h.fault _

theorem conversing_callRead {cfg : ServerConfig} {failed : Bool} {handler : ReadHandler}
    (h : m.Conversing) (htodo : m.todo = .callRead failed handler :: todo) :
    (m.callRead cfg failed todo handler).Conversing := by
  cases handler with
  | receivedHello => exact conversing_receivedHello h htodo
  | handleMessage => exact conversing_handleMessage h htodo
  | handleProcessedData msgp => exact conversing_handleProcessedData h htodo

/-- The submission of a read goes to the trace, and to the stage. -/
theorem conversing_read {op : ReadOp} (hst : st ≠ .close)
    (h : ReadStage (m.session.conn.submitRead op) (Closed m.session.conn (st :: todo))
      (conversation m.trace ++ if m.session.conn.reads.inProgress then [] else [.started op])
      (todo.filter Statement.ofRead)) : Conversing { m.read op with todo := todo } := by
  have htrace : conversation (m.read op).trace =
      conversation m.trace ++ if m.session.conn.reads.inProgress then [] else [.started op] := by
    rw [← conversation_claim]
    exact conversation_append _ _
  unfold Conversing
  show ReadStage (m.session.conn.submitRead op) _ (conversation (m.read op).trace) _
  rw [htrace]
  apply h.of_keeps (.refl _)
  intro hclosed
  exact hclosed.of_cons hst (Session.submitRead_isOpen _ _) []

theorem conversing_startReadMessage (h : m.Conversing)
    (htodo : m.todo = .startReadMessage :: todo) :
    Conversing { m.startReadMessage with todo := todo } := by
  have hstage := h.cons htodo rfl
  unfold startReadMessage
  split
  · rename_i hopen
    have hclosed : m.session.conn.isOpen = false := by simpa using hopen
    unfold Conversing
    exact (hstage.startReadMessage_closed (Or.inl hclosed)).of_keeps (.refl _) fun _ =>
      Or.inl hclosed
  · exact conversing_read (by simp) hstage.startReadMessage

theorem conversing_performPendingRead (h : m.Conversing)
    (htodo : m.todo = .performPendingRead :: todo) :
    Conversing { m.performPendingRead with todo := todo } := by
  have htrace : conversation m.performPendingRead.trace = conversation m.trace ++
      if m.session.conn.reads.inProgress then []
        else m.session.conn.reads.pending.head?.toList.map .started := by
    refine (conversation_append _ _).trans (congrArg (conversation m.trace ++ ·) ?_)
    cases m.session.conn.reads.pending.head? with
    | none => split <;> rfl
    | some op => exact conversation_claim _ _
  unfold Conversing
  show ReadStage m.session.conn.performPendingRead _ (conversation m.performPendingRead.trace) _
  rw [htrace]
  apply (h.cons htodo rfl).performPendingRead.of_keeps (.refl _)
  intro hclosed
  exact hclosed.of_cons (by simp) (Session.performPendingRead_isOpen _) []

/-- A statement that does not touch the reads is executed. -/
theorem conversing_other {conn : TcpConnection Part} {entries : List Entry} (h : m.Conversing)
    (htodo : m.todo = st :: todo) (hst : st.ofRead = false) (hclose : st ≠ .close)
    (hsame : m.session.conn.SameReads conn) (hentries : conversation entries = []) :
    Conversing { m.onConn conn entries with todo := todo } := by
  refine h.of_keeps hsame.keeps ?_ ?_ ?_
  · show conversation (m.trace ++ entries) = _
    rw [conversation_append, hentries, List.append_nil]
  · rw [htodo, List.filter_cons_of_neg (by simp [hst])]
  · rw [htodo]
    intro hclosed
    exact hclosed.of_cons hclose hsame.isOpen []

theorem Conversing.idle (h : m.Conversing) (hidle : m.todo = []) :
    ReadStage m.session.conn (m.session.conn.isOpen = false) (conversation m.trace) [] := by
  unfold Conversing at h
  rw [hidle] at h
  apply h.of_keeps (.refl _)
  rintro (hclosed | hmem)
  · exact hclosed
  · exact absurd hmem List.not_mem_nil

theorem conversing_readCompletes {count : Nat} (h : m.Conversing) (hidle : m.todo = [])
    (hdone : m.readCompletes count = some m') : m'.Conversing := by
  have hstage := h.idle hidle
  unfold readCompletes at hdone
  split at hdone
  · cases hdone
  · rename_i number op rest hout
    split at hdone
    · obtain rfl := Option.some.inj hdone
      simp only [handleData, Bool.and_false, Bool.false_eq_true, if_false]
      let conn : TcpConnection Part := { m.session.conn with
        reads := ({ m.session.conn.reads with outstanding := rest }.setDone number).release
        storage := m.session.conn.storage.fill (m.session.unread.take count) }
      have hnext : ReadStage conn (Closed conn [.callRead false op.handler, .performPendingRead])
          (conversation m.trace ++ [.filled conn.storage.data])
          [.callRead false op.handler, .performPendingRead] :=
        hstage.completes hout rfl rfl rfl Or.inl
      unfold Conversing
      show ReadStage conn _ (conversation (m.trace ++ [.read (.completed number op),
        .filled conn.storage.data] ++ [])) _
      rw [List.append_nil, conversation_append]
      exact hnext
    · cases hdone

theorem conversing_readFails (h : m.Conversing) (hidle : m.todo = [])
    (hdone : m.readFails = some m') :
    m'.Conversing := by
  have hstage := h.idle hidle
  unfold readFails at hdone
  split at hdone
  · cases hdone
  · rename_i number op rest hout
    obtain rfl := Option.some.inj hdone
    let conn : TcpConnection Part := { m.session.conn with
      reads := { m.session.conn.reads with outstanding := rest }.setDone number }
    obtain ⟨hrequired, hnext⟩ := @ReadStage.fails _ conn _ (Closed conn [.close]) _ _ _ _ hstage
      hout rfl rfl (Or.inr List.mem_cons_self)
    simp only [handleData, hrequired, Bool.and_true, if_true]
    unfold Conversing
    show ReadStage conn _ (conversation (m.trace ++ [.read (.completed number op)] ++ [])) _
    rw [List.append_nil, conversation_append]
    exact (List.append_nil _).symm ▸ hnext

theorem conversing_writeCompletes {failed : Bool} {count : Nat} (h : m.Conversing)
    (hidle : m.todo = []) (hdone : m.writeCompletes failed count = some m') : m'.Conversing := by
  have hclosed : Closed m.session.conn m.todo → m.session.conn.isOpen = false := by
    rw [hidle]
    rintro (hclosed | hmem)
    · exact hclosed
    · exact absurd hmem List.not_mem_nil
  unfold writeCompletes at hdone
  split at hdone
  · cases hdone
  · rename_i number op rest hout
    split at hdone
    · obtain rfl := Option.some.inj hdone
      have htrace : conversation (m.trace ++ [.write (.completed number op)] ++ []) =
          conversation m.trace := by
        rw [List.append_nil, conversation_append]
        exact List.append_nil _
      simp only [handleWriteOperation]
      split
      · refine h.of_keeps ⟨rfl, rfl, rfl, rfl⟩ htrace ?_ fun hyes => Or.inl (hclosed hyes)
        rw [hidle]
        rfl
      · refine h.of_keeps ⟨rfl, rfl, rfl, rfl⟩ htrace ?_ fun hyes => Or.inl (hclosed hyes)
        show (op.next.map Statement.write ++ _).filter Statement.ofRead = _
        rw [List.filter_append, filter_writes, hidle]
        rfl
    · cases hdone

/-- The end of a wait closes the connection, or does nothing. -/
theorem conversing_onConn {conn : TcpConnection Part} (h : m.Conversing)
    (hkeeps : m.session.conn.KeepsReads conn)
    (hopen : m.session.conn.isOpen = false → conn.isOpen = false) :
    (m.onConn conn []).Conversing := by
  refine h.of_keeps hkeeps ?_ rfl (Or.imp_left hopen)
  show conversation (m.trace ++ []) = _
  rw [List.append_nil]

end Machine

/-- The rest of the server submits a read. -/
def MachineEvent.SubmitsRead : MachineEvent → Prop
  | .submitsRead _ => True
  | _ => False

namespace Machine

theorem conversing_step {cfg : ServerConfig} {m m' : Machine} {e : MachineEvent} (h : m.Conversing)
    (he : ¬ e.SubmitsRead) (hstep : machineStep cfg m e = some m') : m'.Conversing := by
  cases steps_of_step hstep with
  | write op todo htodo =>
    exact conversing_other h htodo rfl (by simp) (TcpConnection.sameReads_perform _ op)
      (conversation_writes _)
  | read op todo htodo => exact conversing_read (by simp) (h.cons htodo rfl).read
  | startReadMessage todo htodo => exact conversing_startReadMessage h htodo
  | close todo htodo =>
    refine h.of_keeps ⟨rfl, rfl, rfl, rfl⟩ ?_ ?_ fun _ => Or.inl rfl
    · exact congrArg conversation (List.append_nil _)
    · rw [htodo]
      rfl
  | callRead failed handler todo htodo => exact conversing_callRead h htodo
  | performPendingRead todo htodo => exact conversing_performPendingRead h htodo
  | performPendingWrite todo htodo =>
    exact conversing_other h htodo rfl (by simp) (TcpConnection.sameReads_performPending _)
      (conversation_writes _)
  | rest todo htodo =>
    refine h.of_keeps (.refl _) rfl ?_ ?_
    · rw [htodo]
      rfl
    · rw [htodo]
      intro hclosed
      exact hclosed.of_cons (by simp) rfl []
  | submitsRead op hmay => exact absurd trivial he
  | submitsWrite op hmay =>
    have hsame := TcpConnection.sameReads_perform m.session.conn op
    refine h.of_keeps hsame.keeps ?_ rfl (Or.imp_left fun hopen => hsame.isOpen.trans hopen)
    show conversation (m.trace ++ _) = _
    rw [conversation_append, conversation_writes, List.append_nil]
  | closes hmay => exact conversing_onConn h ⟨rfl, rfl, rfl, rfl⟩ fun _ => rfl
  | database db hmay => exact h
  | readCompletes count m' hidle hdone => exact conversing_readCompletes h hidle hdone
  | readFails m' hidle hdone => exact conversing_readFails h hidle hdone
  | writeCompletes count m' hidle hdone => exact conversing_writeCompletes h hidle hdone
  | writeFails count m' hidle hdone => exact conversing_writeCompletes h hidle hdone
  | readWaitEnds i conn hidle hconn =>
    exact conversing_onConn h (TcpConnection.keepsReads_readWaitEnds hconn)
      (TcpConnection.closed_readWaitEnds hconn)
  | writeWaitEnds i conn hidle hconn =>
    exact conversing_onConn h (TcpConnection.keepsReads_writeWaitEnds hconn)
      (TcpConnection.closed_writeWaitEnds hconn)

theorem conversing_run {cfg : ServerConfig} {db : Db} {memory : Nat → Nat} {stream : List UInt8}
    {es : List MachineEvent} {m : Machine} (hreads : ∀ e ∈ es, ¬ e.SubmitsRead)
    (hrun : run (machineStep cfg) (startMachine db memory stream) es = some m) : m.Conversing :=
  run_invariant Conversing conversing_step (conversing_start db memory stream)
    (Along.of_forall hreads _) hrun

end Machine

/-- In every run, whatever the client sends and whatever happens to the writes and the
timers: the reads are the HELLO, and then for each message its preamble and, exactly if
the handler of its command asks for it, its body, of the size that the preamble says.
The handler of a message has run on its body before the next preamble is read.  At most
one read of a preamble is outstanding or waits, at any statement.  When no handler executes
on an open connection, the last read of this sequence is outstanding. -/
theorem sequential_messages {cfg : ServerConfig} {db : Db} {memory : Nat → Nat}
    {stream : List UInt8} {es : List MachineEvent} {m : Machine}
    (hreads : ∀ e ∈ es, ¬ e.SubmitsRead)
    (hrun : run (machineStep cfg) (startMachine db memory stream) es = some m) :
    (∃ whole, Whole whole ∧ conversation m.trace <+: whole) ∧
      (m.session.conn.reads.outstanding.map Prod.snd ++ m.session.conn.reads.pending).count
        preambleRead ≤ 1 ∧
      (m.todo = [] → m.session.conn.isOpen = true → ∃ number op before,
        m.session.conn.reads.outstanding = [(number, op)] ∧
          conversation m.trace = before ++ [.started op]) := by
  have hstage := Machine.conversing_run hreads hrun
  refine ⟨hstage.isPrefix, hstage.one_preamble, ?_⟩
  intro hidle hopen
  apply (hstage.idle hidle).listening.resolve_left
  rw [hopen]
  exact Bool.true_eq_false.mp

/-- A client asks for a key: its body is read, and the next preamble waits. -/
theorem sequential_messages_get : ∃ m, run (machineStep ⟨64, false, fun _ => 0⟩)
      (startMachine Db.empty (fun _ => 0) (hello ++ [1, 0, 0, 2, 0, 0, 0]))
      ([.readCompletes 6] ++ List.replicate 3 .proceed ++ [.readCompletes 7] ++
        List.replicate 5 .proceed) = some m ∧
    m.session.conn.reads.pending = [preambleRead] ∧ ∃ number op before,
      m.session.conn.reads.outstanding = [(number, op)] ∧
        conversation m.trace = before ++ [.started op] := by
  refine ⟨_, rfl, rfl, ?_⟩
  have hreads : ∀ e ∈ [MachineEvent.readCompletes 6] ++ List.replicate 3 .proceed ++
      [.readCompletes 7] ++ List.replicate 5 .proceed, ¬ e.SubmitsRead := by
    intro e he
    simp only [List.mem_append, List.mem_singleton, List.mem_replicate] at he
    rcases he with ((rfl | ⟨-, rfl⟩) | rfl) | ⟨-, rfl⟩ <;> exact id
  exact (@sequential_messages ⟨64, false, fun _ => 0⟩ Db.empty (fun _ => 0)
    (hello ++ [1, 0, 0, 2, 0, 0, 0]) ([.readCompletes 6] ++ List.replicate 3 .proceed ++
      [.readCompletes 7] ++ List.replicate 5 .proceed) _ hreads rfl).2.2 rfl rfl

end StateDb
