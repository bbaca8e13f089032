/-
  StateDb/ClientRequests.lean
  ===========================
  **From the bytes of a client to the history** (`connection.cpp`: `handle_data`,
  `handle_message`; `asio_server.cpp`: `handle_message`, `process_message`).

  The client of a connection sends a HELLO and messages.  While its reads are whole and nothing
  fails on the connection, the server stands at the border of a message, or of a preamble and
  its body, and what it has executed for the connection are the requests of the messages before
  (`Asks`).

  So the requests that the history of the server has for the connection are those of the first
  messages of the client, in the order in which it sent them, and of all its messages when
  nothing is left to read; and as long as something is left, the next read is possible, and its
  handler does not fault (`client_asks`).
-/
import StateDb.Fragmentation
import StateDb.ServerHistory

namespace StateDb

open Lib

/-! ## One connection -/

/-- The request to the database that a message is. -/
def ClientMessage.request (m : ClientMessage) : Option DbRequest :=
  match dispatcher m.preamble.id with
  | some .get => some (.get m.body)
  | some .set => some (.set m.body)
  | some .getAll => some .getAll
  | _ => none

/-- For the messages `ms`, the requests `rs` have been executed. -/
inductive Asks (ms : List ClientMessage) (s : Session) (rs : List DbRequest) : Prop
  | hello : AtHello ms s → rs = [] → Asks ms s rs
  | message (done rest : List ClientMessage) : done ++ rest = ms → AtMessage done rest s →
      rs = done.filterMap ClientMessage.request → Asks ms s rs
  | body (done rest : List ClientMessage) (m : ClientMessage) : done ++ m :: rest = ms →
      AtBody done m rest s → rs = done.filterMap ClientMessage.request → Asks ms s rs

theorem requests_concat (done : List ClientMessage) (m : ClientMessage) :
    (done ++ [m]).filterMap ClientMessage.request =
      done.filterMap ClientMessage.request ++ m.request.toList := by
  rw [List.filterMap_append]
  cases hrequest : m.request <;> simp [hrequest]

theorem executed_handled {s s' : Session} (hfault : s'.fault = none)
    {h : MessagePreamble × List UInt8} (hhandled : s'.handled = s.handled ++ [h]) :
    executed s s' = asRequest h := by
  simp [executed, hfault, hhandled]

theorem executed_dispatched {s s' : Session} (hfault : s'.fault = none)
    (hhandled : s'.handled = s.handled) {msg : MessagePreamble}
    (hdispatched : s'.dispatched = s.dispatched ++ [msg]) :
    executed s s' = if dispatcher msg.id = some .getAll then some .getAll else none := by
  simp [executed, hfault, hhandled, hdispatched]

/-- The request of a message whose body is read. -/
theorem request_of_readsBody {m : ClientMessage} (h : m.preamble.readsBody = true) :
    m.request = asRequest (m.preamble, m.body) ∧ dispatcher m.preamble.id ≠ some .getAll := by
  unfold MessagePreamble.readsBody at h
  unfold ClientMessage.request asRequest
  cases hhandler : dispatcher m.preamble.id with
  | none =>
    rw [hhandler] at h
    cases h
  | some handler =>
    rw [hhandler] at h
    cases handler with
    | ping => cases h
    | getAll => cases h
    | get => exact ⟨rfl, by decide⟩
    | set => exact ⟨rfl, by decide⟩

/-- The request of another message. -/
theorem request_of_not_readsBody {m : ClientMessage} (h : m.preamble.readsBody = false) :
    m.request = if dispatcher m.preamble.id = some .getAll then some .getAll else none := by
  unfold MessagePreamble.readsBody at h
  unfold ClientMessage.request
  cases hhandler : dispatcher m.preamble.id with
  | none => rfl
  | some handler =>
    rw [hhandler] at h
    cases handler with
    | ping => rfl
    | getAll => rfl
    | get => cases h
    | set => cases h

/-- All that the client sent is read, and the connection waits for a preamble. -/
def Session.Drained (s : Session) : Prop :=
  s.unread = [] ∧ s.conn.reads.outstanding.map Prod.snd = [preambleRead]

/-- Something that is no business of the reads. -/
theorem Awaits.of_keeps {s : Session} {op : ReadOp} {pending : List ReadOp}
    (h : Awaits s op pending) {conn : TcpConnection Part} (hkeeps : s.conn.KeepsReads conn)
    (hopen : conn.isOpen = s.conn.isOpen) (db : Db) :
    Awaits { s with db := db, conn := conn } op pending := by
  refine ⟨h.fault, hopen.trans h.isOpen, ?_⟩
  obtain ⟨number, hout⟩ := h.reading.outstanding
  exact ⟨hkeeps.inProgress.trans h.reading.inProgress, ⟨number, hkeeps.outstanding.trans hout⟩,
    hkeeps.pending.trans h.reading.pending, hkeeps.storage.trans h.reading.storage⟩

theorem Awaits.outstanding {s : Session} {op : ReadOp} {pending : List ReadOp}
    (h : Awaits s op pending) :
    s.conn.reads.outstanding.map Prod.snd = [op] := by
  obtain ⟨number, hout⟩ := h.reading.outstanding
  rw [hout]
  rfl

theorem Awaits.fillsBuffer {s : Session} {op : ReadOp} {pending : List ReadOp}
    (h : Awaits s op pending) : FillsBuffer s (.read op.kind.size) := by
  obtain ⟨number, hout⟩ := h.reading.outstanding
  intro o ho
  rw [hout] at ho
  rw [List.mem_singleton.mp ho]

theorem clientStream_eq_nil {ms : List ClientMessage} (h : clientStream ms = []) : ms = [] := by
  cases ms with
  | nil => rfl
  | cons m ms =>
    have hlength := congrArg List.length h
    rw [clientStream_cons, List.length_append, m.length_preambleBytes, List.length_nil] at hlength
    omega

namespace Asks

variable {cfg : ServerConfig} {ms : List ClientMessage} {s s' : Session} {rs : List DbRequest}

theorem of_keeps (h : Asks ms s rs) {conn : TcpConnection Part} (hkeeps : s.conn.KeepsReads conn)
    (hopen : conn.isOpen = s.conn.isOpen) (db : Db) :
    Asks ms { s with db := db, conn := conn } rs := by
  cases h with
  | hello hat hrs =>
    exact .hello ⟨hat.awaits.of_keeps hkeeps hopen db, hat.unread, hat.dispatched, hat.handled⟩ hrs
  | message done rest hms hat hrs =>
    exact .message done rest hms
      ⟨hat.awaits.of_keeps hkeeps hopen db, hat.unread, hat.dispatched, hat.handled⟩ hrs
  | body done rest m hms hat hrs =>
    exact .body done rest m hms
      ⟨hat.reads, hat.awaits.of_keeps hkeeps hopen db, hat.unread, hat.dispatched, hat.handled⟩ hrs

theorem fault (h : Asks ms s rs) : s.fault = none := by
  cases h with
  | hello hat => exact hat.awaits.fault
  | message done rest hms hat => exact hat.awaits.fault
  | body done rest m hms hat => exact hat.awaits.fault

/-- A whole read executes the request of a message, or goes on inside of one. -/
theorem readDone (hms : ∀ m ∈ ms, m.Framed cfg) (h : Asks ms s rs) {count : Nat}
    (hfull : FillsBuffer s (.read count)) (hrun : s.readDone cfg count = some s') :
    Asks ms s' (rs ++ (executed s s').toList) := by
  cases h with
  | hello hat hrs =>
    obtain rfl := hat.awaits.count_eq hfull
    have hnext := hat.next hrun
    refine .message [] ms rfl hnext ?_
    rw [hrs, executed_same (hnext.handled.trans hat.handled.symm)
      (hnext.dispatched.trans hat.dispatched.symm)]
    rfl
  | message done rest hsplit hat hrs =>
    obtain rfl := hat.awaits.count_eq hfull
    cases rest with
    | nil =>
      -- the client sent nothing more
      obtain ⟨number, hpossible, -⟩ := Session.readDone_possible hat.awaits hrun
      have hle : 7 ≤ s.unread.length := hpossible.2.1
      rw [hat.unread] at hle
      exact absurd hle (by simp [clientStream])
    | cons m rest =>
      have hdispatched :
          (done ++ [m]).map ClientMessage.preamble = s.dispatched ++ [m.preamble] := by
        rw [hat.dispatched, List.map_append]
        rfl
      cases hreads : m.preamble.readsBody with
      | true =>
        have hnext := hat.next_body hrun hreads
        have hnone := executed_dispatched hnext.awaits.fault (hnext.handled.trans hat.handled.symm)
          (hnext.dispatched.trans hdispatched)
        rw [if_neg (request_of_readsBody hreads).2] at hnone
        refine .body done rest m hsplit hnext ?_
        rw [hnone, hrs]
        exact List.append_nil _
      | false =>
        have hm : m.Framed cfg := hms m (by simp [← hsplit])
        have hempty : m.body = [] := by
          rw [ClientMessage.Framed, hreads] at hm
          exact hm
        have hnext := hat.next_message hrun hreads hempty
        have hbodies : bodiesOf (done ++ [m]) = bodiesOf done := by
          rw [bodiesOf_concat, hreads]
          exact List.append_nil _
        have hexec := executed_dispatched hnext.awaits.fault
          (hnext.handled.trans (hbodies.trans hat.handled.symm))
          (hnext.dispatched.trans hdispatched)
        rw [← request_of_not_readsBody hreads] at hexec
        refine .message (done ++ [m]) rest (by rw [← hsplit, List.append_assoc]; rfl) hnext ?_
        rw [hexec, hrs, requests_concat]
  | body done rest m hsplit hat hrs =>
    obtain rfl := hat.awaits.count_eq hfull
    have hm : m.Framed cfg := hms m (by simp [← hsplit])
    have hnext := (hat.next hrun).1 hm
    have hhandled : s'.handled = s.handled ++ [(m.preamble, m.body)] := by
      rw [hnext.handled, hat.handled, bodiesOf_concat, if_pos hat.reads]
    have hexec := executed_handled hnext.awaits.fault hhandled
    rw [← (request_of_readsBody hat.reads).1] at hexec
    refine .message (done ++ [m]) rest (by rw [← hsplit, List.append_assoc]; rfl) hnext ?_
    rw [hexec, hrs, requests_concat]

/-- While something is left to read, the next read is there as a whole, and its handler does not
fault. -/
theorem reads_on (hms : ∀ m ∈ ms, m.Framed cfg) (h : Asks ms s rs) : s.Drained ∨
    ∃ count s', FillsBuffer s (.read count) ∧ s.readDone cfg count = some s' ∧ s'.fault = none := by
  have hreads : ∀ op pending, Awaits s op pending → op.kind.size ≤ s.unread.length →
      ∃ count s', FillsBuffer s (.read count) ∧ s.readDone cfg count = some s' ∧
        s'.fault = none := by
    intro op pending hawaits hsize
    have hfull : FillsBuffer s (.read op.kind.size) := hawaits.fillsBuffer
    obtain ⟨s', hrun⟩ := Session.readDone_exists hawaits cfg
      ⟨Nat.le_refl op.kind.size, hsize, Nat.eq_zero_or_pos _⟩
    exact ⟨_, s', hfull, hrun, (h.readDone hms hfull hrun).fault⟩
  cases h with
  | hello hat hrs =>
    refine Or.inr (hreads helloRead [] hat.awaits ?_)
    rw [hat.unread, List.length_append]
    exact Nat.le_add_right 6 _
  | message done rest hsplit hat hrs =>
    cases rest with
    | nil => exact Or.inl ⟨hat.unread, hat.awaits.outstanding⟩
    | cons m rest =>
      refine Or.inr (hreads preambleRead [] hat.awaits ?_)
      rw [hat.unread, clientStream_cons, List.length_append, m.length_preambleBytes]
      exact Nat.le_add_right 7 _
  | body done rest m hsplit hat hrs =>
    refine Or.inr (hreads (bodyRead m.preamble) [preambleRead] hat.awaits ?_)
    rw [hat.unread, List.length_append]
    exact Nat.le_add_right m.body.length _

end Asks

/-! ## A connection of the server -/

/-- The reads of the connection `j` fill their buffers, nothing fails on it, and no time runs
out. -/
def ReadsWhole (j : Nat) (sv : Server) : ServerEvent → Prop
  | .connection i (.read count) =>
      i = j → ∀ a ∈ sv.accepted[j]?, FillsBuffer a.session (.read count)
  | .connection i .readFails => i ≠ j
  | .connection i (.writeFails _) => i ≠ j
  | .connection i (.readWaitEnds k) =>
      i = j → ∀ a ∈ sv.accepted[j]?, a.session.conn.reads.WaitDone k
  | .connection i (.writeWaitEnds k) =>
      i = j → ∀ a ∈ sv.accepted[j]?, a.session.conn.writes.WaitDone k
  | _ => True

/-- The requests of the connection `j`. -/
def requestsOn (j : Nat) (log : List (Nat × DbRequest)) : List DbRequest :=
  (log.filter fun p => p.1 = j).map Prod.snd

theorem requestsOn_append (j : Nat) (log log' : List (Nat × DbRequest)) :
    requestsOn j (log ++ log') = requestsOn j log ++ requestsOn j log' := by
  simp [requestsOn]

theorem requestsOn_self (j : Nat) (rs : List DbRequest) :
    requestsOn j (rs.map fun r => (j, r)) = rs := by
  simp [requestsOn, List.filter_map, Function.comp_def]

theorem requestsOn_other {i j : Nat} (h : i ≠ j) (rs : List DbRequest) :
    requestsOn j (rs.map fun r => (i, r)) = [] := by
  simp [requestsOn, List.filter_map, Function.comp_def, h]

section Server

variable {cfg : ServerConfig} {j : Nat} {ms : List ClientMessage} {sv sv' : Server}

/-- A step of the connection itself. -/
theorem asks_connection (hms : ∀ m ∈ ms, m.Framed cfg) {a : Accepted} (ha : a ∈ sv.accepted[j]?)
    {s s' : Session} (hconn : s.conn = a.session.conn) {rs : List DbRequest} (h : Asks ms s rs)
    {e : ConnectionEvent} (hexternal : e.isExternal = true)
    (hcond : ReadsWhole j sv (.connection j e)) (hs' : connectionStep cfg s e = some s') :
    Asks ms s' (rs ++ (executed s s').toList) := by
  have hquiet : ∀ conn : TcpConnection Part, s.conn.KeepsReads conn → conn.isOpen = s.conn.isOpen →
      s' = { s with conn := conn } → Asks ms s' (rs ++ (executed s s').toList) := by
    rintro conn hkeeps hopen rfl
    have hnext := h.of_keeps hkeeps hopen s.db
    have hnone : executed s { s with conn := conn } = none := executed_same rfl rfl
    rw [hnone]
    simpa using hnext
  have hfault := (connectionStep_cases hs').1
  unfold connectionStep at hs'
  rw [if_neg (by simp [hfault])] at hs'
  cases e with
  | read count =>
    refine h.readDone hms ?_ hs'
    have hfills := hcond rfl a ha
    rw [FillsBuffer, ← hconn] at hfills
    exact hfills
  | written count =>
    obtain ⟨conn, hdone, heq⟩ := Option.map_eq_some_iff.mp hs'
    have hsame := TcpConnection.sameReads_writeDone hdone
    exact hquiet conn hsame.keeps hsame.isOpen heq.symm
  | readWaitEnds i =>
    obtain ⟨conn, hends, heq⟩ := Option.map_eq_some_iff.mp hs'
    have hwait := hcond rfl a ha
    rw [← hconn] at hwait
    have hkeeps := TcpConnection.keepsReads_readWaitEnds hends
    refine hquiet conn hkeeps ?_ heq.symm
    rw [readWaitEnds_done hwait hends]
  | writeWaitEnds i =>
    obtain ⟨conn, hends, heq⟩ := Option.map_eq_some_iff.mp hs'
    have hwait := hcond rfl a ha
    rw [← hconn] at hwait
    have hkeeps := TcpConnection.keepsReads_writeWaitEnds hends
    refine hquiet conn hkeeps ?_ heq.symm
    rw [writeWaitEnds_done hwait hends]
  | readFails => exact absurd rfl hcond
  | writeFails count => exact absurd rfl hcond
  | submitted op => cases hexternal
  | database db => cases hexternal

/-- Another connection gets updates. -/
theorem stepped_other (cfg : ServerConfig) {i : Nat} (hij : j ≠ i) {a : Accepted}
    (ha : a ∈ sv.accepted[j]?) (s s' : Session) : ∃ us : List Submission,
      (sv.stepped cfg i s s').accepted[j]? =
        some (a.onConn fun c => us.foldl TcpConnection.submit c) := by
  have hmap : (sv.stepped cfg i s s').accepted[j]? = some (if sv.isRegistered j then
      a.onConn fun c => (announced cfg s s').foldl TcpConnection.submit c else a) := by
    rw [Server.stepped, List.getElem?_mapIdx, ha, Option.map_some, if_neg hij]
  rw [hmap]
  split
  · exact ⟨_, rfl⟩
  · exact ⟨[], rfl⟩

/-- What the connection has asked for, after these requests. -/
def AsksOn (j : Nat) (ms : List ClientMessage) (sv : Server) (rs : List DbRequest) : Prop :=
  ∃ a ∈ sv.accepted[j]?, Asks ms a.session rs

theorem asksOn_step (hms : ∀ m ∈ ms, m.Framed cfg) {rs : List DbRequest} (h : AsksOn j ms sv rs)
    {e : ServerEvent} (hcond : ReadsWhole j sv e) (hstep : sv.step cfg e = some sv') :
    AsksOn j ms sv' (rs ++ requestsOn j (sv.executedIn sv' e)) := by
  obtain ⟨a, ha, hasks⟩ := h
  cases Server.step_cases hstep with
  | accept id memory stream =>
    have hlt : j < sv.accepted.length := (List.getElem?_eq_some_iff.mp ha).1
    refine ⟨a, ?_, ?_⟩
    · rw [Server.handleAccept, List.getElem?_append_left hlt]
      exact ha
    · simpa [Server.executedIn, requestsOn] using hasks
  | remove _ hdb haccepted =>
    refine ⟨a, haccepted ▸ ha, ?_⟩
    simpa [Server.executedIn, requestsOn] using hasks
  | connection i b e s' hexternal hb hs' =>
    have hexecuted : sv.executedIn (sv.stepped cfg i { b.session with db := sv.db } s')
        (.connection i e) = (executed b.session s').toList.map fun r => (i, r) := by
      simp only [Server.executedIn, hb, Server.stepped_self hb]
    rw [hexecuted]
    by_cases hij : i = j
    · subst hij
      obtain rfl := Option.some.inj (ha.symm.trans hb)
      rw [requestsOn_self]
      have hstart : Asks ms { a.session with db := sv.db } rs :=
        hasks.of_keeps (.refl a.session.conn) rfl sv.db
      have hconn : ({ a.session with db := sv.db } : Session).conn = a.session.conn := rfl
      exact ⟨_, Server.stepped_self hb _ _, asks_connection hms ha hconn hstart hexternal hcond hs'⟩
    · -- the updates of another client's SET change nothing of the reads
      obtain ⟨us, hother⟩ := stepped_other cfg (Ne.symm hij) ha { b.session with db := sv.db } s'
      refine ⟨_, hother, ?_⟩
      rw [requestsOn_other hij, List.append_nil]
      have hsame := TcpConnection.sameReads_submitAll a.session.conn us
      exact hasks.of_keeps hsame.keeps hsame.isOpen a.session.db

theorem asksOn_run (hms : ∀ m ∈ ms, m.Framed cfg) {rs : List DbRequest} (h : AsksOn j ms sv rs)
    {es : List ServerEvent} (hcond : Along (Server.step cfg) (ReadsWhole j) sv es)
    (hrun : run (Server.step cfg) sv es = some sv') :
    AsksOn j ms sv' (rs ++ requestsOn j (Server.history cfg sv es)) := by
  induction es generalizing sv rs with
  | nil =>
    obtain rfl := Option.some.inj hrun
    simpa [Server.history, requestsOn] using h
  | cons e es ih =>
    obtain ⟨sv₁, hfirst, hrest⟩ := run_cons_eq_some.mp hrun
    have hnext := ih (asksOn_step hms h hcond.1 hfirst) (hcond.2 sv₁ hfirst) hrest
    rw [Server.history, hfirst]
    dsimp only
    rwa [requestsOn_append, ← List.append_assoc]

/-- A connection that was just accepted. -/
theorem asksOn_accepted (sv : Server) (id : Nat) (memory : Nat → Nat) (ms : List ClientMessage) :
    AsksOn sv.accepted.length ms (sv.handleAccept id memory (hello ++ clientStream ms)) [] :=
  ⟨⟨id, startSession sv.db memory (hello ++ clientStream ms)⟩, by simp [Server.handleAccept],
    .hello (aligned_start sv.db memory ms) rfl⟩

end Server

/-- The connection `j` can go on with a whole read. -/
def ReadsOn (cfg : ServerConfig) (j : Nat) (sv : Server) : Prop :=
  ∃ count sv', ReadsWhole j sv (.connection j (.read count)) ∧
    sv.step cfg (.connection j (.read count)) = some sv'

/-- A connection that is registered can go on while something is left to read. -/
theorem asksOn_reads {cfg : ServerConfig} {ms : List ClientMessage} (hms : ∀ m ∈ ms, m.Framed cfg)
    {sv : Server} {j : Nat} {a : Accepted} (ha : a ∈ sv.accepted[j]?) {rs : List DbRequest}
    (h : Asks ms a.session rs) (hreg : sv.isRegistered j = true) (hmore : ¬ a.session.Drained) :
    ReadsOn cfg j sv := by
  have hstart : Asks ms { a.session with db := sv.db } rs :=
    h.of_keeps (.refl a.session.conn) rfl sv.db
  rcases hstart.reads_on hms with hdrained | ⟨count, s', hfull, hrun, hfault⟩
  · exact absurd hdrained hmore
  · refine ⟨count, _, ?_, Server.step_connection rfl ha ?_ hfault hreg⟩
    · rintro - b hb
      obtain rfl := Option.some.inj (ha.symm.trans hb)
      exact hfull
    · rw [connectionStep, if_neg (by simp [h.fault])]
      exact hrun

/-- In every run of the server, for a connection whose reads are whole, on which nothing fails, and
whose client sends framed messages: the history has the requests of the first messages of the
client in the order in which it sent them, and those of all its messages when nothing is left
to read; until then the connection, while it is registered, can go on. -/
theorem client_asks {cfg : ServerConfig} {es es' : List ServerEvent} {sv sv' : Server} {id : Nat}
    {memory : Nat → Nat} {ms : List ClientMessage} {j : Nat}
    (hbefore : run (Server.step cfg) { db := Db.empty }
      (es ++ [.accept id memory (hello ++ clientStream ms)]) = some sv)
    (hj : sv.accepted.length = j + 1) (hms : ∀ m ∈ ms, m.Framed cfg)
    (hrun : run (Server.step cfg) sv es' = some sv')
    (hwhole : Along (Server.step cfg) (ReadsWhole j) sv es') :
    ∃ a ∈ sv'.accepted[j]?, ∃ done rest, done ++ rest = ms ∧
      requestsOn j (Server.history cfg sv es') = done.filterMap ClientMessage.request ∧
      (a.session.Drained → rest = []) ∧
      (sv'.isRegistered j = true → ¬ a.session.Drained → ReadsOn cfg j sv') := by
  obtain ⟨sv₀, rfl, hlength⟩ := Server.run_accept hbefore
  obtain rfl : sv₀.accepted.length = j := Nat.succ.inj (hlength.symm.trans hj)
  obtain ⟨a, ha, hasks⟩ := asksOn_run hms (asksOn_accepted sv₀ id memory ms) hwhole hrun
  rw [List.nil_append] at hasks
  have hreads := asksOn_reads hms ha hasks
  refine ⟨a, ha, ?_⟩
  cases hasks with
  | hello hat hrs =>
    refine ⟨[], ms, rfl, hrs, fun hdrained => ?_, hreads⟩
    have hwaits := hdrained.2
    rw [hat.awaits.outstanding] at hwaits
    cases hwaits
  | message done rest hsplit hat hrs =>
    refine ⟨done, rest, hsplit, hrs, fun hdrained => ?_, hreads⟩
    exact clientStream_eq_nil (hat.unread.symm.trans hdrained.1)
  | body done rest m hsplit hat hrs =>
    refine ⟨done, m :: rest, hsplit, hrs, fun hdrained => ?_, hreads⟩
    have hwaits := hdrained.2
    rw [hat.awaits.outstanding] at hwaits
    cases hwaits

/-- SET of `ab`, and then GET. -/
def setThenGet : List ClientMessage :=
  [⟨requestSet, 0, setAbSeven.body, by decide, by decide⟩, getAb]

theorem setThenGet_framed (cfg : ServerConfig) : ∀ m ∈ setThenGet, m.Framed cfg := by
  intro m hm
  rcases List.mem_cons.mp hm with rfl | hm
  · exact (@set_wellFormed cfg _ rfl keyAb (.fixed .int8 [7] rfl) trivial rfl).2
  · obtain rfl := List.mem_singleton.mp hm
    exact (get_wellFormed cfg rfl rfl).2

/-- Another client sends a GET of its own. -/
def otherGet : ServerEvent := .accept 10 (fun _ => 0) (hello ++ clientStream [getAb])

/-- Its body is read between the two messages. -/
def between : List ServerEvent :=
  [.connection 1 (.read 6), .connection 0 (.read 6), .connection 1 (.read 7),
    .connection 0 (.read 7), .connection 1 (.read 5), .connection 0 (.read 3),
    .connection 1 (.read 7), .connection 1 (.read 3)]

theorem readsWhole_outstanding {j count : Nat} {sv : Server} {a : Accepted} {o : Nat × ReadOp}
    (ha : sv.accepted[j]? = some a) (hout : a.session.conn.reads.outstanding = [o])
    (hsize : count = o.2.kind.size) : ReadsWhole j sv (.connection j (.read count)) := by
  rintro - b hb o' ho'
  obtain rfl := Option.some.inj (ha.symm.trans hb)
  rw [hout] at ho'
  rwa [List.mem_singleton.mp ho']

theorem between_whole {sv : Server}
    (hbefore : run (Server.step ⟨64, false, fun _ => 0⟩) { db := Db.empty }
      ([otherGet] ++ [.accept 11 (fun _ => 0) (hello ++ clientStream setThenGet)]) = some sv) :
    Along (Server.step ⟨64, false, fun _ => 0⟩) (ReadsWhole 1) sv between := by
  obtain rfl := Option.some.inj hbefore
  -- the reads of the connection 0 are no condition on the connection 1
  have hother : (0 : Nat) ≠ 1 := by decide
  refine ⟨readsWhole_outstanding rfl rfl rfl, fun sv₁ h₁ => ?_⟩
  obtain rfl := Option.some.inj h₁
  refine ⟨fun h => absurd h hother, fun sv₂ h₂ => ?_⟩
  obtain rfl := Option.some.inj h₂
  refine ⟨readsWhole_outstanding rfl rfl rfl, fun sv₃ h₃ => ?_⟩
  obtain rfl := Option.some.inj h₃
  refine ⟨fun h => absurd h hother, fun sv₄ h₄ => ?_⟩
  obtain rfl := Option.some.inj h₄
  refine ⟨readsWhole_outstanding rfl rfl rfl, fun sv₅ h₅ => ?_⟩
  obtain rfl := Option.some.inj h₅
  refine ⟨fun h => absurd h hother, fun sv₆ h₆ => ?_⟩
  obtain rfl := Option.some.inj h₆
  refine ⟨readsWhole_outstanding rfl rfl rfl, fun sv₇ h₇ => ?_⟩
  obtain rfl := Option.some.inj h₇
  exact ⟨readsWhole_outstanding rfl rfl rfl, fun _ _ => trivial⟩

theorem client_asks_between : ∃ sv sv',
    run (Server.step ⟨64, false, fun _ => 0⟩) { db := Db.empty }
      ([otherGet] ++ [.accept 11 (fun _ => 0) (hello ++ clientStream setThenGet)]) = some sv ∧
    run (Server.step ⟨64, false, fun _ => 0⟩) sv between = some sv' ∧
    requestsOn 1 (Server.history ⟨64, false, fun _ => 0⟩ sv between) =
      setThenGet.filterMap ClientMessage.request := by
  refine ⟨_, _, rfl, rfl, ?_⟩
  have hwhole : Along (Server.step ⟨64, false, fun _ => 0⟩) (ReadsWhole 1) _ between :=
    between_whole rfl
  obtain ⟨a, ha, done, rest, hsplit, hrequests, hend, -⟩ :=
    @client_asks ⟨64, false, fun _ => 0⟩ [otherGet] between _ _ 11 (fun _ => 0) setThenGet 1 rfl rfl
      (setThenGet_framed _) rfl hwhole
  obtain rfl := Option.some.inj ha
  obtain rfl : rest = [] := hend ⟨rfl, rfl⟩
  rw [List.append_nil] at hsplit
  rw [hrequests, hsplit]

end StateDb
