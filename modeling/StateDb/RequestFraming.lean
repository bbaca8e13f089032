/-
  StateDb/RequestFraming.lean
  ===========================
  **Request framing**: between its reads the server stands at the border of a message,
  or of a preamble and its body.

  The body of a message is read by the handler that `process_message` wraps, so the body
  of a message that has another handler, or none, stays in the stream, and the next
  read takes it for a preamble.  A stream is read as it was sent just when no such
  message has a body, and no handler leaves its memory (`requests_framed_iff`).
-/
import StateDb.Lib.Run
import StateDb.SessionSteps

namespace StateDb

open Lib

/-! ## Alignment -/

/-- A read fills its whole buffer. -/
def FillsBuffer (s : Session) : SessionEvent → Prop
  | .read count => ∀ o ∈ s.conn.reads.outstanding, count = o.2.kind.size
  | _ => True

instance (s : Session) (e : SessionEvent) : Decidable (FillsBuffer s e) :=
  match e with
  | .read count =>
      inferInstanceAs (Decidable (∀ o ∈ s.conn.reads.outstanding, count = o.2.kind.size))
  | .written _ | .elsewhere _ => .isTrue trivial

/-- The bodies that handlers get, with their preambles. -/
def bodiesOf (ms : List ClientMessage) : List (MessagePreamble × List UInt8) :=
  (ms.filter fun m => m.preamble.readsBody).map fun m => (m.preamble, m.body)

structure AtHello (ms : List ClientMessage) (s : Session) : Prop where
  awaits : Awaits s helloRead []
  unread : s.unread = hello ++ clientStream ms
  dispatched : s.dispatched = []
  handled : s.handled = []

/-- The messages `done` were dispatched and their bodies read; `rest` comes. -/
structure AtMessage (done rest : List ClientMessage) (s : Session) : Prop where
  awaits : Awaits s preambleRead []
  unread : s.unread = clientStream rest
  dispatched : s.dispatched = done.map ClientMessage.preamble
  handled : s.handled = bodiesOf done

/-- The message `m` was dispatched, and its body comes. -/
structure AtBody (done : List ClientMessage) (m : ClientMessage) (rest : List ClientMessage)
    (s : Session) : Prop where
  reads : m.preamble.readsBody = true
  awaits : Awaits s (bodyRead m.preamble) [preambleRead]
  unread : s.unread = m.body ++ clientStream rest
  dispatched : s.dispatched = (done ++ [m]).map ClientMessage.preamble
  handled : s.handled = bodiesOf done

/-- The server dispatched the messages before some place of the stream, read their
bodies, and is going to read what the client sent next. -/
inductive Aligned (ms : List ClientMessage) (s : Session) : Prop
  | hello : AtHello ms s → Aligned ms s
  | message (done rest : List ClientMessage) : done ++ rest = ms → AtMessage done rest s →
      Aligned ms s
  | body (done rest : List ClientMessage) (m : ClientMessage) : done ++ m :: rest = ms →
      AtBody done m rest s → Aligned ms s

/-- The `i`-th preamble that the server dispatches is the `i`-th that the client sent. -/
theorem Aligned.dispatched_prefix {ms : List ClientMessage} {s : Session} (h : Aligned ms s) :
    s.dispatched <+: ms.map ClientMessage.preamble := by
  cases h with
  | hello hat => exact hat.dispatched ▸ List.nil_prefix
  | message done rest hsplit hat =>
    rw [hat.dispatched, ← hsplit, List.map_append]
    exact List.prefix_append _ _
  | body done rest m hsplit hat =>
    rw [hat.dispatched, ← hsplit, List.append_cons done m rest]
    exact (List.prefix_append (done ++ [m]) rest).map _

/-- Every run of the server with a client that sends `ms`, in which every read fills its
buffer, is aligned. -/
def RequestsFramed (cfg : ServerConfig) (db : Db) (memory : Nat → Nat) (ms : List ClientMessage) :
    Prop :=
  ∀ es s,
    Along (sessionStep cfg) FillsBuffer (startSession db memory (hello ++ clientStream ms)) es →
    run (sessionStep cfg) (startSession db memory (hello ++ clientStream ms)) es = some s →
    Aligned ms s

/-- A message has a body only if its handler reads it, and the handler keeps to its
memory; an assertion fails on an empty body. -/
def ClientMessage.Framed (cfg : ServerConfig) (m : ClientMessage) : Prop :=
  if m.preamble.readsBody then
    ¬ BodyOversteps m.preamble m.body ∧ ¬ (cfg.asserts = true ∧ m.body = [])
  else m.body = []

theorem clientStream_cons (m : ClientMessage) (ms : List ClientMessage) :
    clientStream (m :: ms) = m.preambleBytes ++ (m.body ++ clientStream ms) := by
  rw [clientStream, List.flatMap_cons, ClientMessage.bytes, List.append_assoc]
  rfl

theorem bodiesOf_concat (ms : List ClientMessage) (m : ClientMessage) :
    bodiesOf (ms ++ [m]) =
      bodiesOf ms ++ if m.preamble.readsBody then [(m.preamble, m.body)] else [] := by
  unfold bodiesOf
  rw [List.filter_append, List.map_append]
  cases hbody : m.preamble.readsBody <;> simp [hbody]

/-! ## Full reads -/

theorem Awaits.count_eq {s : Session} {op : ReadOp} {pending : List ReadOp} {count : Nat}
    (h : Awaits s op pending) (hfull : FillsBuffer s (.read count)) : count = op.kind.size := by
  obtain ⟨number, hout⟩ := h.reading.outstanding
  exact hfull (number, op) (by simp [hout])

theorem AtHello.next {cfg : ServerConfig} {ms : List ClientMessage} {s s' : Session}
    (h : AtHello ms s) (hrun : s.readDone cfg 6 = some s') : AtMessage [] ms s' := by
  have htake : readBuffer 6 (s.unread.take 6) = hello := by
    rw [h.unread, List.take_left' length_hello]
    rfl
  obtain ⟨-, hleft, -, hdispatched, hhandled, -, hvalid, -⟩ := Session.readDone_hello h.awaits hrun
  refine ⟨hvalid (htake ▸ rfl), ?_, hdispatched.trans h.dispatched, hhandled.trans h.handled⟩
  rw [hleft, h.unread, List.drop_left' length_hello]

/-- What a full read of the preamble of a message leaves. -/
theorem AtMessage.readDone {cfg : ServerConfig} {done rest : List ClientMessage} {m : ClientMessage}
    {s s' : Session} (h : AtMessage done (m :: rest) s) (hrun : s.readDone cfg 7 = some s') :
    s'.unread = m.body ++ clientStream rest ∧
      s'.dispatched = (done ++ [m]).map ClientMessage.preamble ∧ s'.handled = bodiesOf done ∧
      (m.preamble.readsBody = true → Awaits s' (bodyRead m.preamble) [preambleRead]) ∧
      (m.preamble.readsBody = false → Awaits s' preambleRead []) := by
  have htake : readBuffer 7 (s.unread.take 7) = m.preambleBytes := by
    rw [h.unread, clientStream_cons, List.take_left' m.length_preambleBytes,
      readBuffer_full m.length_preambleBytes]
  have hmsg : m.preamble = MessagePreamble.ofBytes (readBuffer 7 (s.unread.take 7)) := by
    rw [htake, m.ofBytes_preambleBytes]
  obtain ⟨-, hleft, -, hdispatched, hhandled, hbody, hnobody⟩ :=
    Session.readDone_preamble h.awaits hrun hmsg
  refine ⟨?_, ?_, hhandled.trans h.handled, hbody, hnobody⟩
  · rw [hleft, h.unread, clientStream_cons, List.drop_left' m.length_preambleBytes]
  · rw [hdispatched, h.dispatched, List.map_append]
    rfl

theorem AtMessage.next_body {cfg : ServerConfig} {done rest : List ClientMessage}
    {m : ClientMessage} {s s' : Session} (h : AtMessage done (m :: rest) s)
    (hrun : s.readDone cfg 7 = some s') (hreads : m.preamble.readsBody = true) :
    AtBody done m rest s' := by
  obtain ⟨hleft, hdispatched, hhandled, hbody, -⟩ := h.readDone hrun
  exact ⟨hreads, hbody hreads, hleft, hdispatched, hhandled⟩

theorem AtMessage.next_message {cfg : ServerConfig} {done rest : List ClientMessage}
    {m : ClientMessage} {s s' : Session} (h : AtMessage done (m :: rest) s)
    (hrun : s.readDone cfg 7 = some s') (hreads : m.preamble.readsBody = false)
    (hempty : m.body = []) : AtMessage (done ++ [m]) rest s' := by
  obtain ⟨hleft, hdispatched, hhandled, -, hnobody⟩ := h.readDone hrun
  refine ⟨hnobody hreads, ?_, hdispatched, ?_⟩
  · rw [hleft, hempty, List.nil_append]
  · rw [hhandled, bodiesOf_concat, hreads]
    simp

/-- A full read of the body of a message: the session goes on just when the message is
framed. -/
theorem AtBody.next {cfg : ServerConfig} {done rest : List ClientMessage} {m : ClientMessage}
    {s s' : Session} (h : AtBody done m rest s) (hrun : s.readDone cfg m.body.length = some s') :
    (m.Framed cfg → AtMessage (done ++ [m]) rest s') ∧ (¬ m.Framed cfg → s'.fault ≠ none) := by
  have htake : m.body = readBuffer m.preamble.size (s.unread.take m.body.length) := by
    rw [h.unread, List.take_left' rfl]
    exact (readBuffer_full rfl).symm
  have hframed : m.Framed cfg ↔
      ¬ BodyOversteps m.preamble m.body ∧ ¬ (cfg.asserts = true ∧ m.body = []) := by
    rw [ClientMessage.Framed, if_pos h.reads]
  have hempty : m.preamble.size = 0 ↔ m.body = [] := List.length_eq_zero_iff
  obtain ⟨-, hleft, hdispatched, hend⟩ := Session.readDone_body h.awaits hrun htake
  rcases hend with ⟨hasserts, hzero, hfault, -⟩ | ⟨hassert, hhandled, hrequest⟩
  · refine ⟨?_, fun _ => by simp [hfault]⟩
    intro hok
    exact absurd ⟨hasserts, hempty.mp hzero⟩ (hframed.mp hok).2
  · have hover := bodyRequest_error_iff cfg.width s.db m.preamble m.body
    rcases hrequest with ⟨e, hok, -, hnext⟩ | ⟨e, herror, -, hfault⟩
    · constructor
      · refine fun _ => ⟨hnext, ?_, hdispatched.trans h.dispatched, ?_⟩
        · rw [hleft, h.unread, List.drop_left' rfl]
        · rw [hhandled, h.handled, bodiesOf_concat, if_pos h.reads]
      · intro hnot
        have hkeeps : ¬ BodyOversteps m.preamble m.body := by
          rw [← hover, hok]
          simp
        have hassert' : ¬ (cfg.asserts = true ∧ m.body = []) := by rwa [← hempty]
        exact absurd (hframed.mpr ⟨hkeeps, hassert'⟩) hnot
    · refine ⟨?_, fun _ => by simp [hfault]⟩
      intro hok
      exact absurd (hover.mp ⟨e, herror⟩) (hframed.mp hok).1

/-! ## Runs over framed messages -/

theorem Aligned.awaits {ms : List ClientMessage} {s : Session} (h : Aligned ms s) :
    ∃ op pending, Awaits s op pending := by
  cases h with
  | hello hat => exact ⟨_, _, hat.awaits⟩
  | message done rest hms hat => exact ⟨_, _, hat.awaits⟩
  | body done rest m hms hat => exact ⟨_, _, hat.awaits⟩

theorem Aligned.of_same {ms : List ClientMessage} {s : Session} (h : Aligned ms s)
    {conn : TcpConnection Part} (hsame : s.conn.SameReads conn) (db : Db) :
    Aligned ms { s with db := db, conn := conn } := by
  cases h with
  | hello hat =>
    exact .hello ⟨hat.awaits.of_same hsame db, hat.unread, hat.dispatched, hat.handled⟩
  | message done rest hms hat =>
    exact .message done rest hms
      ⟨hat.awaits.of_same hsame db, hat.unread, hat.dispatched, hat.handled⟩
  | body done rest m hms hat =>
    exact .body done rest m hms
      ⟨hat.reads, hat.awaits.of_same hsame db, hat.unread, hat.dispatched, hat.handled⟩

theorem aligned_start (db : Db) (memory : Nat → Nat) (ms : List ClientMessage) :
    AtHello ms (startSession db memory (hello ++ clientStream ms)) :=
  ⟨Session.awaits_start db memory _, rfl, rfl, rfl⟩

theorem aligned_readDone {cfg : ServerConfig} {ms : List ClientMessage} {s s' : Session}
    {count : Nat} (hms : ∀ m ∈ ms, m.Framed cfg) (hs : Aligned ms s)
    (hfull : FillsBuffer s (.read count)) (hrun : s.readDone cfg count = some s') :
    Aligned ms s' := by
  cases hs with
  | hello hat =>
    obtain rfl := hat.awaits.count_eq hfull
    exact .message [] ms rfl (hat.next hrun)
  | message done rest hsplit hat =>
    obtain rfl := hat.awaits.count_eq hfull
    cases rest with
    | nil =>
      -- the client sent nothing more
      obtain ⟨number, hpossible, -⟩ := Session.readDone_possible hat.awaits hrun
      have hle : 7 ≤ s.unread.length := hpossible.2.1
      rw [hat.unread] at hle
      exact absurd hle (by simp [clientStream])
    | cons m rest =>
      have hm : m.Framed cfg := hms m (by simp [← hsplit])
      cases hreads : m.preamble.readsBody with
      | true => exact .body done rest m hsplit (hat.next_body hrun hreads)
      | false =>
        have hempty : m.body = [] := by
          rw [ClientMessage.Framed, hreads] at hm
          exact hm
        refine .message (done ++ [m]) rest ?_ (hat.next_message hrun hreads hempty)
        rw [← hsplit, List.append_assoc]
        rfl
  | body done rest m hsplit hat =>
    obtain rfl := hat.awaits.count_eq hfull
    have hm : m.Framed cfg := hms m (by simp [← hsplit])
    refine .message (done ++ [m]) rest ?_ ((hat.next hrun).1 hm)
    rw [← hsplit, List.append_assoc]
    rfl

/-- A step of a session with a client whose messages are framed. -/
theorem aligned_step {cfg : ServerConfig} {ms : List ClientMessage} {s s' : Session}
    {e : SessionEvent} (hms : ∀ m ∈ ms, m.Framed cfg) (hs : Aligned ms s) (hfull : FillsBuffer s e)
    (hstep : sessionStep cfg s e = some s') : Aligned ms s' := by
  obtain ⟨-, ⟨count, rfl, hrun⟩ | ⟨count, conn, rfl, hsame, rfl⟩ |
      ⟨r, db, conn, rfl, hsame, rfl⟩⟩ :=
    Session.sessionStep_cases hstep
  · exact aligned_readDone hms hs hfull hrun
  · exact hs.of_same hsame s.db
  · exact hs.of_same hsame db

theorem aligned_run {cfg : ServerConfig} {ms : List ClientMessage} (hms : ∀ m ∈ ms, m.Framed cfg)
    {s s' : Session} {es : List SessionEvent} (hs : Aligned ms s)
    (hfull : Along (sessionStep cfg) FillsBuffer s es)
    (hrun : run (sessionStep cfg) s es = some s') :
    Aligned ms s' :=
  run_invariant (Aligned ms) (fun hinv hcond hstep => aligned_step hms hinv hcond hstep) hs hfull
    hrun

/-! ## Runs of full reads -/

/-- A read of the whole buffer. -/
def FullRead (s : Session) (e : SessionEvent) : Prop :=
  ∃ o, s.conn.reads.outstanding = [o] ∧ e = .read o.2.kind.size

theorem FullRead.fillsBuffer {s : Session} {e : SessionEvent} (h : FullRead s e) :
    FillsBuffer s e := by
  obtain ⟨o, hout, rfl⟩ := h
  intro o' ho'
  rw [hout, List.mem_singleton] at ho'
  rw [ho']

/-- The socket can fill the buffer when the client sent enough. -/
theorem Awaits.reaches {s : Session} {op : ReadOp} {pending : List ReadOp} (h : Awaits s op pending)
    (cfg : ServerConfig) (henough : op.kind.size ≤ s.unread.length) :
    ∃ s', s.readDone cfg op.kind.size = some s' ∧ Reaches (sessionStep cfg) FullRead s s' := by
  have hpossible : s.Possible op.kind.size op.kind.size :=
    ⟨Nat.le_refl _, henough, Nat.eq_zero_or_pos _⟩
  obtain ⟨s', hrun⟩ := Session.readDone_exists h cfg hpossible
  obtain ⟨number, hout⟩ := h.reading.outstanding
  refine ⟨s', hrun, Reaches.single ⟨(number, op), hout, rfl⟩ ?_⟩
  rw [Session.sessionStep_read h.fault, hrun]

theorem AtHello.reaches {ms : List ClientMessage} {s : Session} (h : AtHello ms s)
    (cfg : ServerConfig) : ∃ s', Reaches (sessionStep cfg) FullRead s s' ∧ AtMessage [] ms s' := by
  obtain ⟨s', hrun, hreaches⟩ := h.awaits.reaches cfg (by
    rw [h.unread, List.length_append]
    exact Nat.le_add_right _ _)
  exact ⟨s', hreaches, h.next hrun⟩

theorem AtBody.reaches {done rest : List ClientMessage} {m : ClientMessage} {s : Session}
    (h : AtBody done m rest s) (cfg : ServerConfig) :
    ∃ s', Reaches (sessionStep cfg) FullRead s s' ∧
      (m.Framed cfg → AtMessage (done ++ [m]) rest s') ∧ (¬ m.Framed cfg → s'.fault ≠ none) := by
  obtain ⟨s', hrun, hreaches⟩ := h.awaits.reaches cfg (by
    rw [h.unread, List.length_append]
    exact Nat.le_add_right _ _)
  exact ⟨s', hreaches, h.next hrun⟩

theorem Awaits.unique {s : Session} {op op' : ReadOp} {pending pending' : List ReadOp}
    (h : Awaits s op pending) (h' : Awaits s op' pending') : op = op' := by
  obtain ⟨number, hout⟩ := h.reading.outstanding
  obtain ⟨number', hout'⟩ := h'.reading.outstanding
  rw [hout] at hout'
  exact (Prod.mk.inj (List.cons.inj hout').1).2

/-- The body of a message that was dispatched is the start of what is read as the next
preamble. -/
theorem not_aligned_of_left {done rest : List ClientMessage} {m : ClientMessage} {s : Session}
    (hawaits : Awaits s preambleRead []) (hunread : s.unread = m.body ++ clientStream rest)
    (hdispatched : s.dispatched = (done ++ [m]).map ClientMessage.preamble) (hbody : m.body ≠ []) :
    ¬ Aligned (done ++ m :: rest) s := by
  intro h
  cases h with
  | hello hat => exact absurd (hat.dispatched.symm.trans hdispatched) (by simp)
  | message done' rest' hsplit hat =>
    have hlen : done'.length = (done ++ [m]).length := by
      have hsame := congrArg List.length (hat.dispatched.symm.trans hdispatched)
      simpa only [List.length_map] using hsame
    rw [List.append_cons done m rest] at hsplit
    obtain ⟨-, rfl⟩ := List.append_inj hsplit hlen
    have hself : clientStream rest' = m.body ++ clientStream rest' :=
      hat.unread.symm.trans hunread
    exact hbody (List.self_eq_append_left.mp hself)
  | body done' rest' m' hsplit hat =>
    have hread : bodyRead m'.preamble = preambleRead := hat.awaits.unique hawaits
    cases hread

/-- The next message is read to its end, or it is not framed and the server is no longer
aligned. -/
theorem AtMessage.reaches {done rest : List ClientMessage} {m : ClientMessage} {s : Session}
    (h : AtMessage done (m :: rest) s) (cfg : ServerConfig) :
    ∃ s', Reaches (sessionStep cfg) FullRead s s' ∧
      (m.Framed cfg → AtMessage (done ++ [m]) rest s') ∧
      (¬ m.Framed cfg → ¬ Aligned (done ++ m :: rest) s') := by
  obtain ⟨s₁, hrun, hfirst⟩ := h.awaits.reaches cfg (by
    rw [h.unread, clientStream_cons, List.length_append, m.length_preambleBytes]
    exact Nat.le_add_right _ _)
  cases hreads : m.preamble.readsBody with
  | true =>
    obtain ⟨s', hsecond, hframed, hunframed⟩ := (h.next_body hrun hreads).reaches cfg
    refine ⟨s', hfirst.trans hsecond, hframed, ?_⟩
    intro hnot haligned
    obtain ⟨op, pending, hawaits⟩ := haligned.awaits
    exact hunframed hnot hawaits.fault
  | false =>
    have hiff : m.Framed cfg ↔ m.body = [] := by simp [ClientMessage.Framed, hreads]
    obtain ⟨hleft, hdispatched, -, -, hnobody⟩ := h.readDone hrun
    refine ⟨s₁, hfirst, fun hok => h.next_message hrun hreads (hiff.mp hok), ?_⟩
    intro hnot
    exact not_aligned_of_left (hnobody hreads) hleft hdispatched (mt hiff.mpr hnot)

/-- A stream of framed messages is read to its end. -/
theorem AtMessage.reaches_end {cfg : ServerConfig} {ms : List ClientMessage}
    (hms : ∀ m ∈ ms, m.Framed cfg) {done : List ClientMessage} {s : Session}
    (h : AtMessage done ms s) :
    ∃ s', Reaches (sessionStep cfg) FullRead s s' ∧ AtMessage (done ++ ms) [] s' := by
  induction ms generalizing done s with
  | nil => exact ⟨s, Reaches.refl s, by rwa [List.append_nil]⟩
  | cons m ms ih =>
    obtain ⟨s₁, hfirst, hframed, -⟩ := h.reaches cfg
    obtain ⟨s', hrest, hend⟩ :=
      ih (fun m' hm' => hms m' (List.mem_cons_of_mem _ hm')) (hframed (hms m List.mem_cons_self))
    refine ⟨s', hfirst.trans hrest, ?_⟩
    rwa [List.append_cons done m ms]

/-- The first message that is not framed is found by reading up to it. -/
theorem framed_of_reaches {cfg : ServerConfig} {ms rest : List ClientMessage} {s₀ : Session}
    (haligned : ∀ s, Reaches (sessionStep cfg) FullRead s₀ s → Aligned ms s)
    {done : List ClientMessage} {s : Session} (hsplit : done ++ rest = ms)
    (hs : Reaches (sessionStep cfg) FullRead s₀ s) (h : AtMessage done rest s) :
    ∀ m ∈ rest, m.Framed cfg := by
  induction rest generalizing done s with
  | nil => simp
  | cons m rest ih =>
    obtain ⟨s', hnext, hframed, hunframed⟩ := h.reaches cfg
    have hs' := hs.trans hnext
    have hm : m.Framed cfg := by
      by_contra hnot
      exact hunframed hnot (hsplit ▸ haligned s' hs')
    have hrest := ih (by rwa [← List.append_cons]) hs' (hframed hm)
    exact List.forall_mem_cons.mpr ⟨hm, hrest⟩

/-- The server keeps to the borders of the messages of a client, whatever else happens
meanwhile, just when every message is framed. -/
theorem requests_framed_iff (cfg : ServerConfig) (db : Db) (memory : Nat → Nat)
    (ms : List ClientMessage) : RequestsFramed cfg db memory ms ↔ ∀ m ∈ ms, m.Framed cfg := by
  have hstart := aligned_start db memory ms
  constructor
  · intro h
    obtain ⟨s, hs, hat⟩ := hstart.reaches cfg
    refine framed_of_reaches (?_) (List.nil_append ms) hs hat
    intro s' hs'
    obtain ⟨es, hfull, hrun⟩ := hs'
    exact h es s' (hfull.mono fun _ _ hread => hread.fillsBuffer) hrun
  · intro hms es s hfull hrun
    exact aligned_run hms (.hello hstart) hfull hrun

/-- `commands::request_delete`, which `init_dispatcher` does not register. -/
def requestDelete : Nat := 2

/-- A DELETE whose key reads as the preamble of a GET. -/
def deleteMessage : ClientMessage := ⟨requestDelete, 0, [1, 0, 0, 3, 0, 0, 0], by decide, by decide⟩

def serverConfig : ServerConfig := ⟨64, true, fun _ => 0⟩

theorem deleteMessage_dispatched_twice : ∃ es s,
    Along (sessionStep serverConfig) FillsBuffer
      (startSession Db.empty (fun _ => 0) (hello ++ clientStream [deleteMessage])) es ∧
    run (sessionStep serverConfig)
      (startSession Db.empty (fun _ => 0) (hello ++ clientStream [deleteMessage])) es = some s ∧
    s.dispatched = [deleteMessage.preamble, ⟨requestGet, 0, 3⟩] ∧ ¬ Aligned [deleteMessage] s := by
  refine ⟨[.read 6, .read 7, .read 7], _, by decide, rfl, by decide, ?_⟩
  intro haligned
  exact absurd haligned.dispatched_prefix (by decide)

end StateDb
