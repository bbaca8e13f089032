/-
  StateDb/Fragmentation.lean
  ==========================
  **Fragmentation**: how the network cuts the stream of a client.

  Every read is one `async_read_some`, and what it reports is taken for the whole
  buffer: the bytes that a short read leaves come with the next read.  The bytes that
  the completed reads asked for are counted by what was dispatched and handled (`asked`).
  A session that dispatched and handled the whole stream asked for as many bytes as the
  stream has, so none of its reads was short (`fragmentation_agrees_iff`), and the cuts
  make no difference only to a client that sends nothing (`fragmentationIndependent_iff`).
-/
import StateDb.RequestFraming

namespace StateDb

open Lib

/-! ## Runs of one client -/

/-- The event is one of the client's own connection. -/
def SessionEvent.own : SessionEvent → Bool
  | .elsewhere _ => false
  | _ => true

/-- What a run dispatched and handled, and the database that it ends in. -/
structure Outcome where
  dispatched : List MessagePreamble
  handled : List (MessagePreamble × List UInt8)
  db : Db

def Session.outcome (s : Session) : Outcome := ⟨s.dispatched, s.handled, s.db⟩

/-- The run `es` reads all that the server will read from the stream. -/
structure ReadsOut (cfg : ServerConfig) (s : Session) (es : List SessionEvent) (s' : Session) :
    Prop where
  own : ∀ e ∈ es, e.own = true
  run : run (sessionStep cfg) s es = some s'
  stopped : ∀ count, sessionStep cfg s' (.read count) = none

/-- The database after a body was handled. -/
def Db.handle (w : Nat) (db : Db) (p : MessagePreamble × List UInt8) : Db :=
  match bodyRequest w db p.1 p.2 with
  | .ok e => e.db
  | .error _ => db

/-- What a server does with the messages of a client. -/
def intendedOutcome (w : Nat) (db : Db) (ms : List ClientMessage) : Outcome :=
  ⟨ms.map ClientMessage.preamble, bodiesOf ms, (bodiesOf ms).foldl (Db.handle w) db⟩

/-! ## What the reads asked for -/

namespace Session

/-- The bytes of the buffers of the reads that completed, once the HELLO was read. -/
def asked (s : Session) : Nat :=
  6 + 7 * s.dispatched.length + (s.handled.map fun p => p.1.size).sum

end Session

/-- Where a session is, whatever was read, and the bytes that its reads asked for. -/
inductive Stage (s : Session) : Nat → Prop
  | hello : Awaits s helloRead [] → s.dispatched = [] → s.handled = [] → Stage s 0
  | preamble : Awaits s preambleRead [] → s.handled.length ≤ s.dispatched.length → Stage s s.asked
  | body (msg : MessagePreamble) : Awaits s (bodyRead msg) [preambleRead] →
      s.handled.length < s.dispatched.length → Stage s s.asked
  | closed : s.conn.reads.outstanding = [] → s.dispatched = [] → s.handled = [] → Stage s s.asked
  | failed : s.fault ≠ none → (s.handled.length < s.dispatched.length ∨
      ∃ p ∈ s.handled, BodyOversteps p.1 p.2) → Stage s s.asked

/-- The session started with the database `db`, and its reads asked for `n` bytes. -/
structure Progress (w : Nat) (db : Db) (s : Session) (n : Nat) : Prop where
  stage : Stage s n
  db_eq : s.db = s.handled.foldl (Db.handle w) db

theorem Stage.of_same {s : Session} {n : Nat} (h : Stage s n) {conn : TcpConnection Part}
    (hsame : s.conn.SameReads conn) : Stage { s with conn := conn } n := by
  cases h with
  | hello hawaits hdispatched hhandled =>
    exact .hello (hawaits.of_same hsame s.db) hdispatched hhandled
  | preamble hawaits hle =>
    exact @Stage.preamble { s with conn := conn } (hawaits.of_same hsame s.db) hle
  | body msg hawaits hlt =>
    exact @Stage.body { s with conn := conn } msg (hawaits.of_same hsame s.db) hlt
  | closed hout hdispatched hhandled =>
    exact @Stage.closed { s with conn := conn } (hsame.reads ▸ hout) hdispatched hhandled
  | failed hfault hmore => exact @Stage.failed { s with conn := conn } hfault hmore

/-- A read adds the size of its buffer to what was asked for, so it loses no byte only
when it fills its buffer. -/
structure Reads (w : Nat) (db : Db) (s s' : Session) (n n' count size : Nat) : Prop where
  progress : Progress w db s' n'
  asked : n' = n + size
  le : count ≤ size
  unread : s'.unread.length + count = s.unread.length

theorem progress_hello {cfg : ServerConfig} {db : Db} {s s' : Session} {count : Nat}
    (h : Awaits s helloRead []) (hdispatched : s.dispatched = []) (hhandled : s.handled = [])
    (hdb : s.db = db) (hrun : s.readDone cfg count = some s') :
    Reads cfg.width db s s' 0 s'.asked count 6 := by
  obtain ⟨hpossible, hleft, hdb', hd, hh, hfault, hvalid, hinvalid⟩ := Session.readDone_hello h hrun
  have hd' := hd.trans hdispatched
  have hh' := hh.trans hhandled
  refine ⟨⟨?_, ?_⟩, ?_, hpossible.1, ?_⟩
  · cases hello : helloValid (readBuffer 6 (s.unread.take count)) with
    | true => exact .preamble (hvalid hello) (by simp [hd', hh'])
    | false => exact .closed (hinvalid hello) hd' hh'
  · rw [hh', hdb', hdb]
    rfl
  · simp [Session.asked, hd', hh']
  · rw [hleft, List.length_drop]
    have := hpossible.2.1
    omega

theorem progress_preamble {cfg : ServerConfig} {db : Db} {s s' : Session} {count : Nat}
    (h : Awaits s preambleRead []) (hle : s.handled.length ≤ s.dispatched.length)
    (hdb : s.db = s.handled.foldl (Db.handle cfg.width) db)
    (hrun : s.readDone cfg count = some s') :
    Reads cfg.width db s s' s.asked s'.asked count 7 := by
  obtain ⟨hpossible, hleft, hdb', hd, hh, hbody, hnobody⟩ := Session.readDone_preamble h hrun rfl
  have hlt : s'.handled.length < s'.dispatched.length := by
    rw [hh, hd, List.length_append]
    exact Nat.lt_succ_of_le hle
  refine ⟨⟨?_, ?_⟩, ?_, hpossible.1, ?_⟩
  · generalize MessagePreamble.ofBytes (readBuffer 7 (s.unread.take count)) = msg at hbody hnobody
    cases hreads : msg.readsBody with
    | true => exact .body msg (hbody hreads) hlt
    | false => exact .preamble (hnobody hreads) hlt.le
  · rw [hdb', hh, hdb]
  · simp only [Session.asked, hd, hh, List.length_append, List.length_singleton]
    omega
  · rw [hleft, List.length_drop]
    exact Nat.sub_add_cancel hpossible.2.1

theorem progress_body {cfg : ServerConfig} {db : Db} {s s' : Session} {count : Nat}
    {msg : MessagePreamble} (h : Awaits s (bodyRead msg) [preambleRead])
    (hlt : s.handled.length < s.dispatched.length)
    (hdb : s.db = s.handled.foldl (Db.handle cfg.width) db)
    (hrun : s.readDone cfg count = some s') :
    Reads cfg.width db s s' s.asked s'.asked count msg.size := by
  obtain ⟨hpossible, hleft, hd, hend⟩ := Session.readDone_body h hrun rfl
  have hcount : s'.unread.length + count = s.unread.length := by
    rw [hleft, List.length_drop]
    exact Nat.sub_add_cancel hpossible.2.1
  rcases hend with ⟨-, hzero, hfault, hdb', hh⟩ | ⟨-, hh, hrequest⟩
  · refine ⟨⟨.failed (by simp [hfault]) (Or.inl (by rwa [hh, hd])), ?_⟩, ?_, hpossible.1, hcount⟩
    · rw [hdb', hh, hdb]
    · simp only [Session.asked, hd, hh, hzero, Nat.add_zero]
  · generalize readBuffer msg.size (s.unread.take count) = body at hh hrequest
    have hasked : s'.asked = s.asked + msg.size := by
      simp only [Session.asked, hd, hh, List.map_append, List.sum_append, List.map_cons,
        List.map_nil, List.sum_cons, List.sum_nil]
      omega
    have hmore : s'.handled.foldl (Db.handle cfg.width) db = s.db.handle cfg.width (msg, body) := by
      rw [hh, List.foldl_append, ← hdb]
      rfl
    have hle : s'.handled.length ≤ s'.dispatched.length := by
      rw [hh, hd, List.length_append]
      exact hlt
    rcases hrequest with ⟨e, hok, hdb', hnext⟩ | ⟨e, herror, hdb', hfault⟩
    · refine ⟨⟨.preamble hnext hle, ?_⟩, hasked, hpossible.1, hcount⟩
      rw [hmore, hdb', Db.handle, hok]
    · have hover : BodyOversteps msg body := (bodyRequest_error_iff _ _ msg body).mp ⟨e, herror⟩
      refine ⟨⟨.failed (by simp [hfault]) (Or.inr ⟨(msg, body), by simp [hh], hover⟩), ?_⟩, hasked,
        hpossible.1, hcount⟩
      rw [hmore, hdb', Db.handle, herror]

/-- A step loses no byte only when its read fills its buffer. -/
theorem progress_step {cfg : ServerConfig} {db : Db} {s s' : Session} {e : SessionEvent} {n : Nat}
    (h : Progress cfg.width db s n) (hown : e.own = true) (hstep : sessionStep cfg s e = some s') :
    ∃ n', Progress cfg.width db s' n' ∧ n + s.unread.length ≤ n' + s'.unread.length ∧
      (n + s.unread.length = n' + s'.unread.length ↔ FillsBuffer s e) := by
  obtain ⟨hfault, ⟨count, rfl, hrun⟩ | ⟨count, conn, rfl, hsame, rfl⟩ | ⟨r, db', conn, rfl, -⟩⟩ :=
    Session.sessionStep_cases hstep
  · have hreads : ∃ op pending n', Awaits s op pending ∧
        Reads cfg.width db s s' n n' count op.kind.size := by
      obtain ⟨hstage, hdb⟩ := h
      cases hstage with
      | hello hawaits hdispatched hhandled =>
        rw [hhandled] at hdb
        exact ⟨_, _, _, hawaits, progress_hello hawaits hdispatched hhandled hdb hrun⟩
      | preamble hawaits hle => exact ⟨_, _, _, hawaits, progress_preamble hawaits hle hdb hrun⟩
      | body msg hawaits hlt => exact ⟨_, _, _, hawaits, progress_body hawaits hlt hdb hrun⟩
      | closed hout =>
        simp only [Session.readDone, hout] at hrun
        cases hrun
      | failed hfailed => exact absurd hfault hfailed
    obtain ⟨op, pending, n', hawaits, hprogress, hasked, hle, hunread⟩ := hreads
    obtain ⟨number, hout⟩ := hawaits.reading.outstanding
    have hfills : FillsBuffer s (.read count) ↔ count = op.kind.size := by
      simp [FillsBuffer, hout]
    refine ⟨n', hprogress, by omega, ?_⟩
    rw [hfills]
    omega
  · exact ⟨n, ⟨h.stage.of_same hsame, h.db_eq⟩, Nat.le_refl _, iff_of_true rfl trivial⟩
  · cases hown

theorem progress_run {cfg : ServerConfig} {db : Db} {s s' : Session} {es : List SessionEvent}
    {n : Nat} (h : Progress cfg.width db s n) (hown : ∀ e ∈ es, e.own = true)
    (hrun : run (sessionStep cfg) s es = some s') :
    ∃ n', Progress cfg.width db s' n' ∧ n + s.unread.length ≤ n' + s'.unread.length ∧
      (n + s.unread.length = n' + s'.unread.length → Along (sessionStep cfg) FillsBuffer s es) := by
  induction es generalizing s n with
  | nil =>
    obtain rfl := Option.some.inj hrun
    exact ⟨n, h, Nat.le_refl _, fun _ => trivial⟩
  | cons e es ih =>
    obtain ⟨s₁, hfirst, hrest⟩ := run_cons_eq_some.mp hrun
    obtain ⟨n₁, h₁, hle₁, hfills⟩ := progress_step h (hown e List.mem_cons_self) hfirst
    obtain ⟨n', h', hle, halong⟩ := ih h₁ (fun e' he' => hown e' (List.mem_cons_of_mem _ he')) hrest
    refine ⟨n', h', hle₁.trans hle, fun heq => ⟨hfills.mp (by omega), ?_⟩⟩
    intro s₂ hs₂
    rw [hfirst] at hs₂
    exact Option.some.inj hs₂ ▸ halong (by omega)

/-! ## The end of a run -/

/-- A session that stopped waits for bytes that do not come. -/
theorem Awaits.stopped {cfg : ServerConfig} {s : Session} {op : ReadOp} {pending : List ReadOp}
    (h : Awaits s op pending) (hstopped : ∀ count, sessionStep cfg s (.read count) = none) :
    0 < op.kind.size ∧ s.unread = [] := by
  have hnot : ∀ count, ¬ s.Possible op.kind.size count := by
    intro count hpossible
    obtain ⟨s', hrun⟩ := Session.readDone_exists h cfg hpossible
    have hnone := hstopped count
    rw [Session.sessionStep_read h.fault, hrun] at hnone
    cases hnone
  have hsize : 0 < op.kind.size := by
    apply Nat.pos_of_ne_zero
    intro hzero
    exact hnot 0 ⟨Nat.zero_le _, Nat.zero_le _, Or.inl hzero⟩
  refine ⟨hsize, ?_⟩
  by_contra hunread
  exact hnot 1 ⟨hsize, List.length_pos_iff.mpr hunread, Or.inr Nat.one_pos⟩

/-- A session that waits for bytes stops where the client sent no more. -/
theorem Awaits.stops {s : Session} {op : ReadOp} {pending : List ReadOp} (h : Awaits s op pending)
    (cfg : ServerConfig) (hsize : 0 < op.kind.size) (hunread : s.unread = []) (count : Nat) :
    sessionStep cfg s (.read count) = none := by
  rw [Session.sessionStep_read h.fault, ← Option.not_isSome_iff_eq_none, Option.isSome_iff_exists]
  rintro ⟨s', hrun⟩
  obtain ⟨number, ⟨-, hle, hpos⟩, -⟩ := Session.readDone_possible h hrun
  rw [hunread, List.length_nil] at hle
  omega

theorem length_clientStream (ms : List ClientMessage) :
    (clientStream ms).length = 7 * ms.length + (ms.map fun m => m.body.length).sum := by
  induction ms with
  | nil => rfl
  | cons m ms ih =>
    rw [clientStream_cons, List.length_append, List.length_append, m.length_preambleBytes, ih,
      List.length_cons, List.map_cons, List.sum_cons]
    omega

/-- Every message is a GET or a SET, and its handler keeps to its memory. -/
def WellFormed (cfg : ServerConfig) (ms : List ClientMessage) : Prop :=
  ∀ m ∈ ms, m.preamble.readsBody = true ∧ m.Framed cfg

/-- A GET of a key. -/
theorem get_wellFormed (cfg : ServerConfig) {m : ClientMessage} (hid : m.id = requestGet)
    {key : Key} (hbody : m.body = key.bytes) : m.preamble.readsBody = true ∧ m.Framed cfg := by
  have hhandler : dispatcher m.preamble.id = some .get := by
    show dispatcher m.id = _
    rw [hid]
    rfl
  have hreads : m.preamble.readsBody = true := by simp only [MessagePreamble.readsBody, hhandler]
  have hne : m.body ≠ [] := by simp [hbody, Key.bytes]
  refine ⟨hreads, ?_⟩
  rw [ClientMessage.Framed, if_pos hreads]
  refine ⟨?_, fun hempty => hne hempty.2⟩
  simp only [BodyOversteps, hhandler]
  exact hne

/-- A SET of a well-formed value on which `bigint::read` ends. -/
theorem set_wellFormed (cfg : ServerConfig) {m : ClientMessage} (hid : m.id = requestSet)
    {key : Key} {v : Value} (hends : v.Ends) (hbody : m.body = key.bytes ++ v.dtype :: v.encode) :
    m.preamble.readsBody = true ∧ m.Framed cfg := by
  have hhandler : dispatcher m.preamble.id = some .set := by
    show dispatcher m.id = _
    rw [hid]
    rfl
  have hreads : m.preamble.readsBody = true := by simp only [MessagePreamble.readsBody, hhandler]
  have hlen : v.encode.length ≤ 4294967296 := by
    have hlt := m.size_lt
    rw [hbody, List.length_append, List.length_cons] at hlt
    omega
  refine ⟨hreads, ?_⟩
  rw [ClientMessage.Framed, if_pos hreads]
  refine ⟨?_, fun hempty => absurd hempty.2 (by simp [hbody])⟩
  simp only [BodyOversteps, hhandler, ← setHandler_fault_iff cfg.width Db.empty]
  obtain ⟨db', enc, haccepted, -⟩ := set_get_value cfg.width Db.empty key v hlen hends
  rw [hbody, haccepted]
  rintro ⟨e, he⟩
  cases he

theorem bodiesOf_wellFormed {cfg : ServerConfig} {ms : List ClientMessage}
    (hms : WellFormed cfg ms) :
    bodiesOf ms = ms.map fun m => (m.preamble, m.body) := by
  rw [bodiesOf, List.filter_eq_self.mpr fun m hm => (hms m hm).1]

theorem progress_start (cfg : ServerConfig) (db : Db) (memory : Nat → Nat) (stream : List UInt8) :
    Progress cfg.width db (startSession db memory stream) 0 :=
  ⟨.hello (Session.awaits_start db memory stream) rfl rfl, rfl⟩

/-- Reads that fill their buffers dispatch and handle what the client sent. -/
theorem outcome_of_fills {cfg : ServerConfig} {db : Db} {memory : Nat → Nat}
    {ms : List ClientMessage} (hms : WellFormed cfg ms) {es : List SessionEvent} {s : Session}
    (hread : ReadsOut cfg (startSession db memory (hello ++ clientStream ms)) es s)
    (hfills : Along (sessionStep cfg) FillsBuffer
      (startSession db memory (hello ++ clientStream ms)) es) :
    s.outcome = intendedOutcome cfg.width db ms := by
  have hframed : ∀ m ∈ ms, m.Framed cfg := fun m hm => (hms m hm).2
  have haligned := aligned_run hframed (.hello (aligned_start db memory ms)) hfills hread.run
  obtain ⟨n, hprogress, -, -⟩ := progress_run (progress_start cfg db memory _) hread.own hread.run
  have hend : AtMessage ms [] s := by
    cases haligned with
    | hello hat =>
      have hempty := (hat.awaits.stopped hread.stopped).2
      rw [hat.unread] at hempty
      exact absurd hempty (by simp [hello])
    | message done rest hsplit hat =>
      have hempty := (hat.awaits.stopped hread.stopped).2
      cases rest with
      | nil =>
        rw [List.append_nil] at hsplit
        exact hsplit ▸ hat
      | cons m rest =>
        have hlen := congrArg List.length (hat.unread.symm.trans hempty)
        rw [clientStream_cons, List.length_append, m.length_preambleBytes, List.length_nil] at hlen
        omega
    | body done rest m hsplit hat =>
      obtain ⟨hsize, hempty⟩ := hat.awaits.stopped hread.stopped
      rw [hat.unread] at hempty
      have hbody : m.body = [] := (List.append_eq_nil_iff.mp hempty).1
      exact absurd (List.length_eq_zero_iff.mpr hbody) (Nat.pos_iff_ne_zero.mp hsize)
  have hdb := hprogress.db_eq
  rw [hend.handled] at hdb
  simp only [Session.outcome, intendedOutcome, hend.dispatched, hend.handled, hdb]

/-- A run that dispatched and handled the messages of the client lost no byte on the
way. -/
theorem fills_of_outcome {cfg : ServerConfig} {db : Db} {memory : Nat → Nat}
    {ms : List ClientMessage} (hms : WellFormed cfg ms) (hne : ms ≠ []) {es : List SessionEvent}
    {s : Session} (hread : ReadsOut cfg (startSession db memory (hello ++ clientStream ms)) es s)
    (hdispatched : s.dispatched = ms.map ClientMessage.preamble)
    (hhandled : s.handled = bodiesOf ms) :
    Along (sessionStep cfg) FillsBuffer (startSession db memory (hello ++ clientStream ms)) es := by
  obtain ⟨n, hprogress, -, hfills⟩ :=
    progress_run (progress_start cfg db memory (hello ++ clientStream ms)) hread.own hread.run
  rw [bodiesOf_wellFormed hms] at hhandled
  have hsame : s.handled.length = s.dispatched.length := by
    rw [hdispatched, hhandled, List.length_map, List.length_map]
  have hsome : s.dispatched ≠ [] := by
    rw [hdispatched]
    simpa using hne
  apply hfills
  cases hprogress.stage with
  | hello hawaits hnone => exact absurd hnone hsome
  | closed hout hnone => exact absurd hnone hsome
  | body msg hawaits hlt => exact absurd hsame hlt.ne
  | failed hfault hmore =>
    rcases hmore with hlt | ⟨p, hp, hover⟩
    · exact absurd hsame hlt.ne
    · -- a body that was sent does not make its handler fail
      rw [hhandled] at hp
      obtain ⟨m, hm, rfl⟩ := List.mem_map.mp hp
      obtain ⟨hreads, hframed⟩ := hms m hm
      rw [ClientMessage.Framed, if_pos hreads] at hframed
      exact absurd hover hframed.1
  | preamble hawaits hle =>
    have hempty := (hawaits.stopped hread.stopped).2
    have hstream : (startSession db memory (hello ++ clientStream ms)).unread.length =
        6 + (7 * ms.length + (ms.map fun m => m.body.length).sum) := by
      rw [← length_clientStream]
      exact List.length_append
    rw [hstream, hempty, Session.asked, hdispatched, hhandled, List.length_map, List.map_map]
    show _ = 6 + 7 * ms.length + (ms.map fun m => m.body.length).sum + 0
    omega

/-! ## A short HELLO -/

/-- The last byte of a HELLO is not zero. -/
theorem helloValid_short {bytes : List UInt8} (h : bytes.length < 6) :
    helloValid (readBuffer 6 bytes) = false := by
  have hlast : (readBuffer 6 bytes).getD 5 0 = 0 := by
    have hle : bytes.length ≤ 5 := Nat.le_of_lt_succ h
    rw [readBuffer, List.drop_replicate, List.getD_eq_getElem?_getD, List.getElem?_append_right hle,
      List.getElem?_replicate]
    split <;> rfl
  unfold helloValid
  rw [hlast]
  rfl

/-- A short read of the HELLO closes the connection. -/
theorem AtHello.closes {cfg : ServerConfig} {ms : List ClientMessage} {s s' : Session} {count : Nat}
    (h : AtHello ms s) (hcount : count < 6) (hrun : s.readDone cfg count = some s') :
    s'.outcome = s.outcome ∧ s'.conn.reads.outstanding = [] := by
  obtain ⟨-, -, hdb, hdispatched, hhandled, -, -, hinvalid⟩ := Session.readDone_hello h.awaits hrun
  have hlen : (s.unread.take count).length < 6 := by
    rw [List.length_take]
    exact lt_of_le_of_lt (Nat.min_le_left _ _) hcount
  refine ⟨?_, hinvalid (helloValid_short hlen)⟩
  simp only [Session.outcome, hdb, hdispatched, hhandled]

/-- A session with a client that sends its HELLO only. -/
inductive Silent (db : Db) (s : Session) : Prop
  | hello : AtHello [] s → s.db = db → Silent db s
  | waiting : AtMessage [] [] s → s.db = db → Silent db s
  | closed : s.conn.reads.outstanding = [] → s.outcome = ⟨[], [], db⟩ → Silent db s

theorem Silent.outcome {db : Db} {s : Session} (h : Silent db s) : s.outcome = ⟨[], [], db⟩ := by
  cases h with
  | hello hat hdb => simp only [Session.outcome, hat.dispatched, hat.handled, hdb]
  | waiting hat hdb =>
    simp only [Session.outcome, hat.dispatched, hat.handled, hdb]
    rfl
  | closed hout houtcome => exact houtcome

theorem silent_step {cfg : ServerConfig} {db : Db} {s s' : Session} {e : SessionEvent}
    (h : Silent db s) (hown : e.own = true) (hstep : sessionStep cfg s e = some s') :
    Silent db s' := by
  obtain ⟨-, ⟨count, rfl, hrun⟩ | ⟨count, conn, rfl, hsame, rfl⟩ | ⟨r, db', conn, rfl, -⟩⟩ :=
    Session.sessionStep_cases hstep
  · cases h with
    | hello hat hdb =>
      obtain ⟨hpossible, -, hdb', -⟩ := Session.readDone_hello hat.awaits hrun
      rcases Nat.lt_or_eq_of_le hpossible.1 with hlt | rfl
      · obtain ⟨houtcome, hout⟩ := hat.closes hlt hrun
        exact .closed hout (houtcome.trans (Silent.hello hat hdb).outcome)
      · exact .waiting (hat.next hrun) (hdb'.trans hdb)
    | waiting hat hdb =>
      have hnone := hat.awaits.stops cfg (Nat.succ_pos 6) hat.unread count
      rw [hstep] at hnone
      cases hnone
    | closed hout houtcome =>
      simp only [Session.readDone, hout] at hrun
      cases hrun
  · cases h with
    | hello hat hdb =>
      exact .hello ⟨hat.awaits.of_same hsame s.db, hat.unread, hat.dispatched, hat.handled⟩ hdb
    | waiting hat hdb =>
      exact .waiting ⟨hat.awaits.of_same hsame s.db, hat.unread, hat.dispatched, hat.handled⟩ hdb
    | closed hout houtcome => exact .closed (hsame.reads ▸ hout) houtcome
  · cases hown

theorem silent_run {cfg : ServerConfig} {db : Db} {memory : Nat → Nat} {es : List SessionEvent}
    {s : Session} (hown : ∀ e ∈ es, e.own = true)
    (hrun : run (sessionStep cfg) (startSession db memory (hello ++ clientStream [])) es = some s) :
    Silent db s := by
  have hcond : Along (sessionStep cfg) (fun _ e => e.own = true)
      (startSession db memory (hello ++ clientStream [])) es := Along.of_forall hown _
  exact run_invariant (Silent db) silent_step (.hello (aligned_start db memory []) rfl) hcond hrun

/-- A run that reads out the stream of well-formed GETs and SETs agrees with one whose
reads fill their buffers just when its own reads do, or there is no message. -/
theorem fragmentation_agrees_iff {cfg : ServerConfig} {db : Db} {memory memory' : Nat → Nat}
    {ms : List ClientMessage} (hms : WellFormed cfg ms) {es es' : List SessionEvent}
    {s s' : Session}
    (hread : ReadsOut cfg (startSession db memory (hello ++ clientStream ms)) es s)
    (hfills : Along (sessionStep cfg) FillsBuffer
      (startSession db memory (hello ++ clientStream ms)) es)
    (hread' : ReadsOut cfg (startSession db memory' (hello ++ clientStream ms)) es' s') :
    s'.outcome = s.outcome ↔ ms = [] ∨ Along (sessionStep cfg) FillsBuffer
      (startSession db memory' (hello ++ clientStream ms)) es' := by
  rw [outcome_of_fills hms hread hfills]
  constructor
  · intro houtcome
    by_cases hne : ms = []
    · exact Or.inl hne
    · have hdispatched := congrArg Outcome.dispatched houtcome
      have hhandled := congrArg Outcome.handled houtcome
      exact Or.inr (fills_of_outcome hms hne hread' hdispatched hhandled)
  · rintro (rfl | hfills')
    · exact (silent_run hread'.own hread'.run).outcome
    · exact outcome_of_fills hms hread' hfills'

/-- GET of `ab`. -/
def getAb : ClientMessage := ⟨requestGet, 0, keyAb.bytes, by decide, by decide⟩

theorem getAb_wellFormed : WellFormed serverConfig [getAb] := by
  intro m hm
  obtain rfl := List.mem_singleton.mp hm
  exact get_wellFormed serverConfig rfl rfl

def startGetAb : Session := startSession Db.empty (fun _ => 0) (hello ++ clientStream [getAb])

theorem getAb_readsOut : ∃ s, ReadsOut serverConfig startGetAb [.read 6, .read 7, .read 3] s ∧
    s.dispatched = [getAb.preamble] := by
  refine ⟨_, ⟨by decide, rfl, ?_⟩, rfl⟩
  exact @Awaits.stops _ preambleRead [] ⟨rfl, rfl, rfl, ⟨_, rfl⟩, rfl, rfl⟩ serverConfig
    (by decide) rfl

/-- The answer to the GET is written or not. -/
theorem fragmentation_agrees_getAb : ∃ s s',
    ReadsOut serverConfig startGetAb [.read 6, .read 7, .read 3] s ∧
    ReadsOut serverConfig startGetAb [.read 6, .read 7, .read 3, .written 6] s' ∧
    s'.outcome = s.outcome := by
  obtain ⟨s, hread, -⟩ := getAb_readsOut
  have hread' :
      ∃ s', ReadsOut serverConfig startGetAb [.read 6, .read 7, .read 3, .written 6] s' := by
    refine ⟨_, by decide, rfl, ?_⟩
    exact @Awaits.stops _ preambleRead [] ⟨rfl, rfl, rfl, ⟨_, rfl⟩, rfl, rfl⟩ serverConfig
      (by decide) rfl
  obtain ⟨s', hread'⟩ := hread'
  refine ⟨s, s', hread, hread', ?_⟩
  exact (fragmentation_agrees_iff getAb_wellFormed hread (by decide) hread').mpr
    (Or.inr (by decide))

/-- The server gets one byte of the HELLO, and closes the connection. -/
theorem short_hello_disagrees : ∃ s s',
    ReadsOut serverConfig startGetAb [.read 6, .read 7, .read 3] s ∧
    ReadsOut serverConfig startGetAb [.read 1] s' ∧ s'.outcome ≠ s.outcome := by
  obtain ⟨s, hread, hdispatched⟩ := getAb_readsOut
  refine ⟨s, _, hread, ⟨by decide, rfl, fun _ => rfl⟩, ?_⟩
  intro houtcome
  have hsame := congrArg Outcome.dispatched houtcome
  exact absurd (hsame.trans hdispatched) (by decide)

/-! ## Every cut of a stream -/

/-- However the network cuts the stream of a client, the server does the same. -/
def FragmentationIndependent (cfg : ServerConfig) (db : Db) (ms : List ClientMessage) : Prop :=
  ∀ memory memory' es es' s s',
    ReadsOut cfg (startSession db memory (hello ++ clientStream ms)) es s →
    ReadsOut cfg (startSession db memory' (hello ++ clientStream ms)) es' s' →
    s'.outcome = s.outcome

/-- There is a run whose reads fill their buffers. -/
theorem exists_readsOut {cfg : ServerConfig} {ms : List ClientMessage} (hms : WellFormed cfg ms)
    (db : Db) (memory : Nat → Nat) : ∃ es s,
      ReadsOut cfg (startSession db memory (hello ++ clientStream ms)) es s ∧
      Along (sessionStep cfg) FillsBuffer
        (startSession db memory (hello ++ clientStream ms)) es := by
  obtain ⟨s₁, hfirst, hat⟩ := (aligned_start db memory ms).reaches cfg
  obtain ⟨s, hrest, hend⟩ := hat.reaches_end fun m hm => (hms m hm).2
  obtain ⟨es, hfull, hrun⟩ := hfirst.trans hrest
  refine ⟨es, s, ⟨?_, hrun, ?_⟩, hfull.mono fun _ _ hread => hread.fillsBuffer⟩
  · intro e he
    obtain ⟨s', o, -, rfl⟩ := hfull.exists_of_mem hrun he
    rfl
  · exact hend.awaits.stops cfg (Nat.succ_pos 6) hend.unread

/-- There is a run in which the HELLO is cut. -/
theorem exists_readsOut_short (cfg : ServerConfig) (db : Db) (memory : Nat → Nat)
    (ms : List ClientMessage) : ∃ es s,
      ReadsOut cfg (startSession db memory (hello ++ clientStream ms)) es s ∧
      s.outcome = ⟨[], [], db⟩ := by
  have hat := aligned_start db memory ms
  have hpossible : (startSession db memory (hello ++ clientStream ms)).Possible 6 1 :=
    ⟨by decide, by rw [hat.unread]; simp [hello], Or.inr Nat.one_pos⟩
  obtain ⟨s, hrun⟩ := Session.readDone_exists hat.awaits cfg hpossible
  obtain ⟨houtcome, hout⟩ := hat.closes (by decide) hrun
  have hstep : sessionStep cfg (startSession db memory (hello ++ clientStream ms)) (.read 1) =
      some s :=
    (Session.sessionStep_read hat.awaits.fault 1).trans hrun
  refine ⟨[.read 1], s, ⟨by simp [SessionEvent.own], ?_, ?_⟩, houtcome⟩
  · exact run_cons_eq_some.mpr ⟨s, hstep, rfl⟩
  · intro count
    simp only [sessionStep, Session.readDone, hout]
    split <;> rfl

/-- The cuts make no difference only when there is nothing to cut but the HELLO. -/
theorem fragmentationIndependent_iff {cfg : ServerConfig} {ms : List ClientMessage}
    (hms : WellFormed cfg ms) (db : Db) : FragmentationIndependent cfg db ms ↔ ms = [] := by
  constructor
  · intro h
    obtain ⟨es, s, hread, hfills⟩ := exists_readsOut hms db fun _ => 0
    obtain ⟨es', s', hread', houtcome'⟩ := exists_readsOut_short cfg db (fun _ => 0) ms
    have hsame := h _ _ es es' s s' hread hread'
    rw [houtcome', outcome_of_fills hms hread hfills] at hsame
    exact List.map_eq_nil_iff.mp (congrArg Outcome.dispatched hsame).symm
  · rintro rfl memory memory' es es' s s' hread hread'
    exact (silent_run hread'.own hread'.run).outcome.trans
      (silent_run hread.own hread.run).outcome.symm

end StateDb
