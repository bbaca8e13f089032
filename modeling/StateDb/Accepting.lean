/-
  StateDb/Accepting.lean
  ======================
  **Accepting connections** (`asio_server.h`, `asio_server.cpp`: `start_listening`, `start_accept`,
  `handle_accept`; `tcp_connection::init`, `start`).

  The acceptor is given one accept at a time, and `handle_accept` gives it the next one at its
  end.  It begins with `init`, which asks the socket for its peer, and only then looks whether the
  accept failed.  The socket of an accept that failed has no peer, and asking for it throws: so
  an accept that fails ends the server (`handleAccept_failed`).  The socket of one that succeeded
  has lost its peer when the client has reset the connection in the meantime.  It is asked six
  times, by `init`, by the message of the log and by `start`: an accept is handled as
  `Server.handleAccept` says when the peer is there each time (`handleAccept_succeeded`), and else
  ends the server as well (`handleAccept_reset`).
-/
import StateDb.Lib.Program
import StateDb.Registry

namespace StateDb

open Lib Lib.SortedAssoc

/-! ## The server -/

/-- The slots that are connected to the signals of a connection. -/
structure Signals where
  onClosed : Nat := 0
  onNewMessage : Nat := 0
deriving DecidableEq, Repr

/-- The server with its acceptor. -/
structure AsioServer where
  server : Server
  isListening : Bool := false
  /-- The accepts that the acceptor was given and that are not completed. -/
  accepting : Nat := 0
  /-- The signals of each connection, by its number. -/
  signals : Nat → Signals := fun _ => {}
  /-- An exception has left `io_service_.run()`. -/
  stopped : Bool := false

/-- A `tcp_connection`, until it is registered. -/
structure Incoming where
  /-- The address and port of the peer at each call of `remote_endpoint()`, by its number, if the
  socket is connected then. -/
  peer : Nat → Option Nat
  /-- The `address_string`, 0 while it is empty. -/
  addressString : Nat := 0
  /-- What the memory of the connection held, and what its client is going to send. -/
  memory : Nat → Nat
  stream : List UInt8

/-- `remote_endpoint()` of a socket that is not connected throws. -/
inductive AcceptException where
  | notConnected
deriving DecidableEq, Repr

abbrev AcceptProgram (α : Type) := Program AsioServer Empty AcceptException α

namespace Incoming

/-- The call of this number. -/
def remoteEndpoint (c : Incoming) (call : Nat) : AcceptProgram Nat :=
  match c.peer call with
  | some endpoint => return endpoint
  | none => .throw .notConnected

/-- The address is taken from the first call and the port from the second. -/
def init (c : Incoming) : AcceptProgram Incoming := do
  let endpoint ← c.remoteEndpoint 0
  let _ ← c.remoteEndpoint 1
  return { c with addressString := endpoint }

/-- `socket().close()`. -/
def closeSocket (c : Incoming) : Incoming := { c with peer := fun _ => none }

end Incoming

namespace AsioServer

def startAccept : AcceptProgram Unit := do
  let s ← .get
  if s.isListening then .modify fun s => { s with accepting := s.accepting + 1 }

def startListening : AcceptProgram Unit := do
  let s ← .get
  if s.isListening then return
  .modify fun s => { s with isListening := true }
  startAccept

/-- `connections[connection->get_id()] = connection`, and the number of the connection. -/
def register (c : Incoming) : AcceptProgram Nat := do
  let s ← .get
  let number := s.server.accepted.length
  let session : Session :=
    { db := s.server.db, conn := TcpConnection.fresh c.memory, unread := c.stream }
  .modify fun s => { s with
    server := { s.server with
      accepted := s.server.accepted ++ [⟨c.addressString, session⟩]
      connections := upsert c.addressString number s.server.connections }
    signals := Function.update s.signals number {} }
  return number

/-- `on_close`. -/
def onClose (number : Nat) : AcceptProgram Unit :=
  .modify fun s =>
    let g := s.signals number
    { s with signals := Function.update s.signals number { g with onClosed := g.onClosed + 1 } }

/-- `on_new_message`. -/
def onNewMessage (number : Nat) : AcceptProgram Unit :=
  .modify fun s =>
    let g := s.signals number
    { s with
      signals := Function.update s.signals number { g with onNewMessage := g.onNewMessage + 1 } }

/-- `tcp_connection::start`. -/
def start (c : Incoming) (number : Nat) : AcceptProgram Unit := do
  let _ ← c.remoteEndpoint 4
  let _ ← c.remoteEndpoint 5
  .modify fun s => { s with
    server := s.server.onConnection number TcpConnection.start }

def handleAccept (connection : Incoming) (failed : Bool) : AcceptProgram Unit := do
  let connection ← connection.init
  let s ← .get
  let connection :=
    if s.isListening = false ∧ failed = false then connection.closeSocket else connection
  if failed = false then
    -- the peer is logged
    let _ ← connection.remoteEndpoint 2
    let _ ← connection.remoteEndpoint 3
    let number ← register connection
    onClose number
    onNewMessage number
    start connection number
  startAccept

/-- A server that has begun to listen. -/
def listening (db : Db) : AsioServer :=
  { server := { db := db }, isListening := true, accepting := 1 }

theorem startListening_run (db : Db) :
    startListening.run { server := { db := db } } = .value () (listening db) := rfl

end AsioServer

/-- How an accept ends.  The peer of one that succeeded is connected or not at each call of
`remote_endpoint()`. -/
inductive AcceptOutcome where
  | succeeded (peer : Nat) (connected : Nat → Bool) (memory : Nat → Nat) (stream : List UInt8)
  | failed (memory : Nat → Nat) (stream : List UInt8)

namespace AcceptOutcome

/-- The connection whose socket the acceptor was given. -/
def connection : AcceptOutcome → Incoming
  | succeeded peer connected memory stream =>
      { peer := fun call => if connected call then some peer else none, memory, stream }
  | failed memory stream => { peer := fun _ => none, memory, stream }

def isFailure : AcceptOutcome → Bool
  | succeeded .. => false
  | failed .. => true

/-- The accept has succeeded, and the peer stays connected while it is handled. -/
def Stays : AcceptOutcome → Prop
  | succeeded _ connected _ _ => ∀ call < 6, connected call = true
  | failed .. => False

end AcceptOutcome

inductive AsioEvent where
  /-- The accept that the acceptor has completes. -/
  | accept (o : AcceptOutcome)
  /-- Something else happens to the server. -/
  | server (e : ServerEvent)

namespace AsioServer

/-- What `io_service_.run()` does with an exception of a handler. -/
def afterHandler : Ending AsioServer Empty AcceptException Unit → AsioServer
  | .value _ s => s
  | .threw _ s => { s with stopped := true }

def step (cfg : ServerConfig) (s : AsioServer) : AsioEvent → Option AsioServer
  | .accept o =>
      if s.stopped = true ∨ s.accepting = 0 then none
      else
        some (afterHandler
          ((handleAccept o.connection o.isFailure).run { s with accepting := s.accepting - 1 }))
  | .server (.accept ..) => none
  | .server e =>
      if s.stopped = true then none
      else (s.server.step cfg e).map fun server => { s with server := server }

/-! ## What an accept does -/

theorem handleAccept_failed (s : AsioServer) (memory : Nat → Nat) (stream : List UInt8) :
    (handleAccept (AcceptOutcome.failed memory stream).connection true).run s =
      .threw .notConnected s := rfl

theorem modify_concat {α : Type} (l : List α) (x : α) (f : α → α) :
    (l ++ [x]).modify l.length f = l ++ [f x] := by
  rw [List.modify_eq_take_cons_drop (by simp)]
  simp

section Succeeded

variable (s : AsioServer) (peer : Nat) {connected : Nat → Bool} (memory : Nat → Nat)
  (stream : List UInt8)

/-- The connection is registered under the address of its peer, and its HELLO is read. -/
theorem handleAccept_succeeded (hlisten : s.isListening = true)
    (hstays : ∀ call < 6, connected call = true) :
    (handleAccept (AcceptOutcome.succeeded peer connected memory stream).connection false).run s =
      .value () { s with
        server := s.server.handleAccept peer memory stream
        accepting := s.accepting + 1
        signals := Function.update s.signals s.server.accepted.length ⟨1, 1⟩ } := by
  have hcall (call : Nat) (h : call < 6) : connected call = true := hstays call h
  simp only [handleAccept, Incoming.init, Incoming.remoteEndpoint, AcceptOutcome.connection,
    hcall 0 (by decide), hcall 1 (by decide), hcall 2 (by decide), hcall 3 (by decide),
    hcall 4 (by decide), hcall 5 (by decide), register, onClose, onNewMessage, start, startAccept,
    Server.onConnection, Server.handleAccept, startSession, Program.run_bind, Program.run_pure,
    Program.run_get, Program.run_modify, Ending.value_andThen, hlisten, Bool.true_eq_false,
    false_and, if_false, if_true, modify_concat, Function.update_idem, Function.update_self,
    Accepted.onConn]

/-- A server that does not listen closes the socket, and then asks it for its peer. -/
theorem handleAccept_notListening (hnot : s.isListening = false) :
    (handleAccept (AcceptOutcome.succeeded peer connected memory stream).connection false).run s =
      .threw .notConnected s := by
  cases h0 : connected 0 <;> cases h1 : connected 1 <;>
    simp [handleAccept, Incoming.init, Incoming.remoteEndpoint, AcceptOutcome.connection, hnot,
      Incoming.closeSocket, h0, h1]

/-- One of the six calls finds no peer, and throws; when it is one of `start`, the connection is
registered then. -/
theorem handleAccept_reset (hreset : ¬ ∀ call < 6, connected call = true) :
    ∃ s', (handleAccept (AcceptOutcome.succeeded peer connected memory stream).connection
      false).run s = .threw .notConnected s' := by
  by_cases hlisten : s.isListening = false
  · exact ⟨s, handleAccept_notListening s peer memory stream hlisten⟩
  -- the first of the calls that finds no peer
  have hsome : ∃ call, call < 6 ∧ connected call = false := by
    simpa using hreset
  obtain ⟨hcall, hlost⟩ := Nat.find_spec hsome
  have hbefore (call : Nat) (h : call < Nat.find hsome) : connected call = true := by
    have hmin := Nat.find_min hsome h
    simp only [not_and, Bool.not_eq_false] at hmin
    exact hmin (h.trans hcall)
  generalize Nat.find hsome = first at hcall hlost hbefore
  interval_cases first <;>
    simp [handleAccept, Incoming.init, Incoming.remoteEndpoint, AcceptOutcome.connection, register,
      onClose, onNewMessage, start, hlisten, hlost, hbefore]

end Succeeded

end AsioServer

/-! ## Every accept -/

/-- One connection is registered, under the address of its peer; its signals have their slots,
and its HELLO is being read. -/
structure Registers (s : AsioServer) (peer : Nat) (s' : AsioServer) : Prop where
  own : s'.server.connections.lookup peer = some s.server.accepted.length
  others : ∀ id, id ≠ peer → s'.server.connections.lookup id = s.server.connections.lookup id
  count : s'.server.connections.length = s.server.connections.length + 1
  accepted : ∃ session : Session, s'.server.accepted = s.server.accepted ++ [⟨peer, session⟩] ∧
    session.conn.reads.outstanding = [(0, helloRead)]
  signals : s'.signals s.server.accepted.length = ⟨1, 1⟩

/-- What is to come of an accept. -/
structure Handles (s : AsioServer) (o : AcceptOutcome) (s' : AsioServer) : Prop where
  returns : s'.stopped = false
  one : s'.accepting = 1
  success : ∀ peer connected memory stream, o = .succeeded peer connected memory stream →
    Registers s peer s'
  failure : o.isFailure = true → s'.server = s.server

namespace AsioEvent

/-- The peer that is accepted. -/
def peer? : AsioEvent → Option Nat
  | .accept (.succeeded peer _ _ _) => some peer
  | _ => none

/-- The accept that completes, if one does, is handled. -/
def Survives (cfg : ServerConfig) (s : AsioServer) (e : AsioEvent) : Prop :=
  ∀ o, e = .accept o → ∃ s', s.step cfg e = some s' ∧ Handles s o s'

/-- The accept that completes, if one does, has succeeded, and its peer stays. -/
def Succeeds (e : AsioEvent) : Prop := ∀ o, e = .accept o → o.Stays

end AsioEvent

/-- The server listens and has given the acceptor one accept; the registered peers are among those
that were accepted. -/
structure AcceptsOne (peers : List Nat) (s : AsioServer) : Prop where
  listens : s.isListening = true
  running : s.stopped = false
  one : s.accepting = 1
  known : ∀ p ∈ s.server.connections, p.1 ∈ peers

namespace AcceptsOne

variable {cfg : ServerConfig} {peers : List Nat} {s s' : AsioServer}

theorem start (db : Db) : AcceptsOne [] (AsioServer.listening db) := by
  refine ⟨rfl, rfl, rfl, ?_⟩
  intro p hp
  cases hp

/-- A peer that was not accepted yet. -/
theorem accept (h : AcceptsOne peers s) {peer : Nat} (hnew : peer ∉ peers) (cfg : ServerConfig)
    {connected : Nat → Bool} (hstays : ∀ call < 6, connected call = true) (memory : Nat → Nat)
    (stream : List UInt8) :
    ∃ s', s.step cfg (.accept (.succeeded peer connected memory stream)) = some s' ∧
      Handles s (.succeeded peer connected memory stream) s' ∧ AcceptsOne (peers ++ [peer]) s' := by
  have hrun := AsioServer.handleAccept_succeeded { s with accepting := s.accepting - 1 } peer memory
    stream h.listens hstays
  have hstep : s.step cfg (.accept (.succeeded peer connected memory stream)) = some { s with
      server := s.server.handleAccept peer memory stream
      accepting := s.accepting - 1 + 1
      signals := Function.update s.signals s.server.accepted.length ⟨1, 1⟩ } := by
    have hready : ¬ (s.stopped = true ∨ s.accepting = 0) := by simp [h.running, h.one]
    simp only [AsioServer.step, if_neg hready, AcceptOutcome.isFailure, hrun,
      AsioServer.afterHandler]
  have habsent : s.server.connections.lookup peer = none := by
    refine lookup_eq_none ?_
    intro p hp heq
    exact hnew (heq ▸ h.known p hp)
  have hone : s.accepting - 1 + 1 = 1 := by rw [h.one]
  refine ⟨_, hstep, ⟨h.running, hone, ?_, ?_⟩, ⟨h.listens, h.running, hone, ?_⟩⟩
  · rintro peer' connected' memory' stream' heq
    obtain ⟨rfl, rfl, rfl, rfl⟩ := AcceptOutcome.succeeded.inj heq
    refine ⟨?_, ?_, length_upsert_of_absent _ habsent, ⟨_, rfl, rfl⟩, Function.update_self _ _ _⟩
    · exact (lookup_upsert _ _ _ _).trans (if_pos rfl)
    · intro id hid
      exact (lookup_upsert _ _ _ _).trans (if_neg hid)
  · intro hfailure
    cases hfailure
  · intro p hp
    rcases key_of_mem_upsert hp with hkey | hold
    · rw [hkey]
      exact List.mem_append_right _ (List.mem_singleton_self _)
    · exact List.mem_append_left _ (h.known p hold)

/-- Nothing else registers a connection. -/
theorem mem_connections_step {sv sv' : Server} {e : ServerEvent} (hstep : sv.step cfg e = some sv')
    (hnot : ∀ id memory stream, e ≠ .accept id memory stream) {p : Nat × Nat}
    (hp : p ∈ sv'.connections) : p ∈ sv.connections := by
  cases Server.step_cases hstep with
  | accept id memory stream => exact absurd rfl (hnot id memory stream)
  | connection i a e s' hexternal ha hs' => exact hp
  | remove _ _ _ hremove =>
    unfold Server.handleConnectionRemove at hremove
    split at hremove
    · cases hremove
    · obtain ⟨a, -, hremove⟩ := Option.bind_eq_some_iff.mp hremove
      obtain rfl := Option.some.inj hremove
      exact mem_of_mem_remove hp

/-- What else happens, happens to the server. -/
theorem step_server {e : ServerEvent} (hstep : s.step cfg (.server e) = some s') :
    (∀ id memory stream, e ≠ .accept id memory stream) ∧
      ∃ sv, s.server.step cfg e = some sv ∧ s' = { s with server := sv } := by
  unfold AsioServer.step at hstep
  split at hstep
  · rename_i heq
    cases heq
  · cases hstep
  · rename_i hnot heq
    obtain rfl := AsioEvent.server.inj heq
    refine ⟨?_, ?_⟩
    · rintro id memory stream rfl
      exact hnot id memory stream rfl
    · split at hstep
      · cases hstep
      · obtain ⟨sv, hsv, rfl⟩ := Option.map_eq_some_iff.mp hstep
        exact ⟨sv, hsv, rfl⟩

theorem server (h : AcceptsOne peers s) {e : ServerEvent}
    (hstep : s.step cfg (.server e) = some s') : AcceptsOne peers s' := by
  obtain ⟨hnot, sv, hsv, rfl⟩ := step_server hstep
  refine ⟨h.listens, h.running, h.one, ?_⟩
  intro p hp
  exact h.known p (mem_connections_step hsv hnot hp)

theorem survives (h : AcceptsOne peers s) {es : List AsioEvent}
    (hdistinct : (peers ++ es.filterMap AsioEvent.peer?).Nodup)
    (hsucceeds : Along (AsioServer.step cfg) (fun _ e => e.Succeeds) s es) :
    Along (AsioServer.step cfg) (AsioEvent.Survives cfg) s es := by
  induction es generalizing peers s with
  | nil => trivial
  | cons e es ih =>
    obtain ⟨hfirst, hrest⟩ := hsucceeds
    cases e with
    | accept o =>
      cases o with
      | failed memory stream => exact (hfirst _ rfl).elim
      | succeeded peer connected memory stream =>
        have hpeers : (peers ++ peer :: es.filterMap AsioEvent.peer?).Nodup := hdistinct
        have hnew : peer ∉ peers := fun hmem =>
          (List.disjoint_of_nodup_append hpeers) hmem List.mem_cons_self
        obtain ⟨s', hstep, hhandles, hone⟩ := h.accept hnew cfg (hfirst _ rfl) memory stream
        refine ⟨?_, ?_⟩
        · intro o ho
          obtain rfl := AsioEvent.accept.inj ho
          exact ⟨s', hstep, hhandles⟩
        · intro s'' hstep''
          obtain rfl := Option.some.inj (hstep.symm.trans hstep'')
          refine ih hone ?_ (hrest s' hstep)
          rwa [List.append_assoc, List.singleton_append]
    | server e =>
      refine ⟨?_, ?_⟩
      · intro o ho
        cases ho
      · intro s' hstep
        exact ih (h.server hstep) hdistinct (hrest s' hstep)

end AcceptsOne

/-- What an exception leaves has not survived. -/
theorem not_handles_of_threw {s s' s₁ : AsioServer} {o : AcceptOutcome} {e : AcceptException}
    (hs : AsioServer.afterHandler (.threw e s₁) = s') : ¬ Handles s o s' := by
  intro hhandles
  rw [← hs] at hhandles
  exact absurd hhandles.returns (by simp [AsioServer.afterHandler])

/-- An accept that fails, or whose peer is gone, stops the server. -/
theorem AsioEvent.Survives.succeeds {cfg : ServerConfig} {s : AsioServer} {e : AsioEvent}
    (h : e.Survives cfg s) : e.Succeeds := by
  rintro o rfl
  obtain ⟨s', hstep, hhandles⟩ := h o rfl
  unfold AsioServer.step at hstep
  dsimp only at hstep
  split at hstep
  · cases hstep
  · have hs := Option.some.inj hstep
    cases o with
    | failed memory stream =>
      rw [AcceptOutcome.isFailure, AsioServer.handleAccept_failed] at hs
      exact absurd hhandles (not_handles_of_threw hs)
    | succeeded peer connected memory stream =>
      by_contra hreset
      obtain ⟨s₁, hrun⟩ := AsioServer.handleAccept_reset { s with accepting := s.accepting - 1 }
        peer memory stream hreset
      rw [AcceptOutcome.isFailure, hrun] at hs
      exact absurd hhandles (not_handles_of_threw hs)

/-- While peers with distinct addresses are accepted, and whatever else happens, each accept is
handled just when each of them succeeds and its peer stays. -/
theorem accepting_survives_iff (cfg : ServerConfig) (db : Db) {es : List AsioEvent}
    (hdistinct : (es.filterMap AsioEvent.peer?).Nodup) :
    Along (AsioServer.step cfg) (AsioEvent.Survives cfg) (AsioServer.listening db) es ↔
      Along (AsioServer.step cfg) (fun _ e => e.Succeeds) (AsioServer.listening db) es := by
  constructor
  · intro h
    exact h.mono fun _ _ hsurvives => hsurvives.succeeds
  · intro h
    exact (AcceptsOne.start db).survives hdistinct h

/-- Two clients are accepted. -/
theorem accepting_survives_iff_two : Along (AsioServer.step ⟨64, false, fun _ => 0⟩)
    (AsioEvent.Survives ⟨64, false, fun _ => 0⟩) (AsioServer.listening Db.empty)
    [.accept (.succeeded 10 (fun _ => true) (fun _ => 0) []),
      .accept (.succeeded 11 (fun _ => true) (fun _ => 0) [])] := by
  refine (accepting_survives_iff _ _ (by decide)).mpr ?_
  refine .of_forall (p := AsioEvent.Succeeds) ?_ _
  intro e he o heq
  subst heq
  rcases List.mem_cons.mp he with heq | he
  · obtain rfl := AsioEvent.accept.inj heq
    exact fun _ _ => rfl
  · obtain rfl := AsioEvent.accept.inj (List.mem_singleton.mp he)
    exact fun _ _ => rfl

/-- The first accept fails: the exception leaves the server, and no accept is outstanding. -/
theorem failed_accept_not_survives :
    (∃ s, (AsioServer.listening Db.empty).step ⟨64, false, fun _ => 0⟩
        (.accept (.failed (fun _ => 0) [])) = some s ∧ s.stopped = true ∧ s.accepting = 0) ∧
    ¬ Along (AsioServer.step ⟨64, false, fun _ => 0⟩) (AsioEvent.Survives ⟨64, false, fun _ => 0⟩)
      (AsioServer.listening Db.empty) [.accept (.failed (fun _ => 0) [])] := by
  refine ⟨⟨_, rfl, rfl, rfl⟩, ?_⟩
  rintro ⟨hfirst, -⟩
  exact hfirst.succeeds _ rfl

end StateDb
