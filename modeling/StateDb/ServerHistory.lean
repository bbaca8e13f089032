/-
  StateDb/ServerHistory.lean
  ==========================
  **The server as one database** (`asio_server.cpp`: `handle_message`, `process_message`, the
  handlers; `asio_server.h`: `connections`).

  The connections of a server read, write, wait and fail in any order, and a message may come
  in pieces.  Each request is executed in one step all the same: when a preamble is
  dispatched, or when a body is read.  So every run of the server has a history, the requests
  of all connections in the order in which they were executed.

  The database is what this history makes of an empty one, request by request, and under
  each hash lies the object of the last SET that was accepted; and the requests of one
  connection stand in the history as the connection sent them (`server_sequential`).
-/
import StateDb.DatabaseTree
import StateDb.GetAll
import StateDb.Registry

namespace StateDb

open Lib Lib.SortedAssoc

/-! ## What a step executes -/

/-- The request of a body. -/
def asRequest (h : MessagePreamble × List UInt8) : Option DbRequest :=
  match dispatcher h.1.id with
  | some .get => some (.get h.2)
  | some .set => some (.set h.2)
  | _ => none

def DbRequest.hasBody : DbRequest → Bool
  | .get _ | .set _ => true
  | .getAll => false

/-- The request that was executed between two states of a session, if there was one and its
handler came to an end. -/
def executed (s s' : Session) : Option DbRequest :=
  if s'.fault.isSome then none
  else
    match s'.handled.drop s.handled.length with
    | h :: _ => asRequest h
    | [] =>
        match s'.dispatched.drop s.dispatched.length with
        | msg :: _ => if dispatcher msg.id = some .getAll then some .getAll else none
        | [] => none

/-- The step does to the database what the handler of the request does. -/
structure Executes (w : Nat) (s s' : Session) : Prop where
  quiet : executed s s' = none → s'.db = s.db
  request : ∀ r, executed s s' = some r → ∃ eff, r.handle w s.db = .ok eff ∧ s'.db = eff.db
  order : s'.fault = none → s'.handled.filterMap asRequest =
    s.handled.filterMap asRequest ++ (executed s s').toList.filter DbRequest.hasBody

theorem executed_congr {s s₁ s' : Session} (h : Session.SameData s₁ s') :
    executed s s' = executed s s₁ := by
  rw [executed, executed, h.fault, h.handled, h.dispatched]

theorem Executes.of_sameData {w : Nat} {s s₁ s' : Session} (h : Executes w s s₁)
    (hsame : Session.SameData s₁ s') : Executes w s s' := by
  have hexec := executed_congr (s := s) hsame
  constructor
  · intro hnone
    rw [hsame.db]
    exact h.quiet (hexec ▸ hnone)
  · intro r hr
    rw [hsame.db]
    exact h.request r (hexec ▸ hr)
  · intro hfault
    rw [hsame.handled, hexec]
    exact h.order (hsame.fault ▸ hfault)

theorem executed_same {s s' : Session} (hhandled : s'.handled = s.handled)
    (hdispatched : s'.dispatched = s.dispatched) : executed s s' = none := by
  rw [executed, hhandled, hdispatched, List.drop_length, List.drop_length]
  split <;> rfl

/-- Nothing is executed. -/
theorem Executes.idle {w : Nat} {s s' : Session} (hdb : s'.db = s.db)
    (hhandled : s'.handled = s.handled) (hdispatched : s'.dispatched = s.dispatched) :
    Executes w s s' := by
  have hnone := executed_same hhandled hdispatched
  constructor
  · exact fun _ => hdb
  · intro r hr
    rw [hnone] at hr
    cases hr
  · intro _
    rw [hnone, hhandled]
    simp

/-- A handler that leaves its memory is not counted. -/
theorem Executes.faulted {w : Nat} {s s' : Session} (hdb : s'.db = s.db)
    (hfault : s'.fault.isSome = true) :
    Executes w s s' := by
  have hnone : executed s s' = none := by rw [executed, if_pos hfault]
  constructor
  · exact fun _ => hdb
  · intro r hr
    rw [hnone] at hr
    cases hr
  · intro h
    rw [h] at hfault
    cases hfault

namespace Session

variable {cfg : ServerConfig} {s : Session}

/-- A preamble is dispatched; GET_ALL is executed at once. -/
theorem executes_dispatch (hfault : s.fault = none) (cfg : ServerConfig) (msg : MessagePreamble) :
    Executes cfg.width s (s.dispatch cfg msg) := by
  have hhandled := dispatch_handled cfg s msg
  by_cases hall : dispatcher msg.id = some .getAll
  · have hdispatch : s.dispatch cfg msg =
        { s with dispatched := s.dispatched ++ [msg] }.apply (getAllRequest cfg.width s.db) := by
      simp only [dispatch, hall]
    cases hrequest : getAllRequest cfg.width s.db with
    | error e =>
      rw [hdispatch, hrequest]
      exact .faulted rfl rfl
    | ok eff =>
      rw [hdispatch, hrequest]
      have hexec : executed s ({ s with dispatched := s.dispatched ++ [msg] }.apply (.ok eff)) =
          some .getAll := by
        simp [executed, apply, hfault, hall]
      constructor
      · intro hnone
        rw [hexec] at hnone
        cases hnone
      · intro r hr
        rw [hexec] at hr
        obtain rfl := Option.some.inj hr
        exact ⟨eff, hrequest, rfl⟩
      · intro _
        rw [hexec]
        simp [apply, DbRequest.hasBody]
  · have hdb : (s.dispatch cfg msg).db = s.db := by
      unfold dispatch
      cases hhandler : dispatcher msg.id with
      | none => rfl
      | some handler => cases handler <;> first | rfl | exact absurd hhandler hall
    have hdispatched : (s.dispatch cfg msg).dispatched = s.dispatched ++ [msg] := by
      unfold dispatch
      cases hhandler : dispatcher msg.id with
      | none => rfl
      | some handler => cases handler <;> first | rfl | exact absurd hhandler hall
    have hexec : executed s (s.dispatch cfg msg) = none := by
      rw [executed, hhandled, hdispatched, List.drop_length, List.drop_left]
      simp [hall]
    constructor
    · exact fun _ => hdb
    · intro r hr
      rw [hexec] at hr
      cases hr
    · intro _
      rw [hexec, hhandled]
      simp

/-- A body goes to the handler of its command, or to none. -/
theorem bodyRequest_cases {w : Nat} {db : Db} {msgp : MessagePreamble} {body : List UInt8}
    {eff : Effect} (h : bodyRequest w db msgp body = .ok eff) :
    (asRequest (msgp, body) = none ∧ eff = { db := db }) ∨
      ∃ r, asRequest (msgp, body) = some r ∧ r.hasBody = true ∧ r.handle w db = .ok eff := by
  rw [bodyRequest] at h
  rw [asRequest]
  cases hhandler : dispatcher msgp.id with
  | none =>
    rw [hhandler] at h
    exact Or.inl ⟨rfl, (Except.ok.inj h).symm⟩
  | some handler =>
    rw [hhandler] at h
    cases handler with
    | ping => exact Or.inl ⟨rfl, (Except.ok.inj h).symm⟩
    | getAll => exact Or.inl ⟨rfl, (Except.ok.inj h).symm⟩
    | get => exact Or.inr ⟨_, rfl, rfl, h⟩
    | set => exact Or.inr ⟨_, rfl, rfl, h⟩

/-- A handler that came to an end has executed the request of the body. -/
theorem executed_body (hfault : s.fault = none) (msgp : MessagePreamble) (body : List UInt8)
    (eff : Effect) :
    executed s ({ s with handled := s.handled ++ [(msgp, body)] }.apply (.ok eff)) =
      asRequest (msgp, body) := by
  simp [executed, apply, hfault]

/-- A body is given to its handler. -/
theorem executes_body (hfault : s.fault = none) (cfg : ServerConfig) (msgp : MessagePreamble)
    (body : List UInt8) : Executes cfg.width s
      ({ s with handled := s.handled ++ [(msgp, body)] }.apply
        (bodyRequest cfg.width s.db msgp body)) := by
  cases hrequest : bodyRequest cfg.width s.db msgp body with
  | error e => exact .faulted rfl rfl
  | ok eff =>
    have hexec := executed_body hfault msgp body eff
    have hhandled : ({ s with handled := s.handled ++ [(msgp, body)] }.apply (.ok eff)).handled =
        s.handled ++ [(msgp, body)] := rfl
    rcases bodyRequest_cases hrequest with ⟨hnone, heff⟩ | ⟨r, hr, hbody, hhandle⟩
    · constructor
      · intro _
        rw [heff]
        rfl
      · intro r hr
        rw [hexec, hnone] at hr
        cases hr
      · intro _
        rw [hexec, hhandled, hnone]
        simp [hnone]
    · constructor
      · intro hnone
        rw [hexec, hr] at hnone
        cases hnone
      · intro r' hr'
        rw [hexec, hr] at hr'
        obtain rfl := Option.some.inj hr'
        exact ⟨eff, hhandle, rfl⟩
      · intro _
        rw [hexec, hhandled, hr]
        simp [hr, hbody]

/-- A completion handler executes one request at most. -/
theorem executes_callHandler (hfault : s.fault = none) (cfg : ServerConfig) (failed : Bool)
    (handler : ReadHandler) : Executes cfg.width s (s.callHandler cfg failed handler) := by
  cases handler with
  | receivedHello =>
    show Executes cfg.width s (s.receivedHello cfg)
    rcases s.receivedHello_cases cfg with ⟨-, heq⟩ | ⟨-, heq⟩ | ⟨-, heq⟩
    · rw [heq]
      exact .faulted rfl rfl
    · rw [heq]
      have hsame := sameData_startReadMessage s.deallocated
      exact .idle hsame.db hsame.handled hsame.dispatched
    · rw [heq]
      exact .idle rfl rfl rfl
  | handleMessage =>
    show Executes cfg.width s (s.handleMessage cfg failed)
    unfold handleMessage
    split
    · exact .idle rfl rfl rfl
    · split
      · exact .faulted rfl rfl
      · have hdispatch := @executes_dispatch
          { s with conn := { s.conn with storage := s.conn.storage.deallocate } } hfault cfg
          (.ofBytes s.conn.storage.data)
        exact Executes.of_sameData ⟨hdispatch.quiet, hdispatch.request, hdispatch.order⟩
          (sameData_startReadMessage _)
  | handleProcessedData msgp =>
    show Executes cfg.width s (s.handleProcessedData cfg msgp)
    unfold handleProcessedData
    split
    · exact .faulted rfl rfl
    · exact executes_body hfault cfg msgp _

theorem executes_handleData (hfault : s.fault = none) (cfg : ServerConfig) (failed : Bool)
    (number : Nat) (op : ReadOp) : Executes cfg.width s (s.handleData cfg failed number op) := by
  unfold handleData
  dsimp only
  split
  · exact .idle rfl rfl rfl
  · have hcall := @executes_callHandler
      { s with conn := { s.conn with reads := (s.conn.reads.setDone number).release } } hfault cfg
      failed op.handler
    exact Executes.of_sameData ⟨hcall.quiet, hcall.request, hcall.order⟩
      (sameData_performPendingRead _)

end Session

/-- The socket or the timer does something to the writes. -/
def ConnectionEvent.isWrite : ConnectionEvent → Bool
  | .written _ | .writeFails _ | .writeWaitEnds _ => true
  | _ => false

/-- What a step of a connection is: the completion handler of a read is called, or a wait of the
reads ends, or something happens to the writes. -/
inductive ExternalCases (cfg : ServerConfig) (s : Session) : ConnectionEvent → Session → Prop
  | handles (e : ConnectionEvent) (failed : Bool) (number : Nat) (op : ReadOp)
      (reads : Direction ReadOp) (storage : DynamicStorage) (unread : List UInt8) :
      e.isWrite = false →
      ExternalCases cfg s e (({ s with
        conn := { s.conn with reads := reads, storage := storage }
        unread := unread } : Session).handleData cfg failed number op)
  | waits (i : Nat) (conn : TcpConnection Part) : s.conn.readWaitEnds i = some conn →
      ExternalCases cfg s (.readWaitEnds i) { s with conn := conn }
  | writes (e : ConnectionEvent) (conn : TcpConnection Part) : e.isWrite = true →
      ExternalCases cfg s e { s with conn := conn }

theorem external_cases {cfg : ServerConfig} {s s' : Session} {e : ConnectionEvent}
    (hexternal : e.isExternal = true) (hstep : connectionStep cfg s e = some s') :
    ExternalCases cfg s e s' := by
  have hfault := (connectionStep_cases hstep).1
  unfold connectionStep at hstep
  rw [if_neg (by simp [hfault])] at hstep
  cases e with
  | read count =>
    have hread : s.readDone cfg count = some s' := hstep
    unfold Session.readDone at hread
    split at hread
    · cases hread
    · rename_i number op rest hout
      split at hread
      · obtain rfl := Option.some.inj hread
        exact .handles _ false number op _ _ _ rfl
      · cases hread
  | readFails =>
    have hfails : s.readFails cfg = some s' := hstep
    unfold Session.readFails at hfails
    split at hfails
    · cases hfails
    · rename_i number op rest hout
      obtain rfl := Option.some.inj hfails
      exact .handles _ true number op _ s.conn.storage s.unread rfl
  | written count =>
    obtain ⟨conn, -, rfl⟩ := Option.map_eq_some_iff.mp hstep
    exact .writes _ conn rfl
  | writeFails count =>
    obtain ⟨conn, -, rfl⟩ := Option.map_eq_some_iff.mp hstep
    exact .writes _ conn rfl
  | readWaitEnds i =>
    obtain ⟨conn, hconn, rfl⟩ := Option.map_eq_some_iff.mp hstep
    exact .waits i conn hconn
  | writeWaitEnds i =>
    obtain ⟨conn, -, rfl⟩ := Option.map_eq_some_iff.mp hstep
    exact .writes _ conn rfl
  | submitted op => cases hexternal
  | database db => cases hexternal

/-- A step of a connection executes one request at most. -/
theorem executes_step {cfg : ServerConfig} {s s' : Session} {e : ConnectionEvent}
    (hexternal : e.isExternal = true) (hstep : connectionStep cfg s e = some s') :
    Executes cfg.width s s' := by
  have hfault := (connectionStep_cases hstep).1
  cases external_cases hexternal hstep with
  | handles _ failed number op reads storage unread hwrite =>
    have hdata := @Session.executes_handleData
      { s with conn := { s.conn with reads := reads, storage := storage }, unread := unread }
      hfault cfg failed number op
    exact ⟨hdata.quiet, hdata.request, hdata.order⟩
  | waits i conn hconn => exact .idle rfl rfl rfl
  | writes _ conn hwrite => exact .idle rfl rfl rfl

/-! ## Serving -/

variable {w : Nat}

theorem serve_concat {db db₁ : Db} {rs : List DbRequest} {sent : List Sent}
    (hserve : serve w db rs = (sent, .ok db₁)) {r : DbRequest} {eff : Effect}
    (heff : r.handle w db₁ = .ok eff) :
    serve w db (rs ++ [r]) = (sent ++ [⟨eff.replies, eff.broadcast⟩], .ok eff.db) := by
  induction rs generalizing db sent with
  | nil =>
    obtain ⟨rfl, hdb⟩ := Prod.mk.inj hserve
    obtain rfl := Except.ok.inj hdb
    simp only [List.nil_append, serve, heff]
  | cons r' rs ih =>
    obtain ⟨eff', rest, heff', rfl, hrest⟩ := serve_cons hserve
    rw [List.cons_append, serve, heff']
    dsimp only
    rw [ih hrest]
    rfl

/-- The object that a request puts under a hash. -/
def storedBy (w keyHash : Nat) : DbRequest → Option DbObject
  | .set body =>
      match parseSet body with
      | .value key obj => if keyHash = makeHash w key then some obj else none
      | _ => none
  | .get _ | .getAll => none

theorem getObject_handle {db : Db} {r : DbRequest} {eff : Effect} (heff : r.handle w db = .ok eff)
    (keyHash : Nat) :
    eff.db.getObject keyHash = (storedBy w keyHash r).or (db.getObject keyHash) := by
  cases r with
  | get body =>
    obtain ⟨key, -, hrest⟩ := bind_eq_ok.mp heff
    obtain ⟨u, -, hrest⟩ := bind_eq_ok.mp hrest
    obtain rfl := Except.ok.inj hrest
    rfl
  | set body =>
    have hparsed := setHandler_parsed w db body
    rw [DbRequest.handle, setRequest] at heff
    rw [storedBy]
    cases hset : parseSet body with
    | refused text =>
      rw [hset] at hparsed
      rw [hparsed] at heff
      obtain rfl := Except.ok.inj heff
      rfl
    | fault e =>
      rw [hset] at hparsed
      rw [hparsed] at heff
      cases heff
    | value key obj =>
      rw [hset] at hparsed
      obtain ⟨db', haccepted, htree, -⟩ := hparsed
      rw [haccepted] at heff
      obtain ⟨u, -, hrest⟩ := bind_eq_ok.mp heff
      obtain rfl := Except.ok.inj hrest
      show db'.getObject keyHash = (if keyHash = makeHash w key then some obj else none).or _
      rw [Db.getObject_of_tree htree]
      by_cases hhash : keyHash = makeHash w key
      · rw [if_pos hhash, if_pos hhash, Option.some_or]
      · rw [if_neg hhash, if_neg hhash, Option.none_or]
  | getAll =>
    obtain ⟨us, -, hrest⟩ := bind_eq_ok.mp heff
    obtain rfl := Except.ok.inj hrest
    rfl

/-- Under a hash lies what was last put there. -/
theorem getObject_serve {db db' : Db} {rs : List DbRequest} {sent : List Sent}
    (hserve : serve w db rs = (sent, .ok db')) (keyHash : Nat) :
    db'.getObject keyHash = (rs.filterMap (storedBy w keyHash)).getLast?.or
      (db.getObject keyHash) := by
  induction rs generalizing db sent with
  | nil =>
    obtain rfl := Except.ok.inj (Prod.mk.inj hserve).2
    rfl
  | cons r rs ih =>
    obtain ⟨eff, rest, heff, -, hrest⟩ := serve_cons hserve
    rw [ih hrest, getObject_handle heff]
    cases hstored : storedBy w keyHash r with
    | none => rw [List.filterMap_cons_none hstored, Option.none_or]
    | some obj =>
      rw [List.filterMap_cons_some hstored, List.getLast?_cons]
      cases (rs.filterMap (storedBy w keyHash)).getLast? <;> rfl

/-! ## Runs of the server -/

namespace Server

/-- The connection that took the step. -/
theorem stepped_self {cfg : ServerConfig} {sv : Server} {i : Nat} {a : Accepted}
    (ha : sv.accepted[i]? = some a) (s s' : Session) :
    (sv.stepped cfg i s s').accepted[i]? = some { a with session := s' } := by
  simp [stepped, ha]

/-- The request that a step of the server executed, with the connection. -/
def executedIn (sv sv' : Server) : ServerEvent → List (Nat × DbRequest)
  | .connection i _ =>
      match sv.accepted[i]?, sv'.accepted[i]? with
      | some a, some a' => (executed a.session a'.session).toList.map fun r => (i, r)
      | _, _ => []
  | .accept _ _ _ | .remove => []

def history (cfg : ServerConfig) : Server → List ServerEvent → List (Nat × DbRequest)
  | _, [] => []
  | sv, e :: es =>
      match sv.step cfg e with
      | none => []
      | some sv' => sv.executedIn sv' e ++ history cfg sv' es

/-- A run that ends with an accept. -/
theorem run_accept {cfg : ServerConfig} {sv sv' : Server} {es : List ServerEvent} {id : Nat}
    {memory : Nat → Nat} {stream : List UInt8}
    (hrun : Lib.run (Server.step cfg) sv (es ++ [.accept id memory stream]) = some sv') :
    ∃ sv₁ : Server, sv' = sv₁.handleAccept id memory stream ∧
      sv'.accepted.length = sv₁.accepted.length + 1 := by
  obtain ⟨sv₁, -, haccept⟩ := run_append_eq_some.mp hrun
  obtain ⟨sv₂, hstep, hnil⟩ := run_cons_eq_some.mp haccept
  obtain rfl := Option.some.inj hnil
  obtain rfl : sv₁.handleAccept id memory stream = sv₂ := Option.some.inj hstep
  exact ⟨sv₁, rfl, by simp [handleAccept]⟩

/-- The requests of one connection that have a body. -/
def bodiesOf (i : Nat) (log : List (Nat × DbRequest)) : List DbRequest :=
  ((log.filter fun p => p.1 = i).map Prod.snd).filter DbRequest.hasBody

theorem bodiesOf_append (i : Nat) (log log' : List (Nat × DbRequest)) :
    bodiesOf i (log ++ log') = bodiesOf i log ++ bodiesOf i log' := by
  simp only [bodiesOf, List.filter_append, List.map_append]

theorem bodiesOf_self (i : Nat) (rs : List DbRequest) :
    bodiesOf i (rs.map fun r => (i, r)) = rs.filter DbRequest.hasBody := by
  simp [bodiesOf, List.filter_map, Function.comp_def]

theorem bodiesOf_eq_nil {i : Nat} {log : List (Nat × DbRequest)} (h : ∀ p ∈ log, p.1 ≠ i) :
    bodiesOf i log = [] := by
  have hnil : log.filter (fun p => decide (p.1 = i)) = [] :=
    List.filter_eq_nil_iff.mpr fun p hp => by simpa using h p hp
  rw [bodiesOf, hnil]
  rfl

/-- The log is the history so far. -/
structure Recorded (cfg : ServerConfig) (sv : Server) (log : List (Nat × DbRequest)) : Prop where
  serves : ∃ sent, serve cfg.width Db.empty (log.map Prod.snd) = (sent, .ok sv.db)
  order : ∀ (i : Nat), ∀ a ∈ sv.accepted[i]?,
    a.session.handled.filterMap asRequest = bodiesOf i log
  known : ∀ p ∈ log, p.1 < sv.accepted.length

theorem recorded_start (cfg : ServerConfig) : Recorded cfg { db := Db.empty } [] :=
  ⟨⟨[], rfl⟩, by simp, by simp⟩

namespace Recorded

variable {cfg : ServerConfig} {sv sv' : Server} {log : List (Nat × DbRequest)}

theorem accept (h : Recorded cfg sv log) (id : Nat) (memory : Nat → Nat) (stream : List UInt8) :
    Recorded cfg (sv.handleAccept id memory stream) log := by
  refine ⟨h.serves, ?_, ?_⟩
  · intro i a ha
    rcases mem_getElem?_concat ha with hold | ⟨rfl, rfl⟩
    · exact h.order i a hold
    · exact (bodiesOf_eq_nil fun p hp => Nat.ne_of_lt (h.known p hp)).symm
  · intro p hp
    have hlt := h.known p hp
    simp only [handleAccept, List.length_append, List.length_singleton]
    omega

theorem connection (h : Recorded cfg sv log) {i : Nat} {a : Accepted}
    (ha : sv.accepted[i]? = some a) {s' : Session}
    (hexec : Executes cfg.width { a.session with db := sv.db } s') (hquiet : s'.fault = none) :
    Recorded cfg (sv.stepped cfg i { a.session with db := sv.db } s')
      (log ++ (executed a.session s').toList.map fun r => (i, r)) := by
  obtain ⟨sent, hserves⟩ := h.serves
  refine ⟨?_, ?_, ?_⟩
  · cases hr : executed a.session s' with
    | none =>
      refine ⟨sent, ?_⟩
      show serve _ _ _ = (sent, .ok s'.db)
      rw [hexec.quiet hr]
      simpa using hserves
    | some r =>
      obtain ⟨eff, heff, hdb⟩ := hexec.request r hr
      refine ⟨sent ++ [⟨eff.replies, eff.broadcast⟩], ?_⟩
      show serve _ _ _ = (_, .ok s'.db)
      rw [hdb, List.map_append]
      exact serve_concat hserves heff
  · intro j b' hb'
    simp only [stepped, List.getElem?_mapIdx, Option.mem_def, Option.map_eq_some_iff] at hb'
    obtain ⟨b, hb, rfl⟩ := hb'
    rw [bodiesOf_append]
    by_cases hj : j = i
    · subst hj
      obtain rfl := Option.some.inj (ha.symm.trans hb)
      rw [if_pos rfl, bodiesOf_self, ← h.order j a ha]
      exact hexec.order hquiet
    · have hnil : bodiesOf j ((executed a.session s').toList.map fun r => (i, r)) = [] := by
        apply bodiesOf_eq_nil
        intro p hp
        obtain ⟨r, -, rfl⟩ := List.mem_map.mp hp
        exact Ne.symm hj
      rw [hnil, List.append_nil, if_neg hj]
      split
      · exact h.order j b hb
      · exact h.order j b hb
  · intro p hp
    have hlen : (sv.stepped cfg i { a.session with db := sv.db } s').accepted.length =
        sv.accepted.length := by simp [stepped]
    rw [hlen]
    rcases List.mem_append.mp hp with hold | hnew
    · exact h.known p hold
    · obtain ⟨r, -, rfl⟩ := List.mem_map.mp hnew
      exact (List.getElem?_eq_some_iff.mp ha).1

theorem step (h : Recorded cfg sv log) {e : ServerEvent} (hstep : sv.step cfg e = some sv') :
    Recorded cfg sv' (log ++ sv.executedIn sv' e) := by
  cases step_cases hstep with
  | accept id memory stream =>
    rw [executedIn, List.append_nil]
    exact h.accept id memory stream
  | remove _ hdb haccepted =>
    rw [executedIn, List.append_nil]
    exact ⟨hdb ▸ h.serves, haccepted ▸ h.order, haccepted ▸ h.known⟩
  | connection i a e s' hexternal ha hs' hquiet =>
    have hnext := h.connection ha (executes_step hexternal hs') hquiet
    rw [executedIn, ha, stepped_self ha]
    exact hnext

theorem run (h : Recorded cfg sv log) {es : List ServerEvent}
    (hrun : Lib.run (Server.step cfg) sv es = some sv') :
    Recorded cfg sv' (log ++ history cfg sv es) := by
  induction es generalizing sv log with
  | nil =>
    obtain rfl := Option.some.inj hrun
    rw [history, List.append_nil]
    exact h
  | cons e es ih =>
    obtain ⟨sv₁, hfirst, hrest⟩ := run_cons_eq_some.mp hrun
    have hnext := ih (h.step hfirst) hrest
    rw [history, hfirst]
    rwa [List.append_assoc] at hnext

end Recorded

end Server

/-- In every run of the server the requests of all connections are executed one after the other:
the database is what they make of an empty one in this order, under each hash lies what the last
SET of the hash stored, and each connection has its requests in the order it handled them. -/
theorem server_sequential {cfg : ServerConfig} {es : List ServerEvent} {sv : Server}
    (hrun : run (Server.step cfg) { db := Db.empty } es = some sv) :
    (∃ sent, serve cfg.width Db.empty ((Server.history cfg { db := Db.empty } es).map Prod.snd) =
        (sent, .ok sv.db)) ∧
      (∀ keyHash, sv.db.getObject keyHash = ((Server.history cfg { db := Db.empty } es).filterMap
        fun p => storedBy cfg.width keyHash p.2).getLast?) ∧
      ∀ (i : Nat), ∀ a ∈ sv.accepted[i]?,
        a.session.handled.filterMap asRequest =
          Server.bodiesOf i (Server.history cfg { db := Db.empty } es) := by
  have hrecorded := (Server.recorded_start cfg).run hrun
  rw [List.nil_append] at hrecorded
  refine ⟨hrecorded.serves, ?_, hrecorded.order⟩
  intro keyHash
  obtain ⟨sent, hserve⟩ := hrecorded.serves
  rw [getObject_serve hserve, List.filterMap_map]
  exact Option.or_none

/-- Two clients are connected; the second one asks for the key that the first one sets. -/
def interleaved : List ServerEvent :=
  [.accept 10 (fun _ => 0) (hello ++ [4, 0, 0, 5, 0, 0, 0] ++ setAbSeven.body),
    .accept 11 (fun _ => 0) (hello ++ [1, 0, 0, 3, 0, 0, 0] ++ keyAb.bytes),
    .connection 0 (.read 6), .connection 1 (.read 6), .connection 1 (.read 7),
    .connection 0 (.read 7), .connection 0 (.read 5), .connection 1 (.read 3)]

theorem server_sequential_two : ∃ sv,
    run (Server.step ⟨64, false, fun _ => 0⟩) { db := Db.empty } interleaved = some sv ∧
    (sv.db.getObject (makeHash 64 keyAb)).map DbObject.ds = some (.memory [7]) := by
  refine ⟨_, rfl, ?_⟩
  rw [(@server_sequential ⟨64, false, fun _ => 0⟩ interleaved _ rfl).2.1]
  rfl

end StateDb
