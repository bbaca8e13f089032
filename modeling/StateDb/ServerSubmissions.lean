/-
  StateDb/ServerSubmissions.lean
  ==============================
  **What the server submits on each connection** (`asio_server.cpp`: the handlers,
  `apply_all_connections`; `connection.cpp`: `handle_data`).

  The handlers write on the connection of the request and, when a SET is accepted, on every
  connection of the registry.  All of it goes through the queue of writes that each
  connection has; reading, timers and failed reads leave this queue alone.

  So in every step of the server the writes of a registered connection are what the answers
  of its own requests and the updates of all accepted SETs make of them, or the socket and the
  timers of its own writes did something (`step_receives`).
-/
import StateDb.ServerHistory

namespace StateDb

open Lib

/-! ## Writes -/

namespace TcpConnection

variable {c c₁ c' d : TcpConnection Part}

/-- The writes of two connections are the same. -/
structure SameWrites (c c' : TcpConnection Part) : Prop where
  writes : c'.writes = c.writes
  log : c'.log = c.log
  memory : c'.memory = c.memory
  constructed : c'.constructed = c.constructed

theorem SameWrites.refl (c : TcpConnection Part) : SameWrites c c := ⟨rfl, rfl, rfl, rfl⟩

theorem SameWrites.trans (h₁ : SameWrites c c₁) (h : SameWrites c₁ c') : SameWrites c c' :=
  ⟨h.writes.trans h₁.writes, h.log.trans h₁.log, h.memory.trans h₁.memory,
    h.constructed.trans h₁.constructed⟩

theorem SameWrites.startWrite (h : SameWrites c d) (op : WriteOp Part) :
    SameWrites (c.startWrite op) (d.startWrite op) := by
  obtain ⟨hwrites, hlog, hmemory, hconstructed⟩ := h
  unfold TcpConnection.startWrite
  rw [hwrites, hlog]
  exact ⟨rfl, rfl, hmemory, hconstructed⟩

/-- A write does the same to the same writes. -/
theorem SameWrites.perform (h : SameWrites c d) (op : WriteOp Part) :
    SameWrites (c.perform op) (d.perform op) := by
  obtain ⟨kind, data, next, timeout, required⟩ := op
  cases kind with
  | message =>
    show SameWrites (c.asyncWriteMessage data next timeout required)
      (d.asyncWriteMessage data next timeout required)
    unfold asyncWriteMessage
    rw [h.writes, h.memory, h.constructed]
    split
    · exact ⟨rfl, h.log, rfl, rfl⟩
    · exact h.startWrite _
  | raw =>
    show SameWrites (c.asyncWriteRaw data next timeout required)
      (d.asyncWriteRaw data next timeout required)
    unfold asyncWriteRaw
    rw [h.writes]
    split
    · exact h
    · split
      · exact ⟨rfl, h.log, h.memory, h.constructed⟩
      · exact h.startWrite _

theorem SameWrites.performAll (h : SameWrites c d) (ops : List (WriteOp Part)) :
    SameWrites (c.performAll ops) (d.performAll ops) := by
  induction ops generalizing c d with
  | nil => exact h
  | cons op ops ih => exact ih (h.perform op)

theorem SameWrites.submitAll (h : SameWrites c d) (us : List Submission) :
    SameWrites (us.foldl submit c) (us.foldl submit d) := by
  induction us generalizing c d with
  | nil => exact h
  | cons u us ih =>
    refine ih ?_
    rw [Submission.submit_eq, Submission.submit_eq]
    exact h.performAll u.ops

theorem sameWrites_submitRead (c : TcpConnection Part) (op : ReadOp) :
    SameWrites c (c.submitRead op) := by
  unfold submitRead
  split <;> exact ⟨rfl, rfl, rfl, rfl⟩

theorem sameWrites_startReadMessage (c : TcpConnection Part) : SameWrites c c.startReadMessage := by
  unfold startReadMessage
  split
  · exact .refl c
  · exact sameWrites_submitRead c _

theorem sameWrites_performPendingRead (c : TcpConnection Part) :
    SameWrites c c.performPendingRead := by
  unfold performPendingRead
  split
  · exact .refl c
  · rename_i op rest hpend
    have hrest : SameWrites c { c with reads := { c.reads with pending := rest } } :=
      ⟨rfl, rfl, rfl, rfl⟩
    exact hrest.trans (sameWrites_submitRead _ op)

end TcpConnection

open TcpConnection

theorem sameWrites_startReadMessage (s : Session) : SameWrites s.conn s.startReadMessage.conn := by
  unfold Session.startReadMessage
  split
  · exact .refl s.conn
  · exact TcpConnection.sameWrites_startReadMessage s.conn

theorem sameWrites_performPendingRead (s : Session) :
    SameWrites s.conn s.performPendingRead.conn := by
  unfold Session.performPendingRead
  split
  · exact .refl s.conn
  · exact TcpConnection.sameWrites_performPendingRead s.conn

/-! ## A session -/

/-- What the handler of the executed request sent. -/
def effectBy (cfg : ServerConfig) (s s' : Session) : Option Effect :=
  (executed s s').bind fun r => (r.handle cfg.width s.db).toOption

/-- What a session submits on its own connection between two states. -/
def submittedBy (cfg : ServerConfig) (s s' : Session) : List Submission :=
  match effectBy cfg s s' with
  | some eff => eff.replies ++ eff.broadcast
  | none =>
      match s'.dispatched.drop s.dispatched.length with
      | msg :: _ =>
          if dispatcher msg.id = some .ping then [.pong (cfg.pongMemory s'.dispatched.length)]
          else []
      | [] => []

/-- A step of the session submits this, and does nothing else to the writes; the other
connections get the updates of the same handler. -/
structure Submits (cfg : ServerConfig) (s s' : Session) : Prop where
  own : s'.fault = none → SameWrites ((submittedBy cfg s s').foldl submit s.conn) s'.conn
  others : announced cfg s s' = (effectBy cfg s s').elim [] Effect.broadcast

theorem announced_same {cfg : ServerConfig} {s s' : Session} (hhandled : s'.handled = s.handled) :
    announced cfg s s' = [] := by
  rw [announced, hhandled, List.drop_length]
  rfl

theorem effectBy_none {cfg : ServerConfig} {s s' : Session} (h : executed s s' = none) :
    effectBy cfg s s' = none := by
  rw [effectBy, h]
  rfl

theorem effectBy_some {cfg : ServerConfig} {s s' : Session} {r : DbRequest} {eff : Effect}
    (h : executed s s' = some r) (heff : r.handle cfg.width s.db = .ok eff) :
    effectBy cfg s s' = some eff := by
  rw [effectBy, h, Option.bind_some, heff]
  rfl

theorem submittedBy_same {cfg : ServerConfig} {s s' : Session} (hhandled : s'.handled = s.handled)
    (hdispatched : s'.dispatched = s.dispatched) : submittedBy cfg s s' = [] := by
  rw [submittedBy, effectBy_none (executed_same hhandled hdispatched), hdispatched,
    List.drop_length]

namespace Submits

variable {cfg : ServerConfig} {s s₁ s' : Session}

theorem of_sameData (h : Submits cfg s s₁) (hsame : Session.SameData s₁ s')
    (hwrites : SameWrites s₁.conn s'.conn) : Submits cfg s s' := by
  have heffect : effectBy cfg s s' = effectBy cfg s s₁ := by
    rw [effectBy, effectBy, executed_congr hsame]
  constructor
  · intro hfault
    rw [submittedBy, heffect, hsame.dispatched]
    exact (h.own (hsame.fault ▸ hfault)).trans hwrites
  · rw [heffect, announced, hsame.handled]
    exact h.others

/-- The step begins with the same writes. -/
theorem of_conn {c : TcpConnection Part} (h : Submits cfg { s with conn := c } s')
    (hwrites : SameWrites s.conn c) : Submits cfg s s' :=
  ⟨fun hfault => (hwrites.submitAll (submittedBy cfg s s')).trans (h.own hfault), h.others⟩

theorem faulted (hfault : s'.fault.isSome = true) (hnone : announced cfg s s' = []) :
    Submits cfg s s' := by
  constructor
  · intro hquiet
    rw [hquiet] at hfault
    cases hfault
  · have hexec : executed s s' = none := by rw [executed, if_pos hfault]
    rw [effectBy_none hexec]
    exact hnone

/-- Nothing is read that has an answer. -/
theorem idle (hhandled : s'.handled = s.handled) (hdispatched : s'.dispatched = s.dispatched)
    (hwrites : SameWrites s.conn s'.conn) : Submits cfg s s' := by
  constructor
  · intro _
    rw [submittedBy_same hhandled hdispatched]
    exact hwrites
  · rw [announced_same hhandled, effectBy_none (executed_same hhandled hdispatched)]
    rfl

end Submits

namespace Session

variable {cfg : ServerConfig} {s : Session}

/-- The answer of a handler is submitted. -/
theorem submits_apply {s₀ : Session} {r : DbRequest} {eff : Effect} (hconn : s₀.conn = s.conn)
    (heff : r.handle cfg.width s.db = .ok eff) (hexec : executed s (s₀.apply (.ok eff)) = some r)
    (hothers : announced cfg s (s₀.apply (.ok eff)) = eff.broadcast) :
    Submits cfg s (s₀.apply (.ok eff)) := by
  have heffect := effectBy_some hexec heff
  constructor
  · intro _
    rw [submittedBy, heffect, ← hconn]
    exact .refl _
  · rw [heffect]
    exact hothers

/-- A preamble whose handler reads a body, or sends a pong, or is not there. -/
theorem submits_message {msg : MessagePreamble} {s' : Session}
    (hall : dispatcher msg.id ≠ some .getAll) (hhandled : s'.handled = s.handled)
    (hdispatched : s'.dispatched = s.dispatched ++ [msg]) {us : List Submission}
    (hus : us = if dispatcher msg.id = some .ping
      then [.pong (cfg.pongMemory s'.dispatched.length)] else [])
    (hwrites : SameWrites (us.foldl submit s.conn) s'.conn) : Submits cfg s s' := by
  have hexec : executed s s' = none := by
    rw [executed, hhandled, hdispatched, List.drop_length, List.drop_left]
    simp [hall]
  constructor
  · intro _
    have hsubmitted : submittedBy cfg s s' = us := by
      rw [submittedBy, effectBy_none hexec, hus]
      simp only [hdispatched, List.drop_left]
    rw [hsubmitted]
    exact hwrites
  · rw [announced_same hhandled, effectBy_none hexec]
    rfl

/-- A preamble is dispatched: a PING and a GET_ALL are answered at once. -/
theorem submits_dispatch (hfault : s.fault = none) (cfg : ServerConfig) (msg : MessagePreamble) :
    Submits cfg s (s.dispatch cfg msg) := by
  have hread (h : dispatcher msg.id = some .get ∨ dispatcher msg.id = some .set) :
      Submits cfg s (s.dispatch cfg msg) := by
    have hdispatch : s.dispatch cfg msg = { s with
        dispatched := s.dispatched ++ [msg]
        conn := s.conn.asyncReadRaw msg.size (.handleProcessedData msg) netTimeout true } := by
      rcases h with h | h <;> simp only [dispatch, h]
    rw [hdispatch]
    have hping : dispatcher msg.id ≠ some .ping := by rcases h with h | h <;> simp [h]
    have hall : dispatcher msg.id ≠ some .getAll := by rcases h with h | h <;> simp [h]
    exact submits_message hall rfl rfl (if_neg hping).symm (sameWrites_submitRead s.conn _)
  cases hhandler : dispatcher msg.id with
  | none =>
    have hdispatch : s.dispatch cfg msg = { s with dispatched := s.dispatched ++ [msg] } := by
      simp only [dispatch, hhandler]
    rw [hdispatch]
    exact submits_message (by simp [hhandler]) rfl rfl (if_neg (by simp [hhandler])).symm (.refl _)
  | some handler =>
    cases handler with
    | get => exact hread (Or.inl hhandler)
    | set => exact hread (Or.inr hhandler)
    | ping =>
      have hdispatch : s.dispatch cfg msg = { s with
          dispatched := s.dispatched ++ [msg]
          conn := s.conn.submit (.pong (cfg.pongMemory (s.dispatched ++ [msg]).length)) } := by
        simp only [dispatch, hhandler]
      rw [hdispatch]
      exact submits_message (by simp [hhandler]) rfl rfl (if_pos hhandler).symm (.refl _)
    | getAll =>
      have hdispatch : s.dispatch cfg msg =
          { s with dispatched := s.dispatched ++ [msg] }.apply (getAllRequest cfg.width s.db) := by
        simp only [dispatch, hhandler]
      rw [hdispatch]
      cases hrequest : getAllRequest cfg.width s.db with
      | error e => exact .faulted rfl (announced_same rfl)
      | ok eff =>
        have heff : DbRequest.getAll.handle cfg.width s.db = .ok eff := hrequest
        obtain ⟨us, -, heq⟩ := bind_eq_ok.mp hrequest
        obtain rfl := Except.ok.inj heq
        refine submits_apply rfl heff ?_ (announced_same rfl)
        simp [executed, apply, hfault, hhandler]

/-- A body is given to its handler. -/
theorem submits_body (hfault : s.fault = none) (cfg : ServerConfig) (msgp : MessagePreamble)
    (body : List UInt8) : Submits cfg s
      ({ s with handled := s.handled ++ [(msgp, body)] }.apply
        (bodyRequest cfg.width s.db msgp body)) := by
  have hannounced {s' : Session} (hhandled : s'.handled = s.handled ++ [(msgp, body)]) :
      announced cfg s s' = ((bodyRequest cfg.width s.db msgp body).toOption).elim []
        Effect.broadcast := by
    rw [announced, hhandled, List.drop_left]
    cases hrequest : bodyRequest cfg.width s.db msgp body <;> simp [hrequest, Except.toOption]
  cases hrequest : bodyRequest cfg.width s.db msgp body with
  | error e =>
    refine .faulted rfl ?_
    rw [hannounced rfl, hrequest]
    rfl
  | ok eff =>
    have hothers : announced cfg s
        ({ s with handled := s.handled ++ [(msgp, body)] }.apply (.ok eff)) = eff.broadcast := by
      rw [hannounced rfl, hrequest]
      rfl
    have hexec := executed_body hfault msgp body eff
    have hquiet (hr : asRequest (msgp, body) = none) (heff : eff = { db := s.db }) :
        Submits cfg s ({ s with handled := s.handled ++ [(msgp, body)] }.apply (.ok eff)) := by
      have heffect := @effectBy_none cfg s _ (hexec.trans hr)
      constructor
      · intro _
        have hsubmitted : submittedBy cfg s
            ({ s with handled := s.handled ++ [(msgp, body)] }.apply (.ok eff)) = [] := by
          rw [submittedBy, heffect]
          simp [apply]
        rw [hsubmitted, heff]
        exact .refl _
      · rw [hothers, heffect, heff]
        rfl
    rcases bodyRequest_cases hrequest with ⟨hr, heff⟩ | ⟨r, hr, -, heff⟩
    · exact hquiet hr heff
    · exact submits_apply rfl heff (hexec.trans hr) hothers

theorem submits_callHandler (hfault : s.fault = none) (cfg : ServerConfig) (failed : Bool)
    (handler : ReadHandler) : Submits cfg s (s.callHandler cfg failed handler) := by
  cases handler with
  | receivedHello =>
    show Submits cfg s (s.receivedHello cfg)
    rcases s.receivedHello_cases cfg with ⟨-, heq⟩ | ⟨-, heq⟩ | ⟨-, heq⟩
    · rw [heq]
      exact .faulted rfl (announced_same rfl)
    · rw [heq]
      have hsame := sameData_startReadMessage s.deallocated
      have hwrites : SameWrites s.conn s.deallocated.conn := ⟨rfl, rfl, rfl, rfl⟩
      exact .idle hsame.handled hsame.dispatched
        (hwrites.trans (sameWrites_startReadMessage s.deallocated))
    · rw [heq]
      exact .idle rfl rfl ⟨rfl, rfl, rfl, rfl⟩
  | handleMessage =>
    show Submits cfg s (s.handleMessage cfg failed)
    unfold handleMessage
    split
    · exact .idle rfl rfl ⟨rfl, rfl, rfl, rfl⟩
    · split
      · exact .faulted rfl (announced_same rfl)
      · have hdispatch := @submits_dispatch
          { s with conn := { s.conn with storage := s.conn.storage.deallocate } } hfault cfg
          (.ofBytes s.conn.storage.data)
        exact Submits.of_sameData (hdispatch.of_conn ⟨rfl, rfl, rfl, rfl⟩)
          (sameData_startReadMessage _) (sameWrites_startReadMessage _)
  | handleProcessedData msgp =>
    show Submits cfg s (s.handleProcessedData cfg msgp)
    unfold handleProcessedData
    split
    · exact .faulted rfl (announced_same rfl)
    · exact submits_body hfault cfg msgp _

theorem submits_handleData (hfault : s.fault = none) (cfg : ServerConfig) (failed : Bool)
    (number : Nat) (op : ReadOp) : Submits cfg s (s.handleData cfg failed number op) := by
  unfold handleData
  dsimp only
  split
  · exact .idle rfl rfl ⟨rfl, rfl, rfl, rfl⟩
  · have hcall := @submits_callHandler
      { s with conn := { s.conn with reads := (s.conn.reads.setDone number).release } } hfault cfg
      failed op.handler
    exact Submits.of_sameData (hcall.of_conn ⟨rfl, rfl, rfl, rfl⟩) (sameData_performPendingRead _)
      (sameWrites_performPendingRead _)

end Session

/-- A step of a connection: what it reads is answered, and its writes are as they were besides. -/
theorem submits_step {cfg : ServerConfig} {s s' : Session} {e : ConnectionEvent}
    (hexternal : e.isExternal = true) (hwrite : e.isWrite = false)
    (hstep : connectionStep cfg s e = some s') : Submits cfg s s' := by
  have hfault := (connectionStep_cases hstep).1
  cases external_cases hexternal hstep with
  | handles _ failed number op reads storage unread _ =>
    have hdata := @Session.submits_handleData
      { s with conn := { s.conn with reads := reads, storage := storage }, unread := unread }
      hfault cfg failed number op
    have hconn := @Submits.of_conn cfg { s with unread := unread } _ _ hdata ⟨rfl, rfl, rfl, rfl⟩
    exact ⟨hconn.own, hconn.others⟩
  | waits i conn hconn =>
    obtain ⟨waits, rfl | rfl⟩ := readWaitEnds_cases hconn
    · exact .idle rfl rfl ⟨rfl, rfl, rfl, rfl⟩
    · exact .idle rfl rfl ⟨rfl, rfl, rfl, rfl⟩
  | writes _ conn hwrites =>
    rw [hwrites] at hwrite
    cases hwrite

/-- Where the socket or the timer does something to the writes, nothing is read. -/
theorem unread_write {cfg : ServerConfig} {s s' : Session} {e : ConnectionEvent}
    (hexternal : e.isExternal = true) (hwrite : e.isWrite = true)
    (hstep : connectionStep cfg s e = some s') :
    s'.handled = s.handled ∧ s'.dispatched = s.dispatched := by
  cases external_cases hexternal hstep with
  | handles _ failed number op reads storage unread hread =>
    rw [hread] at hwrite
    cases hwrite
  | waits i conn hconn => cases hwrite
  | writes _ conn _ => exact ⟨rfl, rfl⟩

/-- The other connections get the updates of the executed SET. -/
theorem announced_step {cfg : ServerConfig} {s s' : Session} {e : ConnectionEvent}
    (hexternal : e.isExternal = true) (hstep : connectionStep cfg s e = some s') :
    announced cfg s s' = (effectBy cfg s s').elim [] Effect.broadcast := by
  cases hwrite : e.isWrite with
  | false => exact (submits_step hexternal hwrite hstep).others
  | true =>
    obtain ⟨hhandled, hdispatched⟩ := unread_write hexternal hwrite hstep
    rw [announced_same hhandled, effectBy_none (executed_same hhandled hdispatched)]
    rfl

/-! ## The server -/

namespace Server

/-- What a step submits on the connection `j`: the answers to its own request, or the updates
that go to every connection of the registry. -/
def submittedOn (cfg : ServerConfig) (j : Nat) (sv sv' : Server) : ServerEvent → List Submission
  | .connection i _ =>
      match sv.accepted[i]?, sv'.accepted[i]? with
      | some a, some a' =>
          let s := { a.session with db := sv.db }
          if i = j then submittedBy cfg s a'.session
          else if sv.isRegistered j then (effectBy cfg s a'.session).elim [] Effect.broadcast
          else []
      | _, _ => []
  | .accept _ _ _ | .remove => []

/-- The socket or the timer does something to the writes of the connection `j`. -/
def writesOn (j : Nat) : ServerEvent → Bool
  | .connection i e => i = j && e.isWrite
  | _ => false

/-- In a step of the server, these submissions and no others go through the writes of the
connection `j`. -/
def Receives (j : Nat) (sv sv' : Server) (e : ServerEvent)
    (us : List Submission) : Prop :=
  ∀ a ∈ sv.accepted[j]?, ∃ a' ∈ sv'.accepted[j]?,
    if writesOn j e then us = [] else SameWrites (us.foldl submit a.session.conn) a'.session.conn

/-- Each step of the server, whatever it is. -/
theorem step_receives {cfg : ServerConfig} {sv sv' : Server} {e : ServerEvent}
    (hstep : sv.step cfg e = some sv') (j : Nat) :
    Receives j sv sv' e (submittedOn cfg j sv sv' e) := by
  intro b hb
  cases step_cases hstep with
  | accept id memory stream =>
    have hlt : j < sv.accepted.length := (List.getElem?_eq_some_iff.mp hb).1
    refine ⟨b, ?_, .refl _⟩
    rw [handleAccept, List.getElem?_append_left hlt]
    exact hb
  | remove _ hdb haccepted => exact ⟨b, haccepted ▸ hb, .refl _⟩
  | connection i a e s' hexternal ha hs' hquiet =>
    have hself := @stepped_self cfg sv i a ha { a.session with db := sv.db } s'
    by_cases hij : i = j
    · -- the connection itself
      subst hij
      obtain rfl := Option.some.inj (ha.symm.trans hb)
      refine ⟨{ a with session := s' }, hself, ?_⟩
      have hsubmitted : submittedOn cfg i sv (sv.stepped cfg i { a.session with db := sv.db } s')
          (.connection i e) = submittedBy cfg { a.session with db := sv.db } s' := by
        simp only [submittedOn, ha, hself, if_true]
      rw [hsubmitted]
      cases hwrite : e.isWrite with
      | true =>
        obtain ⟨hhandled, hdispatched⟩ := unread_write hexternal hwrite hs'
        rw [if_pos (by simp [writesOn, hwrite])]
        exact submittedBy_same hhandled hdispatched
      | false =>
        rw [if_neg (by simp [writesOn, hwrite])]
        exact (submits_step hexternal hwrite hs').own hquiet
    · -- another connection
      have hsubmitted : submittedOn cfg j sv (sv.stepped cfg i { a.session with db := sv.db } s')
          (.connection i e) =
          if sv.isRegistered j then announced cfg { a.session with db := sv.db } s'
            else [] := by
        simp only [submittedOn, ha, hself, if_neg hij, announced_step hexternal hs']
      have hwrites : writesOn j (.connection i e) = false := by simp [writesOn, hij]
      have hother : (sv.stepped cfg i { a.session with db := sv.db } s').accepted[j]? =
          some (if sv.isRegistered j then b.onConn fun c =>
            (announced cfg { a.session with db := sv.db } s').foldl submit c else b) := by
        have hb' : sv.accepted[j]? = some b := hb
        simp [stepped, hb', Ne.symm hij]
      refine ⟨_, hother, ?_⟩
      rw [hsubmitted, hwrites]
      by_cases hreg : sv.isRegistered j = true
      · rw [if_pos hreg, if_pos hreg]
        exact .refl _
      · rw [if_neg hreg, if_neg hreg]
        exact .refl _

end Server

end StateDb
