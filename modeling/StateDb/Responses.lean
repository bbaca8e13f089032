/-
  StateDb/Responses.lean
  ======================
  **How responses come to the wire** (`asio_server.cpp`: `send_value`,
  `send_key_not_found`, `ping_handler`; `connection.h`: `async_write_error`).

  There are two ways to send a response with a body.  A key-updated response is one
  write, the preamble, whose handler submits the body.  A key-not-found or an error is
  two writes, submitted one after the other.  A pong has no body.

  While the slot of the connection works through such writes, it is a slot for whole
  responses (`Serving`): a response is current until its body is out.  The exception is
  the queue: when the preamble of a key-updated response completes, its body takes the
  slot, and the first write of the queue goes to the end of it.  This is harmless when
  that write is a whole response (`serving_written`), and tears a response of two writes
  apart otherwise.
-/
import StateDb.Lib.Run
import StateDb.Writes

namespace StateDb

open Lib

instance : Wire Part where
  bytes
    | .preamble r => r.preambleBytes
    | .body r => r.body

/-! ## Sending a response -/

namespace TcpConnection

/-- `send_value` of an object, the response being made. -/
def sendUpdate (c : TcpConnection Part) (r : Response) : TcpConnection Part :=
  c.asyncWriteMessage (.preamble r) [⟨.raw, .body r, [], netTimeout, true⟩] netTimeout true

def sendTwoWrites (c : TcpConnection Part) (r : Response) : TcpConnection Part :=
  (c.asyncWriteMessage (.preamble r) [] netTimeout true).asyncWriteRaw (.body r) [] netTimeout true

def sendKeyNotFound (c : TcpConnection Part) (key : Key) : TcpConnection Part :=
  c.sendTwoWrites (StateDb.sendKeyNotFound key)

def asyncWriteError (c : TcpConnection Part) (message : Key) : TcpConnection Part :=
  c.sendTwoWrites (errorResponse message)

/-- `ping_handler`; `size` is what the memory of the message held. -/
def sendPong (c : TcpConnection Part) (size : Nat) : TcpConnection Part :=
  c.asyncWriteMessage (.preamble (pong size)) [] netTimeout true

end TcpConnection

/-- A response that a connection is given to send. -/
inductive Submission where
  | keyUpdated (r : Response)
  | keyNotFound (key : Key)
  | error (message : Key)
  | pong (size : Nat)
deriving DecidableEq

def Submission.response : Submission → Response
  | .keyUpdated r => r
  | .keyNotFound key => sendKeyNotFound key
  | .error message => errorResponse message
  | .pong size => StateDb.pong size

/-- `send_value` of a key. -/
def answer (w : Nat) (db : Db) (key : Key) : Except DataError Submission :=
  match db.getObject (makeHash w key) with
  | some obj => do
      let r ← sendObject obj
      .ok (.keyUpdated r)
  | none => .ok (.keyNotFound key)

theorem answer_response (w : Nat) (db : Db) (key : Key) :
    (answer w db key).map Submission.response = sendValue w db key := by
  unfold answer sendValue
  cases db.getObject (makeHash w key) with
  | none => rfl
  | some obj =>
    show (sendObject obj >>= fun r => .ok (.keyUpdated r)).map Submission.response = sendObject obj
    cases sendObject obj <;> rfl

def TcpConnection.submit (c : TcpConnection Part) : Submission → TcpConnection Part
  | .keyUpdated r => c.sendUpdate r
  | .keyNotFound key => c.sendKeyNotFound key
  | .error message => c.asyncWriteError message
  | .pong size => c.sendPong size

/-! ## Responses as writes -/

def bodyWrite (r : Response) : WriteOp Part := ⟨.raw, .body r, [], netTimeout, true⟩

def preambleWrite (r : Response) (next : List (WriteOp Part)) : WriteOp Part :=
  ⟨.message, .preamble r, next, netTimeout, true⟩

namespace Submission

/-- The writes that are submitted. -/
def ops : Submission → List (WriteOp Part)
  | .keyUpdated r => [preambleWrite r [bodyWrite r]]
  | .keyNotFound key => [preambleWrite (sendKeyNotFound key) [], bodyWrite (sendKeyNotFound key)]
  | .error message => [preambleWrite (errorResponse message) [], bodyWrite (errorResponse message)]
  | .pong size => [preambleWrite (StateDb.pong size) []]

theorem submit_eq (c : TcpConnection Part) (u : Submission) : c.submit u = c.performAll u.ops := by
  cases u <;> rfl

/-- Those that are not dropped. -/
def slotOps (u : Submission) : List (WriteOp Part) :=
  (u.ops.filter fun o => !o.dropped).map WriteOp.untimed

/-- The shapes of a response: the body is submitted by the handler of the preamble, or
after the preamble, or there is none. -/
theorem slotOps_cases (u : Submission) :
    (∃ op, u.slotOps = [op] ∧ op.data = .preamble u.response ∧
      op.submits = [(bodyWrite u.response).untimed] ∧ u.response.body ≠ []) ∨
    (∃ op, u.slotOps = [op, (bodyWrite u.response).untimed] ∧ op.data = .preamble u.response ∧
      op.submits = [] ∧ u.response.body ≠ []) ∨
    (∃ op, u.slotOps = [op] ∧ op.data = .preamble u.response ∧ op.submits = [] ∧
      u.response.body = []) := by
  have htwo : ∀ r : Response, ([preambleWrite r [], bodyWrite r].filter fun o => !o.dropped) =
      if r.body = [] then [preambleWrite r []] else [preambleWrite r [], bodyWrite r] := by
    intro r
    by_cases hbody : r.body = [] <;>
      simp [preambleWrite, bodyWrite, WriteOp.dropped, Wire.bytes, hbody]
  cases u with
  | keyUpdated r =>
    by_cases hbody : r.body = []
    · refine Or.inr (Or.inr ⟨_, rfl, rfl, ?_, hbody⟩)
      simp [WriteOp.submits, preambleWrite, WriteOp.untimed, bodyWrite, WriteOp.dropped, Wire.bytes,
        hbody]
    · refine Or.inl ⟨_, rfl, rfl, ?_, hbody⟩
      simp [WriteOp.submits, preambleWrite, WriteOp.untimed, bodyWrite, WriteOp.dropped, Wire.bytes,
        hbody, Submission.response]
  | keyNotFound key =>
    by_cases hbody : (sendKeyNotFound key).body = []
    · refine Or.inr (Or.inr ⟨(preambleWrite (sendKeyNotFound key) []).untimed, ?_, rfl, rfl, hbody⟩)
      simp [slotOps, ops, htwo, hbody]
    · refine Or.inr (Or.inl ⟨(preambleWrite (sendKeyNotFound key) []).untimed, ?_, rfl, rfl, hbody⟩)
      simp [slotOps, ops, htwo, hbody, Submission.response]
  | error message =>
    by_cases hbody : (errorResponse message).body = []
    · refine Or.inr (Or.inr ⟨(preambleWrite (errorResponse message) []).untimed, ?_, rfl, rfl,
        hbody⟩)
      simp [slotOps, ops, htwo, hbody]
    · refine Or.inr (Or.inl ⟨(preambleWrite (errorResponse message) []).untimed, ?_, rfl, rfl,
        hbody⟩)
      simp [slotOps, ops, htwo, hbody, Submission.response]
  | pong size => exact Or.inr (Or.inr ⟨_, rfl, rfl, rfl, rfl⟩)

theorem slotOps_ne_nil (u : Submission) : u.slotOps ≠ [] := by
  rcases u.slotOps_cases with ⟨op, hops, -⟩ | ⟨op, hops, -⟩ | ⟨op, hops, -⟩ <;> simp [hops]

end Submission

/-- The writes of a response, one after the other. -/
def Response.parts (r : Response) : List Part :=
  .preamble r :: if r.body = [] then [] else [.body r]

/-! ## A connection that sends responses -/

namespace TcpConnection

/-- The write that the socket has succeeds, and transfers its whole buffer. -/
def written (c : TcpConnection Part) : Option (TcpConnection Part) :=
  match c.writes.outstanding with
  | [] => none
  | o :: _ => c.writeDone false (Wire.bytes o.2.data).length

/-- The writes that reached the wire. -/
def sent (c : TcpConnection Part) : List Part := c.wire.map Prod.fst

/-- The handler of the write that the socket has submits a body. -/
def StartsBody (c : TcpConnection Part) : Prop := ∃ o ∈ c.writes.outstanding, o.2.submits ≠ []

theorem written_slot {c c' : TcpConnection Part} (hc : c.Orderly) (h : c.written = some c') :
    ∃ op, c.writeSlot.current = some op ∧ c'.Orderly ∧
      c'.writeSlot = c.writeSlot.complete op.submits ∧ c'.sent = c.sent ++ [op.data] ∧
      (op.submits ≠ [] → c.StartsBody) := by
  unfold written at h
  split at h
  · cases h
  · rename_i o rest hout
    obtain ⟨op, hcur, hc', hslot, hwire, -, -⟩ := writeDone_slot hc h
    have hop : o.2.untimed = op := by simpa [writeSlot, hout] using hcur
    refine ⟨op, hcur, hc', hslot, by simp [sent, hwire], ?_⟩
    intro hstarts
    exact ⟨o, by simp [hout], by rwa [← hop] at hstarts⟩

end TcpConnection

/-- A preamble whose body was submitted after it, as a write of its own. -/
def WriteOp.leadsBody (op : WriteOp Part) : Prop :=
  match op.data with
  | .preamble r => r.body ≠ [] ∧ op.submits = []
  | .body _ => False

/-- The connection has sent the responses `done`, and serves a slot of responses: the
current one is in the slot of the connection with its preamble or with its body. -/
inductive Serving (c : TcpConnection Part) (done : List Response) : Slot Submission → Prop where
  | idle : c.writeSlot = ⟨none, []⟩ → c.sent = done.flatMap Response.parts →
      Serving c done ⟨none, []⟩
  | preamble (u : Submission) (op : WriteOp Part) (ops : List (WriteOp Part))
      (waiting : List Submission) : u.slotOps = op :: ops →
      c.writeSlot = ⟨some op, ops ++ waiting.flatMap Submission.slotOps⟩ →
      c.sent = done.flatMap Response.parts → Serving c done ⟨some u, waiting⟩
  | body (u : Submission) (waiting : List Submission) : u.response.body ≠ [] →
      c.writeSlot = ⟨some (bodyWrite u.response).untimed, waiting.flatMap Submission.slotOps⟩ →
      c.sent = done.flatMap Response.parts ++ [.preamble u.response] →
      Serving c done ⟨some u, waiting⟩

theorem serving_submit {c : TcpConnection Part} {done : List Response} {q : Slot Submission}
    (hc : c.Orderly) (h : Serving c done q) (u : Submission) :
    (c.submit u).Orderly ∧ Serving (c.submit u) done (q.submit u) := by
  have hperf := TcpConnection.performAll_slot hc u.ops
  rw [← Submission.submit_eq] at hperf
  have hslot : (c.submit u).writeSlot = c.writeSlot.submitAll u.slotOps := hperf.slot
  have hsent : (c.submit u).sent = c.sent := congrArg (List.map Prod.fst) hperf.wire
  refine ⟨hperf.orderly, ?_⟩
  cases h with
  | idle hidle hdone =>
    obtain ⟨op, ops, hops⟩ := List.exists_cons_of_ne_nil u.slotOps_ne_nil
    refine .preamble u op ops [] hops ?_ (hsent.trans hdone)
    rw [hslot, hidle, hops, Slot.submitAll_cons, Slot.submit_free, Slot.submitAll_taken]
    simp
  | preamble u₀ op ops waiting hops hcur hdone =>
    refine .preamble u₀ op ops (waiting ++ [u]) hops ?_ (hsent.trans hdone)
    rw [hslot, hcur, Slot.submitAll_taken]
    simp
  | body u₀ waiting hbody hcur hdone =>
    refine .body u₀ (waiting ++ [u]) hbody ?_ (hsent.trans hdone)
    rw [hslot, hcur, Slot.submitAll_taken]
    simp

/-- A response is out, and the next one takes the slot. -/
theorem serving_next {c : TcpConnection Part} {done : List Response} {waiting : List Submission}
    {current : Option (WriteOp Part)} {u : Submission}
    (hslot : c.writeSlot = Slot.complete ⟨current, waiting.flatMap Submission.slotOps⟩ [])
    (hsent : c.sent = done.flatMap Response.parts) :
    Serving c done (Slot.complete ⟨some u, waiting⟩ []) := by
  cases waiting with
  | nil => exact .idle hslot hsent
  | cons u waiting =>
    obtain ⟨op, ops, hops⟩ := List.exists_cons_of_ne_nil u.slotOps_ne_nil
    rw [List.flatMap_cons, hops] at hslot
    exact .preamble u op ops waiting hops hslot hsent

/-- The queue is rotated by one response, unless the front one is of two writes. -/
theorem rotate_slotOps (waiting : List Submission)
    (h : ∀ op ∈ (waiting.flatMap Submission.slotOps).head?, ¬ op.leadsBody) :
    (waiting.flatMap Submission.slotOps).rotate 1 =
      (waiting.rotate 1).flatMap Submission.slotOps := by
  cases waiting with
  | nil => rfl
  | cons u waiting =>
    have hsingle : ∃ op, u.slotOps = [op] := by
      rcases u.slotOps_cases with ⟨op, hops, -⟩ | ⟨op, hops, hdata, hnext, hbody⟩ | ⟨op, hops, -⟩
      · exact ⟨op, hops⟩
      · have hlead : op.leadsBody := by simp [WriteOp.leadsBody, hdata, hnext, hbody]
        exact absurd hlead (h op (by simp [hops]))
      · exact ⟨op, hops⟩
    obtain ⟨op, hops⟩ := hsingle
    simp [hops]

/-- What a completion does: a response is finished, or its body takes the slot, and
then the queue may have been rotated. -/
theorem serving_written {c c' : TcpConnection Part} {done : List Response} {q : Slot Submission}
    (hc : c.Orderly) (h : Serving c done q) (hrun : c.written = some c')
    (hfront : c.StartsBody → ∀ op ∈ c.writes.pending.head?, ¬ op.leadsBody) :
    c'.Orderly ∧
      ((∃ u, q.current = some u ∧ Serving c' (done ++ [u.response]) (q.complete [])) ∨
        Serving c' done q ∨
        (c.StartsBody ∧
          c.writes.pending.map WriteOp.untimed = q.pending.flatMap Submission.slotOps ∧
          ∃ u, q.current = some u ∧ Serving c' done ⟨some u, q.pending.rotate 1⟩)) := by
  obtain ⟨op, hcur, hc', hslot, hsent, hstarts⟩ := TcpConnection.written_slot hc hrun
  refine ⟨hc', ?_⟩
  cases h with
  | idle hidle hdone => exact absurd hcur (by simp [hidle])
  | preamble u op' ops waiting hops hslot₀ hdone =>
    obtain rfl : op' = op := by simpa [hslot₀] using hcur
    rw [hslot₀] at hslot
    rw [hdone] at hsent
    rcases u.slotOps_cases with ⟨o, ho, hdata, hnext, hbody⟩ | ⟨o, ho, hdata, hnext, hbody⟩ |
      ⟨o, ho, hdata, hnext, hbody⟩
    · -- the handler submits the body, and the queue is rotated
      obtain ⟨rfl, rfl⟩ := List.cons.inj (hops.symm.trans ho)
      have hbegins := hstarts (by simp [hnext])
      have hpend : c.writes.pending.map WriteOp.untimed = waiting.flatMap Submission.slotOps := by
        simpa [TcpConnection.writeSlot] using congrArg Slot.pending hslot₀
      have hrotate := rotate_slotOps waiting (by
        intro o' ho'
        rw [← hpend, List.head?_map, Option.mem_def, Option.map_eq_some_iff] at ho'
        obtain ⟨o, ho, rfl⟩ := ho'
        exact hfront hbegins o ho)
      refine Or.inr (Or.inr ⟨hbegins, hpend, u, rfl, .body u _ hbody ?_ (hdata ▸ hsent)⟩)
      rw [hslot, hnext, Slot.complete_handoff, List.nil_append, List.append_nil, hrotate]
    · -- the body is the first of the queue
      obtain ⟨rfl, rfl⟩ := List.cons.inj (hops.symm.trans ho)
      refine Or.inr (Or.inl (.body u _ hbody ?_ (hdata ▸ hsent)))
      rw [hslot, hnext, Slot.complete_quiet]
      rfl
    · obtain ⟨rfl, rfl⟩ := List.cons.inj (hops.symm.trans ho)
      refine Or.inl ⟨u, rfl, serving_next (hnext ▸ hslot) ?_⟩
      rw [hsent, hdata]
      simp [Response.parts, hbody]
  | body u waiting hbody hslot₀ hdone =>
    obtain rfl : (bodyWrite u.response).untimed = op := by simpa [hslot₀] using hcur
    rw [hslot₀] at hslot
    refine Or.inl ⟨u, rfl, serving_next hslot ?_⟩
    rw [hsent, hdone]
    simp [Response.parts, hbody, bodyWrite, WriteOp.untimed]

end StateDb
