/-
  StateDb/Delivery.lean
  =====================
  **From the queue of a connection to the wire** (`connection.h`: `async_write_message`;
  `connection.cpp`: `async_write_raw`, `handle_write_operation`).

  Each response that is submitted on a connection is on the wire, is being written, or waits
  (`Delivers`).  The queue is rotated when the body of an update takes the slot.  That neither
  tears a response apart nor lets one overtake another about the same key as long as the first
  write of the queue may go to the end of it (`MayRotate`).

  So it is in every run of the server in which the writes of the connection take their whole
  buffers (`deliversOn_run`): what was submitted on it is delivered, and what is about one
  key in its order.
-/
import StateDb.ServerAnswers
import StateDb.UpdateOrder

namespace StateDb

open Lib

/-! ## Responses about a key -/

/-- The response says what the value of the key is, or that there is none. -/
def Response.isAbout (key : Key) (r : Response) : Bool :=
  (r.id = responseKeyUpdate || r.id = responseKeyDeleted) && r.key = key

/-- The first write of the queue can go to the end of it: it is no part of a response of two
writes, and no write behind it is about its key. -/
def TcpConnection.MayRotate (c : TcpConnection Part) : Prop :=
  ∀ op ∈ c.writes.pending.head?, ¬ op.leadsBody ∧ ∀ key, op.data.response.isAbout key = true →
    ∀ op' ∈ c.writes.pending.tail, op'.data.response.isAbout key = false

/-- A response begins with its preamble. -/
theorem exists_preamble (u : Submission) :
    ∃ op ops, u.slotOps = op :: ops ∧ op.data = .preamble u.response := by
  rcases u.slotOps_cases with ⟨op, hops, hdata, -⟩ | ⟨op, hops, hdata, -⟩ | ⟨op, hops, hdata, -⟩
  · exact ⟨op, _, hops, hdata⟩
  · exact ⟨op, _, hops, hdata⟩
  · exact ⟨op, _, hops, hdata⟩

/-- The same for the responses that wait. -/
theorem TcpConnection.MayRotate.waiting {c : TcpConnection Part} (h : c.MayRotate)
    {waiting : List Submission}
    (hpending : c.writes.pending.map WriteOp.untimed = waiting.flatMap Submission.slotOps)
    {key : Key} :
    ∀ u ∈ waiting.head?, u.response.isAbout key = true →
      ∀ u' ∈ waiting.tail, ¬ u'.response.isAbout key = true := by
  cases waiting with
  | nil => exact fun u hu => absurd hu (by simp)
  | cons u waiting =>
    intro u₀ hu₀ habout u' hu'
    obtain rfl := Option.some.inj hu₀
    obtain ⟨op, ops, hops, hdata⟩ := exists_preamble u
    rw [List.flatMap_cons, hops, List.cons_append] at hpending
    obtain ⟨first, rest, hqueue, hfirst, hrest⟩ := List.map_eq_cons_iff.mp hpending
    have hresponse : first.data.response = u.response := by
      rw [← hfirst] at hdata
      exact congrArg Part.response hdata
    -- the preamble of `u'` is behind the first write
    obtain ⟨op', ops', hops', hdata'⟩ := exists_preamble u'
    have hmem : op' ∈ rest.map WriteOp.untimed := by
      rw [hrest]
      refine List.mem_append_right _ (List.mem_flatMap.mpr ⟨u', hu', ?_⟩)
      rw [hops']
      exact List.mem_cons_self
    obtain ⟨behind, hbehind, hsame⟩ := List.mem_map.mp hmem
    have hresponse' : behind.data.response = u'.response := by
      rw [← hsame] at hdata'
      exact congrArg Part.response hdata'
    have hnot := (h first (by rw [hqueue]; rfl)).2 key (by rw [hresponse]; exact habout) behind
      (by rw [hqueue]; exact hbehind)
    rw [hresponse'] at hnot
    simp [hnot]

/-! ## One connection -/

/-- The submissions `us` are delivered: the responses `done` are on the wire, and the others are
in the slot `q`.  All writes took their whole buffers. -/
structure Delivers (c : TcpConnection Part) (us : List Submission) (done : List Response)
    (q : Slot Submission) : Prop where
  orderly : c.Orderly
  serving : Serving c done q
  whole : ∀ p ∈ c.wire, p.2 = (Wire.bytes p.1).length
  perm : (inOrder done q).Perm (us.map Submission.response)
  order : ∀ key, (inOrder done q).filter (Response.isAbout key) =
    (us.map Submission.response).filter (Response.isAbout key)

namespace Delivers

variable {c c' : TcpConnection Part} {us : List Submission} {done : List Response}
  {q : Slot Submission}

theorem fresh (hwrites : c.writes = {}) (hlog : c.log = []) : Delivers c [] [] ⟨none, []⟩ := by
  have hsent : c.sent = [] := by rw [TcpConnection.sent, TcpConnection.wire, hlog]; rfl
  refine ⟨⟨Or.inl ?_, ?_⟩, .idle ?_ hsent, ?_, .refl _, fun _ => rfl⟩
  · rw [hwrites]
    exact ⟨rfl, rfl⟩
  · rw [hwrites]
    exact fun op hop => absurd hop List.not_mem_nil
  · rw [TcpConnection.writeSlot, hwrites]
    rfl
  · rw [TcpConnection.wire, hlog]
    exact fun p hp => absurd hp List.not_mem_nil

/-- The slot and the wire are the same. -/
theorem of_slot (h : Delivers c us done q) (horderly : c'.Orderly)
    (hslot : c'.writeSlot = c.writeSlot) (hwire : c'.wire = c.wire) : Delivers c' us done q := by
  refine ⟨horderly, ?_, by rw [hwire]; exact h.whole, h.perm, h.order⟩
  have hsent : c'.sent = c.sent := congrArg (List.map Prod.fst) hwire
  cases h.serving with
  | idle hidle hdone => exact .idle (hslot.trans hidle) (hsent.trans hdone)
  | preamble u op ops waiting hops hcur hdone =>
    exact .preamble u op ops waiting hops (hslot.trans hcur) (hsent.trans hdone)
  | body u waiting hbody hcur hdone =>
    exact .body u waiting hbody (hslot.trans hcur) (hsent.trans hdone)

theorem same (h : Delivers c us done q) (hsame : TcpConnection.SameWrites c c') :
    Delivers c' us done q := by
  refine h.of_slot ⟨?_, ?_⟩ ?_ ?_
  · rw [hsame.writes]
    exact h.orderly.exclusive
  · rw [hsame.writes]
    exact h.orderly.kept
  · rw [TcpConnection.writeSlot, TcpConnection.writeSlot, hsame.writes]
  · rw [TcpConnection.wire, TcpConnection.wire, hsame.log]

/-- A wait of the timer ends. -/
theorem waitEnds (h : Delivers c us done q) {i : Nat} (hwait : c.writeWaitEnds i = some c') :
    Delivers c' us done q := by
  obtain ⟨waits, rfl | rfl⟩ := TcpConnection.writeWaitEnds_cases hwait
  · exact h.of_slot ⟨h.orderly.exclusive, h.orderly.kept⟩ rfl rfl
  · exact h.of_slot ⟨h.orderly.exclusive, h.orderly.kept⟩ rfl rfl

theorem submit (h : Delivers c us done q) (u : Submission) :
    ∃ q', Delivers (c.submit u) (us ++ [u]) done q' := by
  obtain ⟨horderly, hserving⟩ := serving_submit h.orderly h.serving u
  have hnone : q.current = none → q.pending = [] := by
    intro hcurrent
    cases h.serving with
    | idle => rfl
    | preamble => cases hcurrent
    | body => cases hcurrent
  have hinOrder : inOrder done (q.submit u) = inOrder done q ++ [u.response] := by
    obtain ⟨current, pending⟩ := q
    cases current with
    | none =>
      obtain rfl := hnone rfl
      simp [inOrder]
    | some u₀ => simp [inOrder]
  have hwire : (c.submit u).wire = c.wire := by
    rw [Submission.submit_eq]
    exact (TcpConnection.performAll_slot h.orderly u.ops).wire
  refine ⟨q.submit u, horderly, hserving, by rw [hwire]; exact h.whole, ?_, ?_⟩
  · rw [hinOrder, List.map_append]
    exact h.perm.append_right _
  · intro key
    rw [hinOrder, List.map_append, List.filter_append, List.filter_append, h.order key]
    rfl

theorem submitAll (h : Delivers c us done q) (us' : List Submission) :
    ∃ q', Delivers (us'.foldl TcpConnection.submit c) (us ++ us') done q' := by
  induction us' generalizing c us q with
  | nil => exact ⟨q, by rw [List.append_nil]; exact h⟩
  | cons u us' ih =>
    obtain ⟨q₁, hfirst⟩ := h.submit u
    obtain ⟨q', hrest⟩ := ih hfirst
    exact ⟨q', by rw [List.append_assoc] at hrest; exact hrest⟩

/-- The write of the socket succeeds with its whole buffer. -/
theorem written (h : Delivers c us done q) (hwritten : c.written = some c')
    (hrotate : c.StartsBody → c.MayRotate) : ∃ done' q', Delivers c' us done' q' := by
  have hwhole : ∀ p ∈ c'.wire, p.2 = (Wire.bytes p.1).length := by
    have hdone := hwritten
    unfold TcpConnection.written at hdone
    split at hdone
    · cases hdone
    · rename_i o rest hout
      obtain ⟨op, hcur, -, -, hwire, -, -⟩ := TcpConnection.writeDone_slot h.orderly hdone
      have hop : o.2.untimed = op := by simpa [TcpConnection.writeSlot, hout] using hcur
      intro p hp
      rw [hwire] at hp
      rcases List.mem_append.mp hp with hold | hnew
      · exact h.whole p hold
      · rw [List.mem_singleton.mp hnew, ← hop]
        rfl
  have hfront : c.StartsBody → ∀ op ∈ c.writes.pending.head?, ¬ op.leadsBody :=
    fun hstarts op hop => (hrotate hstarts op hop).1
  obtain ⟨horderly, hcases⟩ := serving_written h.orderly h.serving hwritten hfront
  rcases hcases with ⟨u, hu, hnext⟩ | hbody | ⟨hstarts, hpending, u, hu, hrotated⟩
  · -- the response of `u` is out, and the next one takes the slot
    have hsame : inOrder (done ++ [u.response]) (q.complete []) = inOrder done q := by
      rw [Slot.complete_quiet, inOrder, inOrder, hu]
      cases q.pending <;> simp
    refine ⟨_, _, horderly, hnext, hwhole, ?_, ?_⟩
    · rw [hsame]
      exact h.perm
    · rw [hsame]
      exact h.order
  · exact ⟨done, q, horderly, hbody, hwhole, h.perm, h.order⟩
  · -- the body of `u` took the slot, and the queue was rotated
    have hrest : inOrder done ⟨some u, q.pending.rotate 1⟩ =
        done ++ u.response :: (q.pending.map Submission.response).rotate 1 := by
      simp [inOrder, List.map_rotate]
    have hinOrder : inOrder done q = done ++ u.response :: q.pending.map Submission.response := by
      simp [inOrder, hu]
    refine ⟨done, _, horderly, hrotated, hwhole, ?_, ?_⟩
    · rw [hrest]
      refine .trans ?_ h.perm
      rw [hinOrder]
      exact ((List.rotate_perm _ 1).cons _).append_left _
    · intro key
      have hwaiting : ((q.pending.map Submission.response).rotate 1).filter (Response.isAbout key) =
          (q.pending.map Submission.response).filter (Response.isAbout key) := by
        apply Slot.filter_rotate
        intro r hr habout r' hr'
        rw [List.head?_map] at hr
        rw [← List.map_tail] at hr'
        obtain ⟨v, hv, rfl⟩ := Option.map_eq_some_iff.mp hr
        obtain ⟨v', hv', rfl⟩ := List.mem_map.mp hr'
        exact (hrotate hstarts).waiting hpending v hv habout v' hv'
      rw [hrest, ← h.order key, hinOrder, List.filter_append, List.filter_append, List.filter_cons,
        List.filter_cons, hwaiting]

end Delivers

/-! ## A connection of the server -/

/-- The writes of the connection `j` succeed, each with its whole buffer, and when the body of an
update takes the slot, the first write of the queue can go to the end. -/
def WritesWhole (j : Nat) (sv : Server) : ServerEvent → Prop
  | .connection i (.written count) => i = j → ∀ a ∈ sv.accepted[j]?,
      (∀ o ∈ a.session.conn.writes.outstanding, count = (Wire.bytes o.2.data).length) ∧
        (a.session.conn.StartsBody → a.session.conn.MayRotate)
  | .connection i (.writeFails _) => i ≠ j
  | _ => True

/-- The connection `j` delivers the submissions. -/
def DeliversOn (j : Nat) (sv : Server) (us : List Submission) : Prop :=
  ∃ a ∈ sv.accepted[j]?, ∃ done q, Delivers a.session.conn us done q

section Server

variable {cfg : ServerConfig} {j : Nat} {sv sv' : Server} {us : List Submission}

/-- A connection that was just accepted. -/
theorem deliversOn_accepted (sv : Server) (id : Nat) (memory : Nat → Nat) (stream : List UInt8) :
    DeliversOn sv.accepted.length (sv.handleAccept id memory stream) [] :=
  ⟨⟨id, startSession sv.db memory stream⟩, by simp [Server.handleAccept],
    [], _, .fresh rfl rfl⟩

/-- Something happens to the writes of the connection. -/
theorem delivers_write {a : Accepted} (ha : a ∈ sv.accepted[j]?) {s s' : Session}
    (hconn : s.conn = a.session.conn) {done : List Response} {q : Slot Submission}
    (h : Delivers s.conn us done q) {e : ConnectionEvent} (hwrite : e.isWrite = true)
    (hcond : WritesWhole j sv (.connection j e)) (hs' : connectionStep cfg s e = some s') :
    ∃ done' q', Delivers s'.conn us done' q' := by
  have hfault := (connectionStep_cases hs').1
  unfold connectionStep at hs'
  rw [if_neg (by simp [hfault])] at hs'
  cases e with
  | written count =>
    obtain ⟨conn, hdone, rfl⟩ := Option.map_eq_some_iff.mp hs'
    obtain ⟨hcount, hrotate⟩ := hcond rfl a ha
    rw [← hconn] at hcount hrotate
    refine h.written ?_ hrotate
    show s.conn.written = some conn
    unfold TcpConnection.written
    cases hout : s.conn.writes.outstanding with
    | nil =>
      rw [TcpConnection.writeDone, hout] at hdone
      cases hdone
    | cons o rest =>
      rw [hcount o (by rw [hout]; exact List.mem_cons_self)] at hdone
      exact hdone
  | writeWaitEnds i =>
    obtain ⟨conn, hwait, rfl⟩ := Option.map_eq_some_iff.mp hs'
    exact ⟨done, q, h.waitEnds hwait⟩
  | writeFails count => exact absurd rfl hcond
  | read | readFails | readWaitEnds | submitted | database => cases hwrite

theorem deliversOn_step {e : ServerEvent} (h : DeliversOn j sv us) (hcond : WritesWhole j sv e)
    (hstep : sv.step cfg e = some sv') :
    DeliversOn j sv' (us ++ Server.submittedOn cfg j sv sv' e) := by
  obtain ⟨a, ha, done, q, hdone⟩ := h
  obtain ⟨a', ha', hreceived⟩ := Server.step_receives hstep j a ha
  refine ⟨a', ha', ?_⟩
  cases hwrites : Server.writesOn j e with
  | false =>
    rw [if_neg (by simp [hwrites])] at hreceived
    obtain ⟨q', hsubmitted⟩ := hdone.submitAll (Server.submittedOn cfg j sv sv' e)
    exact ⟨done, q', hsubmitted.same hreceived⟩
  | true =>
    rw [if_pos hwrites] at hreceived
    rw [hreceived, List.append_nil]
    cases Server.step_cases hstep with
    | accept id memory stream => cases hwrites
    | remove => cases hwrites
    | connection i b e s' hexternal hb hs' =>
      obtain ⟨rfl, hwrite⟩ : i = j ∧ e.isWrite = true := by simpa [Server.writesOn] using hwrites
      obtain rfl := Option.some.inj (ha.symm.trans hb)
      rw [Server.stepped_self hb] at ha'
      obtain rfl := Option.some.inj ha'
      have hconn : ({ a.session with db := sv.db } : Session).conn = a.session.conn := rfl
      rw [← hconn] at hdone
      exact delivers_write ha hconn hdone hwrite hcond hs'

/-- In every run in which its writes are whole, the connection delivers what is submitted on it. -/
theorem deliversOn_run {es : List ServerEvent} (h : DeliversOn j sv us)
    (hcond : Along (Server.step cfg) (WritesWhole j) sv es)
    (hrun : run (Server.step cfg) sv es = some sv') :
    DeliversOn j sv' (us ++ Server.submissionsOn cfg j sv es) := by
  induction es generalizing sv us with
  | nil =>
    obtain rfl := Option.some.inj hrun
    rw [Server.submissionsOn, List.append_nil]
    exact h
  | cons e es ih =>
    obtain ⟨sv₁, hfirst, hrest⟩ := run_cons_eq_some.mp hrun
    have hnext := ih (deliversOn_step h hcond.1 hfirst) (hcond.2 sv₁ hfirst) hrest
    rwa [Server.submissionsOn_cons hfirst, ← List.append_assoc]

end Server

end StateDb
