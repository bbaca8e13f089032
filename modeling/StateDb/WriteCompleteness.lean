/-
  StateDb/WriteCompleteness.lean
  ==============================
  **When every byte of a write reaches the wire** (`async_write_raw`,
  `async_write_message`, `handle_write_operation`).

  A write is one `async_write_some`, and its completion is taken for the end of the
  operation, whatever count it reports.  So the bytes of every operation reach the wire
  before its handler is called and before the next operation starts exactly when no
  completion reports less than the whole buffer (`writes_complete_iff`).
-/
import StateDb.Lib.Run
import StateDb.Writes

namespace StateDb

open Lib

variable {D : Type}

/-! ## The log of the writes -/

def WriteEntry.number : WriteEntry D → Nat
  | .started n _ => n
  | .sent n _ _ => n
  | .called n _ _ => n

/-- How many bytes of operation `n` an entry puts on the wire. -/
def WriteEntry.sentFor (n : Nat) : WriteEntry D → Nat
  | .sent m _ count => if m = n then count else 0
  | _ => 0

/-- How many bytes of operation `n` reached the wire. -/
def sentCount (n : Nat) (log : List (WriteEntry D)) : Nat := (log.map (WriteEntry.sentFor n)).sum

@[simp] theorem sentCount_append (n : Nat) (log log' : List (WriteEntry D)) :
    sentCount n (log ++ log') = sentCount n log + sentCount n log' := by
  simp [sentCount]

@[simp] theorem sentCount_nil (n : Nat) : sentCount n ([] : List (WriteEntry D)) = 0 := rfl

@[simp] theorem sentCount_cons (n : Nat) (e : WriteEntry D) (log : List (WriteEntry D)) :
    sentCount n (e :: log) = e.sentFor n + sentCount n log := by
  simp [sentCount]

theorem sentCount_eq_zero {n : Nat} {log : List (WriteEntry D)} (h : ∀ e ∈ log, e.number < n) :
    sentCount n log = 0 := by
  refine List.sum_eq_zero ?_
  intro k hk
  obtain ⟨e, he, rfl⟩ := List.mem_map.mp hk
  have hlt := h e he
  cases e with
  | started m d => rfl
  | called m d ok => rfl
  | sent m d count =>
    have hne : m ≠ n := Nat.ne_of_lt hlt
    exact if_neg hne

variable [Wire D]

/-- What must be on the wire before an entry: all of an operation before its handler is
called with success, and all of every earlier operation before one is started. -/
def Ready (log : List (WriteEntry D)) : WriteEntry D → Prop
  | .called n data true => sentCount n log = (Wire.bytes data).length
  | .started _ _ => ∀ n data, .started n data ∈ log → sentCount n log = (Wire.bytes data).length
  | _ => True

def Complete (log : List (WriteEntry D)) : Prop :=
  ∀ pre e, pre ++ [e] <+: log → Ready pre e

theorem complete_nil : Complete ([] : List (WriteEntry D)) := by
  intro pre e h
  exact absurd (List.prefix_nil.mp h) (by simp)

theorem complete_concat {log : List (WriteEntry D)} {e : WriteEntry D} :
    Complete (log ++ [e]) ↔ Complete log ∧ Ready log e := by
  constructor
  · intro h
    exact ⟨fun pre e' hpre => h pre e' (hpre.trans (List.prefix_append log [e])),
      h log e (List.prefix_refl _)⟩
  · rintro ⟨hlog, he⟩ pre e' hpre
    rcases List.prefix_concat_iff.mp hpre with heq | hlt
    · obtain ⟨rfl, hsame⟩ := List.append_inj' heq rfl
      obtain rfl := List.singleton_inj.mp hsame
      exact he
    · exact hlog pre e' hlt

theorem Complete.of_prefix {log log' : List (WriteEntry D)} (h : Complete log')
    (hpre : log <+: log') :
    Complete log :=
  fun pre e hlog => h pre e (hlog.trans hpre)

/-! ## The writes of a connection -/

inductive WriteEvent (D : Type) where
  | submit (op : WriteOp D)
  /-- The write of the socket succeeds, with so many bytes. -/
  | written (count : Nat)

namespace TcpConnection

def writeStep (c : TcpConnection D) : WriteEvent D → Option (TcpConnection D)
  | .submit op => some (c.perform op)
  | .written count => c.writeDone false count

/-- A completion reports the whole buffer. -/
def FullWrite (c : TcpConnection D) : WriteEvent D → Prop
  | .submit _ => True
  | .written count => ∀ o ∈ c.writes.outstanding, count = (Wire.bytes o.2.data).length

/-- Nothing of the write that the socket has is on the wire. -/
structure Counted (c : TcpConnection D) : Prop where
  exclusive : c.writes.Exclusive
  numbered : ∀ e ∈ c.log, e.number < c.writes.operationDone.length
  unsent : ∀ o ∈ c.writes.outstanding, o.1 < c.writes.operationDone.length ∧
    sentCount o.1 c.log = 0 ∧ ∀ data, .started o.1 data ∈ c.log → data = o.2.data

/-- Every operation was written to its end, but for the one that the socket has. -/
structure Finished (c : TcpConnection D) : Prop where
  complete : Complete c.log
  finished : ∀ n data, .started n data ∈ c.log →
    sentCount n c.log = (Wire.bytes data).length ∨ ∃ o ∈ c.writes.outstanding, o.1 = n

theorem startWrite_log (c : TcpConnection D) (op : WriteOp D) :
    (c.startWrite op).log = c.log ++ [.started c.writes.operationDone.length op.data] := rfl

theorem Counted.startWrite {c : TcpConnection D} (hc : c.Counted)
    (hfree : c.writes.inProgress = false) (op : WriteOp D) : (c.startWrite op).Counted := by
  have hnone := hc.exclusive.outstanding_nil hfree
  have hdone :
      (c.startWrite op).writes.operationDone.length = c.writes.operationDone.length + 1 := by
    simp [TcpConnection.startWrite]
  constructor
  · exact hc.exclusive.start hfree op op.timeout
  · intro e he
    rw [hdone]
    rcases List.mem_append.mp he with hold | hnew
    · exact Nat.lt_succ_of_lt (hc.numbered e hold)
    · rw [List.mem_singleton.mp hnew]
      exact Nat.lt_succ_self _
  · intro o ho
    have hout : (c.startWrite op).writes.outstanding = [(c.writes.operationDone.length, op)] := by
      rw [TcpConnection.startWrite, Direction.start_outstanding, hnone]
      rfl
    rw [hout, List.mem_singleton] at ho
    subst ho
    refine ⟨by rw [hdone]; exact Nat.lt_succ_self _, ?_, ?_⟩
    · rw [startWrite_log, sentCount_append, sentCount_eq_zero hc.numbered]
      rfl
    · intro data hstarted
      rw [startWrite_log, List.mem_append, List.mem_singleton] at hstarted
      rcases hstarted with hold | hnew
      · exact absurd (hc.numbered _ hold) (Nat.lt_irrefl _)
      · exact (WriteEntry.started.inj hnew).2

theorem Counted.perform {c : TcpConnection D} (hc : c.Counted) (op : WriteOp D) :
    (c.perform op).Counted := by
  rcases perform_cases c op with heq | ⟨op', constructed, heq⟩ | ⟨hfree, heq⟩
  · rw [heq]
    exact hc
  · rw [heq]
    exact ⟨hc.exclusive, hc.numbered, hc.unsent⟩
  · rw [heq]
    exact hc.startWrite hfree op

theorem Finished.perform {c : TcpConnection D} (hc : c.Counted) (hf : c.Finished) (op : WriteOp D) :
    (c.perform op).Finished := by
  rcases perform_cases c op with heq | ⟨op', constructed, heq⟩ | ⟨hfree, heq⟩
  · rw [heq]
    exact hf
  · rw [heq]
    exact ⟨hf.complete, hf.finished⟩
  · rw [heq]
    have hnone := hc.exclusive.outstanding_nil hfree
    have hall : ∀ n data, .started n data ∈ c.log → sentCount n c.log =
        (Wire.bytes data).length := by
      intro n data hmem
      rcases hf.finished n data hmem with hsent | ⟨o, ho, -⟩
      · exact hsent
      · exact absurd ho (by simp [hnone])
    constructor
    · rw [startWrite_log, complete_concat]
      exact ⟨hf.complete, hall⟩
    · intro n data hmem
      rw [startWrite_log, List.mem_append, List.mem_singleton] at hmem
      rw [startWrite_log, sentCount_append]
      rcases hmem with hold | hnew
      · exact Or.inl (hall n data hold)
      · obtain ⟨rfl, -⟩ := WriteEntry.started.inj hnew
        refine Or.inr ⟨(c.writes.operationDone.length, op), ?_, rfl⟩
        rw [startWrite, Direction.start_outstanding]
        exact List.mem_append_right _ List.mem_cons_self

omit [Wire D] in
theorem atHandler_log (c : TcpConnection D) (number : Nat) (op : WriteOp D) (count : Nat) :
    (c.atHandler number op count).log =
      c.log ++ [.sent number op.data count] ++ [.called number op.data true] := rfl

omit [Wire D] in
theorem Counted.atHandler {c : TcpConnection D} (hc : c.Counted) {number : Nat} {op : WriteOp D}
    (hout : c.writes.outstanding = [(number, op)]) (count : Nat) :
    (c.atHandler number op count).Counted := by
  have hnumber := (hc.unsent (number, op) (by simp [hout])).1
  have hdone : (c.atHandler number op count).writes.operationDone.length =
      c.writes.operationDone.length := by
    simp [TcpConnection.atHandler, Direction.release, Direction.cancel, Direction.setDone]
  refine ⟨Or.inl ⟨rfl, rfl⟩, ?_, ?_⟩
  · intro e he
    rw [hdone]
    rw [atHandler_log, List.append_assoc] at he
    rcases List.mem_append.mp he with hold | hnew
    · exact hc.numbered e hold
    · have heq : e.number = number := by
        rcases List.mem_cons.mp hnew with rfl | hlast
        · rfl
        · rw [List.mem_singleton.mp hlast]
          rfl
      rw [heq]
      exact hnumber
  · intro o ho
    exact absurd ho (List.not_mem_nil)

theorem Finished.atHandler {c : TcpConnection D} (hc : c.Counted) (hf : c.Finished) {number : Nat}
    {op : WriteOp D} (hout : c.writes.outstanding = [(number, op)]) {count : Nat}
    (hcount : count = (Wire.bytes op.data).length) : (c.atHandler number op count).Finished := by
  obtain ⟨-, hzero, hdata⟩ := hc.unsent (number, op) (by simp [hout])
  constructor
  · rw [atHandler_log, complete_concat, complete_concat]
    refine ⟨⟨hf.complete, trivial⟩, ?_⟩
    simp [Ready, WriteEntry.sentFor, hzero, hcount]
  · intro n data hstarted
    have hold : .started n data ∈ c.log := by simpa [atHandler_log] using hstarted
    left
    by_cases hn : number = n
    · subst hn
      have hsame : data = op.data := hdata data hold
      simp [atHandler_log, WriteEntry.sentFor, hzero, hcount, hsame]
    · have hsent : sentCount n c.log = (Wire.bytes data).length := by
        rcases hf.finished n data hold with hsent | ⟨o, ho, rfl⟩
        · exact hsent
        · rw [hout, List.mem_singleton] at ho
          exact absurd (by rw [ho]) hn
      simp [atHandler_log, WriteEntry.sentFor, hn, hsent]

theorem Counted.step {c c' : TcpConnection D} {e : WriteEvent D} (hc : c.Counted)
    (h : c.writeStep e = some c') : c'.Counted := by
  cases e with
  | submit op =>
    obtain rfl := Option.some.inj h
    exact hc.perform op
  | written count =>
    obtain ⟨number, op, hout, -, -, rfl⟩ := writeDone_eq_some hc.exclusive h
    exact perform_induction Counted (fun c op hc => Counted.perform hc op)
      (fun c rest hc => ⟨hc.exclusive, hc.numbered, hc.unsent⟩) (hc.atHandler hout count) op.next

theorem Finished.step {c c' : TcpConnection D} {e : WriteEvent D} (hc : c.Counted ∧ c.Finished)
    (hfull : c.FullWrite e) (h : c.writeStep e = some c') : c'.Counted ∧ c'.Finished := by
  obtain ⟨hc, hf⟩ := hc
  cases e with
  | submit op =>
    obtain rfl := Option.some.inj h
    exact ⟨hc.perform op, Finished.perform hc hf op⟩
  | written count =>
    obtain ⟨number, op, hout, -, -, rfl⟩ := writeDone_eq_some hc.exclusive h
    have hcount : count = (Wire.bytes op.data).length := hfull (number, op) (by simp [hout])
    exact perform_induction (fun c => c.Counted ∧ c.Finished)
      (fun c op hc => ⟨Counted.perform hc.1 op, Finished.perform hc.1 hc.2 op⟩)
      (fun c rest hc => ⟨⟨hc.1.exclusive, hc.1.numbered, hc.1.unsent⟩,
        ⟨hc.2.complete, hc.2.finished⟩⟩)
      ⟨hc.atHandler hout count, Finished.atHandler hc hf hout hcount⟩ op.next

/-! ## Runs -/

theorem perform_log (c : TcpConnection D) (op : WriteOp D) : c.log <+: (c.perform op).log := by
  rcases perform_cases c op with heq | ⟨op', constructed, heq⟩ | ⟨-, heq⟩
  · rw [heq]
  · rw [heq]
  · rw [heq]
    exact List.prefix_append _ _

theorem writeStep_log {c c' : TcpConnection D} {e : WriteEvent D} (hc : c.Counted)
    (h : c.writeStep e = some c') : c.log <+: c'.log := by
  cases e with
  | submit op =>
    obtain rfl := Option.some.inj h
    exact perform_log c op
  | written count =>
    obtain ⟨number, op, -, -, -, rfl⟩ := writeDone_eq_some hc.exclusive h
    refine perform_induction (fun d => c.log <+: d.log)
      (fun d op hd => hd.trans (perform_log d op)) (fun d rest hd => hd) ?_ op.next
    rw [atHandler_log, List.append_assoc]
    exact List.prefix_append _ _

theorem run_log {c c' : TcpConnection D} {es : List (WriteEvent D)} (hc : c.Counted)
    (h : run writeStep c es = some c') : c.log <+: c'.log := by
  induction es generalizing c with
  | nil =>
    obtain rfl := Option.some.inj h
    exact List.prefix_refl _
  | cons e es ih =>
    obtain ⟨c₁, hfirst, hrest⟩ := run_cons_eq_some.mp h
    exact (writeStep_log hc hfirst).trans (ih (hc.step hfirst) hrest)

/-- A completion that reports less than the buffer is followed by the call of the
handler. -/
theorem fullWrite_of_complete {c c' : TcpConnection D} {e : WriteEvent D} (hc : c.Counted)
    (h : c.writeStep e = some c') (hcomplete : Complete c'.log) : c.FullWrite e := by
  cases e with
  | submit op => trivial
  | written count =>
    obtain ⟨number, op, hout, -, -, rfl⟩ := writeDone_eq_some hc.exclusive h
    obtain ⟨-, hzero, -⟩ := hc.unsent (number, op) (by simp [hout])
    have hlog : (c.atHandler number op count).log <+:
        ((c.atHandler number op count).performAll op.next).performPending.log :=
      perform_induction (fun d => (c.atHandler number op count).log <+: d.log)
        (fun d op hd => hd.trans (perform_log d op)) (fun d rest hd => hd)
        (List.prefix_refl _) op.next
    have hready := (complete_concat.mp (hcomplete.of_prefix hlog)).2
    intro o ho
    rw [hout, List.mem_singleton] at ho
    subst ho
    simpa [Ready, WriteEntry.sentFor, hzero] using hready

theorem along_of_complete {c c' : TcpConnection D} {es : List (WriteEvent D)} (hc : c.Counted)
    (h : run writeStep c es = some c') (hcomplete : Complete c'.log) :
    Along writeStep FullWrite c es := by
  induction es generalizing c with
  | nil => trivial
  | cons e es ih =>
    obtain ⟨c₁, hfirst, hrest⟩ := run_cons_eq_some.mp h
    have hc₁ := hc.step hfirst
    refine ⟨fullWrite_of_complete hc hfirst (hcomplete.of_prefix (run_log hc₁ hrest)), ?_⟩
    intro c₂ hsecond
    obtain rfl : c₁ = c₂ := Option.some.inj (hfirst.symm.trans hsecond)
    exact ih hc₁ hrest

omit [Wire D] in
theorem counted_fresh (memory : Nat → Nat) : (fresh memory : TcpConnection D).Counted :=
  ⟨Or.inl ⟨rfl, rfl⟩, fun _ he => absurd he List.not_mem_nil,
    fun _ ho => absurd ho List.not_mem_nil⟩

theorem finished_fresh (memory : Nat → Nat) : (fresh memory : TcpConnection D).Finished :=
  ⟨complete_nil, fun _ _ hmem => absurd hmem List.not_mem_nil⟩

/-- In every run of submissions and successful completions, the bytes of an operation
are on the wire before its handler is called and before the next operation starts,
exactly when every completion reports the whole buffer. -/
theorem writes_complete_iff {memory : Nat → Nat} {es : List (WriteEvent D)} {c : TcpConnection D}
    (h : run writeStep (fresh memory) es = some c) :
    Complete c.log ↔ Along writeStep FullWrite (fresh memory) es := by
  constructor
  · exact along_of_complete (counted_fresh memory) h
  · intro hfull
    exact (run_invariant (fun c : TcpConnection D => c.Counted ∧ c.Finished) Finished.step
      ⟨counted_fresh memory, finished_fresh memory⟩ hfull h).2.complete

/-- Memory is written as it is. -/
instance : Wire (List UInt8) := ⟨id⟩

/-- A `make_pong_message`. -/
def pongWrite : WriteOp (List UInt8) := ⟨.message, (pong 0).preambleBytes, [], netTimeout, true⟩

/-- Six bytes are a whole pong. -/
theorem writes_complete_iff_pong : ∃ c : TcpConnection (List UInt8),
    run writeStep (fresh fun _ => 0) [.submit pongWrite, .written 6] = some c ∧ Complete c.log := by
  refine ⟨_, rfl, (@writes_complete_iff _ _ (fun _ => 0) [.submit pongWrite, .written 6] _ rfl).mpr
    ?_⟩
  refine ⟨trivial, ?_⟩
  intro c hsubmit
  obtain rfl := Option.some.inj hsubmit
  refine ⟨?_, fun _ _ => trivial⟩
  intro o ho
  rw [List.mem_singleton.mp ho]
  rfl

/-- One byte of a pong is written, and its handler is called with success. -/
theorem short_write_not_complete : ∃ c : TcpConnection (List UInt8),
    run writeStep (fresh fun _ => 0) [.submit pongWrite, .written 1] = some c ∧
      ¬ Complete c.log := by
  refine ⟨_, rfl, ?_⟩
  intro hcomplete
  have hready : 1 = 6 := hcomplete [.started 0 pongWrite.data, .sent 0 pongWrite.data 1]
    (.called 0 pongWrite.data true) (List.prefix_refl _)
  exact absurd hready (by decide)

end TcpConnection

end StateDb
