/-
  StateDb/ConnectionRuns.lean
  ===========================
  **Every run of a connection**: reads and writes that fail, timers, and what the rest of
  the server submits.

  `sessionStep` knows completions with success only.  Here the socket may also complete
  its read or its write with an error, a wait of a timer may end, and the rest of the
  server may submit any write and change the database at any time.  A read that
  succeeded may be handled after the socket was closed.
-/
import StateDb.SessionSteps

namespace StateDb

open Lib

/-! ## Steps -/

/-- The read that the socket was given completes with an error. -/
def Session.readFails (cfg : ServerConfig) (s : Session) : Option Session :=
  match s.conn.reads.outstanding with
  | [] => none
  | (number, op) :: rest =>
      let conn := { s.conn with reads := { s.conn.reads with outstanding := rest } }
      some ({ s with conn := conn }.handleData cfg true number op)

inductive ConnectionEvent where
  /-- The read of the socket succeeds, with so many bytes. -/
  | read (count : Nat)
  | readFails
  /-- The write of the socket succeeds, with so many bytes. -/
  | written (count : Nat)
  | writeFails (count : Nat)
  | readWaitEnds (i : Nat)
  | writeWaitEnds (i : Nat)
  /-- The rest of the server submits a write. -/
  | submitted (op : WriteOp Part)
  /-- The rest of the server changes the database. -/
  | database (db : Db)

def connectionStep (cfg : ServerConfig) (s : Session) (e : ConnectionEvent) : Option Session :=
  if s.fault.isSome then none
  else
    match e with
    | .read count => s.readDone cfg count
    | .readFails => s.readFails cfg
    | .written count => (s.conn.writeDone false count).map fun conn => { s with conn := conn }
    | .writeFails count => (s.conn.writeDone true count).map fun conn => { s with conn := conn }
    | .readWaitEnds i => (s.conn.readWaitEnds i).map fun conn => { s with conn := conn }
    | .writeWaitEnds i => (s.conn.writeWaitEnds i).map fun conn => { s with conn := conn }
    | .submitted op => some { s with conn := s.conn.perform op }
    | .database db => some { s with db := db }

/-- The counts of the reads that succeeded, in order. -/
def readCounts (es : List ConnectionEvent) : List Nat :=
  es.filterMap fun
    | .read count => some count
    | _ => none

theorem readCounts_append (es es' : List ConnectionEvent) :
    readCounts (es ++ es') = readCounts es ++ readCounts es' := List.filterMap_append

/-! ## What is no business of the reads -/

namespace TcpConnection

variable {D : Type} [Wire D]

/-- The reads that are given to the socket or wait, and their buffer, are the same. -/
structure KeepsReads (c c' : TcpConnection D) : Prop where
  inProgress : c'.reads.inProgress = c.reads.inProgress
  outstanding : c'.reads.outstanding = c.reads.outstanding
  pending : c'.reads.pending = c.reads.pending
  storage : c'.storage = c.storage

omit [Wire D] in
theorem KeepsReads.refl (c : TcpConnection D) : KeepsReads c c := ⟨rfl, rfl, rfl, rfl⟩

omit [Wire D] in
theorem SameReads.keeps {c c' : TcpConnection D} (h : SameReads c c') : KeepsReads c c' :=
  ⟨by rw [h.reads], by rw [h.reads], by rw [h.reads], h.storage⟩

theorem keepsReads_writeDone {c c' : TcpConnection D} {failed : Bool} {count : Nat}
    (h : c.writeDone failed count = some c') : KeepsReads c c' := by
  unfold writeDone at h
  split at h
  · cases h
  · rename_i number op rest hout
    split at h
    · obtain rfl := Option.some.inj h
      unfold handleWriteOperation
      split
      · exact ⟨rfl, rfl, rfl, rfl⟩
      · refine SameReads.keeps (perform_induction (SameReads c)
          (fun d op hd => hd.trans (sameReads_perform d op))
          (fun d rest hd => ⟨hd.reads, hd.storage, hd.isOpen⟩) ?_ op.next)
        exact ⟨rfl, rfl, rfl⟩
    · cases h

omit [Wire D] in
theorem keepsReads_readWaitEnds {c c' : TcpConnection D} {i : Nat}
    (h : c.readWaitEnds i = some c') : KeepsReads c c' := by
  obtain ⟨waits, rfl | rfl⟩ := readWaitEnds_cases h <;> exact ⟨rfl, rfl, rfl, rfl⟩

omit [Wire D] in
theorem keepsReads_writeWaitEnds {c c' : TcpConnection D} {i : Nat}
    (h : c.writeWaitEnds i = some c') : KeepsReads c c' := by
  obtain ⟨waits, rfl | rfl⟩ := writeWaitEnds_cases h <;> exact ⟨rfl, rfl, rfl, rfl⟩

end TcpConnection

/-- A step is the completion of a read, or keeps the reads. -/
theorem connectionStep_cases {cfg : ServerConfig} {s s' : Session} {e : ConnectionEvent}
    (hstep : connectionStep cfg s e = some s') : s.fault = none ∧
      ((∃ count, e = .read count ∧ s.readDone cfg count = some s') ∨
        (e = .readFails ∧ s.readFails cfg = some s') ∨
        (readCounts [e] = [] ∧ ∃ db conn, s.conn.KeepsReads conn ∧
          s' = { s with db := db, conn := conn })) := by
  unfold connectionStep at hstep
  by_cases hfault : s.fault.isSome = true
  · rw [if_pos hfault] at hstep
    cases hstep
  · rw [if_neg hfault] at hstep
    refine ⟨by simpa using hfault, ?_⟩
    cases e with
    | read count => exact Or.inl ⟨count, rfl, hstep⟩
    | readFails => exact Or.inr (Or.inl ⟨rfl, hstep⟩)
    | written count =>
      obtain ⟨conn, hconn, rfl⟩ := Option.map_eq_some_iff.mp hstep
      exact Or.inr (Or.inr ⟨rfl, _, _, TcpConnection.keepsReads_writeDone hconn, rfl⟩)
    | writeFails count =>
      obtain ⟨conn, hconn, rfl⟩ := Option.map_eq_some_iff.mp hstep
      exact Or.inr (Or.inr ⟨rfl, _, _, TcpConnection.keepsReads_writeDone hconn, rfl⟩)
    | readWaitEnds i =>
      obtain ⟨conn, hconn, rfl⟩ := Option.map_eq_some_iff.mp hstep
      exact Or.inr (Or.inr ⟨rfl, _, _, TcpConnection.keepsReads_readWaitEnds hconn, rfl⟩)
    | writeWaitEnds i =>
      obtain ⟨conn, hconn, rfl⟩ := Option.map_eq_some_iff.mp hstep
      exact Or.inr (Or.inr ⟨rfl, _, _, TcpConnection.keepsReads_writeWaitEnds hconn, rfl⟩)
    | submitted op =>
      obtain rfl := Option.some.inj hstep
      exact Or.inr (Or.inr ⟨rfl, _, _, (TcpConnection.sameReads_perform s.conn op).keeps, rfl⟩)
    | database db =>
      obtain rfl := Option.some.inj hstep
      exact Or.inr (Or.inr ⟨rfl, _, _, .refl s.conn, rfl⟩)

end StateDb
