/-
  StateDb/Writes.lean
  ===================
  **What happens to the writes of a connection while they succeed.**

  A connection whose writes succeed is a slot with a queue (`writeDone_slot`): the
  socket holds one write, a write that comes meanwhile waits, and a completion runs
  the handler before the queue.  Waiting changes nothing of a write but its timeout.
-/
import StateDb.Connection

namespace StateDb

open Lib

variable {D : Type} [Wire D]

/-- An empty binary write, which `async_write_raw` drops. -/
def WriteOp.dropped (op : WriteOp D) : Bool := op.kind = .raw && (Wire.bytes op.data).length = 0

omit [Wire D] in
/-- A write without its timeout. -/
def WriteOp.untimed (op : WriteOp D) : WriteOp D := { op with timeout := 0 }

/-- What the handler of a write submits. -/
def WriteOp.submits (op : WriteOp D) : List (WriteOp D) :=
  (op.next.filter fun o => !o.dropped).map WriteOp.untimed

namespace TcpConnection

/-- The writes of a connection as a slot. -/
def writeSlot (c : TcpConnection D) : Slot (WriteOp D) where
  current := c.writes.outstanding.head?.map fun o => o.2.untimed
  pending := c.writes.pending.map WriteOp.untimed

/-- What reached the wire, write by write. -/
def wire (c : TcpConnection D) : List (D × Nat) :=
  c.log.filterMap fun
    | .sent _ data count => some (data, count)
    | _ => none

/-- The socket has at most one write, and nothing is queued that would be dropped. -/
structure Orderly (c : TcpConnection D) : Prop where
  exclusive : c.writes.Exclusive
  kept : ∀ op ∈ c.writes.pending, op.dropped = false

theorem perform_dropped (c : TcpConnection D) {op : WriteOp D} (h : op.dropped = true) :
    c.perform op = c := by
  obtain ⟨hkind, hlen⟩ : op.kind = .raw ∧ (Wire.bytes op.data).length = 0 := by
    simpa [WriteOp.dropped] using h
  simp [perform, hkind, asyncWriteRaw, hlen]

/-- A write that is not dropped is started when the flag is clear. -/
theorem perform_free {c : TcpConnection D} (hfree : c.writes.inProgress = false) {op : WriteOp D}
    (h : op.dropped = false) : c.perform op = c.startWrite op := by
  obtain ⟨kind, data, next, timeout, required⟩ := op
  cases kind with
  | message => simp [perform, asyncWriteMessage, hfree]
  | raw =>
    have hlen : (Wire.bytes data).length ≠ 0 := by simpa [WriteOp.dropped] using h
    simp [perform, asyncWriteRaw, hfree, List.ne_nil_of_length_pos (Nat.pos_of_ne_zero hlen)]

/-- A write that is not dropped waits when the flag is set, with a timeout that may be
another. -/
theorem perform_taken {c : TcpConnection D} (htaken : c.writes.inProgress = true) {op : WriteOp D}
    (h : op.dropped = false) : ∃ timeout constructed, c.perform op = { c with
      writes := c.writes.push { op with timeout := timeout }
      constructed := constructed } := by
  obtain ⟨kind, data, next, timeout, required⟩ := op
  cases kind with
  | message =>
    refine ⟨c.memory c.constructed, c.constructed + 1, ?_⟩
    simp [perform, asyncWriteMessage, htaken]
  | raw =>
    have hlen : (Wire.bytes data).length ≠ 0 := by simpa [WriteOp.dropped] using h
    refine ⟨timeout, c.constructed, ?_⟩
    simp [perform, asyncWriteRaw, htaken, List.ne_nil_of_length_pos (Nat.pos_of_ne_zero hlen)]

/-- A write is dropped, queued or started. -/
theorem perform_cases (c : TcpConnection D) (op : WriteOp D) :
    (c.perform op = c) ∨
      (∃ op' constructed, c.perform op =
        { c with writes := c.writes.push op', constructed := constructed }) ∨
      (c.writes.inProgress = false ∧ c.perform op = c.startWrite op) := by
  by_cases hdrop : op.dropped = true
  · exact Or.inl (perform_dropped c hdrop)
  · have hkept : op.dropped = false := by simpa using hdrop
    cases hprog : c.writes.inProgress with
    | false => exact Or.inr (Or.inr ⟨rfl, perform_free hprog hkept⟩)
    | true =>
      obtain ⟨timeout, constructed, heq⟩ := perform_taken hprog hkept
      exact Or.inr (Or.inl ⟨_, _, heq⟩)

/-- What a single `perform` keeps, the handlers and the queue keep. -/
theorem perform_induction (inv : TcpConnection D → Prop)
    (hperform : ∀ c op, inv c → inv (c.perform op))
    (hqueue : ∀ (c : TcpConnection D) rest, inv c →
      inv { c with writes := { c.writes with pending := rest } })
    {c : TcpConnection D} (hc : inv c) (ops : List (WriteOp D)) :
    inv (c.performAll ops).performPending := by
  have hall : ∀ ops (c : TcpConnection D), inv c → inv (c.performAll ops) := by
    intro ops
    induction ops with
    | nil =>
      intro c hc
      exact hc
    | cons op ops ih =>
      intro c hc
      exact ih (c.perform op) (hperform c op hc)
  have hdone := hall ops c hc
  unfold performPending
  split
  · exact hdone
  · exact hperform _ _ (hqueue _ _ hdone)

/-- The writes `ops` were submitted, and nothing else happened to the slot. -/
structure Performed (c c' : TcpConnection D) (ops : List (WriteOp D)) : Prop where
  orderly : c'.Orderly
  slot : c'.writeSlot = c.writeSlot.submitAll ops
  wire : c'.wire = c.wire

theorem Performed.trans {c c₁ c' : TcpConnection D} {ops₁ ops : List (WriteOp D)}
    (h₁ : Performed c c₁ ops₁) (h : Performed c₁ c' ops) : Performed c c' (ops₁ ++ ops) where
  orderly := h.orderly
  slot := by rw [h.slot, h₁.slot, Slot.submitAll, Slot.submitAll, Slot.submitAll, List.foldl_append]
  wire := h.wire.trans h₁.wire

theorem perform_slot {c : TcpConnection D} (hc : c.Orderly) {op : WriteOp D}
    (h : op.dropped = false) : Performed c (c.perform op) [op.untimed] := by
  rcases hc.exclusive with ⟨hfree, hnone⟩ | ⟨htaken, o, hone⟩
  · rw [perform_free hfree h]
    have hout : (c.startWrite op).writes.outstanding = [(c.writes.operationDone.length, op)] := by
      rw [startWrite, Direction.start_outstanding, hnone]
      rfl
    have hpend : (c.startWrite op).writes.pending = c.writes.pending := by
      rw [startWrite, Direction.start_pending]
    constructor
    · exact ⟨hc.exclusive.start hfree op op.timeout, hpend ▸ hc.kept⟩
    · simp [writeSlot, hout, hpend, hnone]
    · simp [TcpConnection.wire, startWrite]
  · obtain ⟨timeout, constructed, heq⟩ := perform_taken htaken h
    rw [heq]
    constructor
    · refine ⟨Or.inr ⟨htaken, o, hone⟩, ?_⟩
      intro op' hmem
      rcases List.mem_append.mp hmem with hold | hnew
      · exact hc.kept op' hold
      · rw [List.mem_singleton.mp hnew]
        exact h
    · simp [writeSlot, Direction.push, hone, WriteOp.untimed]
    · rfl

theorem performAll_slot {c : TcpConnection D} (hc : c.Orderly) (ops : List (WriteOp D)) :
    Performed c (c.performAll ops) ((ops.filter fun o => !o.dropped).map WriteOp.untimed) := by
  induction ops generalizing c with
  | nil => exact ⟨hc, rfl, rfl⟩
  | cons op ops ih =>
    rw [performAll, List.foldl_cons]
    by_cases hdrop : op.dropped
    · rw [perform_dropped c hdrop, List.filter_cons_of_neg (by simp [hdrop])]
      exact ih hc
    · rw [List.filter_cons_of_pos (by simp [hdrop])]
      have hfirst := perform_slot hc (by simpa using hdrop)
      exact hfirst.trans (ih hfirst.orderly)

/-- The queue moves on. -/
theorem performPending_slot {c : TcpConnection D} (hc : c.Orderly) :
    c.performPending.Orderly ∧ c.performPending.writeSlot = c.writeSlot.advance ∧
      c.performPending.wire = c.wire := by
  unfold performPending
  split
  · rename_i hnil
    refine ⟨hc, ?_, rfl⟩
    simp [writeSlot, hnil]
  · rename_i op rest hcons
    have hrest :
        ({ c with writes := { c.writes with pending := rest } } : TcpConnection D).Orderly :=
      ⟨hc.exclusive, fun o ho => hc.kept o (hcons ▸ List.mem_cons_of_mem _ ho)⟩
    have hop := perform_slot hrest (hc.kept op (hcons ▸ List.mem_cons_self))
    refine ⟨hop.orderly, ?_, hop.wire⟩
    rw [hop.slot]
    simp [writeSlot, hcons, Slot.advance]

/-- The connection when the handler of the write that completed is called. -/
def atHandler (c : TcpConnection D) (number : Nat) (op : WriteOp D) (count : Nat) :
    TcpConnection D :=
  { c with
    writes := (({ c.writes with outstanding := [] } : Direction (WriteOp D)).setDone number).release
    log := c.log ++ [.sent number op.data count] ++ [.called number op.data true] }

/-- A successful completion: handler, then queue. -/
theorem writeDone_eq_some {c c' : TcpConnection D} {count : Nat} (hc : c.writes.Exclusive)
    (h : c.writeDone false count = some c') :
    ∃ number op, c.writes.outstanding = [(number, op)] ∧ 0 < count ∧
      count ≤ (Wire.bytes op.data).length ∧
      c' = ((c.atHandler number op count).performAll op.next).performPending := by
  unfold writeDone at h
  split at h
  · cases h
  · rename_i number op rest hout
    have hone := hc.single hout
    obtain rfl : rest = [] := by simpa [hout] using hone
    split at h
    · rename_i hcount
      obtain rfl := Option.some.inj h
      refine ⟨number, op, hone, by simpa using hcount.2, hcount.1, ?_⟩
      simp only [handleWriteOperation, Bool.and_false, Bool.false_eq_true, if_false, Bool.not_false]
      rfl
    · cases h

/-- A successful completion is a completion of the slot. -/
theorem writeDone_slot {c c' : TcpConnection D} {count : Nat} (hc : c.Orderly)
    (h : c.writeDone false count = some c') :
    ∃ op, c.writeSlot.current = some op ∧ c'.Orderly ∧
      c'.writeSlot = c.writeSlot.complete op.submits ∧ c'.wire = c.wire ++ [(op.data, count)] ∧
      0 < count ∧ count ≤ (Wire.bytes op.data).length := by
  obtain ⟨number, op, hout, hpos, hle, rfl⟩ := writeDone_eq_some hc.exclusive h
  have hc₁ : (c.atHandler number op count).Orderly := ⟨Or.inl ⟨rfl, rfl⟩, hc.kept⟩
  have hnext := performAll_slot hc₁ op.next
  obtain ⟨horder, hslot, hwire⟩ := performPending_slot hnext.orderly
  refine ⟨op.untimed, by simp [writeSlot, hout], horder, ?_, ?_, hpos, hle⟩
  · rw [hslot, hnext.slot]
    rfl
  · rw [hwire, hnext.wire]
    simp [TcpConnection.wire, atHandler, WriteOp.untimed]

end TcpConnection

end StateDb
