/-
  StateDb/Deferral.lean
  =====================
  **Operations that have to wait** (`connection.h`, `connection.cpp`:
  `pending_operation_base` and the types derived from it).

  An operation that finds its direction taken is put into a record of its kind, and the
  record into the queue.  `perform` takes the parameters out of the record and calls the
  same function again, which may put them into another record.  The types of the messages,
  of the values, of the memory and of the handlers are arbitrary here.

  An operation keeps its history: the call that it comes from, and what each
  `pending_write_operation` that was made for it took for its timeout.  The code does not have
  it.  The constructor of that record hands the member `timeout`, which is not initialised yet,
  to its base; everything else survives, however often the operation waits
  (`startedAsSubmitted_iff`).
-/
import StateDb.Operations

namespace StateDb.Deferral

open Lib

/-! ## Pending operations -/

structure PendingOperationBase (H : Type) where
  handler : H
  timeout : Int
  required : Bool
deriving DecidableEq, Repr

variable {T V P H : Type}

/-- The constructor, which `pending_read_operation` inherits. -/
def pendingOperationBase (handler_ : H) (required_ : Bool) (timeout_ : Int) :
    PendingOperationBase H where
  handler := handler_
  timeout := timeout_
  required := required_

inductive PendingOperation (T V P H : Type) where
  /-- `pending_read_operation<type>`. -/
  | readMessage (type : T) (base : PendingOperationBase H)
  | readRaw (size : Nat) (base : PendingOperationBase H)
  | writeMessage (val : V) (base : PendingOperationBase H)
  | writeRaw (memory : P) (size : Nat) (base : PendingOperationBase H)
deriving DecidableEq, Repr

def pendingReadOperation (type : T) (handler_ : H) (required_ : Bool) (timeout_ : Int) :
    PendingOperation T V P H :=
  .readMessage type (pendingOperationBase handler_ required_ timeout_)

def pendingReadRawOperation (s : Nat) (handler_ : H) (required_ : Bool) (timeout_ : Int) :
    PendingOperation T V P H :=
  .readRaw s (pendingOperationBase handler_ required_ timeout_)

/-- The argument `timeout_` is not used: the base gets the member `timeout`, which it has still to
initialise, and which is whatever the memory holds. -/
def pendingWriteOperation (val : V) (handler_ : H) (required_ : Bool) (_timeout_ : Int)
    (timeout : Int) : PendingOperation T V P H :=
  .writeMessage val (pendingOperationBase handler_ required_ timeout)

def pendingWriteRawOperation (memory : P) (size : Nat) (handler_ : H) (required_ : Bool)
    (timeout_ : Int) : PendingOperation T V P H :=
  .writeRaw memory size (pendingOperationBase handler_ required_ timeout_)

/-! ## Calls and what they start -/

/-- A call of one of the four functions. -/
inductive Request (T V P H : Type) where
  | readMessage (type : T) (h : H) (timeout : Int) (required : Bool)
  | readRaw (amount : Nat) (h : H) (timeout : Int) (required : Bool)
  | writeMessage (val : V) (h : H) (timeout : Int) (required : Bool)
  | writeRaw (memory : P) (amount : Nat) (h : H) (timeout : Int) (required : Bool)
deriving DecidableEq, Repr

/-- What the socket is asked for. -/
inductive SocketOperation (T V : Type) where
  /-- `async_read_some` into a buffer for a message of the type. -/
  | read (type : T)
  | readBinary (amount : Nat)
  /-- `async_write_some` of a copy of the value. -/
  | write (val : V)
  | writeBinary (bytes : List UInt8)
deriving DecidableEq, Repr

/-- An operation that the socket was given, with what is bound to its completion, and the time of
the timer that was armed. -/
structure Started (T V H : Type) where
  socket : SocketOperation T V
  required : Bool
  handler : H
  timer : Option Int
deriving DecidableEq, Repr

/-- `run_timer` is called if the timeout has ticks. -/
def timerOf (timeout : Int) : Option Int := if timeout ≠ 0 then some timeout else none

theorem timerOf_inj {timeout timeout' : Int} :
    timerOf timeout = timerOf timeout' ↔ timeout = timeout' := by
  unfold timerOf
  split <;> split <;> simp_all [eq_comm]

/-- Where an operation comes from. -/
structure History (T V P H : Type) where
  request : Request T V P H
  /-- What each `pending_write_operation` that was made for it took for its timeout. -/
  found : List Int := []
deriving DecidableEq, Repr

/-! ## A connection -/

/-- The flag and the queue of a direction, and what was started. -/
structure Lane (T V P H : Type) where
  inProgress : Bool := false
  pending : List (History T V P H × PendingOperation T V P H) := []
  started : List (History T V P H × Started T V H) := []

namespace Lane

def push (l : Lane T V P H) (n : History T V P H) (op : PendingOperation T V P H) : Lane T V P H :=
  { l with pending := l.pending ++ [(n, op)] }

def start (l : Lane T V P H) (n : History T V P H) (s : Started T V H) : Lane T V P H :=
  { l with inProgress := true, started := l.started ++ [(n, s)] }

end Lane

structure Connection (T V P H : Type) where
  reads : Lane T V P H := {}
  writes : Lane T V P H := {}
  /-- What the memory of the `i`-th `pending_write_operation` held before its construction. -/
  memory : Nat → Int
  constructed : Nat := 0

namespace Connection

def fresh (memory : Nat → Int) : Connection T V P H := { memory := memory }

def asyncReadMessage (c : Connection T V P H) (n : History T V P H) (type : T) (h : H)
    (timeout : Int) (required : Bool) : Connection T V P H :=
  if c.reads.inProgress then
    { c with reads := c.reads.push n (pendingReadOperation type h required timeout) }
  else { c with reads := c.reads.start n ⟨.read type, required, h, timerOf timeout⟩ }

def asyncReadRaw (c : Connection T V P H) (n : History T V P H) (amount : Nat) (h : H)
    (timeout : Int) (required : Bool) : Connection T V P H :=
  if c.reads.inProgress then
    { c with reads := c.reads.push n (pendingReadRawOperation amount h required timeout) }
  else { c with reads := c.reads.start n ⟨.readBinary amount, required, h, timerOf timeout⟩ }

def asyncWriteMessage (c : Connection T V P H) (n : History T V P H) (val : V) (h : H)
    (timeout : Int) (required : Bool) : Connection T V P H :=
  if c.writes.inProgress then
    let found := c.memory c.constructed
    { c with
      writes := c.writes.push { n with found := n.found ++ [found] }
        (pendingWriteOperation val h required timeout found)
      constructed := c.constructed + 1 }
  else { c with writes := c.writes.start n ⟨.write val, required, h, timerOf timeout⟩ }

variable (contents : P → Nat → UInt8)

/-- `contents` is what lies at an address, and stays there. -/
def asyncWriteRaw (c : Connection T V P H) (n : History T V P H) (memory : P) (amount : Nat) (h : H)
    (timeout : Int) (required : Bool) : Connection T V P H :=
  if amount = 0 then c
  else if c.writes.inProgress then
    { c with writes := c.writes.push n (pendingWriteRawOperation memory amount h required timeout) }
  else
    let bytes := (List.range amount).map (contents memory)
    { c with writes := c.writes.start n ⟨.writeBinary bytes, required, h, timerOf timeout⟩ }

/-- `perform`, of the four kinds. -/
def perform (c : Connection T V P H) (n : History T V P H) :
    PendingOperation T V P H → Connection T V P H
  | .readMessage type base => c.asyncReadMessage n type base.handler base.timeout base.required
  | .readRaw size base => c.asyncReadRaw n size base.handler base.timeout base.required
  | .writeMessage val base => c.asyncWriteMessage n val base.handler base.timeout base.required
  | .writeRaw memory size base =>
      c.asyncWriteRaw contents n memory size base.handler base.timeout base.required

/-- The call is made. -/
def submit (c : Connection T V P H) (r : Request T V P H) : Connection T V P H :=
  match r with
  | .readMessage type h timeout required => c.asyncReadMessage ⟨r, []⟩ type h timeout required
  | .readRaw amount h timeout required => c.asyncReadRaw ⟨r, []⟩ amount h timeout required
  | .writeMessage val h timeout required => c.asyncWriteMessage ⟨r, []⟩ val h timeout required
  | .writeRaw memory amount h timeout required =>
      c.asyncWriteRaw contents ⟨r, []⟩ memory amount h timeout required

/-- The end of `handle_data`. -/
def performPendingRead (c : Connection T V P H) : Connection T V P H :=
  match c.reads.pending with
  | [] => c
  | (n, op) :: rest => { c with reads := { c.reads with pending := rest } }.perform contents n op

/-- The end of `handle_write_operation`. -/
def performPendingWrite (c : Connection T V P H) : Connection T V P H :=
  match c.writes.pending with
  | [] => c
  | (n, op) :: rest => { c with writes := { c.writes with pending := rest } }.perform contents n op

end Connection

/-- What happens to the queues and the flags: a call, from wherever it comes, the completion of the
operation that the socket has, and the end of a completion handler. -/
inductive Event (T V P H : Type) where
  | submits (r : Request T V P H)
  | readReleases
  | writeReleases
  | performsPendingRead
  | performsPendingWrite
deriving DecidableEq, Repr

/-- Nothing is asked about the order of the events. -/
def step (contents : P → Nat → UInt8) (c : Connection T V P H) : Event T V P H → Connection T V P H
  | .submits r => c.submit contents r
  | .readReleases => { c with reads := { c.reads with inProgress := false } }
  | .writeReleases => { c with writes := { c.writes with inProgress := false } }
  | .performsPendingRead => c.performPendingRead contents
  | .performsPendingWrite => c.performPendingWrite contents

def steps (contents : P → Nat → UInt8) (c : Connection T V P H) (es : List (Event T V P H)) :
    Connection T V P H :=
  es.foldl (step contents) c

/-! ## What an operation carries -/

namespace Request

def timeout : Request T V P H → Int
  | .readMessage _ _ timeout _ | .readRaw _ _ timeout _ | .writeMessage _ _ timeout _
  | .writeRaw _ _ _ timeout _ => timeout

def isRead : Request T V P H → Bool
  | .readMessage .. | .readRaw .. => true
  | .writeMessage .. | .writeRaw .. => false

def isWriteMessage : Request T V P H → Bool
  | .writeMessage .. => true
  | _ => false

/-- An empty binary write, which is dropped. -/
def dropped : Request T V P H → Bool
  | .writeRaw _ amount .. => amount = 0
  | _ => false

/-- The record of the call, but for the timeout. -/
def record : Request T V P H → Int → PendingOperation T V P H
  | .readMessage type h _ required, timeout => .readMessage type ⟨h, timeout, required⟩
  | .readRaw amount h _ required, timeout => .readRaw amount ⟨h, timeout, required⟩
  | .writeMessage val h _ required, timeout => .writeMessage val ⟨h, timeout, required⟩
  | .writeRaw memory amount h _ required, timeout => .writeRaw memory amount ⟨h, timeout, required⟩

variable (contents : P → Nat → UInt8)

/-- What the call starts, but for the timeout. -/
def started : Request T V P H → Int → Started T V H
  | .readMessage type h _ required, timeout => ⟨.read type, required, h, timerOf timeout⟩
  | .readRaw amount h _ required, timeout => ⟨.readBinary amount, required, h, timerOf timeout⟩
  | .writeMessage val h _ required, timeout => ⟨.write val, required, h, timerOf timeout⟩
  | .writeRaw memory amount h _ required, timeout =>
      ⟨.writeBinary ((List.range amount).map (contents memory)), required, h, timerOf timeout⟩

/-- What the call starts on a connection that has nothing else to do. -/
def atOnce (r : Request T V P H) : List (Started T V H) :=
  let c := (Connection.fresh fun _ => 0).submit contents r
  (c.reads.started ++ c.writes.started).map Prod.snd

theorem atOnce_eq {r : Request T V P H} (hkept : r.dropped = false) :
    r.atOnce contents = [r.started contents r.timeout] := by
  cases r with
  | readMessage type h timeout required => rfl
  | readRaw amount h timeout required => rfl
  | writeMessage val h timeout required => rfl
  | writeRaw memory amount h timeout required =>
    have hamount : amount ≠ 0 := by simpa [dropped] using hkept
    simp [atOnce, Connection.submit, Connection.asyncWriteRaw, Connection.fresh, hamount,
      Lane.start, started, Request.timeout]

variable {contents} in
theorem started_inj {r : Request T V P H} {timeout timeout' : Int} :
    r.started contents timeout = r.started contents timeout' ↔ timeout = timeout' := by
  cases r with
  | readMessage type h timeout₀ required => simp [started, timerOf_inj]
  | readRaw amount h timeout₀ required => simp [started, timerOf_inj]
  | writeMessage val h timeout₀ required => simp [started, timerOf_inj]
  | writeRaw memory amount h timeout₀ required => simp [started, timerOf_inj]

end Request

namespace History

/-- The timeout that the operation has now. -/
def timeout (n : History T V P H) : Int := n.found.getLast?.getD n.request.timeout

/-- The record that was made last for the operation, if it is a typed write and had to wait, took
the timeout of the call for its own. -/
def KeepsTimeout (n : History T V P H) : Prop :=
  n.request.isWriteMessage = true → ∀ found ∈ n.found.getLast?, found = n.request.timeout

/-- Only the records of typed writes take what they find. -/
structure Sound (n : History T V P H) : Prop where
  kept : n.request.dropped = false
  found : n.request.isWriteMessage = false → n.found = []

theorem timeout_iff {n : History T V P H} (h : n.Sound) :
    n.timeout = n.request.timeout ↔ n.KeepsTimeout := by
  unfold timeout KeepsTimeout
  cases hkind : n.request.isWriteMessage with
  | false => simp [h.found hkind]
  | true =>
    cases hlast : n.found.getLast? with
    | none => simp
    | some found => simp

end History

/-! ## Steps -/

namespace Lane

/-- Every operation has the parameters of its call, and the timeout of its history. -/
structure Sound (contents : P → Nat → UInt8) (l : Lane T V P H) : Prop where
  pending : ∀ e ∈ l.pending, e.1.Sound ∧ e.2 = e.1.request.record e.1.timeout
  started : ∀ e ∈ l.started, e.1.Sound ∧ e.2 = e.1.request.started contents e.1.timeout

/-- The calls whose operations wait or were started. -/
def requests (l : Lane T V P H) : List (Request T V P H) :=
  l.pending.map (fun e => e.1.request) ++ l.started.map fun e => e.1.request

/-- The operation is put into the queue or started. -/
inductive Entered (contents : P → Nat → UInt8) (l : Lane T V P H) (n : History T V P H) :
    Lane T V P H → Prop
  | pushed (n' : History T V P H) : n'.request = n.request → n'.Sound →
      Entered contents l n (l.push n' (n'.request.record n'.timeout))
  | started : Entered contents l n (l.start n (n.request.started contents n.timeout))

variable {contents : P → Nat → UInt8} {l l' : Lane T V P H} {n : History T V P H}

theorem Entered.sound (h : Entered contents l n l') (hl : l.Sound contents) (hn : n.Sound) :
    l'.Sound contents := by
  cases h with
  | pushed n' hrequest hn' =>
    refine ⟨fun e he => ?_, hl.started⟩
    rcases List.mem_append.mp he with he | he
    · exact hl.pending e he
    · rw [List.mem_singleton.mp he]
      exact ⟨hn', rfl⟩
  | started =>
    refine ⟨hl.pending, fun e he => ?_⟩
    rcases List.mem_append.mp he with he | he
    · exact hl.started e he
    · rw [List.mem_singleton.mp he]
      exact ⟨hn, rfl⟩

theorem Entered.requests (h : Entered contents l n l') :
    l'.requests.Perm (l.requests ++ [n.request]) := by
  cases h with
  | pushed n' hrequest hn' =>
    simp only [Lane.requests, push, List.map_append, List.map_cons, List.map_nil, hrequest,
      List.append_assoc]
    exact List.Perm.append_left _ List.perm_append_comm
  | started =>
    simp only [Lane.requests, start, List.map_append, List.map_cons, List.map_nil,
      List.append_assoc]
    exact .refl _

end Lane

namespace Connection

def lane (c : Connection T V P H) : Bool → Lane T V P H
  | true => c.reads
  | false => c.writes

/-- The operation was performed, and the other direction is as it was. -/
structure Performed (contents : P → Nat → UInt8) (c : Connection T V P H) (n : History T V P H)
    (c' : Connection T V P H) : Prop where
  own : (c.lane n.request.isRead).Entered contents n (c'.lane n.request.isRead)
  other : c'.lane (!n.request.isRead) = c.lane (!n.request.isRead)

variable {contents : P → Nat → UInt8} {c c' : Connection T V P H} {n : History T V P H}

/-- What `perform` does with the record of an operation, of each kind. -/
theorem performed_perform (c : Connection T V P H) (hn : n.Sound) :
    Performed contents c n (c.perform contents n (n.request.record n.timeout)) := by
  obtain ⟨request, found⟩ := n
  cases request with
  | readMessage type h timeout required =>
    simp only [perform, Request.record, asyncReadMessage]
    split
    · exact ⟨.pushed ⟨.readMessage type h timeout required, found⟩ rfl hn, rfl⟩
    · exact ⟨.started, rfl⟩
  | readRaw amount h timeout required =>
    simp only [perform, Request.record, asyncReadRaw]
    split
    · exact ⟨.pushed ⟨.readRaw amount h timeout required, found⟩ rfl hn, rfl⟩
    · exact ⟨.started, rfl⟩
  | writeMessage val h timeout required =>
    simp only [perform, Request.record, asyncWriteMessage]
    split
    · -- the new record takes what it finds
      let n' : History T V P H :=
        ⟨.writeMessage val h timeout required, found ++ [c.memory c.constructed]⟩
      have htimeout : n'.timeout = c.memory c.constructed := by
        simp [n', History.timeout]
      have hn' : n'.Sound := ⟨rfl, fun hkind => by cases hkind⟩
      have hpushed := @Lane.Entered.pushed T V P H contents c.writes
        ⟨.writeMessage val h timeout required, found⟩ n' rfl hn'
      rw [htimeout] at hpushed
      exact ⟨hpushed, rfl⟩
    · exact ⟨.started, rfl⟩
  | writeRaw memory amount h timeout required =>
    have hamount : amount ≠ 0 := by simpa [Request.dropped] using hn.kept
    simp only [perform, Request.record, asyncWriteRaw, if_neg hamount]
    split
    · exact ⟨.pushed ⟨.writeRaw memory amount h timeout required, found⟩ rfl hn, rfl⟩
    · exact ⟨.started, rfl⟩

theorem submit_dropped (c : Connection T V P H) {r : Request T V P H}
    (hdropped : r.dropped = true) :
    c.submit contents r = c := by
  cases r with
  | writeRaw memory amount h timeout required =>
    have hamount : amount = 0 := by simpa [Request.dropped] using hdropped
    simp [submit, asyncWriteRaw, hamount]
  | _ => cases hdropped

/-- A call does what `perform` does. -/
theorem submit_eq (c : Connection T V P H) (r : Request T V P H) :
    c.submit contents r = c.perform contents ⟨r, []⟩ (r.record r.timeout) := by
  cases r <;> rfl

theorem performed_submit (c : Connection T V P H) {r : Request T V P H}
    (hkept : r.dropped = false) :
    Performed contents c ⟨r, []⟩ (c.submit contents r) := by
  rw [submit_eq]
  exact performed_perform c ⟨hkept, fun _ => rfl⟩

end Connection

/-! ## Runs -/

/-- The calls of a run. -/
def submissions (es : List (Event T V P H)) : List (Request T V P H) :=
  es.filterMap fun
    | .submits r => some r
    | _ => none

/-- The calls of a direction that are not dropped. -/
def submitted (es : List (Event T V P H)) (isRead : Bool) : List (Request T V P H) :=
  (submissions es).filter fun r => r.isRead = isRead && !r.dropped

/-- What holds after the events. -/
structure After (contents : P → Nat → UInt8) (es : List (Event T V P H)) (c : Connection T V P H) :
    Prop where
  sound : ∀ b, (c.lane b).Sound contents
  kept : ∀ b, (c.lane b).requests.Perm (submitted es b)

namespace After

open Connection

variable {contents : P → Nat → UInt8} {es : List (Event T V P H)} {c c' : Connection T V P H}
  {n : History T V P H}

theorem fresh (contents : P → Nat → UInt8) (memory : Nat → Int) :
    After contents [] (Connection.fresh memory : Connection T V P H) where
  sound
    | true => ⟨fun _ he => absurd he List.not_mem_nil, fun _ he => absurd he List.not_mem_nil⟩
    | false => ⟨fun _ he => absurd he List.not_mem_nil, fun _ he => absurd he List.not_mem_nil⟩
  kept
    | true => .refl _
    | false => .refl _

/-- The operations of a direction come from calls of the direction. -/
theorem isRead_of_mem (h : After contents es c) {b : Bool} {r : Request T V P H}
    (hr : r ∈ (c.lane b).requests) : r.isRead = b := by
  have hmem := (List.mem_filter.mp ((h.kept b).mem_iff.mp hr)).2
  simp only [Bool.and_eq_true, decide_eq_true_eq] at hmem
  exact hmem.1

theorem submits_of_mem (h : After contents es c) {b : Bool} {r : Request T V P H}
    (hr : r ∈ (c.lane b).requests) : Event.submits r ∈ es := by
  obtain ⟨e, he, heq⟩ := List.mem_filterMap.mp (List.mem_filter.mp ((h.kept b).mem_iff.mp hr)).1
  cases e with
  | submits r' =>
    obtain rfl : r' = r := Option.some.inj heq
    exact he
  | _ => cases heq

/-- A call that is not dropped. -/
theorem submit (h : After contents es c) {r : Request T V P H} (hkept : r.dropped = false) :
    After contents (es ++ [.submits r]) (c.submit contents r) := by
  obtain ⟨hown, hother⟩ : Performed contents c ⟨r, []⟩ (c.submit contents r) :=
    performed_submit c hkept
  have hn : (⟨r, []⟩ : History T V P H).Sound := ⟨hkept, fun _ => rfl⟩
  have hsubmitted (b : Bool) : submitted (es ++ [.submits r]) b =
      submitted es b ++ if r.isRead = b then [r] else [] := by
    by_cases hb : r.isRead = b <;> simp [submitted, submissions, hkept, hb]
  constructor
  · intro b
    by_cases hb : r.isRead = b
    · exact hb ▸ hown.sound (h.sound _) hn
    · rw [show b = !r.isRead by cases b <;> simp_all, hother]
      exact h.sound _
  · intro b
    rw [hsubmitted]
    by_cases hb : r.isRead = b
    · rw [if_pos hb]
      subst hb
      exact hown.requests.trans ((h.kept _).append_right _)
    · rw [if_neg hb, List.append_nil, show b = !r.isRead by cases b <;> simp_all, hother]
      exact h.kept _

/-- The queue of a direction moves on; `c₁` is the connection without the operation that is
performed. -/
theorem performPending (h : After contents es c) {b : Bool} {op : PendingOperation T V P H}
    {rest : List (History T V P H × PendingOperation T V P H)}
    (hpend : (c.lane b).pending = (n, op) :: rest) {c₁ : Connection T V P H}
    (hpopped : c₁.lane b = { c.lane b with pending := rest })
    (hsame : c₁.lane (!b) = c.lane (!b)) : After contents es (c₁.perform contents n op) := by
  have hmem : (n, op) ∈ (c.lane b).pending := hpend ▸ List.mem_cons_self
  obtain ⟨hn, hop⟩ : n.Sound ∧ op = n.request.record n.timeout := (h.sound b).pending _ hmem
  subst hop
  obtain rfl : n.request.isRead = b :=
    h.isRead_of_mem (List.mem_append_left _ (List.mem_map.mpr ⟨_, hmem, rfl⟩))
  have hrequests : (c.lane n.request.isRead).requests =
      n.request :: (c₁.lane n.request.isRead).requests := by
    rw [Lane.requests, Lane.requests, hpopped, hpend]
    rfl
  have hsound : (c₁.lane n.request.isRead).Sound contents := by
    rw [hpopped]
    exact ⟨fun e he => (h.sound _).pending e (hpend ▸ List.mem_cons_of_mem _ he),
      (h.sound _).started⟩
  obtain ⟨hown, hother⟩ :
      Performed contents c₁ n (c₁.perform contents n (n.request.record n.timeout)) :=
    performed_perform c₁ hn
  constructor
  · intro b
    by_cases hb : n.request.isRead = b
    · exact hb ▸ hown.sound hsound hn
    · rw [show b = !n.request.isRead by cases b <;> simp_all, hother, hsame]
      exact h.sound _
  · intro b
    by_cases hb : n.request.isRead = b
    · subst hb
      refine (hown.requests.trans ?_).trans (h.kept _)
      rw [hrequests]
      exact List.perm_append_singleton _ _
    · rw [show b = !n.request.isRead by cases b <;> simp_all, hother, hsame]
      exact h.kept _

/-- An event that is no call. -/
theorem of_quiet (h : After contents es c) {e : Event T V P H} (he : submissions [e] = []) :
    After contents (es ++ [e]) c := by
  refine ⟨h.sound, fun b => ?_⟩
  have hsame : submitted (es ++ [e]) b = submitted es b := by
    rw [submitted, submissions, List.filterMap_append]
    rw [submissions] at he
    rw [he, List.append_nil]
    rfl
  rw [hsame]
  exact h.kept b

/-- The flag of a direction has no part in it. -/
theorem of_lanes (h : After contents es c) (hsame : ∀ b, (c'.lane b).pending = (c.lane b).pending ∧
    (c'.lane b).started = (c.lane b).started) : After contents es c' := by
  refine ⟨fun b => ?_, fun b => ?_⟩
  · obtain ⟨hpending, hstarted⟩ := hsame b
    exact ⟨hpending ▸ (h.sound b).pending, hstarted ▸ (h.sound b).started⟩
  · obtain ⟨hpending, hstarted⟩ := hsame b
    have hrequests : (c'.lane b).requests = (c.lane b).requests := by
      rw [Lane.requests, Lane.requests, hpending, hstarted]
    exact hrequests ▸ h.kept b

theorem step (h : After contents es c) (e : Event T V P H) :
    After contents (es ++ [e]) (Deferral.step contents c e) := by
  cases e with
  | submits r =>
    cases hdropped : r.dropped with
    | false => exact h.submit hdropped
    | true =>
      simp only [Deferral.step, submit_dropped c hdropped]
      refine ⟨h.sound, fun b => ?_⟩
      have hsame : submitted (es ++ [.submits r]) b = submitted es b := by
        simp [submitted, submissions, hdropped]
      exact hsame ▸ h.kept b
  | readReleases =>
    refine (h.of_quiet rfl).of_lanes fun b => ?_
    cases b <;> exact ⟨rfl, rfl⟩
  | writeReleases =>
    refine (h.of_quiet rfl).of_lanes fun b => ?_
    cases b <;> exact ⟨rfl, rfl⟩
  | performsPendingRead =>
    simp only [Deferral.step, performPendingRead]
    split
    · exact h.of_quiet rfl
    · rename_i n op rest hpend
      exact (h.of_quiet rfl).performPending (b := true) hpend rfl rfl
  | performsPendingWrite =>
    simp only [Deferral.step, performPendingWrite]
    split
    · exact h.of_quiet rfl
    · rename_i n op rest hpend
      exact (h.of_quiet rfl).performPending (b := false) hpend rfl rfl

theorem steps (contents : P → Nat → UInt8) (memory : Nat → Int) (es : List (Event T V P H)) :
    After contents es (Deferral.steps contents (Connection.fresh memory) es) := by
  induction es using List.reverseRecOn with
  | nil => exact fresh contents memory
  | append_singleton es e ih =>
    rw [Deferral.steps, List.foldl_append]
    exact ih.step e

end After

/-! ## Deferral -/

/-- In every run: an operation that was started, at once or after it had to wait, comes from a call,
and is what the call would have started at once if and only if the call is no typed write, or the
record that was made last for it took the timeout of the call for its own.  What was not started
waits. -/
theorem startedAsSubmitted_iff (contents : P → Nat → UInt8) (memory : Nat → Int)
    (es : List (Event T V P H)) :
    let c := steps contents (Connection.fresh memory) es
    (∀ b, (c.lane b).requests.Perm (submitted es b)) ∧
      ∀ b, ∀ e ∈ (c.lane b).started, Event.submits e.1.request ∈ es ∧
        (e.1.request.atOnce contents = [e.2] ↔ e.1.KeepsTimeout) := by
  have h := After.steps contents memory es
  refine ⟨h.kept, fun b e he => ?_⟩
  obtain ⟨hn, hstarted⟩ := (h.sound b).started e he
  refine ⟨h.submits_of_mem (b := b) (List.mem_append_right _ (List.mem_map.mpr ⟨e, he, rfl⟩)), ?_⟩
  rw [Request.atOnce_eq contents hn.kept, hstarted, List.singleton_inj, Request.started_inj,
    eq_comm]
  exact History.timeout_iff hn

/-- Two values are written, each with six seconds; the second one waits until the first one is
written, and its record is made where the memory is zero. -/
def waitingWrite : List (Event Unit Nat Unit Nat) :=
  [.submits (.writeMessage 1 10 6000 true), .submits (.writeMessage 2 20 6000 true), .writeReleases,
    .performsPendingWrite]

/-- The second write is started without a timer. -/
theorem waitingWrite_untimed :
    ∃ e ∈ (steps (fun _ _ => 0) (Connection.fresh fun _ => 0) waitingWrite).writes.started,
      e.1.request = .writeMessage 2 20 6000 true ∧ e.2 = ⟨.write 2, true, 20, none⟩ ∧
        e.1.request.atOnce (fun _ _ => 0) = [⟨.write 2, true, 20, some 6000⟩] := by
  refine ⟨(⟨.writeMessage 2 20 6000 true, [0]⟩, ⟨.write 2, true, 20, none⟩), ?_, rfl, rfl, rfl⟩
  exact List.mem_cons_of_mem _ List.mem_cons_self

end StateDb.Deferral
