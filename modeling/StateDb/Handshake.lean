/-
  StateDb/Handshake.lean
  ======================
  **The handshake gate** (`start`, `received_hello`, `start_read_message`).

  Nothing but `received_hello` starts the first read of a preamble, and it does so for a
  valid HELLO only.  A connection that did not get one reads nothing any more, so no
  message of it is dispatched (`handshake_gate`).
-/
import StateDb.ConnectionRuns

namespace StateDb

open Lib

/-- A buffer of zeros that a read did not fill is no valid HELLO. -/
theorem length_of_helloValid {bytes : List UInt8} (hlen : bytes.length ≤ 6)
    (h : helloValid (readBuffer 6 bytes) = true) : bytes.length = 6 := by
  by_contra hshort
  have hlast : (readBuffer 6 bytes).getD 5 0 = 0 := by
    have hle : bytes.length ≤ 5 := by omega
    rw [readBuffer, List.drop_replicate, List.getD_eq_getElem?_getD,
      List.getElem?_append_right hle, List.getElem?_replicate]
    split <;> rfl
  simp only [helloValid, hlast, Bool.and_eq_true, decide_eq_true_eq] at h
  exact absurd h.1.1.1.1.1 (by decide)

/-- Where the handshake stands, after reads of these counts. -/
inductive Handshake (stream : List UInt8) (s : Session) : List Nat → Prop
  /-- The HELLO is being read, into a buffer of zeros. -/
  | waiting (number : Nat) : s.conn.reads.outstanding = [(number, helloRead)] →
      s.conn.reads.pending = [] → s.conn.storage = ⟨.hello, List.replicate 6 0⟩ →
      s.unread = stream → s.dispatched = [] → Handshake stream s []
  /-- The HELLO could not be read, or was not valid: nothing is read any more. -/
  | refused (counts : List Nat) : s.conn.reads.outstanding = [] → s.conn.reads.pending = [] →
      s.dispatched = [] → Handshake stream s counts
  /-- A valid HELLO was read, and perhaps more. -/
  | greeted (rest : List Nat) : 6 ≤ stream.length → helloValid (stream.take 6) = true →
      (rest = [] → s.dispatched = []) → Handshake stream s (6 :: rest)

/-! ## The reads -/

theorem receivedHello_dispatched (cfg : ServerConfig) (s : Session) :
    (s.receivedHello cfg).dispatched = s.dispatched := by
  rcases s.receivedHello_cases cfg with ⟨-, heq⟩ | ⟨-, heq⟩ | ⟨-, heq⟩
  · rw [heq]
  · rw [heq]
    exact (Session.sameData_startReadMessage _).dispatched
  · rw [heq]
    rfl

/-- An invalid HELLO starts no read. -/
theorem receivedHello_invalid {cfg : ServerConfig} {s : Session}
    (h : helloValid s.conn.storage.data = false) :
    (s.receivedHello cfg).conn.reads = s.conn.reads := by
  rcases s.receivedHello_cases cfg with ⟨-, heq⟩ | ⟨hvalid, -⟩ | ⟨-, heq⟩
  · rw [heq]
  · rw [h] at hvalid
    cases hvalid
  · rw [heq]
    rfl

theorem callHandler_failed_dispatched (cfg : ServerConfig) (s : Session) (handler : ReadHandler) :
    (s.callHandler cfg true handler).dispatched = s.dispatched := by
  cases handler with
  | receivedHello => exact receivedHello_dispatched cfg s
  | handleMessage => rfl
  | handleProcessedData msgp =>
    show (s.handleProcessedData cfg msgp).dispatched = s.dispatched
    unfold Session.handleProcessedData
    split
    · rfl
    · dsimp only
      cases bodyRequest cfg.width s.db msgp s.conn.storage.data <;> rfl

/-- A read that fails dispatches nothing. -/
theorem readFails_dispatched {cfg : ServerConfig} {s s' : Session}
    (h : s.readFails cfg = some s') : s'.dispatched = s.dispatched := by
  unfold Session.readFails at h
  split at h
  · cases h
  · rename_i number op rest hout
    obtain rfl := Option.some.inj h
    unfold Session.handleData
    dsimp only
    split
    · rfl
    · exact (Session.sameData_performPendingRead _).dispatched.trans
        (callHandler_failed_dispatched cfg _ op.handler)

/-- A required read that fails closes the connection, and nothing is read any more. -/
theorem readFails_hello {cfg : ServerConfig} {s s' : Session} {number : Nat}
    (hout : s.conn.reads.outstanding = [(number, helloRead)]) (h : s.readFails cfg = some s') :
    s'.conn.reads.outstanding = [] ∧ s'.conn.reads.pending = s.conn.reads.pending := by
  simp only [Session.readFails, hout] at h
  obtain rfl := Option.some.inj h
  exact ⟨rfl, rfl⟩

/-- The HELLO was read. -/
theorem readDone_helloRead {cfg : ServerConfig} {s s' : Session} {number count : Nat}
    (hout : s.conn.reads.outstanding = [(number, helloRead)]) (hpend : s.conn.reads.pending = [])
    (hstorage : s.conn.storage = ⟨.hello, List.replicate 6 0⟩)
    (hrun : s.readDone cfg count = some s') : s.Possible 6 count ∧ s'.dispatched = s.dispatched ∧
      (helloValid (readBuffer 6 (s.unread.take count)) = true ∨
        (s'.conn.reads.outstanding = [] ∧ s'.conn.reads.pending = [])) := by
  obtain ⟨hpossible, rfl⟩ := Session.readDone_outstanding hout hrun
  have hdata : (s.atHandler number count).conn.storage.data =
      readBuffer 6 (s.unread.take count) := by
    simp [Session.atHandler, hstorage, DynamicStorage.fill, readBuffer]
  refine ⟨hpossible, ?_, ?_⟩
  · rw [(Session.sameData_performPendingRead _).dispatched]
    exact receivedHello_dispatched cfg (s.atHandler number count)
  · cases hvalid : helloValid (readBuffer 6 (s.unread.take count)) with
    | true => exact Or.inl rfl
    | false =>
      have hreads :
          ((s.atHandler number count).callHandler cfg false helloRead.handler).conn.reads =
          (s.atHandler number count).conn.reads := receivedHello_invalid (hdata ▸ hvalid)
      rw [Session.performPendingRead_nil (by rw [hreads]; exact hpend), hreads]
      exact Or.inr ⟨rfl, hpend⟩

/-! ## Runs -/

theorem handshake_step {cfg : ServerConfig} {stream : List UInt8} {s s' : Session}
    {counts : List Nat} {e : ConnectionEvent} (h : Handshake stream s counts)
    (hstep : connectionStep cfg s e = some s') :
    Handshake stream s' (counts ++ readCounts [e]) := by
  obtain ⟨-, ⟨count, rfl, hread⟩ | ⟨rfl, hfails⟩ | ⟨hcounts, db, conn, hkeeps, rfl⟩⟩ :=
    connectionStep_cases hstep
  · show Handshake stream s' (counts ++ [count])
    cases h with
    | waiting number hout hpend hstorage hunread hdispatched =>
      obtain ⟨⟨hle, hall, -⟩, hsame, hvalid | ⟨hout', hpend'⟩⟩ :=
        readDone_helloRead hout hpend hstorage hread
      · rw [hunread] at hvalid hall
        have hsix := length_of_helloValid (List.length_take_le _ _ |>.trans hle) hvalid
        rw [List.length_take, Nat.min_eq_left hall] at hsix
        subst hsix
        have hfull : readBuffer 6 (stream.take 6) = stream.take 6 :=
          readBuffer_full (by rw [List.length_take]; omega)
        exact .greeted [] hall (hfull ▸ hvalid) fun _ => hsame.trans hdispatched
      · exact .refused _ hout' hpend' (hsame.trans hdispatched)
    | refused counts hout hpend hdispatched =>
      simp only [Session.readDone, hout] at hread
      cases hread
    | greeted rest hlen hvalid hdispatched => exact .greeted (rest ++ [count]) hlen hvalid (by simp)
  · show Handshake stream s' (counts ++ [])
    rw [List.append_nil]
    have hsame := readFails_dispatched hfails
    cases h with
    | waiting number hout hpend hstorage hunread hdispatched =>
      obtain ⟨hout', hpend'⟩ := readFails_hello hout hfails
      exact .refused [] hout' (hpend'.trans hpend) (hsame.trans hdispatched)
    | refused counts hout hpend hdispatched =>
      simp only [Session.readFails, hout] at hfails
      cases hfails
    | greeted rest hlen hvalid hdispatched =>
      exact .greeted rest hlen hvalid fun hrest => hsame.trans (hdispatched hrest)
  · rw [hcounts, List.append_nil]
    cases h with
    | waiting number hout hpend hstorage hunread hdispatched =>
      exact .waiting number (hkeeps.outstanding.trans hout) (hkeeps.pending.trans hpend)
        (hkeeps.storage.trans hstorage) hunread hdispatched
    | refused counts hout hpend hdispatched =>
      exact .refused counts (hkeeps.outstanding.trans hout) (hkeeps.pending.trans hpend) hdispatched
    | greeted rest hlen hvalid hdispatched => exact .greeted rest hlen hvalid hdispatched

theorem handshake_start (db : Db) (memory : Nat → Nat) (stream : List UInt8) :
    Handshake stream (startSession db memory stream) [] := by
  have hawaits := Session.awaits_start db memory stream
  obtain ⟨number, hout⟩ := hawaits.reading.outstanding
  exact .waiting number hout hawaits.reading.pending hawaits.reading.storage rfl rfl

/-- The handshake of every run, whatever the client sends, the reads return, and the
timers and the rest of the server do. -/
theorem handshake_run {cfg : ServerConfig} {db : Db} {memory : Nat → Nat} {stream : List UInt8}
    {es : List ConnectionEvent} {s : Session}
    (hrun : run (connectionStep cfg) (startSession db memory stream) es = some s) :
    Handshake stream s (readCounts es) := by
  refine @run_history _ _ (connectionStep cfg) (fun _ _ => True)
    (fun past s => Handshake stream s (readCounts past)) ?_ [] _ _ es
    (handshake_start db memory stream) (Along.of_forall (fun _ _ => trivial) _) hrun
  intro past s e s' hs _ hstep
  have hnext := handshake_step hs hstep
  rwa [← readCounts_append] at hnext

/-- A message is dispatched only after the first read has returned a valid HELLO, all six
bytes of it; when the first read returned anything else, no message is dispatched. -/
theorem handshake_gate {cfg : ServerConfig} {db : Db} {memory : Nat → Nat} {stream : List UInt8}
    {es : List ConnectionEvent} {s : Session}
    (hrun : run (connectionStep cfg) (startSession db memory stream) es = some s) :
    (s.dispatched ≠ [] → ∃ count rest, readCounts es = 6 :: count :: rest ∧ 6 ≤ stream.length ∧
        helloValid (stream.take 6) = true) ∧
      (∀ count rest, readCounts es = count :: rest →
        ¬ (count = 6 ∧ helloValid (stream.take count) = true) → s.dispatched = []) := by
  have h := handshake_run hrun
  generalize readCounts es = counts at h
  cases h with
  | waiting number hout hpend hstorage hunread hdispatched =>
    exact ⟨fun hne => absurd hdispatched hne, fun _ _ _ _ => hdispatched⟩
  | refused counts hout hpend hdispatched =>
    exact ⟨fun hne => absurd hdispatched hne, fun _ _ _ _ => hdispatched⟩
  | greeted rest hlen hvalid hdispatched =>
    constructor
    · intro hne
      cases rest with
      | nil => exact absurd (hdispatched rfl) hne
      | cons count rest => exact ⟨count, rest, rfl, hlen, hvalid⟩
    · intro count rest' heq hnot
      obtain ⟨rfl, rfl⟩ := List.cons.inj heq
      exact absurd ⟨rfl, hvalid⟩ hnot

/-- A client says HELLO, and then PING. -/
theorem handshake_gate_ping : ∃ s, run (connectionStep ⟨64, false, fun _ => 0⟩)
      (startSession Db.empty (fun _ => 0) (hello ++ [3, 0, 0, 0, 0, 0, 0])) [.read 6, .read 7] =
      some s ∧ s.dispatched = [⟨requestPing, 0, 0⟩] ∧
    ∃ count rest, readCounts [.read 6, .read 7] = 6 :: count :: rest := by
  refine ⟨_, rfl, rfl, ?_⟩
  obtain ⟨count, rest, hcounts, -⟩ := (@handshake_gate ⟨64, false, fun _ => 0⟩ Db.empty (fun _ => 0)
    (hello ++ [3, 0, 0, 0, 0, 0, 0]) [.read 6, .read 7] _ rfl).1 (List.cons_ne_nil _ _)
  exact ⟨count, rest, hcounts⟩

end StateDb
