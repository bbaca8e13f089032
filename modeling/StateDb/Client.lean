/-
  StateDb/Client.lean
  ===================
  **What a client reads off the wire** (`net_message.h`: `message_out_preamble`; `connection.h`:
  `async_write_message`; `connection.cpp`: `handle_write_operation`; `asio_server.cpp`).

  A client takes six bytes for a preamble, and as many as it announces for the body
  (`readResponse`).  From whole responses it reads these responses (`readResponses_bytes`), if
  each announces its size (`ResponseBounds.lean`).

  So the bytes on the wire of a connection are what one B+ tree answers which serves the
  requests of all connections one at a time, but for what is still to be written and for
  the order of responses that are about different keys (`client_reads`).  A client that has
  asked for everything, and takes over what it reads, has a copy of the database as soon as
  nothing is left to write (`client_follows`).
-/
import StateDb.Delivery
import StateDb.Replica
import StateDb.ResponseBounds

namespace StateDb

open Lib

/-! ## Responses as bytes -/

def Response.bytes (r : Response) : List UInt8 := r.preambleBytes ++ r.body

/-- A response is read, if it is whole. -/
def readResponse (bytes : List UInt8) : Option (Response × List UInt8) :=
  let size := leNat ((bytes.drop 2).take 4)
  let rest := bytes.drop 6
  if bytes.length < 6 || rest.length < size then none
  else some (⟨leNat (bytes.take 2), size, rest.take size⟩, rest.drop size)

def readFrom : Nat → List UInt8 → List Response
  | 0, _ => []
  | fuel + 1, bytes =>
      match readResponse bytes with
      | none => []
      | some (r, rest) => r :: readFrom fuel rest

/-- The responses that are whole; each has a byte at least. -/
def readResponses (bytes : List UInt8) : List Response := readFrom bytes.length bytes

@[simp] theorem Response.length_preambleBytes (r : Response) : r.preambleBytes.length = 6 := by
  simp [preambleBytes]

/-- The fields of a preamble. -/
theorem Response.Announced.fields {r : Response} (h : r.Announced) (rest : List UInt8) :
    leNat ((r.preambleBytes ++ rest).take 2) = r.id ∧
      leNat (((r.preambleBytes ++ rest).drop 2).take 4) = r.size := by
  have hdrop : (r.preambleBytes ++ rest).drop 2 = le 4 r.size ++ rest := by
    rw [preambleBytes, List.append_assoc, List.drop_left' (length_le 2 r.id)]
  constructor
  · rw [preambleBytes, List.append_assoc, List.take_left' (length_le 2 r.id), leNat_le h.id_lt]
  · rw [hdrop, List.take_left' (length_le 4 r.size), leNat_le h.size_lt]

/-- Behind a preamble, as many bytes are the body as it announces. -/
theorem readResponse_announced {r : Response} (h : r.Announced) (rest : List UInt8) :
    readResponse (r.preambleBytes ++ rest) =
      if rest.length < r.size then none
      else some (⟨r.id, r.size, rest.take r.size⟩, rest.drop r.size) := by
  obtain ⟨hid, hsize⟩ := h.fields rest
  have hrest : (r.preambleBytes ++ rest).drop 6 = rest := List.drop_left' r.length_preambleBytes
  rw [readResponse, hid, hsize, hrest]
  simp

theorem readResponse_bytes {r : Response} (h : r.Announced) (rest : List UInt8) :
    readResponse (r.bytes ++ rest) = some (r, rest) := by
  have hlength : ¬ (r.body ++ rest).length < r.size := by
    rw [h.honest, List.length_append]
    omega
  rw [Response.bytes, List.append_assoc, readResponse_announced h, if_neg hlength,
    List.take_left' h.honest.symm, List.drop_left' h.honest.symm]

/-- The body of a preamble is still to come. -/
theorem readResponse_preamble {r : Response} (h : r.Announced) (hbody : r.body ≠ []) :
    readResponse r.preambleBytes = none := by
  have hsize : 0 < r.size := by
    rw [h.honest]
    exact List.length_pos_iff.mpr hbody
  have hnone := readResponse_announced h []
  rwa [List.append_nil, List.length_nil, if_pos hsize] at hnone

/-- Whole responses are read one after the other. -/
theorem readFrom_bytes {rs : List Response} (hrs : ∀ r ∈ rs, r.Announced) {rest : List UInt8}
    (hrest : readResponse rest = none) {fuel : Nat} (hfuel : rs.length ≤ fuel) :
    readFrom fuel (rs.flatMap Response.bytes ++ rest) = rs := by
  induction rs generalizing fuel with
  | nil =>
    cases fuel with
    | zero => rfl
    | succ fuel => rw [List.flatMap_nil, List.nil_append, readFrom, hrest]
  | cons r rs ih =>
    obtain ⟨fuel, rfl⟩ := Nat.exists_eq_add_of_le' (Nat.le_of_add_left_le hfuel)
    rw [List.flatMap_cons, List.append_assoc, readFrom,
      readResponse_bytes (hrs r List.mem_cons_self)]
    dsimp only
    rw [ih (fun r' hr' => hrs r' (List.mem_cons_of_mem _ hr')) (by simpa using hfuel)]

/-- A client reads the responses that are whole, and what is left over is none. -/
theorem readResponses_bytes {rs : List Response} (hrs : ∀ r ∈ rs, r.Announced) {rest : List UInt8}
    (hrest : readResponse rest = none) :
    readResponses (rs.flatMap Response.bytes ++ rest) = rs := by
  refine readFrom_bytes hrs hrest ?_
  rw [List.length_append, List.length_flatMap]
  have hsum := List.length_le_sum_of_one_le (rs.map fun r => r.bytes.length) ?_
  · rw [List.length_map] at hsum
    exact Nat.le_add_right_of_le hsum
  · intro n hn
    obtain ⟨r, -, rfl⟩ := List.mem_map.mp hn
    rw [Response.bytes, List.length_append, Response.length_preambleBytes]
    omega

/-! ## The wire -/

/-- What a client has received. -/
def TcpConnection.bytesOut (c : TcpConnection Part) : List UInt8 :=
  c.wire.flatMap fun p => (Wire.bytes p.1).take p.2

theorem bytes_parts (rs : List Response) :
    (rs.flatMap Response.parts).flatMap Wire.bytes = rs.flatMap Response.bytes := by
  rw [List.flatMap_assoc]
  refine List.flatMap_congr fun r _ => ?_
  by_cases hbody : r.body = []
  · simp [Response.parts, Response.bytes, Wire.bytes, hbody]
  · simp [Response.parts, Response.bytes, Wire.bytes, hbody]

namespace Delivers

variable {c : TcpConnection Part} {us : List Submission} {done : List Response}
  {q : Slot Submission}

theorem bytesOut_eq (h : Delivers c us done q) : c.bytesOut = c.sent.flatMap Wire.bytes := by
  rw [TcpConnection.bytesOut, TcpConnection.sent, List.flatMap_map]
  refine List.flatMap_congr fun p hp => ?_
  rw [h.whole p hp, List.take_length]

/-- A client reads what is whole on the wire; the other responses are still in the slot. -/
theorem readResponses (h : Delivers c us done q) (hus : ∀ u ∈ us, u.response.Announced) :
    StateDb.readResponses c.bytesOut = done := by
  have hannounced : ∀ r ∈ inOrder done q, r.Announced := by
    intro r hr
    obtain ⟨u, hu, rfl⟩ := List.mem_map.mp (h.perm.mem_iff.mp hr)
    exact hus u hu
  have hdone : ∀ r ∈ done, r.Announced := fun r hr => hannounced r (List.mem_append_left _ hr)
  have hwhole := @readResponses_bytes done hdone [] rfl
  rw [List.append_nil] at hwhole
  rw [h.bytesOut_eq]
  cases h.serving with
  | idle hslot hsent => rw [hsent, bytes_parts, hwhole]
  | preamble u op ops waiting hops hslot hsent => rw [hsent, bytes_parts, hwhole]
  | body u waiting hbody hslot hsent =>
    have hcurrent : u.response.Announced := hannounced _ (by simp [inOrder])
    rw [hsent, List.flatMap_append, bytes_parts]
    refine readResponses_bytes hdone ?_
    simpa [Wire.bytes] using readResponse_preamble hcurrent hbody

/-- When the socket has no write, nothing is left. -/
theorem nothing_later (h : Delivers c us done q) (hout : c.writes.outstanding = []) :
    (q.current.toList ++ q.pending).map Submission.response = [] := by
  have hnone : c.writeSlot.current = none := by simp [TcpConnection.writeSlot, hout]
  cases h.serving with
  | idle => rfl
  | preamble u op ops waiting hops hslot hsent => exact absurd hnone (by simp [hslot])
  | body u waiting hbody hslot hsent => exact absurd hnone (by simp [hslot])

end Delivers

/-! ## A copy from responses -/

/-- A response is taken over by its id. -/
def Replica.take (copy : Replica) (r : Response) : Replica :=
  if r.id = responseKeyUpdate then copy.receive (.keyUpdated r)
  else if r.id = responseKeyDeleted then copy.receive (.keyNotFound r.key)
  else copy

namespace Replica

variable {copy copy' : Replica} {key : Key} {r : Response}

/-- The key of a key-not-found that fits. -/
theorem key_keyNotFound (hfits : key.chars.length + 1 < 4294967296) :
    (sendKeyNotFound key).key = key := by
  have hsize : preambleSize (key.chars.length + 1) = key.chars.length + 1 := Nat.mod_eq_of_lt hfits
  have hbody : (sendKeyNotFound key).body = key.bytes := by
    show key.bytes.take (preambleSize (key.chars.length + 1)) = key.bytes
    rw [hsize]
    exact List.take_of_length_le (by simp [Key.bytes])
  apply Key.ext_chars
  show cstr (sendKeyNotFound key).body = key.chars
  rw [hbody, Key.bytes, cstr_append_zero _ key.noZero]

theorem take_response {cfg : ServerConfig} {u : Submission} (h : u.IsServed cfg) (hfits : u.Fits) :
    copy.take u.response = copy.receive u := by
  rcases h with ⟨served, rfl⟩ | ⟨message, rfl⟩ | ⟨db, key, hanswer⟩
  · rfl
  · rfl
  · rcases answer_cases hanswer with rfl | ⟨r, rfl, hid, -⟩
    · show copy.receive (.keyNotFound (sendKeyNotFound key).key) = _
      rw [key_keyNotFound hfits]
    · show copy.take r = _
      rw [take, if_pos hid]

/-- Of a key, a response changes nothing, or it is about the key and says what it is. -/
theorem take_at (r : Response) (key : Key) : (∀ copy : Replica, copy.take r key = copy key) ∨
    (r.isAbout key = true ∧ ∃ value, ∀ copy : Replica, copy.take r key = value) := by
  by_cases hupdate : r.id = responseKeyUpdate
  · have htake : ∀ copy : Replica, copy.take r = copy.receive (.keyUpdated r) :=
      fun copy => if_pos hupdate
    cases hvalue : r.body.drop ((cstr r.body).length + 1) with
    | nil =>
      refine Or.inl fun copy => ?_
      rw [htake, receive, hvalue]
    | cons dtype value =>
      have hreceive : ∀ copy : Replica,
          copy.take r = Function.update copy r.key (some (dtype, value)) := by
        intro copy
        rw [htake, receive, hvalue]
        rfl
      by_cases hkey : key = r.key
      · refine Or.inr ⟨by simp [Response.isAbout, hupdate, hkey], some (dtype, value),
          fun copy => ?_⟩
        rw [hreceive, hkey, Function.update_self]
      · refine Or.inl fun copy => ?_
        rw [hreceive, Function.update_of_ne hkey]
  · by_cases hdeleted : r.id = responseKeyDeleted
    · have htake : ∀ copy : Replica, copy.take r = Function.update copy r.key none := by
        intro copy
        rw [take, if_neg hupdate, if_pos hdeleted, receive]
      by_cases hkey : key = r.key
      · refine Or.inr ⟨by simp [Response.isAbout, hdeleted, hkey], none, fun copy => ?_⟩
        rw [htake, hkey, Function.update_self]
      · refine Or.inl fun copy => ?_
        rw [htake, Function.update_of_ne hkey]
    · refine Or.inl fun copy => ?_
      rw [take, if_neg hupdate, if_neg hdeleted]

/-- What a copy says of a key comes from the responses about the key. -/
theorem foldl_take_filter (rs : List Response) {copy copy' : Replica} (h : copy key = copy' key) :
    rs.foldl take copy key = (rs.filter (Response.isAbout key)).foldl take copy' key := by
  induction rs generalizing copy copy' with
  | nil => exact h
  | cons r rs ih =>
    rw [List.foldl_cons]
    rcases take_at r key with hsame | ⟨habout, value, hvalue⟩
    · cases habout : r.isAbout key with
      | false =>
        rw [List.filter_cons_of_neg (by simp [habout])]
        exact ih ((hsame copy).trans h)
      | true =>
        rw [List.filter_cons_of_pos habout, List.foldl_cons]
        exact ih ((hsame copy).trans (h.trans (hsame copy').symm))
    · rw [List.filter_cons_of_pos habout, List.foldl_cons]
      exact ih ((hvalue copy).trans (hvalue copy').symm)

/-- Submissions that fit, as responses. -/
theorem foldl_take_responses {cfg : ServerConfig} {us : List Submission}
    (hserved : ∀ u ∈ us, u.IsServed cfg) (hfits : ∀ u ∈ us, u.Fits) (copy : Replica) :
    (us.map Submission.response).foldl take copy = us.foldl receive copy := by
  rw [List.foldl_map]
  refine List.foldl_ext _ _ copy fun copy' u hu => ?_
  exact take_response (hserved u hu) (hfits u hu)

end Replica

/-! ## Runs of the server -/

/-- The client has read `read`, and `later` is still to come: but for pongs these are the
submissions, and those about one key come in their order. -/
structure HasRead (read later : List Response) (us : List Submission) : Prop where
  perm : ((read ++ later).filter fun r => r.id ≠ responsePong).Perm (us.map Submission.response)
  order : ∀ key, (read ++ later).filter (Response.isAbout key) =
    (us.map Submission.response).filter (Response.isAbout key)

theorem filter_answersOf {cfg : ServerConfig} {us : List Submission}
    (h : ∀ u ∈ us, u.IsServed cfg) :
    (us.map Submission.response).filter (fun r => r.id ≠ responsePong) =
      (answersOf us).map Submission.response := by
  rw [List.filter_map, answersOf]
  congr 1
  refine List.filter_congr fun u hu => ?_
  have hpong := (h u hu).isPong
  simp only [Function.comp, ← hpong]
  simp

/-- A pong is about no key. -/
theorem isAbout_notPong {key : Key} {r : Response} (h : r.isAbout key = true) :
    r.id ≠ responsePong := by
  intro hpong
  simp only [Response.isAbout, hpong, Bool.and_eq_true] at h
  exact absurd h.1 (by decide)

theorem filter_isAbout_notPong (key : Key) (rs : List Response) :
    (rs.filter fun r => r.id ≠ responsePong).filter (Response.isAbout key) =
      rs.filter (Response.isAbout key) := by
  rw [List.filter_filter]
  refine List.filter_congr fun r _ => ?_
  cases habout : r.isAbout key with
  | false => rfl
  | true => simpa using isAbout_notPong habout

/-- The responses that a connection delivers. -/
theorem Delivers.reads {c : TcpConnection Part} {us : List Submission} {done : List Response}
    {q : Slot Submission} (h : Delivers c us done q) {cfg : ServerConfig}
    (hserved : ∀ u ∈ us, u.IsServed cfg) (hfits : ∀ u ∈ us, u.Fits) :
    StateDb.readResponses c.bytesOut = done ∧
      HasRead done ((q.current.toList ++ q.pending).map Submission.response) (answersOf us) := by
  refine ⟨h.readResponses fun u hu => (hserved u hu).announced (hfits u hu), ?_, ?_⟩
  · rw [← filter_answersOf hserved]
    exact h.perm.filter _
  · intro key
    rw [← filter_answersOf hserved, filter_isAbout_notPong]
    exact h.order key

/-- With pongs that announce nothing, all responses fit. -/
theorem responses_fit {cfg : ServerConfig} {before es : List ServerEvent} {sv sv' : Server}
    {j : Nat} (hbefore : run (Server.step cfg) { db := Db.empty } before = some sv)
    (hrun : run (Server.step cfg) sv es = some sv') (hreg : StaysRegistered cfg j sv es)
    (hsmall : ∀ p ∈ Server.history cfg { db := Db.empty } before ++ Server.history cfg sv es,
      p.2.body.length ≤ 3221225472) (hmemory : ∀ served, cfg.pongMemory served = 0) :
    (∀ u ∈ Server.submissionsOn cfg j sv es, u.IsServed cfg) ∧
      ∀ u ∈ Server.submissionsOn cfg j sv es, u.Fits := by
  have hall := run_fits hbefore hrun hreg hsmall
  refine ⟨fun u hu => (hall u hu).1, fun u hu => ?_⟩
  obtain ⟨hserved, hfits⟩ := hall u hu
  cases hpong : u.isPong with
  | false => exact hfits hpong
  | true =>
    rcases hserved with ⟨served, rfl⟩ | ⟨message, rfl⟩ | ⟨db, key, hanswer⟩
    · exact hmemory served
    · cases hpong
    · rw [answer_isPong hanswer] at hpong
      cases hpong

section Runs

variable {cfg : ServerConfig} {es es' : List ServerEvent} {sv sv' : Server} {id : Nat}
  {memory : Nat → Nat} {stream : List UInt8} {j : Nat} {a : Accepted}

/-- A connection delivers what is submitted on it since it was accepted. -/
theorem delivers_run
    (hbefore : run (Server.step cfg) { db := Db.empty } (es ++ [.accept id memory stream]) =
      some sv)
    (hj : sv.accepted.length = j + 1) (hrun : run (Server.step cfg) sv es' = some sv')
    (hwhole : Along (Server.step cfg) (WritesWhole j) sv es') (ha : a ∈ sv'.accepted[j]?) :
    ∃ done q, Delivers a.session.conn (Server.submissionsOn cfg j sv es') done q := by
  obtain ⟨sv₀, rfl, hlength⟩ := Server.run_accept hbefore
  obtain rfl : sv₀.accepted.length = j := Nat.succ.inj (hlength.symm.trans hj)
  obtain ⟨a', ha', hdelivers⟩ :=
    deliversOn_run (deliversOn_accepted sv₀ id memory stream) hwhole hrun
  obtain rfl := Option.some.inj (ha'.symm.trans ha)
  exact hdelivers

end Runs

/-- In every run of the server whose requests have at most 3 GiB and whose pongs announce nothing,
for a connection that stays registered and whose writes are whole: what a client reads of the
bytes on the wire, and what is still to come, are but for pongs the answers and updates of
one B+ tree that serves the requests of all connections in the order of the history, those
about one key in this order. -/
theorem client_reads {cfg : ServerConfig} {es es' : List ServerEvent} {sv sv' : Server} {id : Nat}
    {memory : Nat → Nat} {stream : List UInt8} {j : Nat}
    (hbefore : run (Server.step cfg) { db := Db.empty } (es ++ [.accept id memory stream]) =
      some sv)
    (hj : sv.accepted.length = j + 1) (hrun : run (Server.step cfg) sv es' = some sv')
    (hreg : StaysRegistered cfg j sv es') (hwhole : Along (Server.step cfg) (WritesWhole j) sv es')
    (hsmall : ∀ p ∈ Server.history cfg { db := Db.empty } (es ++ [.accept id memory stream]) ++
      Server.history cfg sv es', p.2.body.length ≤ 3221225472)
    (hmemory : ∀ served, cfg.pongMemory served = 0) {a : Accepted}
    (ha : a ∈ sv'.accepted[j]?) :
    ∃ t t' sent sent' later,
      Returns (fun fuel => DbTree.serve Bpt.Order.six.config cfg.width fuel {}
        ((Server.history cfg { db := Db.empty } (es ++ [.accept id memory stream])).map Prod.snd))
        (sent, .ok t) ∧
      Returns (fun fuel => DbTree.serve Bpt.Order.six.config cfg.width fuel t
        ((Server.history cfg sv es').map Prod.snd)) (sent', .ok t') ∧
      sv'.db.InTree t' ∧
      HasRead (readResponses a.session.conn.bytesOut) later
        (delivered j (Server.history cfg sv es') sent') ∧
      (a.session.conn.writes.outstanding = [] → later = []) := by
  obtain ⟨t, t', sent, sent', hreturns, hreturns', ht', hanswers⟩ := run_tree hbefore hrun hreg
  obtain ⟨done, q, hdelivers⟩ := delivers_run hbefore hj hrun hwhole ha
  obtain ⟨hserved, hfits⟩ := responses_fit hbefore hrun hreg hsmall hmemory
  obtain ⟨hread, hreads⟩ := hdelivers.reads hserved hfits
  refine ⟨t, t', sent, sent', _, hreturns, hreturns', ht', ?_, hdelivers.nothing_later⟩
  rw [hread, ← hanswers]
  exact hreads

/-- The first of two clients. -/
def setter : ServerEvent :=
  .accept 10 (fun _ => 0) (hello ++ [4, 0, 0, 5, 0, 0, 0] ++ setAbSeven.body)

/-- The second one asks for everything. -/
def asker : ServerEvent := .accept 11 (fun _ => 0) (hello ++ [5, 0, 0, 0, 0, 0, 0])

/-- It is sent the update of the first one, in two writes. -/
def followed : List ServerEvent :=
  [.connection 0 (.read 6), .connection 1 (.read 6)] ++ watched ++
    [.connection 1 (.written 6), .connection 1 (.written 5)]

theorem followed_whole {sv : Server}
    (hbefore : run (Server.step ⟨64, false, fun _ => 0⟩) { db := Db.empty } [setter, asker] =
      some sv) :
    Along (Server.step ⟨64, false, fun _ => 0⟩) (WritesWhole 1) sv followed := by
  obtain rfl := Option.some.inj hbefore
  refine ⟨trivial, fun sv₁ h₁ => ?_⟩
  obtain rfl := Option.some.inj h₁
  refine ⟨trivial, fun sv₂ h₂ => ?_⟩
  obtain rfl := Option.some.inj h₂
  refine ⟨trivial, fun sv₃ h₃ => ?_⟩
  obtain rfl := Option.some.inj h₃
  refine ⟨trivial, fun sv₄ h₄ => ?_⟩
  obtain rfl := Option.some.inj h₄
  refine ⟨trivial, fun sv₅ h₅ => ?_⟩
  obtain rfl := Option.some.inj h₅
  refine ⟨?_, fun sv₆ h₆ => ?_⟩
  · rintro - a ha
    obtain rfl := Option.some.inj ha
    refine ⟨fun o ho => ?_, fun _ op hop => absurd hop (Option.not_mem_none op)⟩
    rw [List.mem_singleton.mp ho]
    rfl
  obtain rfl := Option.some.inj h₆
  refine ⟨?_, fun _ _ => trivial⟩
  rintro - a ha
  obtain rfl := Option.some.inj ha
  refine ⟨fun o ho => ?_, fun _ op hop => absurd hop (Option.not_mem_none op)⟩
  rw [List.mem_singleton.mp ho]
  rfl

theorem followed_small {sv : Server}
    (hbefore : run (Server.step ⟨64, false, fun _ => 0⟩) { db := Db.empty } [setter, asker] =
      some sv) :
    ∀ p ∈ Server.history ⟨64, false, fun _ => 0⟩ { db := Db.empty } [setter, asker] ++
      Server.history ⟨64, false, fun _ => 0⟩ sv followed, p.2.body.length ≤ 3221225472 := by
  obtain rfl := Option.some.inj hbefore
  have hsmall : ∀ p ∈ [(1, DbRequest.getAll), (0, .set setAbSeven.body)],
      p.2.body.length ≤ 3221225472 := by decide
  exact hsmall

theorem client_reads_update : ∃ sv sv' a t sent later,
    run (Server.step ⟨64, false, fun _ => 0⟩) { db := Db.empty } [setter, asker] = some sv ∧
    run (Server.step ⟨64, false, fun _ => 0⟩) sv followed = some sv' ∧ a ∈ sv'.accepted[1]? ∧
    sv'.db.InTree t ∧ readResponses a.session.conn.bytesOut = [updateAb] ∧
    HasRead (readResponses a.session.conn.bytesOut) later
      (delivered 1 (Server.history ⟨64, false, fun _ => 0⟩ sv followed) sent) := by
  obtain ⟨t, t', before, sent, later, -, -, ht', hreads, -⟩ :=
    @client_reads ⟨64, false, fun _ => 0⟩ [setter] followed _ _ 11 _ _ 1 rfl rfl rfl
      (staysRegistered_of_connections rfl (by simp [followed, watched])) (followed_whole rfl)
      (followed_small rfl) (fun _ => rfl) _ rfl
  exact ⟨_, _, _, t', sent, later, rfl, rfl, rfl, ht', rfl, hreads⟩

/-- A client that has asked for everything some time, and takes over what it reads, has a copy of
the database when nothing is left to write on its connection. -/
theorem client_follows {cfg : ServerConfig} {es es' : List ServerEvent} {sv sv' : Server} {id : Nat}
    {memory : Nat → Nat} {stream : List UInt8} {j : Nat}
    (hbefore : run (Server.step cfg) { db := Db.empty } (es ++ [.accept id memory stream]) =
      some sv)
    (hj : sv.accepted.length = j + 1) (hrun : run (Server.step cfg) sv es' = some sv')
    (hreg : StaysRegistered cfg j sv es') (hwhole : Along (Server.step cfg) (WritesWhole j) sv es')
    (hsmall : ∀ p ∈ Server.history cfg { db := Db.empty } (es ++ [.accept id memory stream]) ++
      Server.history cfg sv es', p.2.body.length ≤ 3221225472)
    (hmemory : ∀ served, cfg.pongMemory served = 0) {a : Accepted}
    (ha : a ∈ sv'.accepted[j]?)
    (hask : (j, .getAll) ∈ Server.history cfg sv es')
    (hout : a.session.conn.writes.outstanding = []) :
    Follows cfg.width sv'.db
      ((readResponses a.session.conn.bytesOut).foldl Replica.take fun _ => none) := by
  obtain ⟨before, hserve⟩ := ((Server.recorded_start cfg).run hbefore).serves
  have hkeys : sv.db.KeysHashed cfg.width :=
    keysHashed_serve (fun p hp => absurd hp List.not_mem_nil) hserve
  obtain ⟨sent, hserve', hanswers⟩ := run_answers hrun hreg
  obtain ⟨done, q, hdelivers⟩ := delivers_run hbefore hj hrun hwhole ha
  obtain ⟨hserved, hfits⟩ := responses_fit hbefore hrun hreg hsmall hmemory
  obtain ⟨hread, hreads⟩ := hdelivers.reads hserved hfits
  -- the responses make the copy that the submissions make
  have hcopy : done.foldl Replica.take (fun _ => none) =
      (Server.submissionsOn cfg j sv es').foldl Replica.receive fun _ => none := by
    rw [← Replica.foldl_take_responses hserved hfits]
    funext key
    rw [Replica.foldl_take_filter done rfl, Replica.foldl_take_filter (List.map _ _) rfl,
      ← hdelivers.order key, inOrder, hdelivers.nothing_later hout, List.append_nil]
  rw [hread, hcopy, ← foldl_answersOf, hanswers]
  exact Absent.serve (fun _ _ => rfl) hkeys hask hserve'

theorem client_follows_update : ∃ sv sv' a,
    run (Server.step ⟨64, false, fun _ => 0⟩) { db := Db.empty } [setter, asker] = some sv ∧
    run (Server.step ⟨64, false, fun _ => 0⟩) sv followed = some sv' ∧ a ∈ sv'.accepted[1]? ∧
    Follows 64 sv'.db ((readResponses a.session.conn.bytesOut).foldl Replica.take fun _ => none) :=
  ⟨_, _, _, rfl, rfl, rfl,
    @client_follows ⟨64, false, fun _ => 0⟩ [setter] followed _ _ 11 _ _ 1 rfl rfl rfl
      (staysRegistered_of_connections rfl (by simp [followed, watched])) (followed_whole rfl)
      (followed_small rfl) (fun _ => rfl) _ rfl (.head _) rfl⟩

end StateDb
