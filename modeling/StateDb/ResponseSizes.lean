/-
  StateDb/ResponseSizes.lean
  ==========================
  **The sizes that preambles announce** (`message_out_preamble`, `send_key_not_found`,
  `send_value`, `async_write_error`, `async_write_message()`).

  A client takes the size of a preamble for the number of bytes that follow it.  Each
  kind of response computes the size on its own way, and is honest about it; the pong is
  not, its size is never set.
-/
import StateDb.ResponseFraming
import StateDb.SessionSteps

namespace StateDb

open Lib

/-! ## The kinds of responses -/

theorem honest_keyNotFound (key : Key) : (sendKeyNotFound key).Honest := by
  have hle : preambleSize (key.chars.length + 1) ≤ key.chars.length + 1 := Nat.mod_le _ _
  show preambleSize (key.chars.length + 1) =
    (key.bytes.take (preambleSize (key.chars.length + 1))).length
  rw [List.length_take, Key.bytes, List.length_append, List.length_singleton, Nat.min_eq_left hle]

theorem honest_error (message : Key) : (errorResponse message).Honest := by
  have hle : preambleSize (message.chars.length + 1) ≤ message.chars.length + 1 := Nat.mod_le _ _
  show preambleSize (message.chars.length + 1) =
    (message.bytes.take (preambleSize (message.chars.length + 1))).length
  rw [List.length_take, Key.bytes, List.length_append, List.length_singleton, Nat.min_eq_left hle]

theorem honest_pong_iff (size : Nat) : (pong size).Honest ↔ size = 0 := Iff.rfl

/-- An update is honest, unless its size does not fit. -/
theorem honest_sendObject {obj : DbObject} {r : Response} (h : sendObject obj = .ok r)
    (hobj : ∃ enc, obj.EncodesAs enc) (hfit : r.body.length < 4294967296) : r.Honest := by
  obtain ⟨enc, henc⟩ := hobj
  rw [sendObject_eq henc] at h
  obtain rfl := Except.ok.inj h
  have hlen : (obj.key.bytes ++ obj.dtype :: enc).length =
      1 + enc.length + (obj.key.chars.length + 1) := by
    simp only [Key.bytes, List.length_append, List.length_cons, List.length_nil]
    omega
  show preambleSize (1 + enc.length + (obj.key.chars.length + 1)) =
    (obj.key.bytes ++ obj.dtype :: enc).length
  rw [hlen] at hfit ⊢
  exact Nat.mod_eq_of_lt hfit

theorem honest_answer {w : Nat} {db : Db} {key : Key} {u : Submission} (h : answer w db key = .ok u)
    (hfit : u.response.body.length < 4294967296) : u.response.Honest := by
  unfold answer at h
  cases hget : db.getObject (makeHash w key) with
  | none =>
    rw [hget] at h
    obtain rfl := Except.ok.inj h
    exact honest_keyNotFound key
  | some obj =>
    rw [hget] at h
    obtain ⟨r, hr, h⟩ := bind_eq_ok.mp h
    obtain rfl := Except.ok.inj h
    exact honest_sendObject hr (Db.getObject_encodes hget) hfit

/-! ## Requests -/

/-- What the server does for a request; `served` messages were dispatched with it. -/
def requestEffect (cfg : ServerConfig) (served : Nat) (db : Db) (msgp : MessagePreamble)
    (body : List UInt8) : Except DataError Effect :=
  match dispatcher msgp.id with
  | some .ping => .ok { db := db, replies := [.pong (cfg.pongMemory served)] }
  | some .getAll => getAllRequest cfg.width db
  | _ => bodyRequest cfg.width db msgp body

/-- A request without a body is served when it is dispatched. -/
theorem dispatch_eq_apply (cfg : ServerConfig) (s : Session) (msg : MessagePreamble)
    (h : msg.readsBody = false) (body : List UInt8) :
    s.dispatch cfg msg = { s with dispatched := s.dispatched ++ [msg] }.apply
      (requestEffect cfg (s.dispatched ++ [msg]).length s.db msg body) := by
  unfold Session.dispatch requestEffect bodyRequest
  unfold MessagePreamble.readsBody at h
  cases hhandler : dispatcher msg.id with
  | none => rfl
  | some handler =>
    rw [hhandler] at h
    cases handler with
    | ping => rfl
    | getAll => rfl
    | get => cases h
    | set => cases h

/-- A request with a body is served when its body was read. -/
theorem bodyRequest_eq (cfg : ServerConfig) (served : Nat) (db : Db) (msg : MessagePreamble)
    (h : msg.readsBody = true) (body : List UInt8) :
    bodyRequest cfg.width db msg body = requestEffect cfg served db msg body := by
  unfold requestEffect
  unfold MessagePreamble.readsBody at h
  cases hhandler : dispatcher msg.id with
  | none => rfl
  | some handler =>
    rw [hhandler] at h
    cases handler with
    | ping => cases h
    | getAll => cases h
    | get => rfl
    | set => rfl

/-- Every response that is submitted for the request, and fits, announces its size. -/
def SizesAnnounced (cfg : ServerConfig) (served : Nat) (db : Db) (msgp : MessagePreamble)
    (body : List UInt8) : Prop :=
  ∀ e, requestEffect cfg served db msgp body = .ok e → ∀ u ∈ e.replies ++ e.broadcast,
    u.response.body.length < 4294967296 → u.response.Honest

/-- A loop gives nothing but results of its steps. -/
theorem mem_of_mapM {α β : Type} {f : α → Except DataError β} {l : List α} {bs : List β}
    (h : l.mapM f = .ok bs) {b : β} (hb : b ∈ bs) : ∃ a ∈ l, f a = .ok b := by
  induction l generalizing bs with
  | nil =>
    obtain rfl := Except.ok.inj h
    cases hb
  | cons a l ih =>
    rw [List.mapM_cons] at h
    obtain ⟨b', hb', h⟩ := bind_eq_ok.mp h
    obtain ⟨bs', hbs', h⟩ := bind_eq_ok.mp h
    obtain rfl := Except.ok.inj h
    rcases List.mem_cons.mp hb with rfl | hrest
    · exact ⟨a, List.mem_cons_self, hb'⟩
    · obtain ⟨a', ha', hf⟩ := ih hbs' hrest
      exact ⟨a', List.mem_cons_of_mem _ ha', hf⟩

theorem getAllRequest_submits {w : Nat} {db : Db} {e : Effect} (h : getAllRequest w db = .ok e)
    {u : Submission} (hu : u ∈ e.replies ++ e.broadcast) : ∃ key, answer w db key = .ok u := by
  obtain ⟨us, hus, h⟩ := bind_eq_ok.mp h
  obtain rfl := Except.ok.inj h
  obtain ⟨p, -, hp⟩ := mem_of_mapM hus (by simpa using hu)
  exact ⟨p.2.key, hp⟩

theorem getRequest_submits {w : Nat} {db : Db} {body : List UInt8} {e : Effect}
    (h : getRequest w db body = .ok e) {u : Submission} (hu : u ∈ e.replies ++ e.broadcast) :
    ∃ key, answer w db key = .ok u := by
  obtain ⟨key, -, h⟩ := bind_eq_ok.mp h
  obtain ⟨u', hu', h⟩ := bind_eq_ok.mp h
  obtain rfl := Except.ok.inj h
  obtain rfl : u = u' := by simpa using hu
  exact ⟨key, hu'⟩

theorem setRequest_submits {w : Nat} {db : Db} {body : List UInt8} {e : Effect}
    (h : setRequest w db body = .ok e) {u : Submission} (hu : u ∈ e.replies ++ e.broadcast) :
    (∃ message, u = .error message) ∨ ∃ db' key, answer w db' key = .ok u := by
  unfold setRequest at h
  split at h
  · rename_i db' key hset
    obtain ⟨u', hu', h⟩ := bind_eq_ok.mp h
    obtain rfl := Except.ok.inj h
    obtain rfl : u = u' := by simpa using hu
    exact Or.inr ⟨db', key, hu'⟩
  · rename_i text hset
    obtain rfl := Except.ok.inj h
    exact Or.inl ⟨Key.ofText text, by simpa using hu⟩
  · cases h

/-- Whatever is submitted for a request that is not a PING is an error or an answer. -/
theorem requestEffect_submits {cfg : ServerConfig} {served : Nat} {db : Db} {msgp : MessagePreamble}
    {body : List UInt8} {e : Effect} (hnot : msgp.id ≠ requestPing)
    (h : requestEffect cfg served db msgp body = .ok e) {u : Submission}
    (hu : u ∈ e.replies ++ e.broadcast) :
    (∃ message, u = .error message) ∨ ∃ db' key, answer cfg.width db' key = .ok u := by
  unfold requestEffect bodyRequest at h
  cases hhandler : dispatcher msgp.id with
  | none =>
    rw [hhandler] at h
    obtain rfl := Except.ok.inj h
    cases hu
  | some handler =>
    rw [hhandler] at h
    cases handler with
    | ping => exact absurd (by simpa using mem_of_dispatcher hhandler) hnot
    | get =>
      obtain ⟨key, hkey⟩ := getRequest_submits h hu
      exact Or.inr ⟨db, key, hkey⟩
    | set => exact setRequest_submits h hu
    | getAll =>
      obtain ⟨key, hkey⟩ := getAllRequest_submits h hu
      exact Or.inr ⟨db, key, hkey⟩

/-- Every response announces the size of its body, except for a pong whose memory held
something else than zero. -/
theorem sizesAnnounced_iff (cfg : ServerConfig) (served : Nat) (db : Db) (msgp : MessagePreamble)
    (body : List UInt8) : SizesAnnounced cfg served db msgp body ↔
      (msgp.id = requestPing → cfg.pongMemory served = 0) := by
  constructor
  · intro hannounced hping
    have heffect : requestEffect cfg served db msgp body =
        .ok { db := db, replies := [.pong (cfg.pongMemory served)] } := by
      have hhandler : dispatcher msgp.id = some .ping := hping ▸ rfl
      simp only [requestEffect, hhandler]
    have hpong := hannounced _ heffect (.pong (cfg.pongMemory served)) (by simp)
    exact (honest_pong_iff _).mp (hpong (by decide : 0 < 4294967296))
  · intro hmemory e he u hu hfit
    by_cases hping : msgp.id = requestPing
    · have hhandler : dispatcher msgp.id = some .ping := hping ▸ rfl
      simp only [requestEffect, hhandler] at he
      obtain rfl := Except.ok.inj he
      obtain rfl : u = .pong (cfg.pongMemory served) := by simpa using hu
      exact (honest_pong_iff _).mpr (hmemory hping)
    · rcases requestEffect_submits hping he hu with ⟨message, rfl⟩ | ⟨db', key, hanswer⟩
      · exact honest_error message
      · exact honest_answer hanswer hfit

/-- A pong whose memory held 7 announces seven bytes and has none. -/
theorem pong_not_announced : ¬ SizesAnnounced ⟨64, false, fun _ => 7⟩ 1 Db.empty
    ⟨requestPing, 0, 0⟩ [] := by
  intro hannounced
  have hpong := hannounced _ rfl (.pong 7) (by simp) (by decide)
  exact absurd hpong (by unfold Response.Honest; decide)

end StateDb
