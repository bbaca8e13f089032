/-
  StateDb/Server.lean
  ===================
  **The server and its connections** (`asio_server.h`, `asio_server.cpp`:
  `apply_all_connections`, `set_handler`).

  Every connection that was accepted has a number.  `connections` is the registry, from
  ids to numbers; a response that goes to all connections goes to those of the registry.

  A SET that is refused is answered on the connection of its sender, and nothing else
  happens (`refusedSet_private`).
-/
import StateDb.SessionSteps

namespace StateDb

open Lib

/-! ## The server -/

/-- A connection that was accepted.  The id is its address and port, as one number. -/
structure Accepted where
  id : Nat
  session : Session

def Accepted.onConn (a : Accepted) (f : TcpConnection Part → TcpConnection Part) : Accepted :=
  { a with session := { a.session with conn := f a.session.conn } }

structure Server where
  db : Db
  accepted : List Accepted := []
  connections : List (Nat × Nat) := []
  /-- The posted calls of `handle_connection_remove`, by the connections that posted them. -/
  posted : List Nat := []
  /-- The calls that were executed: who had posted it, and whose entry was erased. -/
  removed : List (Nat × Option Nat) := []

namespace Server

def isRegistered (sv : Server) (i : Nat) : Bool := sv.connections.any fun p => p.2 = i

/-- `apply_all_connections`. -/
def applyAllConnections (sv : Server) (h : TcpConnection Part → TcpConnection Part) : Server :=
  { sv with accepted := sv.accepted.mapIdx fun i a =>
      if sv.isRegistered i then a.onConn h else a }

/-- A handler uses its own connection. -/
def onConnection (sv : Server) (conn : Nat) (h : TcpConnection Part → TcpConnection Part) :
    Server :=
  { sv with accepted := sv.accepted.modify conn fun a => a.onConn h }

/-- `set_handler`, for the connection with the number `conn`. -/
def setHandler (w : Nat) (sv : Server) (conn : Nat) (body : List UInt8) : Except DataError Server :=
  match StateDb.setHandler w sv.db body with
  | .refused text => .ok (sv.onConnection conn fun c => c.submit (.error (Key.ofText text)))
  | .accepted db' key => do
      let u ← answer w db' key
      .ok ({ sv with db := db' }.applyAllConnections fun c => c.submit u)
  | .fault e => .error e

/-- What the sender gets is what its session makes of the request. -/
theorem setHandler_sender {w : Nat} {sv sv' : Server} {conn : Nat} {body : List UInt8}
    {a : Accepted} (ha : sv.accepted[conn]? = some a) (hreg : sv.isRegistered conn = true)
    (h : sv.setHandler w conn body = .ok sv') :
    sv'.accepted[conn]?.map (fun a => a.session.conn) =
      some (a.session.apply (setRequest w sv.db body)).conn := by
  unfold setHandler at h
  unfold setRequest
  cases hset : StateDb.setHandler w sv.db body with
  | refused text =>
    rw [hset] at h
    obtain rfl := Except.ok.inj h
    simp [onConnection, ha, Accepted.onConn, Session.apply]
  | accepted db' key =>
    rw [hset] at h
    obtain ⟨u, hu, h⟩ := bind_eq_ok.mp h
    obtain rfl := Except.ok.inj h
    have hreg' : ({ sv with db := db' } : Server).isRegistered conn = true := hreg
    simp [applyAllConnections, ha, hreg', Accepted.onConn, Session.apply, hu, bind_ok]
  | fault e =>
    rw [hset] at h
    cases h

end Server

/-! ## A SET that is refused -/

/-- The ways to be refused, and the text of each. -/
inductive SetRefused (body : List UInt8) : String → Prop
  | short : body.length - (cstr body).length < 1 + 1 →
      SetRefused body "You have sent not enough data for DTYPE"
  | unknownType (dtype : UInt8) (value : List UInt8) :
      body.drop ((cstr body).length + 1) = dtype :: value → hasType dtype = false →
      SetRefused body "Unknown type"
  | noSpace (dtype : UInt8) (value : List UInt8) :
      body.drop ((cstr body).length + 1) = dtype :: value → hasType dtype = true →
      DbObject.load dtype (Key.ofBuffer body) value = .error .unsufficientSpace →
      SetRefused body "Not enough space for VALUE"

/-- A body is refused for one of these causes and for no other. -/
theorem setHandler_refused_iff {w : Nat} {db : Db} {body : List UInt8} {text : String} :
    setHandler w db body = .refused text ↔ SetRefused body text := by
  constructor
  · intro h
    cases hparts : body.drop ((cstr body).length + 1) with
    | nil =>
      have hle : body.length ≤ (cstr body).length + 1 := List.drop_eq_nil_iff.mp hparts
      rw [setHandler_short hparts] at h
      obtain rfl := SetResult.refused.inj h
      exact .short (by omega)
    | cons dtype value =>
      rw [setHandler_parts hparts] at h
      by_cases htype : hasType dtype = true
      · rw [if_neg (by simp [htype])] at h
        cases hload : DbObject.load dtype (Key.ofBuffer body) value with
        | ok obj =>
          rw [Db.setValue_of_load hload] at h
          cases h
        | error e =>
          rw [Db.setValue_of_error hload] at h
          cases e with
          | unsufficientSpace =>
            obtain rfl := SetResult.refused.inj h
            exact .noSpace dtype value hparts htype hload
          | _ => cases h
      · rw [if_pos htype] at h
        obtain rfl := SetResult.refused.inj h
        exact .unknownType dtype value hparts (by simpa using htype)
  · intro h
    cases h with
    | short hshort => simp only [setHandler, if_pos hshort]
    | unknownType dtype value hparts htype =>
      rw [setHandler_parts hparts, if_pos (by simp [htype])]
    | noSpace dtype value hparts htype hload =>
      rw [setHandler_parts hparts, if_neg (by simp [htype]), Db.setValue_of_error hload]

/-- A SET that is refused leaves the database and every connection as they were, but for
one error response that is submitted on the connection of the sender. -/
theorem refusedSet_private {w : Nat} {sv : Server} {conn : Nat} {body : List UInt8} {text : String}
    (h : SetRefused body text) : ∃ sv', sv.setHandler w conn body = .ok sv' ∧ sv'.db = sv.db ∧
      (∀ i, i ≠ conn → sv'.accepted[i]? = sv.accepted[i]?) ∧
      sv'.accepted[conn]? = sv.accepted[conn]?.map (fun a =>
        a.onConn fun c => c.submit (.error (Key.ofText text))) ∧
      sv'.connections = sv.connections ∧ sv'.posted = sv.posted ∧ sv'.removed = sv.removed := by
  have hset : StateDb.setHandler w sv.db body = .refused text := setHandler_refused_iff.mpr h
  refine ⟨sv.onConnection conn fun c => c.submit (.error (Key.ofText text)), ?_, rfl, ?_, ?_, rfl,
    rfl, rfl⟩
  · simp only [Server.setHandler, hset]
  · intro i hi
    exact List.getElem?_modify_ne _ _ (Ne.symm hi)
  · exact List.getElem?_modify_eq _ _ _

/-- Two clients are connected; the first one sends a SET whose value is too short. -/
theorem refusedSet_private_two : ∃ sv',
    (⟨Db.empty, [⟨10, startSession Db.empty (fun _ => 0) []⟩,
      ⟨11, startSession Db.empty (fun _ => 0) []⟩], [(10, 0), (11, 1)], [], []⟩ : Server).setHandler
        64 0 (keyAb.bytes ++ [dtypeInt32, 1]) = .ok sv' ∧
    sv'.accepted[1]? = some ⟨11, startSession Db.empty (fun _ => 0) []⟩ := by
  obtain ⟨sv', hset, -, hothers, -⟩ := refusedSet_private
    (.noSpace dtypeInt32 [1] rfl rfl rfl : SetRefused (keyAb.bytes ++ [dtypeInt32, 1]) _)
  exact ⟨sv', hset, hothers 1 (by decide)⟩

end StateDb
