/-
  StateDb/GetAll.lean
  ===================
  **GET_ALL** (`get_all_handler`).

  The handler goes through the objects of the tree and looks each up again by the hash
  of its key.  It finds the object it came from because SET stores every object under
  the hash of its own key (`keysHashed_setHandler`), also where one key takes the place
  of another that has the same hash.
-/
import StateDb.Session

namespace StateDb

open Lib Lib.SortedAssoc

/-- The databases that accepted SETs lead to. -/
inductive Db.Reached (w : Nat) : Db → Prop
  | empty : Reached w Db.empty
  | set {db db' : Db} {body : List UInt8} {key : Key} : Reached w db →
      setHandler w db body = .accepted db' key → Reached w db'

/-- Every object lies under the hash of its key. -/
def Db.KeysHashed (w : Nat) (db : Db) : Prop := ∀ p ∈ db.tree, makeHash w p.2.key = p.1

theorem keysHashed_setHandler {w : Nat} {db db' : Db} {body : List UInt8} {key : Key}
    (hdb : db.KeysHashed w) (h : setHandler w db body = .accepted db' key) : db'.KeysHashed w := by
  obtain ⟨r, rfl⟩ := exists_request h
  obtain ⟨-, obj, hobj, htree⟩ := setHandler_accepted h
  obtain ⟨-, hkey, -⟩ := DbObject.load_spec hobj
  intro p hp
  rw [htree] at hp
  rcases mem_upsert hp with rfl | hold
  · exact congrArg (makeHash w) hkey
  · exact hdb p hold

theorem Db.Reached.keysHashed {w : Nat} {db : Db} (h : db.Reached w) : db.KeysHashed w := by
  induction h with
  | empty =>
    intro p hp
    cases hp
  | set _ hset ih => exact keysHashed_setHandler ih hset

/-- The second lookup finds the object itself. -/
theorem Db.KeysHashed.getObject {w : Nat} {db : Db} (h : db.KeysHashed w) {p : Nat × DbObject}
    (hp : p ∈ db.tree) : db.getObject (makeHash w p.2.key) = some p.2 := by
  rw [h p hp]
  exact (lookup_eq_some_iff db.sorted).mpr hp

/-- A key-updated response with the key, the type and the value of the object. -/
def Updates (obj : DbObject) (u : Submission) : Prop :=
  ∃ enc, obj.EncodesAs enc ∧ u = .keyUpdated ⟨responseKeyUpdate,
    preambleSize (1 + enc.length + (obj.key.chars.length + 1)), obj.key.bytes ++ obj.dtype :: enc⟩

theorem answer_updates {w : Nat} {db : Db} {key : Key} {obj : DbObject}
    (h : db.getObject (makeHash w key) = some obj) :
    ∃ u, answer w db key = .ok u ∧ Updates obj u := by
  obtain ⟨enc, henc⟩ := Db.getObject_encodes h
  refine ⟨_, ?_, enc, henc, rfl⟩
  simp only [answer, h, sendObject_eq henc, bind_ok]

theorem getAllRequest_updates {w : Nat} {db : Db} (h : db.KeysHashed w) :
    ∃ us, getAllRequest w db = .ok { db := db, replies := us } ∧
      List.Forall₂ (fun p u => Updates p.2 u) db.tree us := by
  obtain ⟨us, hus, hall⟩ := mapM_forall₂ (f := fun p => answer w db p.2.key)
    (R := fun p u => Updates p.2 u) fun p hp => answer_updates (h.getObject hp)
  exact ⟨us, by simp only [getAllRequest, hus, bind_ok], hall⟩

/-- In every database that accepted SETs lead to, each object is found by the hash of its
key, and GET_ALL answers with one key-updated response for each object, in the order of
the tree, and does nothing else. -/
theorem getAll_exact {cfg : ServerConfig} {s : Session} {msg : MessagePreamble}
    (hdb : s.db.Reached cfg.width) (hmsg : msg.id = requestGetAll) :
    (∀ p ∈ s.db.tree, makeHash cfg.width p.2.key = p.1 ∧
        s.db.getObject (makeHash cfg.width p.2.key) = some p.2) ∧
      ∃ us, List.Forall₂ (fun p u => Updates p.2 u) s.db.tree us ∧
        s.dispatch cfg msg = { s with
          dispatched := s.dispatched ++ [msg]
          conn := us.foldl TcpConnection.submit s.conn } := by
  have hkeys := hdb.keysHashed
  obtain ⟨us, hus, hall⟩ := getAllRequest_updates hkeys
  refine ⟨fun p hp => ⟨hkeys p hp, hkeys.getObject hp⟩, us, hall, ?_⟩
  have hhandler : dispatcher msg.id = some .getAll := hmsg ▸ rfl
  simp only [Session.dispatch, hhandler, hus, Session.apply, List.append_nil]

/-- SET of `keyAb` to the `int8` 7. -/
def setAbSeven : SetRequest := ⟨keyAb, dtypeInt8, [7]⟩

/-- The object of `keyAb` takes the place of that of `keyBA`, and is the one update. -/
theorem getAll_exact_collision : ∃ db us, runSets 64 Db.empty [setBA, setAbSeven] = some db ∧
    List.Forall₂ (fun p u => Updates p.2 u) db.tree us ∧ us.length = 1 := by
  obtain ⟨-, us, hall, -⟩ := @getAll_exact ⟨64, false, fun _ => 0⟩
    (startSession _ (fun _ => 0) []) ⟨requestGetAll, 0, 0⟩
    (@Db.Reached.set _ _ _ setAbSeven.body _ (@Db.Reached.set _ _ _ setBA.body _ .empty rfl) rfl)
    rfl
  exact ⟨_, us, rfl, hall, hall.length_eq.symm⟩

end StateDb
