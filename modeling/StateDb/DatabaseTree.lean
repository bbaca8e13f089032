/-
  StateDb/DatabaseTree.lean
  =========================
  **The requests over the tree of the heap** (`db.cpp`: `get_object`, `set_value`, `iterate`;
  `asio_server.cpp`: `get_handler`, `set_handler`, `get_all_handler`).

  The handlers are written for a database that is a finite map.  Here they run on what the
  source has: the B+ tree, with its leaves, nodes and lists in the heap.  Each operation of
  the tree may meet a null or a freed pointer, or not come to an end.

  None of it happens when the counter of every new leaf, which its constructor does not
  initialise, is 0 (`Order.six.config`; `BptMemory.lean` says what becomes of other values): on
  the tree that any sequence of requests has left, each request ends, with the same responses as
  on the finite map, or with the same error of a decoder (`serveTree_refines`).
-/
import StateDb.Session

namespace StateDb

open Lib

/-! ## The body of a SET -/

/-- What `set_handler` makes of a body. -/
inductive SetParsed where
  | value (key : Key) (obj : DbObject)
  | refused (text : String)
  | fault (e : DataError)

/-- `set_handler` up to `tree::set`: the database is not looked at. -/
def parseSet (body : List UInt8) : SetParsed :=
  let keySize := (cstr body).length
  if body.length - keySize < 1 + 1 then .refused "You have sent not enough data for DTYPE"
  else
    match body.drop (keySize + 1) with
    | [] => .fault .outOfBounds
    | dtype :: value =>
        if ¬ hasType dtype then .refused "Unknown type"
        else
          match DbObject.load dtype (Key.ofBuffer body) value with
          | .ok obj => .value (Key.ofBuffer body) obj
          | .error .unsufficientSpace => .refused "Not enough space for VALUE"
          | .error e => .fault e

theorem parseSet_parts {body : List UInt8} {dtype : UInt8} {value : List UInt8}
    (h : body.drop ((cstr body).length + 1) = dtype :: value) :
    parseSet body = if ¬ hasType dtype then .refused "Unknown type"
      else match DbObject.load dtype (Key.ofBuffer body) value with
        | .ok obj => .value (Key.ofBuffer body) obj
        | .error .unsufficientSpace => .refused "Not enough space for VALUE"
        | .error e => .fault e := by
  have hlen := congrArg List.length h
  rw [List.length_drop, List.length_cons] at hlen
  have hlong : ¬ body.length - (cstr body).length < 1 + 1 := by omega
  simp only [parseSet, if_neg hlong, h]

theorem parseSet_short {body : List UInt8} (h : body.drop ((cstr body).length + 1) = []) :
    parseSet body = .refused "You have sent not enough data for DTYPE" := by
  have hle : body.length ≤ (cstr body).length + 1 := List.drop_eq_nil_iff.mp h
  have hshort : body.length - (cstr body).length < 1 + 1 := by omega
  simp only [parseSet, if_pos hshort]

/-- Every database accepts the same bodies. -/
theorem setHandler_parsed (w : Nat) (db : Db) (body : List UInt8) :
    match parseSet body with
    | .value key obj => ∃ db', setHandler w db body = .accepted db' key ∧
        db'.tree = SortedAssoc.upsert (makeHash w key) obj db.tree ∧ obj.key = key
    | .refused text => setHandler w db body = .refused text
    | .fault e => setHandler w db body = .fault e := by
  cases hparts : body.drop ((cstr body).length + 1) with
  | nil =>
    rw [parseSet_short hparts]
    exact setHandler_short hparts
  | cons dtype value =>
    rw [parseSet_parts hparts, setHandler_parts hparts]
    by_cases htype : hasType dtype = true
    · rw [if_neg (by simpa using htype), if_neg (by simpa using htype)]
      cases hload : DbObject.load dtype (Key.ofBuffer body) value with
      | ok obj =>
        rw [Db.setValue_of_load hload]
        exact ⟨_, rfl, rfl, (DbObject.load_spec hload).2.1⟩
      | error e =>
        rw [Db.setValue_of_error hload]
        cases e <;> rfl
    · rw [if_pos (by simpa using htype), if_pos (by simpa using htype)]

/-! ## Requests to the database -/

/-- The requests whose handlers look at the database. -/
inductive DbRequest where
  | get (body : List UInt8)
  | set (body : List UInt8)
  | getAll

/-- What a handler sends. -/
structure Sent where
  replies : List Submission := []
  broadcast : List Submission := []

/-- The handlers, on a finite map. -/
def DbRequest.handle (w : Nat) (db : Db) : DbRequest → Except DataError Effect
  | .get body => getRequest w db body
  | .set body => setRequest w db body
  | .getAll => getAllRequest w db

/-- What is sent, and the database that is left; an error of a decoder is the end. -/
def serve (w : Nat) : Db → List DbRequest → List Sent × Except DataError Db
  | db, [] => ([], .ok db)
  | db, r :: rs =>
      match r.handle w db with
      | .error e => ([], .error e)
      | .ok eff =>
          let rest := serve w eff.db rs
          (⟨eff.replies, eff.broadcast⟩ :: rest.1, rest.2)

/-- The first of the requests, and the rest. -/
theorem serve_cons {w : Nat} {db : Db} {r : DbRequest} {rs : List DbRequest} {sent : List Sent}
    {db' : Db} (h : serve w db (r :: rs) = (sent, .ok db')) : ∃ eff rest, r.handle w db = .ok eff ∧
      sent = ⟨eff.replies, eff.broadcast⟩ :: rest ∧ serve w eff.db rs = (rest, .ok db') := by
  rw [serve] at h
  cases heff : r.handle w db with
  | error e =>
    rw [heff] at h
    cases (Prod.mk.inj h).2
  | ok eff =>
    rw [heff] at h
    obtain ⟨rfl, hrest⟩ := Prod.mk.inj h
    exact ⟨eff, _, rfl, rfl, Prod.ext rfl hrest⟩

/-! ## On the tree -/

/-- `tree<db_key_type, db_object, 6>`. -/
abbrev DbTree := Bpt.Tree Nat DbObject

namespace DbTree

/-- `send_value` of a key. -/
def answer (w fuel : Nat) (t : DbTree) (key : Key) :
    Outcome Bpt.Fault (Except DataError Submission) := do
  let found ← t.get fuel (makeHash w key)
  match found with
  | some obj => .ok (sendObject obj >>= fun r => .ok (.keyUpdated r))
  | none => .ok (.ok (.keyNotFound key))

/-- The function that `get_all_handler` gives to `iterate`, over the objects. -/
def answerAll (w fuel : Nat) (t : DbTree) :
    List (Nat × DbObject) → Outcome Bpt.Fault (Except DataError (List Submission))
  | [] => .ok (.ok [])
  | p :: ps => do
      let u ← answer w fuel t p.2.key
      match u with
      | .error e => .ok (.error e)
      | .ok u => do
          let us ← answerAll w fuel t ps
          .ok (us >>= fun us => .ok (u :: us))

/-- The handlers, with what the memory of new leaves held. -/
def handle (cfg : Bpt.Config) (w fuel : Nat) (t : DbTree) :
    DbRequest → Outcome Bpt.Fault (Except DataError (DbTree × Sent))
  | .get body =>
      match asCstr body with
      | .error e => .ok (.error e)
      | .ok key => do
          let u ← answer w fuel t key
          .ok (u >>= fun u => .ok (t, { replies := [u] }))
  | .set body =>
      match parseSet body with
      | .refused text => .ok (.ok (t, { replies := [.error (Key.ofText text)] }))
      | .fault e => .ok (.error e)
      | .value key obj => do
          let t' ← t.set cfg fuel (makeHash w key) obj
          let u ← answer w fuel t' key
          .ok (u >>= fun u => .ok (t', { broadcast := [u] }))
  | .getAll => do
      let objects ← t.iterate fuel
      let us ← answerAll w fuel t objects
      .ok (us >>= fun us => .ok (t, { replies := us }))

def serve (cfg : Bpt.Config) (w fuel : Nat) : DbTree → List DbRequest →
    Outcome Bpt.Fault (List Sent × Except DataError DbTree)
  | t, [] => .ok ([], .ok t)
  | t, r :: rs => do
      let out ← handle cfg w fuel t r
      match out with
      | .error e => .ok ([], .error e)
      | .ok (t', sent) => do
          let rest ← serve cfg w fuel t' rs
          .ok (sent :: rest.1, rest.2)

/-! ## Refinement -/

/-- Trees of order 6, in zeroed memory. -/
abbrev zeroed : Bpt.Config := Bpt.Order.six.config

variable {w : Nat} {db : Db} {t : DbTree}

theorem answer_refines (ht : db.InTree t) (key : Key) :
    Returns (fun fuel => answer w fuel t key) (StateDb.answer w db key) := by
  obtain ⟨m, hm⟩ := Db.getObject_refines ht (makeHash w key)
  refine ⟨m, ?_⟩
  intro fuel hfuel
  have hget : t.get fuel (makeHash w key) = _ := hm fuel hfuel
  show answer w fuel t key = _
  rw [answer, hget, Outcome.ok_bind, StateDb.answer]
  cases db.getObject (makeHash w key) <;> rfl

theorem answerAll_refines (ht : db.InTree t) (ps : List (Nat × DbObject)) :
    Returns (fun fuel => answerAll w fuel t ps) (ps.mapM fun p => StateDb.answer w db p.2.key) := by
  induction ps with
  | nil => exact Returns.const rfl
  | cons p ps ih =>
    obtain ⟨m, hm⟩ := @answer_refines w db t ht p.2.key
    obtain ⟨n, hn⟩ := ih
    refine ⟨max m n, ?_⟩
    intro fuel hfuel
    have hanswer : answer w fuel t p.2.key = _ := hm fuel (by omega)
    have hrest : answerAll w fuel t ps = _ := hn fuel (by omega)
    show answerAll w fuel t (p :: ps) = _
    rw [answerAll, hanswer, Outcome.ok_bind, List.mapM_cons]
    cases StateDb.answer w db p.2.key with
    | error e => rfl
    | ok u =>
      dsimp only
      rw [hrest, Outcome.ok_bind]
      rfl

/-- What the tree is left with is what the map is left with; an error is the same error. -/
inductive Left : Except DataError Db → Except DataError DbTree → Prop
  | ok {db : Db} {t : DbTree} : db.InTree t → Left (.ok db) (.ok t)
  | error (e : DataError) : Left (.error e) (.error e)

/-- The same for a handler, with what it sends. -/
inductive Handles : Except DataError Effect → Except DataError (DbTree × Sent) → Prop
  | ok {eff : Effect} {t : DbTree} : eff.db.InTree t →
      Handles (.ok eff) (.ok (t, ⟨eff.replies, eff.broadcast⟩))
  | error (e : DataError) : Handles (.error e) (.error e)

theorem get_refines (ht : db.InTree t) (body : List UInt8) :
    ∃ out, Returns (fun fuel => handle zeroed w fuel t (.get body)) out ∧
      Handles (getRequest w db body) out := by
  cases hkey : asCstr body with
  | error e =>
    refine ⟨.error e, ⟨0, ?_⟩, ?_⟩
    · intro fuel _
      show handle zeroed w fuel t (.get body) = _
      rw [handle, hkey]
    · rw [getRequest, hkey]
      exact .error e
  | ok key =>
    obtain ⟨m, hm⟩ := @answer_refines w db t ht key
    refine ⟨StateDb.answer w db key >>= fun u => .ok (t, { replies := [u] }), ⟨m, ?_⟩, ?_⟩
    · intro fuel hfuel
      have hanswer : answer w fuel t key = _ := hm fuel hfuel
      show handle zeroed w fuel t (.get body) = _
      rw [handle, hkey]
      dsimp only
      rw [hanswer, Outcome.ok_bind]
    · rw [getRequest, hkey, bind_ok]
      cases StateDb.answer w db key with
      | error e => exact .error e
      | ok u => exact @Handles.ok { db := db, replies := [u] } t ht

theorem set_refines (ht : db.InTree t) (body : List UInt8) :
    ∃ out, Returns (fun fuel => handle zeroed w fuel t (.set body)) out ∧
      Handles (setRequest w db body) out := by
  have hparsed := setHandler_parsed w db body
  cases hset : parseSet body with
  | refused text =>
    rw [hset] at hparsed
    refine ⟨.ok (t, { replies := [.error (Key.ofText text)] }), ⟨0, ?_⟩, ?_⟩
    · intro fuel _
      show handle zeroed w fuel t (.set body) = _
      rw [handle, hset]
    · rw [setRequest, hparsed]
      exact @Handles.ok { db := db, replies := [.error (Key.ofText text)] } t ht
  | fault e =>
    rw [hset] at hparsed
    refine ⟨.error e, ⟨0, ?_⟩, ?_⟩
    · intro fuel _
      show handle zeroed w fuel t (.set body) = _
      rw [handle, hset]
    · rw [setRequest, hparsed]
      exact .error e
  | value key obj =>
    rw [hset] at hparsed
    obtain ⟨db', haccepted, htree, -⟩ := hparsed
    obtain ⟨t', ⟨m, hm⟩, ht'⟩ :=
      Bpt.Tree.set_spec Bpt.Order.six.admissible ht (makeHash w key) obj
    have hin : db'.InTree t' := by
      rw [Db.InTree, htree]
      exact ht'
    obtain ⟨n, hn⟩ := @answer_refines w db' t' hin key
    refine ⟨StateDb.answer w db' key >>= fun u => .ok (t', { broadcast := [u] }), ⟨max m n, ?_⟩, ?_⟩
    · intro fuel hfuel
      have hstore : t.set zeroed fuel (makeHash w key) obj = _ := hm fuel (by omega)
      have hanswer : answer w fuel t' key = _ := hn fuel (by omega)
      show handle zeroed w fuel t (.set body) = _
      rw [handle, hset]
      dsimp only
      rw [hstore, Outcome.ok_bind, hanswer, Outcome.ok_bind]
    · rw [setRequest, haccepted]
      dsimp only
      cases StateDb.answer w db' key with
      | error e => exact .error e
      | ok u => exact @Handles.ok { db := db', broadcast := [u] } t' hin

theorem getAll_refines (ht : db.InTree t) :
    ∃ out, Returns (fun fuel => handle zeroed w fuel t .getAll) out ∧
      Handles (getAllRequest w db) out := by
  obtain ⟨m, hm⟩ := Db.iterate_refines ht
  obtain ⟨n, hn⟩ := @answerAll_refines w db t ht db.tree
  refine ⟨(db.tree.mapM fun p => StateDb.answer w db p.2.key) >>= fun us =>
    .ok (t, { replies := us }), ⟨max m n, ?_⟩, ?_⟩
  · intro fuel hfuel
    have hiterate : t.iterate fuel = _ := hm fuel (by omega)
    have hanswers : answerAll w fuel t db.tree = _ := hn fuel (by omega)
    show handle zeroed w fuel t .getAll = _
    rw [handle, hiterate, Outcome.ok_bind, hanswers, Outcome.ok_bind]
  · rw [getAllRequest]
    cases db.tree.mapM fun p => StateDb.answer w db p.2.key with
    | error e => exact .error e
    | ok us => exact @Handles.ok { db := db, replies := us } t ht

/-- One request, one case for each handler. -/
theorem handle_refines (ht : db.InTree t) (r : DbRequest) :
    ∃ out, Returns (fun fuel => handle zeroed w fuel t r) out ∧ Handles (r.handle w db) out := by
  cases r with
  | get body => exact get_refines ht body
  | set body => exact set_refines ht body
  | getAll => exact getAll_refines ht

theorem serve_refines (ht : db.InTree t) (rs : List DbRequest) :
    ∃ left, Returns (fun fuel => serve zeroed w fuel t rs) ((StateDb.serve w db rs).1, left) ∧
      Left (StateDb.serve w db rs).2 left := by
  induction rs generalizing db t with
  | nil => exact ⟨.ok t, Returns.const rfl, .ok ht⟩
  | cons r rs ih =>
    obtain ⟨out, ⟨m, hm⟩, hout⟩ := @handle_refines w db t ht r
    rw [StateDb.serve]
    generalize r.handle w db = result at hout ⊢
    cases hout with
    | error e =>
      refine ⟨.error e, ⟨m, ?_⟩, .error e⟩
      intro fuel hfuel
      have hhandle : handle zeroed w fuel t r = _ := hm fuel hfuel
      show serve zeroed w fuel t (r :: rs) = _
      rw [serve, hhandle]
      rfl
    | @ok eff t' ht' =>
      obtain ⟨left, ⟨n, hn⟩, hleft⟩ := ih ht'
      refine ⟨left, ⟨max m n, ?_⟩, hleft⟩
      intro fuel hfuel
      have hhandle : handle zeroed w fuel t r = _ := hm fuel (by omega)
      have hrest : serve zeroed w fuel t' rs = _ := hn fuel (by omega)
      show serve zeroed w fuel t (r :: rs) = _
      rw [serve, hhandle, Outcome.ok_bind]
      dsimp only
      rw [hrest, Outcome.ok_bind]

end DbTree

/-- Any sequence of requests, from the empty tree on, is served over the nodes of the heap as
over a finite map, when the counters of new leaves are 0: no pointer is null or freed, each
request ends, and what is sent is the same, up to the same error of a decoder. -/
theorem serveTree_refines (w : Nat) (rs : List DbRequest) :
    ∃ left, Returns (fun fuel => DbTree.serve Bpt.Order.six.config w fuel {} rs)
      ((serve w Db.empty rs).1, left) ∧
      DbTree.Left (serve w Db.empty rs).2 left :=
  DbTree.serve_refines Db.empty_inTree rs

end StateDb
