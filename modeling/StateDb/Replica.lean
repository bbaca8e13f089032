/-
  StateDb/Replica.lean
  ====================
  **A client that follows the database** (`asio_server.cpp`: `get_all_handler`, `set_handler`,
  `get_handler`).

  A client can keep a copy of the database: it asks for everything with a GET_ALL, and takes
  over what it is sent from then on.  The updates of every accepted SET go to all
  connections, whoever sent it, and the answers to its own requests carry current values.

  Whatever happens then on this connection and on others, as long as the connection is
  registered the copy has every object that is stored, as it is stored, and no key under whose
  hash nothing is stored (`replica_follows`).  What it may have besides are keys that lost
  their place to another key of the same hash: no response says so.

  The responses are taken in the order in which they are submitted.  What the queue of writes
  makes of this order is another question (`Client.lean`).
-/
import StateDb.ServerAnswers

namespace StateDb

open Lib Lib.SortedAssoc

/-! ## The client -/

/-- What a client knows of each key: the type and the value. -/
abbrev Replica := Key → Option (UInt8 × List UInt8)

/-- A response is taken over: a body is a key, a type and a value. -/
def Replica.receive (copy : Replica) : Submission → Replica
  | .keyUpdated r =>
      match r.body.drop ((cstr r.body).length + 1) with
      | [] => copy
      | dtype :: value => Function.update copy (Key.ofBuffer r.body) (some (dtype, value))
  | .keyNotFound key => Function.update copy key none
  | .error _ => copy
  | .pong _ => copy

/-! ## Following -/

/-- The copy has no key under whose hash nothing is stored. -/
def Absent (w : Nat) (db : Db) (copy : Replica) : Prop :=
  ∀ key, db.getObject (makeHash w key) = none → copy key = none

/-- The copy has what is stored as it is stored, and no key under whose hash nothing is. -/
structure Follows (w : Nat) (db : Db) (copy : Replica) : Prop where
  current : ∀ {key obj}, db.getObject (makeHash w key) = some obj → obj.key = key →
    ∃ enc, obj.EncodesAs enc ∧ copy key = some (obj.dtype, enc)
  absent : Absent w db copy

variable {w : Nat} {db : Db} {copy : Replica}

/-- An update puts the object into the copy. -/
theorem receive_updates {obj : DbObject} {u : Submission} (h : Updates obj u) :
    ∃ enc, obj.EncodesAs enc ∧
      ∀ copy : Replica, copy.receive u = Function.update copy obj.key (some (obj.dtype, enc)) := by
  obtain ⟨enc, henc, rfl⟩ := h
  refine ⟨enc, henc, ?_⟩
  intro copy
  let r : SetRequest := ⟨obj.key, obj.dtype, enc⟩
  have hdrop : r.body.drop ((cstr r.body).length + 1) = obj.dtype :: enc := by
    rw [cstr_body, SetRequest.body, List.drop_left' (by simp [Key.bytes])]
  show (match r.body.drop ((cstr r.body).length + 1) with
    | [] => copy
    | dtype :: value => Function.update copy (Key.ofBuffer r.body) (some (dtype, value))) = _
  rw [hdrop, ofBuffer_body]

theorem Absent.update (h : Absent w db copy) {obj : DbObject}
    (hobj : db.getObject (makeHash w obj.key) = some obj) (value : UInt8 × List UInt8) :
    Absent w db (Function.update copy obj.key (some value)) := by
  intro key hnone
  have hne : key ≠ obj.key := by
    rintro rfl
    rw [hobj] at hnone
    cases hnone
  rw [Function.update_of_ne hne]
  exact h _ hnone

theorem Absent.notFound (h : Absent w db copy) (key : Key) :
    Absent w db (Function.update copy key none) := by
  intro key' hnone
  by_cases heq : key' = key
  · rw [heq, Function.update_self]
  · rw [Function.update_of_ne heq]
    exact h _ hnone

theorem Absent.set (h : Absent w db copy) {db' : Db} {obj : DbObject}
    (htree : db'.tree = upsert (makeHash w obj.key) obj db.tree) (value : UInt8 × List UInt8) :
    Absent w db' (Function.update copy obj.key (some value)) := by
  intro key hnone
  rw [Db.getObject_of_tree htree] at hnone
  by_cases hhash : makeHash w key = makeHash w obj.key
  · rw [if_pos hhash] at hnone
    cases hnone
  · rw [if_neg hhash] at hnone
    have hne : key ≠ obj.key := fun heq => hhash (congrArg _ heq)
    rw [Function.update_of_ne hne]
    exact h _ hnone

theorem Follows.update (h : Follows w db copy) {obj : DbObject}
    (hobj : db.getObject (makeHash w obj.key) = some obj) {enc : List UInt8}
    (henc : obj.EncodesAs enc) :
    Follows w db (Function.update copy obj.key (some (obj.dtype, enc))) := by
  refine ⟨?_, h.absent.update hobj _⟩
  intro key obj' hobj' hkey
  by_cases heq : key = obj.key
  · subst heq
    obtain rfl := Option.some.inj (hobj.symm.trans hobj')
    exact ⟨enc, henc, Function.update_self _ _ _⟩
  · rw [Function.update_of_ne heq]
    exact h.current hobj' hkey

theorem Follows.notFound (h : Follows w db copy) {key : Key}
    (hnone : db.getObject (makeHash w key) = none) :
    Follows w db (Function.update copy key none) := by
  refine ⟨?_, h.absent.notFound key⟩
  intro key' obj hobj hkey
  have hne : key' ≠ key := by
    rintro rfl
    rw [hnone] at hobj
    cases hobj
  rw [Function.update_of_ne hne]
  exact h.current hobj hkey

/-- A SET of a key; another key of the same hash loses its place. -/
theorem Follows.set (h : Follows w db copy) {db' : Db} {obj : DbObject}
    (htree : db'.tree = upsert (makeHash w obj.key) obj db.tree) {enc : List UInt8}
    (henc : obj.EncodesAs enc) :
    Follows w db' (Function.update copy obj.key (some (obj.dtype, enc))) := by
  refine ⟨?_, h.absent.set htree _⟩
  intro key obj' hobj' hkey
  rw [Db.getObject_of_tree htree] at hobj'
  by_cases heq : key = obj.key
  · subst heq
    rw [if_pos rfl] at hobj'
    obtain rfl := Option.some.inj hobj'
    exact ⟨enc, henc, Function.update_self _ _ _⟩
  · rw [Function.update_of_ne heq]
    by_cases hhash : makeHash w key = makeHash w obj.key
    · rw [if_pos hhash] at hobj'
      obtain rfl := Option.some.inj hobj'
      exact absurd hkey.symm heq
    · rw [if_neg hhash] at hobj'
      exact h.current hobj' hkey

/-! ## Handlers -/

/-- The answer to a GET. -/
theorem Absent.answer (h : Absent w db copy) (hkeys : db.KeysHashed w) {key : Key} {u : Submission}
    (hanswer : StateDb.answer w db key = .ok u) : Absent w db (copy.receive u) := by
  cases hobj : db.getObject (makeHash w key) with
  | none =>
    rw [StateDb.answer, hobj] at hanswer
    obtain rfl := Except.ok.inj hanswer
    exact h.notFound key
  | some obj =>
    obtain ⟨u', hu', hupdates⟩ := answer_updates hobj
    obtain rfl := Except.ok.inj (hanswer.symm.trans hu')
    obtain ⟨enc, -, hreceive⟩ := receive_updates hupdates
    rw [hreceive]
    exact h.update (hkeys.getObject ((lookup_eq_some_iff db.sorted).mp hobj)) _

theorem Follows.answer (h : Follows w db copy) (hkeys : db.KeysHashed w) {key : Key}
    {u : Submission} (hanswer : StateDb.answer w db key = .ok u) :
    Follows w db (copy.receive u) := by
  cases hobj : db.getObject (makeHash w key) with
  | none =>
    rw [StateDb.answer, hobj] at hanswer
    obtain rfl := Except.ok.inj hanswer
    exact h.notFound hobj
  | some obj =>
    obtain ⟨u', hu', hupdates⟩ := answer_updates hobj
    obtain rfl := Except.ok.inj (hanswer.symm.trans hu')
    obtain ⟨enc, henc, hreceive⟩ := receive_updates hupdates
    rw [hreceive]
    have hmem := (lookup_eq_some_iff db.sorted).mp hobj
    exact h.update (hkeys.getObject hmem) henc

/-- Updates of objects put them all into the copy, and leave the other keys. -/
theorem receive_all {ps : List (Nat × DbObject)} {us : List Submission}
    (hall : List.Forall₂ (fun p u => Updates p.2 u) ps us) (hkeys : (ps.map fun p => p.2.key).Nodup)
    (copy : Replica) :
    (∀ p ∈ ps, ∃ enc, p.2.EncodesAs enc ∧
        us.foldl Replica.receive copy p.2.key = some (p.2.dtype, enc)) ∧
      ∀ key, (∀ p ∈ ps, p.2.key ≠ key) → us.foldl Replica.receive copy key = copy key := by
  induction hall generalizing copy with
  | nil => exact ⟨fun p hp => absurd hp List.not_mem_nil, fun key _ => rfl⟩
  | @cons q u ps us hupdates hall ih =>
    rw [List.map_cons, List.nodup_cons] at hkeys
    obtain ⟨hfresh, hkeys⟩ := hkeys
    obtain ⟨enc, henc, hreceive⟩ := receive_updates hupdates
    obtain ⟨hps, hothers⟩ := ih hkeys (copy.receive u)
    rw [List.foldl_cons]
    constructor
    · intro p hp
      rcases List.mem_cons.mp hp with rfl | hp
      · refine ⟨enc, henc, ?_⟩
        rw [hothers p.2.key (fun p' hp' heq => hfresh (heq ▸ List.mem_map_of_mem hp')), hreceive,
          Function.update_self]
      · exact hps p hp
    · intro key hne
      rw [hothers key (fun p hp => hne p (List.mem_cons_of_mem _ hp)), hreceive,
        Function.update_of_ne (hne q List.mem_cons_self).symm]

/-- Objects that are stored have different keys. -/
theorem Db.KeysHashed.nodup (h : db.KeysHashed w) : (db.tree.map fun p => p.2.key).Nodup := by
  rw [List.nodup_iff_pairwise_ne, List.pairwise_map]
  refine db.sorted.imp_of_mem ?_
  intro p q hp hq hlt heq
  have hhash : p.1 = q.1 := by rw [← h p hp, ← h q hq, heq]
  omega

/-- After a GET_ALL nothing is missing. -/
theorem follows_getAll (hkeys : db.KeysHashed w) (habsent : Absent w db copy) {us : List Submission}
    (hall : List.Forall₂ (fun p u => Updates p.2 u) db.tree us) :
    Follows w db (us.foldl Replica.receive copy) := by
  obtain ⟨hstored, hothers⟩ := receive_all hall hkeys.nodup copy
  constructor
  · intro key obj hobj hkey
    subst hkey
    exact hstored _ ((lookup_eq_some_iff db.sorted).mp hobj)
  · intro key hnone
    rw [hothers key ?_]
    · exact habsent _ hnone
    · rintro p hp rfl
      rw [hkeys.getObject hp] at hnone
      cases hnone

/-- What a handler does. -/
inductive Does (w : Nat) (db : Db) : Effect → Prop
  | answers (key : Key) (u : Submission) : StateDb.answer w db key = .ok u →
      Does w db { db := db, replies := [u] }
  | refuses (text : Key) : Does w db { db := db, replies := [.error text] }
  | stores (db' : Db) (obj : DbObject) (u : Submission) : db'.KeysHashed w →
      db'.tree = upsert (makeHash w obj.key) obj db.tree → Updates obj u →
      Does w db { db := db', broadcast := [u] }
  | answersAll (us : List Submission) : List.Forall₂ (fun p u => Updates p.2 u) db.tree us →
      Does w db { db := db, replies := us }

theorem handle_does (hkeys : db.KeysHashed w) {r : DbRequest} {eff : Effect}
    (heff : r.handle w db = .ok eff) : Does w db eff := by
  cases r with
  | get body =>
    obtain ⟨key, -, hrest⟩ := bind_eq_ok.mp heff
    obtain ⟨u, hanswer, hrest⟩ := bind_eq_ok.mp hrest
    obtain rfl := Except.ok.inj hrest
    exact .answers key u hanswer
  | set body =>
    have hparsed := setHandler_parsed w db body
    rw [DbRequest.handle, setRequest] at heff
    cases hset : parseSet body with
    | refused text =>
      rw [hset] at hparsed
      rw [hparsed] at heff
      obtain rfl := Except.ok.inj heff
      exact .refuses _
    | fault e =>
      rw [hset] at hparsed
      rw [hparsed] at heff
      cases heff
    | value key obj =>
      rw [hset] at hparsed
      obtain ⟨db', haccepted, htree, rfl⟩ := hparsed
      rw [haccepted] at heff
      obtain ⟨u, hanswer, hrest⟩ := bind_eq_ok.mp heff
      obtain rfl := Except.ok.inj hrest
      have hobj : db'.getObject (makeHash w obj.key) = some obj := by
        rw [Db.getObject_of_tree htree, if_pos rfl]
      obtain ⟨u', hu', hupdates⟩ := answer_updates hobj
      obtain rfl := Except.ok.inj (hanswer.symm.trans hu')
      exact .stores db' obj u (keysHashed_setHandler hkeys haccepted) htree hupdates
  | getAll =>
    obtain ⟨us, hus, hall⟩ := getAllRequest_updates hkeys
    obtain rfl := Except.ok.inj (heff.symm.trans hus)
    exact .answersAll us hall

theorem Does.keysHashed {eff : Effect} (h : Does w db eff) (hkeys : db.KeysHashed w) :
    eff.db.KeysHashed w := by
  cases h with
  | answers key u hanswer => exact hkeys
  | refuses text => exact hkeys
  | stores db' obj u hkeys' htree hupdates => exact hkeys'
  | answersAll us hall => exact hkeys

/-- One request, of this client or of another. -/
theorem Follows.does (h : Follows w db copy) (hkeys : db.KeysHashed w) {eff : Effect}
    (hdoes : Does w db eff) (own : Bool) :
    Follows w eff.db
      (((if own then eff.replies else []) ++ eff.broadcast).foldl Replica.receive copy) := by
  cases hdoes with
  | answers key u hanswer =>
    cases own with
    | false => exact h
    | true => exact h.answer hkeys hanswer
  | refuses text => cases own <;> exact h
  | stores db' obj u hkeys' htree hupdates =>
    obtain ⟨enc, henc, hreceive⟩ := receive_updates hupdates
    have hfollows := h.set htree henc
    rw [← hreceive] at hfollows
    cases own <;> exact hfollows
  | answersAll us hall =>
    cases own with
    | false => exact h
    | true =>
      show Follows w db ((us ++ []).foldl Replica.receive copy)
      rw [List.append_nil]
      exact follows_getAll hkeys h.absent hall

theorem Absent.does (h : Absent w db copy) (hkeys : db.KeysHashed w) {eff : Effect}
    (hdoes : Does w db eff) (own : Bool) :
    Absent w eff.db
      (((if own then eff.replies else []) ++ eff.broadcast).foldl Replica.receive copy) := by
  cases hdoes with
  | answers key u hanswer =>
    cases own with
    | false => exact h
    | true => exact h.answer hkeys hanswer
  | refuses text => cases own <;> exact h
  | stores db' obj u hkeys' htree hupdates =>
    obtain ⟨enc, -, hreceive⟩ := receive_updates hupdates
    have habsent := h.set htree (obj.dtype, enc)
    rw [← hreceive] at habsent
    cases own <;> exact habsent
  | answersAll us hall =>
    cases own with
    | false => exact h
    | true =>
      show Absent w db ((us ++ []).foldl Replica.receive copy)
      rw [List.append_nil]
      exact (follows_getAll hkeys h hall).absent

/-! ## What is delivered -/

/-- Pongs change nothing of the copy. -/
theorem foldl_answersOf (us : List Submission) (copy : Replica) :
    (answersOf us).foldl Replica.receive copy = us.foldl Replica.receive copy := by
  induction us generalizing copy with
  | nil => rfl
  | cons u us ih =>
    cases u with
    | pong size => exact ih copy
    | keyUpdated r => exact ih _
    | keyNotFound key => exact ih _
    | error text => exact ih _

/-- From any state on, whatever is served. -/
theorem Follows.serve (h : Follows w db copy) (hkeys : db.KeysHashed w) {j : Nat}
    {log : List (Nat × DbRequest)} {sent : List Sent} {db' : Db}
    (hserve : StateDb.serve w db (log.map Prod.snd) = (sent, .ok db')) :
    Follows w db' ((delivered j log sent).foldl Replica.receive copy) := by
  induction log generalizing db copy sent with
  | nil =>
    obtain ⟨rfl, hdb⟩ := Prod.mk.inj hserve
    obtain rfl := Except.ok.inj hdb
    exact h
  | cons p log ih =>
    obtain ⟨eff, rest, heff, rfl, hrest⟩ := serve_cons hserve
    have hdoes := handle_does hkeys heff
    have hnext := h.does hkeys hdoes (p.1 = j)
    rw [delivered, List.foldl_append]
    refine ih ?_ (hdoes.keysHashed hkeys) hrest
    simpa using hnext

/-- A client that asks for everything some time. -/
theorem Absent.serve (h : Absent w db copy) (hkeys : db.KeysHashed w) {j : Nat}
    {log : List (Nat × DbRequest)} (hask : (j, .getAll) ∈ log) {sent : List Sent} {db' : Db}
    (hserve : StateDb.serve w db (log.map Prod.snd) = (sent, .ok db')) :
    Follows w db' ((delivered j log sent).foldl Replica.receive copy) := by
  induction log generalizing db copy sent with
  | nil => exact absurd hask List.not_mem_nil
  | cons p log ih =>
    obtain ⟨eff, rest, heff, rfl, hrest⟩ := serve_cons hserve
    have hdoes := handle_does hkeys heff
    have hkeys' := hdoes.keysHashed hkeys
    rw [delivered, List.foldl_append]
    rcases List.mem_cons.mp hask with rfl | hlater
    · -- from here on nothing is missing
      obtain ⟨us, hus, hall⟩ := getAllRequest_updates hkeys
      obtain rfl := Except.ok.inj (heff.symm.trans hus)
      rw [if_pos rfl, List.append_nil]
      exact (follows_getAll hkeys h hall).serve hkeys' hrest
    · have hnext := h.does hkeys hdoes (p.1 = j)
      refine ih ?_ hkeys' hlater hrest
      simpa using hnext

theorem keysHashed_serve (hkeys : db.KeysHashed w) {rs : List DbRequest} {sent : List Sent}
    {db' : Db} (hserve : serve w db rs = (sent, .ok db')) : db'.KeysHashed w := by
  induction rs generalizing db sent with
  | nil =>
    obtain rfl := Except.ok.inj (Prod.mk.inj hserve).2
    exact hkeys
  | cons r rs ih =>
    obtain ⟨eff, rest, heff, -, hrest⟩ := serve_cons hserve
    exact ih ((handle_does hkeys heff).keysHashed hkeys) hrest

/-- In every run of the server: from the moment when a client asks for everything, and as long as
its connection is registered, the submissions on its connection make a copy that has what is
stored, and nothing under a hash where nothing is. -/
theorem replica_follows {cfg : ServerConfig} {es es' : List ServerEvent} {sv sv' : Server}
    (hbefore : run (Server.step cfg) { db := Db.empty } es = some sv)
    (hrun : run (Server.step cfg) sv es' = some sv') {j : Nat}
    (hask : (Server.history cfg sv es').head? = some (j, .getAll))
    (hreg : StaysRegistered cfg j sv es') :
    ∃ us, Received cfg j sv es' us ∧
      Follows cfg.width sv'.db (us.foldl Replica.receive fun _ => none) := by
  obtain ⟨before, hserve⟩ := ((Server.recorded_start cfg).run hbefore).serves
  have hkeys : sv.db.KeysHashed cfg.width :=
    keysHashed_serve (fun p hp => absurd hp List.not_mem_nil) hserve
  obtain ⟨sent, hserve', hanswers⟩ := run_answers hrun hreg
  refine ⟨_, Server.received hrun, ?_⟩
  rw [← foldl_answersOf, hanswers]
  exact Absent.serve (fun _ _ => rfl) hkeys (List.mem_of_mem_head? hask) hserve'

theorem replica_follows_set : ∃ sv sv' us,
    run (Server.step ⟨64, false, fun _ => 0⟩) { db := Db.empty } connected = some sv ∧
    run (Server.step ⟨64, false, fun _ => 0⟩) sv watched = some sv' ∧
    Received ⟨64, false, fun _ => 0⟩ 1 sv watched us ∧
    Follows 64 sv'.db (us.foldl Replica.receive fun _ => none) := by
  obtain ⟨us, hus, hfollows⟩ := @replica_follows ⟨64, false, fun _ => 0⟩ connected watched _ _ rfl
    rfl 1 rfl (staysRegistered_of_connections rfl (by simp [watched]))
  exact ⟨_, _, us, rfl, rfl, hus, hfollows⟩

end StateDb
