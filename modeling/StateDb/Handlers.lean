/-
  StateDb/Handlers.lean
  =====================
  **What the server answers** (`asio_server.cpp`: `set_handler`, `get_handler`;
  `net_message.cpp`: `as_cstr`).

  The handlers as functions of the database and the message body.  The connection
  they answer on is the subject of other modules.
-/
import StateDb.Database
import Mathlib.Data.List.Find

namespace StateDb

/-- `commands::response_*`. -/
def responseKeyUpdate : Nat := 0xff01
def responseKeyDeleted : Nat := 0xff02
def responsePong : Nat := 0xff04
def responseError : Nat := 0xffee

/-- A response with a body: the two fields of its preamble, and the body. -/
structure Response where
  id : Nat
  size : Nat
  body : List UInt8
deriving DecidableEq, Repr

/-- `size`, assigned to the `uint32_t` of a preamble. -/
def preambleSize (size : Nat) : Nat := size % 4294967296

/-! ## `get_handler` -/

/-- `send_key_not_found`. -/
def sendKeyNotFound (key : Key) : Response :=
  let size := preambleSize (key.chars.length + 1)
  ⟨responseKeyDeleted, size, key.bytes.take size⟩

/-- `send_value` of an object. -/
def sendObject (obj : DbObject) : Except DataError Response := do
  let objSize ← obj.getSize
  let keySize := obj.key.chars.length + 1
  let size := 1 + objSize + keySize
  let written ← obj.writeTo objSize
  .ok ⟨responseKeyUpdate, preambleSize size, obj.key.bytes ++ obj.dtype :: written⟩

/-- `send_value` of a key. -/
def sendValue (w : Nat) (db : Db) (key : Key) : Except DataError Response :=
  match db.getObject (makeHash w key) with
  | some obj => sendObject obj
  | none => .ok (sendKeyNotFound key)

/-- `processed_message::as_cstr`: the last byte of the buffer is made zero. -/
def asCstr (body : List UInt8) : Except DataError Key :=
  if body.length = 0 then .error .outOfBounds
  else .ok (Key.ofBuffer (body.set (body.length - 1) 0))

/-- `get_handler`. -/
def getHandler (w : Nat) (db : Db) (body : List UInt8) : Except DataError Response := do
  let key ← asCstr body
  sendValue w db key

/-! ## `set_handler` -/

inductive SetResult where
  /-- The value is stored; the key goes to every connection. -/
  | accepted (db : Db) (key : Key)
  /-- An error response with this text. -/
  | refused (text : String)
  /-- An error that the source neither looks for nor catches. -/
  | fault (e : DataError)

def setHandler (w : Nat) (db : Db) (body : List UInt8) : SetResult :=
  let keySize := (cstr body).length
  if body.length - keySize < 1 + 1 then .refused "You have sent not enough data for DTYPE"
  else
    match body.drop (keySize + 1) with
    | [] => .fault .outOfBounds
    | dtype :: value =>
        if ¬ hasType dtype then .refused "Unknown type"
        else
          match db.setValue w (Key.ofBuffer body) dtype value with
          | .ok db' => .accepted db' (Key.ofBuffer body)
          | .error .unsufficientSpace => .refused "Not enough space for VALUE"
          | .error e => .fault e

/-- A body that is too short has no type id. -/
theorem setHandler_short {w : Nat} {db : Db} {body : List UInt8}
    (h : body.drop ((cstr body).length + 1) = []) :
    setHandler w db body = .refused "You have sent not enough data for DTYPE" := by
  have hle : body.length ≤ (cstr body).length + 1 := List.drop_eq_nil_iff.mp h
  have hshort : body.length - (cstr body).length < 1 + 1 := by omega
  simp only [setHandler, if_pos hshort]

/-- A body that has a type id. -/
theorem setHandler_parts {w : Nat} {db : Db} {body : List UInt8} {dtype : UInt8}
    {value : List UInt8} (h : body.drop ((cstr body).length + 1) = dtype :: value) :
    setHandler w db body = if ¬ hasType dtype then .refused "Unknown type"
      else match db.setValue w (Key.ofBuffer body) dtype value with
        | .ok db' => .accepted db' (Key.ofBuffer body)
        | .error .unsufficientSpace => .refused "Not enough space for VALUE"
        | .error e => .fault e := by
  have hlen := congrArg List.length h
  rw [List.length_drop, List.length_cons] at hlen
  have hlong : ¬ body.length - (cstr body).length < 1 + 1 := by omega
  simp only [setHandler, if_neg hlong, h]

/-! ## Requests -/

/-- The parts of the body of a SET. -/
structure SetRequest where
  key : Key
  dtype : UInt8
  value : List UInt8

def SetRequest.body (r : SetRequest) : List UInt8 := r.key.bytes ++ r.dtype :: r.value

/-- The object a SET makes. -/
def SetRequest.object (r : SetRequest) : Except DataError DbObject :=
  DbObject.load r.dtype r.key r.value

theorem cstr_body (r : SetRequest) : cstr r.body = r.key.chars := by
  have hsplit : r.body = r.key.chars ++ 0 :: (r.dtype :: r.value) := by
    simp [SetRequest.body, Key.bytes]
  rw [hsplit, cstr_append_zero _ r.key.noZero]

theorem ofBuffer_body (r : SetRequest) : Key.ofBuffer r.body = r.key :=
  Key.ext_chars (cstr_body r)

/-- Behind the zero byte of the key. -/
theorem drop_body (r : SetRequest) :
    r.body.drop ((cstr r.body).length + 1) = r.dtype :: r.value := by
  rw [cstr_body, SetRequest.body, List.drop_left' (by simp [Key.bytes])]

/-- `set_handler` on a body with its parts. -/
theorem setHandler_body (w : Nat) (db : Db) (r : SetRequest) :
    setHandler w db r.body =
      if ¬ hasType r.dtype then .refused "Unknown type"
      else
        match db.setValue w r.key r.dtype r.value with
        | .ok db' => .accepted db' r.key
        | .error .unsufficientSpace => .refused "Not enough space for VALUE"
        | .error e => .fault e := by
  rw [setHandler_parts (drop_body r), ofBuffer_body]

/-- A request is accepted exactly when its value is loaded. -/
theorem setHandler_accepted {w : Nat} {db db' : Db} {r : SetRequest} {key : Key}
    (h : setHandler w db r.body = .accepted db' key) :
    key = r.key ∧ ∃ obj, r.object = .ok obj ∧
      db'.tree = Lib.SortedAssoc.upsert (makeHash w r.key) obj db.tree := by
  rw [setHandler_body] at h
  split at h
  · cases h
  · split at h
    · rename_i db'' hset
      obtain ⟨rfl, rfl⟩ := SetResult.accepted.inj h
      exact ⟨rfl, Db.setValue_spec hset⟩
    · cases h
    · cases h

/-- A body that has a type id is that of a request. -/
theorem eq_body_of_parts {body : List UInt8} {dtype : UInt8} {value : List UInt8}
    (h : body.drop ((cstr body).length + 1) = dtype :: value) :
    body = SetRequest.body ⟨Key.ofBuffer body, dtype, value⟩ := by
  have hlen := congrArg List.length h
  rw [List.length_drop, List.length_cons] at hlen
  obtain ⟨rest, hbody⟩ := @eq_cstr_append body (by omega)
  have hrest : body.drop ((cstr body).length + 1) = rest := by
    have hdrop := congrArg (List.drop ((cstr body).length + 1)) hbody
    rwa [List.append_cons, List.drop_left' (by simp)] at hdrop
  rw [h] at hrest
  subst hrest
  refine hbody.trans ?_
  simp [SetRequest.body, Key.bytes, Key.ofBuffer]

/-- Whatever body is accepted is that of a request. -/
theorem exists_request {w : Nat} {db db' : Db} {body : List UInt8} {key : Key}
    (h : setHandler w db body = .accepted db' key) : ∃ r : SetRequest, body = r.body := by
  cases hparts : body.drop ((cstr body).length + 1) with
  | nil =>
    rw [setHandler_short hparts] at h
    cases h
  | cons dtype value => exact ⟨_, eq_body_of_parts hparts⟩

/-- The bodies on which a decoder leaves its memory. -/
def SetOversteps (body : List UInt8) : Prop :=
  ∃ dtype value, body.drop ((cstr body).length + 1) = dtype :: value ∧ Oversteps dtype value

theorem setOversteps_iff {body : List UInt8} {dtype : UInt8} {value : List UInt8}
    (h : body.drop ((cstr body).length + 1) = dtype :: value) :
    SetOversteps body ↔ Oversteps dtype value := by
  constructor
  · rintro ⟨dtype', value', heq, hover⟩
    obtain ⟨rfl, rfl⟩ := List.cons.inj (h.symm.trans heq)
    exact hover
  · intro hover
    exact ⟨dtype, value, h, hover⟩

theorem setHandler_fault_iff (w : Nat) (db : Db) (body : List UInt8) :
    (∃ e, setHandler w db body = .fault e) ↔ SetOversteps body := by
  cases hparts : body.drop ((cstr body).length + 1) with
  | nil =>
    rw [setHandler_short hparts]
    refine iff_of_false (by simp) ?_
    rintro ⟨dtype, value, heq, -⟩
    exact absurd (hparts.symm.trans heq) (by simp)
  | cons dtype value =>
    rw [setHandler_parts hparts, setOversteps_iff hparts]
    by_cases htype : hasType dtype = true
    · have hthrows := DbObject.load_throws_iff htype (Key.ofBuffer body) value
      simp only [htype, not_true_eq_false, if_false]
      cases hload : DbObject.load dtype (Key.ofBuffer body) value with
      | ok obj =>
        rw [Db.setValue_of_load hload]
        rw [hload] at hthrows
        exact iff_of_false (by simp) (hthrows.mp (throws_ok obj))
      | error e =>
        rw [Db.setValue_of_error hload]
        rw [hload] at hthrows
        by_cases he : e = .unsufficientSpace
        · subst he
          refine iff_of_false (by simp) (hthrows.mp ?_)
          intro e' he'
          exact (Except.error.inj he').symm
        · refine iff_of_true ⟨e, ?_⟩ ?_
          · cases e with
            | unsufficientSpace => exact absurd rfl he
            | _ => rfl
          · by_contra hnot
            exact he (hthrows.mpr hnot e rfl)
    · rw [if_pos htype]
      exact iff_of_false (by simp) fun hover => htype hover.hasType

theorem sendObject_eq {obj : DbObject} {enc : List UInt8} (h : obj.EncodesAs enc) :
    sendObject obj = .ok ⟨responseKeyUpdate,
      preambleSize (1 + enc.length + (obj.key.chars.length + 1)),
      obj.key.bytes ++ obj.dtype :: enc⟩ := by
  simp only [sendObject, h.getSize, h.writeTo, bind_ok]

/-! ## Histories of SETs -/

/-- One accepted SET. -/
def acceptSet (w : Nat) (db : Db) (r : SetRequest) : Option Db :=
  match setHandler w db r.body with
  | .accepted db' _ => some db'
  | _ => none

/-- The database after a sequence of SETs that are all accepted. -/
def runSets (w : Nat) (db : Db) (rs : List SetRequest) : Option Db := rs.foldlM (acceptSet w) db

/-- The last request of a kind. -/
def lastWith (p : SetRequest → Bool) (rs : List SetRequest) : Option SetRequest :=
  rs.reverse.find? p

/-- GET of `k` answers with the key and value of the request, or that there is none. -/
def Answers (w : Nat) (db : Db) (k : Key) : Option SetRequest → Prop
  | none => sendValue w db k = .ok (sendKeyNotFound k)
  | some r => ∃ obj enc, r.object = .ok obj ∧ obj.EncodesAs enc ∧
      sendValue w db k = .ok ⟨responseKeyUpdate,
        preambleSize (1 + enc.length + (r.key.chars.length + 1)), r.key.bytes ++ r.dtype :: enc⟩

theorem acceptSet_eq_some {w : Nat} {db db' : Db} {r : SetRequest}
    (h : acceptSet w db r = some db') :
    ∃ key, setHandler w db r.body = .accepted db' key := by
  unfold acceptSet at h
  split at h
  · rename_i db'' key heq
    obtain rfl := Option.some.inj h
    exact ⟨key, heq⟩
  · cases h

/-- The database holds what the last request of the hash made. -/
theorem getObject_runSets {w : Nat} {rs : List SetRequest} {db : Db}
    (h : runSets w Db.empty rs = some db) (keyHash : Nat) :
    match lastWith (fun r => makeHash w r.key = keyHash) rs with
    | none => db.getObject keyHash = none
    | some r => ∃ obj, r.object = .ok obj ∧ db.getObject keyHash = some obj := by
  induction rs using List.reverseRecOn generalizing db with
  | nil =>
    obtain rfl := Option.some.inj h
    rfl
  | append_singleton rs r ih =>
    rw [runSets, List.foldlM_append] at h
    obtain ⟨db₁, hrs, hlast⟩ := Option.bind_eq_some_iff.mp h
    have hstep : acceptSet w db₁ r = some db := by simpa using hlast
    obtain ⟨key, hacc⟩ := acceptSet_eq_some hstep
    obtain ⟨-, obj, hobj, htree⟩ := setHandler_accepted hacc
    rw [lastWith, List.reverse_append, List.reverse_singleton, List.singleton_append,
      List.find?_cons, Db.getObject_of_tree htree]
    by_cases hk : keyHash = makeHash w r.key
    · subst hk
      simpa using hobj
    · have hne : makeHash w r.key ≠ keyHash := Ne.symm hk
      simp only [hne, decide_false, if_neg hk]
      exact ih hrs

theorem answers_byHash {w : Nat} {rs : List SetRequest} {db : Db}
    (h : runSets w Db.empty rs = some db) (k : Key) :
    Answers w db k (lastWith (fun r => makeHash w r.key = makeHash w k) rs) := by
  have hget := getObject_runSets h (makeHash w k)
  split at hget
  · rename_i heq
    rw [heq, Answers, sendValue, hget]
  · rename_i r heq
    obtain ⟨obj, hobj, hfound⟩ := hget
    obtain ⟨hdtype, hkey, enc, henc⟩ := DbObject.load_spec hobj
    rw [heq]
    refine ⟨obj, enc, hobj, henc, ?_⟩
    rw [sendValue, hfound]
    show sendObject obj = _
    rw [sendObject_eq henc, hdtype, hkey]

/-- After any sequence of accepted SETs, GET of a key answers with the key and the
value of the last SET whose key has the same hash; hence with the value of the last
SET of the key itself when no other key that was set has its hash. -/
theorem get_after_sets {w : Nat} {rs : List SetRequest} {db : Db}
    (h : runSets w Db.empty rs = some db) (k : Key) :
    Answers w db k (lastWith (fun r => makeHash w r.key = makeHash w k) rs) ∧
      ((∀ r ∈ rs, makeHash w r.key = makeHash w k → r.key = k) →
        Answers w db k (lastWith (fun r => r.key = k) rs)) := by
  refine ⟨answers_byHash h k, ?_⟩
  intro hsep
  have hsame : lastWith (fun r => r.key = k) rs =
      lastWith (fun r => makeHash w r.key = makeHash w k) rs := by
    apply List.find?_congr
    intro r hr
    have hr' := List.mem_reverse.mp hr
    by_cases hk : r.key = k
    · simp [hk]
    · have hne : makeHash w r.key ≠ makeHash w k := fun heq => hk (hsep r hr' heq)
      simp [hk, hne]
  rw [hsame]
  exact answers_byHash h k

/-- A map keyed by the key strings would answer with the last SET of the key itself. -/
def KeyedByStrings (w : Nat) : Prop :=
  ∀ rs db, runSets w Db.empty rs = some db → ∀ k, Answers w db k (lastWith (fun r => r.key = k) rs)

def keyAb : Key := ⟨[97, 98], by decide⟩
def keyBA : Key := ⟨[98, 65], by decide⟩

/-- SET of `keyBA` to the `int8` 1. -/
def setBA : SetRequest := ⟨keyBA, dtypeInt8, [1]⟩

theorem get_after_sets_same_key : ∃ db, runSets 64 Db.empty [setBA] = some db ∧
    Answers 64 db keyBA (some setBA) :=
  ⟨_, rfl, (@get_after_sets 64 [setBA] _ rfl keyBA).1⟩

/-- The keys `ab` and `bA` have the same hash: after a SET of `bA`, GET of `ab`,
which was never set, answers with the key `bA` and its value. -/
theorem not_keyedByStrings : ¬ KeyedByStrings 64 := by
  intro hlaw
  have hget := hlaw [setBA] _ rfl keyAb
  have hfound : lastWith (fun r => r.key = keyAb) [setBA] = none := by decide
  rw [hfound, Answers] at hget
  have hid := congrArg (fun r => r.toOption.map Response.id) hget
  exact absurd hid (by decide)

/-! ## The round trip of a value -/

/-- SET of the value is accepted, GET answers with its canonical form, and SET of
that answer stores an object that is answered the same. -/
def RoundTrips (w : Nat) (key : Key) (v : Value) : Prop :=
  ∀ db, ∃ db' resp, setHandler w db (key.bytes ++ v.dtype :: v.encode) = .accepted db' key ∧
    sendValue w db' key = .ok resp ∧ resp.body = key.bytes ++ v.dtype :: v.canonical ∧
    ∃ db'' resp', setHandler w db' resp.body = .accepted db'' key ∧
      sendValue w db'' key = .ok resp' ∧ resp'.body = resp.body

/-- A well-formed value on which `bigint::read` ends is accepted, and answered in canonical
form exactly when it is readable. -/
theorem set_get_value (w : Nat) (db : Db) (key : Key) (v : Value)
    (hlen : v.encode.length ≤ 4294967296) (hends : v.Ends) :
    ∃ db' enc, setHandler w db (key.bytes ++ v.dtype :: v.encode) = .accepted db' key ∧
      sendValue w db' key = .ok ⟨responseKeyUpdate,
        preambleSize (1 + enc.length + (key.chars.length + 1)), key.bytes ++ v.dtype :: enc⟩ ∧
      (enc = v.canonical ↔ v.Readable) := by
  obtain ⟨obj, enc, hload, hdtype, hkey, henc, hcanon⟩ := DbObject.load_value v key hlen hends
  obtain ⟨impl, s, n, -, himpl, -⟩ := v.loadFrom_encode hlen hends
  let r : SetRequest := ⟨key, v.dtype, v.encode⟩
  have hset : db.setValue w key v.dtype v.encode =
      .ok (db.store (makeHash w key) obj (DbObject.load_spec hload).2.2) :=
    Db.setValue_of_load hload
  have htype : hasType v.dtype = true := by simp [hasType, himpl]
  refine ⟨db.store (makeHash w key) obj (DbObject.load_spec hload).2.2, enc, ?_, ?_, hcanon⟩
  · have hbody := setHandler_body w db r
    rw [if_neg (by simpa using htype), hset] at hbody
    exact hbody
  · rw [sendValue, @Db.getObject_of_tree w db _ key obj rfl, if_pos rfl]
    show sendObject obj = _
    rw [sendObject_eq henc, hdtype, hkey]

/-- The call does not come back from a text on which `bigint::read` leaves the text. -/
theorem not_accepted_of_not_ends {w : Nat} {db db' : Db} {key key' : Key} {v : Value}
    (hends : ¬ v.Ends) :
    setHandler w db (key.bytes ++ v.dtype :: v.encode) ≠ .accepted db' key' := by
  intro hset
  obtain ⟨e, he⟩ := (setHandler_fault_iff w db _).mpr
    ((setOversteps_iff (drop_body ⟨key, v.dtype, v.encode⟩)).mpr (v.oversteps_iff.mpr hends))
  cases he.symm.trans hset

theorem readable_of_roundTrips {w : Nat} {key : Key} {v : Value}
    (hlen : v.encode.length ≤ 4294967296) (h : RoundTrips w key v) : v.Readable := by
  obtain ⟨db', resp, hset, hget, hbody, -⟩ := h Db.empty
  have hends : v.Ends := by
    by_contra hnot
    exact not_accepted_of_not_ends hnot hset
  obtain ⟨db₁, enc, hset₁, hget₁, hcanon⟩ := set_get_value w Db.empty key v hlen hends
  rw [hset₁] at hset
  obtain ⟨rfl, -⟩ := SetResult.accepted.inj hset
  rw [hget₁] at hget
  obtain rfl := Except.ok.inj hget
  exact hcanon.mp (by simpa using hbody)

/-- The round trip holds for every key and every value whose text `bigint::read` can
measure, and for no other value but zero. -/
theorem roundTrips_iff (w : Nat) (key : Key) (v : Value)
    (hfit : (key.bytes ++ v.dtype :: v.encode).length < 4294967296) :
    RoundTrips w key v ↔ v.Readable := by
  have hlen : v.encode.length ≤ 4294967296 := by
    rw [List.length_append, List.length_cons] at hfit
    omega
  refine ⟨readable_of_roundTrips hlen, ?_⟩
  intro hv db
  obtain ⟨db', enc, hset, hget, hcanon⟩ := set_get_value w db key v hlen (hv.ends hlen)
  obtain ⟨v', hdtype', hencode', hcanonical', hv', hlen'⟩ := v.exists_canonical hv
  obtain ⟨db'', enc', hset', hget', hcanon'⟩ :=
    set_get_value w db' key v' (hlen'.trans hlen) (hv'.ends (hlen'.trans hlen))
  rw [hcanon.mpr hv] at hget
  rw [hdtype', hencode'] at hset'
  rw [hdtype', hcanon'.mpr hv', hcanonical'] at hget'
  exact ⟨db', _, hset, hget, rfl, db'', _, hset', hget', rfl⟩

/-- The bigint of `n + 1` digits one. -/
def ones (n : Nat) : Value :=
  .bigint [] (List.replicate (n + 1) 49) (Or.inl rfl) (by simp) fun c hc => by
    rw [List.eq_of_mem_replicate hc]
    decide

theorem numVal_ones_pos (n : Nat) : 0 < numVal (List.replicate (n + 1) 49) := by
  have hdigit : digitVal 49 = 1 := by decide
  rw [List.replicate_succ', Bigint.numVal_append_singleton, hdigit]
  omega

/-- A negative number to a key with two characters. -/
theorem roundTrips_iff_negative : RoundTrips 64 keyAb (.bigint [45] [48, 55] (Or.inr (Or.inr rfl))
    (by simp) (by simp [IsDigit])) :=
  (roundTrips_iff 64 keyAb _ (by decide)).mpr (Or.inl (by unfold Bigint.Measured; decide))

theorem ones_not_readable {n : Nat} (hn : 2147483648 ≤ n) : ¬ (ones n).Readable := by
  intro hread
  have hones := numVal_ones_pos n
  have hlen : (List.replicate (n + 1) (49 : UInt8)).length = n + 1 := List.length_replicate
  rcases (hread : Bigint.Readable [] (List.replicate (n + 1) 49)) with hshort | ⟨-, hzero⟩
  · rw [Bigint.Measured, List.nil_append, hlen] at hshort
    omega
  · omega

theorem length_encode_ones (n : Nat) : (ones n).encode.length = n + 2 := by
  simp [ones, Value.encode]

/-- More than `2^31` digits one that fit in a message are not answered as they were
set. -/
theorem ones_breaks {n : Nat} (hlo : 2147483648 ≤ n) (hhi : n < 4294967280) :
    (keyAb.bytes ++ (ones n).dtype :: (ones n).encode).length < 4294967296 ∧
      ¬ RoundTrips 64 keyAb (ones n) := by
  have hkey : keyAb.bytes.length = 3 := rfl
  constructor
  · rw [List.length_append, List.length_cons, length_encode_ones, hkey]
    omega
  · exact fun h => ones_not_readable hlo
      (readable_of_roundTrips (by rw [length_encode_ones]; omega) h)

/-- `2^31 + 1` digits fit in a message, but are stored as zero: their count is a
negative `int`. -/
theorem ones_not_roundTrips :
    (keyAb.bytes ++ (ones 2147483648).dtype :: (ones 2147483648).encode).length < 4294967296 ∧
      ¬ RoundTrips 64 keyAb (ones 2147483648) :=
  ones_breaks (by omega) (by omega)

end StateDb
