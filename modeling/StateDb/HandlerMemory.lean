/-
  StateDb/HandlerMemory.lean
  ==========================
  **The handlers, access by access** (`asio_server.cpp`: `get_handler`, `set_handler`;
  `net_message.cpp`: `as_cstr`; `hash.h`).

  `Handlers.lean` says what the handlers compute from the body of a message.  Here they are
  programs over the buffer of the body, which has as many bytes as the preamble says.

  `set_handler` keeps to the buffer whatever the size is.  `as_cstr` writes to `size - 1`, which
  is `2^32 - 1` when the size is zero (`handlersKeep_iff`).
-/
import StateDb.Handlers
import StateDb.MemoryCodecs

namespace StateDb.InMemory

open Lib Lib.MemProg Bpt

/-! ## The programs -/

/-- `as_cstr`.  `size - 1` is a `uint32_t`. -/
def asCstr (buffer size : Nat) : Codec Unit := store buffer ((size + 4294967295) % 4294967296) 0

/-- `h = ((h << 5) + h) + c`. -/
def hashChar (w h : Nat) (c : UInt8) : Nat :=
  ((((h * 32 + h : Nat) : Int) + charVal c) % (2 ^ w : Nat)).toNat

/-- The loop of `_string_hash`, from `i` on. -/
def stringHashAt (w b : Nat) : Nat → Nat → Nat → Codec Nat
  | 0, _, _ => stop .outOfBounds
  | fuel + 1, i, h => do
      let c ← load b i
      if c ≠ 0 then stringHashAt w b fuel (i + 1) (hashChar w h c) else pure h

/-- `_string_hash`: a walk of more steps than the block has cells has left it. -/
def stringHash (w b : Nat) : Codec Nat :=
  ⟨fun m => (stringHashAt w b ((m.read b).elim 1 fun cells => cells.length + 1) 0 5381).run m⟩

/-- What `get_handler` answers with: the object, or a copy of the key and its size. -/
inductive GetAnswer where
  | object (obj : DbObject)
  | notFound (deletedKey size : Nat)

/-- `send_key_not_found`. -/
def sendKeyNotFound (key : Nat) : Codec GetAnswer := do
  let len ← strlen key
  let size := preambleSize (len + 1)
  let deletedKey ← allocate size
  copy deletedKey key size
  pure (.notFound deletedKey size)

/-- `get_handler`. -/
def getHandler (w : Nat) (db : Db) (buffer size : Nat) : Codec GetAnswer := do
  asCstr buffer size
  -- the key is logged
  let _ ← strlen buffer
  let keyHash ← stringHash w buffer
  match db.getObject keyHash with
  | some obj => pure (.object obj)
  | none => sendKeyNotFound buffer

/-- How far `set_handler` comes.  The value is `size` bytes from `value` on. -/
inductive SetCall where
  | noDtype
  | unknownType
  | setValue (dtype : UInt8) (value size : Nat)

/-- `set_handler`, up to the call of `db::set_value`. -/
def setHandler (buffer size : Nat) : Codec SetCall := do
  let keySize ← scan buffer size size 0
  if size - keySize < 1 + 1 then pure .noDtype
  else do
    store buffer keySize 0
    let dtype ← load buffer (keySize + 1)
    if ¬ hasType dtype then pure .unknownType
    else pure (.setValue dtype (keySize + 1 + 1) (size - keySize - 1 - 1))

/-! ## C strings -/

section Text

variable {m : Blocks UInt8} {b : Nat} {bytes : List UInt8}

theorem stringHashAt_run {text rest : List UInt8} (hb : Holds m b bytes) (w : Nat)
    (pre : List UInt8) (hbytes : bytes = pre ++ text ++ 0 :: rest) (hzero : (0 : UInt8) ∉ text)
    (fuel h : Nat) (hfuel : text.length < fuel) :
    (stringHashAt w b fuel pre.length h).run m = (.ok (text.foldl (hashChar w) h), m) := by
  induction text generalizing pre fuel h with
  | nil =>
    obtain ⟨fuel, rfl⟩ : ∃ f, fuel = f + 1 := ⟨fuel - 1, by simp at hfuel; omega⟩
    have hlt : pre.length < bytes.length := by simp [hbytes]
    have hget : bytes[pre.length] = 0 := by simp [hbytes]
    rw [stringHashAt, run_bind (load_run hb hlt), hget]
    rfl
  | cons c text ih =>
    obtain ⟨fuel, rfl⟩ : ∃ f, fuel = f + 1 := ⟨fuel - 1, by simp at hfuel; omega⟩
    have hlt : pre.length < bytes.length := by simp [hbytes]
    have hget : bytes[pre.length] = c := by simp [hbytes]
    have hc : c ≠ 0 := fun heq => hzero (heq ▸ List.mem_cons_self)
    have hstep := ih (pre ++ [c]) (by simp [hbytes]) (fun hin => hzero (List.mem_cons_of_mem _ hin))
      fuel (hashChar w h c) (by simp at hfuel; omega)
    rw [List.length_append, List.length_singleton] at hstep
    rw [stringHashAt, run_bind (load_run hb hlt), hget, if_pos hc, hstep, List.foldl_cons]

theorem stringHash_run {text rest : List UInt8} (hb : Holds m b (text ++ 0 :: rest)) (w : Nat)
    (hzero : (0 : UInt8) ∉ text) :
    (stringHash w b).run m = (.ok (StateDb.stringHash w text), m) := by
  have hread : m.read b = some ((text ++ 0 :: rest).map some) := hb
  have hrun := stringHashAt_run hb w [] rfl hzero ((text ++ 0 :: rest).length + 1) 5381 (by simp)
  simp only [stringHash, hread, Option.elim_some, List.length_map]
  exact hrun

end Text

/-! ## The handlers -/

/-- A message that was read: its preamble has a `uint32_t` for the size of the body. -/
structure Message where
  memory : Blocks UInt8
  buffer : Nat
  body : List UInt8
  holds : Holds memory buffer body
  lt_size : body.length < 4294967296

/-- The program comes to its end, and so it has kept to the buffer.  It leaves as many bytes
there, with a zero byte if the key is used. -/
def Message.Keeps {β : Type} (x : Message) (p : Codec β) (usesKey : β → Prop) : Prop :=
  ∃ a m source, p.run x.memory = (.ok a, m) ∧ Holds m x.buffer source ∧
    source.length = x.body.length ∧ (usesKey a → (0 : UInt8) ∈ source)

/-- The response that the answer stands for. -/
def GetAnswer.Responds (m : Blocks UInt8) (r : Except DataError Response) : GetAnswer → Prop
  | .object obj => r = sendObject obj
  | .notFound deletedKey size =>
      ∃ bytes, Holds m deletedKey bytes ∧ r = .ok ⟨responseKeyDeleted, size, bytes⟩

/-- What comes of the call, on the bytes that the buffer holds then. -/
def SetCall.result (w : Nat) (db : Db) (source : List UInt8) : SetCall → SetResult
  | .noDtype => .refused "You have sent not enough data for DTYPE"
  | .unknownType => .refused "Unknown type"
  | .setValue dtype value size =>
      match db.setValue w (Key.ofBuffer source) dtype ((source.drop value).take size) with
      | .ok db' => .accepted db' (Key.ofBuffer source)
      | .error .unsufficientSpace => .refused "Not enough space for VALUE"
      | .error e => .fault e

def SetCall.IsSetValue : SetCall → Prop
  | .setValue _ _ _ => True
  | _ => False

section Handlers

variable (w : Nat) (db : Db) (x : Message)

theorem asCstr_run (hne : x.body ≠ []) : (asCstr x.buffer x.body.length).run x.memory =
    (.ok (), x.memory.write x.buffer ((x.body.set (x.body.length - 1) 0).map some)) := by
  have hpos := List.length_pos_iff.mpr hne
  have hlt := x.lt_size
  have hindex : (x.body.length + 4294967295) % 4294967296 = x.body.length - 1 := by omega
  have hstore := @store_run UInt8 Exception x.memory x.buffer (x.body.length - 1) _ x.holds
    (by rw [List.length_map]; omega) 0
  rw [asCstr, hindex, hstore, List.map_set]

theorem asCstr_empty (hnil : x.body = []) :
    (asCstr x.buffer x.body.length).run x.memory = (.error .outOfBounds, x.memory) :=
  store_outOfBounds x.holds (by simp [hnil]) 0

/-- The copy of a key that was not found. -/
theorem sendKeyNotFound_run {m : Blocks UInt8} {key : Nat} {text rest : List UInt8}
    (h : Holds m key (text ++ 0 :: rest)) (hzero : (0 : UInt8) ∉ text)
    (hlt : text.length + 1 < 4294967296) : ∃ m', (sendKeyNotFound key).run m =
      (.ok (.notFound m.fresh (text.length + 1)), m') ∧
        Holds m' key (text ++ 0 :: rest) ∧ Holds m' m.fresh (text ++ [0]) := by
  let room : List (Option UInt8) := List.replicate (text.length + 1) none
  have hkey : key < m.fresh := CellStore.lt_fresh_of_read h
  have hsize : preambleSize (text.length + 1) = text.length + 1 := Nat.mod_eq_of_lt hlt
  have hroom : room.length = text.length + 1 := List.length_replicate
  have hsrc : Holds (m.alloc room) key (text ++ 0 :: rest) := by
    rw [Holds, CellStore.read_alloc_of_lt hkey]
    exact h
  have hnew : (m.alloc room).read m.fresh = some room := CellStore.read_alloc_self ..
  have htake : (text ++ 0 :: rest).take (text.length + 1) = text ++ [0] := by
    simp [List.take_append]
  have hcopy := @copy_run UInt8 Exception _ (text.length + 1) _ m.fresh key room hkey.ne' hsrc hnew
    (by simp) hroom.ge
  rw [List.drop_of_length_le hroom.le, List.append_nil, htake] at hcopy
  have hallocate : (allocate (text.length + 1) : Codec Nat).run m = (.ok m.fresh, m.alloc room) :=
    rfl
  refine ⟨(m.alloc room).write m.fresh ((text ++ [0]).map some), ?_, ?_, ?_⟩
  · rw [sendKeyNotFound, run_bind (strlen_run h hzero), hsize, run_bind hallocate, run_bind hcopy]
    rfl
  · rw [Holds, CellStore.read_write_of_ne hkey.ne]
    exact hsrc
  · exact CellStore.read_write_self hnew

/-- `get_handler` on a body that is not empty answers as it does on the bytes. -/
theorem getHandler_run (hne : x.body ≠ []) : ∃ a m source,
    (getHandler w db x.buffer x.body.length).run x.memory = (.ok a, m) ∧ Holds m x.buffer source ∧
      source.length = x.body.length ∧ (0 : UInt8) ∈ source ∧
      a.Responds m (StateDb.getHandler w db x.body) := by
  have hpos := List.length_pos_iff.mpr hne
  obtain ⟨source, hsource⟩ : ∃ source, source = x.body.set (x.body.length - 1) 0 := ⟨_, rfl⟩
  have hlength : source.length = x.body.length := by rw [hsource, List.length_set]
  have hin : (0 : UInt8) ∈ source := by
    rw [hsource]
    exact List.mem_set (by omega) 0
  -- the key is the text in front of the zero byte
  have hshort : (cstr source).length ≠ source.length := by
    intro hall
    have heq : cstr source = source := (List.takeWhile_prefix _).eq_of_length hall
    exact zero_notMem_cstr source (heq.symm ▸ hin)
  obtain ⟨rest, hrest⟩ := eq_cstr_append hshort
  have hzero := zero_notMem_cstr source
  have hasCstr := asCstr_run x hne
  rw [← hsource] at hasCstr
  have hstored : Holds (x.memory.write x.buffer (source.map some)) x.buffer source :=
    CellStore.read_write_self x.holds
  have hholds : Holds (x.memory.write x.buffer (source.map some)) x.buffer
      (cstr source ++ 0 :: rest) := by
    rw [← hrest]
    exact hstored
  have hvalue : StateDb.getHandler w db x.body = sendValue w db (Key.ofBuffer source) := by
    rw [StateDb.getHandler, StateDb.asCstr, if_neg (by omega), ← hsource]
    rfl
  have hlog : (getHandler w db x.buffer x.body.length).run x.memory =
      (match db.getObject (makeHash w (Key.ofBuffer source)) with
        | some obj => (pure (.object obj) : Codec GetAnswer)
        | none => sendKeyNotFound x.buffer).run (x.memory.write x.buffer (source.map some)) := by
    rw [getHandler, run_bind hasCstr, run_bind (strlen_run hholds hzero),
      run_bind (stringHash_run hholds w hzero)]
    rfl
  rw [hlog, hvalue, sendValue]
  cases db.getObject (makeHash w (Key.ofBuffer source)) with
  | some obj => exact ⟨.object obj, _, source, rfl, hstored, hlength, hin, rfl⟩
  | none =>
    have hlt : (cstr source).length + 1 < 4294967296 := by
      have hbody := x.lt_size
      have hparts := congrArg List.length hrest
      rw [List.length_append, List.length_cons] at hparts
      omega
    obtain ⟨m, hrun, hbuffer, hkey⟩ := sendKeyNotFound_run hholds hzero hlt
    rw [← hrest] at hbuffer
    refine ⟨_, m, source, hrun, hbuffer, hlength, hin, _, hkey, ?_⟩
    have hsize : preambleSize ((cstr source).length + 1) = (cstr source).length + 1 :=
      Nat.mod_eq_of_lt hlt
    have htake : (Key.ofBuffer source).bytes.take ((cstr source).length + 1) = cstr source ++ [0] :=
      List.take_of_length_le (by simp [Key.bytes, Key.ofBuffer])
    simp only [StateDb.sendKeyNotFound, Key.ofBuffer] at htake ⊢
    rw [hsize, htake]

/-- `set_handler` keeps to the buffer, changes nothing there, and comes as far as on the bytes. -/
theorem setHandler_run : ∃ a, (setHandler x.buffer x.body.length).run x.memory = (.ok a, x.memory) ∧
    (a.IsSetValue → (0 : UInt8) ∈ x.body) ∧
      StateDb.setHandler w db x.body = a.result w db x.body := by
  have hscan := @scan_run x.memory x.buffer x.body x.holds [] x.body rfl x.body.length
    (Nat.le_refl _)
  rw [List.length_nil, Nat.zero_add] at hscan
  rw [setHandler, run_bind hscan]
  by_cases hshort : x.body.length - (cstr x.body).length < 1 + 1
  · refine ⟨.noDtype, ?_, fun h => h.elim, ?_⟩
    · rw [if_pos hshort]
      rfl
    · simp only [StateDb.setHandler, if_pos hshort]
      rfl
  · rw [if_neg hshort]
    obtain ⟨rest, hrest⟩ := @eq_cstr_append x.body (by omega)
    obtain ⟨text, htext⟩ : ∃ text, text = cstr x.body := ⟨_, rfl⟩
    rw [← htext] at hrest hshort ⊢
    have hlong := congrArg List.length hrest
    rw [List.length_append, List.length_cons] at hlong
    obtain ⟨dtype, value, rfl⟩ := List.exists_cons_of_length_pos (by omega : 0 < rest.length)
    -- the zero byte is there already
    have hsame : x.body.set text.length 0 = x.body := by
      rw [hrest, List.set_append_right _ _ (Nat.le_refl _), Nat.sub_self, List.set_cons_zero]
    have hstore := @store_run UInt8 Exception x.memory x.buffer text.length _ x.holds
      (by rw [List.length_map]; omega) 0
    rw [← List.map_set, hsame, CellStore.write_read x.holds] at hstore
    have hin : text.length + 1 < x.body.length := by omega
    have hget : x.body[text.length + 1] = dtype := by simp [hrest]
    have hload := @load_run UInt8 Exception x.memory x.buffer (text.length + 1) _ x.holds hin
    rw [hget] at hload
    have hparts : x.body.drop (text.length + 1) = dtype :: value := by
      rw [hrest, List.append_cons, List.drop_left' (by simp)]
    have hzero : (0 : UInt8) ∈ x.body := by
      rw [hrest]
      simp
    have hvalue : (x.body.drop (text.length + 1 + 1)).take
        (x.body.length - text.length - 1 - 1) = value := by
      rw [← List.tail_drop, hparts, List.tail_cons, List.take_of_length_le]
      simp only [List.length_cons] at hlong
      omega
    rw [run_bind hstore, run_bind hload]
    rw [htext] at hparts
    rw [setHandler_parts hparts]
    by_cases htype : ¬ hasType dtype
    · exact ⟨.unknownType, by rw [if_pos htype]; rfl, fun h => h.elim, by rw [if_pos htype]; rfl⟩
    · refine ⟨.setValue dtype (text.length + 1 + 1) (x.body.length - text.length - 1 - 1),
        by rw [if_neg htype]; rfl, fun _ => hzero, ?_⟩
      rw [if_neg htype]
      cases hset : db.setValue w (Key.ofBuffer x.body) dtype value with
      | ok db' => simp only [SetCall.result, hvalue, hset]
      | error e => cases e <;> simp only [SetCall.result, hvalue, hset]

/-- Both handlers keep to the buffer, but `get_handler` only if the body is not empty. -/
theorem handlersKeep_iff :
    (x.Keeps (getHandler w db x.buffer x.body.length) (fun _ => True) ↔ x.body ≠ []) ∧
      x.Keeps (setHandler x.buffer x.body.length) SetCall.IsSetValue := by
  constructor
  · constructor
    · rintro ⟨a, m, source, hrun, -⟩ hnil
      rw [getHandler, stop_bind (asCstr_empty x hnil)] at hrun
      cases hrun
    · intro hne
      obtain ⟨a, m, source, hrun, hholds, hlength, hin, -⟩ := getHandler_run w db x hne
      exact ⟨a, m, source, hrun, hholds, hlength, fun _ => hin⟩
  · obtain ⟨a, hrun, hin, -⟩ := setHandler_run w db x
    exact ⟨a, x.memory, x.body, hrun, x.holds, rfl, hin⟩

end Handlers

/-- A message without a body. -/
def emptyMessage : Message := ⟨⟨[some []]⟩, 0, [], rfl, by decide⟩

/-- GET of it writes behind the buffer. -/
theorem empty_not_keeps :
    (getHandler 64 Db.empty emptyMessage.buffer 0).run emptyMessage.memory =
        (.error .outOfBounds, emptyMessage.memory) ∧
      ¬ emptyMessage.Keeps (getHandler 64 Db.empty emptyMessage.buffer 0) fun _ => True := by
  have hstop : (getHandler 64 Db.empty emptyMessage.buffer 0).run emptyMessage.memory =
      (.error .outOfBounds, emptyMessage.memory) := stop_bind (asCstr_empty emptyMessage rfl)
  refine ⟨hstop, ?_⟩
  rintro ⟨a, m, source, hrun, -⟩
  rw [hstop] at hrun
  cases hrun

end StateDb.InMemory
