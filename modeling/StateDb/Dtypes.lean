/-
  StateDb/Dtypes.lean
  ===================
  **The data types and their implementors** (`dtypes.h`, `dtypes.cpp`,
  `dtypes_utils.h`).

  An implementor loads a value from the bytes of a request into an object's
  storage and writes it back into the bytes of a response.  An access outside the
  memory at hand is an error of its own here, beside the exception the source
  throws, so that a result without error is one in which none happened.

  Whatever an implementor has loaded it can write (`loadFrom_encodes`), and a
  well-formed encoding comes back in its canonical form (`loadFrom_wellFormed`).
-/
import StateDb.Bigint

namespace StateDb

/-- How a codec can fail. -/
inductive DataError where
  | unsufficientSpace  -- the exception of that name
  | outOfBounds        -- memory outside the buffer is read or written
  | nullPointer        -- a null `memory_ptr` is dereferenced
  | wrongType          -- memory is used as what it is not
  | noImplementor      -- `get_implementor(...).value()` of an unknown type
deriving DecidableEq, Repr

/-- What a `memory_ptr` points to. -/
inductive Stored where
  | null
  | memory (bytes : List UInt8)
  | bigint (b : Bigint)
deriving DecidableEq, Repr

/-- `require_at_least`. -/
def requireAtLeast (bytes required : Nat) : Except DataError Unit :=
  if bytes < required then .error .unsufficientSpace else .ok ()

/-- `size` bytes at a `memory_ptr`. -/
def Stored.bytesAt (s : Stored) (size : Nat) : Except DataError (List UInt8) :=
  match s with
  | .null => .error .nullPointer
  | .bigint _ => .error .wrongType
  | .memory bytes => if bytes.length < size then .error .outOfBounds else .ok (bytes.take size)

/-- A little-endian unsigned number. -/
def leNat (bytes : List UInt8) : Nat := Nat.ofDigits 256 (bytes.map UInt8.toNat)

/-- The characters in front of the first zero byte. -/
def cstr (bytes : List UInt8) : List UInt8 := bytes.takeWhile (· ≠ 0)

/-- `strlen`. -/
def strlen (bytes : List UInt8) : Except DataError Nat :=
  if (cstr bytes).length = bytes.length then .error .outOfBounds else .ok (cstr bytes).length

/-- `get_string_mxsz`: the buffer, in which a missing zero byte was put over the
last one, and the length of the text. -/
def getStringMxsz (src : List UInt8) : Except DataError (List UInt8 × Nat) :=
  let sz := (cstr src).length
  if sz = src.length then
    -- `src[srcSize - 1] = '\\0'`
    if src.length = 0 then .error .outOfBounds
    else .ok (src.set (src.length - 1) 0, src.length - 1)
  else .ok (src, sz)

/-! ## Implementors -/

/-- The virtual functions of `implementor_base`.  `loadFrom` gives the storage and
the count it returns, `loadTo` the bytes it writes. -/
structure Implementor where
  init : Stored
  isNumeric : Bool
  isDynamic : Bool
  loadFrom : List UInt8 → Stored → Except DataError (Stored × Nat)
  loadTo : Nat → Stored → Except DataError (List UInt8)
  getSize : Stored → Except DataError Nat

/-- `static_implementor<T>` of a type of `size` bytes. -/
def staticImplementor (size : Nat) : Implementor where
  init := .memory (List.replicate size 0)
  isNumeric := true
  isDynamic := false
  loadFrom src _ := do
    requireAtLeast src.length size
    .ok (.memory (src.take size), size)
  loadTo bufSize from' := do
    requireAtLeast bufSize size
    from'.bytesAt size
  getSize _ := .ok size

/-- `blob_wrapper::get_size`. -/
def blobSize (s : Stored) : Except DataError Nat := do
  let head ← s.bytesAt 4
  .ok (leNat head)

def blobImplementor : Implementor where
  init := .null
  isNumeric := false
  isDynamic := true
  loadFrom src _ := do
    requireAtLeast src.length 4
    let n := leNat (src.take 4)
    -- `uint32_t size`
    let size := (n + 4) % 4294967296
    requireAtLeast src.length size
    -- `copy_to` copies `n + 4` bytes into the new block of `size`
    if size < n + 4 then .error .outOfBounds
    else .ok (.memory (src.take (n + 4)), size)
  loadTo bufSize from' := do
    let n ← blobSize from'
    requireAtLeast bufSize (n + 4)
    from'.bytesAt (n + 4)
  getSize ds := do
    let n ← blobSize ds
    .ok (n + 4)

/-- The bigint at a `memory_ptr`. -/
def Stored.bigintAt : Stored → Except DataError Bigint
  | .null => .error .nullPointer
  | .memory _ => .error .wrongType
  | .bigint b => .ok b

/-- `bint.read(s)`. -/
def readBigint (s : List UInt8) : Except DataError Bigint :=
  match Bigint.read s with
  | some b => .ok b
  | none => .error .outOfBounds

def bigintImplementor : Implementor where
  init := .bigint {}
  isNumeric := true
  isDynamic := true
  loadFrom src ds := do
    let _ ← ds.bigintAt
    requireAtLeast src.length 2
    let str ← getStringMxsz src
    let b ← readBigint (str.1.take str.2)
    .ok (.bigint b, str.2)
  loadTo bufSize from' := do
    let b ← from'.bigintAt
    requireAtLeast bufSize (b.toString.length + 1)
    .ok (b.toString ++ [0])
  getSize s := do
    let b ← s.bigintAt
    .ok (b.toString.length + 1)

def noneImplementor : Implementor where
  init := .null
  isNumeric := false
  isDynamic := false
  loadFrom _ ds := .ok (ds, 0)
  loadTo _ _ := .ok []
  getSize _ := .ok 0

/-- `strlen(s) + 1` of stored text. -/
def textSize : Stored → Except DataError Nat
  | .null => .error .nullPointer
  | .bigint _ => .error .wrongType
  | .memory bytes => do
      let len ← strlen bytes
      .ok (len + 1)

def stringImplementor : Implementor where
  init := .memory [0]
  isNumeric := false
  isDynamic := true
  loadFrom src _ := do
    let str ← getStringMxsz src
    .ok (.memory (str.1.take (str.2 + 1)), str.2 + 1)
  loadTo bufSize from' := do
    let len ← textSize from'
    -- `memcpy`, with no look at `bufSize`
    if bufSize < len then .error .outOfBounds
    else from'.bytesAt len
  getSize := textSize

/-- The type ids. -/
def dtypeNone : UInt8 := 0
def dtypeBlob : UInt8 := 1
def dtypeString : UInt8 := 2
def dtypeInt8 : UInt8 := 3
def dtypeUint8 : UInt8 := 4
def dtypeInt16 : UInt8 := 5
def dtypeUint16 : UInt8 := 6
def dtypeInt32 : UInt8 := 7
def dtypeUint32 : UInt8 := 8
def dtypeFloat : UInt8 := 9
def dtypeDouble : UInt8 := 10
def dtypeBigint : UInt8 := 11

/-- The map `implementors_`. -/
def implementors : List (UInt8 × Implementor) :=
  [(dtypeInt8, staticImplementor 1), (dtypeUint8, staticImplementor 1),
   (dtypeInt16, staticImplementor 2), (dtypeUint16, staticImplementor 2),
   (dtypeInt32, staticImplementor 4), (dtypeUint32, staticImplementor 4),
   (dtypeFloat, staticImplementor 4), (dtypeDouble, staticImplementor 8),
   (dtypeBlob, blobImplementor), (dtypeString, stringImplementor),
   (dtypeNone, noneImplementor), (dtypeBigint, bigintImplementor)]

def getImplementor (dt : UInt8) : Option Implementor := implementors.lookup dt

def hasType (dt : UInt8) : Bool := (getImplementor dt).isSome

/-- The types of a fixed width. -/
inductive FixedType where
  | int8 | uint8 | int16 | uint16 | int32 | uint32 | float | double
deriving DecidableEq, Repr

def FixedType.id : FixedType → UInt8
  | .int8 => dtypeInt8
  | .uint8 => dtypeUint8
  | .int16 => dtypeInt16
  | .uint16 => dtypeUint16
  | .int32 => dtypeInt32
  | .uint32 => dtypeUint32
  | .float => dtypeFloat
  | .double => dtypeDouble

/-- `sizeof(T)`. -/
def FixedType.size : FixedType → Nat
  | .int8 => 1
  | .uint8 => 1
  | .int16 => 2
  | .uint16 => 2
  | .int32 => 4
  | .uint32 => 4
  | .float => 4
  | .double => 8

theorem getImplementor_fixed (t : FixedType) :
    getImplementor t.id = some (staticImplementor t.size) := by
  cases t <;> rfl

theorem FixedType.id_ne (t : FixedType) :
    t.id ≠ dtypeNone ∧ t.id ≠ dtypeBlob ∧ t.id ≠ dtypeString ∧ t.id ≠ dtypeBigint := by
  cases t <;> decide

/-! ## What is loaded can be written -/

/-- The storage is written as `enc`, whatever room there is. -/
structure Encodes (impl : Implementor) (s : Stored) (enc : List UInt8) : Prop where
  size : impl.getSize s = .ok enc.length
  loadTo : ∀ bufSize, enc.length ≤ bufSize → impl.loadTo bufSize s = .ok enc

theorem requireAtLeast_ok {bytes required : Nat} (h : required ≤ bytes) :
    requireAtLeast bytes required = .ok () := by
  rw [requireAtLeast, if_neg (by omega)]

theorem bytesAt_memory {bytes : List UInt8} {size : Nat} (h : size ≤ bytes.length) :
    (Stored.memory bytes).bytesAt size = .ok (bytes.take size) := by
  rw [Stored.bytesAt, if_neg (by omega)]

theorem static_encodes {bytes : List UInt8} {size : Nat} (h : bytes.length = size) :
    Encodes (staticImplementor size) (.memory bytes) bytes := by
  subst h
  refine ⟨rfl, ?_⟩
  intro bufSize hbuf
  show (requireAtLeast bufSize bytes.length >>= fun _ => (Stored.memory bytes).bytesAt _) = _
  rw [requireAtLeast_ok hbuf, bytesAt_memory (Nat.le_refl _), List.take_length]
  rfl

theorem blob_encodes {bytes : List UInt8} (h : bytes.length = leNat (bytes.take 4) + 4) :
    Encodes blobImplementor (.memory bytes) bytes := by
  have hsize : blobSize (.memory bytes) = .ok (leNat (bytes.take 4)) := by
    rw [blobSize, bytesAt_memory (by omega)]
    rfl
  refine ⟨?_, ?_⟩
  · show (blobSize (.memory bytes) >>= fun n => _) = _
    rw [hsize, h]
    rfl
  · intro bufSize hbuf
    show (blobSize (.memory bytes) >>= fun n => _) = _
    rw [hsize]
    show (requireAtLeast bufSize _ >>= fun _ => (Stored.memory bytes).bytesAt _) = _
    rw [requireAtLeast_ok (by omega), bytesAt_memory (by omega), ← h, List.take_length]
    rfl

theorem bigint_encodes (b : Bigint) :
    Encodes bigintImplementor (.bigint b) (b.toString ++ [0]) := by
  refine ⟨by rw [List.length_append]; rfl, ?_⟩
  intro bufSize hbuf
  show (requireAtLeast bufSize _ >>= fun _ => _) = _
  rw [requireAtLeast_ok (by simpa using hbuf)]
  rfl

theorem none_encodes (s : Stored) : Encodes noneImplementor s [] := ⟨rfl, fun _ _ => rfl⟩

theorem cstr_append_zero {text : List UInt8} (rest : List UInt8) (h : (0 : UInt8) ∉ text) :
    cstr (text ++ 0 :: rest) = text := by
  induction text with
  | nil => simp [cstr]
  | cons c text ih =>
    have hc : c ≠ 0 := fun heq => h (heq ▸ List.mem_cons_self)
    have ih' := ih fun hin => h (List.mem_cons_of_mem _ hin)
    rw [List.cons_append, cstr, List.takeWhile_cons_of_pos (by simpa using hc)]
    exact congrArg (c :: ·) ih'

theorem cstr_cons_of_ne {c : UInt8} (rest : List UInt8) (h : c ≠ 0) :
    cstr (c :: rest) = c :: cstr rest := by
  rw [cstr, List.takeWhile_cons_of_pos (by simpa using h)]
  rfl

/-- A zero byte, if there is one, comes right behind the text. -/
theorem eq_cstr_append {src : List UInt8} (h : (cstr src).length ≠ src.length) :
    ∃ rest, src = cstr src ++ 0 :: rest := by
  induction src with
  | nil => exact absurd rfl h
  | cons c src ih =>
    by_cases hc : c = 0
    · subst hc
      exact ⟨src, by simp [cstr]⟩
    · rw [cstr_cons_of_ne src hc] at h ⊢
      obtain ⟨rest, heq⟩ := ih (by simpa using h)
      exact ⟨rest, by rw [List.cons_append, ← heq]⟩

theorem zero_notMem_cstr (bytes : List UInt8) : (0 : UInt8) ∉ cstr bytes := by
  intro h
  have := List.mem_takeWhile_imp h
  simp at this

theorem cstr_of_notMem {src : List UInt8} (h : (0 : UInt8) ∉ src) : cstr src = src := by
  apply List.takeWhile_eq_self_iff.mpr
  intro c hc
  have hne : c ≠ 0 := fun heq => h (heq ▸ hc)
  simpa using hne

theorem length_cstr_ne {src : List UInt8} (h : (0 : UInt8) ∈ src) :
    (cstr src).length ≠ src.length := by
  intro hlen
  have hall : cstr src = src := (List.takeWhile_prefix _).eq_of_length hlen
  exact zero_notMem_cstr src (hall.symm ▸ h)

theorem string_encodes {text : List UInt8} (h : (0 : UInt8) ∉ text) :
    Encodes stringImplementor (.memory (text ++ [0])) (text ++ [0]) := by
  have hcstr := cstr_append_zero [] h
  have hsize : textSize (.memory (text ++ [0])) = .ok (text.length + 1) := by
    rw [textSize, strlen, hcstr, if_neg (by simp)]
    rfl
  refine ⟨?_, ?_⟩
  · show textSize (.memory (text ++ [0])) = _
    rw [hsize]
    simp
  · intro bufSize hbuf
    show (textSize (.memory (text ++ [0])) >>= fun len => _) = _
    rw [hsize]
    have hle : ¬ bufSize < text.length + 1 := by
      simp at hbuf
      omega
    show (if bufSize < text.length + 1 then _ else _) = _
    rw [if_neg hle, bytesAt_memory (by simp), List.take_of_length_le (by simp)]

/-- `get_string_mxsz` gives a text with a zero byte behind it. -/
theorem getStringMxsz_text {src : List UInt8} {str : List UInt8 × Nat}
    (h : getStringMxsz src = .ok str) :
    ∃ text, (0 : UInt8) ∉ text ∧ str.1.take (str.2 + 1) = text ++ [0] ∧
      str.1.take str.2 = text ∧ str.2 = text.length := by
  unfold getStringMxsz at h
  simp only at h
  split at h
  · rename_i hall
    split at h
    · cases h
    · rename_i hne
      obtain rfl := (Except.ok.inj h).symm
      -- no zero byte: the last character gives way to one
      have hsrc : (0 : UInt8) ∉ src := by
        have heq : cstr src = src := (List.takeWhile_prefix _).eq_of_length hall
        exact heq ▸ zero_notMem_cstr src
      rcases List.eq_nil_or_concat src with rfl | ⟨init, c, heq⟩
      · simp at hne
      · rw [List.concat_eq_append] at heq
        subst heq
        refine ⟨init, fun hin => hsrc (List.mem_append_left _ hin), ?_, ?_, ?_⟩ <;> simp
  · rename_i hshort
    obtain rfl := (Except.ok.inj h).symm
    obtain ⟨rest, heq⟩ := eq_cstr_append hshort
    refine ⟨cstr src, zero_notMem_cstr src, ?_, ?_, rfl⟩
    · have htake : (cstr src ++ 0 :: rest).take ((cstr src).length + 1) = cstr src ++ [0] := by
        simp [List.take_append]
      rwa [← heq] at htake
    · exact (List.prefix_iff_eq_take.mp (List.takeWhile_prefix _)).symm

/-- There are five kinds of implementors. -/
theorem implementor_cases {dt : UInt8} {impl : Implementor} (h : getImplementor dt = some impl) :
    (∃ t : FixedType, impl = staticImplementor t.size ∧ dt = t.id) ∨
      (impl = blobImplementor ∧ dt = dtypeBlob) ∨ (impl = stringImplementor ∧ dt = dtypeString) ∨
      (impl = noneImplementor ∧ dt = dtypeNone) ∨
      (impl = bigintImplementor ∧ dt = dtypeBigint) := by
  have hmem : (dt, impl) ∈ implementors := by
    obtain ⟨before, after, heq, -⟩ := List.lookup_eq_some_iff.mp h
    exact heq ▸ by simp
  simp only [implementors, List.mem_cons, Prod.mk.injEq, List.not_mem_nil, or_false] at hmem
  rcases hmem with ⟨hd, hi⟩ | ⟨hd, hi⟩ | ⟨hd, hi⟩ | ⟨hd, hi⟩ | ⟨hd, hi⟩ | ⟨hd, hi⟩ | ⟨hd, hi⟩ |
    ⟨hd, hi⟩ | ⟨hd, hi⟩ | ⟨hd, hi⟩ | ⟨hd, hi⟩ | ⟨hd, hi⟩
  · exact Or.inl ⟨.int8, hi, hd⟩
  · exact Or.inl ⟨.uint8, hi, hd⟩
  · exact Or.inl ⟨.int16, hi, hd⟩
  · exact Or.inl ⟨.uint16, hi, hd⟩
  · exact Or.inl ⟨.int32, hi, hd⟩
  · exact Or.inl ⟨.uint32, hi, hd⟩
  · exact Or.inl ⟨.float, hi, hd⟩
  · exact Or.inl ⟨.double, hi, hd⟩
  · exact Or.inr (Or.inl ⟨hi, hd⟩)
  · exact Or.inr (Or.inr (Or.inl ⟨hi, hd⟩))
  · exact Or.inr (Or.inr (Or.inr (Or.inl ⟨hi, hd⟩)))
  · exact Or.inr (Or.inr (Or.inr (Or.inr ⟨hi, hd⟩)))

theorem requireAtLeast_eq_ok {bytes required : Nat} {u : Unit}
    (h : requireAtLeast bytes required = .ok u) : required ≤ bytes := by
  unfold requireAtLeast at h
  split at h
  · cases h
  · omega

theorem bind_eq_ok {α β : Type} {x : Except DataError α} {f : α → Except DataError β} {b : β} :
    (x >>= f) = .ok b ↔ ∃ a, x = .ok a ∧ f a = .ok b := by
  cases x with
  | error e =>
    constructor
    · intro h
      cases h
    · rintro ⟨a, h, -⟩
      cases h
  | ok a =>
    constructor
    · intro h
      exact ⟨a, rfl, h⟩
    · rintro ⟨a', ha, h⟩
      obtain rfl := Except.ok.inj ha
      exact h

theorem bind_ok {α β : Type} (a : α) (f : α → Except DataError β) :
    (Except.ok a >>= f) = f a := rfl

theorem readBigint_ok {s : List UInt8} (h : ¬ Bigint.Overruns s) :
    readBigint s = .ok (Bigint.readText s) := by
  rw [readBigint, Bigint.read_of_not_overruns h]

theorem readBigint_eq_ok {s : List UInt8} {b : Bigint} :
    readBigint s = .ok b ↔ Bigint.read s = some b := by
  unfold readBigint
  cases Bigint.read s with
  | none => simp
  | some b' => simp

theorem readBigint_error {s : List UInt8} (h : Bigint.Overruns s) :
    readBigint s = .error .outOfBounds := by
  rw [readBigint, Bigint.read, if_pos h]

/-- A loop whose every step gives a result gives the list of them. -/
theorem mapM_forall₂ {α β : Type} {f : α → Except DataError β} {R : α → β → Prop} {l : List α}
    (h : ∀ a ∈ l, ∃ b, f a = .ok b ∧ R a b) : ∃ bs, l.mapM f = .ok bs ∧ List.Forall₂ R l bs := by
  induction l with
  | nil => exact ⟨[], rfl, .nil⟩
  | cons a l ih =>
    obtain ⟨b, hb, hab⟩ := h a List.mem_cons_self
    obtain ⟨bs, hbs, hall⟩ := ih fun a' ha' => h a' (List.mem_cons_of_mem _ ha')
    exact ⟨b :: bs, by simp only [List.mapM_cons, hb, hbs, bind_ok]; rfl, .cons hab hall⟩

/-- An object that was loaded can be written. -/
theorem loadFrom_encodes {dt : UInt8} {impl : Implementor} (hdt : getImplementor dt = some impl)
    {src : List UInt8} {s : Stored} {n : Nat} (h : impl.loadFrom src impl.init = .ok (s, n)) :
    ∃ enc, Encodes impl s enc := by
  rcases implementor_cases hdt with ⟨t, rfl, -⟩ | ⟨rfl, -⟩ | ⟨rfl, -⟩ | ⟨rfl, -⟩ | ⟨rfl, -⟩
  · obtain ⟨u, hreq, h⟩ := bind_eq_ok.mp h
    have hle := requireAtLeast_eq_ok hreq
    obtain rfl := (Prod.mk.inj (Except.ok.inj h)).1
    exact ⟨_, static_encodes (by rw [List.length_take, Nat.min_eq_left hle])⟩
  · obtain ⟨u, hreq, h⟩ := bind_eq_ok.mp h
    obtain ⟨u', hreq', h⟩ := bind_eq_ok.mp h
    have hle := requireAtLeast_eq_ok hreq'
    split at h
    · cases h
    · rename_i hnot
      obtain rfl := (Prod.mk.inj (Except.ok.inj h)).1
      refine ⟨_, blob_encodes ?_⟩
      rw [List.length_take, List.take_take, Nat.min_eq_left (by omega : 4 ≤ _)]
      omega
  · obtain ⟨str, hstr, h⟩ := bind_eq_ok.mp h
    obtain rfl := (Prod.mk.inj (Except.ok.inj h)).1
    obtain ⟨text, hzero, htake, -, -⟩ := getStringMxsz_text hstr
    exact ⟨_, htake ▸ string_encodes hzero⟩
  · exact ⟨[], none_encodes s⟩
  · obtain ⟨b, -, h⟩ := bind_eq_ok.mp h
    obtain ⟨u, -, h⟩ := bind_eq_ok.mp h
    obtain ⟨str, -, h⟩ := bind_eq_ok.mp h
    obtain ⟨b, -, h⟩ := bind_eq_ok.mp h
    obtain rfl := (Prod.mk.inj (Except.ok.inj h)).1
    exact ⟨_, bigint_encodes _⟩

/-! ## Well-formed encodings -/

/-- A value of one of the twelve types, by a well-formed encoding of it. -/
inductive Value where
  | none
  | fixed (t : FixedType) (bytes : List UInt8) (length : bytes.length = t.size)
  | blob (len data : List UInt8) (width : len.length = 4) (length : leNat len = data.length)
      (bound : data.length < 4294967296 - 4)
  | string (text : List UInt8) (noZero : (0 : UInt8) ∉ text)
  | bigint (sign ds : List UInt8) (isSign : IsSign sign) (ne : ds ≠ [])
      (digits : ∀ c ∈ ds, IsDigit c)

namespace Value

def dtype : Value → UInt8
  | none => dtypeNone
  | fixed t _ _ => t.id
  | blob .. => dtypeBlob
  | string .. => dtypeString
  | bigint .. => dtypeBigint

def encode : Value → List UInt8
  | none => []
  | fixed _ bytes _ => bytes
  | blob len data _ _ _ => len ++ data
  | string text _ => text ++ [0]
  | bigint sign ds _ _ _ => sign ++ ds ++ [0]

/-- The encoding in canonical form: a bigint is the canonical numeral of the same
integer, and everything else is itself. -/
def canonical : Value → List UInt8
  | bigint sign ds _ _ _ => canonicalNumeral (signedVal sign ds) ++ [0]
  | v => v.encode

/-- The value is no bigint, or one whose text `bigint::read` can measure, or a zero
of more than `2^31` characters. -/
def Readable : Value → Prop
  | bigint sign ds _ _ _ => Bigint.Readable sign ds
  | _ => True

/-- The value is no bigint on whose text `bigint::read` leaves the text. -/
def Ends : Value → Prop
  | bigint sign ds _ _ _ => ¬ Bigint.Overruns (sign ++ ds)
  | _ => True

theorem Readable.ends {v : Value} (h : v.Readable) (hlen : v.encode.length ≤ 4294967296) :
    v.Ends := by
  cases v with
  | bigint sign ds isSign ne digits =>
    refine Bigint.Readable.not_overruns h ?_
    have hsucc : (sign ++ ds ++ [0]).length ≤ 4294967296 := hlen
    rw [List.length_append, List.length_singleton] at hsucc
    omega
  | _ => trivial

end Value

theorem zero_notMem_numeral {sign ds : List UInt8} (hsign : IsSign sign)
    (hds : ∀ c ∈ ds, IsDigit c) : (0 : UInt8) ∉ sign ++ ds := by
  intro h
  rcases List.mem_append.mp h with h | h
  · rcases hsign with rfl | rfl | rfl
    · cases h
    · exact absurd (List.mem_singleton.mp h) (by decide)
    · exact absurd (List.mem_singleton.mp h) (by decide)
  · exact absurd (hds 0 h) (by decide)

/-- The well-formed encodings of a type.  Any length of a BLOB is one that its prefix can
announce. -/
inductive IsEncoding : UInt8 → List UInt8 → Prop
  | none : IsEncoding dtypeNone []
  | fixed (t : FixedType) (bytes : List UInt8) : bytes.length = t.size → IsEncoding t.id bytes
  | blob (len data : List UInt8) : len.length = 4 → leNat len = data.length →
      IsEncoding dtypeBlob (len ++ data)
  | string (text : List UInt8) : (0 : UInt8) ∉ text → IsEncoding dtypeString (text ++ [0])
  | bigint (sign ds : List UInt8) : IsSign sign → ds ≠ [] → (∀ c ∈ ds, IsDigit c) →
      IsEncoding dtypeBigint (sign ++ ds ++ [0])

theorem Value.isEncoding (v : Value) : IsEncoding v.dtype v.encode := by
  cases v with
  | none => exact .none
  | fixed t bytes length => exact .fixed t bytes length
  | blob len data width length bound => exact .blob len data width length
  | string text noZero => exact .string text noZero
  | bigint sign ds isSign ne digits => exact .bigint sign ds isSign ne digits

/-- `get_string_mxsz` of a text with its zero byte. -/
theorem getStringMxsz_append_zero {text : List UInt8} (h : (0 : UInt8) ∉ text) :
    getStringMxsz (text ++ [0]) = .ok (text ++ [0], text.length) := by
  rw [getStringMxsz, cstr_append_zero [] h]
  simp

theorem static_loadFrom {src : List UInt8} {size : Nat} (ds : Stored) (h : src.length = size) :
    (staticImplementor size).loadFrom src ds = .ok (.memory src, size) := by
  show (requireAtLeast src.length size >>= fun _ => _) = _
  rw [requireAtLeast_ok h.ge, ← h, List.take_length]
  rfl

theorem blob_loadFrom {len data : List UInt8} (ds : Stored) (width : len.length = 4)
    (length : leNat len = data.length) (bound : data.length < 4294967296 - 4) :
    blobImplementor.loadFrom (len ++ data) ds = .ok (.memory (len ++ data), leNat len + 4) := by
  have htake : (len ++ data).take 4 = len := by
    rw [List.take_append_of_le_length width.ge, List.take_of_length_le width.le]
  have hsize : (len ++ data).length = leNat len + 4 := by
    rw [List.length_append]
    omega
  have hmod : (leNat len + 4) % 4294967296 = leNat len + 4 := Nat.mod_eq_of_lt (by omega)
  have hfour : requireAtLeast (len ++ data).length 4 = .ok () := requireAtLeast_ok (by omega)
  have hall := requireAtLeast_ok hsize.ge
  simp only [blobImplementor, htake, hmod, hfour, hall, bind_ok, Nat.lt_irrefl, if_false]
  rw [← hsize, List.take_length]

theorem string_loadFrom {text : List UInt8} (ds : Stored) (h : (0 : UInt8) ∉ text) :
    stringImplementor.loadFrom (text ++ [0]) ds =
      .ok (.memory (text ++ [0]), text.length + 1) := by
  simp only [stringImplementor, getStringMxsz_append_zero h, bind_ok]
  rw [List.take_of_length_le (by simp)]

theorem bigint_loadFrom {text : List UInt8} (b : Bigint) (h : (0 : UInt8) ∉ text)
    (hne : text ≠ []) :
    bigintImplementor.loadFrom (text ++ [0]) (.bigint b) =
      readBigint text >>= fun b => .ok (.bigint b, text.length) := by
  have hlen : 2 ≤ (text ++ [0]).length := by
    have := List.length_pos_iff.mpr hne
    simp
    omega
  simp only [bigintImplementor, Stored.bigintAt, requireAtLeast_ok hlen,
    getStringMxsz_append_zero h, bind_ok]
  rw [List.take_left' rfl]

/-- A well-formed encoding on which `bigint::read` ends is loaded, and written again in canonical
form exactly when it is readable. -/
theorem Value.loadFrom_encode (v : Value) (hlen : v.encode.length ≤ 4294967296) (hends : v.Ends) :
    ∃ impl s n enc, getImplementor v.dtype = some impl ∧
      impl.loadFrom v.encode impl.init = .ok (s, n) ∧ Encodes impl s enc ∧
      (enc = v.canonical ↔ v.Readable) := by
  cases v with
  | none => exact ⟨_, _, _, _, rfl, rfl, none_encodes _, by simp [canonical, encode, Readable]⟩
  | fixed t bytes length =>
    exact ⟨_, _, _, bytes, getImplementor_fixed t, static_loadFrom _ length,
      static_encodes length, by simp [canonical, encode, Readable]⟩
  | blob len data width length bound =>
    refine ⟨_, _, _, len ++ data, rfl, blob_loadFrom _ width length bound, blob_encodes ?_,
      by simp [canonical, encode, Readable]⟩
    rw [List.take_append_of_le_length width.ge, List.take_of_length_le width.le,
      List.length_append]
    omega
  | string text noZero =>
    exact ⟨_, _, _, text ++ [0], rfl, string_loadFrom _ noZero, string_encodes noZero,
      by simp [canonical, encode, Readable]⟩
  | bigint sign ds isSign ne digits =>
    have hzero := zero_notMem_numeral isSign digits
    have hbound : (sign ++ ds).length < 4294967296 := by
      have hsucc : (sign ++ ds ++ [0]).length ≤ 4294967296 := hlen
      rw [List.length_append, List.length_singleton] at hsucc
      omega
    have hload := bigint_loadFrom {} hzero (by simp [ne])
    rw [readBigint_ok hends, bind_ok] at hload
    refine ⟨_, _, _, _, rfl, hload, bigint_encodes _, ?_⟩
    rw [canonical, List.append_left_inj]
    exact Bigint.toString_read_iff isSign ne digits hbound hends

/-- The numeral of what a sign and digits denote: a sign that is not longer, none for zero, and
the digits without leading zeros. -/
theorem Bigint.exists_canonicalNumeral (sign ds : List UInt8) :
    ∃ sign', IsSign sign' ∧ sign'.length ≤ sign.length ∧ (numVal ds = 0 → sign' = []) ∧
      canonicalNumeral (signedVal sign ds) = sign' ++ decimalText (numVal ds) ∧
      signedVal sign' (decimalText (numVal ds)) = signedVal sign ds := by
  have hnum : numVal (decimalText (numVal ds)) = numVal ds := numVal_decimalText _
  have habs : (signedVal sign ds).natAbs = numVal ds := by
    unfold signedVal
    split <;> simp
  by_cases hneg : signedVal sign ds < 0
  · -- a minus sign and the digits
    obtain ⟨rfl, hpos⟩ : sign = [45] ∧ 0 < numVal ds := by
      unfold signedVal at hneg
      split at hneg
      · rename_i hsign
        exact ⟨hsign, by omega⟩
      · omega
    refine ⟨[45], Or.inr (Or.inr rfl), Nat.le_refl _, fun hzero => absurd hzero hpos.ne', ?_, ?_⟩
    · rw [canonicalNumeral, showInt, if_pos hneg, habs]
      rfl
    · simp [signedVal, hnum]
  · refine ⟨[], Or.inl rfl, Nat.zero_le _, fun _ => rfl, ?_, ?_⟩
    · rw [canonicalNumeral, showInt, if_neg hneg, habs, List.nil_append]
    · rw [signedVal, if_neg (by simp), hnum]
      omega

/-- The canonical form of a readable value is a readable value in canonical form. -/
theorem Value.exists_canonical (v : Value) (hv : v.Readable) :
    ∃ v' : Value, v'.dtype = v.dtype ∧ v'.encode = v.canonical ∧ v'.canonical = v.canonical ∧
      v'.Readable ∧ v'.encode.length ≤ v.encode.length := by
  cases v with
  | none => exact ⟨.none, rfl, rfl, rfl, trivial, Nat.le_refl _⟩
  | fixed t bytes length => exact ⟨.fixed t bytes length, rfl, rfl, rfl, trivial, Nat.le_refl _⟩
  | blob len data width length bound =>
    exact ⟨.blob len data width length bound, rfl, rfl, rfl, trivial, Nat.le_refl _⟩
  | string text noZero => exact ⟨.string text noZero, rfl, rfl, rfl, trivial, Nat.le_refl _⟩
  | bigint sign ds isSign ne digits =>
    have hlen := Bigint.length_decimalText_le ne digits
    obtain ⟨sign', hsign', hshort, hzero', hcanon, hval⟩ := Bigint.exists_canonicalNumeral sign ds
    refine ⟨.bigint sign' (Bigint.decimalText (numVal ds)) hsign' (Bigint.decimalText_ne_nil _)
      (fun c hc => Bigint.isDigit_of_mem_decimalText hc), rfl, ?_, ?_, Or.inl ?_, ?_⟩
    · simp only [encode, canonical, hcanon]
    · simp only [canonical, hval]
    · show (sign' ++ Bigint.decimalText (numVal ds)).length < 2147483648
      rcases hv with hm | ⟨-, hzero⟩
      · rw [Bigint.Measured, List.length_append] at hm
        rw [List.length_append]
        omega
      · rw [hzero' hzero, hzero]
        decide
    · simp only [encode, List.length_append]
      omega

/-! ## Decoders that leave their memory -/

/-- The text of a buffer that is not empty: the bytes in front of the zero byte, or all but the
last one. -/
def textOf (src : List UInt8) : List UInt8 :=
  if (0 : UInt8) ∈ src then cstr src else src.dropLast

/-- The source buffers on which a decoder leaves its memory: `get_string_mxsz` writes in
front of an empty buffer, the length of a BLOB with its prefix overflows, and the last index of
the text of a BIGINT is the largest `int`. -/
def Oversteps (dt : UInt8) (src : List UInt8) : Prop :=
  (dt = dtypeString ∧ src = []) ∨
    (dt = dtypeBlob ∧ 4 ≤ src.length ∧ 4294967292 ≤ leNat (src.take 4)) ∨
    (dt = dtypeBigint ∧ 2 ≤ src.length ∧ Bigint.Overruns (textOf src))

/-- A computation that ends, or throws the one exception there is. -/
def Throws {α : Type} (x : Except DataError α) : Prop :=
  ∀ e, x = .error e → e = .unsufficientSpace

theorem leNat_lt (bytes : List UInt8) : leNat bytes < 256 ^ bytes.length := by
  have h := @Nat.ofDigits_lt_base_pow_length 256 (bytes.map UInt8.toNat) (by omega) (by
    intro d hd
    obtain ⟨b, -, rfl⟩ := List.mem_map.mp hd
    exact b.toNat_lt)
  simpa [leNat] using h

theorem throws_ok {α : Type} (a : α) : Throws (.ok a : Except DataError α) := by
  intro e he
  cases he

theorem throws_requireAtLeast (bytes required : Nat) : Throws (requireAtLeast bytes required) := by
  intro e he
  unfold requireAtLeast at he
  split at he
  · exact (Except.error.inj he).symm
  · cases he

theorem Throws.bind {α β : Type} {x : Except DataError α} {f : α → Except DataError β}
    (hx : Throws x) (hf : ∀ a, Throws (f a)) : Throws (x >>= f) := by
  intro e he
  cases x with
  | error e' => exact hx e (congrArg _ (Except.error.inj he))
  | ok a => exact hf a e he

theorem getStringMxsz_ne_nil {src : List UInt8} (h : src ≠ []) :
    ∃ str, getStringMxsz src = .ok str := by
  unfold getStringMxsz
  have hlen : src.length ≠ 0 := fun hzero => h (List.length_eq_zero_iff.mp hzero)
  simp only [hlen, if_false]
  split
  · exact ⟨_, rfl⟩
  · exact ⟨_, rfl⟩

/-- The decoder of a BLOB oversteps when the sum of the length and its prefix overflows. -/
theorem blob_throws_iff (src : List UInt8) :
    Throws (blobImplementor.loadFrom src blobImplementor.init) ↔
      ¬ (4 ≤ src.length ∧ 4294967292 ≤ leNat (src.take 4)) := by
  have hbound : leNat (src.take 4) < 4294967296 :=
    lt_of_lt_of_le (leNat_lt (src.take 4))
      (Nat.pow_le_pow_right (by omega) (List.length_take_le 4 src))
  constructor
  · rintro hthrows ⟨hlen, hwrap⟩
    have hsize : (leNat (src.take 4) + 4) % 4294967296 < leNat (src.take 4) + 4 := by omega
    have hfour : requireAtLeast src.length 4 = .ok () := requireAtLeast_ok hlen
    have hall : requireAtLeast src.length ((leNat (src.take 4) + 4) % 4294967296) = .ok () :=
      requireAtLeast_ok (by omega)
    have hover : blobImplementor.loadFrom src blobImplementor.init = .error .outOfBounds := by
      simp only [blobImplementor, hfour, hall, bind_ok, if_pos hsize]
    exact absurd (hthrows _ hover) (by decide)
  · intro hnot e he
    by_cases hlen : 4 ≤ src.length
    · have hsmall : leNat (src.take 4) < 4294967292 := by
        by_contra hge
        exact hnot ⟨hlen, by omega⟩
      have hsize : ¬ (leNat (src.take 4) + 4) % 4294967296 < leNat (src.take 4) + 4 := by omega
      revert he
      simp only [blobImplementor, if_neg hsize]
      exact ((throws_requireAtLeast _ _).bind fun _ => (throws_requireAtLeast _ _).bind fun _ =>
        throws_ok _) e
    · have hfour : requireAtLeast src.length 4 = .error .unsufficientSpace := if_pos (by omega)
      have herror : blobImplementor.loadFrom src blobImplementor.init =
          .error .unsufficientSpace := by
        simp only [blobImplementor, hfour]
        rfl
      exact Except.error.inj (he.symm.trans herror)

/-- The decoder of a STRING oversteps on the empty buffer. -/
theorem string_throws_iff (src : List UInt8) :
    Throws (stringImplementor.loadFrom src stringImplementor.init) ↔ src ≠ [] := by
  constructor
  · rintro hthrows rfl
    exact absurd (hthrows .outOfBounds rfl) (by decide)
  · intro hne e he
    obtain ⟨str, hstr⟩ := getStringMxsz_ne_nil hne
    simp only [stringImplementor, hstr, bind_ok] at he
    cases he

/-- Without a zero byte the last character gives way to one. -/
theorem getStringMxsz_unterminated {init : List UInt8} {c : UInt8} (h : (0 : UInt8) ∉ init ++ [c]) :
    getStringMxsz (init ++ [c]) = .ok (init ++ [0], init.length) := by
  rw [getStringMxsz, cstr_of_notMem h]
  simp

/-- With a zero byte the text stays as it is. -/
theorem getStringMxsz_of_mem {src : List UInt8} (h : (0 : UInt8) ∈ src) :
    getStringMxsz src = .ok (src, (cstr src).length) := by
  rw [getStringMxsz, if_neg (length_cstr_ne h)]

/-- `get_string_mxsz` gives the text of a buffer. -/
theorem getStringMxsz_textOf {src : List UInt8} (h : src ≠ []) :
    ∃ bytes, getStringMxsz src = .ok (bytes, (textOf src).length) ∧
      bytes.take (textOf src).length = textOf src := by
  unfold textOf
  by_cases hzero : (0 : UInt8) ∈ src
  · rw [if_pos hzero]
    exact ⟨src, getStringMxsz_of_mem hzero,
      (List.prefix_iff_eq_take.mp (List.takeWhile_prefix _)).symm⟩
  · obtain ⟨init, c, rfl⟩ := (List.eq_nil_or_concat' src).resolve_left h
    rw [if_neg hzero, List.dropLast_concat]
    exact ⟨init ++ [0], getStringMxsz_unterminated hzero, by simp⟩

/-- A bigint is read from the text of a buffer of two bytes or more. -/
theorem bigint_loadFrom_textOf {src : List UInt8} (h : 2 ≤ src.length) (old : Bigint) :
    bigintImplementor.loadFrom src (.bigint old) =
      readBigint (textOf src) >>= fun b => .ok (.bigint b, (textOf src).length) := by
  have hne : src ≠ [] := by
    rintro rfl
    exact absurd h (by decide)
  obtain ⟨bytes, hstr, htake⟩ := getStringMxsz_textOf hne
  simp only [bigintImplementor, Stored.bigintAt, bind_ok, requireAtLeast_ok h, hstr, htake]

/-- The decoder of a BIGINT leaves the text when its index is the largest `int`. -/
theorem bigint_throws_iff (src : List UInt8) :
    Throws (bigintImplementor.loadFrom src bigintImplementor.init) ↔
      ¬ (2 ≤ src.length ∧ Bigint.Overruns (textOf src)) := by
  by_cases hlen : 2 ≤ src.length
  · have hload := bigint_loadFrom_textOf hlen {}
    by_cases hover : Bigint.Overruns (textOf src)
    · refine iff_of_false ?_ fun hnot => hnot ⟨hlen, hover⟩
      intro hthrows
      rw [readBigint_error hover] at hload
      exact absurd (hthrows .outOfBounds hload) (by decide)
    · refine iff_of_true ?_ fun h => hover h.2
      rw [readBigint_ok hover, bind_ok] at hload
      intro e he
      cases he.symm.trans hload
  · refine iff_of_true ?_ fun h => hlen h.1
    intro e he
    have htwo : requireAtLeast src.length 2 = .error .unsufficientSpace := if_pos (by omega)
    simp only [bigintImplementor, Stored.bigintAt, bind_ok, htwo] at he
    exact (Except.error.inj he).symm

/-- A decoder stays inside its memory exactly on the buffers on which it does not
overstep. -/
theorem loadFrom_throws_iff {dt : UInt8} {impl : Implementor} (h : getImplementor dt = some impl)
    (src : List UInt8) : Throws (impl.loadFrom src impl.init) ↔ ¬ Oversteps dt src := by
  have hnever {dt : UInt8} (hstring : dt ≠ dtypeString) (hblob : dt ≠ dtypeBlob)
      (hbigint : dt ≠ dtypeBigint) : ¬ Oversteps dt src := by
    rintro (⟨heq, -⟩ | ⟨heq, -⟩ | ⟨heq, -⟩)
    · exact hstring heq
    · exact hblob heq
    · exact hbigint heq
  rcases implementor_cases h with ⟨t, rfl, rfl⟩ | ⟨rfl, rfl⟩ | ⟨rfl, rfl⟩ | ⟨rfl, rfl⟩ | ⟨rfl, rfl⟩
  · obtain ⟨-, hblob, hstring, hbigint⟩ := t.id_ne
    exact iff_of_true ((throws_requireAtLeast _ _).bind fun _ => throws_ok _)
      (hnever hstring hblob hbigint)
  · rw [blob_throws_iff, Oversteps]
    simp [show dtypeBlob ≠ dtypeString by decide, show dtypeBlob ≠ dtypeBigint by decide]
  · rw [string_throws_iff, Oversteps]
    simp [show dtypeString ≠ dtypeBlob by decide, show dtypeString ≠ dtypeBigint by decide]
  · exact iff_of_true (throws_ok _) (hnever (by decide) (by decide) (by decide))
  · rw [bigint_throws_iff, Oversteps]
    simp [show dtypeBigint ≠ dtypeString by decide, show dtypeBigint ≠ dtypeBlob by decide]

/-- Only three types have buffers on which a decoder leaves its memory. -/
theorem Oversteps.hasType {dt : UInt8} {src : List UInt8} (h : Oversteps dt src) :
    hasType dt = true := by
  rcases h with ⟨rfl, -⟩ | ⟨rfl, -⟩ | ⟨rfl, -⟩
  · rfl
  · rfl
  · rfl

theorem textOf_append_zero {text : List UInt8} (h : (0 : UInt8) ∉ text) :
    textOf (text ++ [0]) = text := by
  rw [textOf, if_pos (by simp), cstr_append_zero [] h]

/-- On a well-formed encoding only the text of a BIGINT can be left. -/
theorem Value.oversteps_iff (v : Value) : Oversteps v.dtype v.encode ↔ ¬ v.Ends := by
  cases v with
  | none => simp [Oversteps, dtype, Ends, dtypeNone, dtypeString, dtypeBlob, dtypeBigint]
  | fixed t bytes length =>
    obtain ⟨-, hblob, hstring, hbigint⟩ := t.id_ne
    simp [Oversteps, dtype, Ends, hblob, hstring, hbigint]
  | blob len data width length bound =>
    refine iff_of_false ?_ (not_not_intro trivial)
    rintro (⟨heq, -⟩ | ⟨-, -, hwrap⟩ | ⟨heq, -⟩)
    · exact absurd heq (by decide : dtypeBlob ≠ dtypeString)
    · have htake : (len ++ data).take 4 = len := by
        rw [List.take_append_of_le_length width.ge, List.take_of_length_le width.le]
      rw [encode, htake] at hwrap
      omega
    · exact absurd heq (by decide : dtypeBlob ≠ dtypeBigint)
  | string text noZero =>
    refine iff_of_false ?_ (not_not_intro trivial)
    rintro (⟨-, hnil⟩ | ⟨heq, -⟩ | ⟨heq, -⟩)
    · exact absurd hnil (by simp [encode])
    · exact absurd heq (by decide : dtypeString ≠ dtypeBlob)
    · exact absurd heq (by decide : dtypeString ≠ dtypeBigint)
  | bigint sign ds isSign ne digits =>
    have htext := textOf_append_zero (zero_notMem_numeral isSign digits)
    have hlen : 2 ≤ (sign ++ ds ++ [0]).length := by
      have := List.length_pos_iff.mpr ne
      simp
      omega
    have hends : ¬ (bigint sign ds isSign ne digits).Ends ↔ Bigint.Overruns (sign ++ ds) := not_not
    rw [hends]
    constructor
    · rintro (⟨heq, -⟩ | ⟨heq, -⟩ | ⟨-, -, hover⟩)
      · exact absurd heq (by decide : dtypeBigint ≠ dtypeString)
      · exact absurd heq (by decide : dtypeBigint ≠ dtypeBlob)
      · rwa [encode, htext] at hover
    · intro hover
      refine Or.inr (Or.inr ⟨rfl, hlen, ?_⟩)
      rwa [encode, htext]

end StateDb
