/-
  StateDb/MemoryCodecs.lean
  =========================
  **The implementors, access by access** (`dtypes.h`, `dtypes.cpp`, `dtypes_utils.h`,
  `memory_ptr.h`).

  `Dtypes.lean` says what the implementors compute from lists of bytes.  Here they are
  programs over memory: `get_string_mxsz` walks through the source buffer and writes to
  it, `load_from` allocates and copies, `load_to` copies into a destination.  A program
  that leaves a block stops there.

  A BLOB is loaded within its memory unless its length and prefix overflow
  (`blobBounded_iff`), a STRING unless its buffer is empty (`textBounded_iff`).
-/
import StateDb.Dtypes
import StateDb.LeafList
import StateDb.Lib.Memory

namespace StateDb.InMemory

open Lib Lib.MemProg Bpt

/-! ## The programs -/

/-- What the codecs throw. -/
inductive Exception where
  | unsufficientSpace
deriving DecidableEq, Repr

abbrev Codec (β : Type) := MemProg UInt8 Exception β

/-- The pointer in a `memory_ptr`.  A bigint is an object of its own. -/
inductive MemoryPtr where
  | null
  | block (b : Nat)
  | bigint (b : Bigint)
deriving DecidableEq, Repr

/-- `raw`, as a pointer to bytes. -/
def MemoryPtr.raw : MemoryPtr → Codec Nat
  | .block b => pure b
  | _ => stop .dangling

/-- `cast_as<bigint>`. -/
def MemoryPtr.asBigint : MemoryPtr → Codec Bigint
  | .bigint b => pure b
  | _ => stop .dangling

/-- `operator=`: what the pointer pointed to is deleted. -/
def MemoryPtr.assign (old new : MemoryPtr) : Codec MemoryPtr :=
  match old with
  | .block b => do
      free b
      pure new
  | _ => pure new

def requireAtLeast (bytes required : Nat) : Codec Unit :=
  if bytes < required then throw .unsufficientSpace else pure ()

/-- The scan of `get_string_mxsz`, from `sz` on. -/
def scan (src srcSize : Nat) : Nat → Nat → Codec Nat
  | 0, sz => pure sz
  | fuel + 1, sz =>
      if sz < srcSize then do
        let c ← load src sz
        if c ≠ 0 then scan src srcSize fuel (sz + 1) else pure sz
      else pure sz

/-- `get_string_mxsz`. -/
def getStringMxsz (src srcSize : Nat) : Codec Nat := do
  let sz ← scan src srcSize srcSize 0
  if sz = srcSize then do
    store src (sizeDec srcSize) 0
    pure (sizeDec srcSize)
  else pure sz

/-- The loop of `strlen`, from `i` on. -/
def strlenAt (b : Nat) : Nat → Nat → Codec Nat
  | 0, _ => stop .outOfBounds
  | fuel + 1, i => do
      let c ← load b i
      if c ≠ 0 then strlenAt b fuel (i + 1) else pure i

/-- `strlen`: a walk of more steps than the block has cells has left it. -/
def strlen (b : Nat) : Codec Nat :=
  ⟨fun m => (strlenAt b ((m.read b).elim 1 fun cells => cells.length + 1) 0).run m⟩

/-- The virtual functions of `implementor_base`.  `loadFrom` gives what the storage
points to then, and the count that is returned. -/
structure Implementor where
  init : Codec MemoryPtr
  loadFrom : Nat → Nat → MemoryPtr → Codec (MemoryPtr × Nat)
  loadTo : Nat → Nat → MemoryPtr → Codec Nat
  getSize : MemoryPtr → Codec Nat

/-- `static_implementor<T>` of a type of `size` bytes. -/
def staticImplementor (size : Nat) : Implementor where
  init := do
    let b ← allocateWith (List.replicate size 0)
    pure (.block b)
  loadFrom src fromLen ds := do
    requireAtLeast fromLen size
    let v ← loadAt src size 0
    let b ← allocateWith v
    let ds' ← ds.assign (.block b)
    pure (ds', size)
  loadTo dst bufSize from' := do
    requireAtLeast bufSize size
    let b ← from'.raw
    copy dst b size
    pure size
  getSize _ := pure size

/-- `blob_wrapper::get_size`. -/
def blobSize (data : Nat) : Codec Nat := do
  let head ← loadAt data 4 0
  pure (leNat head)

/-- `blob_wrapper::copy_to`: the sum is a `size_t`. -/
def blobCopyTo (data mem : Nat) : Codec Unit := do
  let n ← blobSize data
  copy mem data (n + 4)

def blobImplementor : Implementor where
  init := pure .null
  loadFrom src fromLen ds := do
    requireAtLeast fromLen 4
    let n ← blobSize src
    -- `uint32_t size`
    let size := (n + 4) % 4294967296
    requireAtLeast fromLen size
    let b ← allocate size
    let ds' ← ds.assign (.block b)
    blobCopyTo src b
    pure (ds', size)
  loadTo dst bufSize from' := do
    let b ← from'.raw
    let n ← blobSize b
    requireAtLeast bufSize (n + 4)
    blobCopyTo b dst
    pure (n + 4)
  getSize ds := do
    let b ← ds.raw
    let n ← blobSize b
    pure (n + 4)

/-- `bigint(const std::string&)`. -/
def readBigint (s : List UInt8) : Codec Bigint :=
  match Bigint.read s with
  | some b => pure b
  | none => stop .outOfBounds

def bigintImplementor : Implementor where
  init := pure (.bigint {})
  loadFrom src fromLen ds := do
    let _ ← ds.asBigint
    requireAtLeast fromLen 2
    let sz ← getStringMxsz src fromLen
    -- `std::string s(str.first)`
    let len ← strlen src
    let s ← loadAt src len 0
    let b ← readBigint s
    pure (.bigint b, sz)
  loadTo dst bufSize from' := do
    let b ← from'.asBigint
    requireAtLeast bufSize (b.toString.length + 1)
    storeAt dst (b.toString ++ [0]) 0
    pure (b.toString.length + 1)
  getSize s := do
    let b ← s.asBigint
    pure (b.toString.length + 1)

def noneImplementor : Implementor where
  init := pure .null
  loadFrom _ _ ds := pure (ds, 0)
  loadTo _ _ _ := pure 0
  getSize _ := pure 0

/-- `string_implementor::get_size`. -/
def textSize (s : MemoryPtr) : Codec Nat := do
  let b ← s.raw
  let len ← strlen b
  pure (len + 1)

def stringImplementor : Implementor where
  init := do
    let b ← allocateWith [0]
    pure (.block b)
  loadFrom src fromLen ds := do
    let sz ← getStringMxsz src fromLen
    let newCh ← allocate (sizeInc sz)
    copy newCh src (sizeInc sz)
    let ds' ← ds.assign (.block newCh)
    pure (ds', sizeInc sz)
  loadTo dst _ from' := do
    let strZLen ← textSize from'
    let b ← from'.raw
    copy dst b strZLen
    pure strZLen
  getSize := textSize

/-- The map `implementors_`. -/
def implementors : List (UInt8 × Implementor) :=
  [(dtypeInt8, staticImplementor 1), (dtypeUint8, staticImplementor 1),
   (dtypeInt16, staticImplementor 2), (dtypeUint16, staticImplementor 2),
   (dtypeInt32, staticImplementor 4), (dtypeUint32, staticImplementor 4),
   (dtypeFloat, staticImplementor 4), (dtypeDouble, staticImplementor 8),
   (dtypeBlob, blobImplementor), (dtypeString, stringImplementor),
   (dtypeNone, noneImplementor), (dtypeBigint, bigintImplementor)]

def getImplementor (dt : UInt8) : Option Implementor := implementors.lookup dt

/-! ## Text -/

section Text

variable {m : Blocks UInt8} {src : Nat} {bytes : List UInt8}

/-- The scan stops at the first zero byte, or at the end of the buffer. -/
theorem scan_run (h : Holds m src bytes) {pre rest : List UInt8} (hbytes : bytes = pre ++ rest)
    (fuel : Nat) (hfuel : rest.length ≤ fuel) : (scan src bytes.length fuel pre.length).run m =
      (.ok (pre.length + (cstr rest).length), m) := by
  induction rest generalizing pre fuel with
  | nil =>
    have hlen : ¬ pre.length < bytes.length := by simp [hbytes]
    cases fuel with
    | zero => rfl
    | succ fuel =>
      rw [scan, if_neg hlen]
      rfl
  | cons c rest ih =>
    obtain ⟨fuel, rfl⟩ : ∃ f, fuel = f + 1 := ⟨fuel - 1, by simp at hfuel; omega⟩
    have hlt : pre.length < bytes.length := by simp [hbytes]
    have hget : bytes[pre.length] = c := by simp [hbytes]
    rw [scan, if_pos hlt, run_bind (load_run h hlt), hget]
    by_cases hc : c = 0
    · rw [if_neg (by simpa using hc), cstr, List.takeWhile_cons_of_neg (by simpa using hc)]
      rfl
    · have hstep := @ih (pre ++ [c]) (by simp [hbytes]) fuel (by simp at hfuel; omega)
      rw [List.length_append, List.length_singleton] at hstep
      rw [if_pos hc, hstep, cstr_cons_of_ne rest hc, List.length_cons, Nat.add_assoc,
        Nat.add_comm 1]

/-- `strlen` stops at the first zero byte. -/
theorem strlenAt_run {text rest : List UInt8} (h : Holds m src bytes) (pre : List UInt8)
    (hbytes : bytes = pre ++ text ++ 0 :: rest) (hzero : (0 : UInt8) ∉ text) (fuel : Nat)
    (hfuel : text.length < fuel) :
    (strlenAt src fuel pre.length).run m = (.ok (pre.length + text.length), m) := by
  induction text generalizing pre fuel with
  | nil =>
    obtain ⟨fuel, rfl⟩ : ∃ f, fuel = f + 1 := ⟨fuel - 1, by simp at hfuel; omega⟩
    have hlt : pre.length < bytes.length := by simp [hbytes]
    have hget : bytes[pre.length] = 0 := by simp [hbytes]
    rw [strlenAt, run_bind (load_run h hlt), hget]
    rfl
  | cons c text ih =>
    obtain ⟨fuel, rfl⟩ : ∃ f, fuel = f + 1 := ⟨fuel - 1, by simp at hfuel; omega⟩
    have hlt : pre.length < bytes.length := by simp [hbytes]
    have hget : bytes[pre.length] = c := by simp [hbytes]
    have hc : c ≠ 0 := fun heq => hzero (heq ▸ List.mem_cons_self)
    have hstep := ih (pre ++ [c]) (by simp [hbytes]) (fun hin => hzero (List.mem_cons_of_mem _ hin))
      fuel (by simp at hfuel; omega)
    rw [List.length_append, List.length_singleton] at hstep
    rw [strlenAt, run_bind (load_run h hlt), hget, if_pos hc, hstep, List.length_cons,
      Nat.add_assoc, Nat.add_comm 1]

theorem strlen_run {text rest : List UInt8} (h : Holds m src (text ++ 0 :: rest))
    (hzero : (0 : UInt8) ∉ text) : (strlen src).run m = (.ok text.length, m) := by
  have hread : m.read src = some ((text ++ 0 :: rest).map some) := h
  have hrun := strlenAt_run h [] rfl hzero ((text ++ 0 :: rest).length + 1) (by simp)
  rw [List.length_nil, Nat.zero_add] at hrun
  simp only [strlen, hread, Option.elim_some, List.length_map]
  exact hrun

end Text

/-- A call of `load_from`: `fromLen` is the length of the source buffer, and what `to`
points to lies elsewhere. -/
structure LoadCall where
  memory : Blocks UInt8
  src : Nat
  bytes : List UInt8
  ds : MemoryPtr
  holds : Holds memory src bytes
  lt_size : bytes.length < sizeMod
  live : ∀ b, ds = .block b → b < memory.fresh
  apart : ds ≠ .block src

def Implementor.load (impl : Implementor) (c : LoadCall) :
    Except (Stop Exception) (MemoryPtr × Nat) × Blocks UInt8 :=
  (impl.loadFrom c.src c.bytes.length c.ds).run c.memory

/-- `load_from` returned `count`.  The object is a new block that holds `stored`; in the
source buffer there is `source`, and all other blocks are as they were. -/
structure Loaded (c : LoadCall) (r : Except (Stop Exception) (MemoryPtr × Nat) × Blocks UInt8)
    (source stored : List UInt8) (count : Nat) (b : Nat) (m : Blocks UInt8) : Prop where
  returns : r = (.ok (.block b, count), m)
  new : c.memory.fresh ≤ b
  stored : Holds m b stored
  source : Holds m c.src source
  frame : ∀ a, a ≠ b → a ≠ c.src → c.ds ≠ .block a → m.read a = c.memory.read a

namespace LoadCall

variable (c : LoadCall)

/-- The blocks when the old object is deleted. -/
def released (m : Blocks UInt8) : Blocks UInt8 :=
  match c.ds with
  | .block b => m.free b
  | _ => m

theorem assign_run (m : Blocks UInt8) (new : MemoryPtr) :
    (c.ds.assign new).run m = (.ok new, c.released m) := by
  unfold MemoryPtr.assign released
  cases c.ds <;> rfl

theorem read_released (m : Blocks UInt8) {a : Nat} (h : c.ds ≠ .block a) :
    (c.released m).read a = m.read a := by
  unfold released
  split
  · rename_i b heq
    apply CellStore.read_free_of_ne
    rintro rfl
    exact h heq
  · rfl

theorem src_lt : c.src < c.memory.fresh := CellStore.lt_fresh_of_read c.holds

theorem ds_ne_new : c.ds ≠ .block c.memory.fresh := fun heq =>
  absurd (c.live _ heq) (Nat.lt_irrefl _)

end LoadCall

/-! ## Loading -/

theorem requireAtLeast_run {bytes required : Nat} (h : required ≤ bytes) (m : Blocks UInt8) :
    (requireAtLeast bytes required).run m = (.ok (), m) := by
  rw [requireAtLeast, if_neg (by omega)]
  rfl

theorem requireAtLeast_throws {bytes required : Nat} (h : bytes < required) (m : Blocks UInt8) :
    (requireAtLeast bytes required).run m = (.error (.threw .unsufficientSpace), m) := by
  rw [requireAtLeast, if_pos h]
  rfl

/-- A buffer of enough bytes for its length. -/
theorem blobSize_run {m : Blocks UInt8} {b : Nat} {bytes : List UInt8} (h : Holds m b bytes)
    (hlen : 4 ≤ bytes.length) : (blobSize b).run m = (.ok (leNat (bytes.take 4)), m) := by
  rw [blobSize, run_bind (loadAt_run h (by omega))]
  rfl

theorem static_loaded (c : LoadCall) {size : Nat} (h : size ≤ c.bytes.length) :
    ∃ b m, Loaded c ((staticImplementor size).load c) c.bytes (c.bytes.take size) size b m := by
  let m₁ := c.memory.alloc ((c.bytes.take size).map some)
  refine ⟨c.memory.fresh, c.released m₁, ?_, Nat.le_refl _, ?_, ?_, ?_⟩
  · simp only [Implementor.load, staticImplementor]
    rw [run_bind (requireAtLeast_run h _), run_bind (loadAt_run c.holds (by omega))]
    exact run_bind (c.assign_run m₁ _)
  · rw [Holds, c.read_released m₁ c.ds_ne_new]
    exact CellStore.read_alloc_self ..
  · rw [Holds, c.read_released m₁ c.apart, CellStore.read_alloc_of_lt c.src_lt]
    exact c.holds
  · intro a ha _ hds
    rw [c.read_released m₁ hds, CellStore.read_alloc_of_ne ha]

/-- A BLOB whose length and prefix do not overflow. -/
theorem blob_loaded (c : LoadCall) (hfour : 4 ≤ c.bytes.length)
    (hwrap : leNat (c.bytes.take 4) < 4294967292)
    (h : leNat (c.bytes.take 4) + 4 ≤ c.bytes.length) :
    ∃ b m, Loaded c (blobImplementor.load c) c.bytes (c.bytes.take (leNat (c.bytes.take 4) + 4))
      (leNat (c.bytes.take 4) + 4) b m := by
  obtain ⟨n, hn⟩ : ∃ n, n = leNat (c.bytes.take 4) := ⟨_, rfl⟩
  rw [← hn] at hwrap h ⊢
  have hmod : (n + 4) % 4294967296 = n + 4 := Nat.mod_eq_of_lt (by omega)
  let room : List (Option UInt8) := List.replicate (n + 4) none
  let m₁ := c.memory.alloc room
  let m₂ := c.released m₁
  have hsrc : Holds m₂ c.src c.bytes := by
    rw [Holds, c.read_released m₁ c.apart, CellStore.read_alloc_of_lt c.src_lt]
    exact c.holds
  have hnew : m₂.read c.memory.fresh = some room := by
    rw [c.read_released m₁ c.ds_ne_new]
    exact CellStore.read_alloc_self ..
  have hroom : room.length = n + 4 := List.length_replicate
  have hcopy : (blobCopyTo c.src c.memory.fresh).run m₂ =
      (.ok (), m₂.write c.memory.fresh ((c.bytes.take (n + 4)).map some)) := by
    rw [blobCopyTo, run_bind (blobSize_run hsrc hfour), ← hn,
      copy_run c.src_lt.ne' hsrc hnew h hroom.ge, List.drop_of_length_le hroom.le, List.append_nil]
  refine ⟨c.memory.fresh, m₂.write c.memory.fresh ((c.bytes.take (n + 4)).map some), ?_,
    Nat.le_refl _, CellStore.read_write_self hnew, ?_, ?_⟩
  · simp only [Implementor.load, blobImplementor]
    rw [run_bind (requireAtLeast_run hfour _), run_bind (blobSize_run c.holds hfour), ← hn, hmod,
      run_bind (requireAtLeast_run h _)]
    have hallocate : (allocate (n + 4) : Codec Nat).run c.memory = (.ok c.memory.fresh, m₁) := rfl
    rw [run_bind hallocate, run_bind (c.assign_run m₁ _), run_bind hcopy]
    rfl
  · rw [Holds, CellStore.read_write_of_ne c.src_lt.ne]
    exact hsrc
  · intro a ha _ hds
    rw [CellStore.read_write_of_ne ha, c.read_released m₁ hds, CellStore.read_alloc_of_ne ha]

/-- `get_string_mxsz` does in memory what it does to a list of bytes. -/
theorem getStringMxsz_run {m : Blocks UInt8} {src : Nat} {bytes bytes' : List UInt8} {sz : Nat}
    (h : Holds m src bytes) (hlt : bytes.length < sizeMod)
    (hstr : StateDb.getStringMxsz bytes = .ok (bytes', sz)) :
    (getStringMxsz src bytes.length).run m = (.ok sz, m.write src (bytes'.map some)) := by
  have hscan := @scan_run m src bytes h [] bytes rfl bytes.length (Nat.le_refl _)
  rw [List.length_nil, Nat.zero_add] at hscan
  rw [getStringMxsz, run_bind hscan]
  unfold StateDb.getStringMxsz at hstr
  dsimp only at hstr
  split at hstr
  · rename_i hall
    split at hstr
    · cases hstr
    · rename_i hne
      obtain ⟨rfl, rfl⟩ := Prod.mk.inj (Except.ok.inj hstr)
      obtain ⟨k, hk⟩ : ∃ k, bytes.length = k + 1 := ⟨bytes.length - 1, by omega⟩
      have hdec : sizeDec bytes.length = bytes.length - 1 := by
        rw [hk, sizeDec_succ (by omega)]
        rfl
      have hstore := @store_run UInt8 Exception m src (bytes.length - 1) (bytes.map some) h
        (by rw [List.length_map]; omega) 0
      rw [if_pos hall, hdec, run_bind hstore, List.map_set]
      rfl
  · rename_i hshort
    obtain ⟨rfl, rfl⟩ := Prod.mk.inj (Except.ok.inj hstr)
    rw [if_neg hshort, CellStore.write_read h]
    rfl

theorem getStringMxsz_empty {m : Blocks UInt8} {src : Nat} (h : Holds m src []) :
    (getStringMxsz src 0).run m = (.error .outOfBounds, m) := by
  have hscan : (scan src 0 0 0).run m = (.ok 0, m) := rfl
  rw [getStringMxsz, run_bind hscan, if_pos rfl]
  exact stop_bind (store_outOfBounds h (Nat.zero_le _) 0)

/-- The source buffer with a zero byte put into it, and the text in front. -/
structure Terminated (bytes bytes' text : List UInt8) : Prop where
  length : bytes'.length = bytes.length
  noZero : (0 : UInt8) ∉ text
  prefix' : ∃ rest, bytes' = text ++ 0 :: rest

theorem getStringMxsz_terminated {bytes bytes' : List UInt8} {sz : Nat}
    (h : StateDb.getStringMxsz bytes = .ok (bytes', sz)) :
    ∃ text, Terminated bytes bytes' text ∧ sz = text.length := by
  obtain ⟨text, hzero, htake, -, hsz⟩ := getStringMxsz_text h
  refine ⟨text, ⟨?_, hzero, bytes'.drop (sz + 1), ?_⟩, hsz⟩
  · unfold StateDb.getStringMxsz at h
    dsimp only at h
    split at h
    · split at h
      · cases h
      · obtain ⟨rfl, -⟩ := Prod.mk.inj (Except.ok.inj h)
        exact List.length_set
    · obtain ⟨rfl, -⟩ := Prod.mk.inj (Except.ok.inj h)
      rfl
  · calc bytes' = bytes'.take (sz + 1) ++ bytes'.drop (sz + 1) := (List.take_append_drop _ _).symm
      _ = text ++ 0 :: bytes'.drop (sz + 1) := by rw [htake, List.append_assoc]; rfl

theorem string_loaded (c : LoadCall) {bytes' text : List UInt8}
    (hterm : Terminated c.bytes bytes' text)
    (hstr : StateDb.getStringMxsz c.bytes = .ok (bytes', text.length)) :
    ∃ b m, Loaded c (stringImplementor.load c) bytes' (text ++ [0]) (text.length + 1) b m := by
  obtain ⟨hlength, hzero, rest, hbytes'⟩ := hterm
  have hlen : text.length + 1 ≤ bytes'.length := by simp [hbytes']
  have hinc : sizeInc text.length = text.length + 1 := sizeInc_of_lt (by have := c.lt_size; omega)
  have htake : bytes'.take (text.length + 1) = text ++ [0] := by simp [hbytes', List.take_append]
  let room : List (Option UInt8) := List.replicate (text.length + 1) none
  let m₁ := c.memory.write c.src (bytes'.map some)
  let m₂ := m₁.alloc room
  let m₃ := m₂.write c.memory.fresh ((text ++ [0]).map some)
  have hfresh : m₁.fresh = c.memory.fresh := CellStore.fresh_write ..
  have hroom : room.length = text.length + 1 := List.length_replicate
  have hsrc : Holds m₂ c.src bytes' := by
    rw [Holds, CellStore.read_alloc_of_lt (hfresh ▸ c.src_lt)]
    exact CellStore.read_write_self c.holds
  have hnew : m₂.read c.memory.fresh = some room := by
    rw [← hfresh]
    exact CellStore.read_alloc_self ..
  have hcopy : (copy c.memory.fresh c.src (text.length + 1) : Codec Unit).run m₂ =
      (.ok (), m₃) := by
    rw [copy_run c.src_lt.ne' hsrc hnew hlen hroom.ge, List.drop_of_length_le hroom.le,
      List.append_nil, htake]
  refine ⟨c.memory.fresh, c.released m₃, ?_, Nat.le_refl _, ?_, ?_, ?_⟩
  · simp only [Implementor.load, stringImplementor]
    rw [run_bind (getStringMxsz_run c.holds c.lt_size hstr), hinc]
    have hallocate : (allocate (text.length + 1) : Codec Nat).run m₁ =
        (.ok c.memory.fresh, m₂) := by
      rw [← hfresh]
      rfl
    rw [run_bind hallocate, run_bind hcopy]
    exact run_bind (c.assign_run m₃ _)
  · rw [Holds, c.read_released m₃ c.ds_ne_new]
    exact CellStore.read_write_self hnew
  · rw [Holds, c.read_released m₃ c.apart, CellStore.read_write_of_ne c.src_lt.ne]
    exact hsrc
  · intro a ha hsrc hds
    rw [c.read_released m₃ hds, CellStore.read_write_of_ne ha,
      CellStore.read_alloc_of_ne (hfresh ▸ ha), CellStore.read_write_of_ne hsrc]

/-- A BIGINT is read from the characters in front of the zero byte. -/
theorem bigint_run (c : LoadCall) {b : Bigint} {bytes' text : List UInt8} (hds : c.ds = .bigint b)
    (htwo : 2 ≤ c.bytes.length) (hterm : Terminated c.bytes bytes' text)
    (hstr : StateDb.getStringMxsz c.bytes = .ok (bytes', text.length)) :
    bigintImplementor.load c = (do
      let n ← readBigint text
      pure (MemoryPtr.bigint n, text.length)).run (c.memory.write c.src (bytes'.map some)) := by
  obtain ⟨-, hzero, rest, rfl⟩ := hterm
  have hsrc : Holds (c.memory.write c.src ((text ++ 0 :: rest).map some)) c.src
      (text ++ 0 :: rest) := CellStore.read_write_self c.holds
  have hbigint : c.ds.asBigint.run c.memory = (.ok b, c.memory) := by
    rw [hds]
    rfl
  have htext := @loadAt_run UInt8 Exception _ c.src 0 text.length _ hsrc (by simp)
  rw [List.drop_zero, List.take_left' rfl] at htext
  simp only [Implementor.load, bigintImplementor]
  rw [run_bind hbigint, run_bind (requireAtLeast_run htwo _),
    run_bind (getStringMxsz_run c.holds c.lt_size hstr), run_bind (strlen_run hsrc hzero),
    run_bind htext]

theorem bigint_loaded (c : LoadCall) {b n : Bigint} {bytes' text : List UInt8}
    (hds : c.ds = .bigint b) (htwo : 2 ≤ c.bytes.length) (hterm : Terminated c.bytes bytes' text)
    (hstr : StateDb.getStringMxsz c.bytes = .ok (bytes', text.length))
    (hread : Bigint.read text = some n) :
    bigintImplementor.load c = (.ok (.bigint n, text.length),
      c.memory.write c.src (bytes'.map some)) := by
  rw [bigint_run c hds htwo hterm hstr, readBigint, hread]
  rfl

theorem bigint_oversteps (c : LoadCall) {b : Bigint} {bytes' text : List UInt8}
    (hds : c.ds = .bigint b) (htwo : 2 ≤ c.bytes.length) (hterm : Terminated c.bytes bytes' text)
    (hstr : StateDb.getStringMxsz c.bytes = .ok (bytes', text.length))
    (hread : Bigint.read text = none) :
    bigintImplementor.load c = (.error .outOfBounds, c.memory.write c.src (bytes'.map some)) := by
  rw [bigint_run c hds htwo hterm hstr, readBigint, hread]
  rfl

/-! ## A BLOB and its length -/

/-- The bytes announced by the prefix of a BLOB. -/
def LoadCall.announced (c : LoadCall) : Nat := leNat (c.bytes.take 4)

/-- `load_from` of a BLOB throws and leaves everything as it was, or loads the prefix and
the bytes that follow, and no others. -/
def BlobBounded (c : LoadCall) : Prop :=
  blobImplementor.load c = (.error (.threw .unsufficientSpace), c.memory) ∨
    ∃ b m, c.announced + 4 ≤ c.bytes.length ∧ Loaded c (blobImplementor.load c) c.bytes
      (c.bytes.take (c.announced + 4)) (c.announced + 4) b m

theorem LoadCall.announced_lt (c : LoadCall) : c.announced < 4294967296 :=
  lt_of_lt_of_le (leNat_lt (c.bytes.take 4))
    (Nat.pow_le_pow_right (by omega) (List.length_take_le 4 c.bytes))

/-- The sum overflows: a block of at most three bytes is allocated, and more are copied. -/
theorem blob_oversteps (c : LoadCall) (hfour : 4 ≤ c.bytes.length)
    (hwrap : 4294967292 ≤ c.announced) :
    ∃ m, blobImplementor.load c = (.error .outOfBounds, m) := by
  have hlt := c.announced_lt
  obtain ⟨n, hn⟩ : ∃ n, n = c.announced := ⟨_, rfl⟩
  rw [← hn] at hwrap hlt
  have hsize : (n + 4) % 4294967296 = n - 4294967292 := by omega
  let room : List (Option UInt8) := List.replicate (n - 4294967292) none
  let m₁ := c.memory.alloc room
  have hsrc : Holds (c.released m₁) c.src c.bytes := by
    rw [Holds, c.read_released m₁ c.apart, CellStore.read_alloc_of_lt c.src_lt]
    exact c.holds
  have hnew : (c.released m₁).read c.memory.fresh = some room := by
    rw [c.read_released m₁ c.ds_ne_new]
    exact CellStore.read_alloc_self ..
  have hroom : room.length < n + 4 := by
    rw [List.length_replicate]
    omega
  obtain ⟨m, hcopy⟩ := @copy_outOfBounds UInt8 Exception _ (n + 4) _ c.memory.fresh c.src room
    c.src_lt.ne' hsrc hnew (Or.inr hroom)
  have hcopyTo : (blobCopyTo c.src c.memory.fresh).run (c.released m₁) =
      (.error .outOfBounds, m) := by
    have hblob := blobSize_run hsrc hfour
    rw [show leNat (c.bytes.take 4) = n from hn.symm] at hblob
    rw [blobCopyTo, run_bind hblob, hcopy]
  refine ⟨m, ?_⟩
  have hblob := blobSize_run c.holds hfour
  rw [show leNat (c.bytes.take 4) = n from hn.symm] at hblob
  simp only [Implementor.load, blobImplementor]
  rw [run_bind (requireAtLeast_run hfour _), run_bind hblob, hsize,
    run_bind (requireAtLeast_run (by omega) _)]
  have hallocate : (allocate (n - 4294967292) : Codec Nat).run c.memory =
      (.ok c.memory.fresh, m₁) := rfl
  rw [run_bind hallocate, run_bind (c.assign_run m₁ _), stop_bind hcopyTo]

/-- A BLOB is loaded within its memory just when its length and prefix do not overflow. -/
theorem blobBounded_iff (c : LoadCall) :
    BlobBounded c ↔ (4 ≤ c.bytes.length → c.announced < 4294967292) := by
  constructor
  · intro hbounded hfour
    by_contra hge
    obtain ⟨m, hover⟩ := blob_oversteps c hfour (Nat.le_of_not_lt hge)
    rcases hbounded with hthrows | ⟨b, m', -, hloaded⟩
    · rw [hover] at hthrows
      cases hthrows
    · have hreturns := hloaded.returns
      rw [hover] at hreturns
      cases hreturns
  · intro hsmall
    by_cases hfour : 4 ≤ c.bytes.length
    · have hwrap := hsmall hfour
      by_cases hall : c.announced + 4 ≤ c.bytes.length
      · obtain ⟨b, m, hloaded⟩ := blob_loaded c hfour hwrap hall
        exact Or.inr ⟨b, m, hall, hloaded⟩
      · refine Or.inl ?_
        have hmod : (leNat (c.bytes.take 4) + 4) % 4294967296 = c.announced + 4 :=
          Nat.mod_eq_of_lt (by unfold LoadCall.announced at hwrap; omega)
        simp only [Implementor.load, blobImplementor]
        rw [run_bind (requireAtLeast_run hfour _), run_bind (blobSize_run c.holds hfour), hmod]
        exact stop_bind (requireAtLeast_throws (by omega) _)
    · refine Or.inl ?_
      simp only [Implementor.load, blobImplementor]
      exact stop_bind (requireAtLeast_throws (by omega) _)

/-- A buffer that lies alone in memory. -/
def bufferAlone (bytes : List UInt8) (h : bytes.length < sizeMod) : LoadCall :=
  ⟨⟨[some (bytes.map some)]⟩, 0, bytes, .null, rfl, h, fun _ heq => (by cases heq),
    fun heq => (by cases heq)⟩

/-- Four bytes that announce `2^32 - 1` more. -/
theorem ones_not_blobBounded : (∃ m, blobImplementor.load
      (bufferAlone [255, 255, 255, 255] (by decide)) = (.error .outOfBounds, m)) ∧
    ¬ BlobBounded (bufferAlone [255, 255, 255, 255] (by decide)) := by
  have hfour : 4 ≤ (bufferAlone [255, 255, 255, 255] (by decide)).bytes.length := Nat.le_refl _
  have hwrap : 4294967292 ≤ (bufferAlone [255, 255, 255, 255] (by decide)).announced := by decide
  refine ⟨blob_oversteps _ hfour hwrap, ?_⟩
  rw [blobBounded_iff]
  exact fun h => absurd (h hfour) (Nat.not_lt.mpr hwrap)

/-! ## A text and its zero byte -/

theorem textSize_run {m : Blocks UInt8} {b : Nat} {text rest : List UInt8}
    (h : Holds m b (text ++ 0 :: rest)) (hzero : (0 : UInt8) ∉ text) :
    (textSize (.block b)).run m = (.ok (text.length + 1), m) := by
  have hraw : (MemoryPtr.block b).raw.run m = (.ok b, m) := rfl
  rw [textSize, run_bind hraw, run_bind (strlen_run h hzero)]
  rfl

theorem string_loadTo {m : Blocks UInt8} {b dst : Nat} {text rest : List UInt8}
    {room : List (Option UInt8)} (h : Holds m b (text ++ 0 :: rest)) (hzero : (0 : UInt8) ∉ text)
    (hne : dst ≠ b) (hdst : m.read dst = some room) (hroom : text.length + 1 ≤ room.length)
    (bufSize : Nat) :
    (stringImplementor.loadTo dst bufSize (.block b)).run m = (.ok (text.length + 1),
      m.write dst ((text ++ [0]).map some ++ room.drop (text.length + 1))) := by
  have hraw : (MemoryPtr.block b).raw.run m = (.ok b, m) := rfl
  have htake : (text ++ 0 :: rest).take (text.length + 1) = text ++ [0] := by
    simp [List.take_append]
  have hcopy := @copy_run UInt8 Exception m (text.length + 1) _ dst b room hne h hdst (by simp)
    hroom
  rw [htake] at hcopy
  simp only [stringImplementor]
  rw [run_bind (textSize_run h hzero), run_bind hraw, run_bind hcopy]
  rfl

/-- `load_from` of a STRING keeps to its buffer and to the new block, and leaves a zero
byte in this block; `get_size` and `load_to` find it there. -/
def TextBounded (c : LoadCall) : Prop :=
  ∃ source text rest b m, Loaded c (stringImplementor.load c) source (text ++ [0])
      (text.length + 1) b m ∧
    source = text ++ 0 :: rest ∧ source.length = c.bytes.length ∧
    (stringImplementor.getSize (.block b)).run m = (.ok (text.length + 1), m) ∧
    ∀ (dst : Nat) (room : List (Option UInt8)), dst ≠ b → m.read dst = some room →
      text.length + 1 ≤ room.length →
      (stringImplementor.loadTo dst room.length (.block b)).run m = (.ok (text.length + 1),
        m.write dst ((text ++ [0]).map some ++ room.drop (text.length + 1)))

theorem string_oversteps (c : LoadCall) (h : c.bytes = []) :
    stringImplementor.load c = (.error .outOfBounds, c.memory) := by
  have hholds : Holds c.memory c.src [] := h ▸ c.holds
  simp only [Implementor.load, stringImplementor, h, List.length_nil]
  exact stop_bind (getStringMxsz_empty hholds)

/-- A STRING is loaded within its memory just when its buffer is not empty. -/
theorem textBounded_iff (c : LoadCall) : TextBounded c ↔ c.bytes ≠ [] := by
  constructor
  · rintro ⟨source, text, rest, b, m, hloaded, -⟩ hnil
    have hreturns := hloaded.returns
    rw [string_oversteps c hnil] at hreturns
    cases hreturns
  · intro hne
    obtain ⟨⟨source, sz⟩, hstr⟩ := getStringMxsz_ne_nil hne
    obtain ⟨text, hterm, rfl⟩ := getStringMxsz_terminated hstr
    obtain ⟨b, m, hloaded⟩ := string_loaded c hterm hstr
    obtain ⟨rest, hsource⟩ := hterm.prefix'
    refine ⟨source, text, rest, b, m, hloaded, hsource, hterm.length,
      textSize_run hloaded.stored hterm.noZero, ?_⟩
    intro dst room hdst hread hroom
    exact string_loadTo hloaded.stored hterm.noZero hdst hread hroom room.length

/-- The value part of a SET may be empty. -/
theorem empty_not_textBounded :
    stringImplementor.load (bufferAlone [] (by decide)) =
        (.error .outOfBounds, (bufferAlone [] (by decide)).memory) ∧
      ¬ TextBounded (bufferAlone [] (by decide)) := by
  refine ⟨string_oversteps _ rfl, ?_⟩
  rw [textBounded_iff]
  exact fun h => h rfl

end StateDb.InMemory
