/-
  StateDb/UniformEncoding.lean
  ============================
  **Writing an object into a buffer** (`load_to`, `get_size` of the implementors).

  The programs over memory do what `Dtypes.lean` says of lists of bytes
  (`loadFrom_refines`, `loadTo_refines`).  `load_to` throws when its buffer is too small,
  and writes `get_size` bytes when it is not; only that of a STRING does not look at the
  size of its buffer (`uniform_iff`).
-/
import StateDb.MemoryCodecs

namespace StateDb.InMemory

open Lib Lib.MemProg Bpt

/-! ## Writing -/

/-- The object is written as `enc` into any other block with room for it. -/
structure Writes (impl : Implementor) (m : Blocks UInt8) (ptr : MemoryPtr) (enc : List UInt8) :
    Prop where
  size : (impl.getSize ptr).run m = (.ok enc.length, m)
  loadTo : ∀ (dst : Nat) (room : List (Option UInt8)), ptr ≠ .block dst → m.read dst = some room →
    enc.length ≤ room.length → (impl.loadTo dst room.length ptr).run m =
      (.ok enc.length, m.write dst (enc.map some ++ room.drop enc.length))

/-- `load_to` throws when there is less room, and has written nothing. -/
def Guards (impl : Implementor) (m : Blocks UInt8) (ptr : MemoryPtr) (enc : List UInt8) : Prop :=
  ∀ dst bufSize, bufSize < enc.length →
    (impl.loadTo dst bufSize ptr).run m = (.error (.threw .unsufficientSpace), m)

section Writing

variable {m : Blocks UInt8} {b : Nat} {bytes : List UInt8}

theorem raw_run (b : Nat) (m : Blocks UInt8) : (MemoryPtr.block b).raw.run m = (.ok b, m) := rfl

theorem static_writes {size : Nat} (h : Holds m b bytes) (hlen : size ≤ bytes.length) :
    Writes (staticImplementor size) m (.block b) (bytes.take size) ∧
      Guards (staticImplementor size) m (.block b) (bytes.take size) := by
  have hout : (bytes.take size).length = size := List.length_take_of_le hlen
  refine ⟨⟨?_, ?_⟩, ?_⟩
  · rw [hout]
    rfl
  · intro dst room hne hdst hroom
    rw [hout] at hroom ⊢
    have hdb : dst ≠ b := fun heq => hne (congrArg _ heq.symm)
    have hcopy := @copy_run UInt8 Exception m _ _ dst b room hdb h hdst hlen hroom
    simp only [staticImplementor]
    rw [run_bind (requireAtLeast_run hroom _), run_bind (raw_run b m), run_bind hcopy]
    rfl
  · intro dst bufSize hlt
    rw [hout] at hlt
    simp only [staticImplementor]
    exact stop_bind (requireAtLeast_throws hlt _)

theorem blob_writes (h : Holds m b bytes) (hlen : leNat (bytes.take 4) + 4 ≤ bytes.length) :
    Writes blobImplementor m (.block b) (bytes.take (leNat (bytes.take 4) + 4)) ∧
      Guards blobImplementor m (.block b) (bytes.take (leNat (bytes.take 4) + 4)) := by
  have hsize := blobSize_run h (by omega)
  have hout : (bytes.take (leNat (bytes.take 4) + 4)).length = leNat (bytes.take 4) + 4 :=
    List.length_take_of_le hlen
  refine ⟨⟨?_, ?_⟩, ?_⟩
  · simp only [blobImplementor]
    rw [run_bind (raw_run b m), run_bind hsize, hout]
    rfl
  · intro dst room hne hdst hroom
    rw [hout] at hroom ⊢
    have hdb : dst ≠ b := fun heq => hne (congrArg _ heq.symm)
    have hcopyTo : (blobCopyTo b dst).run m = (.ok (), m.write dst
        ((bytes.take (leNat (bytes.take 4) + 4)).map some ++
          room.drop (leNat (bytes.take 4) + 4))) := by
      rw [blobCopyTo, run_bind hsize, copy_run hdb h hdst hlen hroom]
    simp only [blobImplementor]
    rw [run_bind (raw_run b m), run_bind hsize, run_bind (requireAtLeast_run hroom _),
      run_bind hcopyTo]
    rfl
  · intro dst bufSize hlt
    rw [hout] at hlt
    simp only [blobImplementor]
    rw [run_bind (raw_run b m), run_bind hsize]
    exact stop_bind (requireAtLeast_throws hlt _)

theorem string_writes {text rest : List UInt8} (h : Holds m b (text ++ 0 :: rest))
    (hzero : (0 : UInt8) ∉ text) : Writes stringImplementor m (.block b) (text ++ [0]) := by
  have hlen : (text ++ [0]).length = text.length + 1 := by simp
  refine ⟨hlen ▸ textSize_run h hzero, ?_⟩
  intro dst room hne hdst hroom
  rw [hlen] at hroom ⊢
  exact string_loadTo h hzero (fun heq => hne (congrArg _ heq.symm)) hdst hroom room.length

theorem bigint_writes (m : Blocks UInt8) (n : Bigint) :
    Writes bigintImplementor m (.bigint n) (n.toString ++ [0]) ∧
      Guards bigintImplementor m (.bigint n) (n.toString ++ [0]) := by
  have hlen : (n.toString ++ [0]).length = n.toString.length + 1 := by simp
  have hbigint : (MemoryPtr.bigint n).asBigint.run m = (.ok n, m) := rfl
  refine ⟨⟨hlen ▸ rfl, ?_⟩, ?_⟩
  · intro dst room _ hdst hroom
    have hstore := @store_all UInt8 Exception m dst (n.toString ++ [0]) room hdst hroom
    simp only [bigintImplementor]
    rw [run_bind hbigint, run_bind (requireAtLeast_run (hlen ▸ hroom) _), run_bind hstore, hlen]
    rfl
  · intro dst bufSize hlt
    simp only [bigintImplementor]
    rw [run_bind hbigint]
    exact stop_bind (requireAtLeast_throws (hlen ▸ hlt) _)

theorem none_writes {m : Blocks UInt8} (ptr : MemoryPtr) :
    Writes noneImplementor m ptr [] ∧ Guards noneImplementor m ptr [] := by
  refine ⟨⟨rfl, ?_⟩, fun _ _ hlt => absurd hlt (Nat.not_lt_zero _)⟩
  intro dst room _ hdst _
  show (Except.ok 0, m) = _
  rw [List.map_nil, List.length_nil, List.drop_zero, List.nil_append, CellStore.write_read hdst]

/-- `load_to` of a STRING copies past the end of a buffer that is too small. -/
theorem string_overruns {text : List UInt8} {dst : Nat} {room : List (Option UInt8)}
    (h : Holds m b (text ++ [0])) (hzero : (0 : UInt8) ∉ text) (hne : dst ≠ b)
    (hdst : m.read dst = some room) (hroom : room.length < text.length + 1) :
    ∃ m', (stringImplementor.loadTo dst room.length (.block b)).run m =
      (.error .outOfBounds, m') := by
  obtain ⟨m', hcopy⟩ := @copy_outOfBounds UInt8 Exception m (text.length + 1) _ dst b room hne h
    hdst (Or.inr hroom)
  refine ⟨m', ?_⟩
  simp only [stringImplementor]
  rw [run_bind (textSize_run h hzero), run_bind (raw_run b m)]
  exact stop_bind hcopy

end Writing

theorem getImplementor_fixed (t : FixedType) :
    getImplementor t.id = some (staticImplementor t.size) := by
  cases t <;> rfl

/-! ## The programs and the lists of bytes -/

/-- What the pointer points to. -/
inductive Represents (m : Blocks UInt8) : MemoryPtr → Stored → Prop
  | null : Represents m .null .null
  | memory {b : Nat} {bytes : List UInt8} (h : Holds m b bytes) :
      Represents m (.block b) (.memory bytes)
  | bigint (n : Bigint) : Represents m (.bigint n) (.bigint n)

/-- The program ends as the function on lists of bytes does.  It has changed nothing when
the exception is thrown, and does not go on where the function has an error of its own. -/
inductive Agrees (m₀ : Blocks UInt8) : Except DataError (Stored × Nat) →
    Except (Stop Exception) (MemoryPtr × Nat) × Blocks UInt8 → Prop
  | ok {s : Stored} {ptr : MemoryPtr} {m : Blocks UInt8} (n : Nat) (h : Represents m ptr s) :
      Agrees m₀ (.ok (s, n)) (.ok (ptr, n), m)
  | threw : Agrees m₀ (.error .unsufficientSpace) (.error (.threw .unsufficientSpace), m₀)
  | stopped {e : DataError} {stop : Stop Exception} (m : Blocks UInt8)
      (he : e ≠ .unsufficientSpace) (hstop : stop ≠ .threw .unsufficientSpace) :
      Agrees m₀ (.error e) (.error stop, m)

theorem error_bind {α β : Type} (e : DataError) (f : α → Except DataError β) :
    (Except.error e >>= f) = .error e := rfl

theorem requireAtLeast_error {bytes required : Nat} (h : bytes < required) :
    StateDb.requireAtLeast bytes required = .error .unsufficientSpace := if_pos h

theorem Loaded.agrees {c : LoadCall} {r : Except (Stop Exception) (MemoryPtr × Nat) × Blocks UInt8}
    {source stored : List UInt8} {count b : Nat} {m : Blocks UInt8}
    (h : Loaded c r source stored count b m) : Agrees c.memory (.ok (.memory stored, count)) r := by
  rw [h.returns]
  exact .ok count (.memory h.stored)

theorem static_refines (size : Nat) (c : LoadCall) (s : Stored) : Agrees c.memory
    ((StateDb.staticImplementor size).loadFrom c.bytes s) ((staticImplementor size).load c) := by
  by_cases hsize : size ≤ c.bytes.length
  · obtain ⟨b, m, hloaded⟩ := static_loaded c hsize
    simp only [StateDb.staticImplementor, requireAtLeast_ok hsize, bind_ok]
    exact hloaded.agrees
  · have hthrows := requireAtLeast_throws (Nat.lt_of_not_le hsize) c.memory
    simp only [StateDb.staticImplementor, requireAtLeast_error (Nat.lt_of_not_le hsize), error_bind,
      Implementor.load, staticImplementor, stop_bind hthrows]
    exact .threw

theorem blob_refines (c : LoadCall) (s : Stored) : Agrees c.memory
    (StateDb.blobImplementor.loadFrom c.bytes s) (blobImplementor.load c) := by
  by_cases hfour : 4 ≤ c.bytes.length
  · have hlt := c.announced_lt
    have hn : leNat (c.bytes.take 4) = c.announced := rfl
    by_cases hwrap : 4294967292 ≤ c.announced
    · -- the sum overflows
      obtain ⟨m, hover⟩ := blob_oversteps c hfour hwrap
      have hall : StateDb.requireAtLeast c.bytes.length ((c.announced + 4) % 4294967296) = .ok () :=
        requireAtLeast_ok (by omega)
      have hsmall : (c.announced + 4) % 4294967296 < c.announced + 4 := by omega
      simp only [StateDb.blobImplementor, requireAtLeast_ok hfour, bind_ok, hn, hall, if_pos hsmall,
        hover]
      exact .stopped m (by simp) (by simp)
    · have hmod : (c.announced + 4) % 4294967296 = c.announced + 4 := Nat.mod_eq_of_lt (by omega)
      by_cases hall : c.announced + 4 ≤ c.bytes.length
      · obtain ⟨b, m, hloaded⟩ := blob_loaded c hfour (Nat.lt_of_not_le hwrap) hall
        simp only [StateDb.blobImplementor, requireAtLeast_ok hfour, bind_ok, hn, hmod,
          requireAtLeast_ok hall, Nat.lt_irrefl, if_false]
        exact hloaded.agrees
      · have hshort := Nat.lt_of_not_le hall
        have hthrows := requireAtLeast_throws hshort c.memory
        have hload : blobImplementor.load c = (.error (.threw .unsufficientSpace), c.memory) := by
          simp only [Implementor.load, blobImplementor]
          rw [run_bind (requireAtLeast_run hfour _), run_bind (blobSize_run c.holds hfour), hn,
            hmod]
          exact stop_bind hthrows
        simp only [StateDb.blobImplementor, requireAtLeast_ok hfour, bind_ok, hn, hmod,
          requireAtLeast_error hshort, error_bind, hload]
        exact .threw
  · have hthrows := requireAtLeast_throws (Nat.lt_of_not_le hfour) c.memory
    simp only [StateDb.blobImplementor, requireAtLeast_error (Nat.lt_of_not_le hfour), error_bind,
      Implementor.load, blobImplementor, stop_bind hthrows]
    exact .threw

theorem string_refines (c : LoadCall) (s : Stored) : Agrees c.memory
    (StateDb.stringImplementor.loadFrom c.bytes s) (stringImplementor.load c) := by
  by_cases hne : c.bytes = []
  · have hfunction : StateDb.getStringMxsz c.bytes = .error .outOfBounds := by
      rw [hne]
      rfl
    simp only [StateDb.stringImplementor, hfunction, error_bind, string_oversteps c hne]
    exact .stopped _ (by simp) (by simp)
  · obtain ⟨⟨source, sz⟩, hstr⟩ := getStringMxsz_ne_nil hne
    obtain ⟨text, hterm, rfl⟩ := getStringMxsz_terminated hstr
    obtain ⟨b, m, hloaded⟩ := string_loaded c hterm hstr
    obtain ⟨rest, hsource⟩ := hterm.prefix'
    have htake : source.take (text.length + 1) = text ++ [0] := by
      simp [hsource, List.take_append]
    simp only [StateDb.stringImplementor, hstr, bind_ok, htake]
    exact hloaded.agrees

theorem bigint_refines (c : LoadCall) {s : Stored} (hs : Represents c.memory c.ds s) :
    Agrees c.memory (StateDb.bigintImplementor.loadFrom c.bytes s) (bigintImplementor.load c) := by
  cases hds : c.ds with
  | null =>
    rw [hds] at hs
    cases hs
    simp only [Implementor.load, bigintImplementor, hds]
    exact .stopped _ (by simp) (by simp)
  | block b =>
    rw [hds] at hs
    cases hs
    simp only [Implementor.load, bigintImplementor, hds]
    exact .stopped _ (by simp) (by simp)
  | bigint b =>
    rw [hds] at hs
    cases hs
    by_cases htwo : 2 ≤ c.bytes.length
    · have hne : c.bytes ≠ [] := by
        intro hnil
        rw [hnil] at htwo
        exact absurd htwo (by decide)
      obtain ⟨⟨source, sz⟩, hstr⟩ := getStringMxsz_ne_nil hne
      obtain ⟨text, hterm, rfl⟩ := getStringMxsz_terminated hstr
      obtain ⟨rest, hsource⟩ := hterm.prefix'
      have htake : source.take text.length = text := by
        simp [hsource]
      simp only [StateDb.bigintImplementor, Stored.bigintAt, bind_ok, requireAtLeast_ok htwo, hstr,
        htake]
      cases hread : Bigint.read text with
      | none =>
        simp only [StateDb.readBigint, hread, error_bind,
          bigint_oversteps c hds htwo hterm hstr hread]
        exact .stopped _ (by simp) (by simp)
      | some n =>
        simp only [StateDb.readBigint, hread, bind_ok, bigint_loaded c hds htwo hterm hstr hread]
        exact .ok _ (.bigint _)
    · have hshort := Nat.lt_of_not_le htwo
      have hbigint : c.ds.asBigint.run c.memory = (.ok b, c.memory) := by
        rw [hds]
        rfl
      have hthrows := requireAtLeast_throws hshort c.memory
      simp only [StateDb.bigintImplementor, Stored.bigintAt, bind_ok, requireAtLeast_error hshort,
        error_bind, Implementor.load, bigintImplementor, run_bind hbigint, stop_bind hthrows]
      exact .threw

theorem bytesAt_eq_ok {s : Stored} {size : Nat} {out : List UInt8} (h : s.bytesAt size = .ok out) :
    ∃ bytes, s = .memory bytes ∧ size ≤ bytes.length ∧ bytes.take size = out := by
  cases s with
  | null => cases h
  | bigint _ => cases h
  | memory bytes =>
    by_cases hlen : bytes.length < size
    · rw [Stored.bytesAt, if_pos hlen] at h
      cases h
    · rw [Stored.bytesAt, if_neg hlen] at h
      exact ⟨bytes, rfl, Nat.le_of_not_lt hlen, Except.ok.inj h⟩

theorem strlen_eq_ok {bytes : List UInt8} {n : Nat} (h : StateDb.strlen bytes = .ok n) :
    ∃ text rest, bytes = text ++ 0 :: rest ∧ (0 : UInt8) ∉ text ∧ text.length = n := by
  unfold StateDb.strlen at h
  split at h
  · cases h
  · rename_i hshort
    obtain ⟨rest, hbytes⟩ := eq_cstr_append hshort
    exact ⟨cstr bytes, rest, hbytes, zero_notMem_cstr bytes, Except.ok.inj h⟩

/-- `load_from` does in memory what it does to lists of bytes. -/
theorem loadFrom_refines {dt : UInt8} {f : StateDb.Implementor} {impl : Implementor}
    (hf : StateDb.getImplementor dt = some f) (himpl : getImplementor dt = some impl) (c : LoadCall)
    {s : Stored} (hs : Represents c.memory c.ds s) :
    Agrees c.memory (f.loadFrom c.bytes s) (impl.load c) := by
  rcases implementor_cases hf with ⟨t, rfl, rfl⟩ | ⟨rfl, rfl⟩ | ⟨rfl, rfl⟩ | ⟨rfl, rfl⟩ | ⟨rfl, rfl⟩
  · rw [getImplementor_fixed] at himpl
    obtain rfl := Option.some.inj himpl
    exact static_refines t.size c s
  · obtain rfl : blobImplementor = impl := Option.some.inj himpl
    exact blob_refines c s
  · obtain rfl : stringImplementor = impl := Option.some.inj himpl
    exact string_refines c s
  · obtain rfl : noneImplementor = impl := Option.some.inj himpl
    exact .ok 0 hs
  · obtain rfl : bigintImplementor = impl := Option.some.inj himpl
    exact bigint_refines c hs

/-- What the function on lists of bytes writes, the program writes into memory. -/
theorem loadTo_refines {dt : UInt8} {f : StateDb.Implementor} {impl : Implementor}
    (hf : StateDb.getImplementor dt = some f) (himpl : getImplementor dt = some impl)
    {m : Blocks UInt8} {ptr : MemoryPtr} {s : Stored} (hs : Represents m ptr s) {enc : List UInt8}
    (h : Encodes f s enc) : Writes impl m ptr enc := by
  have hto := h.loadTo enc.length (Nat.le_refl _)
  rcases implementor_cases hf with ⟨t, rfl, rfl⟩ | ⟨rfl, rfl⟩ | ⟨rfl, rfl⟩ | ⟨rfl, rfl⟩ | ⟨rfl, rfl⟩
  · rw [getImplementor_fixed] at himpl
    obtain rfl := Option.some.inj himpl
    obtain ⟨-, -, hbytes⟩ := bind_eq_ok.mp hto
    obtain ⟨bytes, rfl, hlen, rfl⟩ := bytesAt_eq_ok hbytes
    cases hs with
    | memory hholds => exact (static_writes hholds hlen).1
  · obtain rfl : blobImplementor = impl := Option.some.inj himpl
    obtain ⟨n, hn, hto⟩ := bind_eq_ok.mp hto
    obtain ⟨-, -, hbytes⟩ := bind_eq_ok.mp hto
    obtain ⟨bytes, rfl, hlen, rfl⟩ := bytesAt_eq_ok hbytes
    have hhead : StateDb.blobSize (.memory bytes) = .ok (leNat (bytes.take 4)) := by
      rw [StateDb.blobSize, bytesAt_memory (by omega)]
      rfl
    obtain rfl := Except.ok.inj (hn.symm.trans hhead)
    cases hs with
    | memory hholds => exact (blob_writes hholds hlen).1
  · obtain rfl : stringImplementor = impl := Option.some.inj himpl
    obtain ⟨len, hlen, hto⟩ := bind_eq_ok.mp hto
    split at hto
    · cases hto
    · obtain ⟨bytes, rfl, -, rfl⟩ := bytesAt_eq_ok hto
      obtain ⟨k, hstrlen, hlen⟩ := bind_eq_ok.mp hlen
      obtain rfl := Except.ok.inj hlen
      obtain ⟨text, rest, rfl, hzero, rfl⟩ := strlen_eq_ok hstrlen
      have htake : (text ++ 0 :: rest).take (text.length + 1) = text ++ [0] := by
        simp [List.take_append]
      rw [htake]
      cases hs with
      | memory hholds => exact string_writes hholds hzero
  · obtain rfl : noneImplementor = impl := Option.some.inj himpl
    obtain rfl := Except.ok.inj hto
    exact (none_writes ptr).1
  · obtain rfl : bigintImplementor = impl := Option.some.inj himpl
    obtain ⟨n, hn, hto⟩ := bind_eq_ok.mp hto
    obtain ⟨-, -, hto⟩ := bind_eq_ok.mp hto
    obtain rfl := Except.ok.inj hto
    cases hs with
    | null => cases hn
    | memory _ => cases hn
    | bigint b =>
      obtain rfl := Except.ok.inj hn
      exact (bigint_writes m b).1

/-! ## What was loaded is written -/

/-- How `load_to` of the type treats a buffer that is too small. -/
def Treats (dt : UInt8) (impl : Implementor) (m : Blocks UInt8) (ptr : MemoryPtr)
    (enc : List UInt8) : Prop :=
  (dt ≠ dtypeString → Guards impl m ptr enc) ∧
    (dt = dtypeString → ∀ (dst : Nat) (room : List (Option UInt8)), ptr ≠ .block dst →
      m.read dst = some room → room.length < enc.length →
        ∃ m', (impl.loadTo dst room.length ptr).run m = (.error .outOfBounds, m'))

theorem treats_of_guards {dt : UInt8} {impl : Implementor} {m : Blocks UInt8} {ptr : MemoryPtr}
    {enc : List UInt8} (hdt : dt ≠ dtypeString) (h : Guards impl m ptr enc) :
    Treats dt impl m ptr enc :=
  ⟨fun _ => h, fun heq => absurd heq hdt⟩

/-- What the call returned is the block of what was stored. -/
theorem Loaded.holds {c : LoadCall} {r : Except (Stop Exception) (MemoryPtr × Nat) × Blocks UInt8}
    {source stored : List UInt8} {count b : Nat} {m' : Blocks UInt8}
    (h : Loaded c r source stored count b m') {ptr : MemoryPtr} {n : Nat} {m : Blocks UInt8}
    (hr : r = (.ok (ptr, n), m)) : ptr = .block b ∧ Holds m b stored := by
  obtain ⟨hok, rfl⟩ := Prod.mk.inj (hr.symm.trans h.returns)
  exact ⟨(Prod.mk.inj (Except.ok.inj hok)).1, h.stored⟩

/-- From a numeral only a bigint is loaded, whatever its value. -/
theorem exists_bigint_of_load {sign ds : List UInt8} (hsign : IsSign sign) (hne : ds ≠ [])
    (hdigits : ∀ c ∈ ds, IsDigit c) {c : LoadCall} (hc : c.bytes = sign ++ ds ++ [0])
    {ptr : MemoryPtr} {n : Nat} {m : Blocks UInt8}
    (hload : bigintImplementor.load c = (.ok (ptr, n), m)) : ∃ b, ptr = .bigint b := by
  have hzero := zero_notMem_numeral hsign hdigits
  have hterm : Terminated c.bytes (sign ++ ds ++ [0]) (sign ++ ds) := ⟨by rw [hc], hzero, [], rfl⟩
  have htwo : 2 ≤ c.bytes.length := by
    have := List.length_pos_iff.mpr hne
    simp only [hc, List.length_append, List.length_singleton]
    omega
  cases hds : c.ds with
  | bigint b =>
    have hstr : StateDb.getStringMxsz c.bytes =
        .ok (sign ++ ds ++ [0], (sign ++ ds).length) := by
      rw [hc]
      exact getStringMxsz_append_zero hzero
    cases hread : Bigint.read (sign ++ ds) with
    | none =>
      rw [bigint_oversteps c hds htwo hterm hstr hread] at hload
      cases hload
    | some n =>
      have hrun := bigint_loaded c hds htwo hterm hstr hread
      obtain ⟨hok, -⟩ := Prod.mk.inj (hload.symm.trans hrun)
      exact ⟨_, (Prod.mk.inj (Except.ok.inj hok)).1⟩
  | null =>
    simp only [Implementor.load, bigintImplementor, hds] at hload
    cases hload
  | block b =>
    simp only [Implementor.load, bigintImplementor, hds] at hload
    cases hload

/-- An object that was loaded from a well-formed encoding, one case for each type. -/
theorem loaded_writes {dt : UInt8} {enc : List UInt8} (henc : IsEncoding dt enc)
    {impl : Implementor} (himpl : getImplementor dt = some impl) {c : LoadCall} (hc : c.bytes = enc)
    {ptr : MemoryPtr} {n : Nat} {m : Blocks UInt8} (hload : impl.load c = (.ok (ptr, n), m)) :
    ∃ out, Writes impl m ptr out ∧ Treats dt impl m ptr out ∧
      (dt = dtypeString → out.length = enc.length) := by
  cases henc with
  | none =>
    obtain rfl : noneImplementor = impl := Option.some.inj himpl
    obtain ⟨hwrites, hguards⟩ := @none_writes m ptr
    exact ⟨[], hwrites, treats_of_guards (by decide) hguards, fun heq => absurd heq (by decide)⟩
  | fixed t bytes length =>
    rw [getImplementor_fixed] at himpl
    obtain rfl := Option.some.inj himpl
    obtain ⟨b, m', hloaded⟩ := static_loaded c (hc ▸ length.ge)
    obtain ⟨rfl, hholds⟩ := hloaded.holds hload
    have hlen : (c.bytes.take t.size).length = t.size := by
      rw [List.length_take, hc, length, Nat.min_self]
    obtain ⟨hwrites, hguards⟩ := static_writes hholds hlen.ge
    obtain ⟨-, -, hstring, -⟩ := t.id_ne
    exact ⟨_, hwrites, treats_of_guards hstring hguards, fun heq => absurd heq hstring⟩
  | blob len data width length =>
    obtain rfl : blobImplementor = impl := Option.some.inj himpl
    have hfour : 4 ≤ c.bytes.length := by
      rw [hc, List.length_append]
      omega
    have htake : c.bytes.take 4 = len := by
      rw [hc, List.take_append_of_le_length width.ge, List.take_of_length_le width.le]
    have hall : leNat (c.bytes.take 4) + 4 = c.bytes.length := by
      rw [htake, hc, List.length_append]
      omega
    by_cases hwrap : leNat (c.bytes.take 4) < 4294967292
    · obtain ⟨b, m', hloaded⟩ := blob_loaded c hfour hwrap hall.le
      obtain ⟨rfl, hholds⟩ := hloaded.holds hload
      rw [hall, List.take_length] at hholds
      obtain ⟨hwrites, hguards⟩ := blob_writes hholds hall.le
      exact ⟨_, hwrites, treats_of_guards (by decide) hguards, fun heq => absurd heq (by decide)⟩
    · obtain ⟨m', hover⟩ := blob_oversteps c hfour (Nat.le_of_not_lt hwrap)
      rw [hover] at hload
      cases hload
  | string text noZero =>
    obtain rfl : stringImplementor = impl := Option.some.inj himpl
    have hterm : Terminated c.bytes (text ++ [0]) text := ⟨by rw [hc], noZero, [], rfl⟩
    obtain ⟨b, m', hloaded⟩ := string_loaded c hterm (hc ▸ getStringMxsz_append_zero noZero)
    obtain ⟨rfl, hholds⟩ := hloaded.holds hload
    refine ⟨text ++ [0], string_writes hholds noZero, ⟨fun hne => absurd rfl hne, ?_⟩, fun _ => rfl⟩
    intro _ dst room hne hdst hroom
    rw [List.length_append, List.length_singleton] at hroom
    exact string_overruns hholds noZero (fun heq => hne (congrArg _ heq.symm)) hdst hroom
  | bigint sign ds isSign ne digits =>
    obtain rfl : bigintImplementor = impl := Option.some.inj himpl
    obtain ⟨b, rfl⟩ := exists_bigint_of_load isSign ne digits hc hload
    obtain ⟨hwrites, hguards⟩ := bigint_writes m b
    exact ⟨_, hwrites, treats_of_guards (by decide) hguards, fun heq => absurd heq (by decide)⟩

/-- `load_to` throws and writes nothing just when the buffer is smaller than `get_size`;
else it writes as many bytes as `get_size` says, at the beginning of the buffer. -/
def Uniform (impl : Implementor) (m : Blocks UInt8) (ptr : MemoryPtr) (dst : Nat)
    (room : List (Option UInt8)) : Prop :=
  ∃ size, (impl.getSize ptr).run m = (.ok size, m) ∧
    (room.length < size → (impl.loadTo dst room.length ptr).run m =
      (.error (.threw .unsufficientSpace), m)) ∧
    (size ≤ room.length → ∃ out : List UInt8, out.length = size ∧
      (impl.loadTo dst room.length ptr).run m =
        (.ok size, m.write dst (out.map some ++ room.drop size)))

/-- Every object but a STRING is written uniformly; a STRING is when there is room. -/
theorem uniform_iff {dt : UInt8} {enc : List UInt8} (henc : IsEncoding dt enc) {impl : Implementor}
    (himpl : getImplementor dt = some impl) {c : LoadCall} (hc : c.bytes = enc) {ptr : MemoryPtr}
    {n : Nat} {m : Blocks UInt8} (hload : impl.load c = (.ok (ptr, n), m)) {dst : Nat}
    {room : List (Option UInt8)} (hdst : m.read dst = some room) (hne : ptr ≠ .block dst) :
    Uniform impl m ptr dst room ↔ (dt = dtypeString → enc.length ≤ room.length) := by
  obtain ⟨out, hwrites, ⟨hguards, hoverruns⟩, hlen⟩ := loaded_writes henc himpl hc hload
  constructor
  · rintro ⟨size, hsize, hthrows, -⟩ hstring
    obtain ⟨hok, -⟩ := Prod.mk.inj (hsize.symm.trans hwrites.size)
    obtain rfl := Except.ok.inj hok
    by_contra hlt
    rw [← hlen hstring] at hlt
    obtain ⟨m', hover⟩ := hoverruns hstring dst room hne hdst (Nat.lt_of_not_le hlt)
    rw [hthrows (Nat.lt_of_not_le hlt)] at hover
    cases hover
  · intro hroom
    refine ⟨out.length, hwrites.size, ?_, ?_⟩
    · intro hlt
      by_cases hstring : dt = dtypeString
      · have hle := hroom hstring
        rw [← hlen hstring] at hle
        omega
      · exact hguards hstring dst room.length hlt
    · intro hle
      exact ⟨out, rfl, hwrites.loadTo dst room hne hdst hle⟩

/-- A buffer, another one of `room` cells, and an object of a byte. -/
def bufferBeside (bytes : List UInt8) (room : Nat) (h : bytes.length < sizeMod) : LoadCall :=
  ⟨⟨[some (bytes.map some), some (List.replicate room none), some [some 0]]⟩, 0, bytes, .block 2,
    rfl, h, fun _ heq => MemoryPtr.block.inj heq ▸ Nat.lt_succ_self 2,
    fun heq => absurd (MemoryPtr.block.inj heq) (by decide)⟩

theorem uniform_iff_int8 : (staticImplementor 1).load (bufferBeside [7] 1 (by decide)) =
      (.ok (.block 3, 1), ⟨[some [some 7], some [none], none, some [some 7]]⟩) ∧
    Uniform (staticImplementor 1) ⟨[some [some 7], some [none], none, some [some 7]]⟩ (.block 3) 1
      [none] := by
  have hload : (staticImplementor 1).load (bufferBeside [7] 1 (by decide)) =
      (.ok (.block 3, 1), ⟨[some [some 7], some [none], none, some [some 7]]⟩) := rfl
  refine ⟨hload, ?_⟩
  exact (uniform_iff (.fixed .int8 [7] rfl) rfl rfl hload rfl (by decide)).mpr
    fun heq => absurd heq (by decide)

/-- A STRING of one character, and room for one byte. -/
theorem string_not_uniform : stringImplementor.load (bufferBeside [97, 0] 1 (by decide)) =
      (.ok (.block 3, 2), ⟨[some [some 97, some 0], some [none], none, some [some 97, some 0]]⟩) ∧
    ¬ Uniform stringImplementor
      ⟨[some [some 97, some 0], some [none], none, some [some 97, some 0]]⟩
        (.block 3) 1 [none] := by
  refine ⟨rfl, ?_⟩
  rintro ⟨size, hsize, hthrows, -⟩
  obtain rfl := Except.ok.inj (Prod.mk.inj hsize).1
  cases hthrows (by decide)

end StateDb.InMemory
