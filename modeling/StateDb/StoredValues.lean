/-
  StateDb/StoredValues.lean
  =========================
  **Where the stored values lie** (`object.h`, `object.cpp`, `memory_ptr.h`; `db.cpp`:
  `set_value`; `asio_server.cpp`: `set_handler`, `send_value`).

  A `db_object` has a pointer to its value.  The pointer is no owner: a copy of the object
  copies the pointer, no destructor deletes what it points to, and the object that
  `set_value` builds on its stack goes into the tree as such a copy.  When the key is set
  again the pointer is overwritten.  `load_from` alone deletes, and what it deletes is the
  value that the constructor made.

  So nothing is deleted that the tree still points to.  After any sequence of SETs the
  pointers in the tree lead to blocks of their own, with the values that the database has by
  `Database.lean`, and they are written to responses from there (`values_inMemory`).  The
  blocks of values that were set again stay as well: they are never deleted.
-/
import StateDb.Handlers
import StateDb.UniformEncoding

namespace StateDb.InMemory

open Lib Lib.MemProg Bpt

/-! ## Objects with pointers -/

/-- `db_object`. -/
structure MemObject where
  dtype : UInt8
  key : Key
  ds : MemoryPtr

/-- `db::set_value`, of the `len` bytes at `src`: the constructor, `load_from`, `tree::set`. -/
def setValue (w : Nat) (impl : Implementor) (tree : List (Nat × MemObject)) (key : Key)
    (dtype : UInt8) (src len : Nat) : Codec (List (Nat × MemObject)) := do
  let ds ← impl.init
  let loaded ← impl.loadFrom src len ds
  pure (SortedAssoc.upsert (makeHash w key) ⟨dtype, key, loaded.1⟩ tree)

/-- `get_size` and `write_to`, as `send_value` calls them: the part of the response that the
value has. -/
def writeOut (impl : Implementor) (ds : MemoryPtr) : Codec Nat := do
  let objSize ← impl.getSize ds
  let data ← allocate objSize
  let _ ← impl.loadTo data objSize ds
  pure data

/-- What `set_handler` hands to `set_value`. -/
structure SetValue where
  key : Key
  dtype : UInt8
  bytes : List UInt8
  lt_size : bytes.length < sizeMod

/-- The database and the memory its values are in. -/
structure MemDb where
  memory : Blocks UInt8 := CellStore.empty
  tree : List (Nat × MemObject) := []

namespace MemDb

/-- One SET.  The bytes lie in the buffer of the request, which is deleted behind it.  A value
that does not fit is answered with an error. -/
def set (w : Nat) (s : MemDb) (c : SetValue) : Except (Stop Exception) MemDb :=
  match getImplementor c.dtype with
  | none => .ok s
  | some impl =>
      let src := s.memory.fresh
      match (setValue w impl s.tree c.key c.dtype src c.bytes.length).run
          (s.memory.alloc (c.bytes.map some)) with
      | (.ok tree, m) => .ok ⟨m.free src, tree⟩
      | (.error (.threw .unsufficientSpace), m) => .ok ⟨m.free src, s.tree⟩
      | (.error e, _) => .error e

def setAll (w : Nat) (s : MemDb) (cs : List SetValue) : Except (Stop Exception) MemDb :=
  cs.foldlM (set w) s

end MemDb

/-- One SET, on the values. -/
def setOn (w : Nat) (db : Db) (c : SetValue) : Except DataError Db :=
  if hasType c.dtype then
    match db.setValue w c.key c.dtype c.bytes with
    | .error .unsufficientSpace => .ok db
    | r => r
  else .ok db

def setAllOn (w : Nat) (db : Db) (cs : List SetValue) : Except DataError Db :=
  cs.foldlM (setOn w) db

/-! ## Pointers and what they lead to -/

theorem Represents.lt_fresh {m : Blocks UInt8} {b : Nat} {st : Stored}
    (h : Represents m (.block b) st) :
    b < m.fresh := by
  cases h with
  | memory hholds => exact CellStore.lt_fresh_of_read hholds

/-- The pointer leads to the same value as long as its block is as it was. -/
theorem Represents.frame {m m' : Blocks UInt8} {ptr : MemoryPtr} {st : Stored}
    (h : Represents m ptr st) (hsame : ∀ b, ptr = .block b → m'.read b = m.read b) :
    Represents m' ptr st := by
  cases h with
  | null => exact .null
  | memory hholds =>
    refine .memory ?_
    rw [Holds, hsame _ rfl]
    exact hholds
  | bigint b => exact .bigint b

/-- The types are those of `Dtypes.lean`. -/
theorem getImplementor_isSome (dt : UInt8) : (getImplementor dt).isSome = hasType dt := by
  have hlookup {α : Type} (l : List (UInt8 × α)) : (l.lookup dt).isSome ↔ dt ∈ l.map Prod.fst := by
    rw [List.lookup_isSome_iff, List.mem_map]
    constructor
    · rintro ⟨p, hp, heq⟩
      exact ⟨p, hp, (by simpa using heq : dt = p.1).symm⟩
    · rintro ⟨p, hp, heq⟩
      exact ⟨p, hp, by simp [heq]⟩
  have hkeys : implementors.map Prod.fst = StateDb.implementors.map Prod.fst := rfl
  rw [Bool.eq_iff_iff, hasType, getImplementor, StateDb.getImplementor, hlookup, hlookup, hkeys]

theorem exists_implementor {dt : UInt8} {impl : Implementor}
    (himpl : getImplementor dt = some impl) :
    ∃ f, StateDb.getImplementor dt = some f := by
  have hsome := getImplementor_isSome dt
  rw [himpl] at hsome
  exact Option.isSome_iff_exists.mp hsome.symm

/-- Two lists with the same keys, looked up. -/
theorem lookup_related {α β : Type} {R : α → β → Prop} {l : List (Nat × α)} {l' : List (Nat × β)}
    (h : List.Forall₂ (fun p q => p.1 = q.1 ∧ R p.2 q.2) l l') (k : Nat) :
    Option.Rel R (l.lookup k) (l'.lookup k) := by
  induction h with
  | nil => exact .none
  | @cons p q l l' hhead _ ih =>
    obtain ⟨kp, x⟩ := p
    obtain ⟨kq, y⟩ := q
    obtain ⟨heq, hxy⟩ := hhead
    obtain rfl : kp = kq := heq
    rw [List.lookup_cons, List.lookup_cons]
    cases k == kp with
    | true => exact .some hxy
    | false => exact ih

/-- There are five kinds of implementors. -/
theorem memImplementor_cases {dt : UInt8} {impl : Implementor}
    (himpl : getImplementor dt = some impl) :
    (∃ size, impl = staticImplementor size) ∨ impl = blobImplementor ∨ impl = stringImplementor ∨
      impl = noneImplementor ∨ impl = bigintImplementor := by
  obtain ⟨f, hf⟩ := exists_implementor himpl
  rcases implementor_cases hf with ⟨t, -, rfl⟩ | ⟨-, rfl⟩ | ⟨-, rfl⟩ | ⟨-, rfl⟩ | ⟨-, rfl⟩
  · exact Or.inl ⟨t.size, Option.some.inj (himpl.symm.trans (getImplementor_fixed t))⟩
  · exact Or.inr (Or.inl (Option.some.inj himpl.symm))
  · exact Or.inr (Or.inr (Or.inl (Option.some.inj himpl.symm)))
  · exact Or.inr (Or.inr (Or.inr (Or.inl (Option.some.inj himpl.symm))))
  · exact Or.inr (Or.inr (Or.inr (Or.inr (Option.some.inj himpl.symm))))

/-! ## What a SET leaves alone -/

section Sparing

variable {N : Nat} {P : Nat → Prop}

theorem spares_requireAtLeast (bytes required : Nat) :
    Spares N P (requireAtLeast bytes required) fun _ => True := by
  unfold requireAtLeast
  split
  · exact spares_throw _
  · exact spares_pure trivial

theorem spares_assign {old : MemoryPtr} (h : ∀ b, old = .block b → ¬ P b) (new : MemoryPtr) :
    Spares N P (old.assign new) fun ptr => ptr = new := by
  cases old with
  | null => exact spares_pure rfl
  | bigint b => exact spares_pure rfl
  | block b => exact (spares_free (h b rfl)).bind fun _ _ => spares_pure rfl

theorem spares_asBigint (ptr : MemoryPtr) : Spares N P ptr.asBigint fun _ => True := by
  cases ptr with
  | null => exact spares_stop _
  | block b => exact spares_stop _
  | bigint b => exact spares_pure trivial

theorem spares_readBigint (s : List UInt8) : Spares N P (readBigint s) fun _ => True := by
  unfold readBigint
  split
  · exact spares_pure trivial
  · exact spares_stop _

theorem spares_blobSize (data : Nat) : Spares N P (blobSize data) fun _ => True :=
  (spares_loadAt data 4 0).bind fun _ _ => spares_pure trivial

theorem spares_getStringMxsz {src : Nat} (hsrc : ¬ P src) (srcSize : Nat) :
    Spares N P (getStringMxsz src srcSize) fun _ => True := by
  have hloop (fuel sz : Nat) : Spares N P (scan src srcSize fuel sz) fun _ => True := by
    induction fuel generalizing sz with
    | zero => exact spares_pure trivial
    | succ fuel ih =>
      unfold scan
      split
      · refine (spares_load src sz).bind fun c _ => ?_
        split
        · exact ih (sz + 1)
        · exact spares_pure trivial
      · exact spares_pure trivial
  refine (hloop srcSize 0).bind fun sz _ => ?_
  split
  · exact (spares_store hsrc _ _).bind fun _ _ => spares_pure trivial
  · exact spares_pure trivial

theorem spares_strlen (b : Nat) : Spares N P (strlen b) fun _ => True := by
  have hloop (fuel i : Nat) : Spares N P (strlenAt b fuel i) fun _ => True := by
    induction fuel generalizing i with
    | zero => exact spares_stop _
    | succ fuel ih =>
      refine (spares_load b i).bind fun c _ => ?_
      split
      · exact ih (i + 1)
      · exact spares_pure trivial
  exact fun m hN => hloop _ 0 m hN

/-- The pointer leads to no block, or to a new one. -/
def IsNew (N : Nat) (ptr : MemoryPtr) : Prop := ∀ b, ptr = .block b → N ≤ b

theorem isNew_block {b : Nat} (h : N ≤ b) : IsNew N (.block b) := by
  intro b' heq
  obtain rfl := MemoryPtr.block.inj heq
  exact h

theorem isNew_null : IsNew N .null := fun _ heq => by cases heq

theorem isNew_bigint (b : Bigint) : IsNew N (.bigint b) := fun _ heq => by cases heq

variable (hP : ∀ a, P a → a < N)

include hP in
theorem spares_init {dt : UInt8} {impl : Implementor} (himpl : getImplementor dt = some impl) :
    Spares N P impl.init (IsNew N) := by
  rcases memImplementor_cases himpl with ⟨size, rfl⟩ | rfl | rfl | rfl | rfl
  · exact (spares_allocateWith hP _).bind fun b hb => spares_pure (isNew_block hb)
  · exact spares_pure isNew_null
  · exact (spares_allocateWith hP _).bind fun b hb => spares_pure (isNew_block hb)
  · exact spares_pure isNew_null
  · exact spares_pure (isNew_bigint _)

include hP in
/-- `load_from` writes to the buffer of the request and to its new block, and deletes nothing
but the value of the constructor.  One case for each kind of implementor. -/
theorem spares_loadFrom {dt : UInt8} {impl : Implementor} (himpl : getImplementor dt = some impl)
    {src : Nat} (hsrc : ¬ P src) (len : Nat) {ds : MemoryPtr} (hds : IsNew N ds) :
    Spares N P (impl.loadFrom src len ds) fun loaded => IsNew N loaded.1 := by
  have hold : ∀ b, ds = .block b → ¬ P b := fun b heq hb =>
    absurd (hds b heq) (Nat.not_le.mpr (hP b hb))
  have hnew {b : Nat} (hb : N ≤ b) : ¬ P b := fun hin => absurd hb (Nat.not_le.mpr (hP b hin))
  rcases memImplementor_cases himpl with ⟨size, rfl⟩ | rfl | rfl | rfl | rfl
  · refine (spares_requireAtLeast _ _).bind fun _ _ => (spares_loadAt _ _ _).bind fun v _ =>
      (spares_allocateWith hP v).bind fun b hb => (spares_assign hold _).bind fun ds' hds' => ?_
    subst hds'
    exact spares_pure (isNew_block hb)
  · refine (spares_requireAtLeast _ _).bind fun _ _ => (spares_blobSize src).bind fun n _ =>
      (spares_requireAtLeast _ _).bind fun _ _ => (spares_allocate hP _).bind fun b hb =>
      (spares_assign hold _).bind fun ds' hds' => ?_
    subst hds'
    exact ((spares_blobSize src).bind fun n _ => spares_copy (hnew hb) src _).bind fun _ _ =>
      spares_pure (isNew_block hb)
  · refine (spares_getStringMxsz hsrc _).bind fun sz _ => (spares_allocate hP _).bind fun b hb =>
      (spares_copy (hnew hb) src _).bind fun _ _ => (spares_assign hold _).bind fun ds' hds' => ?_
    subst hds'
    exact spares_pure (isNew_block hb)
  · exact spares_pure hds
  · exact (spares_asBigint ds).bind fun _ _ => (spares_requireAtLeast _ _).bind fun _ _ =>
      (spares_getStringMxsz hsrc _).bind fun sz _ => (spares_strlen src).bind fun n _ =>
      (spares_loadAt _ _ _).bind fun s _ => (spares_readBigint s).bind fun b _ =>
      spares_pure (isNew_bigint b)

end Sparing

/-! ## A new value -/

/-- What the constructor makes is the initial value. -/
theorem init_represents {dt : UInt8} {impl : Implementor} (himpl : getImplementor dt = some impl)
    {f : StateDb.Implementor} (hf : StateDb.getImplementor dt = some f) (m : Blocks UInt8) :
    ∃ ds m', impl.init.run m = (.ok ds, m') ∧ Represents m' ds f.init := by
  rcases implementor_cases hf with ⟨t, rfl, rfl⟩ | ⟨rfl, rfl⟩ | ⟨rfl, rfl⟩ | ⟨rfl, rfl⟩ | ⟨rfl, rfl⟩
  · rw [getImplementor_fixed] at himpl
    obtain rfl := Option.some.inj himpl
    exact ⟨_, _, rfl, .memory (CellStore.read_alloc_self ..)⟩
  · obtain rfl : blobImplementor = impl := Option.some.inj himpl
    exact ⟨_, _, rfl, .null⟩
  · obtain rfl : stringImplementor = impl := Option.some.inj himpl
    exact ⟨_, _, rfl, .memory (CellStore.read_alloc_self ..)⟩
  · obtain rfl : noneImplementor = impl := Option.some.inj himpl
    exact ⟨_, _, rfl, .null⟩
  · obtain rfl : bigintImplementor = impl := Option.some.inj himpl
    exact ⟨_, _, rfl, .bigint _⟩

/-- The blocks that are there stay as they are. -/
def Keeps (m m' : Blocks UInt8) : Prop := ∀ a cells, m.read a = some cells → m'.read a = some cells

theorem Keeps.trans {m m' m'' : Blocks UInt8} (h : Keeps m m') (h' : Keeps m' m'') : Keeps m m'' :=
  fun a cells hread => h' a cells (h a cells hread)

theorem Represents.keeps {m m' : Blocks UInt8} {ptr : MemoryPtr} {st : Stored}
    (h : Represents m ptr st) (hkeeps : Keeps m m') : Represents m' ptr st := by
  cases h with
  | null => exact .null
  | memory hholds => exact .memory (hkeeps _ _ hholds)
  | bigint b => exact .bigint b

/-- What `set_value` makes of the bytes: the value that its implementor computes, in a block of
its own, or nothing.  The buffer of the request is deleted then. -/
inductive Makes (m : Blocks UInt8) : Except DataError (Stored × Nat) →
    Except (Stop Exception) (MemoryPtr × Nat) × Blocks UInt8 → Prop
  | ok {m' : Blocks UInt8} {ptr : MemoryPtr} {st : Stored} {n : Nat} :
      Represents (m'.free m.fresh) ptr st → IsNew (m.fresh + 1) ptr → Keeps m (m'.free m.fresh) →
      Makes m (.ok (st, n)) (.ok (ptr, n), m')
  | threw {m' : Blocks UInt8} : Keeps m (m'.free m.fresh) →
      Makes m (.error .unsufficientSpace) (.error (.threw .unsufficientSpace), m')
  | stopped {m' : Blocks UInt8} {e : DataError} {stop : Stop Exception} : e ≠ .unsufficientSpace →
      stop ≠ .threw .unsufficientSpace → Makes m (.error e) (.error stop, m')

theorem loaded_makes {dt : UInt8} {impl : Implementor} (himpl : getImplementor dt = some impl)
    {f : StateDb.Implementor} (hf : StateDb.getImplementor dt = some f) (m : Blocks UInt8)
    {bytes : List UInt8} (hlt : bytes.length < sizeMod) :
    Makes m (f.loadFrom bytes f.init)
      ((impl.init >>= fun ds => impl.loadFrom m.fresh bytes.length ds).run
        (m.alloc (bytes.map some))) := by
  obtain ⟨m₀, hm₀⟩ : ∃ m₀, m₀ = m.alloc (bytes.map some) := ⟨_, rfl⟩
  have hfresh : m₀.fresh = m.fresh + 1 := by rw [hm₀, CellStore.fresh_alloc]
  -- the blocks of the database, with and without the buffer of the request
  have hbuffer : ∀ a, a < m₀.fresh → a < m.fresh + 1 := fun a ha => by omega
  have hothers : ∀ a, a < m.fresh → a < m.fresh + 1 := fun a ha => by omega
  obtain ⟨ds, m₁, hinit, hrep⟩ := init_represents himpl hf m₀
  have hinitSpared := spares_init hbuffer himpl m₀ hfresh.ge
  rw [hinit] at hinitSpared
  have hds : IsNew (m.fresh + 1) ds := hinitSpared.gives ds rfl
  have hholds : Holds m₁ m.fresh bytes := by
    have hsame := hinitSpared.reads m.fresh (by omega)
    rw [Holds, hsame, hm₀]
    exact CellStore.read_alloc_self ..
  let c : LoadCall := ⟨m₁, m.fresh, bytes, ds, hholds, hlt, fun b heq => (heq ▸ hrep).lt_fresh,
    fun heq => absurd (hds m.fresh heq) (by omega)⟩
  have hagrees : Agrees m₁ (f.loadFrom bytes f.init) (impl.load c) :=
    loadFrom_refines hf himpl c hrep
  have hspared := spares_loadFrom hothers himpl (Nat.lt_irrefl m.fresh) bytes.length hds m₁
    (hfresh ▸ hinitSpared.fresh)
  have hkeeps : Keeps m ((impl.load c).2.free m.fresh) := by
    intro a cells hread
    have ha : a < m.fresh := CellStore.lt_fresh_of_read hread
    have hload : (impl.load c).2.read a = m₁.read a := hspared.reads a ha
    have hinit : m₁.read a = m₀.read a := hinitSpared.reads a (by omega)
    rw [CellStore.read_free_of_ne ha.ne, hload, hinit, hm₀, CellStore.read_alloc_of_lt ha]
    exact hread
  have hnew : ∀ loaded, (impl.load c).1 = .ok loaded → IsNew (m.fresh + 1) loaded.1 := hspared.gives
  rw [← hm₀, run_bind hinit]
  show Makes m (f.loadFrom bytes f.init) (impl.load c)
  generalize impl.load c = r at hagrees hkeeps hnew ⊢
  generalize f.loadFrom bytes f.init = x at hagrees ⊢
  cases hagrees with
  | @ok st ptr m' n hst =>
    have hptr : IsNew (m.fresh + 1) ptr := hnew (ptr, n) rfl
    refine .ok (hst.frame ?_) hptr hkeeps
    intro b heq
    have hb := hptr b heq
    exact CellStore.read_free_of_ne (by omega)
  | threw => exact .threw hkeeps
  | stopped m' he hstop => exact .stopped he hstop

/-! ## Runs of SETs -/

/-- The same object, with a pointer that leads to the value. -/
structure Stands (m : Blocks UInt8) (o : MemObject) (obj : DbObject) : Prop where
  dtype : o.dtype = obj.dtype
  key : o.key = obj.key
  value : Represents m o.ds obj.ds

/-- The same under the same hash. -/
def Matches (m : Blocks UInt8) (p : Nat × MemObject) (q : Nat × DbObject) : Prop :=
  p.1 = q.1 ∧ Stands m p.2 q.2

/-- The tree has the objects of the database, and no two pointers lead to one block. -/
structure MemDb.Refines (s : MemDb) (db : Db) : Prop where
  objects : List.Forall₂ (Matches s.memory) s.tree db.tree
  apart : ∀ p ∈ s.tree, ∀ q ∈ s.tree, ∀ b, p.2.ds = .block b → q.2.ds = .block b → p.1 = q.1

theorem upsert_related {α β : Type} {R : Nat × α → Nat × β → Prop} (hkey : ∀ p q, R p q → p.1 = q.1)
    {l : List (Nat × α)} {l' : List (Nat × β)} (h : List.Forall₂ R l l') {k : Nat} {x : α} {y : β}
    (hnew : R (k, x) (k, y)) :
    List.Forall₂ R (SortedAssoc.upsert k x l) (SortedAssoc.upsert k y l') := by
  induction h with
  | nil => exact .cons hnew .nil
  | @cons p q l l' hhead htail ih =>
    unfold SortedAssoc.upsert
    rw [hkey p q hhead]
    by_cases hlt : k < q.1
    · rw [if_pos hlt, if_pos hlt]
      exact .cons hnew (.cons hhead htail)
    · rw [if_neg hlt, if_neg hlt]
      by_cases heq : k = q.1
      · rw [if_pos heq, if_pos heq]
        exact .cons hnew htail
      · rw [if_neg heq, if_neg heq]
        exact .cons hhead ih

/-- How a SET ends: with what the database has then, or where the decoder leaves its buffer. -/
inductive Ends (m : Blocks UInt8) : Except DataError Db → Except (Stop Exception) MemDb → Prop
  | ok {db : Db} {s : MemDb} : s.Refines db → Keeps m s.memory → Ends m (.ok db) (.ok s)
  | stopped (e : DataError) (stop : Stop Exception) : Ends m (.error e) (.error stop)

/-- The object on the stack is stored if it was loaded. -/
theorem setValue_run (w : Nat) (impl : Implementor) (tree : List (Nat × MemObject)) (key : Key)
    (dtype : UInt8) (src len : Nat) (m : Blocks UInt8) :
    (setValue w impl tree key dtype src len).run m =
      match (impl.init >>= fun ds => impl.loadFrom src len ds).run m with
      | (.ok loaded, m') =>
          (.ok (SortedAssoc.upsert (makeHash w key) ⟨dtype, key, loaded.1⟩ tree), m')
      | (.error e, m') => (.error e, m') := by
  rw [setValue]
  cases hinit : impl.init.run m with
  | mk r m₁ =>
    cases r with
    | error e => rw [stop_bind hinit, stop_bind hinit]
    | ok ds =>
      rw [run_bind hinit, run_bind hinit]
      cases hload : (impl.loadFrom src len ds).run m₁ with
      | mk r m₂ =>
        cases r with
        | error e => rw [stop_bind hload]
        | ok loaded =>
          rw [run_bind hload]
          rfl

namespace MemDb

variable {w : Nat} {s : MemDb} {db : Db}

theorem refines_empty : ({} : MemDb).Refines Db.empty :=
  ⟨.nil, fun _ hp => absurd hp List.not_mem_nil⟩

/-- The pointers of the tree lead to blocks that are there. -/
theorem Refines.lt_fresh (h : s.Refines db) {p : Nat × MemObject} (hp : p ∈ s.tree) {b : Nat}
    (hds : p.2.ds = .block b) : b < s.memory.fresh := by
  have hflip : List.Forall₂ (flip (Matches s.memory)) db.tree s.tree := h.objects.flip
  obtain ⟨q, -, -, hstands⟩ := forall₂_exists_of_mem_right hflip hp
  exact (hds ▸ hstands.value).lt_fresh

/-- What is there may be moved to a memory that keeps it. -/
theorem Refines.keeps (h : s.Refines db) {m : Blocks UInt8} (hkeeps : Keeps s.memory m) :
    (MemDb.mk m s.tree).Refines db := by
  refine ⟨h.objects.imp ?_, h.apart⟩
  rintro p q ⟨hhash, hstands⟩
  exact ⟨hhash, hstands.dtype, hstands.key, hstands.value.keeps hkeeps⟩

/-- A new object goes into the tree. -/
theorem Refines.upsert (h : s.Refines db) {m : Blocks UInt8} (hkeeps : Keeps s.memory m) {k : Nat}
    {o : MemObject} {obj : DbObject} (hobj : Stands m o obj)
    (hnew : IsNew (s.memory.fresh + 1) o.ds) {db' : Db}
    (htree : db'.tree = SortedAssoc.upsert k obj db.tree) :
    (MemDb.mk m (SortedAssoc.upsert k o s.tree)).Refines db' := by
  constructor
  · rw [htree]
    exact upsert_related (fun _ _ hmatch => hmatch.1) (h.keeps hkeeps).objects ⟨rfl, hobj⟩
  · intro p hp q hq b hpb hqb
    -- the block of the new object is not yet in the tree
    rcases SortedAssoc.mem_upsert hp with rfl | hp
    · rcases SortedAssoc.mem_upsert hq with rfl | hq
      · rfl
      · exact absurd (h.lt_fresh hq hqb) (Nat.lt_asymm (hnew b hpb))
    · rcases SortedAssoc.mem_upsert hq with rfl | hq
      · exact absurd (h.lt_fresh hp hpb) (Nat.lt_asymm (hnew b hqb))
      · exact h.apart p hp q hq b hpb hqb

/-- One SET. -/
theorem set_refines (h : s.Refines db) (c : SetValue) :
    Ends s.memory (setOn w db c) (s.set w c) := by
  cases himpl : getImplementor c.dtype with
  | none =>
    have htype : ¬ hasType c.dtype = true := by
      rw [← getImplementor_isSome, himpl]
      exact Bool.false_ne_true
    rw [setOn, if_neg htype, MemDb.set, himpl]
    exact .ok h fun _ _ hread => hread
  | some impl =>
    have htype : hasType c.dtype = true := by
      rw [← getImplementor_isSome, himpl]
      rfl
    obtain ⟨f, hf⟩ := exists_implementor himpl
    have hmakes := loaded_makes himpl hf s.memory c.lt_size
    have hvalue := @DbObject.load_eq c.dtype c.key c.bytes f hf
    rw [setOn, if_pos htype, MemDb.set, himpl]
    dsimp only
    rw [setValue_run]
    generalize f.loadFrom c.bytes f.init = loaded at hmakes hvalue
    generalize (impl.init >>= fun ds => impl.loadFrom s.memory.fresh c.bytes.length ds).run
      (s.memory.alloc (c.bytes.map some)) = r at hmakes ⊢
    cases hmakes with
    | @ok m' ptr st n hst hnew hkeeps =>
      rw [Db.setValue_of_load hvalue]
      exact .ok (h.upsert hkeeps ⟨rfl, rfl, hst⟩ hnew rfl) hkeeps
    | threw hkeeps =>
      rw [Db.setValue_of_error hvalue]
      exact .ok (h.keeps hkeeps) hkeeps
    | @stopped m' e stop he hstop =>
      have hleft : (match db.setValue w c.key c.dtype c.bytes with
          | .error .unsufficientSpace => (.ok db : Except DataError Db)
          | r => r) = .error e := by
        rw [Db.setValue_of_error hvalue]
        cases e with
        | unsufficientSpace => exact absurd rfl he
        | _ => rfl
      rw [hleft]
      cases stop with
      | threw x =>
        cases x
        exact absurd rfl hstop
      | _ => exact .stopped _ _

/-- A run of SETs, by its steps. -/
theorem setAll_refines (h : s.Refines db) (cs : List SetValue) :
    Ends s.memory (setAllOn w db cs) (s.setAll w cs) := by
  induction cs generalizing s db with
  | nil => exact .ok h fun _ _ hread => hread
  | cons c cs ih =>
    have hstep := @set_refines w s db h c
    rw [setAllOn, setAll, List.foldlM_cons, List.foldlM_cons]
    generalize setOn w db c = left at hstep ⊢
    generalize s.set w c = right at hstep ⊢
    cases hstep with
    | stopped e stop => exact .stopped e stop
    | ok href hkeeps =>
      have hrest := ih href
      simp only [setAllOn, setAll] at hrest
      show Ends s.memory (List.foldlM _ _ cs) (List.foldlM _ _ cs)
      generalize List.foldlM (setOn w) _ cs = left at hrest ⊢
      generalize List.foldlM (set w) _ cs = right at hrest ⊢
      cases hrest with
      | stopped e stop => exact .stopped e stop
      | ok href' hkeeps' => exact .ok href' (hkeeps.trans hkeeps')

/-- Every object is written to a response from where its pointer leads. -/
def Sends (s : MemDb) (db : Db) : Prop := ∀ keyHash obj, db.getObject keyHash = some obj →
  ∃ o impl data m bytes, s.tree.lookup keyHash = some o ∧ getImplementor o.dtype = some impl ∧
    (writeOut impl o.ds).run s.memory = (.ok data, m) ∧ Holds m data bytes ∧
    sendObject obj = .ok ⟨responseKeyUpdate, preambleSize (1 + bytes.length + o.key.bytes.length),
      o.key.bytes ++ o.dtype :: bytes⟩

/-- A value is written to a new block of its size. -/
theorem writeOut_run {dt : UInt8} {impl : Implementor} (himpl : getImplementor dt = some impl)
    {f : StateDb.Implementor} (hf : StateDb.getImplementor dt = some f) {m : Blocks UInt8}
    {ptr : MemoryPtr} {st : Stored} (hst : Represents m ptr st) {enc : List UInt8}
    (henc : Encodes f st enc) :
    ∃ m', (writeOut impl ptr).run m = (.ok m.fresh, m') ∧ Holds m' m.fresh enc := by
  let room : List (Option UInt8) := List.replicate enc.length none
  have hroom : room.length = enc.length := List.length_replicate
  have hptr : ∀ b, ptr = .block b → b < m.fresh := fun b heq => (heq ▸ hst).lt_fresh
  have hst' : Represents (m.alloc room) ptr st :=
    hst.frame fun b heq => CellStore.read_alloc_of_lt (hptr b heq)
  have hnew : (m.alloc room).read m.fresh = some room := CellStore.read_alloc_self ..
  have hwrite := (loadTo_refines hf himpl hst' henc).loadTo m.fresh room
    (fun heq => absurd (hptr m.fresh heq) (Nat.lt_irrefl _)) hnew hroom.ge
  rw [hroom, List.drop_of_length_le hroom.le, List.append_nil] at hwrite
  have hallocate : (allocate enc.length : Codec Nat).run m = (.ok m.fresh, m.alloc room) := rfl
  refine ⟨(m.alloc room).write m.fresh (enc.map some), ?_, CellStore.read_write_self hnew⟩
  rw [writeOut, run_bind (loadTo_refines hf himpl hst henc).size, run_bind hallocate,
    run_bind hwrite]
  rfl

theorem Refines.sends (h : s.Refines db) : s.Sends db := by
  intro keyHash obj hget
  have hlookup : Option.Rel (Stands s.memory) (s.tree.lookup keyHash) (db.tree.lookup keyHash) :=
    lookup_related h.objects keyHash
  have hfound : db.tree.lookup keyHash = some obj := hget
  obtain ⟨enc, f, hf, henc⟩ := Db.getObject_encodes hget
  have hencodes : obj.EncodesAs enc := ⟨f, hf, henc⟩
  have hsome : (getImplementor obj.dtype).isSome = true := by
    rw [getImplementor_isSome, hasType, hf]
    rfl
  obtain ⟨impl, himpl⟩ := Option.isSome_iff_exists.mp hsome
  rw [hfound] at hlookup
  generalize s.tree.lookup keyHash = found at hlookup ⊢
  cases hlookup with
  | @some o _ hstands =>
    obtain ⟨m, hrun, hholds⟩ := writeOut_run himpl hf hstands.value henc
    refine ⟨o, impl, s.memory.fresh, m, enc, rfl, hstands.dtype ▸ himpl, hrun, hholds, ?_⟩
    rw [sendObject_eq hencodes, hstands.key, hstands.dtype, Key.bytes, List.length_append,
      List.length_singleton]

end MemDb

/-! ## Which runs end -/

/-- A SET ends if the decoder of its type keeps to the buffer. -/
theorem setOn_ok_iff (w : Nat) (db : Db) (c : SetValue) :
    (∃ db', setOn w db c = .ok db') ↔ ¬ Oversteps c.dtype c.bytes := by
  by_cases htype : hasType c.dtype = true
  · rw [setOn, if_pos htype, ← DbObject.load_throws_iff htype c.key c.bytes]
    cases hload : DbObject.load c.dtype c.key c.bytes with
    | ok obj =>
      rw [Db.setValue_of_load hload]
      exact iff_of_true ⟨_, rfl⟩ (throws_ok obj)
    | error e =>
      rw [Db.setValue_of_error hload]
      by_cases he : e = .unsufficientSpace
      · subst he
        exact iff_of_true ⟨db, rfl⟩ fun e he => (Except.error.inj he).symm
      · refine iff_of_false ?_ fun hthrows => he (hthrows e rfl)
        rintro ⟨db', heq⟩
        cases e with
        | unsufficientSpace => exact he rfl
        | _ => cases heq
  · rw [setOn, if_neg htype]
    exact iff_of_true ⟨db, rfl⟩ fun hover => htype hover.hasType

theorem setAllOn_ok_iff (w : Nat) (db : Db) (cs : List SetValue) :
    (∃ db', setAllOn w db cs = .ok db') ↔ ∀ c ∈ cs, ¬ Oversteps c.dtype c.bytes := by
  induction cs generalizing db with
  | nil => exact iff_of_true ⟨db, rfl⟩ fun c hc => absurd hc List.not_mem_nil
  | cons c cs ih =>
    rw [List.forall_mem_cons, ← setOn_ok_iff w db c]
    simp only [setAllOn] at ih
    rw [setAllOn, List.foldlM_cons]
    cases hstep : setOn w db c with
    | error e =>
      refine iff_of_false ?_ ?_
      · rintro ⟨db', heq⟩
        cases heq
      · rintro ⟨⟨db', heq⟩, -⟩
        cases heq
    | ok db' =>
      have hrest := ih db'
      constructor
      · intro hall
        exact ⟨⟨db', rfl⟩, hrest.mp hall⟩
      · rintro ⟨-, hall⟩
        exact hrest.mpr hall

/-- A sequence of SETs ends if no decoder leaves its buffer.  Then the pointers in the tree
lead to blocks of their own, with the values of the database, and what GET sends is written
from them.  No later SET changes or deletes a block that is there, whether its value is set
again or not. -/
theorem values_inMemory (w : Nat) (cs : List SetValue) :
    ((∃ s, MemDb.setAll w {} cs = .ok s) ↔ ∀ c ∈ cs, ¬ Oversteps c.dtype c.bytes) ∧
      ∀ s, MemDb.setAll w {} cs = .ok s → ∃ db, setAllOn w Db.empty cs = .ok db ∧
        s.Refines db ∧ s.Sends db ∧
        ∀ cs' s', MemDb.setAll w s cs' = .ok s' → Keeps s.memory s'.memory := by
  have hrun := @MemDb.setAll_refines w {} Db.empty MemDb.refines_empty cs
  constructor
  · rw [← setAllOn_ok_iff w Db.empty cs]
    generalize MemDb.setAll w {} cs = right at hrun ⊢
    generalize setAllOn w Db.empty cs = left at hrun ⊢
    cases hrun with
    | @ok db s href hkeeps => exact iff_of_true ⟨s, rfl⟩ ⟨db, rfl⟩
    | stopped e stop =>
      refine iff_of_false ?_ ?_
      · rintro ⟨s, heq⟩
        cases heq
      · rintro ⟨db, heq⟩
        cases heq
  · intro s hs
    rw [hs] at hrun
    generalize setAllOn w Db.empty cs = left at hrun ⊢
    cases hrun with
    | @ok db _ href hkeeps =>
      refine ⟨db, rfl, href, href.sends, ?_⟩
      intro cs' s' hs'
      have hmore := @MemDb.setAll_refines w s db href cs'
      rw [hs'] at hmore
      generalize setAllOn w db cs' = left' at hmore
      cases hmore with
      | ok href' hkeeps' => exact hkeeps'

end StateDb.InMemory
