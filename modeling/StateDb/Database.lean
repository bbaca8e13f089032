/-
  StateDb/Database.lean
  =====================
  **Objects, key hashes and the database** (`object.h`, `object.cpp`, `hash.h`,
  `db.h`, `db.cpp`).

  The database keeps objects in a tree under the hash of their key.  Here the tree
  is the finite map it is (`Bpt.set_map_law`), a sorted list;
  `setValue_refines` and `getObject_refines` tie it to the tree of the heap.
-/
import StateDb.BptDelete
import StateDb.Dtypes

namespace StateDb

open Lib Lib.SortedAssoc

/-! ## Keys -/

/-- A key: text without a zero byte. -/
structure Key where
  chars : List UInt8
  noZero : (0 : UInt8) ∉ chars

theorem Key.ext_chars {k k' : Key} (h : k.chars = k'.chars) : k = k' := by
  cases k
  cases k'
  cases h
  rfl

instance : DecidableEq Key := fun k k' =>
  decidable_of_iff (k.chars = k'.chars) ⟨Key.ext_chars, fun h => h ▸ rfl⟩

/-- A key as it lies in a message. -/
def Key.bytes (k : Key) : List UInt8 := k.chars ++ [0]

/-- The C string at the start of a buffer, as a key. -/
def Key.ofBuffer (buffer : List UInt8) : Key := ⟨cstr buffer, zero_notMem_cstr buffer⟩

/-- `_string_hash`: `h = ((h << 5) + h) + c`, on a `size_t` of `w` bits. -/
def stringHash (w : Nat) (s : List UInt8) : Nat :=
  s.foldl (fun h c => ((((h * 32 + h : Nat) : Int) + charVal c) % (2 ^ w : Nat)).toNat) 5381

/-- `make_hash`. -/
def makeHash (w : Nat) (k : Key) : Nat := stringHash w k.chars

/-! ## Objects -/

structure DbObject where
  dtype : UInt8
  key : Key
  ds : Stored

namespace DbObject

/-- `get_implementor`. -/
def implementor (obj : DbObject) : Except DataError Implementor :=
  match getImplementor obj.dtype with
  | none => .error .noImplementor
  | some impl => .ok impl

/-- `db_object(dtype, key)`: the storage is initialised by the implementor. -/
def make (dtype : UInt8) (key : Key) : Except DataError DbObject := do
  let impl ← implementor ⟨dtype, key, .null⟩
  .ok ⟨dtype, key, impl.init⟩

def getSize (obj : DbObject) : Except DataError Nat := do
  let impl ← obj.implementor
  impl.getSize obj.ds

def writeTo (obj : DbObject) (bufSize : Nat) : Except DataError (List UInt8) := do
  let impl ← obj.implementor
  impl.loadTo bufSize obj.ds

def loadFrom (obj : DbObject) (src : List UInt8) : Except DataError DbObject := do
  let impl ← obj.implementor
  let r ← impl.loadFrom src obj.ds
  .ok { obj with ds := r.1 }

/-- The object that `db::set_value` makes. -/
def load (dtype : UInt8) (key : Key) (src : List UInt8) : Except DataError DbObject := do
  let obj ← make dtype key
  obj.loadFrom src

/-- The object is written as `enc`. -/
def EncodesAs (obj : DbObject) (enc : List UInt8) : Prop :=
  ∃ impl, getImplementor obj.dtype = some impl ∧ Encodes impl obj.ds enc

theorem EncodesAs.getSize {obj : DbObject} {enc : List UInt8} (h : obj.EncodesAs enc) :
    obj.getSize = .ok enc.length := by
  obtain ⟨impl, himpl, henc⟩ := h
  simp only [DbObject.getSize, implementor, himpl, bind_ok, henc.size]

theorem EncodesAs.writeTo {obj : DbObject} {enc : List UInt8} (h : obj.EncodesAs enc) :
    obj.writeTo enc.length = .ok enc := by
  obtain ⟨impl, himpl, henc⟩ := h
  simp only [DbObject.writeTo, implementor, himpl, bind_ok, henc.loadTo _ (Nat.le_refl _)]

theorem load_eq {dtype : UInt8} {key : Key} {src : List UInt8} {impl : Implementor}
    (himpl : getImplementor dtype = some impl) :
    load dtype key src = impl.loadFrom src impl.init >>= fun r => .ok ⟨dtype, key, r.1⟩ := by
  simp only [load, make, loadFrom, implementor, himpl, bind_ok]

/-- An object that was loaded keeps its type and key, and can be written. -/
theorem load_spec {dtype : UInt8} {key : Key} {src : List UInt8} {obj : DbObject}
    (h : load dtype key src = .ok obj) :
    obj.dtype = dtype ∧ obj.key = key ∧ ∃ enc, obj.EncodesAs enc := by
  cases himpl : getImplementor dtype with
  | none =>
    simp only [load, make, implementor, himpl] at h
    cases h
  | some impl =>
    rw [load_eq himpl] at h
    obtain ⟨⟨s, n⟩, hload, h⟩ := bind_eq_ok.mp h
    obtain rfl := Except.ok.inj h
    obtain ⟨enc, henc⟩ := loadFrom_encodes himpl hload
    exact ⟨rfl, rfl, enc, impl, himpl, henc⟩

/-- Loading stays inside its memory exactly when the decoder does. -/
theorem load_throws_iff {dtype : UInt8} (htype : hasType dtype = true) (key : Key)
    (src : List UInt8) : Throws (load dtype key src) ↔ ¬ Oversteps dtype src := by
  obtain ⟨impl, himpl⟩ := Option.isSome_iff_exists.mp htype
  rw [← loadFrom_throws_iff himpl, load_eq himpl]
  constructor
  · intro hthrows e he
    exact hthrows e (by rw [he]; rfl)
  · intro hthrows
    exact hthrows.bind fun _ => throws_ok _

/-- A well-formed value is loaded, unless its text is too long to be read. -/
theorem load_value (v : Value) (key : Key) (hlen : v.encode.length ≤ 4294967296) (hends : v.Ends) :
    ∃ obj enc, load v.dtype key v.encode = .ok obj ∧ obj.dtype = v.dtype ∧ obj.key = key ∧
      obj.EncodesAs enc ∧ (enc = v.canonical ↔ v.Readable) := by
  obtain ⟨impl, s, n, enc, himpl, hload, henc, hcanon⟩ := v.loadFrom_encode hlen hends
  refine ⟨⟨v.dtype, key, s⟩, enc, ?_, rfl, rfl, ⟨impl, himpl, henc⟩, hcanon⟩
  rw [load_eq himpl, hload]
  rfl

end DbObject

/-! ## The database -/

/-- The tree, and that every object in it can be written. -/
structure Db where
  tree : List (Nat × DbObject)
  sorted : Sorted tree
  encodes : ∀ p ∈ tree, ∃ enc, p.2.EncodesAs enc

namespace Db

def empty : Db := ⟨[], sorted_nil, fun _ hp => absurd hp List.not_mem_nil⟩

def getObject (db : Db) (keyHash : Nat) : Option DbObject := db.tree.lookup keyHash

/-- `tree::set`, of an object that can be written. -/
def store (db : Db) (keyHash : Nat) (obj : DbObject) (henc : ∃ enc, obj.EncodesAs enc) : Db where
  tree := upsert keyHash obj db.tree
  sorted := sorted_upsert db.sorted _ _
  encodes p hp := by
    rcases mem_upsert hp with rfl | hold
    · exact henc
    · exact db.encodes p hold

def setValue (w : Nat) (db : Db) (key : Key) (dt : UInt8) (src : List UInt8) :
    Except DataError Db :=
  match hload : DbObject.load dt key src with
  | .ok obj => .ok (db.store (makeHash w key) obj (DbObject.load_spec hload).2.2)
  | .error e => .error e

theorem setValue_of_load {w : Nat} {db : Db} {key : Key} {dt : UInt8} {src : List UInt8}
    {obj : DbObject} (hload : DbObject.load dt key src = .ok obj) :
    db.setValue w key dt src =
      .ok (db.store (makeHash w key) obj (DbObject.load_spec hload).2.2) := by
  unfold setValue
  split
  · rename_i obj' hload'
    obtain rfl := Except.ok.inj (hload.symm.trans hload')
    rfl
  · rename_i e hload'
    exact absurd (hload.symm.trans hload') (by simp)

theorem setValue_of_error {w : Nat} {db : Db} {key : Key} {dt : UInt8} {src : List UInt8}
    {e : DataError} (hload : DbObject.load dt key src = .error e) :
    db.setValue w key dt src = .error e := by
  unfold setValue
  split
  · rename_i hload'
    exact absurd (hload.symm.trans hload') (by simp)
  · rename_i e' hload'
    rw [Except.error.inj (hload.symm.trans hload')]

/-- `set_value` stores the loaded object under the hash of its key. -/
theorem setValue_spec {w : Nat} {db db' : Db} {key : Key} {dt : UInt8} {src : List UInt8}
    (h : db.setValue w key dt src = .ok db') :
    ∃ obj, DbObject.load dt key src = .ok obj ∧ db'.tree = upsert (makeHash w key) obj db.tree := by
  cases hload : DbObject.load dt key src with
  | ok obj =>
    rw [setValue_of_load hload] at h
    obtain rfl := Except.ok.inj h
    exact ⟨obj, rfl, rfl⟩
  | error e =>
    rw [setValue_of_error hload] at h
    cases h

/-- An object that is found can be written. -/
theorem getObject_encodes {db : Db} {keyHash : Nat} {obj : DbObject}
    (h : db.getObject keyHash = some obj) : ∃ enc, obj.EncodesAs enc :=
  db.encodes (keyHash, obj) ((lookup_eq_some_iff db.sorted).mp h)

theorem getObject_of_tree {w : Nat} {db db' : Db} {key : Key} {obj : DbObject}
    (h : db'.tree = upsert (makeHash w key) obj db.tree) (keyHash : Nat) :
    db'.getObject keyHash = if keyHash = makeHash w key then some obj
      else db.getObject keyHash := by
  rw [getObject, h, lookup_upsert]
  rfl

/-! ## The tree of the heap -/

/-- A tree of the heap holds what the database holds. -/
def InTree (db : Db) (t : Bpt.Tree Nat DbObject) : Prop :=
  Bpt.IsTree Bpt.Order.six.config Bpt.LeafPolicy.any t db.tree

theorem empty_inTree : empty.InTree {} := Bpt.isTree_empty

theorem setValue_refines {w : Nat} {db db' : Db} {key : Key} {dt : UInt8} {src : List UInt8}
    {t : Bpt.Tree Nat DbObject} (ht : db.InTree t) (h : db.setValue w key dt src = .ok db') :
    ∃ obj t', DbObject.load dt key src = .ok obj ∧
      Returns (fun fuel => t.set Bpt.Order.six.config fuel (makeHash w key) obj) t' ∧
      db'.InTree t' := by
  obtain ⟨obj, hload, htree⟩ := setValue_spec h
  obtain ⟨t', hrun, ht'⟩ := Bpt.Tree.set_spec Bpt.Order.six.admissible ht (makeHash w key) obj
  exact ⟨obj, t', hload, hrun, by rw [InTree, htree]; exact ht'⟩

theorem getObject_refines {db : Db} {t : Bpt.Tree Nat DbObject} (ht : db.InTree t)
    (keyHash : Nat) : Returns (fun fuel => t.get fuel keyHash) (db.getObject keyHash) :=
  Bpt.Tree.get_spec ht keyHash

theorem iterate_refines {db : Db} {t : Bpt.Tree Nat DbObject} (ht : db.InTree t) :
    Returns (fun fuel => t.iterate fuel) db.tree :=
  Bpt.Tree.iterate_spec ht

end Db

end StateDb
