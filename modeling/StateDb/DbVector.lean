/-
  StateDb/DbVector.lean
  =====================
  **Vectors on a stream** (`db_vector.h`; `write_object`, `read_object` of `utils.h`).

  A vector is written as its size and its elements.  The reader reserves memory for as many
  elements as the stream announces, and reads each into its place in the destination.  But
  `reserve` makes no places, and the reader finds those that the destination had before: too
  few, and it leaves them; too many, and the last ones keep what they were
  (`readVector_writeVector`).  So a vector is read back just when the destination had as many
  elements (`readsBack_iff`).
-/
import StateDb.Lib.Stream
import StateDb.NetMessage

namespace StateDb

open Lib

/-! ## Objects -/

/-- An object that is no `stream_rw`: the bytes that it has in memory. -/
structure Plain (size : Nat) where
  bytes : List UInt8
  length_bytes : bytes.length = size
deriving DecidableEq

theorem Plain.ext_bytes {size : Nat} {x y : Plain size} (h : x.bytes = y.bytes) : x = y := by
  cases x
  cases y
  cases h
  rfl

/-- `write_object_generic` and `read_object_generic`.  A read that finds too few bytes leaves
the rest of the object as it was. -/
def plain (size : Nat) : Serial (Plain size) where
  writeTo x := x.bytes
  readFrom dest i :=
    let r := i.read size
    (⟨r.1 ++ dest.bytes.drop r.1.length, by
      have hread : r.1.length ≤ size := i.length_read_le size
      rw [List.length_append, List.length_drop, dest.length_bytes]
      omega⟩, r.2)
  getSize _ := size

theorem plain_exact {size : Nat} (x : Plain size) : (plain size).Exact x := by
  intro dest pre rest
  have hread := IStream.read_between pre x.bytes rest
  rw [x.length_bytes] at hread
  have hrest : dest.bytes.drop x.bytes.length = [] :=
    List.drop_eq_nil_of_le (by rw [x.length_bytes, dest.length_bytes])
  have hbytes : x.bytes ++ dest.bytes.drop x.bytes.length = x.bytes := by
    rw [hrest, List.append_nil]
  simp only [plain, hread]
  exact Prod.ext (Plain.ext_bytes hbytes) rfl

/-! ## Vectors -/

/-- What a compiler fixes of `std::vector<T>`: the width of `size_t` in bytes, and `max_size()`. -/
structure VectorLimits where
  sizeofSize : Nat
  maxSize : Nat
  maxSize_lt : maxSize < 256 ^ sizeofSize

/-- `std::vector<T>`. -/
structure Vec (m : VectorLimits) (T : Type) where
  elems : List T
  length_le : elems.length ≤ m.maxSize

/-- How `read_vector` can fail. -/
inductive VectorError where
  | lengthError  -- `reserve` throws: the vector cannot have so many elements
  | outOfRange   -- `vec[i]` behind the last element
deriving DecidableEq, Repr

variable {m : VectorLimits} {T : Type}

namespace Vec

def size (vec : Vec m T) : Nat := vec.elems.length

def set (vec : Vec m T) (i : Nat) (x : T) : Vec m T :=
  ⟨vec.elems.set i x, by
    rw [List.length_set]
    exact vec.length_le⟩

theorem ext_elems {v d : Vec m T} (h : v.elems = d.elems) : v = d := by
  cases v
  cases d
  cases h
  rfl

/-- The elements of `v`, in the first places of `d`. -/
def overlay (v d : Vec m T) : Vec m T :=
  ⟨v.elems ++ d.elems.drop v.size, by
    have hv := v.length_le
    have hd := d.length_le
    rw [List.length_append, List.length_drop, size]
    omega⟩

theorem overlay_eq_iff {v d : Vec m T} : v.overlay d = v ↔ d.size ≤ v.size := by
  constructor
  · intro h
    have helems : v.elems ++ d.elems.drop v.size = v.elems := congrArg elems h
    exact List.drop_eq_nil_iff.mp (List.append_right_eq_self.mp helems)
  · intro hle
    apply ext_elems
    show v.elems ++ d.elems.drop v.size = v.elems
    rw [List.drop_eq_nil_of_le hle, List.append_nil]

end Vec

/-- A `size_t` in memory. -/
def sizeObject (m : VectorLimits) (n : Nat) : Plain m.sizeofSize :=
  ⟨le m.sizeofSize n, length_le _ _⟩

def writeVector (s : Serial T) (vec : Vec m T) : List UInt8 :=
  (plain m.sizeofSize).writeTo (sizeObject m vec.size) ++ vec.elems.flatMap s.writeTo

/-- The loop of `read_vector`, with so many elements to go, from the `i`-th one on. -/
def readElements (s : Serial T) : Nat → Nat → Vec m T → IStream →
    Except VectorError (Vec m T × IStream)
  | 0, _, vec, is => .ok (vec, is)
  | count + 1, i, vec, is =>
      match vec.elems[i]? with
      | none => .error .outOfRange
      | some dest =>
          let r := s.readFrom dest is
          readElements s count (i + 1) (vec.set i r.1) r.2

/-- `read_vector`; `memory` is what the variable `size` held before it is read. -/
def readVector (s : Serial T) (memory : Plain m.sizeofSize) (vec : Vec m T) (is : IStream) :
    Except VectorError (Vec m T × IStream) :=
  let r := (plain m.sizeofSize).readFrom memory is
  let size := leNat r.1.bytes
  -- `reserve` changes no element
  if m.maxSize < size then .error .lengthError else readElements s size 0 vec r.2

/-! ## What is read -/

variable {s : Serial T}

/-- An element is read into its place, and the loop goes on behind it. -/
theorem readElements_next {x y : T} (hexact : s.Exact x) {done old : List T} {vec : Vec m T}
    (hvec : vec.elems = done ++ y :: old) (count : Nat) (pre rest : List UInt8) :
    ∃ vec' : Vec m T, vec'.elems = (done ++ [x]) ++ old ∧
      readElements s (count + 1) done.length vec (.between pre (s.writeTo x ++ rest)) =
        readElements s count (done ++ [x]).length vec' (.between (pre ++ s.writeTo x) rest) := by
  have hplace : vec.elems[done.length]? = some y := by
    rw [hvec, List.getElem?_append_right (Nat.le_refl _), Nat.sub_self]
    rfl
  have hset : (vec.set done.length x).elems = (done ++ [x]) ++ old := by
    show vec.elems.set done.length x = _
    rw [hvec, List.set_append_right _ _ (Nat.le_refl _), Nat.sub_self, List.set_cons_zero,
      List.append_assoc]
    rfl
  refine ⟨vec.set done.length x, hset, ?_⟩
  rw [readElements, hplace, List.length_append, List.length_singleton]
  simp only [hexact y pre rest]

/-- All that was written is read, where there are places for it. -/
theorem readElements_fits {todo : List T} (hexact : ∀ x ∈ todo, s.Exact x) (pre rest : List UInt8)
    {done old : List T} {vec vec' : Vec m T} (hvec : vec.elems = done ++ old)
    (hvec' : vec'.elems = done ++ todo ++ old.drop todo.length) (hle : todo.length ≤ old.length) :
    readElements s todo.length done.length vec (.between pre (todo.flatMap s.writeTo ++ rest)) =
      .ok (vec', .between (pre ++ todo.flatMap s.writeTo) rest) := by
  induction todo generalizing pre done old vec with
  | nil =>
    rw [List.append_nil, List.length_nil, List.drop_zero, ← hvec] at hvec'
    rw [Vec.ext_elems hvec', List.flatMap_nil, List.append_nil]
    rfl
  | cons x todo ih =>
    cases old with
    | nil => exact absurd hle (by simp)
    | cons y old =>
      obtain ⟨vec₁, hvec₁, hnext⟩ :=
        readElements_next (hexact x List.mem_cons_self) hvec todo.length
        pre (todo.flatMap s.writeTo ++ rest)
      rw [List.length_cons, List.flatMap_cons, List.append_assoc, hnext,
        ih (fun z hz => hexact z (List.mem_cons_of_mem x hz)) (pre ++ s.writeTo x) hvec₁
          (by simpa using hvec') (by simpa using hle),
        List.append_assoc]

/-- The places run out before the elements. -/
theorem readElements_runsOut {todo : List T} (hexact : ∀ x ∈ todo, s.Exact x)
    (pre rest : List UInt8) {done old : List T} {vec : Vec m T} (hvec : vec.elems = done ++ old)
    (hlt : old.length < todo.length) :
    readElements s todo.length done.length vec (.between pre (todo.flatMap s.writeTo ++ rest)) =
      .error .outOfRange := by
  induction todo generalizing pre done old vec with
  | nil => exact absurd hlt (Nat.not_lt_zero _)
  | cons x todo ih =>
    cases old with
    | nil =>
      have hplace : vec.elems[done.length]? = none := by
        rw [hvec, List.append_nil]
        exact List.getElem?_eq_none (Nat.le_refl _)
      rw [List.length_cons, readElements, hplace]
    | cons y old =>
      obtain ⟨vec₁, hvec₁, hnext⟩ :=
        readElements_next (hexact x List.mem_cons_self) hvec todo.length
        pre (todo.flatMap s.writeTo ++ rest)
      rw [List.length_cons, List.flatMap_cons, List.append_assoc, hnext]
      exact ih (fun z hz => hexact z (List.mem_cons_of_mem x hz)) (pre ++ s.writeTo x) hvec₁
        (by simpa using hlt)

/-- The size is read as it was written. -/
theorem leNat_sizeObject (v : Vec m T) : leNat (sizeObject m v.size).bytes = v.size :=
  leNat_le (v.length_le.trans_lt m.maxSize_lt)

/-- The elements come over the first places of the destination, if there are as many. -/
theorem readVector_writeVector {v : Vec m T} (hexact : ∀ x ∈ v.elems, s.Exact x) (d : Vec m T)
    (memory : Plain m.sizeofSize) (pre rest : List UInt8) :
    readVector s memory d (.between pre (writeVector s v ++ rest)) =
      if v.size ≤ d.size then .ok (v.overlay d, .between (pre ++ writeVector s v) rest)
      else .error .outOfRange := by
  have hsize := plain_exact (sizeObject m v.size) memory pre (v.elems.flatMap s.writeTo ++ rest)
  have hreserve : ¬ m.maxSize < v.size := Nat.not_lt.mpr v.length_le
  rw [readVector, writeVector, List.append_assoc, hsize]
  simp only [leNat_sizeObject, if_neg hreserve]
  by_cases hle : v.size ≤ d.size
  · rw [if_pos hle, ← List.append_assoc]
    exact readElements_fits hexact _ rest (List.nil_append _).symm rfl hle
  · rw [if_neg hle]
    exact readElements_runsOut hexact _ rest (List.nil_append _).symm (Nat.not_le.mp hle)

/-- The destination becomes the vector that was written, all its elements are found in it, and
just what was written is consumed. -/
def ReadsBack (s : Serial T) (v d : Vec m T) (memory : Plain m.sizeofSize)
    (pre rest : List UInt8) : Prop :=
  readVector s memory d (.between pre (writeVector s v ++ rest)) =
    .ok (v, .between (pre ++ writeVector s v) rest)

/-- A vector is read back just by a destination that had as many elements. -/
theorem readsBack_iff {v : Vec m T} (hexact : ∀ x ∈ v.elems, s.Exact x) (d : Vec m T)
    (memory : Plain m.sizeofSize) (pre rest : List UInt8) :
    ReadsBack s v d memory pre rest ↔ d.size = v.size := by
  unfold ReadsBack
  rw [readVector_writeVector hexact]
  by_cases hle : v.size ≤ d.size
  · rw [if_pos hle, Except.ok.injEq, Prod.mk.injEq, and_iff_left rfl, Vec.overlay_eq_iff]
    constructor
    · intro hge
      exact Nat.le_antisymm hge hle
    · intro heq
      exact heq.le
  · rw [if_neg hle]
    refine iff_of_false (by simp) ?_
    intro heq
    exact hle heq.ge

/-- A 64-bit compiler, and elements of four bytes. -/
def limits64 : VectorLimits := ⟨8, 4611686018427387903, by decide⟩

def sevenVec : Vec limits64 (Plain 4) := ⟨[⟨[7, 0, 0, 0], rfl⟩], by decide⟩

/-- The number 7 is read over the number 9. -/
theorem readsBack_iff_one : ReadsBack (plain 4) sevenVec ⟨[⟨[9, 0, 0, 0], rfl⟩], by decide⟩
    (sizeObject limits64 0) [] [] :=
  (readsBack_iff (fun x _ => plain_exact x) _ _ _ _).mpr rfl

/-- The number 7 is read into a vector that was just made: there is no place for it. -/
theorem empty_not_readsBack : (∀ x ∈ sevenVec.elems, (plain 4).Exact x) ∧
    readVector (plain 4) (sizeObject limits64 0) ⟨[], by decide⟩
      (.between [] (writeVector (plain 4) sevenVec ++ [])) = .error .outOfRange ∧
    ¬ ReadsBack (plain 4) sevenVec ⟨[], by decide⟩ (sizeObject limits64 0) [] [] := by
  have hexact : ∀ x ∈ sevenVec.elems, (plain 4).Exact x := fun x _ => plain_exact x
  have hread := readVector_writeVector hexact ⟨[], by decide⟩ (sizeObject limits64 0) [] []
  refine ⟨hexact, hread, ?_⟩
  intro hback
  exact absurd (hread.symm.trans hback) (by simp [Vec.size, sevenVec])

end StateDb
