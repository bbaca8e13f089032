/-
  StateDb/DbWrapper.lean
  ======================
  **Who owns the database and its stream** (`db_wrapper.h`; `_ENSUREDEL`).

  A wrapper has a pointer to a stream and one to a database.  `dispose` deletes both, and sets
  neither to null; so a call of `load_data` that throws before it has assigned the two again
  leaves a pointer to a deleted object.  What is in the file is the subject of `DbFile.lean`.

  Objects here are the wrapper's own: databases and streams.  A `db` has a pointer of its own,
  `inner`, which its constructor does not initialise and which `reset_inner` deletes unless it
  happens to be null.  This pointer is left out: `make_fresh` and `reload` are what they are when
  the memory of the `db` was zero.

  A wrapper is sound while it is in one of three phases, which say what its pointers point to
  (`Phase.Fits`).  A call leads from phase to phase, or it leaves a pointer to a deleted object
  (`call_phase`), and then the destructor deletes or uses that object.  Which sequences of calls
  stay in the phases is said by `releasesOnce_iff`.
-/
import StateDb.DbFile
import StateDb.Lib.CellStore
import StateDb.Lib.Program
import StateDb.Lib.Run

namespace StateDb

open Lib

/-! ## The wrapper -/

/-- What is allocated.  A database has a reference to its stream. -/
inductive Resource where
  | stream
  | db (stream : Nat)
deriving DecidableEq, Repr

inductive WrapperFault where
  | deletedTwice  -- `delete` of a deleted object
  | deletedUsed   -- a deleted object is used
  | nullUsed      -- a null pointer is dereferenced
deriving DecidableEq, Repr

inductive WrapperException where
  | cantOpen                -- "Failed to open database file"
  | fileSize                -- `filesystem_error` of `fs::file_size`
  | db (e : DbException)
deriving DecidableEq, Repr

structure DbWrapper where
  heap : CellStore Resource := .empty
  fstream : Option Nat := none
  db : Option Nat := none
deriving DecidableEq, Repr

/-- What a call of `load_data` meets. -/
structure FileAccess where
  /-- `open_file` gives `load_data` a stream that is good. -/
  opens : Bool
  /-- `fs::file_size`, unless it throws. -/
  size : Option Nat
  /-- `open_file` gives `clear_file` a stream that is good. -/
  reopens : Bool
  /-- What the stream reads. -/
  content : List UInt8

abbrev WrapperProgram (α : Type) := Program DbWrapper WrapperFault WrapperException α

namespace DbWrapper

def allocate (x : Resource) : WrapperProgram Nat := do
  let w ← .get
  .modify fun w => { w with heap := w.heap.alloc x }
  return w.heap.fresh

/-- `delete` of a pointer, which may be null. -/
def delete (p : Option Nat) : WrapperProgram Unit := do
  let w ← .get
  match p with
  | none => return
  | some a =>
      match w.heap.read a with
      | none => .stop .deletedTwice
      | some _ => .modify fun w => { w with heap := w.heap.free a }

/-- A member function is called on the object. -/
def use (p : Option Nat) : WrapperProgram Resource := do
  let w ← .get
  match p with
  | none => .stop .nullUsed
  | some a =>
      match w.heap.read a with
      | none => .stop .deletedUsed
      | some x => return x

def dispose : WrapperProgram Unit := do
  let w ← .get
  delete w.db
  if w.fstream.isSome then
    let _ ← use w.fstream
    delete w.fstream

/-- `~db_wrapper`. -/
def destroy : WrapperProgram Unit := dispose

/-- `open_file`.  A stream that is not good is not deleted. -/
def openFile (opens : Bool) : WrapperProgram Nat := do
  let fs_ ← allocate .stream
  if opens then return fs_ else .throw .cantOpen

def closeFile : WrapperProgram Unit := do
  let w ← .get
  if w.fstream.isSome then
    let _ ← use w.fstream

def setStream (a : Nat) : WrapperProgram Unit := .modify fun w => { w with fstream := some a }

def clearFile (reopens : Bool) : WrapperProgram Unit := do
  closeFile
  let w ← .get
  delete w.fstream
  let truncated ← allocate .stream
  setStream truncated
  let _ ← use (some truncated)
  delete (some truncated)
  let fs_ ← openFile reopens
  setStream fs_

/-- `_db = new db(*fstream, db_filename)`. -/
def newDb : WrapperProgram Unit := do
  let w ← .get
  match w.fstream with
  | none => .stop .nullUsed
  | some f =>
      let a ← allocate (.db f)
      .modify fun w => { w with db := some a }

/-- `make_fresh` or `reload` of the database, which uses its stream, and throws or not. -/
def useDb (outcome : Except DbException Loaded) : WrapperProgram Unit := do
  let w ← .get
  match ← use w.db with
  | .stream => .stop .deletedUsed
  | .db f =>
      let _ ← use (some f)
      match outcome with
      | .ok _ => return
      | .error e => .throw (.db e)

def verifyFile (l : HeaderLayout) (debug : Bool) (access : FileAccess) : WrapperProgram Unit :=
  match access.size with
  | none => .throw .fileSize
  | some size => do
      if size < l.minimalHeaderSize then
        clearFile access.reopens
        newDb
        useDb (makeFresh debug (StateDb.clearFile access.content))
      else
        newDb
        useDb (reload debug access.content)

def loadData (l : HeaderLayout) (debug : Bool) (access : FileAccess) : WrapperProgram Unit := do
  dispose
  let fs_ ← openFile access.opens
  setStream fs_
  verifyFile l debug access

def getInner (w : DbWrapper) : Option Nat := w.db

/-- A call of `load_data`, whose caller catches what it throws. -/
def call (l : HeaderLayout) (debug : Bool) (w : DbWrapper) (access : FileAccess) :
    Option DbWrapper :=
  ((loadData l debug access).run w).caught

/-! ## What the steps do -/

variable {w : DbWrapper} {a f : Nat} {x : Resource}

theorem allocate_run (x : Resource) (w : DbWrapper) :
    (allocate x).run w = .value w.heap.fresh { w with heap := w.heap.alloc x } := rfl

theorem delete_live (h : w.heap.read a = some x) :
    (delete (some a)).run w = .value () { w with heap := w.heap.free a } := by
  simp [delete, h]

theorem delete_freed (h : w.heap.read a = none) :
    (delete (some a)).run w = .fault .deletedTwice := by
  simp [delete, h]

theorem delete_null (w : DbWrapper) : (delete none).run w = .value () w := rfl

theorem use_live (h : w.heap.read a = some x) : (use (some a)).run w = .value x w := by
  simp [use, h]

theorem use_freed (h : w.heap.read a = none) : (use (some a)).run w = .fault .deletedUsed := by
  simp [use, h]

theorem openFile_run (opens : Bool) (w : DbWrapper) : (openFile opens).run w =
    if opens then .value w.heap.fresh { w with heap := w.heap.alloc .stream }
    else .threw .cantOpen { w with heap := w.heap.alloc .stream } := by
  cases opens <;> rfl

/-- The truncated stream is deleted, and the one that is opened last is assigned. -/
theorem clearFile_run (hf : w.fstream = some f) (hread : w.heap.read f = some .stream)
    (reopens : Bool) : (clearFile reopens).run w =
      let heap := (((w.heap.free f).alloc .stream).free w.heap.fresh).alloc .stream
      if reopens then .value () { w with heap := heap, fstream := some (w.heap.fresh + 1) }
      else .threw .cantOpen { w with heap := heap, fstream := some w.heap.fresh } := by
  have hclose : closeFile.run w = .value () w := by
    simp [closeFile, hf, use_live hread]
  have htruncated : ((w.heap.free f).alloc .stream).read w.heap.fresh = some Resource.stream := by
    rw [← CellStore.fresh_free w.heap f]
    exact CellStore.read_alloc_self _ _
  have huse := @use_live
    { w with heap := (w.heap.free f).alloc .stream, fstream := some w.heap.fresh }
    _ _ htruncated
  have hdelete := @delete_live
    { w with heap := (w.heap.free f).alloc .stream, fstream := some w.heap.fresh } _ _ htruncated
  simp only [clearFile, Program.run_bind, hclose, Ending.value_andThen, Program.run_get, hf,
    delete_live hread, allocate_run, setStream, Program.run_modify, CellStore.fresh_free, huse,
    hdelete, openFile_run]
  cases reopens
  · simp
  · simp

/-- A database is made on the stream, and assigned before it can throw. -/
theorem newDb_run (hf : w.fstream = some f) (hread : w.heap.read f = some .stream)
    (outcome : Except DbException Loaded) :
    (do newDb; useDb outcome : WrapperProgram Unit).run w =
      let w' := { w with heap := w.heap.alloc (.db f), db := some w.heap.fresh }
      match outcome with
      | .ok _ => .value () w'
      | .error e => .threw (.db e) w' := by
  obtain ⟨heap, fstream, db⟩ := w
  obtain rfl : fstream = some f := hf
  have hlt : f < heap.fresh := CellStore.lt_fresh_of_read hread
  have hdb := @use_live ⟨heap.alloc (.db f), some f, some heap.fresh⟩ _ _
    (CellStore.read_alloc_self _ _)
  have huse := @use_live ⟨heap.alloc (.db f), some f, some heap.fresh⟩ f .stream
    ((CellStore.read_alloc_of_lt hlt).trans hread)
  simp only [newDb, useDb, Program.run_bind, Program.run_get, Ending.value_andThen, allocate_run,
    Program.run_modify, hdb, huse]
  cases outcome <;> rfl

end DbWrapper

/-! ## Phases -/

/-- What the pointers of a wrapper point to. -/
inductive Phase where
  | empty   -- both are null
  | opened  -- a stream, and no database
  | loaded  -- a stream, and a database on it
deriving DecidableEq, Repr

namespace Phase

open DbWrapper

def Fits : Phase → DbWrapper → Prop
  | .empty, w => w.fstream = none ∧ w.db = none
  | .opened, w => (∃ f, w.fstream = some f ∧ w.heap.read f = some .stream) ∧ w.db = none
  | .loaded, w => ∃ f d, w.fstream = some f ∧ w.db = some d ∧ w.heap.read f = some .stream ∧
      w.heap.read d = some (.db f)

/-- Where a call leads to, unless it leaves a pointer to a deleted object. -/
def next (l : HeaderLayout) (p : Phase) (access : FileAccess) : Option Phase :=
  if access.opens then
    match access.size with
    | none => if p = .loaded then none else some .opened
    | some size =>
        if size < l.minimalHeaderSize ∧ access.reopens = false then none else some .loaded
  else if p = .empty then some .empty else none

end Phase

namespace DbWrapper

variable {w : DbWrapper} {p : Phase}

/-- The pointer is null, or was deleted. -/
def Gone (heap : CellStore Resource) (ptr : Option Nat) : Prop :=
  ∀ a, ptr = some a → heap.read a = none ∧ a < heap.fresh

/-- A pointer to a deleted object is left. -/
def Spoiled (w : DbWrapper) : Prop :=
  ∃ a, (w.fstream = some a ∨ w.db = some a) ∧ w.heap.read a = none

theorem read_free_of_none {heap : CellStore Resource} {a : Nat} (h : heap.read a = none) (d : Nat) :
    (heap.free d).read a = none := by
  by_cases hd : a = d
  · rw [hd]
    exact CellStore.read_free_self heap d
  · rw [CellStore.read_free_of_ne hd, h]

/-- The destructor deletes the object again, or uses it. -/
theorem Spoiled.dispose (h : w.Spoiled) : ∃ e, dispose.run w = .fault e := by
  obtain ⟨heap, fstream, db⟩ := w
  obtain ⟨a, hptr, hread⟩ := h
  cases db with
  | none =>
    obtain rfl : fstream = some a := hptr.resolve_right (by simp)
    have huse := @use_freed ⟨heap, some a, none⟩ a hread
    exact ⟨.deletedUsed, by simp [DbWrapper.dispose, delete_null, huse]⟩
  | some d =>
    cases hd : heap.read d with
    | none =>
      have hdelete := @delete_freed ⟨heap, fstream, some d⟩ d hd
      exact ⟨.deletedTwice, by simp [DbWrapper.dispose, hdelete]⟩
    | some x =>
      obtain rfl : fstream = some a := by
        refine hptr.resolve_right ?_
        intro heq
        obtain rfl := Option.some.inj heq
        exact absurd (hd.symm.trans hread) (by simp)
      have hdelete := @delete_live ⟨heap, some a, some d⟩ d x hd
      have huse := @use_freed ⟨heap.free d, some a, some d⟩ a (read_free_of_none hread d)
      exact ⟨.deletedUsed, by simp [DbWrapper.dispose, hdelete, huse]⟩

/-- Both pointers are null, or their objects were deleted. -/
structure Disposed (w : DbWrapper) : Prop where
  fstream : Gone w.heap w.fstream
  db : Gone w.heap w.db

theorem gone_none (heap : CellStore Resource) : Gone heap none := by
  intro a ha
  cases ha

theorem Gone.alloc {heap : CellStore Resource} {ptr : Option Nat} (h : Gone heap ptr)
    (x : Resource) :
    Gone (heap.alloc x) ptr := by
  intro a ha
  obtain ⟨hread, hlt⟩ := h a ha
  rw [CellStore.read_alloc_of_lt hlt, CellStore.fresh_alloc]
  exact ⟨hread, Nat.lt_succ_of_lt hlt⟩

theorem Gone.free {heap : CellStore Resource} {ptr : Option Nat} (h : Gone heap ptr) (a : Nat) :
    Gone (heap.free a) ptr := by
  intro b hb
  obtain ⟨hread, hlt⟩ := h b hb
  rw [CellStore.fresh_free]
  exact ⟨read_free_of_none hread a, hlt⟩

theorem gone_free {heap : CellStore Resource} {a : Nat} {x : Resource} (h : heap.read a = some x) :
    Gone (heap.free a) (some a) := by
  intro b hb
  obtain rfl := Option.some.inj hb
  rw [CellStore.fresh_free]
  exact ⟨CellStore.read_free_self _ _, CellStore.lt_fresh_of_read h⟩

/-- In each phase the objects are deleted, and the pointers stay. -/
theorem dispose_fits (h : p.Fits w) : ∃ heap, dispose.run w = .value () { w with heap := heap } ∧
    Disposed { w with heap := heap } := by
  obtain ⟨heap, fstream, db⟩ := w
  cases p with
  | empty =>
    obtain ⟨rfl, rfl⟩ : fstream = none ∧ db = none := h
    exact ⟨heap, by simp [DbWrapper.dispose, delete_null], gone_none _, gone_none _⟩
  | opened =>
    obtain ⟨⟨f, rfl, hread⟩, rfl⟩ :
        (∃ f, fstream = some f ∧ heap.read f = some .stream) ∧ db = none := h
    have huse := @use_live ⟨heap, some f, none⟩ f .stream hread
    have hdelete := @delete_live ⟨heap, some f, none⟩ f .stream hread
    refine ⟨heap.free f, ?_, gone_free hread, gone_none _⟩
    simp [DbWrapper.dispose, delete_null, huse, hdelete]
  | loaded =>
    obtain ⟨f, d, rfl, rfl, hf, hd⟩ : ∃ f d, fstream = some f ∧ db = some d ∧
      heap.read f = some .stream ∧ heap.read d = some (.db f) := h
    have hne : f ≠ d := by
      rintro rfl
      exact absurd (hf.symm.trans hd) (by simp)
    have hf' : (heap.free d).read f = some .stream := by
      rw [CellStore.read_free_of_ne hne, hf]
    have hdb := @delete_live ⟨heap, some f, some d⟩ d (.db f) hd
    have huse := @use_live ⟨heap.free d, some f, some d⟩ f .stream hf'
    have hdelete := @delete_live ⟨heap.free d, some f, some d⟩ f .stream hf'
    refine ⟨(heap.free d).free f, ?_, gone_free hf', (gone_free hd).free f⟩
    simp [DbWrapper.dispose, hdb, huse, hdelete]

theorem caught_newDb (hf : w.fstream = some f) (hread : w.heap.read f = some .stream)
    (outcome : Except DbException Loaded) : ∃ w',
      ((do newDb; useDb outcome : WrapperProgram Unit).run w).caught = some w' ∧
        Phase.loaded.Fits w' := by
  have hlt : f < w.heap.fresh := CellStore.lt_fresh_of_read hread
  refine ⟨{ w with heap := w.heap.alloc (.db f), db := some w.heap.fresh }, ?_, ?_⟩
  · rw [newDb_run hf hread]
    cases outcome <;> rfl
  · exact ⟨f, w.heap.fresh, hf, rfl, (CellStore.read_alloc_of_lt hlt).trans hread,
      CellStore.read_alloc_self _ _⟩

/-- `verify_file`, with a stream that is open. -/
theorem verifyFile_phase (l : HeaderLayout) (debug : Bool) (access : FileAccess)
    (hf : w.fstream = some f) (hread : w.heap.read f = some .stream) :
    ∃ w', ((verifyFile l debug access).run w).caught = some w' ∧
      match access.size with
      | none => w' = w
      | some size =>
          if size < l.minimalHeaderSize ∧ access.reopens = false then w'.Spoiled
          else Phase.loaded.Fits w' := by
  unfold verifyFile
  cases access.size with
  | none => exact ⟨w, rfl, rfl⟩
  | some size =>
    by_cases hsmall : size < l.minimalHeaderSize
    · simp only [if_pos hsmall, Program.run_bind, clearFile_run hf hread]
      cases access.reopens with
      | false =>
        refine ⟨_, rfl, ?_⟩
        rw [if_pos ⟨hsmall, rfl⟩]
        refine ⟨w.heap.fresh, Or.inl rfl, ?_⟩
        have hlt : w.heap.fresh < (((w.heap.free f).alloc .stream).free w.heap.fresh).fresh := by
          simp
        exact (CellStore.read_alloc_of_lt hlt).trans (CellStore.read_free_self _ _)
      | true =>
        have hkept : ¬ (size < l.minimalHeaderSize ∧ true = false) := by simp
        simp only [if_true, Ending.value_andThen, if_neg hkept]
        have hself := CellStore.read_alloc_self
          (((w.heap.free f).alloc .stream).free w.heap.fresh) Resource.stream
        rw [CellStore.fresh_free, CellStore.fresh_alloc, CellStore.fresh_free] at hself
        exact @caught_newDb ⟨_, _, w.db⟩
          (w.heap.fresh + 1) rfl hself (makeFresh debug (StateDb.clearFile access.content))
    · have hkept : ¬ (size < l.minimalHeaderSize ∧ access.reopens = false) := fun h => hsmall h.1
      simp only [if_neg hsmall, if_neg hkept]
      exact caught_newDb hf hread (reload debug access.content)

/-- A call leads to the next phase, or leaves a pointer to a deleted object. -/
theorem call_phase (l : HeaderLayout) (debug : Bool) (h : p.Fits w) (access : FileAccess) :
    ∃ w', call l debug w access = some w' ∧
      match p.next l access with
      | none => w'.Spoiled
      | some p' => p'.Fits w' := by
  obtain ⟨heap, hdispose, hgone⟩ := dispose_fits h
  obtain ⟨oldHeap, fstream, db⟩ := w
  have hopen := openFile_run access.opens ⟨heap, fstream, db⟩
  unfold call loadData
  simp only [Program.run_bind, hdispose, Ending.value_andThen, hopen, Phase.next]
  cases access.opens with
  | false =>
    refine ⟨⟨heap.alloc .stream, fstream, db⟩, rfl, ?_⟩
    simp only [Bool.false_eq_true, if_false]
    by_cases hp : p = .empty
    · subst hp
      rw [if_pos rfl]
      exact h
    · rw [if_neg hp]
      obtain ⟨f, rfl⟩ : ∃ f, fstream = some f := by
        cases p with
        | empty => exact absurd rfl hp
        | opened => exact ⟨h.1.choose, h.1.choose_spec.1⟩
        | loaded => exact ⟨h.choose, h.choose_spec.choose_spec.1⟩
      exact ⟨f, Or.inl rfl, ((hgone.fstream.alloc .stream) f rfl).1⟩
  | true =>
    obtain ⟨w', hverify, hphase⟩ :=
      @verifyFile_phase ⟨heap.alloc .stream, some heap.fresh, db⟩ heap.fresh
      l debug access rfl (CellStore.read_alloc_self _ _)
    refine ⟨w', hverify, ?_⟩
    simp only [if_true]
    cases hsize : access.size with
    | none =>
      rw [hsize] at hphase
      subst hphase
      by_cases hp : p = .loaded
      · subst hp
        obtain ⟨f, d, -, hdb, -⟩ := h
        simp only [if_true]
        exact ⟨d, Or.inr hdb, ((hgone.db.alloc .stream) d hdb).1⟩
      · simp only [if_neg hp]
        refine ⟨⟨heap.fresh, rfl, CellStore.read_alloc_self _ _⟩, ?_⟩
        cases p with
        | empty => exact h.2
        | opened => exact h.2
        | loaded => exact absurd rfl hp
    | some size =>
      rw [hsize] at hphase
      simp only at hphase ⊢
      by_cases hlost : size < l.minimalHeaderSize ∧ access.reopens = false
      · rw [if_pos hlost] at hphase ⊢
        exact hphase
      · rw [if_neg hlost] at hphase ⊢
        exact hphase

theorem Spoiled.call (h : w.Spoiled) (l : HeaderLayout) (debug : Bool) (access : FileAccess) :
    call l debug w access = none := by
  obtain ⟨e, he⟩ := h.dispose
  simp only [DbWrapper.call, loadData, Program.run_bind, he, Ending.fault_andThen]
  rfl

end DbWrapper

/-! ## Sequences of calls -/

/-- The calls and the destructor delete no object twice and use none that was deleted, and
between the calls `get_inner` gives a database that is there. -/
structure ReleasesOnce (l : HeaderLayout) (debug : Bool) (accesses : List FileAccess) : Prop where
  released : ∃ w w', run (DbWrapper.call l debug) {} accesses = some w ∧
    DbWrapper.destroy.run w = .value () w'
  inner : ∀ past rest w, accesses = past ++ rest → run (DbWrapper.call l debug) {} past = some w →
    ∀ a ∈ w.getInner, ∃ f, w.heap.read a = some (.db f)

/-- The file is always there, once it was. -/
structure KeepsOpening (l : HeaderLayout) (accesses : List FileAccess) : Prop where
  /-- `clear_file` can reopen the file. -/
  reopens : ∀ e ∈ accesses, e.opens = true → ∀ size, e.size = some size →
    size < l.minimalHeaderSize → e.reopens = true
  /-- After a call that could open the file, every call can. -/
  opens : accesses.Pairwise fun e e' => e.opens = true → e'.opens = true
  /-- After a call that made a database, every call gets the size of the file. -/
  sized : accesses.Pairwise fun e e' => e.opens = true → e.size ≠ none → e'.size ≠ none

section Phases

variable {l : HeaderLayout} {debug : Bool} {p : Phase} {w : DbWrapper} {accesses : List FileAccess}

/-- What the next calls may not do, in a phase. -/
structure KeepsFrom (l : HeaderLayout) (p : Phase) (accesses : List FileAccess) : Prop where
  keeps : KeepsOpening l accesses
  opens : p ≠ .empty → ∀ e ∈ accesses, e.opens = true
  sized : p = .loaded → ∀ e ∈ accesses, e.size ≠ none

theorem keepsOpening_cons {e : FileAccess} : KeepsOpening l (e :: accesses) ↔
    (e.opens = true → ∀ size, e.size = some size → size < l.minimalHeaderSize → e.reopens = true) ∧
      (e.opens = true → ∀ e' ∈ accesses, e'.opens = true) ∧
      (e.opens = true → e.size ≠ none → ∀ e' ∈ accesses, e'.size ≠ none) ∧
      KeepsOpening l accesses := by
  constructor
  · rintro ⟨hreopens, hopens, hsized⟩
    obtain ⟨hopens, hopens'⟩ := List.pairwise_cons.mp hopens
    obtain ⟨hsized, hsized'⟩ := List.pairwise_cons.mp hsized
    exact ⟨hreopens e List.mem_cons_self, fun h e' he' => hopens e' he' h,
      fun h hsize e' he' => hsized e' he' h hsize,
      ⟨fun e' he' => hreopens e' (List.mem_cons_of_mem e he'), hopens', hsized'⟩⟩
  · rintro ⟨hreopens, hopens, hsized, hkeeps⟩
    refine ⟨?_, List.pairwise_cons.mpr ⟨fun e' he' h => hopens h e' he', hkeeps.opens⟩,
      List.pairwise_cons.mpr ⟨fun e' he' h hsize => hsized h hsize e' he', hkeeps.sized⟩⟩
    intro e' he'
    rcases List.mem_cons.mp he' with rfl | he'
    · exact hreopens
    · exact hkeeps.reopens e' he'

/-- A phase has a next one if the file cannot be opened and was not yet, if it is opened and its
size is not known and never was, or if it is opened and can be opened again when it is cleared. -/
theorem next_eq_some_iff {e : FileAccess} {p' : Phase} : p.next l e = some p' ↔
    (e.opens = false ∧ p = .empty ∧ p' = .empty) ∨
    (e.opens = true ∧ e.size = none ∧ p ≠ .loaded ∧ p' = .opened) ∨
    ∃ size, e.opens = true ∧ e.size = some size ∧
      (size < l.minimalHeaderSize → e.reopens = true) ∧ p' = .loaded := by
  unfold Phase.next
  cases hopen : e.opens with
  | false => by_cases hp : p = .empty <;> simp [hp, @eq_comm _ p']
  | true =>
    cases hsize : e.size with
    | none => by_cases hp : p = .loaded <;> simp [hp, @eq_comm _ p']
    | some size =>
      by_cases hsmall : size < l.minimalHeaderSize
      · cases hreopens : e.reopens <;> simp [hsmall, @eq_comm _ p']
      · simp [hsmall, @eq_comm _ p']

theorem keepsFrom_cons {e : FileAccess} : KeepsFrom l p (e :: accesses) ↔
    ∃ p', p.next l e = some p' ∧ KeepsFrom l p' accesses := by
  simp only [next_eq_some_iff]
  constructor
  · rintro ⟨hkeeps, hopens, hsized⟩
    obtain ⟨hreopens, hopens', hsized', hrest⟩ := keepsOpening_cons.mp hkeeps
    cases hopen : e.opens with
    | false =>
      have hp : p = .empty := by
        by_contra hne
        exact absurd (hopens hne e List.mem_cons_self) (by simp [hopen])
      exact ⟨.empty, Or.inl ⟨rfl, hp, rfl⟩, hrest, fun hne => absurd rfl hne, by simp⟩
    | true =>
      cases hsize : e.size with
      | none =>
        have hp : p ≠ .loaded := fun heq => hsized heq e List.mem_cons_self hsize
        exact ⟨.opened, Or.inr (Or.inl ⟨rfl, rfl, hp, rfl⟩), hrest, fun _ => hopens' hopen, by simp⟩
      | some size =>
        exact ⟨.loaded, Or.inr (Or.inr ⟨size, rfl, rfl, hreopens hopen size hsize, rfl⟩), hrest,
          fun _ => hopens' hopen, fun _ => hsized' hopen (by simp [hsize])⟩
  · rintro ⟨p', ⟨hopen, rfl, rfl⟩ | ⟨hopen, hsize, hp, rfl⟩ | ⟨size, hopen, hsize, hkept, rfl⟩,
      hrest⟩
    · refine ⟨keepsOpening_cons.mpr ⟨?_, ?_, ?_, hrest.keeps⟩, fun hne => absurd rfl hne, ?_⟩ <;>
        simp [hopen]
    · have hall := hrest.opens (by simp)
      exact ⟨keepsOpening_cons.mpr ⟨by simp [hsize], fun _ => hall, by simp [hsize], hrest.keeps⟩,
        fun _ => List.forall_mem_cons.mpr ⟨hopen, hall⟩, fun heq => absurd heq hp⟩
    · have hall := hrest.opens (by simp)
      have hsizes := hrest.sized rfl
      refine ⟨keepsOpening_cons.mpr ⟨?_, fun _ => hall, fun _ _ => hsizes, hrest.keeps⟩,
        fun _ => List.forall_mem_cons.mpr ⟨hopen, hall⟩,
        fun _ => List.forall_mem_cons.mpr ⟨by simp [hsize], hsizes⟩⟩
      rintro - size' hsize' hsmall
      obtain rfl := Option.some.inj (hsize.symm.trans hsize')
      exact hkept hsmall

/-- The phases go on as long as the file is there. -/
theorem keepsFrom_iff : KeepsFrom l p accesses ↔ ∃ p', run (Phase.next l) p accesses = some p' := by
  induction accesses generalizing p with
  | nil =>
    refine iff_of_true ⟨⟨?_, .nil, .nil⟩, ?_, ?_⟩ ⟨p, rfl⟩ <;> simp
  | cons e accesses ih =>
    rw [keepsFrom_cons]
    constructor
    · rintro ⟨p₁, hnext, hkeeps⟩
      obtain ⟨p', hrun⟩ := ih.mp hkeeps
      exact ⟨p', run_cons_eq_some.mpr ⟨p₁, hnext, hrun⟩⟩
    · rintro ⟨p', hrun⟩
      obtain ⟨p₁, hnext, hrest⟩ := run_cons_eq_some.mp hrun
      exact ⟨p₁, hnext, ih.mpr ⟨p', hrest⟩⟩

theorem keepsOpening_iff : KeepsOpening l accesses ↔
    ∃ p', run (Phase.next l) .empty accesses = some p' := by
  rw [← keepsFrom_iff]
  constructor
  · intro h
    exact ⟨h, fun hne => absurd rfl hne, fun heq => by cases heq⟩
  · intro h
    exact h.keeps

/-- A run of the phases is one of the wrapper. -/
theorem fits_run (debug : Bool) {p' : Phase} (h : p.Fits w)
    (hrun : run (Phase.next l) p accesses = some p') :
    ∃ w', run (DbWrapper.call l debug) w accesses = some w' ∧ p'.Fits w' := by
  induction accesses generalizing p w with
  | nil =>
    obtain rfl := Option.some.inj hrun
    exact ⟨w, rfl, h⟩
  | cons e accesses ih =>
    obtain ⟨p₁, hnext, hrest⟩ := run_cons_eq_some.mp hrun
    obtain ⟨w₁, hcall, hphase⟩ := DbWrapper.call_phase l debug h e
    rw [hnext] at hphase
    obtain ⟨w', hrun', hfits⟩ := ih hphase hrest
    exact ⟨w', run_cons_eq_some.mpr ⟨w₁, hcall, hrun'⟩, hfits⟩

/-- A wrapper that is destroyed without a fault never left the phases. -/
theorem phases_of_destroyed (h : p.Fits w) {w₁ w₂ : DbWrapper}
    (hrun : run (DbWrapper.call l debug) w accesses = some w₁)
    (hdestroy : DbWrapper.destroy.run w₁ = .value () w₂) :
    ∃ p', run (Phase.next l) p accesses = some p' := by
  induction accesses generalizing p w with
  | nil => exact ⟨p, rfl⟩
  | cons e accesses ih =>
    obtain ⟨w', hcall, hrest⟩ := run_cons_eq_some.mp hrun
    obtain ⟨w'', hcall', hphase⟩ := DbWrapper.call_phase l debug h e
    obtain rfl := Option.some.inj (hcall.symm.trans hcall')
    cases hnext : p.next l e with
    | none =>
      rw [hnext] at hphase
      cases accesses with
      | nil =>
        obtain rfl := Option.some.inj hrest
        obtain ⟨f, hfault⟩ := hphase.dispose
        rw [DbWrapper.destroy, hfault] at hdestroy
        cases hdestroy
      | cons e' accesses =>
        obtain ⟨w₃, hagain, -⟩ := run_cons_eq_some.mp hrest
        rw [hphase.call] at hagain
        cases hagain
    | some p₁ =>
      rw [hnext] at hphase
      obtain ⟨p', hrun'⟩ := ih hphase hrest
      exact ⟨p', run_cons_eq_some.mpr ⟨p₁, hnext, hrun'⟩⟩

theorem Phase.Fits.destroy (h : p.Fits w) :
    ∃ w', DbWrapper.destroy.run w = .value () w' := by
  obtain ⟨heap, hdispose, -⟩ := DbWrapper.dispose_fits h
  exact ⟨_, hdispose⟩

/-- In each phase `get_inner` gives no database, or one that is there. -/
theorem Phase.Fits.inner (h : p.Fits w) {a : Nat} (ha : a ∈ w.getInner) :
    ∃ f, w.heap.read a = some (.db f) := by
  have hdb : w.db = some a := ha
  cases p with
  | empty => exact absurd (h.2.symm.trans hdb) (by simp)
  | opened => exact absurd (h.2.symm.trans hdb) (by simp)
  | loaded =>
    obtain ⟨f, d, -, hd, -, hread⟩ := h
    obtain rfl := Option.some.inj (hd.symm.trans hdb)
    exact ⟨f, hread⟩

end Phases

/-- From a wrapper that was just made, the calls and the destructor release each object once just
when the file is always there, once it was. -/
theorem releasesOnce_iff (l : HeaderLayout) (debug : Bool) (accesses : List FileAccess) :
    ReleasesOnce l debug accesses ↔ KeepsOpening l accesses := by
  have hstart : Phase.empty.Fits {} := ⟨rfl, rfl⟩
  rw [keepsOpening_iff]
  constructor
  · intro h
    obtain ⟨w, w', hrun, hdestroy⟩ := h.released
    exact phases_of_destroyed hstart hrun hdestroy
  · rintro ⟨p', hrun⟩
    constructor
    · obtain ⟨w, hcalls, hfits⟩ := fits_run debug hstart hrun
      obtain ⟨w', hdestroy⟩ := hfits.destroy
      exact ⟨w, w', hcalls, hdestroy⟩
    · rintro past rest w rfl hcalls a ha
      obtain ⟨p₁, hpast, -⟩ := run_append_eq_some.mp hrun
      obtain ⟨w₁, hcalls₁, hfits⟩ := fits_run debug hstart hpast
      obtain rfl := Option.some.inj (hcalls.symm.trans hcalls₁)
      exact hfits.inner ha

/-- The file is empty and is written anew; later it cannot be opened any more. -/
def vanishingFile : List FileAccess := [⟨true, some 0, true, []⟩, ⟨false, some 0, true, []⟩]

/-- The database and its stream were deleted; the stream that could not be opened is leaked. -/
def danglingWrapper : DbWrapper := ⟨⟨[none, none, none, none, some .stream]⟩, some 2, some 3⟩

/-- The second call throws; `get_inner` then gives the database that it has deleted, and the
destructor deletes it again. -/
theorem vanishingFile_not_releasesOnce :
    run (DbWrapper.call layout64 false) {} vanishingFile = some danglingWrapper ∧
    danglingWrapper.getInner = some 3 ∧ danglingWrapper.heap.read 3 = none ∧
    DbWrapper.destroy.run danglingWrapper = .fault .deletedTwice ∧
    ¬ ReleasesOnce layout64 false vanishingFile := by
  have hrun : run (DbWrapper.call layout64 false) {} vanishingFile = some danglingWrapper := by
    decide
  refine ⟨hrun, rfl, rfl, rfl, ?_⟩
  rintro ⟨⟨w, w', hcalls, hdestroy⟩, -⟩
  obtain rfl := Option.some.inj (hrun.symm.trans hcalls)
  cases hdestroy

end StateDb
