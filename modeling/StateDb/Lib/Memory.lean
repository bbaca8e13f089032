/-
  StateDb/Lib/Memory.lean
  =========================
  **Programs over blocks of memory.**

  A block is a list of cells, and a cell holds nothing until something is stored to it.
  A program reads and writes cells by block and index.  It stops when it leaves a block,
  reads a cell that holds nothing, or follows a pointer to no block; so a program that
  does not stop has kept to its memory.  An exception stops it as well, and what was
  stored until then stays stored.

  `copy` is a loop over single cells; `copy_run` says what it does when there is room,
  and `copy_outOfBounds` that it leaves a block when there is not.

  `Spares` says of a program which blocks it leaves alone, however it ends; it is put together
  from the accesses by `Spares.bind`.
-/
import StateDb.Lib.CellStore
import Mathlib.Data.List.Basic

namespace StateDb.Lib

abbrev Blocks (α : Type) := CellStore (List (Option α))

/-- How a program stops before its end. -/
inductive Stop (E : Type) where
  | threw (e : E)
  | outOfBounds     -- a cell outside a block is read or written
  | uninitialised   -- a cell that holds nothing is read
  | dangling        -- there is no block at the pointer
deriving DecidableEq, Repr

/-- What a program gives, and the blocks it leaves. -/
structure MemProg (α E β : Type) where
  run : Blocks α → Except (Stop E) β × Blocks α

namespace MemProg

variable {α E β γ : Type}

instance : Monad (MemProg α E) where
  pure b := ⟨fun m => (.ok b, m)⟩
  bind p f := ⟨fun m =>
    match p.run m with
    | (.ok b, m') => (f b).run m'
    | (.error e, m') => (.error e, m')⟩

@[simp] theorem run_pure (b : β) (m : Blocks α) :
    (pure b : MemProg α E β).run m = (.ok b, m) := rfl

/-- A program goes on behind one that came to its end. -/
theorem run_bind {p : MemProg α E β} {f : β → MemProg α E γ} {m m' : Blocks α} {b : β}
    (h : p.run m = (.ok b, m')) : (p >>= f).run m = (f b).run m' := by
  show (match p.run m with | (.ok b, m') => (f b).run m' | (.error e, m') => (.error e, m')) = _
  rw [h]

theorem stop_bind {p : MemProg α E β} {f : β → MemProg α E γ} {m m' : Blocks α} {e : Stop E}
    (h : p.run m = (.error e, m')) : (p >>= f).run m = (.error e, m') := by
  show (match p.run m with | (.ok b, m') => (f b).run m' | (.error e, m') => (.error e, m')) = _
  rw [h]

/-! ## Accesses -/

def throw (e : E) : MemProg α E β := ⟨fun m => (.error (.threw e), m)⟩

def stop (e : Stop E) : MemProg α E β := ⟨fun m => (.error e, m)⟩

def load (b i : Nat) : MemProg α E α := ⟨fun m =>
  match m.read b with
  | none => (.error .dangling, m)
  | some cells =>
      match cells[i]? with
      | none => (.error .outOfBounds, m)
      | some none => (.error .uninitialised, m)
      | some (some x) => (.ok x, m)⟩

def store (b i : Nat) (x : α) : MemProg α E Unit := ⟨fun m =>
  match m.read b with
  | none => (.error .dangling, m)
  | some cells =>
      if i < cells.length then (.ok (), m.write b (cells.set i (some x)))
      else (.error .outOfBounds, m)⟩

/-- `new`: the cells of the new block hold nothing. -/
def allocate (n : Nat) : MemProg α E Nat :=
  ⟨fun m => (.ok m.fresh, m.alloc (List.replicate n none))⟩

/-- `new` with a value. -/
def allocateWith (xs : List α) : MemProg α E Nat :=
  ⟨fun m => (.ok m.fresh, m.alloc (xs.map some))⟩

/-- `delete`. -/
def free (b : Nat) : MemProg α E Unit := ⟨fun m => (.ok (), CellStore.free m b)⟩

/-- The cells from `i` on, `n` of them. -/
def loadAt (b : Nat) : Nat → Nat → MemProg α E (List α)
  | 0, _ => pure []
  | n + 1, i => do
      let x ← load b i
      let xs ← loadAt b n (i + 1)
      pure (x :: xs)

/-- Values are stored from `i` on. -/
def storeAt (b : Nat) : List α → Nat → MemProg α E Unit
  | [], _ => pure ()
  | x :: xs, i => do
      store b i x
      storeAt b xs (i + 1)

/-- `n` cells from `i` on are copied to where they stand in the other block. -/
def copyAt (dst src : Nat) : Nat → Nat → MemProg α E Unit
  | 0, _ => pure ()
  | n + 1, i => do
      let x ← load src i
      store dst i x
      copyAt dst src n (i + 1)

/-- `memcpy`. -/
def copy (dst src n : Nat) : MemProg α E Unit := copyAt dst src n 0

/-! ## What the accesses do -/

/-- The block holds these cells, all of them. -/
def Holds (m : Blocks α) (b : Nat) (xs : List α) : Prop := m.read b = some (xs.map some)

variable {m : Blocks α} {b i n : Nat} {xs : List α} {cells : List (Option α)}

theorem load_run (h : Holds m b xs) (hi : i < xs.length) :
    (load b i : MemProg α E α).run m = (.ok xs[i], m) := by
  have hcell : (xs.map some)[i]? = some (some xs[i]) := by simp [hi]
  rw [Holds] at h
  simp only [load, h, hcell]

theorem load_outOfBounds (h : m.read b = some cells) (hi : cells.length ≤ i) :
    (load b i : MemProg α E α).run m = (.error .outOfBounds, m) := by
  simp only [load, h, List.getElem?_eq_none hi]

theorem store_run (h : m.read b = some cells) (hi : i < cells.length) (x : α) :
    (store b i x : MemProg α E Unit).run m = (.ok (), m.write b (cells.set i (some x))) := by
  simp only [store, h, if_pos hi]

theorem store_outOfBounds (h : m.read b = some cells) (hi : cells.length ≤ i) (x : α) :
    (store b i x : MemProg α E Unit).run m = (.error .outOfBounds, m) := by
  simp only [store, h, if_neg (Nat.not_lt.mpr hi)]

theorem loadAt_run (h : Holds m b xs) (hi : i + n ≤ xs.length) :
    (loadAt b n i : MemProg α E (List α)).run m = (.ok ((xs.drop i).take n), m) := by
  induction n generalizing i with
  | zero => simp [loadAt]
  | succ n ih =>
    have hlt : i < xs.length := by omega
    rw [loadAt, run_bind (load_run h hlt), run_bind (ih (by omega)), List.drop_eq_getElem_cons hlt,
      List.take_succ_cons]
    rfl

theorem storeAt_run {pre ys : List α} {room : List (Option α)}
    (h : m.read b = some (pre.map some ++ room.drop pre.length))
    (hroom : pre.length + ys.length ≤ room.length) :
    (storeAt b ys pre.length : MemProg α E Unit).run m =
      (.ok (), m.write b ((pre ++ ys).map some ++ room.drop (pre.length + ys.length))) := by
  induction ys generalizing pre m with
  | nil =>
    rw [List.append_nil, List.length_nil, Nat.add_zero, CellStore.write_read h]
    rfl
  | cons y ys ih =>
    rw [List.length_cons] at hroom
    have hset : (pre.map some ++ room.drop pre.length).set pre.length (some y) =
        (pre ++ [y]).map some ++ room.drop (pre ++ [y]).length := by
      have hlen : (pre.map some).length = pre.length := List.length_map _
      rw [List.set_append_right _ _ (Nat.le_of_eq hlen), hlen, Nat.sub_self,
        List.drop_eq_getElem_cons (by omega), List.set_cons_zero]
      simp
    have hstore := @store_run α E m b pre.length _ h (by
      simp only [List.length_append, List.length_map, List.length_drop]
      omega) y
    rw [hset] at hstore
    have hlen : pre.length + 1 = (pre ++ [y]).length := by simp
    rw [storeAt, run_bind hstore, hlen, ih, CellStore.write_write, List.append_assoc,
      List.singleton_append, List.length_append, List.length_singleton, List.length_cons,
      Nat.add_assoc, Nat.add_comm 1]
    · exact CellStore.read_write_self h
    · rw [← hlen]
      omega

/-- Values are stored in a block with room for them. -/
theorem store_all {ys : List α} {room : List (Option α)} (h : m.read b = some room)
    (hroom : ys.length ≤ room.length) : (storeAt b ys 0 : MemProg α E Unit).run m =
      (.ok (), m.write b (ys.map some ++ room.drop ys.length)) := by
  have hrun := @storeAt_run α E m b [] ys room (by simpa using h) (by simpa using hroom)
  simpa using hrun

/-! ## Copies -/

/-- One more cell was copied. -/
theorem copied_succ {room : List (Option α)} (hi : i < xs.length) (hroom : i < room.length) :
    ((xs.take i).map some ++ room.drop i).set i (some xs[i]) =
      (xs.take (i + 1)).map some ++ room.drop (i + 1) := by
  have hlen : ((xs.take i).map some).length = i := by
    rw [List.length_map, List.length_take]
    omega
  rw [List.set_append_right _ _ (Nat.le_of_eq hlen), hlen, Nat.sub_self,
    List.drop_eq_getElem_cons hroom, List.set_cons_zero, List.take_succ_eq_append_getElem hi,
    List.map_append, List.append_assoc]
  rfl

/-- The loop of a copy, when the cells in front of `i` are copied already. -/
theorem copyAt_run {dst src : Nat} {room : List (Option α)} (hne : dst ≠ src)
    (hsrc : Holds m src xs) (hdst : m.read dst = some ((xs.take i).map some ++ room.drop i))
    (hlen : i + n ≤ xs.length) (hroom : i + n ≤ room.length) :
    (copyAt dst src n i : MemProg α E Unit).run m =
      (.ok (), m.write dst ((xs.take (i + n)).map some ++ room.drop (i + n))) := by
  induction n generalizing i m with
  | zero =>
    rw [Nat.add_zero, CellStore.write_read hdst]
    rfl
  | succ n ih =>
    have hi : i < xs.length := by omega
    have hcells : ((xs.take i).map some ++ room.drop i).length = room.length := by
      simp only [List.length_append, List.length_map, List.length_take, List.length_drop]
      omega
    have hstore := @store_run α E m dst i _ hdst (by omega) xs[i]
    rw [copied_succ hi (by omega)] at hstore
    rw [copyAt, run_bind (load_run hsrc hi), run_bind hstore, ih, CellStore.write_write,
      Nat.add_assoc, Nat.add_comm 1 n]
    · rw [Holds, CellStore.read_write_of_ne (Ne.symm hne)]
      exact hsrc
    · exact CellStore.read_write_self hdst
    · omega
    · omega

/-- `memcpy` of cells that are there, into a block with room for them. -/
theorem copy_run {dst src : Nat} {room : List (Option α)} (hne : dst ≠ src) (hsrc : Holds m src xs)
    (hdst : m.read dst = some room) (hlen : n ≤ xs.length) (hroom : n ≤ room.length) :
    (copy dst src n : MemProg α E Unit).run m =
      (.ok (), m.write dst ((xs.take n).map some ++ room.drop n)) := by
  have h := @copyAt_run α E m 0 n xs dst src room hne hsrc (by simpa using hdst) (by omega)
    (by omega)
  rwa [Nat.zero_add] at h

/-- `memcpy` of more cells than there are, or than there is room for. -/
theorem copyAt_outOfBounds {dst src : Nat} {room : List (Option α)} (hne : dst ≠ src)
    (hsrc : Holds m src xs) (hdst : m.read dst = some room) (hi : i ≤ xs.length)
    (hi' : i ≤ room.length) (hout : xs.length < i + n ∨ room.length < i + n) :
    ∃ m', (copyAt dst src n i : MemProg α E Unit).run m = (.error .outOfBounds, m') := by
  induction n generalizing i m room with
  | zero => omega
  | succ n ih =>
    rw [copyAt]
    by_cases hload : i < xs.length
    · rw [run_bind (load_run hsrc hload)]
      by_cases hstore : i < room.length
      · rw [run_bind (store_run hdst hstore _)]
        apply ih
        · rw [Holds, CellStore.read_write_of_ne (Ne.symm hne)]
          exact hsrc
        · exact CellStore.read_write_self hdst
        · omega
        · rw [List.length_set]
          omega
        · rw [List.length_set]
          omega
      · exact ⟨m, stop_bind (store_outOfBounds hdst (Nat.not_lt.mp hstore) _)⟩
    · have hcells : (xs.map some).length ≤ i := by
        rw [List.length_map]
        omega
      exact ⟨m, stop_bind (load_outOfBounds hsrc hcells)⟩

theorem copy_outOfBounds {dst src : Nat} {room : List (Option α)} (hne : dst ≠ src)
    (hsrc : Holds m src xs) (hdst : m.read dst = some room)
    (hout : xs.length < n ∨ room.length < n) :
    ∃ m', (copy dst src n : MemProg α E Unit).run m = (.error .outOfBounds, m') :=
  copyAt_outOfBounds hne hsrc hdst (Nat.zero_le _) (Nat.zero_le _) (by omega)

/-! ## What a program spares -/

/-- From `m` on the blocks of `P` stayed as they were; and what was given has the property `Q`. -/
structure Spared (P : Nat → Prop) (m : Blocks α) (r : Except (Stop E) β × Blocks α) (Q : β → Prop) :
    Prop where
  reads : ∀ a, P a → r.2.read a = m.read a
  fresh : m.fresh ≤ r.2.fresh
  gives : ∀ x, r.1 = .ok x → Q x

/-- The program spares the blocks of `P`, from any memory on in which the first `N` blocks were
allocated. -/
def Spares (N : Nat) (P : Nat → Prop) (p : MemProg α E β) (Q : β → Prop) : Prop :=
  ∀ m, N ≤ m.fresh → Spared P m (p.run m) Q

section Spares

variable {N : Nat} {P : Nat → Prop} {Q : β → Prop}

theorem spares_pure {x : β} (h : Q x) : Spares N P (pure x : MemProg α E β) Q :=
  fun _ _ => ⟨fun _ _ => rfl, Nat.le_refl _, fun _ heq => Except.ok.inj heq ▸ h⟩

theorem Spares.bind {p : MemProg α E β} {f : β → MemProg α E γ} {R : γ → Prop} (hp : Spares N P p Q)
    (hf : ∀ x, Q x → Spares N P (f x) R) : Spares N P (p >>= f) R := by
  intro m hN
  have hfirst := hp m hN
  rcases hrun : p.run m with ⟨r, m'⟩
  rw [hrun] at hfirst
  cases r with
  | error e =>
    rw [stop_bind hrun]
    exact ⟨hfirst.reads, hfirst.fresh, fun x heq => by cases heq⟩
  | ok x =>
    rw [run_bind hrun]
    have hsecond := hf x (hfirst.gives x rfl) m' (Nat.le_trans hN hfirst.fresh)
    exact ⟨fun a ha => (hsecond.reads a ha).trans (hfirst.reads a ha),
      Nat.le_trans hfirst.fresh hsecond.fresh, hsecond.gives⟩

theorem spares_throw (e : E) : Spares N P (throw e : MemProg α E β) Q :=
  fun _ _ => ⟨fun _ _ => rfl, Nat.le_refl _, fun _ heq => by cases heq⟩

theorem spares_stop (e : Stop E) : Spares N P (stop e : MemProg α E β) Q :=
  fun _ _ => ⟨fun _ _ => rfl, Nat.le_refl _, fun _ heq => by cases heq⟩

theorem spares_load (b i : Nat) : Spares N P (load b i : MemProg α E α) fun _ => True := by
  intro m _
  have hsame : ((load b i : MemProg α E α).run m).2 = m := by
    simp only [load]
    split
    · rfl
    · split <;> rfl
  exact ⟨fun _ _ => by rw [hsame], Nat.le_of_eq (by rw [hsame]), fun _ _ => trivial⟩

theorem spares_loadAt (b n i : Nat) :
    Spares N P (loadAt b n i : MemProg α E (List α)) fun _ => True := by
  induction n generalizing i with
  | zero => exact spares_pure trivial
  | succ n ih =>
    exact (spares_load b i).bind fun _ _ => (ih (i + 1)).bind fun _ _ => spares_pure trivial

/-- Only the block that is written may be another one than before. -/
theorem spares_store {b : Nat} (hb : ¬ P b) (i : Nat) (x : α) :
    Spares N P (store b i x : MemProg α E Unit) fun _ => True := by
  intro m _
  simp only [store]
  split
  · exact ⟨fun _ _ => rfl, Nat.le_refl _, fun _ _ => trivial⟩
  · split
    · refine ⟨?_, Nat.le_of_eq (CellStore.fresh_write ..).symm, fun _ _ => trivial⟩
      intro a ha
      exact CellStore.read_write_of_ne fun heq => hb (heq ▸ ha)
    · exact ⟨fun _ _ => rfl, Nat.le_refl _, fun _ _ => trivial⟩

/-- A new block is none of the first ones. -/
theorem spares_alloc (hP : ∀ a, P a → a < N) {m : Blocks α} (hN : N ≤ m.fresh)
    (cells : List (Option α)) :
    Spared P m ((.ok m.fresh, m.alloc cells) : Except (Stop E) Nat × Blocks α) fun b => N ≤ b := by
  refine ⟨?_, ?_, fun b heq => Except.ok.inj heq ▸ hN⟩
  · intro a ha
    exact CellStore.read_alloc_of_lt (Nat.lt_of_lt_of_le (hP a ha) hN)
  · show m.fresh ≤ (m.alloc cells).fresh
    rw [CellStore.fresh_alloc]
    exact Nat.le_succ _

theorem spares_allocate (hP : ∀ a, P a → a < N) (n : Nat) :
    Spares N P (allocate n : MemProg α E Nat) fun b => N ≤ b :=
  fun _ hN => spares_alloc hP hN (List.replicate n none)

theorem spares_allocateWith (hP : ∀ a, P a → a < N) (xs : List α) :
    Spares N P (allocateWith xs : MemProg α E Nat) fun b => N ≤ b :=
  fun _ hN => spares_alloc hP hN (xs.map some)

theorem spares_free {b : Nat} (hb : ¬ P b) :
    Spares N P (free b : MemProg α E Unit) fun _ => True := by
  intro m _
  refine ⟨?_, Nat.le_of_eq (CellStore.fresh_free ..).symm, fun _ _ => trivial⟩
  intro a ha
  exact CellStore.read_free_of_ne fun heq => hb (heq ▸ ha)

theorem spares_copy {dst : Nat} (hdst : ¬ P dst) (src n : Nat) :
    Spares N P (copy dst src n : MemProg α E Unit) fun _ => True := by
  have hloop (i : Nat) : Spares N P (copyAt dst src n i : MemProg α E Unit) fun _ => True := by
    induction n generalizing i with
    | zero => exact spares_pure trivial
    | succ n ih =>
      exact (spares_load src i).bind fun x _ => (spares_store hdst i x).bind fun _ _ => ih (i + 1)
  exact hloop 0

end Spares

end MemProg

end StateDb.Lib
