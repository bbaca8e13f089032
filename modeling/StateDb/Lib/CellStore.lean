/-
  StateDb/Lib/CellStore.lean
  ============================
  **A store of allocated cells.**

  Addresses are handed out in order and never reused.  A freed cell stays
  allocated as an address and reads as nothing, so a dangling pointer is seen as
  such.
-/
import Mathlib.Data.List.Forall2
import Mathlib.Tactic.ByContra

namespace StateDb.Lib

structure CellStore (α : Type) where
  cells : List (Option α) := []
deriving Repr, DecidableEq

namespace CellStore

variable {α : Type}

def empty : CellStore α := ⟨[]⟩

/-- What lies at an address, if it is allocated and not freed. -/
def read (s : CellStore α) (a : Nat) : Option α := (s.cells[a]?).join

/-- The address the next allocation gives. -/
def fresh (s : CellStore α) : Nat := s.cells.length

def alloc (s : CellStore α) (x : α) : CellStore α := ⟨s.cells ++ [some x]⟩

def write (s : CellStore α) (a : Nat) (x : α) : CellStore α := ⟨s.cells.set a (some x)⟩

def free (s : CellStore α) (a : Nat) : CellStore α := ⟨s.cells.set a none⟩

theorem lt_fresh_of_read {s : CellStore α} {a : Nat} {x : α} (h : s.read a = some x) :
    a < s.fresh := by
  by_contra hge
  have hnone : s.cells[a]? = none := List.getElem?_eq_none (by simpa [fresh] using hge)
  simp [read, hnone] at h

@[simp] theorem fresh_alloc (s : CellStore α) (x : α) : (s.alloc x).fresh = s.fresh + 1 := by
  simp [fresh, alloc]

@[simp] theorem fresh_write (s : CellStore α) (a : Nat) (x : α) :
    (s.write a x).fresh = s.fresh := by
  simp [fresh, write]

@[simp] theorem read_alloc_self (s : CellStore α) (x : α) :
    (s.alloc x).read s.fresh = some x := by
  simp [read, alloc, fresh]

theorem read_alloc_of_ne {s : CellStore α} {x : α} {a : Nat} (h : a ≠ s.fresh) :
    (s.alloc x).read a = s.read a := by
  unfold read alloc
  by_cases hlt : a < s.cells.length
  · rw [List.getElem?_append_left hlt]
  · have hgt : s.cells.length < a := by
      have hne : a ≠ s.cells.length := h
      omega
    rw [List.getElem?_eq_none (by simp; omega), List.getElem?_eq_none (by omega)]

theorem read_fresh (s : CellStore α) : s.read s.fresh = none := by
  rw [read, fresh, List.getElem?_eq_none (Nat.le_refl _)]
  rfl

theorem read_alloc_of_lt {s : CellStore α} {x : α} {a : Nat} (h : a < s.fresh) :
    (s.alloc x).read a = s.read a :=
  read_alloc_of_ne (Nat.ne_of_lt h)

theorem read_write_self {s : CellStore α} {a : Nat} {x y : α} (h : s.read a = some y) :
    (s.write a x).read a = some x := by
  have hlt := lt_fresh_of_read h
  simp only [fresh] at hlt
  simp [read, write, hlt]

theorem read_write_of_ne {s : CellStore α} {a b : Nat} {x : α} (h : b ≠ a) :
    (s.write a x).read b = s.read b := by
  simp [read, write, Ne.symm h]

/-- What is read after an allocation was allocated or was there. -/
theorem read_alloc_cases {s : CellStore α} {a : Nat} {x y : α} (h : (s.alloc x).read a = some y) :
    a = s.fresh ∧ y = x ∨ s.read a = some y := by
  by_cases ha : a = s.fresh
  · rw [ha, read_alloc_self] at h
    exact Or.inl ⟨ha, (Option.some.inj h).symm⟩
  · rw [read_alloc_of_ne ha] at h
    exact Or.inr h

/-- What is read after a write was written or was there. -/
theorem read_write_cases {s : CellStore α} {a b : Nat} {x y : α}
    (h : (s.write a x).read b = some y) :
    b = a ∧ y = x ∨ b ≠ a ∧ s.read b = some y := by
  by_cases hb : b = a
  · subst hb
    have hlt : b < s.cells.length := by
      have hlt := lt_fresh_of_read h
      rwa [fresh_write] at hlt
    have hself : (s.write b x).read b = some x := by simp [read, CellStore.write, hlt]
    rw [hself] at h
    exact Or.inl ⟨rfl, (Option.some.inj h).symm⟩
  · rw [read_write_of_ne hb] at h
    exact Or.inr ⟨hb, h⟩

/-- What lies there already is written. -/
theorem write_read {s : CellStore α} {a : Nat} {x : α} (h : s.read a = some x) :
    s.write a x = s := by
  have hcell : s.cells[a]? = some (some x) := Option.join_eq_some_iff.mp h
  obtain ⟨hlt, hcell⟩ := List.getElem?_eq_some_iff.mp hcell
  rw [write, ← hcell, List.set_getElem_self]

theorem write_write (s : CellStore α) (a : Nat) (x y : α) :
    (s.write a x).write a y = s.write a y := by
  rw [write, write, write, List.set_set]

@[simp] theorem read_free_self (s : CellStore α) (a : Nat) : (s.free a).read a = none := by
  unfold read free
  by_cases hlt : a < s.cells.length
  · simp [hlt]
  · rw [List.getElem?_eq_none (by simpa using hlt)]
    rfl

theorem read_free_of_ne {s : CellStore α} {a b : Nat} (h : b ≠ a) :
    (s.free a).read b = s.read b := by
  simp [read, free, Ne.symm h]

@[simp] theorem fresh_free (s : CellStore α) (a : Nat) : (s.free a).fresh = s.fresh := by
  simp [fresh, free]

/-! ## Counting -/

/-- How many cells are allocated and not freed. -/
def live (s : CellStore α) : Nat := s.cells.countP Option.isSome

theorem live_write {s : CellStore α} {a : Nat} {y : α} (h : s.read a = some y) (x : α) :
    (s.write a x).live = s.live := by
  obtain ⟨hlt, hcell⟩ := List.getElem?_eq_some_iff.mp (Option.join_eq_some_iff.mp h)
  have hpos : 0 < s.cells.countP Option.isSome :=
    List.countP_pos_iff.mpr ⟨some y, hcell ▸ List.getElem_mem hlt, rfl⟩
  simp only [live, write, List.countP_set, hlt, hcell, Option.isSome_some, if_true]
  omega

theorem live_alloc (s : CellStore α) (x : α) : (s.alloc x).live = s.live + 1 := by
  simp [live, alloc, List.countP_append]

theorem live_free_add_one {s : CellStore α} {a : Nat} {y : α} (h : s.read a = some y) :
    (s.free a).live + 1 = s.live := by
  obtain ⟨hlt, hcell⟩ := List.getElem?_eq_some_iff.mp (Option.join_eq_some_iff.mp h)
  have hpos : 0 < s.cells.countP Option.isSome :=
    List.countP_pos_iff.mpr ⟨some y, hcell ▸ List.getElem_mem hlt, rfl⟩
  simp only [live, free, List.countP_set, hlt, hcell, Option.isSome_some, if_true,
    Option.isSome_none]
  simp only [Bool.false_eq_true, if_false]
  omega

theorem live_free {s : CellStore α} {a : Nat} {y : α} (h : s.read a = some y) :
    (s.free a).live < s.live := by
  have hfree := live_free_add_one h
  omega

/-! ## What holds of every cell -/

/-- Every cell has the property, which may depend on its address. -/
def Every (P : Nat → α → Prop) (s : CellStore α) : Prop := ∀ a x, s.read a = some x → P a x

namespace Every

variable {P P' : Nat → α → Prop} {s : CellStore α}

theorem mono (h : s.Every P) (hP : ∀ a x, P a x → P' a x) : s.Every P' :=
  fun a x hx => hP a x (h a x hx)

theorem alloc (h : s.Every P) {x : α} (hx : P s.fresh x) : (s.alloc x).Every P := by
  intro a y hy
  rcases read_alloc_cases hy with ⟨rfl, rfl⟩ | hy
  · exact hx
  · exact h a y hy

/-- Only the cell that is written may have another property than before. -/
theorem write (h : s.Every P) {a : Nat} {x : α} (hother : ∀ b y, b ≠ a → P b y → P' b y)
    (hx : P' a x) : (s.write a x).Every P' := by
  intro b y hy
  rcases read_write_cases hy with ⟨rfl, rfl⟩ | ⟨hb, hy⟩
  · exact hx
  · exact hother b y hb (h b y hy)

theorem free (h : s.Every P) (a : Nat) : (s.free a).Every P := by
  intro b y hy
  by_cases hb : b = a
  · subst hb
    rw [read_free_self] at hy
    cases hy
  · rw [read_free_of_ne hb] at hy
    exact h b y hy

end Every

/-! ## Two stores -/

/-- The same addresses are allocated and freed, and the cells are related. -/
def Alike (R : α → α → Prop) (s s' : CellStore α) : Prop :=
  List.Forall₂ (Option.Rel R) s.cells s'.cells

namespace Alike

variable {R : α → α → Prop} {s s' : CellStore α}

theorem refl (hR : ∀ x, R x x) (s : CellStore α) : s.Alike R s := by
  refine List.forall₂_same.mpr fun c _ => ?_
  cases c with
  | none => exact .none
  | some x => exact .some (hR x)

theorem fresh (h : s.Alike R s') : s.fresh = s'.fresh := h.length_eq

theorem read (h : s.Alike R s') (a : Nat) : Option.Rel R (s.read a) (s'.read a) := by
  have hlen := h.length_eq
  unfold CellStore.read
  by_cases ha : a < s.cells.length
  · rw [List.getElem?_eq_getElem ha, List.getElem?_eq_getElem (hlen ▸ ha)]
    exact List.Forall₂.get h ha (hlen ▸ ha)
  · have hge : s.cells.length ≤ a := Nat.le_of_not_lt ha
    rw [List.getElem?_eq_none hge, List.getElem?_eq_none (hlen ▸ hge)]
    exact .none

theorem alloc (h : s.Alike R s') {x x' : α} (hx : R x x') : (s.alloc x).Alike R (s'.alloc x') :=
  List.rel_append h (.cons (.some hx) .nil)

theorem set {c c' : Option α} {cells cells' : List (Option α)}
    (h : List.Forall₂ (Option.Rel R) cells cells') (hc : Option.Rel R c c') (a : Nat) :
    List.Forall₂ (Option.Rel R) (cells.set a c) (cells'.set a c') := by
  induction h generalizing a with
  | nil => exact .nil
  | cons hhead htail ih =>
    cases a with
    | zero => exact .cons hc htail
    | succ a => exact .cons hhead (ih a)

theorem write (h : s.Alike R s') {x x' : α} (hx : R x x') (a : Nat) :
    (s.write a x).Alike R (s'.write a x') := set h (.some hx) a

theorem free (h : s.Alike R s') (a : Nat) : (s.free a).Alike R (s'.free a) := set h .none a

/-- A cell that is freed at once may have been any. -/
theorem allocFree (h : s.Alike R s') (x x' : α) :
    ((s.alloc x).free s.fresh).Alike R ((s'.alloc x').free s'.fresh) := by
  have hcells (s : CellStore α) (x : α) : ((s.alloc x).free s.fresh).cells = s.cells ++ [none] := by
    simp [CellStore.alloc, CellStore.free, CellStore.fresh]
  rw [Alike, hcells, hcells]
  exact List.rel_append h (.cons .none .nil)

end Alike

end CellStore

end StateDb.Lib
