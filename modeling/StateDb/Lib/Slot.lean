/-
  StateDb/Lib/Slot.lean
  =======================
  **One operation at a time, and a queue of those that wait.**

  An operation that is submitted takes the slot when the slot is free, and waits at
  the end of the queue otherwise.  When the operation in the slot completes, its
  completion handler runs with the slot free, and may submit operations itself; then
  the first operation of the queue is submitted again.  If the handler took the slot,
  that operation goes to the end of the queue, and the order of the queue is lost.
-/
import Mathlib.Data.List.Rotate

namespace StateDb.Lib

structure Slot (α : Type) where
  current : Option α := none
  pending : List α := []

namespace Slot

variable {α : Type}

def submit (s : Slot α) (a : α) : Slot α :=
  match s.current with
  | none => { s with current := some a }
  | some _ => { s with pending := s.pending ++ [a] }

def submitAll (s : Slot α) (as : List α) : Slot α := as.foldl submit s

/-- The first operation of the queue is submitted again. -/
def advance (s : Slot α) : Slot α :=
  match s.pending with
  | [] => s
  | a :: rest => submit { s with pending := rest } a

/-- The operation in the slot completes, and its handler submits `next`. -/
def complete (s : Slot α) (next : List α) : Slot α :=
  advance (submitAll { s with current := none } next)

@[simp] theorem submit_free (pending : List α) (a : α) :
    submit ⟨none, pending⟩ a = ⟨some a, pending⟩ := rfl

@[simp] theorem submit_taken (a₀ : α) (pending : List α) (a : α) :
    submit ⟨some a₀, pending⟩ a = ⟨some a₀, pending ++ [a]⟩ := rfl

@[simp] theorem submitAll_nil (s : Slot α) : s.submitAll [] = s := rfl

@[simp] theorem submitAll_cons (s : Slot α) (a : α) (as : List α) :
    s.submitAll (a :: as) = (s.submit a).submitAll as := rfl

@[simp] theorem advance_nil (current : Option α) : advance ⟨current, []⟩ = ⟨current, []⟩ := rfl

@[simp] theorem advance_free (a : α) (rest : List α) :
    advance ⟨none, a :: rest⟩ = ⟨some a, rest⟩ := rfl

@[simp] theorem advance_taken (a₀ a : α) (rest : List α) :
    advance ⟨some a₀, a :: rest⟩ = ⟨some a₀, rest ++ [a]⟩ := rfl

theorem submitAll_taken (a₀ : α) (pending as : List α) :
    submitAll ⟨some a₀, pending⟩ as = ⟨some a₀, pending ++ as⟩ := by
  induction as generalizing pending with
  | nil => rw [submitAll_nil, List.append_nil]
  | cons a as ih =>
    rw [submitAll_cons, submit_taken, ih, List.append_assoc]
    rfl

theorem advance_rotate (a₀ : α) (pending : List α) :
    advance ⟨some a₀, pending⟩ = ⟨some a₀, pending.rotate 1⟩ := by
  cases pending with
  | nil => rfl
  | cons a rest => simp

/-- The rotation of a queue keeps the order of a kind of operations, if the first one is
not followed by another of its kind. -/
theorem filter_rotate {p : α → Bool} {pending : List α}
    (h : ∀ a ∈ pending.head?, p a → ∀ b ∈ pending.tail, ¬ p b) :
    (pending.rotate 1).filter p = pending.filter p := by
  cases pending with
  | nil => rfl
  | cons a rest =>
    rw [List.rotate_cons_succ, List.rotate_zero, List.filter_append]
    by_cases hp : p a
    · have hnone : rest.filter p = [] := by
        rw [List.filter_eq_nil_iff]
        exact h a rfl hp
      rw [hnone, List.filter_cons_of_pos hp, List.filter_cons_of_pos hp, hnone]
      rfl
    · rw [List.filter_cons_of_neg hp, List.filter_cons_of_neg hp, List.filter_nil, List.append_nil]

/-- A handler that submits nothing lets the queue move on. -/
theorem complete_quiet (current : Option α) (pending : List α) :
    complete ⟨current, pending⟩ [] = ⟨pending.head?, pending.tail⟩ := by
  cases pending <;> rfl

/-- A handler that submits something takes the slot, and the queue is rotated. -/
theorem complete_handoff (current : Option α) (pending : List α) (a : α) (as : List α) :
    complete ⟨current, pending⟩ (a :: as) = ⟨some a, (pending ++ as).rotate 1⟩ := by
  rw [complete, submitAll_cons, submit_free, submitAll_taken, advance_rotate]

end Slot

end StateDb.Lib
