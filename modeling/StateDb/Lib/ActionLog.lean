/-
  StateDb/Lib/ActionLog.lean
  ==========================
  **What happened to operations that share a buffer.**

  An operation is submitted, started and completed, in a log of these actions; a started
  operation has a number.  A log is exclusive if nothing is started, and the buffer is
  not used, while an operation that was started is not completed.  `Accounts` says where
  each submitted operation is: it was started, and is completed or outstanding, or it
  waits.
-/
import Mathlib.Data.List.Perm.Basic
import Mathlib.Data.List.Range

namespace StateDb.Lib

inductive Action (O : Type) where
  | submitted (op : O)
  /-- The buffer is allocated, written or cleared. -/
  | usesBuffer
  | started (number : Nat) (op : O)
  | completed (number : Nat) (op : O)

namespace Action

variable {O : Type}

def submissions (log : List (Action O)) : List O :=
  log.filterMap fun
    | .submitted op => some op
    | _ => none

def starts (log : List (Action O)) : List (Nat × O) :=
  log.filterMap fun
    | .started number op => some (number, op)
    | _ => none

def completions (log : List (Action O)) : List (Nat × O) :=
  log.filterMap fun
    | .completed number op => some (number, op)
    | _ => none

/-- What an action makes of the operations that are outstanding. -/
def advance (out : List (Nat × O)) : Action O → List (Nat × O)
  | .started number op => out ++ [(number, op)]
  | .completed number _ => out.filter fun o => o.1 ≠ number
  | _ => out

/-- The operations that were started and are not completed. -/
def outstanding (log : List (Action O)) : List (Nat × O) := log.foldl advance []

/-- The action needs the buffer for itself. -/
def claims : Action O → Bool
  | .usesBuffer | .started _ _ => true
  | _ => false

/-- The buffer is not used while an operation is outstanding. -/
def Exclusive (log : List (Action O)) : Prop :=
  ∀ before a after, log = before ++ a :: after → a.claims = true → outstanding before = []

theorem submissions_append (log log' : List (Action O)) :
    submissions (log ++ log') = submissions log ++ submissions log' := List.filterMap_append

theorem starts_append (log log' : List (Action O)) :
    starts (log ++ log') = starts log ++ starts log' := List.filterMap_append

theorem completions_append (log log' : List (Action O)) :
    completions (log ++ log') = completions log ++ completions log' := List.filterMap_append

theorem outstanding_append (log log' : List (Action O)) :
    outstanding (log ++ log') = log'.foldl advance (outstanding log) := List.foldl_append

theorem exclusive_nil : Exclusive ([] : List (Action O)) := by
  intro before a after heq
  exact absurd heq (by simp)

theorem Exclusive.concat {log : List (Action O)} (h : Exclusive log) {a : Action O}
    (ha : a.claims = true → outstanding log = []) : Exclusive (log ++ [a]) := by
  intro before a' after heq hclaims
  rcases List.eq_nil_or_concat after with rfl | ⟨after, last, rfl⟩
  · obtain ⟨rfl, hlast⟩ := List.append_inj' heq rfl
    obtain rfl := List.singleton_inj.mp hlast
    exact ha hclaims
  · rw [List.concat_eq_append, ← List.cons_append, ← List.append_assoc] at heq
    obtain ⟨hlog, -⟩ := List.append_inj' heq rfl
    exact h before a' after hlog hclaims

/-! ## Accounts -/

/-- Every submitted operation was started, or waits; what was started has its own number,
and is completed or outstanding.  `norm` forgets what waiting changes of an operation. -/
structure Accounts (norm : O → O) (log : List (Action O)) (out : List (Nat × O))
    (waiting : List O) (count : Nat) : Prop where
  exclusive : Exclusive log
  outstanding_eq : outstanding log = out
  numbers : (starts log).map Prod.fst = List.range count
  places : starts log = completions log ++ out
  conserved : ((submissions log).map norm).Perm (((starts log).map Prod.snd ++ waiting).map norm)

namespace Accounts

variable {norm : O → O} {log : List (Action O)} {out : List (Nat × O)} {waiting : List O}
  {count : Nat}

theorem nil (norm : O → O) : Accounts norm [] [] [] 0 := by
  constructor
  · exact exclusive_nil
  · rfl
  · rfl
  · rfl
  · exact .refl _

/-- The buffer is used. -/
theorem use (h : Accounts norm log [] waiting count) :
    Accounts norm (log ++ [.usesBuffer]) [] waiting count where
  exclusive := h.exclusive.concat fun _ => h.outstanding_eq
  outstanding_eq := (outstanding_append log _).trans h.outstanding_eq
  numbers := by rw [starts_append]; simpa [starts] using h.numbers
  places := by rw [starts_append, completions_append]; simpa [starts, completions] using h.places
  conserved := by
    rw [submissions_append, starts_append]
    simpa [starts, submissions] using h.conserved

/-- An operation is submitted, and waits. -/
theorem queue (h : Accounts norm log out waiting count) {op op' : O} (hop : norm op' = norm op) :
    Accounts norm (log ++ [.submitted op]) out (waiting ++ [op']) count where
  exclusive := h.exclusive.concat fun hclaims => absurd hclaims Bool.false_ne_true
  outstanding_eq := (outstanding_append log _).trans h.outstanding_eq
  numbers := by rw [starts_append]; simpa [starts] using h.numbers
  places := by rw [starts_append, completions_append]; simpa [starts, completions] using h.places
  conserved := by
    rw [submissions_append, starts_append]
    have hmore := h.conserved.append_right [norm op]
    simpa [starts, submissions, hop] using hmore

/-- An operation that waits takes the buffer and is started. -/
theorem start {op : O} (h : Accounts norm log [] (op :: waiting) count) :
    Accounts norm (log ++ [.usesBuffer, .started count op]) [(count, op)] waiting (count + 1) where
  exclusive := by
    have huse := h.use
    have hstart := huse.exclusive.concat (a := .started count op) fun _ => huse.outstanding_eq
    simpa using hstart
  outstanding_eq := by
    rw [outstanding_append, h.outstanding_eq]
    rfl
  numbers := by
    rw [starts_append, List.map_append, h.numbers, List.range_succ]
    rfl
  places := by
    rw [starts_append, completions_append, h.places]
    simp [starts, completions]
  conserved := by
    rw [submissions_append, starts_append]
    simpa [starts, submissions] using h.conserved

/-- An operation that waits goes to the end of the queue. -/
theorem rotate {op op' : O} (h : Accounts norm log out (op :: waiting) count)
    (hop : norm op' = norm op) : Accounts norm log out (waiting ++ [op']) count where
  exclusive := h.exclusive
  outstanding_eq := h.outstanding_eq
  numbers := h.numbers
  places := h.places
  conserved := by
    apply h.conserved.trans
    simp only [List.map_append, List.map_cons, hop, List.map_nil]
    exact (List.perm_append_singleton (norm op) _).symm.append_left _

/-- An operation is submitted, and the buffer is free. -/
theorem submit (h : Accounts norm log [] waiting count) (op : O) :
    Accounts norm (log ++ [.submitted op, .usesBuffer, .started count op]) [(count, op)] waiting
      (count + 1) := by
  have hqueue : Accounts norm (log ++ [.submitted op]) [] (op :: waiting) count := by
    obtain ⟨hexclusive, hout, hnumbers, hplaces, hconserved⟩ := h.queue (@rfl _ (norm op))
    refine ⟨hexclusive, hout, hnumbers, hplaces, hconserved.trans ?_⟩
    simp only [List.map_append, List.map_cons, List.map_nil]
    exact (List.perm_append_singleton (norm op) _).append_left _
  simpa using hqueue.start

/-- The operation that is outstanding is completed. -/
theorem complete {number : Nat} {op : O} (h : Accounts norm log [(number, op)] waiting count) :
    Accounts norm (log ++ [.completed number op]) [] waiting count where
  exclusive := h.exclusive.concat fun hclaims => absurd hclaims Bool.false_ne_true
  outstanding_eq := by
    rw [outstanding_append, h.outstanding_eq]
    simp [advance]
  numbers := by rw [starts_append]; simpa [starts] using h.numbers
  places := by
    rw [starts_append, completions_append, h.places]
    simp [starts, completions]
  conserved := by
    rw [submissions_append, starts_append]
    simpa [starts, submissions] using h.conserved

end Accounts

end Action

end StateDb.Lib
