/-
  StateDb/BptFuel.lean
  ====================
  **Fuel only cuts short.**

  The pointer walks of the tree take fuel.  A walk that has come to a result with some fuel comes
  to the same with more (`Tree.calls_settles`), so that a run may be evaluated with any
  fuel that is enough.
-/
import StateDb.BptDelete

namespace StateDb.Bpt

open Lib

variable {K V : Type} [LinearOrder K]

/-! ## Searching -/

theorem getChildLnGe_settles (h : Heap K V) (node : Nat) (key : K) :
    Settles (fun fuel => getChildLnGe fuel h node key) := by
  intro fuel
  induction fuel generalizing node with
  | zero => exact Or.inl rfl
  | succ fuel ih =>
    simp only [getChildLnGe]
    refine .bind (.refl _) fun n => ?_
    cases n.mNext with
    | none => exact .refl _
    | some next => exact .bind (.refl _) fun m => .ite (.refl _) (ih next)

theorem getChildGe_settles (h : Heap K V) (this : Nat) (key : K) :
    Settles (fun fuel => getChildGe fuel h this key) := by
  intro fuel
  simp only [getChildGe]
  exact .bind (.refl _) fun n => .bind (.refl _) fun root => .bind (.refl _) fun r =>
    .ite (.refl _) (.bind (getChildLnGe_settles h root key fuel) fun _ => .refl _)

theorem findLeaf_settles (h : Heap K V) (this : Nat) (key : K) :
    Settles (fun fuel => findLeaf fuel h this key) := by
  intro fuel
  induction fuel generalizing this with
  | zero => exact Or.inl rfl
  | succ fuel ih =>
    simp only [findLeaf]
    refine .bind (getChildGe_settles h this key fuel) fun child => .bind (.refl _) fun leaf => ?_
    cases leaf with
    | true => exact .refl _
    | false => exact ih child

/-! ## `set` -/

theorem insertNode_settles (h : Heap K V) (this : Nat) (key : K) (first after : Nat) :
    Settles (fun fuel => insertNode fuel h this key first after) := by
  intro fuel
  simp only [insertNode]
  exact .bind (.refl _) fun n => .bind (.refl _) fun root => .bind (.refl _) fun r =>
    .ite (.refl _) (.bind (getChildLnGe_settles h root key fuel) fun _ => .refl _)

theorem insertLeaf_settles (h : Heap K V) (this l : Nat) :
    Settles (fun fuel => insertLeaf fuel h this l) := by
  intro fuel
  exact .bind (.refl _) fun key => insertNode_settles h this key l l fuel

theorem insertInternal_settles (h : Heap K V) (this iN : Nat) :
    Settles (fun fuel => insertInternal fuel h this iN) := by
  intro fuel
  exact .bind (.refl _) fun key => .bind (.refl _) fun n => .bind (.refl _) fun root =>
    .bind (.refl _) fun r => insertNode_settles h this key iN r.val fuel

theorem internalSet_settles (cfg : Config) (h : Heap K V) (this : Nat) (key : K) (val : V) :
    Settles (fun fuel => internalSet cfg fuel h this key val) := by
  intro fuel
  induction fuel generalizing h this with
  | zero => exact Or.inl rfl
  | succ fuel ih =>
    simp only [internalSet_succ]
    refine .bind (getChildGe_settles h this key fuel) fun child => .bind (.refl _) fun leaf =>
      .bind ?_ fun _ => .refl _
    cases leaf with
    | true =>
      refine .bind (.refl _) fun r => ?_
      cases r.2 with
      | none => exact .refl _
      | some newLeaf => exact insertLeaf_settles r.1 this newLeaf fuel
    | false =>
      refine .bind (ih h child) fun r => ?_
      cases r.2 with
      | none => exact .refl _
      | some newInternal => exact insertInternal_settles r.1 this newInternal fuel

/-! ## `delete_key` -/

theorem deleteChildLoop_settles (h : Heap K V) (lN : Nat) (key : K) :
    Settles (fun fuel => deleteChildLoop fuel h lN key) := by
  intro fuel
  induction fuel generalizing h with
  | zero => exact Or.inl rfl
  | succ fuel ih =>
    simp only [deleteChildLoop]
    refine .bind (.refl _) fun l => ?_
    cases l.mNext with
    | none => exact .refl _
    | some next => exact .bind (.refl _) fun n => .ite (ih _) (ih h)

theorem deleteChild_settles (h : Heap K V) (this : Nat) (key : K) :
    Settles (fun fuel => deleteChild fuel h this key) := by
  intro fuel
  exact .bind (.refl _) fun n => .bind (.refl _) fun lN => .bind (.refl _) fun l =>
    .ite (.refl _) (deleteChildLoop_settles h lN key fuel)

theorem baseDeleteKey_settles (h : Heap K V) (this : Nat) (key : K) :
    Settles (fun fuel => baseDeleteKey fuel h this key) := by
  intro fuel
  induction fuel generalizing this with
  | zero => exact Or.inl rfl
  | succ fuel ih =>
    simp only [baseDeleteKey]
    exact .bind (.refl _) fun leaf => .ite (.refl _)
      (.bind (getChildGe_settles h this key fuel) fun child => .bind (ih child) fun r =>
        .ite (.bind (.refl _) fun size => .ite (.bind (.refl _) fun n => .ite (.refl _)
          (.bind (deleteChild_settles r.1 this key fuel) fun _ => .refl _)) (.refl _)) (.refl _))

/-! ## Trees -/

theorem Tree.set_settles (cfg : Config) (t : Tree K V) (key : K) (val : V) :
    Settles (fun fuel => t.set cfg fuel key val) := by
  intro fuel
  simp only [Tree.set]
  cases t.mRoot with
  | none => exact .refl _
  | some root => exact .bind (internalSet_settles cfg t.heap root key val fuel) fun _ => .refl _

theorem Tree.deleteKey_settles (t : Tree K V) (key : K) :
    Settles (fun fuel => t.deleteKey fuel key) := by
  intro fuel
  simp only [Tree.deleteKey]
  cases t.mRoot with
  | none => exact .refl _
  | some root => exact .bind (baseDeleteKey_settles t.heap root key fuel) fun _ => .refl _

/-- With more fuel a run of calls keeps its result. -/
theorem Tree.calls_settles (cfg : Config) (cs : List (Call K V)) (t : Tree K V) :
    Settles (fun fuel => Tree.calls cfg fuel cs t) := by
  intro fuel
  induction cs generalizing t with
  | nil => exact .refl _
  | cons c cs ih =>
    refine .bind ?_ fun t' => ih t'
    cases c with
    | set key val => exact Tree.set_settles cfg t key val fuel
    | delete key => exact .bind (Tree.deleteKey_settles t key fuel) fun _ => .refl _

end StateDb.Bpt
