/-
  StateDb/Lib/Program.lean
  ========================
  **Programs with a state that may throw.**

  A program comes to its end with a value, or throws, or does what has no meaning, which is
  a fault.  What it did to the state until it threw stays done; a fault leaves no state.

  The rules run a program from its first step on: `simp` applies them.
-/

namespace StateDb.Lib

/-- How a program ends. -/
inductive Ending (S F E α : Type) where
  | value (a : α) (s : S)
  | threw (e : E) (s : S)
  | fault (f : F)

namespace Ending

variable {S F E α β : Type}

def andThen (x : Ending S F E α) (f : α → S → Ending S F E β) : Ending S F E β :=
  match x with
  | .value a s => f a s
  | .threw e s => .threw e s
  | .fault e => .fault e

@[simp] theorem value_andThen (a : α) (s : S) (f : α → S → Ending S F E β) :
    (value a s : Ending S F E α).andThen f = f a s := rfl

@[simp] theorem threw_andThen (e : E) (s : S) (f : α → S → Ending S F E β) :
    (threw e s : Ending S F E α).andThen f = .threw e s := rfl

@[simp] theorem fault_andThen (e : F) (f : α → S → Ending S F E β) :
    (fault e : Ending S F E α).andThen f = .fault e := rfl

/-- The state that a caller finds who catches what is thrown. -/
def caught : Ending S F E α → Option S
  | .value _ s => some s
  | .threw _ s => some s
  | .fault _ => none

end Ending

structure Program (S F E α : Type) where
  run : S → Ending S F E α

namespace Program

variable {S F E α β : Type}

instance : Monad (Program S F E) where
  pure a := ⟨fun s => .value a s⟩
  bind p f := ⟨fun s => (p.run s).andThen fun a s' => (f a).run s'⟩

def get : Program S F E S := ⟨fun s => .value s s⟩

def modify (f : S → S) : Program S F E Unit := ⟨fun s => .value () (f s)⟩

def throw (e : E) : Program S F E α := ⟨fun s => .threw e s⟩

def stop (e : F) : Program S F E α := ⟨fun _ => .fault e⟩

@[simp] theorem run_pure (a : α) (s : S) : (pure a : Program S F E α).run s = .value a s := rfl

@[simp] theorem run_bind (p : Program S F E α) (f : α → Program S F E β) (s : S) :
    (p >>= f).run s = (p.run s).andThen fun a s' => (f a).run s' := rfl

@[simp] theorem run_get (s : S) : (get : Program S F E S).run s = .value s s := rfl

@[simp] theorem run_modify (f : S → S) (s : S) :
    (modify f : Program S F E Unit).run s = .value () (f s) := rfl

@[simp] theorem run_throw (e : E) (s : S) : (throw e : Program S F E α).run s = .threw e s := rfl

@[simp] theorem run_stop (e : F) (s : S) : (stop e : Program S F E α).run s = .fault e := rfl

end Program

end StateDb.Lib
