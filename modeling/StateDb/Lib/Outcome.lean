/-
  StateDb/Lib/Outcome.lean
  ==========================
  **Fuelled computations and what they return.**

  A loop or a pointer walk whose termination is not structural is a function of
  a fuel counter.  Its outcome is a value, a fault, or "out of fuel".  `Returns`
  forgets the counter: a computation returns `a` when every large enough fuel
  gives `a`.  The rules below compose `Returns` along `>>=` and along one
  unfolding of a fuelled recursion, so that a specification never mentions a
  numeric bound.
-/

namespace StateDb.Lib

/-- What a fuelled computation ends with. -/
inductive Outcome (F : Type) (α : Type) where
  | ok (a : α)
  | fault (f : F)
  | outOfFuel
deriving Repr, DecidableEq

namespace Outcome

variable {F α β : Type}

def bind (x : Outcome F α) (f : α → Outcome F β) : Outcome F β :=
  match x with
  | .ok a => f a
  | .fault e => .fault e
  | .outOfFuel => .outOfFuel

instance : Monad (Outcome F) where
  pure := .ok
  bind := bind

@[simp] theorem pure_eq (a : α) : (pure a : Outcome F α) = .ok a := rfl

@[simp] theorem ok_bind (a : α) (f : α → Outcome F β) : (Outcome.ok a >>= f) = f a := rfl

@[simp] theorem fault_bind (e : F) (f : α → Outcome F β) :
    (Outcome.fault e >>= f) = .fault e := rfl

@[simp] theorem outOfFuel_bind (f : α → Outcome F β) :
    ((Outcome.outOfFuel : Outcome F α) >>= f) = .outOfFuel := rfl

/-- The only way to a value through a bind. -/
theorem bind_eq_ok {x : Outcome F α} {f : α → Outcome F β} {b : β} :
    (x >>= f) = .ok b ↔ ∃ a, x = .ok a ∧ f a = .ok b := by
  cases x with
  | ok a => simp
  | fault e => simp
  | outOfFuel => simp

end Outcome

variable {F α β : Type}

/-- From some fuel on, the computation ends with the value `a`. -/
def Returns (f : Nat → Outcome F α) (a : α) : Prop :=
  ∃ bound, ∀ fuel, bound ≤ fuel → f fuel = .ok a

/-- From some fuel on, the computation ends with the fault `e`. -/
def Faults (f : Nat → Outcome F α) (e : F) : Prop :=
  ∃ bound, ∀ fuel, bound ≤ fuel → f fuel = .fault e

namespace Returns

theorem const {x : Outcome F α} {a : α} (h : x = .ok a) : Returns (fun _ => x) a :=
  ⟨0, fun _ _ => h⟩

/-- Sequencing: the larger of the two bounds serves both halves. -/
theorem bind {f : Nat → Outcome F α} {g : Nat → α → Outcome F β} {a : α} {b : β}
    (hf : Returns f a) (hg : Returns (fun fuel => g fuel a) b) :
    Returns (fun fuel => f fuel >>= g fuel) b := by
  obtain ⟨m, hm⟩ := hf
  obtain ⟨n, hn⟩ := hg
  refine ⟨max m n, ?_⟩
  intro fuel hfuel
  show (f fuel >>= g fuel) = _
  rw [hm fuel (by omega)]
  exact hn fuel (by omega)

/-- One unfolding of a fuelled recursion. -/
theorem of_succ {f : Nat → Outcome F α} {a : α}
    (h : Returns (fun fuel => f (fuel + 1)) a) : Returns f a := by
  obtain ⟨m, hm⟩ := h
  refine ⟨m + 1, ?_⟩
  intro fuel hfuel
  obtain ⟨k, rfl⟩ : ∃ k, fuel = k + 1 := ⟨fuel - 1, by omega⟩
  exact hm k (by omega)

theorem succ {f : Nat → Outcome F α} {a : α} (h : Returns f a) :
    Returns (fun fuel => f (fuel + 1)) a := by
  obtain ⟨m, hm⟩ := h
  exact ⟨m, fun fuel hfuel => hm (fuel + 1) (by omega)⟩

theorem congr {f g : Nat → Outcome F α} {a : α} (h : Returns f a)
    (hfg : ∀ fuel, g fuel = f fuel) : Returns g a := by
  obtain ⟨m, hm⟩ := h
  exact ⟨m, fun fuel hfuel => (hfg fuel).trans (hm fuel hfuel)⟩

/-- A computation returns at most one value. -/
theorem unique {f : Nat → Outcome F α} {a b : α} (ha : Returns f a) (hb : Returns f b) :
    a = b := by
  obtain ⟨m, hm⟩ := ha
  obtain ⟨n, hn⟩ := hb
  have h := (hm (max m n) (by omega)).symm.trans (hn (max m n) (by omega))
  exact Outcome.ok.inj h

/-- What a sequence returns, its first half having returned `a`. -/
theorem bind_inv {f : Nat → Outcome F α} {g : Nat → α → Outcome F β} {a : α} {b : β}
    (hf : Returns f a) (h : Returns (fun fuel => f fuel >>= g fuel) b) :
    Returns (fun fuel => g fuel a) b := by
  obtain ⟨m, hm⟩ := hf
  obtain ⟨n, hn⟩ := h
  refine ⟨max m n, ?_⟩
  intro fuel hfuel
  have h' := hn fuel (by omega)
  simp only [hm fuel (by omega), Outcome.ok_bind] at h'
  exact h'

end Returns

/-- A faulting computation returns nothing. -/
theorem Faults.not_returns {f : Nat → Outcome F α} {e : F} (h : Faults f e) (a : α) :
    ¬ Returns f a := by
  rintro ⟨n, hn⟩
  obtain ⟨m, hm⟩ := h
  have h' := (hm (max m n) (by omega)).symm.trans (hn (max m n) (by omega))
  cases h'

/-! ## Computations that do not end -/

/-- From some fuel on there is never enough of it. -/
def Starves (f : Nat → Outcome F α) : Prop :=
  ∃ bound, ∀ fuel, bound ≤ fuel → f fuel = .outOfFuel

/-- The computation comes to an end, with a value or a fault. -/
def Ends (f : Nat → Outcome F α) : Prop := (∃ a, Returns f a) ∨ ∃ e, Faults f e

theorem Starves.not_ends {f : Nat → Outcome F α} (h : Starves f) : ¬ Ends f := by
  obtain ⟨m, hm⟩ := h
  rintro (⟨a, n, hn⟩ | ⟨e, n, hn⟩)
  · have h' := (hm (max m n) (by omega)).symm.trans (hn (max m n) (by omega))
    cases h'
  · have h' := (hm (max m n) (by omega)).symm.trans (hn (max m n) (by omega))
    cases h'

/-- With some more fuel, `f` does what `g` does. -/
def Leads (f g : Nat → Outcome F α) : Prop :=
  ∃ more bound, ∀ fuel, bound ≤ fuel → f (fuel + more) = g fuel

namespace Leads

variable {f g : Nat → Outcome F α}

theorem refl (f : Nat → Outcome F α) : Leads f f := ⟨0, 0, fun _ _ => rfl⟩

theorem trans {k : Nat → Outcome F α} (hfg : Leads f g) (hgk : Leads g k) : Leads f k := by
  obtain ⟨x, m, hm⟩ := hfg
  obtain ⟨y, n, hn⟩ := hgk
  refine ⟨y + x, max m n, ?_⟩
  intro fuel hfuel
  rw [← Nat.add_assoc, hm (fuel + y) (by omega), hn fuel (by omega)]

/-- What holds of `g` from some fuel on holds of `f`. -/
theorem eventually {P : Outcome F α → Prop} (h : Leads f g)
    (hg : ∃ bound, ∀ fuel, bound ≤ fuel → P (g fuel)) :
    ∃ bound, ∀ fuel, bound ≤ fuel → P (f fuel) := by
  obtain ⟨x, m, hm⟩ := h
  obtain ⟨n, hn⟩ := hg
  refine ⟨max m n + x, ?_⟩
  intro fuel hfuel
  obtain ⟨k, rfl⟩ : ∃ k, fuel = k + x := ⟨fuel - x, by omega⟩
  rw [hm k (by omega)]
  exact hn k (by omega)

theorem returns {a : α} (h : Leads f g) (hg : Returns g a) : Returns f a :=
  h.eventually (P := (· = .ok a)) hg

theorem faults {e : F} (h : Leads f g) (hg : Faults g e) : Faults f e :=
  h.eventually (P := (· = .fault e)) hg

theorem starves (h : Leads f g) (hg : Starves g) : Starves f :=
  h.eventually (P := (· = .outOfFuel)) hg

theorem of_succ (h : Leads (fun fuel => f (fuel + 1)) g) : Leads f g := by
  obtain ⟨x, m, hm⟩ := h
  exact ⟨x + 1, m, fun fuel hfuel => hm fuel hfuel⟩

end Leads

/-- A sequence whose first half has returned. -/
theorem Returns.leads {f : Nat → Outcome F α} {g : Nat → α → Outcome F β} {a : α}
    (hf : Returns f a) : Leads (fun fuel => f fuel >>= g fuel) (fun fuel => g fuel a) := by
  obtain ⟨m, hm⟩ := hf
  refine ⟨0, m, ?_⟩
  intro fuel hfuel
  show (f fuel >>= g fuel) = _
  rw [hm fuel hfuel, Outcome.ok_bind]

theorem Faults.bind {f : Nat → Outcome F α} {e : F} (hf : Faults f e)
    (g : Nat → α → Outcome F β) : Faults (fun fuel => f fuel >>= g fuel) e := by
  obtain ⟨m, hm⟩ := hf
  refine ⟨m, ?_⟩
  intro fuel hfuel
  show (f fuel >>= g fuel) = _
  rw [hm fuel hfuel, Outcome.fault_bind]

theorem Starves.bind {f : Nat → Outcome F α} (hf : Starves f) (g : Nat → α → Outcome F β) :
    Starves (fun fuel => f fuel >>= g fuel) := by
  obtain ⟨m, hm⟩ := hf
  refine ⟨m, ?_⟩
  intro fuel hfuel
  show (f fuel >>= g fuel) = _
  rw [hm fuel hfuel, Outcome.outOfFuel_bind]

/-! ## Computations that keep their result -/

/-- `x` was cut short, or is `y`. -/
def Outcome.Cut (x y : Outcome F α) : Prop := x = .outOfFuel ∨ x = y

namespace Outcome.Cut

theorem refl (x : Outcome F α) : Cut x x := Or.inr rfl

theorem bind {x y : Outcome F α} {f g : α → Outcome F β} (hxy : Cut x y)
    (hfg : ∀ a, Cut (f a) (g a)) : Cut (x >>= f) (y >>= g) := by
  rcases hxy with rfl | rfl
  · exact Or.inl rfl
  · cases x with
    | ok a => exact hfg a
    | fault e => exact Or.inr rfl
    | outOfFuel => exact Or.inl rfl

theorem ite {c : Prop} [Decidable c] {x x' y y' : Outcome F α} (hx : Cut x x') (hy : Cut y y') :
    Cut (if c then x else y) (if c then x' else y') := by
  by_cases hc : c
  · simpa only [if_pos hc] using hx
  · simpa only [if_neg hc] using hy

end Outcome.Cut

/-- With more fuel the computation keeps its result. -/
def Settles (f : Nat → Outcome F α) : Prop := ∀ fuel, (f fuel).Cut (f (fuel + 1))

namespace Settles

variable {f : Nat → Outcome F α}

theorem of_le (hf : Settles f) {m n : Nat} (hle : m ≤ n) (hm : f m ≠ .outOfFuel) : f n = f m := by
  induction hle with
  | refl => rfl
  | step _ ih =>
    rw [← ih] at hm ⊢
    exact ((hf _).resolve_left hm).symm

theorem returns (hf : Settles f) {fuel : Nat} {a : α} (h : f fuel = .ok a) : Returns f a :=
  ⟨fuel, fun _ hle => (hf.of_le hle (by simp [h])).trans h⟩

theorem faults (hf : Settles f) {fuel : Nat} {e : F} (h : f fuel = .fault e) : Faults f e :=
  ⟨fuel, fun _ hle => (hf.of_le hle (by simp [h])).trans h⟩

theorem ends (hf : Settles f) {fuel : Nat} (h : f fuel ≠ .outOfFuel) : Ends f := by
  cases hrun : f fuel with
  | ok a => exact Or.inl ⟨a, hf.returns hrun⟩
  | fault e => exact Or.inr ⟨e, hf.faults hrun⟩
  | outOfFuel => exact absurd hrun h

end Settles

/-! ## Two computations -/

/-- Both return, and what they return is related, or both end with the same fault, or both run out
of fuel. -/
inductive Outcome.Related {α β : Type} (R : α → β → Prop) : Outcome F α → Outcome F β → Prop
  | ok {a : α} {b : β} : R a b → Related R (.ok a) (.ok b)
  | fault (e : F) : Related R (.fault e) (.fault e)
  | outOfFuel : Related R .outOfFuel .outOfFuel

namespace Outcome.Related

variable {γ δ : Type} {R : α → β → Prop} {S : γ → δ → Prop}

theorem of_eq {x y : Outcome F α} (h : x = y) : Related Eq x y := by
  subst h
  cases x with
  | ok a => exact .ok rfl
  | fault e => exact .fault e
  | outOfFuel => exact .outOfFuel

theorem eq {x y : Outcome F α} (h : Related Eq x y) : x = y := by
  cases h with
  | ok h => rw [h]
  | fault e => rfl
  | outOfFuel => rfl

theorem bind {x : Outcome F α} {y : Outcome F β} {f : α → Outcome F γ} {g : β → Outcome F δ}
    (hxy : Related R x y) (hfg : ∀ a b, R a b → Related S (f a) (g b)) :
    Related S (x >>= f) (y >>= g) := by
  cases hxy with
  | ok h => exact hfg _ _ h
  | fault e => exact .fault e
  | outOfFuel => exact .outOfFuel

/-- What is known of the values may be used. -/
theorem imp {S : α → β → Prop} {x : Outcome F α} {y : Outcome F β} (hxy : Related R x y)
    (himp : ∀ a b, x = .ok a → y = .ok b → R a b → S a b) : Related S x y := by
  cases hxy with
  | ok h => exact .ok (himp _ _ rfl rfl h)
  | fault e => exact .fault e
  | outOfFuel => exact .outOfFuel

/-- The first halves are the same. -/
theorem bind_same {x y : Outcome F α} {f : α → Outcome F γ} {g : α → Outcome F δ} (hxy : x = y)
    (hfg : ∀ a, Related S (f a) (g a)) : Related S (x >>= f) (y >>= g) :=
  (of_eq hxy).bind fun a _ hab => hab ▸ hfg a

theorem ite {c c' : Prop} [Decidable c] [Decidable c'] {x y : Outcome F α} {x' y' : Outcome F β}
    (hc : c ↔ c') (hx : Related R x x') (hy : Related R y y') :
    Related R (if c then x else y) (if c' then x' else y') := by
  by_cases h : c
  · rw [if_pos h, if_pos (hc.mp h)]
    exact hx
  · rw [if_neg h, if_neg (mt hc.mpr h)]
    exact hy

end Outcome.Related

end StateDb.Lib
