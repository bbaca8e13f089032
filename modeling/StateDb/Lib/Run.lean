/-
  StateDb/Lib/Run.lean
  ====================
  **Runs of a state machine.**

  A step may be impossible, and then so is the run.  A condition on the steps of a run
  is a condition on the state before each step and on its event; what every step that
  meets the condition preserves holds after every run that meets it (`run_invariant`).
  `Reaches` puts such runs one after the other.
-/
import Mathlib.Data.List.Basic

namespace StateDb.Lib

variable {S E : Type}

def run (step : S → E → Option S) (s : S) (es : List E) : Option S := es.foldlM step s

/-- Every step of the run meets the condition. -/
def Along (step : S → E → Option S) (cond : S → E → Prop) : S → List E → Prop
  | _, [] => True
  | s, e :: es => cond s e ∧ ∀ s', step s e = some s' → Along step cond s' es

variable {step : S → E → Option S} {cond : S → E → Prop}

theorem along_cons_iff {s : S} {e : E} {es : List E} : Along step cond s (e :: es) ↔
    cond s e ∧ (step s e).elim True fun s' => Along step cond s' es := by
  cases hstep : step s e <;> simp [Along, hstep]

instance Along.decidable [∀ s e, Decidable (cond s e)] (s : S) (es : List E) :
    Decidable (Along step cond s es) :=
  match es with
  | [] => .isTrue trivial
  | e :: es =>
    have : Decidable ((step s e).elim True fun s' => Along step cond s' es) :=
      match step s e with
      | none => .isTrue trivial
      | some s' => Along.decidable s' es
    decidable_of_iff _ along_cons_iff.symm

@[simp] theorem run_nil (s : S) : run step s [] = some s := rfl

theorem run_cons (s : S) (e : E) (es : List E) :
    run step s (e :: es) = (step s e).bind fun s' => run step s' es := by
  rw [run, List.foldlM_cons]
  rfl

theorem run_cons_eq_some {s s' : S} {e : E} {es : List E} :
    run step s (e :: es) = some s' ↔ ∃ s₁, step s e = some s₁ ∧ run step s₁ es = some s' := by
  rw [run_cons, Option.bind_eq_some_iff]

theorem run_append_eq_some {s s' : S} {es es' : List E} :
    run step s (es ++ es') = some s' ↔
      ∃ s₁, run step s es = some s₁ ∧ run step s₁ es' = some s' := by
  induction es generalizing s with
  | nil => simp
  | cons e es ih =>
    rw [List.cons_append, run_cons_eq_some]
    constructor
    · rintro ⟨s₁, hstep, hrun⟩
      obtain ⟨s₂, hfirst, hrest⟩ := ih.mp hrun
      exact ⟨s₂, run_cons_eq_some.mpr ⟨s₁, hstep, hfirst⟩, hrest⟩
    · rintro ⟨s₂, hfirst, hrest⟩
      obtain ⟨s₁, hstep, hrun⟩ := run_cons_eq_some.mp hfirst
      exact ⟨s₁, hstep, ih.mpr ⟨s₂, hrun, hrest⟩⟩

theorem Along.mono {cond' : S → E → Prop} (himp : ∀ s e, cond s e → cond' s e) {s : S} {es : List E}
    (h : Along step cond s es) : Along step cond' s es := by
  induction es generalizing s with
  | nil => trivial
  | cons e es ih => exact ⟨himp s e h.1, fun s' hstep => ih (h.2 s' hstep)⟩

theorem Along.of_forall {p : E → Prop} {es : List E} (h : ∀ e ∈ es, p e) (s : S) :
    Along step (fun _ e => p e) s es := by
  induction es generalizing s with
  | nil => trivial
  | cons e es ih =>
    exact ⟨h e List.mem_cons_self,
      fun s' _ => ih (fun e' he' => h e' (List.mem_cons_of_mem _ he')) s'⟩

/-- Every event of a run met the condition somewhere. -/
theorem Along.exists_of_mem {s s' : S} {es : List E} (h : Along step cond s es)
    (hrun : run step s es = some s') {e : E} (he : e ∈ es) : ∃ s₁, cond s₁ e := by
  induction es generalizing s with
  | nil => cases he
  | cons e' es ih =>
    obtain ⟨s₁, hfirst, hrest⟩ := run_cons_eq_some.mp hrun
    rcases List.mem_cons.mp he with rfl | he
    · exact ⟨s, h.1⟩
    · exact ih (h.2 s₁ hfirst) hrest he

theorem Along.append {s : S} {es es' : List E} (h : Along step cond s es)
    (h' : ∀ s', run step s es = some s' → Along step cond s' es') :
    Along step cond s (es ++ es') := by
  induction es generalizing s with
  | nil => exact h' s rfl
  | cons e es ih =>
    refine ⟨h.1, fun s₁ hfirst => ih (h.2 s₁ hfirst) ?_⟩
    intro s' hrest
    exact h' s' (run_cons_eq_some.mpr ⟨s₁, hfirst, hrest⟩)

/-- A step lemma gives the run lemma; the invariant knows the events so far. -/
theorem run_history (inv : List E → S → Prop)
    (hstep : ∀ {past s e s'}, inv past s → cond s e → step s e = some s' → inv (past ++ [e]) s')
    {past : List E} {s s' : S} {es : List E} (hs : inv past s) (hcond : Along step cond s es)
    (hrun : run step s es = some s') : inv (past ++ es) s' := by
  induction es generalizing s past with
  | nil =>
    obtain rfl := Option.some.inj hrun
    rw [List.append_nil]
    exact hs
  | cons e es ih =>
    obtain ⟨s₁, hfirst, hrest⟩ := run_cons_eq_some.mp hrun
    have hnext := ih (hstep hs hcond.1 hfirst) (hcond.2 s₁ hfirst) hrest
    rwa [List.append_assoc] at hnext

theorem run_invariant (inv : S → Prop)
    (hstep : ∀ {s e s'}, inv s → cond s e → step s e = some s' → inv s') {s s' : S} {es : List E}
    (hs : inv s) (hcond : Along step cond s es) (hrun : run step s es = some s') : inv s' :=
  @run_history _ _ _ _ (fun _ => inv) (fun hs => hstep hs) [] _ _ _ hs hcond hrun

/-- Some run whose steps meet the condition leads there. -/
def Reaches (step : S → E → Option S) (cond : S → E → Prop) (s s' : S) : Prop :=
  ∃ es, Along step cond s es ∧ run step s es = some s'

theorem Reaches.refl (s : S) : Reaches step cond s s := ⟨[], trivial, rfl⟩

theorem Reaches.single {s s' : S} {e : E} (hcond : cond s e) (hstep : step s e = some s') :
    Reaches step cond s s' :=
  ⟨[e], ⟨hcond, fun _ _ => trivial⟩, run_cons_eq_some.mpr ⟨s', hstep, rfl⟩⟩

theorem Reaches.trans {s s₁ s' : S} (h₁ : Reaches step cond s s₁) (h : Reaches step cond s₁ s') :
    Reaches step cond s s' := by
  obtain ⟨es₁, hcond₁, hrun₁⟩ := h₁
  obtain ⟨es, hcond, hrun⟩ := h
  refine ⟨es₁ ++ es, hcond₁.append ?_, run_append_eq_some.mpr ⟨s₁, hrun₁, hrun⟩⟩
  intro s₂ hrun₂
  rw [hrun₁] at hrun₂
  exact Option.some.inj hrun₂ ▸ hcond

/-! ## Runs that come to an end -/

/-- The first events of a sequence. -/
def firsts (es : Nat → E) (k : Nat) : List E := (List.range k).map es

theorem firsts_succ (es : Nat → E) (k : Nat) : firsts es (k + 1) = firsts es k ++ [es k] := by
  rw [firsts, List.range_succ, List.map_append]
  rfl

/-- While the state is not final, the next event is possible and lowers the measure: then a final
state is reached. -/
theorem exists_final (final : S → Prop) (measure : S → Nat) {s : S} {es : Nat → E}
    (hnext : ∀ k s', run step s (firsts es k) = some s' → ¬ final s' →
      ∃ s'', step s' (es k) = some s'' ∧ measure s'' < measure s') :
    ∃ k s', run step s (firsts es k) = some s' ∧ final s' := by
  by_contra hnever
  have hall : ∀ k, ∃ s', run step s (firsts es k) = some s' ∧ measure s' + k ≤ measure s := by
    intro k
    induction k with
    | zero => exact ⟨s, rfl, Nat.le_refl _⟩
    | succ k ih =>
      obtain ⟨s', hrun, hle⟩ := ih
      have hnot : ¬ final s' := fun hfinal => hnever ⟨k, s', hrun, hfinal⟩
      obtain ⟨s'', hstep, hlt⟩ := hnext k s' hrun hnot
      refine ⟨s'', ?_, by omega⟩
      rw [firsts_succ, run_append_eq_some]
      exact ⟨s', hrun, run_cons_eq_some.mpr ⟨s'', hstep, rfl⟩⟩
  obtain ⟨s', -, hle⟩ := hall (measure s + 1)
  omega

end StateDb.Lib
