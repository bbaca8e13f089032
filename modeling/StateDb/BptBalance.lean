/-
  StateDb/BptBalance.lean
  =======================
  **The leaves lie equally deep** (`bpt.h`, `bpt_internal.h`).

  In a tree that was only set into, and where no `set` split an internal node that is the
  `m_lesser` of its parent, every lookup passes the same number of internal nodes
  (`set_run_balanced`).  A split of such a node hangs a new root into the list of the parent: the
  keys of its right half are then found one level deeper (`downward_not_balanced`).
-/
import StateDb.BptLevel

namespace StateDb.Bpt

open Lib Lib.SortedAssoc

variable {K V : Type} [LinearOrder K] {cfg : Config} {Q : LeafPolicy K V}

/-! ## The way down -/

/-- The way of a lookup from `this` on: the internal nodes that it passes, and the leaf where it
ends. -/
def descent : Nat → Heap K V → Nat → K → Outcome Fault (List Nat × Nat)
  | 0, _, _, _ => .outOfFuel
  | fuel + 1, h, this, key => do
      let leaf ← isLeaf h this
      if leaf then .ok ([], this)
      else do
        let child ← getChildGe fuel h this key
        let d ← descent fuel h child key
        .ok (this :: d.1, d.2)

/-- `get_val_ptr` goes the way down and searches the leaf. -/
theorem getValPtr_eq_descent (fuel : Nat) (h : Heap K V) (this : Nat) (key : K) :
    getValPtr fuel h this key = (do
      let d ← descent fuel h this key
      let l ← derefLeaf h d.2
      .ok (l.mList.getValPtr key)) := by
  induction fuel generalizing this with
  | zero => rfl
  | succ fuel ih =>
    simp only [getValPtr, descent]
    cases isLeaf h this with
    | fault f => rfl
    | outOfFuel => rfl
    | ok leaf =>
      cases leaf with
      | true => rfl
      | false =>
        simp only [Outcome.ok_bind]
        cases getChildGe fuel h this key with
        | fault f => rfl
        | outOfFuel => rfl
        | ok child =>
          simp only [Outcome.ok_bind, ih child]
          cases descent fuel h child key <;> rfl

/-- In a subtree of depth `d` the way of a key in range passes `d` nodes. -/
theorem Level.descent {h : Heap K V} {d : Nat} {lo : WithBot K} {hi : WithTop K} {p : Nat}
    {s : Span K V} (hl : Level cfg Q h d lo hi p s) {key : K} (hlo : lo ≤ key)
    (hhi : (key : WithTop K) < hi) :
    ∃ path leaf, Returns (fun fuel => descent fuel h p key) (path, leaf) ∧ path.length = d := by
  induction d generalizing lo hi p s with
  | zero =>
    obtain ⟨l, hl, -⟩ := hl
    refine ⟨[], p, Returns.of_succ ⟨0, fun fuel _ => ?_⟩, rfl⟩
    simp [Bpt.descent, isLeaf_of_leaf hl.cell]
  | succ d ih =>
    obtain ⟨n, seps, tail, spans, hn, -⟩ := hl
    obtain ⟨pre, post, before, t, after, -, -, hroute⟩ := hn.exists_route hlo hhi
    obtain ⟨path, leaf, hrun, hlen⟩ := ih hroute.hole.child hroute.low hroute.high
    refine ⟨p :: path, leaf, Returns.of_succ ?_, by simp [hlen]⟩
    simp only [Bpt.descent, isLeaf_of_internal hn.cell, Outcome.ok_bind]
    exact Returns.bind hroute.child (Returns.bind hrun (Returns.const rfl))

/-! ## Trees -/

/-- Every lookup passes the same number of internal nodes. -/
def Balanced (t : Tree K V) : Prop :=
  ∀ root, t.mRoot = some root → ∃ depth, ∀ key, ∃ path leaf,
    Returns (fun fuel => descent fuel t.heap root key) (path, leaf) ∧ path.length = depth

/-- `set` of the key splits no internal node that is the `m_lesser` of its parent. -/
def SparesLesser (cfg : Config) (t : Tree K V) (key : K) : Prop :=
  ∀ root, t.mRoot = some root → ¬ GraftsRoot cfg t.heap key root

/-- All leaves of the tree are equally deep. -/
def IsLevel (cfg : Config) (t : Tree K V) : Prop :=
  ∀ root, t.mRoot = some root → ∃ d s,
    Level cfg LeafPolicy.any t.heap (d + 1) ⊥ ⊤ root s ∧ s.foot.Nodup

theorem IsLevel.balanced {t : Tree K V} (ht : IsLevel cfg t) : Balanced t := by
  intro root hroot
  obtain ⟨d, s, hl, -⟩ := ht root hroot
  refine ⟨d + 1, ?_⟩
  intro key
  exact hl.descent bot_le (WithTop.coe_lt_top key)

theorem Tree.set_level (hcfg : cfg.Admissible) (t : Tree K V) (key : K) (val : V)
    (ht : IsLevel cfg t) (hspares : SparesLesser cfg t key) :
    ∃ t', Returns (fun fuel => t.set cfg fuel key val) t' ∧ IsLevel cfg t' := by
  have h3 := hcfg.three_le
  have hmax : cfg.maxSize = cfg.order - 1 := rfl
  cases hroot : t.mRoot with
  | none =>
    obtain ⟨h', root, n, seps, spans, hrun, hn, hnd, -⟩ :=
      newInternal_leaves (Q := LeafPolicy.any) hcfg t.heap key val
    refine ⟨⟨h', some root⟩, ⟨0, fun fuel _ => ?_⟩, ?_⟩
    · simp only [Tree.set, hroot, hrun, Outcome.ok_bind]
    · rintro root' ⟨⟩
      exact ⟨0, _, ⟨n, seps, none, spans, hn, rfl⟩, hnd⟩
  | some root =>
    obtain ⟨d, s, ⟨n, seps, tail, spans, hn, rfl⟩, hnd⟩ := ht root hroot
    obtain ⟨r, hrun, hres⟩ := internalSet_level hcfg hn hnd key val bot_le (WithTop.coe_lt_top key)
      (hspares root hroot)
    simp only [Tree.set, hroot]
    cases hres with
    | whole h' n' seps' spans' node replaces heq =>
      refine ⟨⟨h', some root⟩, Returns.bind hrun (Returns.const rfl), ?_⟩
      rintro root' ⟨⟩
      exact ⟨d, _, ⟨n', seps', tail, spans', node, rfl⟩, replaces.owns.nodup⟩
    | halves h' R m k q s₁ s₂ hover hhalved replaces heq =>
      refine ⟨⟨h', some R⟩, Returns.bind hrun (Returns.const rfl), ?_⟩
      rintro root' ⟨⟩
      -- the tree grows at its root
      exact ⟨d + 1, _, ⟨_, _, none, _, hhalved.root (by omega), rfl⟩, replaces.root_nodup k q⟩

/-- In a run of `set` calls that never splits an internal node that is the `m_lesser` of its
parent, every lookup passes the same number of internal nodes. -/
theorem set_run_balanced (o : Order) {calls : List (K × V)}
    (hspares : EverySet o.config (SparesLesser o.config) calls {}) :
    ∃ t, Returns (fun fuel => Tree.setAll o.config fuel calls {}) t ∧ Balanced t := by
  have hempty : IsLevel o.config ({} : Tree K V) := by
    rintro root ⟨⟩
  obtain ⟨t, hrun, ht⟩ := Tree.setAll_keeps (Tree.set_level o.admissible) hempty hspares
  exact ⟨t, hrun, ht.balanced⟩

/-- The second key goes into the lesser leaf, which is no internal node. -/
theorem set_run_balanced_lesser : ∃ t : Tree Nat Nat,
    Returns (fun fuel => Tree.setAll Order.six.config fuel [(5, 50), (3, 30)] {}) t ∧
      Balanced t := by
  refine set_run_balanced Order.six ⟨fun root hroot => (by cases hroot), ?_⟩
  intro t hrun
  have hfirst : Returns (fun fuel => Tree.set Order.six.config fuel ({} : Tree Nat Nat) 5 50)
      (oneLeaf [(5, 50)]) := ⟨0, fun fuel _ => rfl⟩
  obtain rfl := hrun.unique hfirst
  refine ⟨?_, fun _ _ => trivial⟩
  rintro root ⟨⟩ hgraft
  have hroute : Returns (fun fuel => getChildGe fuel (oneLeaf [(5, 50)]).heap 3 3) 2 :=
    ⟨0, fun fuel _ => rfl⟩
  cases hgraft with
  | lesser cell route node overflows =>
    rw [route.unique hroute] at node
    cases node
  | deeper cell route grafts =>
    rw [route.unique hroute] at grafts
    cases grafts with
    | lesser cell => cases cell
    | deeper cell => cases cell

/-- The keys 28, 27, …, 1. -/
def downward : List (Nat × Nat) := (List.range 28).map fun i => (28 - i, 0)

/-- The lesser node `3` was split: the new root `22` hangs in the list of the root `14`. -/
def grafted : Tree Nat Nat :=
  ⟨⟨[some (.leaf ⟨none, ⟨[(28, 0)], 1⟩⟩), some (.listNode ⟨28, 0, none⟩),
    some (.leaf ⟨some 20, ⟨[(1, 0), (2, 0), (3, 0)], 3⟩⟩), some (.internal ⟨2, some 21, 3⟩),
    some (.leaf ⟨some 0, ⟨[(25, 0), (26, 0), (27, 0)], 3⟩⟩), some (.listNode ⟨25, 4, some 1⟩),
    some (.leaf ⟨some 4, ⟨[(22, 0), (23, 0), (24, 0)], 3⟩⟩), some (.listNode ⟨22, 15, none⟩),
    some (.leaf ⟨some 6, ⟨[(19, 0), (20, 0), (21, 0)], 3⟩⟩), some (.listNode ⟨19, 8, some 7⟩),
    some (.leaf ⟨some 8, ⟨[(16, 0), (17, 0), (18, 0)], 3⟩⟩), some (.listNode ⟨16, 10, some 9⟩),
    some (.leaf ⟨some 10, ⟨[(13, 0), (14, 0), (15, 0)], 3⟩⟩), some (.listNode ⟨13, 23, none⟩),
    some (.internal ⟨3, some 24, 2⟩), some (.internal ⟨6, some 5, 2⟩),
    some (.leaf ⟨some 12, ⟨[(10, 0), (11, 0), (12, 0)], 3⟩⟩), some (.listNode ⟨10, 16, some 13⟩),
    some (.leaf ⟨some 16, ⟨[(7, 0), (8, 0), (9, 0)], 3⟩⟩), some (.listNode ⟨7, 18, some 17⟩),
    some (.leaf ⟨some 18, ⟨[(4, 0), (5, 0), (6, 0)], 3⟩⟩), some (.listNode ⟨4, 20, some 19⟩),
    some (.internal ⟨3, some 13, 1⟩), some (.internal ⟨12, some 11, 2⟩),
    some (.listNode ⟨13, 22, some 7⟩)]⟩, some 14⟩

/-- The lookup of 1 passes two internal nodes, the lookup of 13 three. -/
theorem downward_not_balanced :
    Returns (fun fuel => Tree.setAll Order.six.config fuel downward {}) grafted ∧
      Returns (fun fuel => descent fuel grafted.heap 14 1) ([14, 3], 2) ∧
      Returns (fun fuel => descent fuel grafted.heap 14 13) ([14, 22, 23], 12) ∧
      ¬ Balanced grafted := by
  have hlesser : Returns (fun fuel => descent fuel grafted.heap 14 1) ([14, 3], 2) := by
    refine ⟨4, ?_⟩
    intro fuel hfuel
    obtain ⟨k, rfl⟩ : ∃ k, fuel = k + 4 := ⟨fuel - 4, by omega⟩
    rfl
  have hlist : Returns (fun fuel => descent fuel grafted.heap 14 13) ([14, 22, 23], 12) := by
    refine ⟨5, ?_⟩
    intro fuel hfuel
    obtain ⟨k, rfl⟩ : ∃ k, fuel = k + 5 := ⟨fuel - 5, by omega⟩
    rfl
  refine ⟨⟨8, ?_⟩, hlesser, hlist, ?_⟩
  · intro fuel hfuel
    obtain ⟨k, rfl⟩ : ∃ k, fuel = k + 8 := ⟨fuel - 8, by omega⟩
    rfl
  · intro hbal
    obtain ⟨depth, hall⟩ := hbal 14 rfl
    obtain ⟨path, leaf, hrun, hlen⟩ := hall 1
    obtain ⟨path', leaf', hrun', hlen'⟩ := hall 13
    have hpath : path = [14, 3] := congrArg Prod.fst (hrun.unique hlesser)
    have hpath' : path' = [14, 22, 23] := congrArg Prod.fst (hrun'.unique hlist)
    rw [hpath] at hlen
    rw [hpath', ← hlen] at hlen'
    cases hlen'

end StateDb.Bpt
