/-
  StateDb/BptLists.lean
  =====================
  **Whose list nodes are** (`bpt_internal.h`, `list.h`).

  While no `set` has split the root, the root is the only internal node: its list holds exactly
  `m_size` nodes, with increasing keys, and no other node has them (`set_run_exactLists`).
  `split` takes the link behind the middle node away, not the link before it.  The list of the
  left half therefore runs on to the node that the new root has (`upward_shares_node`).
-/
import StateDb.BptLevel

namespace StateDb.Bpt

open Lib Lib.SortedAssoc

variable {K V : Type} [LinearOrder K] {cfg : Config} {Q : LeafPolicy K V}

/-! ## Lists as the pointers make them -/

/-- One comes from `root` to `p` along `m_lesser` and along the list of an internal node. -/
inductive Reaches (h : Heap K V) (root : Nat) : Nat → Prop
  | root : Reaches h root root
  | lesser {p : Nat} {n : Internal} (above : Reaches h root p)
      (cell : h.read p = some (.internal n)) : Reaches h root n.mLesser
  | child {p a : Nat} {n : Internal} {l : ListNode K} (above : Reaches h root p)
      (cell : h.read p = some (.internal n)) (on : OnList h n.mRoot a)
      (node : h.read a = some (.listNode l)) : Reaches h root l.val

/-- The internal node `n` is at `p`, and is reachable from the root. -/
def Tree.HasNode (t : Tree K V) (p : Nat) (n : Internal) : Prop :=
  ∃ root, t.mRoot = some root ∧ Reaches t.heap root p ∧ t.heap.read p = some (.internal n)

/-- Every list has the length that its node counts and increasing keys, and belongs to one node. -/
structure ExactLists (t : Tree K V) : Prop where
  exact : ∀ p n, t.HasNode p n → ∃ seps, Linked t.heap n.mRoot seps none ∧
    seps.length = n.mSize ∧ seps.Pairwise (fun e f => e.key < f.key)
  unshared : ∀ p q n m a, t.HasNode p n → t.HasNode q m → OnList t.heap n.mRoot a →
    OnList t.heap m.mRoot a → p = q

omit [LinearOrder K] in
theorem Linked.mem_of_onList {h : Heap K V} {r : Option Nat} {seps : List (Sep K)} {a : Nat}
    (hl : Linked h r seps none) (ha : OnList h r a) : ∃ e ∈ seps, e.node = a := by
  induction ha generalizing seps with
  | first =>
    cases seps with
    | nil => cases hl
    | cons e es => exact ⟨e, List.mem_cons_self, (Option.some.inj hl.1).symm⟩
  | next cell _ ih =>
    cases seps with
    | nil => cases hl
    | cons e es =>
      obtain ⟨hr, next, hcell, hrest⟩ := hl
      obtain rfl := Option.some.inj hr
      rw [hcell] at cell
      cases cell
      obtain ⟨f, hf, heq⟩ := ih hrest
      exact ⟨f, List.mem_cons_of_mem _ hf, heq⟩

/-! ## A node over leaves -/

omit [LinearOrder K] in
theorem exists_slot_of_mem {lo : WithBot K} {p : Nat} {hi : WithTop K} {seps : List (Sep K)}
    {e : Sep K} (he : e ∈ seps) : ∃ sl ∈ slots lo p hi seps, sl.child = e.child := by
  induction seps generalizing lo p with
  | nil => cases he
  | cons f fs ih =>
    rcases List.mem_cons.mp he with rfl | he
    · refine ⟨⟨e.key, nextHigh hi fs, e.child⟩, List.mem_cons_of_mem _ ?_, rfl⟩
      rw [slots_eq_cons]
      exact List.mem_cons_self
    · obtain ⟨sl, hsl, heq⟩ := @ih f.key f.child he
      exact ⟨sl, List.mem_cons_of_mem _ hsl, heq⟩

section OverLeaves

variable {h : Heap K V} {lo : WithBot K} {hi : WithTop K} {p : Nat} {n : Internal}
  {seps : List (Sep K)} {tail : Option Nat} {spans : List (Span K V)}

theorem IsInternal.leaf_of_slot
    (hn : IsInternal cfg.maxSize h (Level cfg Q h 0) lo hi p n seps tail spans) {sl : Slot K}
    (hsl : sl ∈ slots lo n.mLesser hi seps) : ∃ l, h.read sl.child = some (.leaf l) := by
  obtain ⟨s, -, l, hl, -⟩ := forall₂_exists_of_mem_right hn.children.flip hsl
  exact ⟨l, hl.cell⟩

/-- Nothing but the node itself and its leaves is reachable from it. -/
theorem IsInternal.reaches
    (hn : IsInternal cfg.maxSize h (Level cfg Q h 0) lo hi p n seps none spans) {q : Nat}
    (hq : Reaches h p q) : q = p ∨ ∃ l, h.read q = some (.leaf l) := by
  have hlesser : ∃ l, h.read n.mLesser = some (.leaf l) := by
    have hmem : (⟨lo, nextHigh hi seps, n.mLesser⟩ : Slot K) ∈ slots lo n.mLesser hi seps := by
      rw [slots_eq_cons]
      exact List.mem_cons_self
    exact hn.leaf_of_slot hmem
  have hroot : ∀ {q : Nat} {m : Internal}, (q = p ∨ ∃ l, h.read q = some (.leaf l)) →
      h.read q = some (.internal m) → m = n := by
    rintro q m (rfl | ⟨l, hl⟩) hcell
    · rw [hn.cell] at hcell
      cases hcell
      rfl
    · rw [hl] at hcell
      cases hcell
  induction hq with
  | root => exact Or.inl rfl
  | lesser _ cell ih =>
    obtain rfl := hroot ih cell
    exact Or.inr hlesser
  | child _ cell on node ih =>
    obtain rfl := hroot ih cell
    obtain ⟨e, he, rfl⟩ := hn.linked.mem_of_onList on
    obtain ⟨next, hread⟩ := hn.linked.read_of_mem he
    rw [hread] at node
    cases node
    obtain ⟨sl, hsl, heq⟩ := exists_slot_of_mem he
    exact Or.inr (heq ▸ hn.leaf_of_slot hsl)

/-- A node over leaves has no internal node below it to split. -/
theorem IsInternal.not_graftsRoot
    (hn : IsInternal cfg.maxSize h (Level cfg Q h 0) lo hi p n seps tail spans) {key : K}
    (hlo : lo ≤ key) (hhi : (key : WithTop K) < hi) : ¬ GraftsRoot cfg h key p := by
  obtain ⟨pre, post, before, t, after, -, -, hroute⟩ := hn.exists_route hlo hhi
  obtain ⟨l, hl, -⟩ := hroute.hole.child
  have hleaf : ∀ m : Internal, h.read (lastChild n.mLesser pre) ≠ some (.internal m) := by
    intro m hm
    rw [hl.cell] at hm
    cases hm
  intro hgraft
  cases hgraft with
  | lesser cell route node overflows =>
    rw [route.unique hroute.child] at node
    exact hleaf _ node
  | deeper cell route grafts =>
    rw [route.unique hroute.child] at grafts
    cases grafts with
    | lesser cell => exact hleaf _ cell
    | deeper cell => exact hleaf _ cell

end OverLeaves

/-! ## Trees -/

/-- The root is the only internal node, and no list node hangs behind its list. -/
def OneNode (cfg : Config) (t : Tree K V) : Prop :=
  ∀ root, t.mRoot = some root → ∃ n seps spans,
    IsInternal cfg.maxSize t.heap (Level cfg LeafPolicy.any t.heap 0) ⊥ ⊤ root n seps none spans ∧
    (internalSpan root seps spans).foot.Nodup

theorem OneNode.exactLists {t : Tree K V} (ht : OneNode cfg t) : ExactLists t := by
  have honly : ∀ {p : Nat} {n : Internal}, t.HasNode p n → t.mRoot = some p := by
    rintro p n ⟨root, hroot, hreach, hcell⟩
    obtain ⟨m, seps, spans, hm, -⟩ := ht root hroot
    rcases hm.reaches hreach with rfl | ⟨l, hl⟩
    · exact hroot
    · rw [hl] at hcell
      cases hcell
  refine ⟨?_, ?_⟩
  · intro p n hp
    obtain ⟨m, seps, spans, hm, -⟩ := ht p (honly hp)
    obtain ⟨-, -, -, hcell⟩ := hp
    rw [hm.cell] at hcell
    cases hcell
    exact ⟨seps, hm.linked, hm.size.symm, hm.increasing⟩
  · intro p q n m a hp hq _ _
    exact Option.some.inj ((honly hp).symm.trans (honly hq))

/-- `set` of the key does not split the root. -/
def SparesRoot (cfg : Config) (t : Tree K V) (key : K) : Prop :=
  ∀ root, t.mRoot = some root → ¬ Overflows cfg t.heap key root

theorem Tree.set_oneNode (hcfg : cfg.Admissible) (t : Tree K V) (key : K) (val : V)
    (ht : OneNode cfg t) (hspares : SparesRoot cfg t key) :
    ∃ t', Returns (fun fuel => t.set cfg fuel key val) t' ∧ OneNode cfg t' := by
  cases hroot : t.mRoot with
  | none =>
    obtain ⟨h', root, n, seps, spans, hrun, hn, hnd, -⟩ :=
      newInternal_leaves (Q := LeafPolicy.any) hcfg t.heap key val
    refine ⟨⟨h', some root⟩, ⟨0, fun fuel _ => ?_⟩, ?_⟩
    · simp only [Tree.set, hroot, hrun, Outcome.ok_bind]
    · rintro root' ⟨⟩
      exact ⟨n, seps, spans, hn, hnd⟩
  | some root =>
    obtain ⟨n, seps, spans, hn, hnd⟩ := ht root hroot
    obtain ⟨r, hrun, hres⟩ := internalSet_level hcfg hn hnd key val bot_le (WithTop.coe_lt_top key)
      (hn.not_graftsRoot bot_le (WithTop.coe_lt_top key))
    simp only [Tree.set, hroot]
    cases hres with
    | whole h' n' seps' spans' node replaces heq =>
      refine ⟨⟨h', some root⟩, Returns.bind hrun (Returns.const rfl), ?_⟩
      rintro root' ⟨⟩
      exact ⟨n', seps', spans', node, replaces.owns.nodup⟩
    | halves h' R m k q s₁ s₂ hover => exact absurd hover (hspares root hroot)

/-- In a run of `set` calls that never splits the root, every list is exact and belongs to one
node. -/
theorem set_run_exactLists (o : Order) {calls : List (K × V)}
    (hspares : EverySet o.config (SparesRoot o.config) calls {}) :
    ∃ t, Returns (fun fuel => Tree.setAll o.config fuel calls {}) t ∧ ExactLists t := by
  have hempty : OneNode o.config ({} : Tree K V) := by
    rintro root ⟨⟩
  obtain ⟨t, hrun, ht⟩ := Tree.setAll_keeps (Tree.set_oneNode o.admissible) hempty hspares
  exact ⟨t, hrun, ht.exactLists⟩

/-- The root holds one separator when the second key is set. -/
theorem set_run_exactLists_second : ∃ t : Tree Nat Nat,
    Returns (fun fuel => Tree.setAll Order.six.config fuel [(5, 50), (3, 30)] {}) t ∧
      ExactLists t := by
  refine set_run_exactLists Order.six ⟨fun root hroot => (by cases hroot), ?_⟩
  intro t hrun
  have hfirst : Returns (fun fuel => Tree.set Order.six.config fuel ({} : Tree Nat Nat) 5 50)
      (oneLeaf [(5, 50)]) := ⟨0, fun fuel _ => rfl⟩
  obtain rfl := hrun.unique hfirst
  refine ⟨?_, fun _ _ => trivial⟩
  rintro root ⟨⟩ hover
  cases hover with
  | leaf cell => cases cell
  | internal cell full =>
    cases cell
    exact absurd full (by decide)

/-- The keys 1, 2, …, 18. -/
def upward : List (Nat × Nat) := (List.range 18).map fun i => (i + 1, 0)

/-- The root `3` was split: the list node `9` went to the new root `14`. -/
def rootSplit : Tree Nat Nat :=
  ⟨⟨[some (.leaf ⟨some 4, ⟨[(1, 0), (2, 0), (3, 0)], 3⟩⟩), some (.listNode ⟨1, 0, some 5⟩),
    some (.leaf ⟨some 0, ⟨[], 0⟩⟩), some (.internal ⟨2, some 1, 3⟩),
    some (.leaf ⟨some 6, ⟨[(4, 0), (5, 0), (6, 0)], 3⟩⟩), some (.listNode ⟨4, 4, some 7⟩),
    some (.leaf ⟨some 8, ⟨[(7, 0), (8, 0), (9, 0)], 3⟩⟩), some (.listNode ⟨7, 6, some 9⟩),
    some (.leaf ⟨some 10, ⟨[(10, 0), (11, 0), (12, 0)], 3⟩⟩), some (.listNode ⟨10, 15, none⟩),
    some (.leaf ⟨some 12, ⟨[(13, 0), (14, 0), (15, 0)], 3⟩⟩), some (.listNode ⟨13, 10, some 13⟩),
    some (.leaf ⟨none, ⟨[(16, 0), (17, 0), (18, 0)], 3⟩⟩), some (.listNode ⟨16, 12, none⟩),
    some (.internal ⟨3, some 9, 1⟩), some (.internal ⟨8, some 11, 2⟩)]⟩, some 14⟩

/-- The left half counts three list nodes and has four; the fourth is the new root's. -/
theorem upward_shares_node :
    Returns (fun fuel => Tree.setAll Order.six.config fuel upward {}) rootSplit ∧
      rootSplit.HasNode 14 ⟨3, some 9, 1⟩ ∧ OnList rootSplit.heap (some 9) 9 ∧
      rootSplit.HasNode 3 ⟨2, some 1, 3⟩ ∧ OnList rootSplit.heap (some 1) 9 ∧
      Linked rootSplit.heap (some 1) [⟨1, 1, 0⟩, ⟨5, 4, 4⟩, ⟨7, 7, 6⟩, ⟨9, 10, 15⟩] none ∧
      ¬ ExactLists rootSplit := by
  have hroot : rootSplit.HasNode 14 ⟨3, some 9, 1⟩ := ⟨14, rfl, .root, rfl⟩
  have hleft : rootSplit.HasNode 3 ⟨2, some 1, 3⟩ :=
    ⟨14, rfl, .lesser (p := 14) (n := ⟨3, some 9, 1⟩) .root rfl, rfl⟩
  have hfirst : OnList rootSplit.heap (some 9) 9 := .first
  have hfourth : OnList rootSplit.heap (some 1) 9 :=
    .next (n := ⟨1, 0, some 5⟩) rfl (.next (n := ⟨4, 4, some 7⟩) rfl
      (.next (n := ⟨7, 6, some 9⟩) rfl .first))
  refine ⟨⟨8, ?_⟩, hroot, hfirst, hleft, hfourth, ?_, ?_⟩
  · intro fuel hfuel
    obtain ⟨k, rfl⟩ : ∃ k, fuel = k + 8 := ⟨fuel - 8, by omega⟩
    rfl
  · exact ⟨rfl, _, rfl, rfl, _, rfl, rfl, _, rfl, rfl, _, rfl, rfl⟩
  · intro hexact
    have heq := hexact.unshared 3 14 _ _ 9 hleft hroot hfourth hfirst
    cases heq

end StateDb.Bpt
