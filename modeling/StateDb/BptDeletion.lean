/-
  StateDb/BptDeletion.lean
  ========================
  **Whether `delete_key` ends** (`bpt.h`, `bpt_internal.h`).

  In every tree that `set` and `delete_key` calls lead to, `delete_key` ends just when the descent
  for the key ends and `delete_child`, where it comes to that, finds the child
  (`deletion_ends_iff`).  The descent ends as long as no call has come to `delete_child`.  After
  such a call the counters of the nodes and their lists no longer agree, and later splits may
  close the lists to a circle (`reached_descent_without_end`).

  No call lowers the counter of a node.  So the root of an emptied tree is never taken for empty:
  it stays, without a list, and the next `set` runs into that (`emptying_keeps_root`,
  `emptied_root_stays`).
-/
import StateDb.BptCells
import StateDb.BptFuel

namespace StateDb.Bpt

open Lib Lib.SortedAssoc

variable {K V : Type} [LinearOrder K] {cfg : Config} {Q : LeafPolicy K V}

/-! ## The descent -/

section Descent

variable {h : Heap K V} {this : Nat} {n : Internal} {key : K} {fuel : Nat}

/-- A descent that does not end is one of `delete_key`. -/
theorem findLeaf_outOfFuel (hcell : h.read this = some (.internal n))
    (hrun : findLeaf fuel h this key = .outOfFuel) :
    baseDeleteKey fuel h this key = .outOfFuel := by
  induction fuel generalizing this n with
  | zero => rfl
  | succ fuel ih =>
    simp only [baseDeleteKey, isLeaf_of_internal hcell, Outcome.ok_bind]
    simp only [findLeaf] at hrun
    cases hchild : getChildGe fuel h this key with
    | outOfFuel => rfl
    | fault e =>
      rw [hchild] at hrun
      cases hrun
    | ok child =>
      rw [hchild, Outcome.ok_bind] at hrun
      cases hleaf : isLeaf h child with
      | outOfFuel =>
        unfold isLeaf at hleaf
        split at hleaf <;> cases hleaf
      | fault e =>
        rw [hleaf] at hrun
        cases hrun
      | ok leaf =>
        rw [hleaf, Outcome.ok_bind] at hrun
        cases leaf with
        | true => cases hrun
        | false =>
          obtain ⟨nc, hc⟩ := internal_of_isLeaf hleaf
          simp [ih hc hrun]

/-- So is one that meets a bad pointer. -/
theorem findLeaf_fault (hcell : h.read this = some (.internal n)) {e : Fault}
    (hrun : findLeaf fuel h this key = .fault e) :
    Faults (fun fuel => baseDeleteKey fuel h this key) e := by
  induction fuel generalizing this n with
  | zero => cases hrun
  | succ fuel ih =>
    refine Leads.faults (Leads.of_succ (Leads.refl _)) ?_
    simp only [baseDeleteKey, isLeaf_of_internal hcell, Outcome.ok_bind]
    simp only [findLeaf] at hrun
    cases hchild : getChildGe fuel h this key with
    | outOfFuel =>
      rw [hchild] at hrun
      cases hrun
    | fault e' =>
      rw [hchild] at hrun
      cases hrun
      exact ((getChildGe_settles h this key).faults hchild).bind _
    | ok child =>
      rw [hchild, Outcome.ok_bind] at hrun
      refine (Returns.leads ((getChildGe_settles h this key).returns hchild)).faults
        (Faults.bind ?_ _)
      cases hleaf : isLeaf h child with
      | outOfFuel =>
        rw [hleaf] at hrun
        cases hrun
      | fault e' =>
        rw [hleaf] at hrun
        cases hrun
        refine Leads.faults (Leads.of_succ (Leads.refl _)) ⟨0, fun fuel _ => ?_⟩
        simp only [baseDeleteKey, hleaf]
        rfl
      | ok leaf =>
        rw [hleaf, Outcome.ok_bind] at hrun
        cases leaf with
        | true => cases hrun
        | false =>
          obtain ⟨nc, hc⟩ := internal_of_isLeaf hleaf
          exact ih hc hrun

/-- A node that is its own child is never left. -/
theorem findLeaf_circles {q : Nat} (hthis : Returns (fun fuel => getChildGe fuel h this key) q)
    (hq : Returns (fun fuel => getChildGe fuel h q key) q) (hleaf : isLeaf h q = .ok false) :
    findLeaf fuel h this key = .outOfFuel := by
  induction fuel generalizing this with
  | zero => rfl
  | succ fuel ih =>
    cases hchild : getChildGe fuel h this key with
    | outOfFuel => simp only [findLeaf, hchild, Outcome.outOfFuel_bind]
    | fault e => exact absurd hthis (((getChildGe_settles h this key).faults hchild).not_returns q)
    | ok child =>
      obtain rfl := ((getChildGe_settles h this key).returns hchild).unique hthis
      simp only [findLeaf, hchild, hleaf, Outcome.ok_bind]
      exact ih hq

/-- A descent that comes to a leaf leads `delete_key` to the node above it. -/
theorem findLeaf_leafParent (hcfg : cfg.Admissible) (hk : HeapKept cfg none h) {parent leaf : Nat}
    (hrun : findLeaf fuel h this key = .ok (parent, leaf)) :
    ∃ n l, LeafParent h key parent leaf n l ∧
      Leads (fun fuel => baseDeleteKey fuel h this key)
        (fun fuel => baseDeleteKey fuel h parent key) := by
  induction fuel generalizing this with
  | zero => cases hrun
  | succ fuel ih =>
    obtain ⟨child, hchild, hrun⟩ := Outcome.bind_eq_ok.mp hrun
    obtain ⟨n, hn, -⟩ := Outcome.bind_eq_ok.mp hchild
    have hcell := derefInternal_ok hn
    have hroute := (getChildGe_settles h this key).returns hchild
    obtain ⟨isleaf, hleaf, hrun⟩ := Outcome.bind_eq_ok.mp hrun
    cases isleaf with
    | true =>
      obtain ⟨rfl, rfl⟩ := Prod.mk.inj (Outcome.ok.inj hrun)
      obtain ⟨l, hl⟩ := leaf_of_isLeaf hleaf
      have hkept : l.mList.Kept cfg.maxSize := hk _ _ hl
      have hlt := hcfg.lt_size
      have hmax : cfg.maxSize = cfg.order - 1 := rfl
      have hcap := hkept.capacity
      exact ⟨n, l, ⟨hcell, hroute, hl, hkept.sorted, hkept.sized, by omega⟩, Leads.refl _⟩
    | false =>
      obtain ⟨nc, hc⟩ := internal_of_isLeaf hleaf
      have hsize : CellKept cfg.maxSize none child (.internal nc : Cell K V) := hk _ _ hc
      obtain ⟨n', l, hp, hleads⟩ := ih hrun
      exact ⟨n', l, hp, (baseDeleteKey_leads hcell hroute hc hsize.1).trans hleads⟩

end Descent

/-! ## Trees -/

/-- The descent for the key, from the root and from node to node by `get_child_ge`, ends. -/
def DescentEnds (t : Tree K V) (key : K) : Prop :=
  ∀ root, t.mRoot = some root → Ends (fun fuel => findLeaf fuel t.heap root key)

/-- Where the descent for the key comes to a leaf that holds the key alone, that leaf is the lesser
one of its node, or `delete_child` finds it. -/
def FindsChild (t : Tree K V) (key : K) : Prop :=
  ∀ root parent leaf n l, t.mRoot = some root →
    Returns (fun fuel => findLeaf fuel t.heap root key) (parent, leaf) →
    t.heap.read parent = some (.internal n) → t.heap.read leaf = some (.leaf l) →
    l.mList.nodes.map Prod.fst = [key] → n.mLesser = leaf ∨ ChildFound t.heap n key

section DeleteKey

variable {t : Tree K V} {root : Nat} {key : K}

theorem Tree.Kept.deleteKey_eq (hk : t.Kept cfg) (hroot : t.mRoot = some root) (fuel : Nat) :
    t.deleteKey fuel key =
      (baseDeleteKey fuel t.heap root key >>= fun r => .ok (⟨r.1, some root⟩, r.2)) :=
  (Tree.kept_iff.mp hk).deleteKey_eq hroot fuel key

theorem Tree.Kept.deleteKey_ends (hcfg : cfg.Admissible) (hk : t.Kept cfg)
    (hdescent : DescentEnds t key) (hfinds : FindsChild t key) :
    Ends (fun fuel => t.deleteKey fuel key) := by
  cases hroot : t.mRoot with
  | none =>
    refine Or.inl ⟨(t, false), 0, fun fuel _ => ?_⟩
    simp only [Tree.deleteKey, hroot]
  | some root =>
    simp only [hk.deleteKey_eq hroot]
    suffices hbase : Ends (fun fuel => baseDeleteKey fuel t.heap root key) by
      rcases hbase with ⟨r, hrun⟩ | ⟨e, hrun⟩
      · exact Or.inl ⟨_, Returns.bind hrun (Returns.const rfl)⟩
      · exact Or.inr ⟨e, hrun.bind _⟩
    obtain ⟨n, hn⟩ := hk.root root hroot
    rcases hdescent root hroot with ⟨⟨parent, leaf⟩, hfind⟩ | ⟨e, m, hm⟩
    · obtain ⟨m, hm⟩ := id hfind
      obtain ⟨np, l, hp, hleads⟩ := findLeaf_leafParent hcfg hk.cells (hm m le_rfl)
      suffices hparent : Ends (fun fuel => baseDeleteKey fuel t.heap parent key) by
        rcases hparent with ⟨r, hrun⟩ | ⟨e, hrun⟩
        · exact Or.inl ⟨r, hleads.returns hrun⟩
        · exact Or.inr ⟨e, hleads.faults hrun⟩
      by_cases hnil : l.mList.nodes = []
      · exact Or.inr ⟨_, hp.faults hnil⟩
      by_cases honly : l.mList.nodes.map Prod.fst = [key]
      · by_cases hlesser : np.mLesser = leaf
        · obtain ⟨h', hrun⟩ := hp.lesser honly hlesser
          exact Or.inl ⟨_, hrun⟩
        · have hfound := hfinds root parent leaf np l hroot hfind hp.cell hp.leafCell honly
          exact hp.child_ends honly hlesser (hfound.resolve_left hlesser)
      · obtain ⟨h', hrun⟩ := hp.keeps hnil honly
        exact Or.inl ⟨_, hrun⟩
    · exact Or.inr ⟨e, findLeaf_fault hn (hm m le_rfl)⟩

theorem Tree.Kept.deleteKey_starves (hcfg : cfg.Admissible) (hk : t.Kept cfg)
    (hnot : ¬ (DescentEnds t key ∧ FindsChild t key)) :
    Starves (fun fuel => t.deleteKey fuel key) := by
  suffices hbase : ∃ root, t.mRoot = some root ∧
      Starves (fun fuel => baseDeleteKey fuel t.heap root key) by
    obtain ⟨root, hroot, hstarves⟩ := hbase
    simp only [hk.deleteKey_eq hroot]
    exact hstarves.bind _
  rcases not_and_or.mp hnot with hdescent | hfinds
  · simp only [DescentEnds, not_forall] at hdescent
    obtain ⟨root, hroot, hends⟩ := hdescent
    obtain ⟨n, hn⟩ := hk.root root hroot
    refine ⟨root, hroot, 0, fun fuel _ => findLeaf_outOfFuel hn ?_⟩
    by_contra hrun
    exact hends ((findLeaf_settles t.heap root key).ends hrun)
  · simp only [FindsChild, not_forall, not_or] at hfinds
    obtain ⟨root, parent, leaf, n, l, hroot, hfind, hn, hl, honly, hlesser, hmiss⟩ := hfinds
    obtain ⟨m, hm⟩ := id hfind
    obtain ⟨n', l', hp, hleads⟩ := findLeaf_leafParent hcfg hk.cells (hm m le_rfl)
    obtain rfl : n = n' := by
      have hcell := hp.cell
      rw [hn] at hcell
      cases hcell
      rfl
    obtain rfl : l = l' := by
      have hcell := hp.leafCell
      rw [hl] at hcell
      cases hcell
      rfl
    exact ⟨root, hroot, hleads.starves (hp.child_starves honly hlesser hmiss)⟩

/-- `delete_key` ends just when the descent ends and `delete_child` finds the child. -/
theorem Tree.Kept.deleteKey_ends_iff (hcfg : cfg.Admissible) (hk : t.Kept cfg) :
    Ends (fun fuel => t.deleteKey fuel key) ↔ DescentEnds t key ∧ FindsChild t key := by
  constructor
  · intro hends
    by_contra hnot
    exact (hk.deleteKey_starves hcfg hnot).not_ends hends
  · rintro ⟨hdescent, hfinds⟩
    exact hk.deleteKey_ends hcfg hdescent hfinds

end DeleteKey

/-! ## Runs -/

/-- `delete_key` empties no leaf but the lesser one: it does not come to `delete_child`. -/
def SparesChildren (t : Tree K V) (key : K) : Prop :=
  AtLeaf t key fun n leaf l => l.mList.nodes.map Prod.fst = [key] → n.mLesser = leaf

/-- Every `delete_key` call of the run spares the children in the tree it is made on. -/
def SparingCalls (cfg : Config) : List (Call K V) → Tree K V → Prop
  | [], _ => True
  | c :: cs, t => (∀ key, c = .delete key → SparesChildren t key) ∧
      ∀ t', Returns (fun fuel => t.call cfg fuel c) t' → SparingCalls cfg cs t'

/-- A call without a fault that does not come to `delete_child` is safe. -/
theorem SparesChildren.safe (hcfg : cfg.Admissible) {t : Tree K V} {entries : List (K × V)}
    (ht : IsTree cfg Q t entries) {key : K} (hspares : SparesChildren t key)
    (hrun : ∀ e, ¬ Faults (fun fuel => t.deleteKey fuel key) e) : SafeDelete t key := by
  rcases ht with ⟨hroot, -⟩ | ⟨root, d, s, hroot, hr⟩
  · intro root hsome
    rw [hroot] at hsome
    cases hsome
  · obtain ⟨parent, leaf, n, l, hp, -, hfind, hleads, -⟩ := hr.exists_leafParent hcfg hroot key
    have hne : l.mList.nodes ≠ [] := fun hnil =>
      hrun _ (hleads.faults ((hp.faults hnil).bind _))
    intro root' hroot'
    obtain rfl := Option.some.inj (hroot.symm.trans hroot')
    exact ⟨parent, leaf, n, l, hfind, derefInternal_eq hp.cell, derefLeaf_eq hp.leafCell, hne,
      (atLeaf_iff hroot hp hfind).mp hspares⟩

theorem Tree.call_sparing (hcfg : cfg.Admissible) {t : Tree K V} {entries : List (K × V)}
    (ht : IsTree cfg LeafPolicy.any t entries) {c : Call K V}
    (hspares : ∀ key, c = .delete key → SparesChildren t key)
    (hrun : ∀ e, ¬ Faults (fun fuel => t.call cfg fuel c) e) :
    ∃ t', Returns (fun fuel => t.call cfg fuel c) t' ∧
      IsTree cfg LeafPolicy.any t' (Call.apply entries c) := by
  refine Tree.call_spec hcfg ht c ?_
  rintro key rfl
  exact (hspares key rfl).safe hcfg ht fun e hfault => hrun e (hfault.bind _)

theorem Tree.calls_sparing (hcfg : cfg.Admissible) {cs : List (Call K V)} {t t' : Tree K V}
    {entries : List (K × V)} (ht : IsTree cfg LeafPolicy.any t entries)
    (hspares : SparingCalls cfg cs t) (hrun : Returns (fun fuel => Tree.calls cfg fuel cs t) t') :
    IsTree cfg LeafPolicy.any t' (cs.foldl Call.apply entries) := by
  induction cs generalizing t entries with
  | nil =>
    obtain rfl := hrun.unique (Returns.const rfl)
    exact ht
  | cons c cs ih =>
    obtain ⟨hc, hrest⟩ := hspares
    obtain ⟨t₁, hrun₁, ht₁⟩ := Tree.call_sparing hcfg ht hc fun e hfault =>
      (hfault.bind fun fuel t₁ => Tree.calls cfg fuel cs t₁).not_returns t' hrun
    exact ih ht₁ (hrest t₁ hrun₁) (Returns.bind_inv hrun₁ hrun)

/-- In a tree that a map describes, every descent comes to a leaf. -/
theorem IsTree.descentEnds (hcfg : cfg.Admissible) {t : Tree K V} {entries : List (K × V)}
    (ht : IsTree cfg Q t entries) (key : K) : DescentEnds t key := by
  intro root hroot
  rcases ht with ⟨hnone, -⟩ | ⟨root', d, s, hroot', hr⟩
  · rw [hnone] at hroot
    cases hroot
  · obtain rfl := Option.some.inj (hroot'.symm.trans hroot)
    obtain ⟨parent, leaf, n, l, -, -, hfind, -⟩ := hr.exists_leafParent hcfg hroot key
    exact Or.inl ⟨_, hfind⟩

/-- In every tree that `set` and `delete_key` calls lead to, `delete_key` ends just when the descent
ends and `delete_child` finds the child; the descent ends while no call has come to
`delete_child`; and `delete_child` ends, on any node, just when the first list node has the
key or all others have. -/
theorem deletion_ends_iff (o : Order) {cs : List (Call K V)} {t : Tree K V}
    (hrun : Returns (fun fuel => Tree.calls o.config fuel cs {}) t) :
    (∀ key, Ends (fun fuel => t.deleteKey fuel key) ↔ DescentEnds t key ∧ FindsChild t key) ∧
      (SparingCalls o.config cs {} → ∀ key, DescentEnds t key) ∧
      ∀ (h : Heap K V) (this : Nat) (n : Internal) (key : K), h.read this = some (.internal n) →
        (Ends (fun fuel => deleteChild fuel h this key) ↔ ChildFound h n key) := by
  obtain ⟨m, hm⟩ := id hrun
  have hk : t.Kept o.config := Tree.calls_kept o.admissible Tree.kept_empty (hm m le_rfl)
  refine ⟨fun key => hk.deleteKey_ends_iff o.admissible, ?_, ?_⟩
  · intro hspares
    exact (Tree.calls_sparing o.admissible isTree_empty hspares hrun).descentEnds o.admissible
  · intro h this n key hcell
    exact deleteChild_ends_iff hcell

/-- Six keys are set and the first leaf is emptied: its list node is deleted, and the root still
counts two. -/
def emptied : List (Call Nat Nat) :=
  [.set 1 1, .set 2 2, .set 3 3, .set 4 4, .set 5 5, .set 6 6, .delete 2, .delete 3, .delete 1,
    .delete 5, .delete 6]

def oneChild : Tree Nat Nat :=
  ⟨⟨[some (.leaf ⟨some 4, ⟨[], 0⟩⟩), none, some (.leaf ⟨some 0, ⟨[], 0⟩⟩),
    some (.internal ⟨2, some 5, 2⟩), some (.leaf ⟨none, ⟨[(4, 4)], 1⟩⟩),
    some (.listNode ⟨4, 4, none⟩)]⟩, some 3⟩

/-- The leaf of the last key is the first child in the list. -/
theorem deletion_ends_iff_first : Ends (fun fuel => oneChild.deleteKey fuel 4) := by
  have hrun : Returns (fun fuel => Tree.calls Order.six.config fuel emptied {}) oneChild := by
    refine ⟨3, fun fuel hfuel => ?_⟩
    obtain ⟨k, rfl⟩ : ∃ k, fuel = k + 3 := ⟨fuel - 3, by omega⟩
    rfl
  have hfind : Returns (fun fuel => findLeaf fuel oneChild.heap 3 4) (3, 4) := by
    refine ⟨2, fun fuel hfuel => ?_⟩
    obtain ⟨k, rfl⟩ : ∃ k, fuel = k + 2 := ⟨fuel - 2, by omega⟩
    rfl
  apply ((deletion_ends_iff Order.six hrun).1 4).mpr
  constructor
  · rintro root ⟨⟩
    exact Or.inl ⟨_, hfind⟩
  · rintro root parent leaf n l ⟨⟩ hfind' hn - -
    obtain ⟨rfl, rfl⟩ := Prod.mk.inj (hfind.unique hfind')
    cases hn
    refine Or.inr ?_
    rintro a m ⟨⟩ hm
    cases hm
    exact Or.inl rfl

/-- Six keys are set and two of the second leaf deleted: a third one is left in it, which is
not the key of its separator. -/
def sixSet : List (Call Nat Nat) :=
  [.set 1 1, .set 2 2, .set 3 3, .set 4 4, .set 5 5, .set 6 6, .delete 4, .delete 5]

def twoLeaves : Tree Nat Nat :=
  ⟨⟨[some (.leaf ⟨some 4, ⟨[(1, 1), (2, 2), (3, 3)], 3⟩⟩), some (.listNode ⟨1, 0, some 5⟩),
    some (.leaf ⟨some 0, ⟨[], 0⟩⟩), some (.internal ⟨2, some 1, 2⟩),
    some (.leaf ⟨none, ⟨[(6, 6)], 1⟩⟩), some (.listNode ⟨4, 4, none⟩)]⟩, some 3⟩

theorem delete_last_key_of_leaf_hangs :
    Returns (fun fuel => Tree.calls Order.six.config fuel sixSet {}) twoLeaves ∧
      ¬ Ends (fun fuel => twoLeaves.deleteKey fuel 6) := by
  refine ⟨⟨3, ?_⟩, Starves.not_ends ⟨3, ?_⟩⟩
  · intro fuel hfuel
    obtain ⟨k, rfl⟩ : ∃ k, fuel = k + 3 := ⟨fuel - 3, by omega⟩
    rfl
  · -- the loop is left with the node of 4 behind the node of 1
    intro fuel hfuel
    obtain ⟨k, rfl⟩ : ∃ k, fuel = k + 3 := ⟨fuel - 3, by omega⟩
    let h := twoLeaves.heap.write 4 (.leaf ⟨none, ⟨[], 0⟩⟩)
    have hloop : deleteChildLoop (k + 2) h 1 6 = .outOfFuel :=
      deleteChildLoop_stays (l := ⟨1, 0, some 5⟩) (a := 5)
        (n := ⟨4, 4, none⟩) rfl rfl rfl (by decide) (k + 2)
    have hbase : baseDeleteKey (k + 3) twoLeaves.heap 3 6 =
        (deleteChildLoop (k + 2) h 1 6 >>= fun h' => .ok (h', true)) := rfl
    rw [hloop] at hbase
    simp only [Tree.deleteKey, twoLeaves] at hbase ⊢
    rw [hbase]
    rfl

/-- The leaves of 250, 280 and 310 are emptied, each in its turn the first child of its node, and
the keys are set again.  The node then counts three list nodes too many, and `split` cuts it
behind its list, at the list node of 340. -/
def refill : List (Call Nat Nat) :=
  [260, 270, 250, 290, 300, 280, 320, 330, 310].map .delete ++
    [250, 260, 270, 280, 290, 300, 310, 320, 330].map fun k => .set k 0

def endlessCalls : List (Call Nat Nat) :=
  ((List.range 69).map fun i => .set (10 * (i + 1)) 0) ++ refill ++
    ([11, 12, 13, 41, 42, 43, 71, 72, 73].map fun k => .set k 0) ++ refill ++ refill

/-- A descent may go in a circle: every cut puts one more list node of 340 behind the last one, and
the right half of the node above starts with the first of them. -/
theorem reached_descent_without_end :
    ∃ t, Returns (fun fuel => Tree.calls Order.six.config fuel endlessCalls {}) t ∧
      ¬ DescentEnds t 340 := by
  have hrun : (do
      let t ← Tree.calls Order.six.config 12 endlessCalls ({} : Tree Nat Nat)
      let q ← getChildGe 12 t.heap 71 340
      let q' ← getChildGe 12 t.heap 101 340
      let leaf ← isLeaf t.heap 101
      Outcome.ok (t.mRoot, q, q', leaf)) = .ok (some 71, 101, 101, false) := by decide +kernel
  obtain ⟨t, ht, hrun⟩ := Outcome.bind_eq_ok.mp hrun
  obtain ⟨q, hq, hrun⟩ := Outcome.bind_eq_ok.mp hrun
  obtain ⟨q', hq', hrun⟩ := Outcome.bind_eq_ok.mp hrun
  obtain ⟨leaf, hleaf, hrun⟩ := Outcome.bind_eq_ok.mp hrun
  obtain ⟨hroot, rfl, rfl, rfl⟩ := by simpa using Outcome.ok.inj hrun
  refine ⟨t, (Tree.calls_settles _ _ _).returns ht, fun hends => ?_⟩
  have hstarves : Starves (fun fuel => findLeaf fuel t.heap 71 340) :=
    ⟨0, fun fuel _ => findLeaf_circles ((getChildGe_settles _ _ _).returns hq)
      ((getChildGe_settles _ _ _).returns hq') hleaf⟩
  exact hstarves.not_ends (hends 71 hroot)

/-! ## An emptied tree -/

/-- The root is there, and counts list nodes. -/
def Tree.Rooted (t : Tree K V) : Prop :=
  ∃ (root : Nat) (n : Internal), t.mRoot = some root ∧ t.heap.read root = some (.internal n) ∧
    n.mSize ≠ 0

theorem Tree.Kept.rooted {t : Tree K V} (hk : t.Kept cfg) (hroot : t.mRoot ≠ none) : t.Rooted := by
  obtain ⟨root, hroot⟩ := Option.ne_none_iff_exists'.mp hroot
  obtain ⟨n, hn⟩ := hk.root root hroot
  have hcell : CellKept cfg.maxSize none root (.internal n : Cell K V) := hk.cells root _ hn
  exact ⟨root, n, hroot, hn, hcell.1⟩

theorem Tree.set_mRoot_ne_none {t t' : Tree K V} {fuel : Nat} {key : K} {val : V}
    (hrun : t.set cfg fuel key val = .ok t') : t'.mRoot ≠ none := by
  unfold Tree.set at hrun
  split at hrun
  · obtain ⟨r, -, hrun⟩ := Outcome.bind_eq_ok.mp hrun
    obtain rfl := Outcome.ok.inj hrun
    exact Option.some_ne_none _
  · obtain ⟨r, -, hrun⟩ := Outcome.bind_eq_ok.mp hrun
    split at hrun
    · obtain rfl := Outcome.ok.inj hrun
      exact Option.some_ne_none _
    · obtain rfl := Outcome.ok.inj hrun
      exact Option.some_ne_none _

/-- No call takes the root away. -/
theorem Tree.Kept.call_mRoot {t t' : Tree K V} (hk : t.Kept cfg) {fuel : Nat}
    {c : Call K V} (hrun : t.call cfg fuel c = .ok t') (hroot : t.mRoot ≠ none) :
    t'.mRoot ≠ none := by
  cases c with
  | set key val => exact Tree.set_mRoot_ne_none hrun
  | delete key =>
    obtain ⟨root, hroot⟩ := Option.ne_none_iff_exists'.mp hroot
    obtain ⟨r, hr, hrun⟩ := Outcome.bind_eq_ok.mp hrun
    obtain rfl := Outcome.ok.inj hrun
    rw [hk.deleteKey_eq hroot] at hr
    obtain ⟨r', -, hr⟩ := Outcome.bind_eq_ok.mp hr
    obtain rfl := Outcome.ok.inj hr
    exact Option.some_ne_none _

theorem Tree.Kept.calls_mRoot (hcfg : cfg.Admissible) {t t' : Tree K V} (hk : t.Kept cfg)
    {fuel : Nat} {cs : List (Call K V)} (hrun : Tree.calls cfg fuel cs t = .ok t')
    (hroot : t.mRoot ≠ none) :
    t'.mRoot ≠ none := by
  induction cs generalizing t with
  | nil =>
    obtain rfl := Outcome.ok.inj hrun
    exact hroot
  | cons c cs ih =>
    obtain ⟨t₁, hcall, hrest⟩ := Outcome.bind_eq_ok.mp hrun
    exact ih (Tree.call_kept hcfg hk hcall) hrest (hk.call_mRoot hcall hroot)

/-- The pairs are set and then the keys are deleted. -/
def emptying (calls : List (K × V)) (deleted : List K) : List (Call K V) :=
  calls.map (fun c => .set c.1 c.2) ++ deleted.map .delete

/-- Whatever keys are set and deleted again, in whatever order: where every call returns, the root
is not null, and its counter is not zero. -/
theorem emptying_keeps_root (o : Order) {calls : List (K × V)} (hne : calls ≠ []) {deleted : List K}
    {t : Tree K V}
    (hrun : Returns (fun fuel => Tree.calls o.config fuel (emptying calls deleted) {}) t) :
    t.Rooted := by
  obtain ⟨bound, hrun⟩ := hrun
  have hrun := hrun bound le_rfl
  have hk : t.Kept o.config := Tree.calls_kept o.admissible Tree.kept_empty hrun
  refine hk.rooted ?_
  obtain ⟨c, rest, rfl⟩ := List.exists_cons_of_ne_nil hne
  obtain ⟨t₁, hset, hrest⟩ := Outcome.bind_eq_ok.mp hrun
  have hk₁ : t₁.Kept o.config := Tree.call_kept o.admissible Tree.kept_empty hset
  have hset : Tree.set o.config bound {} c.1 c.2 = .ok t₁ := hset
  exact hk₁.calls_mRoot o.admissible hrest (Tree.set_mRoot_ne_none hset)

/-- The tree after the key 5 was set and deleted: the root has no list, and counts one. -/
def hollow : Tree Nat Nat :=
  ⟨⟨[some (.leaf ⟨none, ⟨[], 0⟩⟩), none, some (.leaf ⟨some 0, ⟨[], 0⟩⟩),
    some (.internal ⟨2, none, 1⟩)]⟩, some 3⟩

theorem hollow_run :
    Returns (fun fuel => Tree.calls Order.six.config fuel (emptying [(5, 50)] [5]) {}) hollow := by
  refine ⟨2, fun fuel hfuel => ?_⟩
  obtain ⟨k, rfl⟩ : ∃ k, fuel = k + 2 := ⟨fuel - 2, by omega⟩
  rfl

theorem emptying_keeps_root_hollow : hollow.Rooted :=
  emptying_keeps_root Order.six (by decide) hollow_run

/-- The root of the emptied tree is not null, and the next `set` runs into the null pointer to its
list. -/
theorem emptied_root_stays :
    Returns (fun fuel => Tree.calls Order.six.config fuel (emptying [(5, 50)] [5]) {}) hollow ∧
      hollow.mRoot ≠ none ∧
      ∀ key, Faults (fun fuel => hollow.set Order.six.config fuel key 0) .nullPointer := by
  refine ⟨hollow_run, by decide, fun key => ⟨1, fun fuel hfuel => ?_⟩⟩
  obtain ⟨k, rfl⟩ : ∃ k, fuel = k + 1 := ⟨fuel - 1, by omega⟩
  rfl

end StateDb.Bpt
