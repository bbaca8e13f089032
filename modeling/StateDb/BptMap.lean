/-
  StateDb/BptMap.lean
  ===================
  **A tree that is only set into is a finite map.**

  `IsTree cfg Q t entries`: the tree represents the sorted list `entries`, and its
  leaves are linked from the first to the last.  `set` keeps it and changes the
  entries by `upsert` (`Tree.set_spec`); `get` looks the entries up
  (`Tree.get_spec`), and `iterate` runs through them (`Tree.iterate_spec`).
-/
import StateDb.BptInsert

namespace StateDb.Bpt

open Lib Lib.SortedAssoc

variable {K V : Type} [LinearOrder K] {cfg : Config} {Q : LeafPolicy K V}

/-- An `ORDER` the tree can be instantiated with. -/
structure Order where
  val : Nat
  three_le : 3 ≤ val
  lt_size : val < sizeMod

/-- The order of the database's tree. -/
def Order.six : Order := ⟨6, by decide, by decide⟩

/-- A tree of this order, in zeroed memory. -/
def Order.config (o : Order) : Config := ⟨o.val, fun _ => 0⟩

theorem Order.admissible (o : Order) : o.config.Admissible :=
  ⟨o.three_le, o.lt_size, fun _ => rfl⟩

/-! ## The invariant -/

structure IsRoot (cfg : Config) (Q : LeafPolicy K V) (h : Heap K V) (root : Nat)
    (entries : List (K × V)) (d : Nat) (s : Span K V) : Prop where
  node : HasInternal cfg.maxSize h (Rep cfg Q h d) ⊥ ⊤ root s
  nodup : s.foot.Nodup
  chain : LeafChain h s.leaves none
  entries : s.entries = entries

def IsTree (cfg : Config) (Q : LeafPolicy K V) (t : Tree K V) (entries : List (K × V)) : Prop :=
  (t.mRoot = none ∧ entries = []) ∨
    ∃ root d s, t.mRoot = some root ∧ IsRoot cfg Q t.heap root entries d s

theorem IsRoot.rep {h : Heap K V} {root : Nat} {entries : List (K × V)} {d : Nat} {s : Span K V}
    (hr : IsRoot cfg Q h root entries d s) : Rep cfg Q h (d + 1) ⊥ ⊤ root s :=
  Or.inr (Or.inr hr.node)

theorem isTree_empty : IsTree cfg Q ({} : Tree K V) [] := Or.inl ⟨rfl, rfl⟩

theorem IsTree.sorted {t : Tree K V} {entries : List (K × V)} (ht : IsTree cfg Q t entries) :
    Sorted entries := by
  rcases ht with ⟨-, rfl⟩ | ⟨root, d, s, -, hr⟩
  · exact sorted_nil
  · exact hr.entries ▸ hr.rep.inRange.1

/-! ## `get` and `iterate` -/

theorem Tree.get_spec {t : Tree K V} {entries : List (K × V)} (ht : IsTree cfg Q t entries)
    (key : K) : Returns (fun fuel => t.get fuel key) (entries.lookup key) := by
  rcases ht with ⟨hroot, rfl⟩ | ⟨root, d, s, hroot, hr⟩
  · exact ⟨0, fun fuel _ => by simp only [Tree.get, hroot, List.lookup_nil]⟩
  · have hget := getValPtr_spec hr.rep key bot_le (WithTop.coe_lt_top key)
    rw [hr.entries] at hget
    exact hget.congr fun fuel => by simp only [Tree.get, hroot]

theorem Tree.iterate_spec {t : Tree K V} {entries : List (K × V)} (ht : IsTree cfg Q t entries) :
    Returns (fun fuel => t.iterate fuel) entries := by
  rcases ht with ⟨hroot, rfl⟩ | ⟨root, d, s, hroot, hr⟩
  · exact ⟨0, fun fuel _ => by simp only [Tree.iterate, hroot]⟩
  · obtain ⟨-, hiter⟩ := baseIterate_spec hr.rep
    have hes : s.leaves.flatMap (leafNodes t.heap) = entries :=
      hr.rep.entries_eq.symm.trans hr.entries
    exact (hiter entries (hes ▸ leafIterate_spec hr.chain)).congr fun fuel => by
      simp only [Tree.iterate, hroot]

/-! ## `set` -/

/-- The first `set`: a leaf with the pair, and a root with an empty lesser leaf. -/
theorem newInternal_leaves (hcfg : cfg.Admissible) (h : Heap K V) (key : K) (val : V) :
    ∃ h' root n seps spans,
      newInternal cfg (newLeafWith cfg h key val).1 (newLeafWith cfg h key val).2 = .ok (h', root) ∧
      IsInternal cfg.maxSize h'
        (fun lo hi p s => ∃ l, IsLeaf cfg.maxSize Q h' lo hi p l ∧ s = leafSpan p l) ⊥ ⊤ root n seps
        none spans ∧
      (internalSpan root seps spans).foot.Nodup ∧
      LeafChain h' (internalSpan root seps spans).leaves none ∧
      (internalSpan root seps spans).entries = [(key, val)] := by
  let leaf : Leaf K V := ⟨none, ⟨[(key, val)], 1⟩⟩
  let lesser : Leaf K V := ⟨some h.fresh, ⟨[], 0⟩⟩
  let h₁ := h.alloc (.leaf leaf)
  let h₂ := h₁.alloc (.listNode ⟨key, h.fresh, none⟩)
  let h₃ := h₂.alloc (.leaf lesser)
  let root : Internal := ⟨h.fresh + 2, some (h.fresh + 1), 1⟩
  let h₄ := h₃.alloc (.internal root)
  have hfresh₁ : h₁.fresh = h.fresh + 1 := CellStore.fresh_alloc ..
  have hfresh₂ : h₂.fresh = h.fresh + 2 := by simp [h₂, hfresh₁]
  have hfresh₃ : h₃.fresh = h.fresh + 3 := by simp [h₃, hfresh₂]
  have hleaf₁ : h₁.read h.fresh = some (.leaf leaf) := CellStore.read_alloc_self ..
  have hleaf₂ : h₂.read h.fresh = some (.leaf leaf) := by
    rw [CellStore.read_alloc_of_lt (by omega), hleaf₁]
  have hleaf : h₄.read h.fresh = some (.leaf leaf) := by
    rw [CellStore.read_alloc_of_lt (by omega), CellStore.read_alloc_of_lt (by omega), hleaf₂]
  have hnode : h₄.read (h.fresh + 1) = some (.listNode ⟨key, h.fresh, none⟩) := by
    rw [CellStore.read_alloc_of_lt (by omega), CellStore.read_alloc_of_lt (by omega), ← hfresh₁,
      CellStore.read_alloc_self]
  have hlesser : h₄.read (h.fresh + 2) = some (.leaf lesser) := by
    rw [CellStore.read_alloc_of_lt (by omega), ← hfresh₂, CellStore.read_alloc_self]
  have hroot : h₄.read (h.fresh + 3) = some (.internal root) := by
    rw [← hfresh₃, CellStore.read_alloc_self]
  have hmax : cfg.maxSize = cfg.order - 1 := rfl
  have h3 := hcfg.three_le
  have hnew : (newLeafWith cfg h key val).1 = h₁ := by
    simp only [newLeafWith, LeafList.set, hcfg.zeroed]
    rfl
  refine ⟨h₄, h.fresh + 3, root, [⟨h.fresh + 1, key, h.fresh⟩],
    [leafSpan (h.fresh + 2) lesser, leafSpan h.fresh leaf], ?_,
    ⟨hroot, ⟨rfl, none, hnode, rfl⟩, fun a ha => (by cases ha), rfl, by simp, ?_,
      List.pairwise_singleton _ _, fun e _ => bot_le, fun e _ => WithTop.coe_lt_top _, ?_⟩,
    ?_, ?_, ?_⟩
  · rw [hnew]
    simp only [newInternal, newLeafWith, primaryKey, hleaf₁, leaf, LeafList.getRootKey,
      Outcome.ok_bind, newLeaf, hcfg.zeroed]
    rw [isLeaf_of_leaf hleaf₂]
    simp only [Outcome.ok_bind, if_true, hfresh₁]
    show Outcome.ok (h₃.alloc (.internal ⟨h₂.fresh, some (h.fresh + 1), 1⟩), h₃.fresh) = _
    rw [hfresh₂, hfresh₃]
  · simp only [List.length_singleton]
    omega
  · refine .cons ⟨lesser, ⟨hlesser, sorted_nil, rfl, Nat.zero_le _, ?_, ?_, ?_⟩, rfl⟩
      (.cons ⟨leaf, ⟨hleaf, ?_, rfl, ?_, ?_, ?_, ?_⟩, rfl⟩ .nil)
    · simp [lesser]
    · simp [lesser]
    · exact Q.empty
    · exact List.pairwise_singleton _ _
    · simp only [leaf, List.length_singleton]
      omega
    · simp [leaf]
    · simp [leaf]
    · exact Q.singleton key val
  · simp [internalSpan, leafSpan]
  · exact ⟨⟨lesser, hlesser, rfl⟩, ⟨leaf, hleaf, rfl⟩, trivial⟩
  · simp [internalSpan, leafSpan, lesser, leaf]

theorem newInternal_spec (hcfg : cfg.Admissible) (h : Heap K V) (key : K) (val : V) :
    ∃ h' root d s, newInternal cfg (newLeafWith cfg h key val).1 (newLeafWith cfg h key val).2 =
      .ok (h', root) ∧ IsRoot cfg Q h' root [(key, val)] d s := by
  obtain ⟨h', root, n, seps, spans, hrun, hn, hnd, hchain, hent⟩ :=
    newInternal_leaves (Q := Q) hcfg h key val
  refine ⟨h', root, 1, _, hrun, ⟨n, seps, none, spans, hn.mono ?_, rfl⟩, hnd, hchain, hent⟩
  intro lo hi p s hl
  exact Or.inr (Or.inl hl)

theorem Tree.set_spec (hcfg : cfg.Admissible) {t : Tree K V} {entries : List (K × V)}
    (ht : IsTree cfg Q t entries) (key : K) (val : V) :
    ∃ t', Returns (fun fuel => t.set cfg fuel key val) t' ∧
      IsTree cfg Q t' (upsert key val entries) := by
  have h3 := hcfg.three_le
  have hmax : cfg.maxSize = cfg.order - 1 := rfl
  rcases ht with ⟨hroot, rfl⟩ | ⟨root, d, s, hroot, hr⟩
  · obtain ⟨h', root, d, s, hrun, hr⟩ := newInternal_spec (Q := Q) hcfg t.heap key val
    refine ⟨⟨h', some root⟩, ⟨0, ?_⟩, Or.inr ⟨root, d, s, rfl, hr⟩⟩
    intro fuel _
    simp only [Tree.set, hroot, hrun, Outcome.ok_bind]
  · obtain ⟨r, hrun, hres⟩ := internalSet_spec hcfg hr.node hr.nodup key val bot_le
      (WithTop.coe_lt_top key)
    rw [hr.entries] at hres
    cases hres with
    | whole h' d' s' node replaces eq =>
      refine ⟨⟨h', some root⟩, ?_, Or.inr ⟨root, d', s', rfl, node, replaces.owns.nodup,
        replaces.chain none hr.chain, eq⟩⟩
      simp only [Tree.set, hroot]
      exact Returns.bind hrun (Returns.const rfl)
    | halves h' d' R m k q s₁ s₂ isRoot replaces eq =>
      have hnode := isRoot.halved.root (by omega)
      refine ⟨⟨h', some R⟩, ?_, Or.inr ⟨R, d' + 1, internalSpan R [⟨m, k, q⟩] [s₁, s₂], rfl,
        ⟨_, _, _, _, hnode.mono fun _ _ _ _ hc => Or.inr (Or.inr hc), rfl⟩, replaces.root_nodup k q,
        ?_, ?_⟩⟩
      · simp only [Tree.set, hroot]
        exact Returns.bind hrun (Returns.const rfl)
      · have hchain := replaces.chain none hr.chain
        simpa [internalSpan, Span.join, rootSpan] using hchain
      · simpa [internalSpan] using eq

/-! ## Runs of `set` -/

/-- A sequence of `set` calls. -/
def Tree.setAll (cfg : Config) (fuel : Nat) : List (K × V) → Tree K V → Outcome Fault (Tree K V)
  | [], t => .ok t
  | (key, val) :: calls, t => do
      let t' ← t.set cfg fuel key val
      Tree.setAll cfg fuel calls t'

/-- The value of the last `set` of a key. -/
def lastSet (calls : List (K × V)) (key : K) : Option V :=
  calls.reverse.lookup key

/-- The entries after a sequence of `set` calls. -/
def setEntries (calls : List (K × V)) (entries : List (K × V)) : List (K × V) :=
  calls.foldl (fun es c => upsert c.1 c.2 es) entries

theorem Tree.setAll_spec (hcfg : cfg.Admissible) (calls : List (K × V)) {t : Tree K V}
    {entries : List (K × V)} (ht : IsTree cfg Q t entries) :
    ∃ t', Returns (fun fuel => Tree.setAll cfg fuel calls t) t' ∧
      IsTree cfg Q t' (setEntries calls entries) := by
  induction calls generalizing t entries with
  | nil => exact ⟨t, Returns.const rfl, ht⟩
  | cons c calls ih =>
    obtain ⟨t₁, hrun₁, ht₁⟩ := Tree.set_spec hcfg ht c.1 c.2
    obtain ⟨t₂, hrun₂, ht₂⟩ := ih ht₁
    exact ⟨t₂, Returns.bind hrun₁ hrun₂, ht₂⟩

theorem lookup_setEntries (calls : List (K × V)) (entries : List (K × V)) (key : K) :
    (setEntries calls entries).lookup key = (lastSet calls key).or (entries.lookup key) := by
  induction calls generalizing entries with
  | nil => rfl
  | cons c calls ih =>
    obtain ⟨k, v⟩ := c
    show (setEntries calls (upsert k v entries)).lookup key = _
    rw [ih, lookup_upsert, lastSet, lastSet, List.reverse_cons, List.lookup_append]
    rw [lookup_cons_pair]
    cases List.lookup key calls.reverse with
    | some w => rfl
    | none => by_cases hk : key = k <;> simp [hk]

/-- However often and in whatever order keys are set, `get` finds the last value
of each, and no call meets a null pointer. -/
theorem set_map_law (o : Order) (calls : List (K × V)) :
    ∃ t, Returns (fun fuel => Tree.setAll o.config fuel calls {}) t ∧
      ∀ key, Returns (fun fuel => t.get fuel key) (lastSet calls key) := by
  obtain ⟨t, hrun, ht⟩ := Tree.setAll_spec (Q := LeafPolicy.any) o.admissible calls isTree_empty
  refine ⟨t, hrun, ?_⟩
  intro key
  have hget := Tree.get_spec ht key
  rw [lookup_setEntries] at hget
  simpa using hget

/-- `iterate` calls its function with every key that was set, once, in increasing
order, and with the key's last value. -/
theorem iterate_agrees (o : Order) (calls : List (K × V)) :
    ∃ t es, Returns (fun fuel => Tree.setAll o.config fuel calls {}) t ∧
      Returns (fun fuel => t.iterate fuel) es ∧
      es.Pairwise (fun p q => p.1 < q.1) ∧
      ∀ key val, (key, val) ∈ es ↔ lastSet calls key = some val := by
  obtain ⟨t, hrun, ht⟩ := Tree.setAll_spec (Q := LeafPolicy.any) o.admissible calls isTree_empty
  refine ⟨t, _, hrun, Tree.iterate_spec ht, ht.sorted, ?_⟩
  intro key val
  rw [← lookup_eq_some_iff ht.sorted, lookup_setEntries]
  simp

/-- The heap of a tree with one leaf, as the first `set` leaves it. -/
def oneLeaf (nodes : List (Nat × Nat)) : Tree Nat Nat :=
  ⟨⟨[some (.leaf ⟨none, ⟨nodes, nodes.length⟩⟩), some (.listNode ⟨5, 0, none⟩),
    some (.leaf ⟨some 0, ⟨[], 0⟩⟩), some (.internal ⟨2, some 1, 1⟩)]⟩, some 3⟩

end StateDb.Bpt
