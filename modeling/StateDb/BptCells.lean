/-
  StateDb/BptCells.lean
  =====================
  **What every cell keeps** (`leaf.h`, `bpt_internal.h`, `bpt.h`).

  Once `delete_child` has run, the counter of a node and its list no longer agree, and the tree
  is none that `Rep` describes.  What the cells say by themselves still holds, in every heap that
  `set` and `delete_key` calls lead to: a leaf has a sorted list with an exact counter, and an
  internal node counts from one to `max_size` (`Tree.calls_kept`).

  What the internal nodes count does not rest on the leaves.  It is proved with any invariant of
  theirs (`LeafInvariant`), also with none, where the memory of a leaf held whatever it did.
-/
import StateDb.BptDeleteChild

namespace StateDb.Bpt

open Lib Lib.SortedAssoc

variable {K V : Type} [LinearOrder K] {cfg : Config}

/-- What a cell keeps.  The internal node `full` may count one list node too many. -/
def CellKept (cap : Nat) (full : Option Nat) (a : Nat) : Cell K V → Prop
  | .leaf l => l.mList.Kept cap
  | .internal n => n.mSize ≠ 0 ∧ (n.mSize ≤ cap ∨ full = some a ∧ n.mSize ≤ cap + 1)
  | .listNode _ => True

/-- What a cell keeps, with something else for the leaves. -/
def CellCounts (L : Leaf K V → Prop) (cap : Nat) (full : Option Nat) (a : Nat) : Cell K V → Prop
  | .leaf l => L l
  | .internal n => n.mSize ≠ 0 ∧ (n.mSize ≤ cap ∨ full = some a ∧ n.mSize ≤ cap + 1)
  | .listNode _ => True

theorem cellKept_eq (cap : Nat) (full : Option Nat) : (CellKept cap full : Nat → Cell K V → Prop) =
    CellCounts (fun l => l.mList.Kept cap) cap full := by
  funext a c
  cases c <;> rfl

variable {L : Leaf K V → Prop}

omit [LinearOrder K] in
theorem cellCounts_leaf {cap a : Nat} {l : Leaf K V} (hl : L l) (full : Option Nat) :
    CellCounts L cap full a (.leaf l) := hl

omit [LinearOrder K] in
theorem cellCounts_listNode (cap a : Nat) (full : Option Nat) (n : ListNode K) :
    CellCounts L cap full a (.listNode n : Cell K V) := trivial

omit [LinearOrder K] in
theorem cellCounts_internal {cap a : Nat} {n : Internal} (hpos : n.mSize ≠ 0) (hle : n.mSize ≤ cap)
    (full : Option Nat) : CellCounts L cap full a (.internal n : Cell K V) :=
  ⟨hpos, Or.inl hle⟩

omit [LinearOrder K] in
theorem CellCounts.full {cap a : Nat} {c : Cell K V} (hc : CellCounts L cap none a c)
    (full : Option Nat) : CellCounts L cap full a c := by
  cases c with
  | leaf l => exact hc
  | internal n => exact ⟨hc.1, Or.inl (hc.2.resolve_right fun h => by cases h.1)⟩
  | listNode n => trivial

omit [LinearOrder K] in
theorem CellCounts.within {cap a b : Nat} {c : Cell K V} (hb : b ≠ a)
    (hc : CellCounts L cap (some a) b c) : CellCounts L cap none b c := by
  cases c with
  | leaf l => exact hc
  | internal n => exact ⟨hc.1, hc.2.imp_right fun h => absurd (Option.some.inj h.1).symm hb⟩
  | listNode n => trivial

/-- Every cell keeps what it should. -/
abbrev HeapKept (cfg : Config) (full : Option Nat) (h : Heap K V) : Prop :=
  h.Every (CellKept cfg.maxSize full)

abbrev HeapCounts (L : Leaf K V → Prop) (cfg : Config) (full : Option Nat) (h : Heap K V) : Prop :=
  h.Every (CellCounts L cfg.maxSize full)

/-- What the functions of a leaf keep of it, whatever fresh memory holds. -/
structure LeafInvariant (cfg : Config) (L : Leaf K V → Prop) : Prop where
  empty : ∀ next a, L ⟨next, ⟨[], cfg.staleSize a⟩⟩
  first : ∀ a key val, L ⟨none, (LeafList.mk [] (cfg.staleSize a)).set key val⟩
  whole : ∀ {l key val}, L l →
    (l.mList.set key val).size ≤ cfg.maxSize ∨ (l.mList.set key val).split = .ok none →
    L { l with mList := l.mList.set key val }
  cut : ∀ {l key val left right}, L l → cfg.maxSize < (l.mList.set key val).size →
    (l.mList.set key val).split = .ok (some (left, right)) →
    ∀ q, L ⟨some q, left⟩ ∧ L ⟨l.mNext, right⟩
  delete : ∀ {l key r}, L l → l.mList.deleteKey key = .ok r → L { l with mList := r.1 }

/-- Of every leaf nothing is kept. -/
theorem leafInvariant_true (cfg : Config) : LeafInvariant cfg (fun _ : Leaf K V => True) where
  empty _ _ := trivial
  first _ _ _ := trivial
  whole _ _ := trivial
  cut _ _ _ _ := ⟨trivial, trivial⟩
  delete _ _ := trivial

theorem Config.Admissible.leafInvariant (hcfg : cfg.Admissible) :
    LeafInvariant cfg (fun l : Leaf K V => l.mList.Kept cfg.maxSize) where
  empty next a := by
    rw [hcfg.zeroed]
    exact LeafList.Kept.empty cfg.maxSize
  first a key val := by
    have h3 := hcfg.three_le
    have hmax : cfg.maxSize = cfg.order - 1 := rfl
    rw [hcfg.zeroed]
    exact ((LeafList.Kept.empty 0).set key val (by decide)).mono (by omega)
  whole {l key val} hl hfit := by
    have h3 := hcfg.three_le
    have hlt := hcfg.lt_size
    have hmax : cfg.maxSize = cfg.order - 1 := rfl
    have hset := hl.set key val (by omega)
    have hsize : (l.mList.set key val).size = (l.mList.set key val).nodes.length := hset.sized
    refine ⟨hset.sorted, hset.sized, ?_⟩
    rcases hfit with hfit | hnone
    · exact hsize ▸ hfit
    · by_contra hfull
      obtain ⟨left, right, hsplit, -, -⟩ := hset.split (by omega) (not_le.mp hfull)
      rw [hsplit] at hnone
      cases hnone
  cut {l key val left right} hl hfull hsplit q := by
    have h3 := hcfg.three_le
    have hlt := hcfg.lt_size
    have hmax : cfg.maxSize = cfg.order - 1 := rfl
    have hset := hl.set key val (by omega)
    have hsize : (l.mList.set key val).size = (l.mList.set key val).nodes.length := hset.sized
    obtain ⟨left', right', hsplit', hleft, hright⟩ := hset.split (by omega) (hsize ▸ hfull)
    rw [hsplit'] at hsplit
    obtain ⟨rfl, rfl⟩ := Prod.mk.inj (Option.some.inj (Outcome.ok.inj hsplit))
    exact ⟨hleft, hright⟩
  delete hl hrun := by
    have hlt := hcfg.lt_size
    have hmax : cfg.maxSize = cfg.order - 1 := rfl
    exact hl.deleteKey (by omega) hrun

/-- An order with which leaves and internal nodes can always be cut in two. -/
structure Config.Cuts (cfg : Config) : Prop where
  three_le : 3 ≤ cfg.order
  lt_size : cfg.order < sizeMod

theorem Config.Admissible.cuts (hcfg : cfg.Admissible) : cfg.Cuts := ⟨hcfg.three_le, hcfg.lt_size⟩

section Counts

variable (hcfg : cfg.Cuts) (hL : LeafInvariant cfg L) {h : Heap K V}

include hcfg

/-! ## `leaf` -/

omit hcfg in include hL in
theorem newLeaf_counts {full : Option Nat} (hk : HeapCounts L cfg full h) :
    HeapCounts L cfg full (newLeaf cfg h).1 :=
  hk.alloc (cellCounts_leaf (hL.empty none h.fresh) full)

omit hcfg in include hL in
theorem newLeafWith_counts (hk : HeapCounts L cfg none h) (key : K) (val : V) :
    HeapCounts L cfg none (newLeafWith cfg h key val).1 :=
  hk.alloc (cellCounts_leaf (hL.first h.fresh key val) none)

omit hcfg in include hL in
/-- The leaf that the pair went into may hold one pair too many until it is cut. -/
theorem leafInsert_counts (hk : HeapCounts L cfg none h) {this : Nat} {key : K} {val : V}
    {r : Heap K V × Option Nat} (hrun : leafInsert cfg h this key val = .ok r) :
    HeapCounts L cfg none r.1 := by
  obtain ⟨l, hl, hrun⟩ := Outcome.bind_eq_ok.mp hrun
  have hcell := derefLeaf_ok hl
  have hkeep : L l := hk this _ hcell
  have hwhole (hset : L { l with mList := l.mList.set key val }) :
      HeapCounts L cfg none (h.write this (.leaf { l with mList := l.mList.set key val })) :=
    hk.write (fun _ _ _ hc => hc) (cellCounts_leaf hset none)
  dsimp only at hrun
  split at hrun
  · rename_i hfull
    simp only [leafSplit, derefLeaf_eq (CellStore.read_write_self hcell), Outcome.ok_bind] at hrun
    obtain ⟨halves, hsplit, hrun⟩ := Outcome.bind_eq_ok.mp hrun
    cases halves with
    | none =>
      obtain rfl := Outcome.ok.inj hrun
      exact (newLeaf_counts hL (hwhole (hL.whole hkeep (Or.inr hsplit)))).free _
    | some halves =>
      obtain ⟨left, right⟩ := halves
      obtain rfl := Outcome.ok.inj hrun
      obtain ⟨hleft, hright⟩ := hL.cut hkeep hfull hsplit h.fresh
      have hothers : (h.write this (.leaf { l with mList := l.mList.set key val })).Every
          fun b c => b ≠ this → CellCounts L cfg.maxSize none b c :=
        hk.write (fun _ _ _ hc _ => hc) (fun hne => absurd rfl hne)
      refine (hothers.alloc fun _ => cellCounts_leaf hright none).write (fun _ _ hb hc => hc hb) ?_
      rw [CellStore.fresh_write]
      exact cellCounts_leaf hleft none
  · rename_i hfit
    obtain rfl := Outcome.ok.inj hrun
    exact hwhole (hL.whole hkeep (Or.inl (not_lt.mp hfit)))

/-! ## `bpt_internal` -/

include hL in
theorem newInternal_counts (hk : HeapCounts L cfg none h) {l : Nat} {r : Heap K V × Nat}
    (hrun : newInternal cfg h l = .ok r) : HeapCounts L cfg none r.1 := by
  have h3 := hcfg.three_le
  have hmax : cfg.maxSize = cfg.order - 1 := rfl
  obtain ⟨key, -, hrun⟩ := Outcome.bind_eq_ok.mp hrun
  obtain ⟨lIsLeaf, -, hrun⟩ := Outcome.bind_eq_ok.mp hrun
  obtain rfl := Outcome.ok.inj hrun
  have hk₁ : HeapCounts L cfg none (h.alloc (.listNode ⟨key, l, none⟩)) := hk.alloc trivial
  refine CellStore.Every.alloc ?_ (cellCounts_internal Nat.one_ne_zero (by simp only; omega) none)
  split
  · exact hk₁.alloc (cellCounts_leaf (hL.empty _ _) none)
  · exact newLeaf_counts hL hk₁

/-- The node that the list node goes into may count one too many. -/
theorem insertNode_counts (hk : HeapCounts L cfg none h) {fuel this first after : Nat} {key : K}
    {h' : Heap K V} (hrun : insertNode fuel h this key first after = .ok h') :
    HeapCounts L cfg (some this) h' := by
  have hlt := hcfg.lt_size
  have hmax : cfg.maxSize = cfg.order - 1 := rfl
  obtain ⟨n, hn, hrun⟩ := Outcome.bind_eq_ok.mp hrun
  obtain ⟨root, -, hrun⟩ := Outcome.bind_eq_ok.mp hrun
  obtain ⟨r, -, hrun⟩ := Outcome.bind_eq_ok.mp hrun
  obtain ⟨-, hle⟩ := hk this _ (derefInternal_ok hn)
  have hle := hle.resolve_right fun h => by cases h.1
  have h3 := hcfg.three_le
  have hinc : sizeInc n.mSize = n.mSize + 1 := sizeInc_of_lt (by omega)
  have hthis : sizeInc n.mSize ≠ 0 ∧
      (sizeInc n.mSize ≤ cfg.maxSize ∨
        some this = some this ∧ sizeInc n.mSize ≤ cfg.maxSize + 1) := by
    rw [hinc]
    exact ⟨Nat.succ_ne_zero _, Or.inr ⟨rfl, by omega⟩⟩
  split at hrun
  · obtain rfl := Outcome.ok.inj hrun
    exact CellStore.Every.write (hk.alloc (cellCounts_listNode ..))
      (fun _ _ _ hc => hc.full _) hthis
  · obtain ⟨node, -, hrun⟩ := Outcome.bind_eq_ok.mp hrun
    obtain ⟨m, -, hrun⟩ := Outcome.bind_eq_ok.mp hrun
    obtain rfl := Outcome.ok.inj hrun
    have hk₁ : HeapCounts L cfg none ((h.alloc (.listNode ⟨key, after, m.mNext⟩)).write node
        (.listNode { m with mNext := some h.fresh })) :=
      CellStore.Every.write (hk.alloc (cellCounts_listNode ..)) (fun _ _ _ hc => hc)
        (cellCounts_listNode ..)
    exact hk₁.write (fun _ _ _ hc => hc.full _) hthis

theorem insertLeaf_counts (hk : HeapCounts L cfg none h) {fuel this l : Nat} {h' : Heap K V}
    (hrun : insertLeaf fuel h this l = .ok h') : HeapCounts L cfg (some this) h' := by
  obtain ⟨key, -, hrun⟩ := Outcome.bind_eq_ok.mp hrun
  exact insertNode_counts hcfg hk hrun

theorem insertInternal_counts (hk : HeapCounts L cfg none h) {fuel this iN : Nat} {h' : Heap K V}
    (hrun : insertInternal fuel h this iN = .ok h') : HeapCounts L cfg (some this) h' := by
  obtain ⟨key, -, hrun⟩ := Outcome.bind_eq_ok.mp hrun
  obtain ⟨n, -, hrun⟩ := Outcome.bind_eq_ok.mp hrun
  obtain ⟨root, -, hrun⟩ := Outcome.bind_eq_ok.mp hrun
  obtain ⟨r, -, hrun⟩ := Outcome.bind_eq_ok.mp hrun
  exact insertNode_counts hcfg hk hrun

omit [LinearOrder K] hcfg in
/-- The heap after a `split` that has found its middle node. -/
theorem exists_of_internalSplit {this : Nat} {r : Heap K V × Nat}
    (hrun : internalSplit h this = .ok r) :
    ∃ (n : Internal) (middleNode : Nat) (m : ListNode K), h.read this = some (.internal n) ∧
      h.read middleNode = some (.listNode m) ∧ r.2 = h.fresh ∧
      r.1 = (((h.alloc (.internal ⟨this, some middleNode, 1⟩)).alloc
          (.internal ⟨m.val, m.mNext, n.mSize - n.mSize / 2 - 1⟩)).write middleNode
        (.listNode { m with val := h.fresh + 1, mNext := none })).write this
          (.internal { n with mSize := n.mSize / 2 }) := by
  obtain ⟨n, hn, hrun⟩ := Outcome.bind_eq_ok.mp hrun
  obtain ⟨mid, -, hrun⟩ := Outcome.bind_eq_ok.mp hrun
  obtain ⟨middleNode, -, hrun⟩ := Outcome.bind_eq_ok.mp hrun
  obtain ⟨m, hm, hrun⟩ := Outcome.bind_eq_ok.mp hrun
  obtain rfl := Outcome.ok.inj hrun
  exact ⟨n, middleNode, m, derefInternal_ok hn, derefListNode_ok hm, rfl,
    by rw [CellStore.fresh_alloc]⟩

omit [LinearOrder K] in
/-- A node that counts one too many is cut in two halves that do not. -/
theorem internalSplit_counts {this : Nat} (hk : HeapCounts L cfg (some this) h) {n : Internal}
    (hn : h.read this = some (.internal n)) (hfull : cfg.maxSize < n.mSize) {r : Heap K V × Nat}
    (hrun : internalSplit h this = .ok r) : HeapCounts L cfg none r.1 := by
  have h3 := hcfg.three_le
  have hmax : cfg.maxSize = cfg.order - 1 := rfl
  have hsize := (hk this _ hn).2
  obtain ⟨n', middleNode, m, hn', -, -, heq⟩ := exists_of_internalSplit hrun
  rw [hn] at hn'
  cases hn'
  rw [heq]
  have hk₂ : HeapCounts L cfg (some this) ((h.alloc (.internal ⟨this, some middleNode, 1⟩)).alloc
      (.internal ⟨m.val, m.mNext, n.mSize - n.mSize / 2 - 1⟩)) := by
    refine CellStore.Every.alloc (hk.alloc ?_) ?_
    · exact cellCounts_internal Nat.one_ne_zero (by simp only; omega) _
    · exact cellCounts_internal (by simp only; omega) (by simp only; omega) _
  refine CellStore.Every.write (hk₂.write (fun _ _ _ hc => hc) (cellCounts_listNode ..))
    (fun _ _ hb hc => hc.within hb) ?_
  exact cellCounts_internal (by simp only; omega) (by simp only; omega) _

omit [LinearOrder K] in
theorem setEnd_counts {this : Nat} (hk : HeapCounts L cfg (some this) h) {r : Heap K V × Option Nat}
    (hrun : setEnd cfg h this = .ok r) : HeapCounts L cfg none r.1 := by
  obtain ⟨n, hn, hrun⟩ := Outcome.bind_eq_ok.mp hrun
  split at hrun
  · rename_i hfull
    obtain ⟨s, hsplit, hrun⟩ := Outcome.bind_eq_ok.mp hrun
    obtain rfl := Outcome.ok.inj hrun
    exact internalSplit_counts hcfg hk (derefInternal_ok hn) hfull hsplit
  · rename_i hfit
    obtain rfl := Outcome.ok.inj hrun
    have hread := derefInternal_ok hn
    have hsame : HeapCounts L cfg none (h.write this (.internal n)) :=
      hk.write (fun _ _ hb hc => hc.within hb)
        (cellCounts_internal (hk this _ hread).1 (not_lt.mp hfit) none)
    rwa [CellStore.write_read hread] at hsame

include hL in
theorem internalSet_counts (hk : HeapCounts L cfg none h) {fuel this : Nat} {key : K} {val : V}
    {r : Heap K V × Option Nat} (hrun : internalSet cfg fuel h this key val = .ok r) :
    HeapCounts L cfg none r.1 := by
  induction fuel generalizing h this r with
  | zero => cases hrun
  | succ fuel ih =>
    rw [internalSet_succ] at hrun
    obtain ⟨child, -, hrun⟩ := Outcome.bind_eq_ok.mp hrun
    obtain ⟨leaf, -, hrun⟩ := Outcome.bind_eq_ok.mp hrun
    obtain ⟨h', hchild, hrun⟩ := Outcome.bind_eq_ok.mp hrun
    refine setEnd_counts hcfg ?_ hrun
    cases leaf with
    | true =>
      obtain ⟨r₁, hinsert, hchild⟩ := Outcome.bind_eq_ok.mp hchild
      have hk₁ := leafInsert_counts hL hk hinsert
      split at hchild
      · obtain rfl := Outcome.ok.inj hchild
        exact hk₁.mono fun _ _ hc => hc.full _
      · exact insertLeaf_counts hcfg hk₁ hchild
    | false =>
      obtain ⟨r₁, hset, hchild⟩ := Outcome.bind_eq_ok.mp hchild
      have hk₁ := ih hk hset
      split at hchild
      · obtain rfl := Outcome.ok.inj hchild
        exact hk₁.mono fun _ _ hc => hc.full _
      · exact insertInternal_counts hcfg hk₁ hchild

omit hcfg in
/-- What `set` gives back as the root of the subtree is an internal node. -/
theorem internalSet_root {fuel this : Nat} {key : K} {val : V} {r : Heap K V × Option Nat}
    (hrun : internalSet cfg fuel h this key val = .ok r) :
    ∃ n : Internal, r.1.read (r.2.getD this) = some (.internal n) := by
  cases fuel with
  | zero => cases hrun
  | succ fuel =>
    rw [internalSet_succ] at hrun
    obtain ⟨child, -, hrun⟩ := Outcome.bind_eq_ok.mp hrun
    obtain ⟨leaf, -, hrun⟩ := Outcome.bind_eq_ok.mp hrun
    obtain ⟨h', -, hrun⟩ := Outcome.bind_eq_ok.mp hrun
    obtain ⟨n, hn, hrun⟩ := Outcome.bind_eq_ok.mp hrun
    split at hrun
    · obtain ⟨s, hsplit, hrun⟩ := Outcome.bind_eq_ok.mp hrun
      obtain rfl := Outcome.ok.inj hrun
      obtain ⟨n', middleNode, m, hn', hm, hroot, heq⟩ := exists_of_internalSplit hsplit
      have hthis := CellStore.lt_fresh_of_read hn'
      have hmiddle := CellStore.lt_fresh_of_read hm
      refine ⟨⟨this, some middleNode, 1⟩, ?_⟩
      rw [Option.getD_some, hroot, heq, CellStore.read_write_of_ne hthis.ne',
        CellStore.read_write_of_ne hmiddle.ne', CellStore.read_alloc_of_lt (by simp),
        CellStore.read_alloc_self]
    · obtain rfl := Outcome.ok.inj hrun
      exact ⟨n, derefInternal_ok hn⟩

/-! ## `delete_key` -/

omit hcfg in include hL in
theorem DeleteStep.counts {h' : Heap K V} (hstep : DeleteStep h h') (hk : HeapCounts L cfg none h) :
    HeapCounts L cfg none h' := by
  cases hstep with
  | leaf cell run =>
    exact hk.write (fun _ _ _ hc => hc) (cellCounts_leaf (hL.delete (hk _ _ cell) run) none)
  | link cell next => exact hk.write (fun _ _ _ hc => hc) (cellCounts_listNode ..)
  | unroot cell root =>
    have hn : CellCounts L cfg.maxSize none _ (.internal _ : Cell K V) := hk _ _ cell
    exact hk.write (fun _ _ _ hc => hc) hn
  | free cell => exact hk.free _

omit hcfg in include hL in
theorem DeleteSteps.counts {h' : Heap K V} (hsteps : DeleteSteps h h')
    (hk : HeapCounts L cfg none h) : HeapCounts L cfg none h' := by
  induction hsteps with
  | refl => exact hk
  | tail _ hstep ih => exact hstep.counts hL ih

end Counts

/-! ## Trees -/

/-- The cells of a tree keep what they should, and its root is an internal node. -/
structure Tree.Kept (cfg : Config) (t : Tree K V) : Prop where
  cells : HeapKept cfg none t.heap
  root : ∀ root, t.mRoot = some root → ∃ n : Internal, t.heap.read root = some (.internal n)

structure Tree.Counts (L : Leaf K V → Prop) (cfg : Config) (t : Tree K V) : Prop where
  cells : HeapCounts L cfg none t.heap
  root : ∀ root, t.mRoot = some root → ∃ n : Internal, t.heap.read root = some (.internal n)

theorem Tree.kept_iff {t : Tree K V} :
    t.Kept cfg ↔ t.Counts (fun l => l.mList.Kept cfg.maxSize) cfg := by
  constructor
  · rintro ⟨hcells, hroot⟩
    rw [HeapKept, cellKept_eq] at hcells
    exact ⟨hcells, hroot⟩
  · rintro ⟨hcells, hroot⟩
    refine ⟨?_, hroot⟩
    rw [HeapKept, cellKept_eq]
    exact hcells

omit [LinearOrder K] in
theorem Tree.counts_empty (L : Leaf K V → Prop) : Tree.Counts L cfg ({} : Tree K V) := by
  refine ⟨fun a c hc => ?_, fun root hroot => by cases hroot⟩
  have hlt := CellStore.lt_fresh_of_read hc
  cases hlt

theorem Tree.kept_empty : Tree.Kept cfg ({} : Tree K V) := Tree.kept_iff.mpr (Tree.counts_empty _)

/-- `delete_key` of a tree is that of its root, which is not emptied. -/
theorem Tree.Counts.deleteKey_eq {t : Tree K V} {root : Nat} (hk : t.Counts L cfg)
    (hroot : t.mRoot = some root) (fuel : Nat) (key : K) : t.deleteKey fuel key =
      (baseDeleteKey fuel t.heap root key >>= fun r => .ok (⟨r.1, some root⟩, r.2)) := by
  simp only [Tree.deleteKey, hroot]
  cases hrun : baseDeleteKey fuel t.heap root key with
  | fault e => rfl
  | outOfFuel => rfl
  | ok r =>
    obtain ⟨n, hn⟩ := hk.root root hroot
    obtain ⟨n', hn', hsize⟩ := (baseDeleteKey_steps hrun).internal hn
    have hpos : CellCounts L cfg.maxSize none root (.internal n : Cell K V) := hk.cells _ _ hn
    simp [baseSize, hn', hsize, hpos.1]

section Trees

variable {t t' : Tree K V}

theorem Tree.set_counts (hcfg : cfg.Cuts) (hL : LeafInvariant cfg L) (hk : t.Counts L cfg)
    {fuel : Nat} {key : K} {val : V} (hrun : t.set cfg fuel key val = .ok t') :
    t'.Counts L cfg := by
  unfold Tree.set at hrun
  split at hrun
  · obtain ⟨r, hr, hrun⟩ := Outcome.bind_eq_ok.mp hrun
    obtain rfl := Outcome.ok.inj hrun
    refine ⟨newInternal_counts hcfg hL (newLeafWith_counts hL hk.cells key val) hr, ?_⟩
    rintro root ⟨⟩
    obtain ⟨k, -, hr⟩ := Outcome.bind_eq_ok.mp hr
    obtain ⟨lIsLeaf, -, hr⟩ := Outcome.bind_eq_ok.mp hr
    obtain rfl := Outcome.ok.inj hr
    exact ⟨_, CellStore.read_alloc_self _ _⟩
  · obtain ⟨r, hr, hrun⟩ := Outcome.bind_eq_ok.mp hrun
    have hcells := internalSet_counts hcfg hL hk.cells hr
    have hroot := internalSet_root hr
    split at hrun
    · rename_i hnone
      obtain rfl := Outcome.ok.inj hrun
      rw [hnone] at hroot
      refine ⟨hcells, ?_⟩
      rintro root ⟨⟩
      exact hroot
    · rename_i hsome
      obtain rfl := Outcome.ok.inj hrun
      rw [hsome] at hroot
      refine ⟨hcells, ?_⟩
      rintro root ⟨⟩
      exact hroot

theorem Tree.deleteKey_counts (hL : LeafInvariant cfg L) (hk : t.Counts L cfg) {fuel : Nat}
    {key : K} {b : Bool} (hrun : t.deleteKey fuel key = .ok (t', b)) : t'.Counts L cfg := by
  cases hroot : t.mRoot with
  | none =>
    simp only [Tree.deleteKey, hroot] at hrun
    obtain ⟨rfl, -⟩ := Prod.mk.inj (Outcome.ok.inj hrun)
    exact hk
  | some root =>
    rw [hk.deleteKey_eq hroot] at hrun
    obtain ⟨r, hr, hrun⟩ := Outcome.bind_eq_ok.mp hrun
    obtain ⟨rfl, -⟩ := Prod.mk.inj (Outcome.ok.inj hrun)
    have hsteps := baseDeleteKey_steps hr
    refine ⟨hsteps.counts hL hk.cells, ?_⟩
    rintro root' ⟨⟩
    obtain ⟨n, hn⟩ := hk.root _ hroot
    obtain ⟨n', hn', -⟩ := hsteps.internal hn
    exact ⟨n', hn'⟩

variable (hcfg : cfg.Admissible)

include hcfg

theorem Tree.set_kept (hk : t.Kept cfg) {fuel : Nat} {key : K} {val : V}
    (hrun : t.set cfg fuel key val = .ok t') : t'.Kept cfg :=
  Tree.kept_iff.mpr (Tree.set_counts hcfg.cuts hcfg.leafInvariant (Tree.kept_iff.mp hk) hrun)

theorem Tree.deleteKey_kept (hk : t.Kept cfg) {fuel : Nat} {key : K} {b : Bool}
    (hrun : t.deleteKey fuel key = .ok (t', b)) : t'.Kept cfg :=
  Tree.kept_iff.mpr (Tree.deleteKey_counts hcfg.leafInvariant (Tree.kept_iff.mp hk) hrun)

theorem Tree.call_kept (hk : t.Kept cfg) {fuel : Nat} {c : Call K V}
    (hrun : t.call cfg fuel c = .ok t') : t'.Kept cfg := by
  cases c with
  | set key val => exact Tree.set_kept hcfg hk hrun
  | delete key =>
    obtain ⟨r, hr, hrun⟩ := Outcome.bind_eq_ok.mp hrun
    obtain rfl := Outcome.ok.inj hrun
    exact Tree.deleteKey_kept hcfg hk hr

/-- Whatever calls a tree has gone through, its cells keep what they should. -/
theorem Tree.calls_kept (hk : t.Kept cfg) {fuel : Nat} {cs : List (Call K V)}
    (hrun : Tree.calls cfg fuel cs t = .ok t') : t'.Kept cfg := by
  induction cs generalizing t with
  | nil =>
    obtain rfl := Outcome.ok.inj hrun
    exact hk
  | cons c cs ih =>
    obtain ⟨t₁, hcall, hrest⟩ := Outcome.bind_eq_ok.mp hrun
    exact ih (Tree.call_kept hcfg hk hcall) hrest

end Trees

end StateDb.Bpt
