/-
  StateDb/BptLevel.lean
  =====================
  **How deep the leaves are** (`bpt_internal.h`, `bpt.h`).

  `Level cfg Q h d lo hi p s`: following `p` in the heap `h` one finds a subtree in charge of
  `[lo, hi)` whose leaves are all exactly `d` internal nodes down.  It is `Rep` with an exact
  depth and without the subtrees in charge of no key.

  `set` keeps it (`internalSet_level`), unless it splits an internal node that is the `m_lesser`
  of its parent: there `insert_internal` hangs the whole new root into the list of the parent,
  one level too deep (`GraftsRoot`).
-/
import StateDb.BptMap

namespace StateDb.Bpt

open Lib Lib.SortedAssoc

variable {K V : Type} [LinearOrder K] {cfg : Config} {Q : LeafPolicy K V}

/-! ## Subtrees of one depth -/

def Level (cfg : Config) (Q : LeafPolicy K V) (h : Heap K V) :
    Nat → WithBot K → WithTop K → Nat → Span K V → Prop
  | 0, lo, hi, p, s => ∃ l, IsLeaf cfg.maxSize Q h lo hi p l ∧ s = leafSpan p l
  | d + 1, lo, hi, p, s => HasInternal cfg.maxSize h (Level cfg Q h d) lo hi p s

theorem Level.rep {h : Heap K V} {d : Nat} {lo : WithBot K} {hi : WithTop K} {p : Nat}
    {s : Span K V} (hl : Level cfg Q h d lo hi p s) : Rep cfg Q h (d + 1) lo hi p s := by
  induction d generalizing lo hi p s with
  | zero => exact Or.inr (Or.inl hl)
  | succ d ih => exact Or.inr (Or.inr (HasInternal.mono hl fun _ _ _ _ => ih))

theorem Level.frame {h h' : Heap K V} (hk : KeysKept h h') {d : Nat} {lo : WithBot K}
    {hi : WithTop K} {p : Nat} {s : Span K V} (hl : Level cfg Q h d lo hi p s)
    (hsame : ∀ a ∈ s.foot, h'.read a = h.read a) : Level cfg Q h' d lo hi p s := by
  induction d generalizing lo hi p s with
  | zero =>
    obtain ⟨l, hl, rfl⟩ := hl
    exact ⟨l, hl.frame (hsame p List.mem_cons_self), rfl⟩
  | succ d ih => exact HasInternal.frame hk hl hsame fun _ _ _ _ => ih

variable (cfg Q) in
theorem Level.stable (d : Nat) : Stable cfg Q (d + 1) (fun h => Level cfg Q h d) where
  rep hl := hl.rep
  frame hk _ _ _ _ hl hsame := hl.frame hk hsame

/-! ## What `set` splits -/

/-- `set` of the key splits `p`: the leaf that the key comes to is full and has not got it, and
the nodes from `p` down to it are full. -/
inductive Overflows (cfg : Config) (h : Heap K V) (key : K) : Nat → Prop
  | leaf {p : Nat} {l : Leaf K V} (cell : h.read p = some (.leaf l))
      (full : cfg.maxSize ≤ l.mList.size) (absent : l.mList.getValPtr key = none) :
      Overflows cfg h key p
  | internal {p child : Nat} {n : Internal} (cell : h.read p = some (.internal n))
      (full : cfg.maxSize ≤ n.mSize) (route : Returns (fun fuel => getChildGe fuel h p key) child)
      (below : Overflows cfg h key child) : Overflows cfg h key p

/-- `set` of the key splits an internal node below `p` that is the `m_lesser` of its parent. -/
inductive GraftsRoot (cfg : Config) (h : Heap K V) (key : K) : Nat → Prop
  | lesser {p : Nat} {n m : Internal} (cell : h.read p = some (.internal n))
      (route : Returns (fun fuel => getChildGe fuel h p key) n.mLesser)
      (node : h.read n.mLesser = some (.internal m)) (overflows : Overflows cfg h key n.mLesser) :
      GraftsRoot cfg h key p
  | deeper {p child : Nat} {n : Internal} (cell : h.read p = some (.internal n))
      (route : Returns (fun fuel => getChildGe fuel h p key) child)
      (grafts : GraftsRoot cfg h key child) : GraftsRoot cfg h key p

theorem Grown.imp {P : Heap K V → WithBot K → WithTop K → Nat → Span K V → Prop}
    {h h₂ : Heap K V} {lo : WithBot K} {hi : WithTop K} {p : Nat} {n : Internal}
    {tail : Option Nat} {cut cut' : Prop} {s : Span K V} {entries : List (K × V)}
    (himp : cut → cut') (hg : Grown cfg P h h₂ lo hi p n tail cut s entries) :
    Grown cfg P h h₂ lo hi p n tail cut' s entries := by
  obtain ⟨n', seps, spans, hn, hr, heq, hsize⟩ := hg
  exact ⟨n', seps, spans, hn, hr, heq, hsize.imp_right fun h => ⟨h.1, himp h.2⟩⟩

/-- The end of `set` after its middle: the node is split only if it overflows. -/
theorem Grown.nodeSet (hcfg : cfg.Admissible) {d : Nat}
    {P : Heap K V → WithBot K → WithTop K → Nat → Span K V → Prop} (hP : Stable cfg Q d P)
    {h h₂ : Heap K V} {lo : WithBot K} {hi : WithTop K} {p child : Nat} {n : Internal}
    {seps : List (Sep K)} {tail : Option Nat} {spans : List (Span K V)} {s : Span K V}
    {entries : List (K × V)} {key : K} {val : V} {leaf : Bool}
    (hn : IsInternal cfg.maxSize h (P h) lo hi p n seps tail spans)
    (hchild : Returns (fun fuel => getChildGe fuel h p key) child)
    (hleaf : isLeaf h child = .ok leaf)
    (hset : Returns (fun fuel => setChild cfg fuel h p child key val leaf) h₂)
    (hg : Grown cfg P h h₂ lo hi p n tail (Overflows cfg h key child) s entries) :
    ∃ r, Returns (fun fuel => internalSet cfg fuel h p key val) r ∧
      NodeSet cfg P h lo hi p tail (Overflows cfg h key p) s entries r := by
  obtain ⟨n', seps', spans', hn', hr, heq, hsize⟩ := hg
  obtain ⟨r, hend, hres⟩ := setEnd_spec hcfg hP hn' hr heq
  refine ⟨r, internalSet_returns hchild hleaf hset hend, hres.imp ?_⟩
  intro hfull
  have hcap := hn.capacity
  have hold := hn.size
  obtain ⟨hmore, hover⟩ := hsize.resolve_left (by omega)
  exact .internal hn.cell (by omega) hchild hover

/-- `set` keeps the depth of the leaves, in a node and in its two halves. -/
theorem internalSet_level (hcfg : cfg.Admissible) {h : Heap K V} {d : Nat} {lo : WithBot K}
    {hi : WithTop K} {p : Nat} {n : Internal} {seps : List (Sep K)} {tail : Option Nat}
    {spans : List (Span K V)}
    (hn : IsInternal cfg.maxSize h (Level cfg Q h d) lo hi p n seps tail spans)
    (hnd : (internalSpan p seps spans).foot.Nodup) (key : K) (val : V) (hlo : lo ≤ key)
    (hhi : (key : WithTop K) < hi) (hgraft : ¬ GraftsRoot cfg h key p) :
    ∃ r, Returns (fun fuel => internalSet cfg fuel h p key val) r ∧
      NodeSet cfg (fun h => Level cfg Q h d) h lo hi p tail (Overflows cfg h key p)
        (internalSpan p seps spans) (upsert key val (internalSpan p seps spans).entries) r := by
  induction d generalizing lo hi p n seps tail spans with
  | zero =>
    have hP := Level.stable cfg Q 0
    obtain ⟨pre, post, before, t, after, rfl, rfl, hroute⟩ := hn.exists_route hlo hhi
    obtain ⟨l, hl, ht⟩ := hroute.hole.child
    obtain ⟨h₂, hset, hgrown⟩ := setChild_leaf hcfg hP (fun hl => ⟨_, hl, rfl⟩) hl ht hn
      (hP.owns hn hnd) hroute val
    apply Grown.nodeSet hcfg hP hn hroute.child (isLeaf_of_leaf hl.cell) hset (hgrown.imp _)
    rintro ⟨hfull, habsent⟩
    exact .leaf hl.cell hfull habsent
  | succ d ih =>
    have hP := Level.stable cfg Q (d + 1)
    obtain ⟨pre, post, before, t, after, rfl, rfl, hroute⟩ := hn.exists_route hlo hhi
    have hs := hP.owns hn hnd
    obtain ⟨n₁, seps₁, tail₁, spans₁, hn₁, rfl⟩ := hroute.hole.child
    obtain ⟨r, hrun, hres⟩ := ih hn₁ hs.child_nodup hroute.low hroute.high
      fun hdeeper => hgraft (.deeper hn.cell hroute.child hdeeper)
    cases hres with
    | whole h₁ n' seps' spans' node replaces heq =>
      exact Grown.nodeSet hcfg hP hn hroute.child (isLeaf_of_internal hn₁.cell)
        (Returns.bind hrun (Returns.const rfl))
        (grown_whole hP hn hs hroute replaces ⟨n', seps', tail₁, spans', node, rfl⟩ heq _)
    | halves h₁ R m k q s₁ s₂ hover root replaces heq =>
      -- only a child in the list is split: `insert_internal` takes its second branch
      have hlist : pre.isEmpty = false := by
        cases pre with
        | nil => exact absurd (.lesser hn.cell hroute.child hn₁.cell hover) hgraft
        | cons e es => rfl
      have hleft : Level cfg Q h₁ (d + 1) (lastLow lo pre) k (lastChild n.mLesser pre) s₁ :=
        root.left
      have hright : Level cfg Q h₁ (d + 1) k (nextHigh hi post) q s₂ := root.right
      obtain ⟨h₂, hins, hgrown⟩ := grown_halves hcfg hP hn hs hroute R q root.above root.below
        (replaces.forgetRoot hleft.rep.leaves_subset hright.rep.leaves_subset) hleft
        (by rw [hlist]; exact hright) heq hover
      apply Grown.nodeSet hcfg hP hn hroute.child (isLeaf_of_internal hn₁.cell)
        (Returns.bind hrun (hins.congr _)) hgrown
      intro fuel
      exact insertInternal_eq root.cell root.node fuel p

/-! ## Runs -/

/-- Every `set` of the run is made on a tree, and of a key, that satisfy `P`. -/
def EverySet (cfg : Config) (P : Tree K V → K → Prop) : List (K × V) → Tree K V → Prop
  | [], _ => True
  | (key, val) :: calls, t => P t key ∧
      ∀ t', Returns (fun fuel => t.set cfg fuel key val) t' → EverySet cfg P calls t'

/-- What every `set` with `P` keeps is kept by a run of them. -/
theorem Tree.setAll_keeps {P : Tree K V → K → Prop} {I : Tree K V → Prop}
    (hstep : ∀ t key val, I t → P t key →
      ∃ t', Returns (fun fuel => t.set cfg fuel key val) t' ∧ I t')
    {calls : List (K × V)} {t : Tree K V} (ht : I t) (hcalls : EverySet cfg P calls t) :
    ∃ t', Returns (fun fuel => Tree.setAll cfg fuel calls t) t' ∧ I t' := by
  induction calls generalizing t with
  | nil => exact ⟨t, Returns.const rfl, ht⟩
  | cons c calls ih =>
    obtain ⟨hc, hrest⟩ := hcalls
    obtain ⟨t₁, hrun₁, ht₁⟩ := hstep t c.1 c.2 ht hc
    obtain ⟨t₂, hrun₂, ht₂⟩ := ih ht₁ (hrest t₁ hrun₁)
    exact ⟨t₂, Returns.bind hrun₁ hrun₂, ht₂⟩

end StateDb.Bpt
